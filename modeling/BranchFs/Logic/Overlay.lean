/-
# BranchFs.Logic.Overlay -- trees laid over trees, and what a commit does to them

A tree is what stands at each path. An overlay reads its own delta first, nothing below a whiteout,
and the tree underneath for the rest; what it shows to a walk from the root is `shown`. Two overlays
are equal to a user when they show the same leaves: `leaf` forgets directories.

`graft` applies a delta and its whiteouts to a tree. Committing a delta that lies over `overlay δ T I`
either grafts it onto `I` and clears it away from `δ` (`clearedBase`), or grafts it onto `δ` and
merges the whiteouts (`mergedWhiteouts`). For both the question is whether the lower overlay then
shows the leaves the upper one showed, and the answer is a condition on the trees before.
-/
import Mathlib.Data.List.Infix
import Mathlib.Tactic.Common

namespace BranchFs.Logic

variable {ν ε : Type}

/-- What stands at each path. -/
abbrev Shape (ν ε : Type) := List ν → Option ε

/-- A whiteout stands at the path or above it. -/
def Covers (T : List ν → Prop) (q : List ν) : Prop := ∃ t, T t ∧ t <+: q

theorem Covers.mono {T : List ν → Prop} {a q : List ν} (h : Covers T a) (haq : a <+: q) :
    Covers T q := by
  obtain ⟨t, ht, hta⟩ := h
  exact ⟨t, ht, hta.trans haq⟩

section Trees

variable (dir : ε)

/-- Something that is no directory stands at the path. -/
def Leaf (K : Shape ν ε) (q : List ν) : Prop := ∃ k, K q = some k ∧ k ≠ dir

/-- The root is a directory, and everything above what stands somewhere. -/
structure Closed (K : Shape ν ε) : Prop where
  root : K [] = some dir
  above : ∀ {q a : List ν}, K q ≠ none → a <+: q → a ≠ q → K a = some dir

open scoped Classical in
/-- Directories apart. -/
noncomputable def leaf (k : Option ε) : Option ε := if k = some dir then none else k

open scoped Classical in
/-- What a walk from the root finds. -/
noncomputable def shown (K : Shape ν ε) : Shape ν ε := fun q =>
  if ∀ a, a <+: q → a ≠ q → K a = some dir then K q else none

open scoped Classical in
/-- A delta and its whiteouts over a tree. -/
noncomputable def overlay (δ : Shape ν ε) (T : List ν → Prop) (I : Shape ν ε) : Shape ν ε := fun q =>
  match δ q with
  | some k => some k
  | none => if Covers T q then none else I q

open scoped Classical in
/-- The leaves of a delta put into a tree the whiteouts have been cut from. -/
noncomputable def graft (K : Shape ν ε) (T : List ν → Prop) (δ : Shape ν ε) : Shape ν ε := fun q =>
  if Leaf dir δ q then δ q
  else if ∃ f, Leaf dir δ f ∧ f <+: q then none
  else if ∃ f, Leaf dir δ f ∧ q <+: f then some dir
  else if Covers T q then none
  else K q

variable {dir}

theorem leaf_dir : leaf dir (some dir) = none := if_pos rfl

theorem leaf_none : leaf dir none = none := by
  unfold leaf
  split <;> rfl

theorem leaf_of_ne {k : Option ε} (h : k ≠ some dir) : leaf dir k = k := if_neg h

theorem leaf_eq_none {k : Option ε} : leaf dir k = none ↔ k = none ∨ k = some dir := by
  by_cases h : k = some dir
  · simp [h, leaf_dir]
  · simp [leaf_of_ne h, h]

theorem leaf_eq_some {k : Option ε} {x : ε} : leaf dir k = some x ↔ k = some x ∧ x ≠ dir := by
  by_cases h : k = some dir
  · subst h
    rw [leaf_dir]
    constructor
    · intro hx
      cases hx
    · rintro ⟨hx, hne⟩
      exact absurd (Option.some.inj hx).symm hne
  · rw [leaf_of_ne h]
    constructor
    · rintro rfl
      exact ⟨rfl, fun heq => h (by rw [heq])⟩
    · exact fun hx => hx.1

theorem shown_of_dirs {K : Shape ν ε} {q : List ν}
    (h : ∀ a, a <+: q → a ≠ q → K a = some dir) : shown dir K q = K q := if_pos h

theorem shown_of_not {K : Shape ν ε} {q a : List ν} (ha : a <+: q) (hne : a ≠ q)
    (h : K a ≠ some dir) : shown dir K q = none := if_neg fun hall => h (hall a ha hne)

theorem shown_eq_some {K : Shape ν ε} {q : List ν} {k : ε} :
    shown dir K q = some k ↔ (∀ a, a <+: q → a ≠ q → K a = some dir) ∧ K q = some k := by
  unfold shown
  split
  · next h => exact ⟨fun hk => ⟨h, hk⟩, fun hk => hk.2⟩
  · next h => exact ⟨fun hk => absurd hk (by simp), fun hk => absurd hk.1 h⟩

/-- A walk looks at nothing but the way it takes. -/
theorem shown_congr {K K' : Shape ν ε} {q : List ν} (h : ∀ a, a <+: q → K a = K' a) :
    shown dir K q = shown dir K' q := by
  by_cases hall : ∀ a, a <+: q → a ≠ q → K a = some dir
  · rw [shown_of_dirs hall, h q List.prefix_rfl, shown_of_dirs]
    exact fun a ha hne => (h a ha) ▸ hall a ha hne
  · push Not at hall
    obtain ⟨a, ha, hne, hnot⟩ := hall
    rw [shown_of_not ha hne hnot, shown_of_not ha hne]
    rwa [← h a ha]

/-- Two trees that agree wherever both have directories on the way show the same to a walk. -/
theorem shown_congr_of_dirs {K K' : Shape ν ε}
    (h : ∀ q, (∀ a, a <+: q → a ≠ q → K a = some dir ∧ K' a = some dir) → K q = K' q) :
    shown dir K = shown dir K' := by
  -- by induction on the length, directories of one on the way are directories of the other
  have hiff : ∀ (n : Nat) (q : List ν), q.length = n →
      ((∀ a, a <+: q → a ≠ q → K a = some dir) ↔ ∀ a, a <+: q → a ≠ q → K' a = some dir) := by
    intro n
    induction n using Nat.strong_induction_on with
    | _ n ih =>
      intro q hn
      have hstep : ∀ a, a <+: q → a ≠ q →
          ((∀ c, c <+: a → c ≠ a → K c = some dir) ↔ ∀ c, c <+: a → c ≠ a → K' c = some dir) :=
        fun a ha hne =>
          ih a.length (hn ▸ lt_of_le_of_ne ha.length_le fun heq => hne (ha.eq_of_length heq)) a rfl
      have hinner : ∀ {a c : List ν}, a <+: q → c <+: a → c ≠ a → c <+: q ∧ c ≠ q := by
        intro a c ha hc hca
        refine ⟨hc.trans ha, ?_⟩
        rintro rfl
        exact hca (hc.eq_of_length_le ha.length_le)
      constructor
      · intro hall a ha hne
        have hk : ∀ c, c <+: a → c ≠ a → K c = some dir := fun c hc hca =>
          hall c (hinner ha hc hca).1 (hinner ha hc hca).2
        rw [← h a fun c hc hca => ⟨hk c hc hca, (hstep a ha hne).mp hk c hc hca⟩]
        exact hall a ha hne
      · intro hall a ha hne
        have hk : ∀ c, c <+: a → c ≠ a → K' c = some dir := fun c hc hca =>
          hall c (hinner ha hc hca).1 (hinner ha hc hca).2
        rw [h a fun c hc hca => ⟨(hstep a ha hne).mpr hk c hc hca, hk c hc hca⟩]
        exact hall a ha hne
  funext q
  by_cases hall : ∀ a, a <+: q → a ≠ q → K a = some dir
  · have hall' := (hiff _ q rfl).mp hall
    rw [shown_of_dirs hall, shown_of_dirs hall']
    exact h q fun a ha hne => ⟨hall a ha hne, hall' a ha hne⟩
  · have hall' : ¬ ∀ a, a <+: q → a ≠ q → K' a = some dir := fun h' => hall ((hiff _ q rfl).mpr h')
    push Not at hall hall'
    obtain ⟨a, ha, hne, hnot⟩ := hall
    obtain ⟨c, hc, hcne, hcnot⟩ := hall'
    rw [shown_of_not ha hne hnot, shown_of_not hc hcne hcnot]

/-- The way to a path leads through directories of the tree exactly when a walk finds them to be. -/
theorem shown_way_iff {K : Shape ν ε} {q : List ν} :
    (∀ a, a <+: q → a ≠ q → shown dir K a = some dir) ↔ ∀ a, a <+: q → a ≠ q → K a = some dir := by
  constructor
  · exact fun h a ha hne => (shown_eq_some.mp (h a ha hne)).2
  · intro h a ha hne
    refine shown_eq_some.mpr ⟨fun c hc hca => h c (hc.trans ha) ?_, h a ha hne⟩
    rintro rfl
    exact hca (hc.eq_of_length_le ha.length_le)

/-- Two trees show the same to a walk exactly when they agree wherever the way leads through directories
of the one. -/
theorem shown_eq_iff {K K' : Shape ν ε} : shown dir K = shown dir K' ↔
    ∀ q, (∀ a, a <+: q → a ≠ q → K a = some dir) → K q = K' q := by
  constructor
  · intro h q hway
    have hway' : ∀ a, a <+: q → a ≠ q → K' a = some dir := by
      rw [← shown_way_iff, ← h]
      exact shown_way_iff.mpr hway
    rw [← shown_of_dirs hway, ← shown_of_dirs hway', h]
  · exact fun h => shown_congr_of_dirs fun q hway => h q fun a ha hne => (hway a ha hne).1

/-- A walk that shows no leaf at a path: either it ends before, or it finds a directory or nothing. -/
theorem leaf_shown_eq_none {K : Shape ν ε} {q : List ν} (h : leaf dir (K q) = none) :
    leaf dir (shown dir K q) = none := by
  unfold shown
  split
  · exact h
  · exact leaf_none

section Overlay

variable {δ I : Shape ν ε} {T : List ν → Prop} {q : List ν} {k : ε}

theorem overlay_of_some (h : δ q = some k) : overlay δ T I q = some k := by
  simp only [overlay, h]

theorem overlay_of_none (h : δ q = none) (hT : ¬ Covers T q) : overlay δ T I q = I q := by
  simp only [overlay, h, if_neg hT]

theorem overlay_of_covered (h : δ q = none) (hT : Covers T q) : overlay δ T I q = none := by
  simp only [overlay, h, if_pos hT]

/-- What an overlay shows is the delta's or the tree's. -/
theorem overlay_eq_some (h : overlay δ T I q = some k) : δ q = some k ∨ I q = some k := by
  unfold overlay at h
  split at h
  · next hk => exact Or.inl (hk.trans h)
  · split at h
    · cases h
    · exact Or.inr h

theorem Leaf.ne_none (h : Leaf dir δ q) : δ q ≠ none := by
  obtain ⟨k, hk, _⟩ := h
  simp [hk]

theorem Leaf.ne_dir (h : Leaf dir δ q) : δ q ≠ some dir := by
  obtain ⟨k, hk, hne⟩ := h
  rw [hk]
  exact fun heq => hne (Option.some.inj heq)

/-- What a closed tree has at a path is a leaf, a directory, or nothing. -/
theorem shape_cases (dir : ε) (δ : Shape ν ε) (q : List ν) : Leaf dir δ q ∨ δ q = some dir ∨ δ q = none := by
  cases h : δ q with
  | none => exact Or.inr (Or.inr rfl)
  | some k =>
    by_cases hk : k = dir
    · exact Or.inr (Or.inl (by rw [hk]))
    · exact Or.inl ⟨k, h, hk⟩

/-- Below a leaf there is nothing. -/
theorem Closed.none_below (hδ : Closed dir δ) {f : List ν} (hf : Leaf dir δ f) (hfq : f <+: q)
    (hne : f ≠ q) : δ q = none := by
  by_contra hq
  exact hf.ne_dir (hδ.above hq hfq hne)

/-- Above a leaf there are directories. -/
theorem Closed.dir_above (hδ : Closed dir δ) {f : List ν} (hf : Leaf dir δ f) (hqf : q <+: f)
    (hne : q ≠ f) : δ q = some dir := hδ.above hf.ne_none hqf hne

/-- No leaf stands above or at a path where the delta has a directory. -/
theorem Closed.no_leaf_above (hδ : Closed dir δ) (hq : δ q = some dir) :
    ¬ ∃ f, Leaf dir δ f ∧ f <+: q := by
  rintro ⟨f, hf, hfq⟩
  by_cases heq : f = q
  · exact hf.ne_dir (heq ▸ hq)
  · rw [hδ.none_below hf hfq heq] at hq
    cases hq

/-- A walk through a closed tree finds the tree. -/
theorem Closed.shown (hδ : Closed dir δ) : shown dir δ = δ := by
  funext q
  by_cases hq : δ q = none
  · by_cases hall : ∀ a, a <+: q → a ≠ q → δ a = some dir
    · exact shown_of_dirs hall
    · push Not at hall
      obtain ⟨a, ha, hne, hnot⟩ := hall
      rw [shown_of_not ha hne hnot, hq]
  · exact shown_of_dirs fun a ha hne => hδ.above hq ha hne

/-- **A delta of empty directories** shows what it lies over, away from a set of paths closed
downwards, exactly when its directories there are directories underneath. -/
theorem shown_over_dirs_iff {K I : Shape ν ε} {H : List ν → Prop} (hδ : Closed dir δ)
    (hno : ∀ q, ¬ Leaf dir δ q) (hH : ∀ a q, H a → a <+: q → H q)
    (hK : ∀ q, ¬ H q → K q = (δ q).or (I q)) :
    (∀ q, ¬ H q → Logic.shown dir K q = Logic.shown dir I q) ↔
      ∀ q, ¬ H q → δ q = some dir → Logic.shown dir I q = some dir := by
  constructor
  · intro h q hq hdir
    have hdirs : ∀ a, a <+: q → K a = some dir := by
      intro a ha
      have hδa : δ a = some dir := by
        by_cases heq : a = q
        · rw [heq, hdir]
        · exact hδ.above (by simp [hdir]) ha heq
      rw [hK a fun hHa => hq (hH a q hHa ha), hδa, Option.some_or]
    rw [← h q hq, shown_of_dirs fun a ha _ => hdirs a ha]
    exact hdirs q List.prefix_rfl
  · intro h q hq
    refine shown_congr fun a ha => ?_
    have hHa : ¬ H a := fun hHa => hq (hH a q hHa ha)
    rw [hK a hHa]
    rcases shape_cases dir δ a with hleaf | hdir | hnone
    · exact absurd hleaf (hno a)
    · obtain ⟨-, hI⟩ := shown_eq_some.mp (h a hHa hdir)
      rw [hdir, hI, Option.some_or]
    · rw [hnone, Option.none_or]

end Overlay

section Graft

variable {K δ : Shape ν ε} {T : List ν → Prop} {q : List ν}

theorem graft_of_leaf (h : Leaf dir δ q) : graft dir K T δ q = δ q := if_pos h

theorem graft_of_leaf_above {f : List ν} (hq : ¬ Leaf dir δ q) (hf : Leaf dir δ f) (hfq : f <+: q) :
    graft dir K T δ q = none := by
  simp only [graft, if_neg hq, if_pos (show ∃ f, Leaf dir δ f ∧ f <+: q from ⟨f, hf, hfq⟩)]

theorem graft_of_leaf_below {f : List ν} (hq : ¬ ∃ g, Leaf dir δ g ∧ g <+: q) (hf : Leaf dir δ f)
    (hqf : q <+: f) : graft dir K T δ q = some dir := by
  have hself : ¬ Leaf dir δ q := fun h => hq ⟨q, h, List.prefix_rfl⟩
  simp only [graft, if_neg hself, if_neg hq, if_pos (show ∃ f, Leaf dir δ f ∧ q <+: f from ⟨f, hf, hqf⟩)]

theorem graft_of_covered (hup : ¬ ∃ g, Leaf dir δ g ∧ g <+: q) (hdown : ¬ ∃ g, Leaf dir δ g ∧ q <+: g)
    (hT : Covers T q) : graft dir K T δ q = none := by
  have hself : ¬ Leaf dir δ q := fun h => hup ⟨q, h, List.prefix_rfl⟩
  simp only [graft, if_neg hself, if_neg hup, if_neg hdown, if_pos hT]

theorem graft_of_apart (hup : ¬ ∃ g, Leaf dir δ g ∧ g <+: q) (hdown : ¬ ∃ g, Leaf dir δ g ∧ q <+: g)
    (hT : ¬ Covers T q) : graft dir K T δ q = K q := by
  have hself : ¬ Leaf dir δ q := fun h => hup ⟨q, h, List.prefix_rfl⟩
  simp only [graft, if_neg hself, if_neg hup, if_neg hdown, if_neg hT]

/-- Where the delta has no leaf at or above the path, the graft has a directory for the leaves below,
or what is left of the tree. -/
theorem graft_cases (hup : ¬ ∃ g, Leaf dir δ g ∧ g <+: q) :
    ((∃ g, Leaf dir δ g ∧ q <+: g) ∧ graft dir K T δ q = some dir) ∨
    ((¬ ∃ g, Leaf dir δ g ∧ q <+: g) ∧ Covers T q ∧ graft dir K T δ q = none) ∨
    ((¬ ∃ g, Leaf dir δ g ∧ q <+: g) ∧ ¬ Covers T q ∧ graft dir K T δ q = K q) := by
  by_cases hdown : ∃ g, Leaf dir δ g ∧ q <+: g
  · obtain ⟨f, hf, hqf⟩ := hdown
    exact Or.inl ⟨⟨f, hf, hqf⟩, graft_of_leaf_below hup hf hqf⟩
  · by_cases hT : Covers T q
    · exact Or.inr (Or.inl ⟨hdown, hT, graft_of_covered hup hdown hT⟩)
    · exact Or.inr (Or.inr ⟨hdown, hT, graft_of_apart hup hdown hT⟩)

end Graft

/-! ## Committing to the tree underneath -/

section CommitBase

variable (dir)

/-- What is left of the delta of `main`: nothing at or below a leaf or whiteout that was committed. -/
def cleared (δM : Shape ν ε) (T : List ν → Prop) (δ : Shape ν ε) (δM' : Shape ν ε) : Prop :=
  ∀ q, (Covers T q ∨ (∃ f, Leaf dir δ f ∧ f <+: q) → δM' q = none) ∧
    (¬ Covers T q → (¬ ∃ f, Leaf dir δ f ∧ f <+: q) → δM' q = δM q)

/-- Nothing but directories is in the way of the leaves of a delta, the whiteouts cut away. -/
def Unblocked (K : Shape ν ε) (T : List ν → Prop) (δ : Shape ν ε) : Prop :=
  ∀ f a, Leaf dir δ f → a <+: f → a ≠ f → ¬ Covers T a → K a = none ∨ K a = some dir

/-- Where the delta has a directory that no whiteout covers, the lower overlay has no leaf. -/
def NoLeafUnder (KM : Shape ν ε) (T : List ν → Prop) (δ : Shape ν ε) : Prop :=
  ∀ g, δ g = some dir → ¬ Covers T g → leaf dir (KM g) = none

variable {dir}
variable {δ δM δM' β : Shape ν ε} {T TM : List ν → Prop}

/-- A directory after the commit was one before it. -/
theorem dir_before_of_dir_after (hδ : Closed dir δ) (hclear : cleared dir δM T δ δM') {x : List ν}
    (h : overlay δM' TM (graft dir β T δ) x = some dir) :
    overlay δ T (overlay δM TM β) x = some dir := by
  have hnone : (¬ Leaf dir δ x) → δ x ≠ some dir → δ x = none := fun h1 h2 => by
    rcases shape_cases dir δ x with h | h | h
    · exact absurd h h1
    · exact absurd h h2
    · exact h
  by_cases hd : δ x = some dir
  · exact overlay_of_some hd
  by_cases hup : ∃ f, Leaf dir δ f ∧ f <+: x
  · -- a leaf of the delta is all there is at and below it
    exfalso
    have hM : δM' x = none := (hclear x).1 (Or.inr hup)
    by_cases hc : Covers TM x
    · rw [overlay_of_covered hM hc] at h
      cases h
    · rw [overlay_of_none hM hc] at h
      by_cases hl : Leaf dir δ x
      · rw [graft_of_leaf hl] at h
        exact hl.ne_dir h
      · obtain ⟨f, hf, hfx⟩ := hup
        rw [graft_of_leaf_above hl hf hfx] at h
        cases h
  have hl : ¬ Leaf dir δ x := fun hl => hup ⟨x, hl, List.prefix_rfl⟩
  have hx := hnone hl hd
  cases hM : δM' x with
  | some k =>
    rw [overlay_of_some hM] at h
    have hT : ¬ Covers T x := by
      intro hT
      rw [(hclear x).1 (Or.inl hT)] at hM
      cases hM
    rw [(hclear x).2 hT hup] at hM
    rw [overlay_of_none hx hT, overlay_of_some hM, ← h]
  | none =>
    by_cases hc : Covers TM x
    · rw [overlay_of_covered hM hc] at h
      cases h
    rw [overlay_of_none hM hc] at h
    rcases graft_cases (K := β) (T := T) hup with ⟨⟨f, hf, hxf⟩, _⟩ | ⟨_, _, hg⟩ | ⟨_, hT, hg⟩
    · exact absurd (hδ.dir_above hf hxf fun heq => hl (heq ▸ hf)) hd
    · rw [hg] at h
      cases h
    · rw [hg] at h
      rw [(hclear x).2 hT hup] at hM
      rw [overlay_of_none hx hT, overlay_of_none hM hc, h]

/-- **Committing to the tree underneath shows the same leaves** when no whiteout of the lower overlay
covers a leaf of the delta and the lower overlay has no leaf at its directories. -/
theorem shown_after_base (hδ : Closed dir δ) (hδM : Closed dir δM) (hβ : Closed dir β)
    (hclear : cleared dir δM T δ δM')
    (hcover : ∀ f, Leaf dir δ f → ¬ Covers TM f) (hleaf : NoLeafUnder dir (overlay δM TM β) T δ)
    (q : List ν) :
    leaf dir (shown dir (overlay δM' TM (graft dir β T δ)) q) =
      leaf dir (shown dir (overlay δ T (overlay δM TM β)) q) := by
  by_cases hall : ∀ a, a <+: q → a ≠ q → overlay δ T (overlay δM TM β) a = some dir
  swap
  · -- the walk ended before: it still does
    obtain ⟨a, ha, hne, hnot⟩ : ∃ a, a <+: q ∧ a ≠ q ∧
        overlay δ T (overlay δM TM β) a ≠ some dir := by
      simpa only [not_forall, exists_prop] using hall
    rw [shown_of_not ha hne hnot, shown_of_not ha hne]
    exact fun h => hnot (dir_before_of_dir_after hδ hclear h)
  rw [shown_of_dirs hall]
  -- no leaf of the delta stands above `q`
  have hnoleaf : ∀ a, a <+: q → a ≠ q → ¬ ∃ f, Leaf dir δ f ∧ f <+: a := by
    rintro a ha hne ⟨f, hf, hfa⟩
    have hfq : f ≠ q := fun heq => hne (ha.eq_of_length_le (heq ▸ hfa.length_le))
    obtain ⟨k, hk, hkd⟩ := hf
    have := hall f (hfa.trans ha) hfq
    rw [overlay_of_some hk] at this
    exact hkd (Option.some.inj this)
  rcases shape_cases dir δ q with hl | hd | hn
  · -- a leaf of the delta arrives, and the way to it is clear
    have hM : δM' q = none := (hclear q).1 (Or.inr ⟨q, hl, List.prefix_rfl⟩)
    have hq : overlay δM' TM (graft dir β T δ) q = δ q := by
      rw [overlay_of_none hM (hcover q hl), graft_of_leaf hl]
    have hdirs : ∀ a, a <+: q → a ≠ q → overlay δM' TM (graft dir β T δ) a = some dir := by
      intro a ha hne
      have hda : δ a = some dir := hδ.dir_above hl ha hne
      have hca : ¬ Covers TM a := fun hc => hcover q hl (hc.mono ha)
      cases hMa : δM' a with
      | none => rw [overlay_of_none hMa hca, graft_of_leaf_below (hnoleaf a ha hne) hl ha]
      | some k =>
        have hT : ¬ Covers T a := by
          intro hT
          rw [(hclear a).1 (Or.inl hT)] at hMa
          cases hMa
        have hMa' := hMa
        rw [(hclear a).2 hT (hnoleaf a ha hne)] at hMa'
        have hk := hleaf a hda hT
        rw [overlay_of_some hMa'] at hk
        rw [overlay_of_some hMa]
        exact (leaf_eq_none.mp hk).resolve_left (by simp)
    rw [shown_of_dirs hdirs, hq]
    obtain ⟨k, hk, _⟩ := hl
    rw [hk, overlay_of_some hk]
  · -- a directory of the delta: what is shown there afterwards is no leaf
    have hup := hδ.no_leaf_above hd
    rw [overlay_of_some hd, leaf_dir]
    refine leaf_shown_eq_none ?_
    cases hMq : δM' q with
    | some k =>
      have hT : ¬ Covers T q := by
        intro hT
        rw [(hclear q).1 (Or.inl hT)] at hMq
        cases hMq
      have hMq' := hMq
      rw [(hclear q).2 hT hup] at hMq'
      have hk := hleaf q hd hT
      rw [overlay_of_some hMq'] at hk
      rwa [overlay_of_some hMq]
    | none =>
      by_cases hc : Covers TM q
      · rw [overlay_of_covered hMq hc, leaf_none]
      rw [overlay_of_none hMq hc]
      rcases graft_cases (K := β) (T := T) hup with ⟨_, hg⟩ | ⟨_, _, hg⟩ | ⟨_, hT, hg⟩
      · rw [hg, leaf_dir]
      · rw [hg, leaf_none]
      · rw [(hclear q).2 hT hup] at hMq
        have hk := hleaf q hd hT
        rw [overlay_of_none hMq hc] at hk
        rw [hg, hk]
  · have hup : ¬ ∃ f, Leaf dir δ f ∧ f <+: q := by
      rintro ⟨f, hf, hfq⟩
      by_cases heq : f = q
      · exact hf.ne_none (heq ▸ hn)
      · obtain ⟨k, hk, hkd⟩ := hf
        have := hall f hfq heq
        rw [overlay_of_some hk] at this
        exact hkd (Option.some.inj this)
    have hdown : ¬ ∃ f, Leaf dir δ f ∧ q <+: f := by
      rintro ⟨f, hf, hqf⟩
      by_cases heq : q = f
      · exact hf.ne_none (heq ▸ hn)
      · rw [hδ.dir_above hf hqf heq] at hn
        cases hn
    by_cases hT : Covers T q
    · -- what the session deleted is gone from both layers
      rw [overlay_of_covered hn hT, leaf_none]
      refine leaf_shown_eq_none ?_
      have hMq : δM' q = none := (hclear q).1 (Or.inl hT)
      by_cases hc : Covers TM q
      · rw [overlay_of_covered hMq hc, leaf_none]
      · rw [overlay_of_none hMq hc, graft_of_covered hup hdown hT, leaf_none]
    · -- what it never touched is read as before
      rw [overlay_of_none hn hT]
      have hq : overlay δM' TM (graft dir β T δ) q = overlay δM TM β q := by
        unfold overlay
        rw [(hclear q).2 hT hup, graft_of_apart hup hdown hT]
      by_cases hkq : leaf dir (overlay δM TM β q) = none
      · rw [hkq]
        exact leaf_shown_eq_none (hq ▸ hkq)
      have hdirs : ∀ a, a <+: q → a ≠ q → overlay δM' TM (graft dir β T δ) a = some dir := by
        intro a ha hne
        have hTa : ¬ Covers T a := fun h => hT (h.mono ha)
        have hMa := (hclear a).2 hTa (hnoleaf a ha hne)
        have hshown := hall a ha hne
        have hkne : overlay δM TM β q ≠ none := fun h => hkq (by rw [h, leaf_none])
        by_cases hMq : δM q = none
        · -- read from the tree underneath, so a directory of it stands at `a`
          have hcq : ¬ Covers TM q := fun hc => hkne (overlay_of_covered hMq hc)
          have hca : ¬ Covers TM a := fun hc => hcq (hc.mono ha)
          rw [overlay_of_none hMq hcq] at hkne
          have hβa : β a = some dir := hβ.above hkne ha hne
          cases hMa' : δM a with
          | none =>
            rw [overlay_of_none (by rw [hMa, hMa']) hca]
            rcases graft_cases (K := β) (T := T) (hnoleaf a ha hne) with
              ⟨_, hg⟩ | ⟨_, hTa', _⟩ | ⟨_, _, hg⟩
            · exact hg
            · exact absurd hTa' hTa
            · rw [hg, hβa]
          | some k =>
            rw [overlay_of_some (hMa.trans hMa')]
            rcases shape_cases dir δ a with hla | hda | hna
            · exact absurd ⟨a, hla, List.prefix_rfl⟩ (hnoleaf a ha hne)
            · have hk := hleaf a hda hTa
              rw [overlay_of_some hMa'] at hk
              exact (leaf_eq_none.mp hk).resolve_left (by simp)
            · rw [overlay_of_none hna hTa, overlay_of_some hMa'] at hshown
              exact hshown
        · have hMa' : δM a = some dir := hδM.above hMq ha hne
          exact overlay_of_some (hMa.trans hMa')
      rw [shown_of_dirs hdirs, hq]

/-- The overlay is a directory above anything it has, as far as its layers agree. -/
theorem overlay_above (hδM : Closed dir δM) (hβ : Closed dir β) {q a : List ν}
    (hq : overlay δM TM β q ≠ none) (ha : a <+: q) (hne : a ≠ q)
    (hleaf : leaf dir (overlay δM TM β a) = none) : overlay δM TM β a = some dir := by
  refine (leaf_eq_none.mp hleaf).resolve_left fun hnone => ?_
  cases hMa : δM a with
  | some k =>
    rw [overlay_of_some hMa] at hnone
    cases hnone
  | none =>
    have hMq : δM q = none := by
      by_contra h
      rw [hδM.above h ha hne] at hMa
      cases hMa
    by_cases hc : Covers TM q
    · exact hq (overlay_of_covered hMq hc)
    · have hca : ¬ Covers TM a := fun h => hc (h.mono ha)
      rw [overlay_of_none hMq hc] at hq
      rw [overlay_of_none hMa hca, hβ.above hq ha hne] at hnone
      cases hnone

/-- **And only then.** If the same leaves are shown everywhere but at some leaves `A` of the delta that
no lower whiteout covers, both conditions hold. -/
theorem conditions_of_shown_base (hδ : Closed dir δ) (hδM : Closed dir δM) (hβ : Closed dir β)
    (hclear : cleared dir δM T δ δM') (hok : Unblocked dir β T δ) {A : List ν → Prop}
    (hA : ∀ f, A f → Leaf dir δ f ∧ ¬ Covers TM f)
    (hshown : ∀ q, ¬ A q → leaf dir (shown dir (overlay δM' TM (graft dir β T δ)) q) =
      leaf dir (shown dir (overlay δ T (overlay δM TM β)) q)) :
    (∀ f, Leaf dir δ f → ¬ Covers TM f) ∧ NoLeafUnder dir (overlay δM TM β) T δ := by
  constructor
  · intro f hf hcov
    by_cases hAf : A f
    · exact (hA f hAf).2 hcov
    obtain ⟨k, hk, hkd⟩ := hf
    have hbefore : shown dir (overlay δ T (overlay δM TM β)) f = some k := by
      rw [shown_eq_some]
      exact ⟨fun a ha hne => overlay_of_some (hδ.dir_above ⟨k, hk, hkd⟩ ha hne), overlay_of_some hk⟩
    have hafter := hshown f hAf
    rw [hbefore, leaf_of_ne fun heq => hkd (Option.some.inj heq), leaf_eq_some] at hafter
    have hM : δM' f = none := (hclear f).1 (Or.inr ⟨f, ⟨k, hk, hkd⟩, List.prefix_rfl⟩)
    have hnone := overlay_of_covered (I := graft dir β T δ) hM hcov
    rw [(shown_eq_some.mp hafter.1).2] at hnone
    cases hnone
  · -- the first directory on the way with a leaf under it would show that leaf
    intro g
    obtain ⟨n, hn⟩ : ∃ n, n = g.length := ⟨_, rfl⟩
    induction n using Nat.strong_induction_on generalizing g with
    | _ n ih =>
      intro hd hT
      by_contra hkg
      have hup := hδ.no_leaf_above hd
      have hMg := (hclear g).2 hT hup
      have habove : ∀ a, a <+: g → a ≠ g → overlay δM TM β a = some dir ∧
          overlay δM' TM (graft dir β T δ) a = some dir := by
        intro a ha hne
        have hTa : ¬ Covers T a := fun h => hT (h.mono ha)
        have hlt : a.length < n := by
          refine hn ▸ lt_of_le_of_ne ha.length_le fun heq => hne (ha.eq_of_length heq)
        have hda : δ a = some dir := hδ.above (by simp [hd]) ha hne
        have hka := ih a.length hlt a rfl hda hTa
        have hbefore := overlay_above hδM hβ (fun h => hkg (by rw [h, leaf_none])) ha hne hka
        refine ⟨hbefore, ?_⟩
        have hMa := (hclear a).2 hTa (hδ.no_leaf_above hda)
        cases hMa' : δM a with
        | some k =>
          rw [overlay_of_some hMa'] at hbefore
          rw [overlay_of_some (hMa.trans hMa'), hbefore]
        | none =>
          have hca : ¬ Covers TM a := by
            intro hc
            rw [overlay_of_covered hMa' hc] at hbefore
            cases hbefore
          rw [overlay_of_none hMa' hca] at hbefore
          rw [overlay_of_none (hMa.trans hMa') hca]
          rcases graft_cases (K := β) (T := T) (hδ.no_leaf_above hda) with
            ⟨_, hg⟩ | ⟨_, hTa', _⟩ | ⟨_, _, hg⟩
          · exact hg
          · exact absurd hTa' hTa
          · rw [hg, hbefore]
      have hself : overlay δM' TM (graft dir β T δ) g = overlay δM TM β g := by
        cases hMg' : δM g with
        | some k => rw [overlay_of_some (hMg.trans hMg'), overlay_of_some hMg']
        | none =>
          have hc : ¬ Covers TM g := fun hc => hkg (by rw [overlay_of_covered hMg' hc, leaf_none])
          rw [overlay_of_none (hMg.trans hMg') hc, overlay_of_none hMg' hc]
          rw [overlay_of_none hMg' hc] at hkg
          rcases graft_cases (K := β) (T := T) hup with ⟨⟨f, hf, hgf⟩, _⟩ | ⟨_, hT', _⟩ | ⟨_, _, hg⟩
          · -- a leaf of the tree in the way of a leaf of the delta would have stopped the commit
            exfalso
            have hne : g ≠ f := fun heq => hf.ne_dir (heq ▸ hd)
            exact hkg (leaf_eq_none.mpr (hok f g hf hgf hne hT))
          · exact absurd hT' hT
          · exact hg
      have hnA : ¬ A g := fun h => (hA g h).1.ne_dir hd
      have heq := hshown g hnA
      rw [shown_of_dirs fun a ha hne => (habove a ha hne).2, hself] at heq
      have hbefore : leaf dir (shown dir (overlay δ T (overlay δM TM β)) g) = none :=
        leaf_shown_eq_none (by rw [overlay_of_some hd, leaf_dir])
      exact hkg (heq.trans hbefore)

end CommitBase

/-! ## Committing to the overlay underneath -/

section CommitNested

variable (dir)

/-- The whiteouts of the lower overlay after a commit into its delta: one of the upper overlay stays
where it hides something, and none stays on what was committed. -/
def mergedWhiteouts (I δ : Shape ν ε) (T W : List ν → Prop) : List ν → Prop := fun t =>
  (W t ∨ T t ∧ I t ≠ none) ∧ ¬ (T t ∧ I t = none) ∧ ¬ Leaf dir δ t

/-- Directories that were emptied and pruned: each was a directory of the graft, with nothing left
below but pruned directories. -/
structure Pruned (G : Shape ν ε) (D : List ν → Prop) : Prop where
  dir_of : ∀ {x}, D x → G x = some dir
  below : ∀ {x y}, D x → x <+: y → x ≠ y → G y ≠ none → D y

open scoped Classical in
/-- The graft with the pruned directories gone. -/
noncomputable def prune (G : Shape ν ε) (D : List ν → Prop) : Shape ν ε := fun q =>
  if D q then none else G q

/-- Where the delta has a directory without leaves that no whiteout covers, the lower overlay has no
leaf. -/
def NoLeafUnderEmpty (KP : Shape ν ε) (T : List ν → Prop) (δ : Shape ν ε) : Prop :=
  ∀ g, δ g = some dir → (¬ ∃ f, Leaf dir δ f ∧ g <+: f) → ¬ Covers T g → leaf dir (KP g) = none

/-- No pruned directory uncovers a leaf of the tree underneath. -/
def NoLeafUncovered (I : Shape ν ε) (W D : List ν → Prop) : Prop :=
  ∀ x, D x → ¬ Covers W x → leaf dir (I x) = none

variable {dir}
variable {δ δP I : Shape ν ε} {T W D : List ν → Prop}

theorem prune_of {G : Shape ν ε} {q : List ν} (h : D q) : prune G D q = none := if_pos h

theorem prune_of_not {G : Shape ν ε} {q : List ν} (h : ¬ D q) : prune G D q = G q := if_neg h

/-- No leaf of the delta stands at, above or below a pruned directory. -/
theorem Pruned.no_leaf (hD : Pruned dir (graft dir δP T δ) D) {x f : List ν}
    (hx : D x) (hf : Leaf dir δ f) : ¬ f <+: x ∧ ¬ x <+: f := by
  have hgx := hD.dir_of hx
  have hl : ¬ Leaf dir δ x := by
    intro hl
    rw [graft_of_leaf hl] at hgx
    exact hl.ne_dir hgx
  constructor
  · intro hfx
    rw [graft_of_leaf_above hl hf hfx] at hgx
    cases hgx
  · intro hxf
    have hne : x ≠ f := fun heq => hl (heq ▸ hf)
    have hgf : graft dir δP T δ f = δ f := graft_of_leaf hf
    have hDf := hD.below hx hxf hne (by rw [hgf]; exact hf.ne_none)
    rw [hD.dir_of hDf] at hgf
    exact hf.ne_dir hgf.symm

/-- A pruned directory was one of the lower delta's, and no whiteout covered it. -/
theorem Pruned.was_dir (hD : Pruned dir (graft dir δP T δ) D) {x : List ν}
    (hx : D x) : ¬ Covers T x ∧ δP x = some dir := by
  have hup : ¬ ∃ g, Leaf dir δ g ∧ g <+: x := fun ⟨g, hg, hgx⟩ => (hD.no_leaf hx hg).1 hgx
  have hgx := hD.dir_of hx
  rcases graft_cases (K := δP) (T := T) hup with ⟨⟨f, hf, hxf⟩, _⟩ | ⟨_, _, hg⟩ | ⟨_, hT, hg⟩
  · exact absurd hxf (hD.no_leaf hx hf).2
  · rw [hg] at hgx
    cases hgx
  · exact ⟨hT, hg ▸ hgx⟩

/-- Where no whiteout of the session and no leaf of its delta is at or above, the merged whiteouts
cover what the old ones covered. -/
theorem covers_merged_iff {q : List ν} (hT : ¬ Covers T q) (hup : ¬ ∃ f, Leaf dir δ f ∧ f <+: q) :
    Covers (mergedWhiteouts dir I δ T W) q ↔ Covers W q := by
  constructor
  · rintro ⟨t, ⟨hor, _, _⟩, htq⟩
    rcases hor with ht | ⟨ht, _⟩
    · exact ⟨t, ht, htq⟩
    · exact absurd ⟨t, ht, htq⟩ hT
  · rintro ⟨t, ht, htq⟩
    refine ⟨t, ⟨Or.inl ht, fun h => hT ⟨t, h.1, htq⟩, fun h => hup ⟨t, h, htq⟩⟩, htq⟩

/-- What a whiteout of the session covers is still whited out, or there is nothing to hide. -/
theorem covered_or_none {q : List ν} (hI : ∀ t q, I t = none → t <+: q → I q = none)
    (hT : Covers T q) (hup : ¬ ∃ f, Leaf dir δ f ∧ f <+: q) :
    Covers (mergedWhiteouts dir I δ T W) q ∨ I q = none := by
  obtain ⟨t, ht, htq⟩ := hT
  by_cases hIt : I t = none
  · exact Or.inr (hI t q hIt htq)
  · refine Or.inl ⟨t, ⟨Or.inr ⟨ht, hIt⟩, fun h => hIt h.2, fun h => hup ⟨t, h, htq⟩⟩, htq⟩

/-- What stands at a path where the session neither deleted nor put a leaf, after the commit. -/
theorem dir_after {a : List ν} (hT : ¬ Covers T a) (hup : ¬ ∃ f, Leaf dir δ f ∧ f <+: a)
    (hpruned : D a → ¬ Covers W a ∧ I a = some dir)
    (hrest : δP a = some dir ∨ δP a = none ∧ ¬ Covers W a ∧ I a = some dir) :
    overlay (prune (graft dir δP T δ) D) (mergedWhiteouts dir I δ T W) I a = some dir := by
  have hcov := covers_merged_iff (I := I) (W := W) hT hup
  by_cases hDa : D a
  · obtain ⟨hc, hIa⟩ := hpruned hDa
    rw [overlay_of_none (prune_of hDa) fun h => hc (hcov.mp h), hIa]
  have hp : prune (graft dir δP T δ) D a = graft dir δP T δ a := prune_of_not hDa
  rcases graft_cases (K := δP) (T := T) hup with ⟨_, hg⟩ | ⟨_, hT', _⟩ | ⟨_, _, hg⟩
  · exact overlay_of_some (hp.trans hg)
  · exact absurd hT' hT
  · rcases hrest with hPa | ⟨hPa, hc, hIa⟩
    · exact overlay_of_some (hp.trans (hg.trans hPa))
    · rw [overlay_of_none (hp.trans (hg.trans hPa)) fun h => hc (hcov.mp h), hIa]

variable (hδ : Closed dir δ) (hδP : Closed dir δP) (hD : Pruned dir (graft dir δP T δ) D)
  (hI : ∀ t q, I t = none → t <+: q → I q = none)

include hδ hδP hD hI

omit hδP in
/-- A directory on a way of directories after the commit was one before it. -/
theorem dir_before_of_dirs_after {x : List ν}
    (h : ∀ y, y <+: x → overlay (prune (graft dir δP T δ) D) (mergedWhiteouts dir I δ T W) I y =
      some dir) : overlay δ T (overlay δP W I) x = some dir := by
  have hx := h x List.prefix_rfl
  by_cases hd : δ x = some dir
  · exact overlay_of_some hd
  have hup : ¬ ∃ f, Leaf dir δ f ∧ f <+: x := by
    rintro ⟨f, hf, hfx⟩
    have hDf : ¬ D f := fun hDf => (hD.no_leaf hDf hf).1 List.prefix_rfl
    obtain ⟨k, hk, hkd⟩ := hf
    have hpf : prune (graft dir δP T δ) D f = some k := by
      rw [prune_of_not hDf, graft_of_leaf ⟨k, hk, hkd⟩, hk]
    have := h f hfx
    rw [overlay_of_some hpf] at this
    exact hkd (Option.some.inj this)
  have hn : δ x = none := by
    rcases shape_cases dir δ x with hl | hd' | hn
    · exact absurd ⟨x, hl, List.prefix_rfl⟩ hup
    · exact absurd hd' hd
    · exact hn
  have hdown : ¬ ∃ f, Leaf dir δ f ∧ x <+: f := by
    rintro ⟨f, hf, hxf⟩
    exact hd (hδ.dir_above hf hxf fun heq => hup ⟨x, heq ▸ hf, List.prefix_rfl⟩)
  by_cases hT : Covers T x
  · exfalso
    have hp : prune (graft dir δP T δ) D x = none := by
      by_cases hDx : D x
      · exact prune_of hDx
      · rw [prune_of_not hDx, graft_of_covered hup hdown hT]
    rcases covered_or_none (W := W) hI hT hup with hc | hIx
    · rw [overlay_of_covered hp hc] at hx
      cases hx
    · by_cases hc : Covers (mergedWhiteouts dir I δ T W) x
      · rw [overlay_of_covered hp hc] at hx
        cases hx
      · rw [overlay_of_none hp hc, hIx] at hx
        cases hx
  · rw [overlay_of_none hn hT]
    by_cases hDx : D x
    · exact overlay_of_some (hD.was_dir hDx).2
    have hp : prune (graft dir δP T δ) D x = δP x := by
      rw [prune_of_not hDx, graft_of_apart hup hdown hT]
    have heq : overlay (prune (graft dir δP T δ) D) (mergedWhiteouts dir I δ T W) I x =
        overlay δP W I x := by
      unfold overlay
      rw [hp, propext (covers_merged_iff (I := I) (W := W) hT hup)]
    rw [← heq, hx]

/-- **Committing to the overlay underneath shows the same leaves** when that overlay has no leaf at
the empty directories of the delta, and pruning uncovers none. -/
theorem shown_after_nested (hleaf : NoLeafUnderEmpty dir (overlay δP W I) T δ)
    (huncover : NoLeafUncovered dir I W D) (q : List ν) :
    leaf dir (shown dir (overlay (prune (graft dir δP T δ) D) (mergedWhiteouts dir I δ T W) I) q) =
      leaf dir (shown dir (overlay δ T (overlay δP W I)) q) := by
  by_cases hall : ∀ a, a <+: q → a ≠ q → overlay δ T (overlay δP W I) a = some dir
  swap
  · obtain ⟨a, ha, hne, hnot⟩ : ∃ a, a <+: q ∧ a ≠ q ∧
        overlay δ T (overlay δP W I) a ≠ some dir := by
      simpa only [not_forall, exists_prop] using hall
    rw [shown_of_not ha hne hnot]
    by_cases hafter : ∀ y, y <+: a →
        overlay (prune (graft dir δP T δ) D) (mergedWhiteouts dir I δ T W) I y = some dir
    · exact absurd (dir_before_of_dirs_after hδ hD hI hafter) hnot
    · obtain ⟨y, hya, hy⟩ : ∃ y, y <+: a ∧
          overlay (prune (graft dir δP T δ) D) (mergedWhiteouts dir I δ T W) I y ≠ some dir := by
        simpa only [not_forall, exists_prop] using hafter
      rw [shown_of_not (hya.trans ha) (fun heq => hne (ha.eq_of_length_le (heq ▸ hya.length_le))) hy]
  rw [shown_of_dirs hall]
  have hnoleaf : ∀ a, a <+: q → a ≠ q → ¬ ∃ f, Leaf dir δ f ∧ f <+: a := by
    rintro a ha hne ⟨f, hf, hfa⟩
    have hfq : f ≠ q := fun heq => hne (ha.eq_of_length_le (heq ▸ hfa.length_le))
    obtain ⟨k, hk, hkd⟩ := hf
    have := hall f (hfa.trans ha) hfq
    rw [overlay_of_some hk] at this
    exact hkd (Option.some.inj this)
  rcases shape_cases dir δ q with hl | hd | hn
  · have hDq : ¬ D q := fun h => (hD.no_leaf h hl).1 List.prefix_rfl
    have hq : prune (graft dir δP T δ) D q = δ q := by rw [prune_of_not hDq, graft_of_leaf hl]
    obtain ⟨k, hk, hkd⟩ := hl
    have hdirs : ∀ a, a <+: q → a ≠ q →
        overlay (prune (graft dir δP T δ) D) (mergedWhiteouts dir I δ T W) I a = some dir := by
      intro a ha hne
      have hDa : ¬ D a := fun h => (hD.no_leaf h ⟨k, hk, hkd⟩).2 ha
      refine overlay_of_some ?_
      rw [prune_of_not hDa, graft_of_leaf_below (hnoleaf a ha hne) ⟨k, hk, hkd⟩ ha]
    rw [shown_of_dirs hdirs, overlay_of_some hk, overlay_of_some (hq.trans hk)]
  · have hup := hδ.no_leaf_above hd
    rw [overlay_of_some hd, leaf_dir]
    refine leaf_shown_eq_none ?_
    by_cases hDq : D q
    · have hT := (hD.was_dir hDq).1
      by_cases hc : Covers (mergedWhiteouts dir I δ T W) q
      · rw [overlay_of_covered (prune_of hDq) hc, leaf_none]
      · rw [overlay_of_none (prune_of hDq) hc]
        exact huncover q hDq fun h => hc ((covers_merged_iff hT hup).mpr h)
    · have hp : prune (graft dir δP T δ) D q = graft dir δP T δ q := prune_of_not hDq
      rcases graft_cases (K := δP) (T := T) hup with ⟨_, hg⟩ | ⟨_, hT, hg⟩ | ⟨hdown, hT, hg⟩
      · rw [overlay_of_some (hp.trans hg), leaf_dir]
      · rcases covered_or_none (W := W) hI hT hup with hc | hIq
        · rw [overlay_of_covered (hp.trans hg) hc, leaf_none]
        · by_cases hc : Covers (mergedWhiteouts dir I δ T W) q
          · rw [overlay_of_covered (hp.trans hg) hc, leaf_none]
          · rw [overlay_of_none (hp.trans hg) hc, hIq, leaf_none]
      · have hk := hleaf q hd hdown hT
        have heq : overlay (prune (graft dir δP T δ) D) (mergedWhiteouts dir I δ T W) I q =
            overlay δP W I q := by
          unfold overlay
          rw [hp, hg, propext (covers_merged_iff (I := I) (W := W) hT hup)]
        rw [heq, hk]
  · have hup : ¬ ∃ f, Leaf dir δ f ∧ f <+: q := by
      rintro ⟨f, hf, hfq⟩
      by_cases heq : f = q
      · exact hf.ne_none (heq ▸ hn)
      · obtain ⟨k, hk, hkd⟩ := hf
        have := hall f hfq heq
        rw [overlay_of_some hk] at this
        exact hkd (Option.some.inj this)
    have hdown : ¬ ∃ f, Leaf dir δ f ∧ q <+: f := by
      rintro ⟨f, hf, hqf⟩
      by_cases heq : q = f
      · exact hf.ne_none (heq ▸ hn)
      · rw [hδ.dir_above hf hqf heq] at hn
        cases hn
    by_cases hT : Covers T q
    · rw [overlay_of_covered hn hT, leaf_none]
      refine leaf_shown_eq_none ?_
      have hp : prune (graft dir δP T δ) D q = none := by
        by_cases hDq : D q
        · exact prune_of hDq
        · rw [prune_of_not hDq, graft_of_covered hup hdown hT]
      by_cases hc : Covers (mergedWhiteouts dir I δ T W) q
      · rw [overlay_of_covered hp hc, leaf_none]
      · rw [overlay_of_none hp hc, (covered_or_none hI hT hup).resolve_left hc, leaf_none]
    · rw [overlay_of_none hn hT]
      have hcov := covers_merged_iff (I := I) (W := W) hT hup
      by_cases hDq : D q
      · -- an emptied directory held no leaf, and what it hid is none
        rw [overlay_of_some (hD.was_dir hDq).2, leaf_dir]
        refine leaf_shown_eq_none ?_
        by_cases hc : Covers W q
        · rw [overlay_of_covered (prune_of hDq) (hcov.mpr hc), leaf_none]
        · rw [overlay_of_none (prune_of hDq) fun h => hc (hcov.mp h)]
          exact huncover q hDq hc
      have hgq : graft dir δP T δ q = δP q := graft_of_apart hup hdown hT
      have hq : overlay (prune (graft dir δP T δ) D) (mergedWhiteouts dir I δ T W) I q =
          overlay δP W I q := by
        unfold overlay
        rw [prune_of_not hDq, hgq, propext hcov]
      by_cases hkq : leaf dir (overlay δP W I q) = none
      · rw [hkq]
        exact leaf_shown_eq_none (hq ▸ hkq)
      have hkne : overlay δP W I q ≠ none := fun h => hkq (by rw [h, leaf_none])
      have hdirs : ∀ a, a <+: q → a ≠ q →
          overlay (prune (graft dir δP T δ) D) (mergedWhiteouts dir I δ T W) I a = some dir := by
        intro a ha hne
        have hTa : ¬ Covers T a := fun h => hT (h.mono ha)
        have hcova := covers_merged_iff (I := I) (W := W) hTa (hnoleaf a ha hne)
        have hshown := hall a ha hne
        -- either the lower delta still has `q`, and then `a`, or `q` comes from underneath
        have hunder : δP q = none → ¬ Covers W a ∧ I a ≠ none := by
          intro hPq
          have hcq : ¬ Covers W q := fun hc => hkne (overlay_of_covered hPq hc)
          rw [overlay_of_none hPq hcq] at hkne
          exact ⟨fun h => hcq (h.mono ha), fun h => hkne (hI a q h ha)⟩
        by_cases hDa : D a
        · have hPq : δP q = none := by
            by_contra hPq
            exact hDq (hD.below hDa ha hne (by rw [hgq]; exact hPq))
          obtain ⟨hca, hIa⟩ := hunder hPq
          rw [overlay_of_none (prune_of hDa) fun h => hca (hcova.mp h)]
          exact (leaf_eq_none.mp (huncover a hDa hca)).resolve_left hIa
        have hpa : prune (graft dir δP T δ) D a = graft dir δP T δ a := prune_of_not hDa
        rcases graft_cases (K := δP) (T := T) (hnoleaf a ha hne) with
          ⟨_, hg⟩ | ⟨_, hTa', _⟩ | ⟨hdowna, _, hg⟩
        · exact overlay_of_some (hpa.trans hg)
        · exact absurd hTa' hTa
        have hsame : overlay (prune (graft dir δP T δ) D) (mergedWhiteouts dir I δ T W) I a =
            overlay δP W I a := by
          unfold overlay
          rw [hpa, hg, propext hcova]
        rw [hsame]
        rcases shape_cases dir δ a with hla | hda | hna
        · exact absurd ⟨a, hla, List.prefix_rfl⟩ (hnoleaf a ha hne)
        · refine (leaf_eq_none.mp (hleaf a hda hdowna hTa)).resolve_left ?_
          cases hPa : δP a with
          | some k =>
            rw [overlay_of_some hPa]
            simp
          | none =>
            have hPq : δP q = none := by
              by_contra h
              rw [hδP.above h ha hne] at hPa
              cases hPa
            obtain ⟨hca, hIa⟩ := hunder hPq
            rwa [overlay_of_none hPa hca]
        · rwa [overlay_of_none hna hTa] at hshown
      rw [shown_of_dirs hdirs, hq]

/-- **And only then.** If the same leaves are shown wherever the delta has none, both conditions
hold. -/
theorem conditions_of_shown_nested
    (hshown : ∀ q, ¬ Leaf dir δ q →
      leaf dir (shown dir (overlay (prune (graft dir δP T δ) D) (mergedWhiteouts dir I δ T W) I) q) =
        leaf dir (shown dir (overlay δ T (overlay δP W I)) q)) :
    NoLeafUnderEmpty dir (overlay δP W I) T δ ∧ NoLeafUncovered dir I W D := by
  -- by the length of the path: the first place where a condition fails would show its leaf
  have main : ∀ (n : Nat) (g : List ν), g.length = n →
      (δ g = some dir → (¬ ∃ f, Leaf dir δ f ∧ g <+: f) → ¬ Covers T g →
        leaf dir (overlay δP W I g) = none) ∧
      (D g → ¬ Covers W g → leaf dir (I g) = none) := by
    intro n
    induction n using Nat.strong_induction_on with
    | _ n ih =>
      intro g hg
      have hlt : ∀ a, a <+: g → a ≠ g → a.length < n := by
        intro a ha hne
        exact hg ▸ lt_of_le_of_ne ha.length_le fun heq => hne (ha.eq_of_length heq)
      have hpruned : ∀ a, a <+: g → a ≠ g → ¬ Covers W g → I g ≠ none → D a →
          ¬ Covers W a ∧ I a = some dir := by
        intro a ha hne hc hIg hDa
        have hca : ¬ Covers W a := fun h => hc (h.mono ha)
        refine ⟨hca, ?_⟩
        have hleaf := (ih a.length (hlt a ha hne) a rfl).2 hDa hca
        exact (leaf_eq_none.mp hleaf).resolve_left fun h => hIg (hI a g h ha)
      constructor
      · intro hd hdown hT
        by_contra hkg
        have hup := hδ.no_leaf_above hd
        have hgg : graft dir δP T δ g = δP g := graft_of_apart hup hdown hT
        have hDg : ¬ D g := by
          intro hDg
          apply hkg
          rw [overlay_of_some (hD.was_dir hDg).2, leaf_dir]
        have hself : overlay (prune (graft dir δP T δ) D) (mergedWhiteouts dir I δ T W) I g =
            overlay δP W I g := by
          unfold overlay
          rw [prune_of_not hDg, hgg, propext (covers_merged_iff (I := I) (W := W) hT hup)]
        have hway : ∀ a, a <+: g → a ≠ g →
            overlay (prune (graft dir δP T δ) D) (mergedWhiteouts dir I δ T W) I a = some dir := by
          intro a ha hne
          have hTa : ¬ Covers T a := fun h => hT (h.mono ha)
          have hda : δ a = some dir := hδ.above (by simp [hd]) ha hne
          have hupa := hδ.no_leaf_above hda
          by_cases hPg : δP g = none
          · -- `g` is read from underneath
            have hc : ¬ Covers W g := fun hc => hkg (by rw [overlay_of_covered hPg hc, leaf_none])
            have hIg : I g ≠ none := by
              intro h
              apply hkg
              rw [overlay_of_none hPg hc, h, leaf_none]
            have hca : ¬ Covers W a := fun h => hc (h.mono ha)
            by_cases hdowna : ∃ f, Leaf dir δ f ∧ a <+: f
            · obtain ⟨f, hf, haf⟩ := hdowna
              have hDa : ¬ D a := fun h => (hD.no_leaf h hf).2 haf
              refine overlay_of_some ?_
              rw [prune_of_not hDa, graft_of_leaf_below hupa hf haf]
            · have hka := (ih a.length (hlt a ha hne) a rfl).1 hda hdowna hTa
              refine dir_after hTa hupa (hpruned a ha hne hc hIg) ?_
              cases hPa : δP a with
              | some k =>
                rw [overlay_of_some hPa] at hka
                exact Or.inl ((leaf_eq_none.mp hka).resolve_left (by simp))
              | none =>
                rw [overlay_of_none hPa hca] at hka
                exact Or.inr ⟨rfl, hca,
                  (leaf_eq_none.mp hka).resolve_left fun h => hIg (hI a g h ha)⟩
          · have hPa : δP a = some dir := hδP.above hPg ha hne
            refine dir_after hTa hupa (fun hDa => ?_) (Or.inl hPa)
            exact absurd (hD.below hDa ha hne (by rw [hgg]; exact hPg)) hDg
        have heq := hshown g fun hl => hl.ne_dir hd
        rw [shown_of_dirs hway, hself] at heq
        have hbefore : leaf dir (shown dir (overlay δ T (overlay δP W I)) g) = none :=
          leaf_shown_eq_none (by rw [overlay_of_some hd, leaf_dir])
        exact hkg (heq.trans hbefore)
      · intro hDg hc
        by_contra hkg
        obtain ⟨hT, hPg⟩ := hD.was_dir hDg
        have hup : ¬ ∃ f, Leaf dir δ f ∧ f <+: g := fun ⟨f, hf, hfg⟩ => (hD.no_leaf hDg hf).1 hfg
        have hIg : I g ≠ none := fun h => hkg (by rw [h, leaf_none])
        have hself : overlay (prune (graft dir δP T δ) D) (mergedWhiteouts dir I δ T W) I g = I g :=
          overlay_of_none (prune_of hDg) fun h => hc ((covers_merged_iff hT hup).mp h)
        have hway : ∀ a, a <+: g → a ≠ g →
            overlay (prune (graft dir δP T δ) D) (mergedWhiteouts dir I δ T W) I a = some dir := by
          intro a ha hne
          refine dir_after (fun h => hT (h.mono ha))
            (fun ⟨f, hf, hfa⟩ => hup ⟨f, hf, hfa.trans ha⟩) (hpruned a ha hne hc hIg) (Or.inl ?_)
          exact hδP.above (by simp [hPg]) ha hne
        have heq := hshown g fun hl => (hD.no_leaf hDg hl).1 List.prefix_rfl
        rw [shown_of_dirs hway, hself] at heq
        have hbefore : leaf dir (shown dir (overlay δ T (overlay δP W I)) g) = none := by
          refine leaf_shown_eq_none ?_
          rcases shape_cases dir δ g with hl | hd | hn
          · exact absurd ⟨g, hl, List.prefix_rfl⟩ hup
          · rw [overlay_of_some hd, leaf_dir]
          · rw [overlay_of_none hn hT, overlay_of_some hPg, leaf_dir]
        exact hkg (heq.trans hbefore)
  exact ⟨fun g hd hdown hT => (main _ g rfl).1 hd hdown hT, fun x hx hc => (main _ x rfl).2 hx hc⟩

end CommitNested

end Trees

end BranchFs.Logic
