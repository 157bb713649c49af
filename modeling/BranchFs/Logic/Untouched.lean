/-
# BranchFs.Logic.Untouched -- what a commit leaves alone

A path is untouched by a commit when no whiteout of the session covers it and no leaf of its delta is
at or above it. At such a path the lower overlay should show what it showed. A commit to the tree
underneath keeps this; a commit to the lower overlay keeps it exactly as long as no directory it makes
takes the place of a leaf, and no directory it prunes uncovers one.
-/
import BranchFs.Logic.Overlay

namespace BranchFs.Logic

variable {ν ε : Type} (dir : ε)

/-- Neither deleted by the session nor at or below a leaf of it. -/
structure Untouched (δ : Shape ν ε) (T : List ν → Prop) (q : List ν) : Prop where
  notDeleted : ¬ Covers T q
  notBelow : ¬ ∃ f, Leaf dir δ f ∧ f <+: q

/-- The lower overlay has no leaf above the leaves of the delta, deleted ones apart. -/
def NoLeafOver (KP : Shape ν ε) (T : List ν → Prop) (δ : Shape ν ε) : Prop :=
  ∀ g f, Leaf dir δ f → g <+: f → g ≠ f → ¬ Covers T g → leaf dir (KP g) = none

variable {dir}
variable {δ δM δM' δP β I : Shape ν ε} {T TM W D : List ν → Prop} {q : List ν}

theorem Untouched.mono (h : Untouched dir δ T q) {a : List ν} (ha : a <+: q) :
    Untouched dir δ T a :=
  ⟨fun hc => h.notDeleted (hc.mono ha), fun ⟨f, hf, hfa⟩ => h.notBelow ⟨f, hf, hfa.trans ha⟩⟩

/-- Two walks show the same leaf when they agree on leaves and neither goes where the other finds
nothing. -/
theorem leaf_shown_eq {A B : Shape ν ε} (hq : leaf dir (A q) = leaf dir (B q))
    (hA : ∀ a, a <+: q → a ≠ q → B a = some dir → A a ≠ some dir → leaf dir (B q) = none)
    (hB : ∀ a, a <+: q → a ≠ q → A a = some dir → B a ≠ some dir → leaf dir (A q) = none) :
    leaf dir (shown dir A q) = leaf dir (shown dir B q) := by
  by_cases hallA : ∀ a, a <+: q → a ≠ q → A a = some dir
  · by_cases hallB : ∀ a, a <+: q → a ≠ q → B a = some dir
    · rw [shown_of_dirs hallA, shown_of_dirs hallB, hq]
    · push Not at hallB
      obtain ⟨a, ha, hne, hnot⟩ := hallB
      rw [shown_of_not ha hne hnot, leaf_none]
      exact leaf_shown_eq_none (hB a ha hne (hallA a ha hne) hnot)
  · push Not at hallA
    obtain ⟨a, ha, hne, hnot⟩ := hallA
    rw [shown_of_not ha hne hnot, leaf_none]
    symm
    by_cases hallB : ∀ a, a <+: q → a ≠ q → B a = some dir
    · exact leaf_shown_eq_none (hA a ha hne (hallB a ha hne) hnot)
    · push Not at hallB
      obtain ⟨c, hc, hcne, hcnot⟩ := hallB
      rw [shown_of_not hc hcne hcnot, leaf_none]

/-- A graft leaves nothing at a path that is not untouched, where the delta holds nothing itself. -/
theorem graft_touched {K : Shape ν ε} (hδ : Closed dir δ) (hq : δ q = none)
    (hu : ¬ Untouched dir δ T q) : graft dir K T δ q = none := by
  have hl : ¬ Leaf dir δ q := fun hl => hl.ne_none hq
  by_cases hup : ∃ f, Leaf dir δ f ∧ f <+: q
  · obtain ⟨f, hf, hfq⟩ := hup
    exact graft_of_leaf_above hl hf hfq
  rcases graft_cases (K := K) (T := T) hup with ⟨⟨f, hf, hqf⟩, _⟩ | ⟨_, _, hg⟩ | ⟨_, hT, _⟩
  · have hdir := hδ.dir_above hf hqf fun heq => hl (heq ▸ hf)
    rw [hq] at hdir
    cases hdir
  · exact hg
  · exact absurd ⟨hT, hup⟩ hu

/-! ## Below: the tree underneath -/

section Base

variable (hδM : Closed dir δM) (hβ : Closed dir β) (hclear : cleared dir δM T δ δM')
  (hok : Unblocked dir β T δ)

include hclear hok

/-- At an untouched path the lower overlay is what it was, or has a directory where it had nothing. -/
theorem untouched_base_cases (TM : List ν → Prop) (hu : Untouched dir δ T q) :
    overlay δM' TM (graft dir β T δ) q = overlay δM TM β q ∨
    (overlay δM' TM (graft dir β T δ) q = some dir ∧ δM q = none ∧ ¬ Covers TM q ∧
      (β q = none ∨ β q = some dir)) := by
  have hM := (hclear q).2 hu.notDeleted hu.notBelow
  cases hMq : δM q with
  | some k => exact Or.inl (by rw [overlay_of_some (hM.trans hMq), overlay_of_some hMq])
  | none =>
    by_cases hc : Covers TM q
    · exact Or.inl (by rw [overlay_of_covered (hM.trans hMq) hc, overlay_of_covered hMq hc])
    rw [overlay_of_none (hM.trans hMq) hc, overlay_of_none hMq hc]
    rcases graft_cases (K := β) (T := T) hu.notBelow with ⟨⟨f, hf, hqf⟩, hg⟩ | ⟨_, hT, _⟩ | ⟨_, _, hg⟩
    · refine Or.inr ⟨hg, rfl, hc, hok f q hf hqf ?_ hu.notDeleted⟩
      rintro rfl
      exact hu.notBelow ⟨_, hf, List.prefix_rfl⟩
    · exact absurd hT hu.notDeleted
    · exact Or.inl hg

include hδM hβ

/-- **A commit to the tree underneath leaves untouched paths alone.** -/
theorem leaf_shown_untouched_base (hu : Untouched dir δ T q) :
    leaf dir (shown dir (overlay δM' TM (graft dir β T δ)) q) =
      leaf dir (shown dir (overlay δM TM β) q) := by
  refine leaf_shown_eq ?_ ?_ ?_
  · rcases untouched_base_cases hclear hok TM hu with heq | ⟨hd, hM, hc, hβq⟩
    · rw [heq]
    · rw [hd, leaf_dir, overlay_of_none hM hc]
      exact (leaf_eq_none.mpr hβq).symm
  · intro a ha hne hB hA
    rcases untouched_base_cases hclear hok TM (hu.mono ha) with heq | ⟨hd, _⟩
    · exact absurd (heq.trans hB) hA
    · exact absurd hd hA
  · intro a ha hne hA hB
    rcases untouched_base_cases hclear hok TM (hu.mono ha) with heq | ⟨_, hM, hc, hβa⟩
    · exact absurd (heq.symm.trans hA) hB
    · -- the directory was made for a leaf below, and nothing else is there
      have hβa' : β a = none := by
        refine hβa.resolve_right fun hd => hB ?_
        rw [overlay_of_none hM hc, hd]
      have hMq : δM q = none := by
        by_contra h
        rw [hδM.above h ha hne] at hM
        cases hM
      have hβq : β q = none := by
        by_contra h
        rw [hβ.above h ha hne] at hβa'
        cases hβa'
      rcases untouched_base_cases hclear hok TM hu with heq | ⟨hd, _⟩
      · rw [heq]
        by_cases hcq : Covers TM q
        · rw [overlay_of_covered hMq hcq, leaf_none]
        · rw [overlay_of_none hMq hcq, hβq, leaf_none]
      · rw [hd, leaf_dir]

omit hok hδM hβ in
/-- **And only those**: at any other path the delta holds nothing at, the lower overlay shows no leaf
afterwards. -/
theorem leaf_shown_touched_base (hδ : Closed dir δ) (hq : δ q = none)
    (hu : ¬ Untouched dir δ T q) :
    leaf dir (shown dir (overlay δM' TM (graft dir β T δ)) q) = none := by
  have hM : δM' q = none := by
    refine (hclear q).1 ?_
    by_contra hno
    push Not at hno
    exact hu ⟨hno.1, fun ⟨f, hf, hfq⟩ => hno.2 f hf hfq⟩
  refine leaf_shown_eq_none ?_
  by_cases hc : Covers TM q
  · rw [overlay_of_covered hM hc, leaf_none]
  · rw [overlay_of_none hM hc, graft_touched hδ hq hu, leaf_none]

end Base

/-! ## Below: the lower overlay -/

section Nested

variable (hδ : Closed dir δ) (hδP : Closed dir δP) (hD : Pruned dir (graft dir δP T δ) D)
  (hI : ∀ t q, I t = none → t <+: q → I q = none)

/-- The lower overlay after the commit. -/
noncomputable def committedOverlay (dir : ε) (δ δP I : Shape ν ε) (T W D : List ν → Prop) : Shape ν ε :=
  overlay (prune (graft dir δP T δ) D) (mergedWhiteouts dir I δ T W) I

/-- At an untouched path the lower overlay is what it was, unless a directory was made there or
pruned. -/
theorem untouched_nested_cases (δP I : Shape ν ε) (W D : List ν → Prop) (hu : Untouched dir δ T q) :
    (D q ∧ committedOverlay dir δ δP I T W D q = overlay (fun _ => none) W I q) ∨
    (¬ D q ∧ (∃ f, Leaf dir δ f ∧ q <+: f) ∧ committedOverlay dir δ δP I T W D q = some dir) ∨
    (¬ D q ∧ (¬ ∃ f, Leaf dir δ f ∧ q <+: f) ∧
      committedOverlay dir δ δP I T W D q = overlay δP W I q) := by
  have hcov := covers_merged_iff (I := I) (W := W) hu.notDeleted hu.notBelow
  by_cases hDq : D q
  · refine Or.inl ⟨hDq, ?_⟩
    unfold committedOverlay
    by_cases hc : Covers W q
    · rw [overlay_of_covered (prune_of hDq) (hcov.mpr hc), overlay_of_covered rfl hc]
    · rw [overlay_of_none (prune_of hDq) fun h => hc (hcov.mp h), overlay_of_none rfl hc]
  have hp : prune (graft dir δP T δ) D q = graft dir δP T δ q := prune_of_not hDq
  rcases graft_cases (K := δP) (T := T) hu.notBelow with ⟨hdown, hg⟩ | ⟨_, hT, _⟩ | ⟨hdown, _, hg⟩
  · exact Or.inr (Or.inl ⟨hDq, hdown, overlay_of_some (hp.trans hg)⟩)
  · exact absurd hT hu.notDeleted
  · refine Or.inr (Or.inr ⟨hDq, hdown, ?_⟩)
    unfold committedOverlay overlay
    rw [hp, hg, propext hcov]

include hδP hD hI

omit hδP in
/-- Below a directory that is pruned away for good there was no leaf. -/
theorem no_leaf_below_pruned {a : List ν} (hu : Untouched dir δ T q) (ha : a <+: q) (hne : a ≠ q)
    (hDa : D a) (hgone : Covers W a ∨ I a = none) : leaf dir (overlay δP W I q) = none := by
  have hdown : ¬ ∃ f, Leaf dir δ f ∧ q <+: f :=
    fun ⟨f, hf, hqf⟩ => (hD.no_leaf hDa hf).2 (ha.trans hqf)
  by_cases hPq : δP q = none
  · rcases hgone with hc | hIa
    · rw [overlay_of_covered hPq (hc.mono ha), leaf_none]
    · by_cases hc : Covers W q
      · rw [overlay_of_covered hPq hc, leaf_none]
      · rw [overlay_of_none hPq hc, hI a q hIa ha, leaf_none]
  · have hgq : graft dir δP T δ q = δP q := graft_of_apart hu.notBelow hdown hu.notDeleted
    have hDq : D q := hD.below hDa ha hne (by rw [hgq]; exact hPq)
    rw [overlay_of_some (hD.was_dir hDq).2, leaf_dir]

/-- A path the lower overlay can be walked to stays so, while no pruned directory on the way uncovers
a leaf. -/
theorem leaf_shown_untouched_nested (hover : ∀ a, a <+: q → (∃ f, Leaf dir δ f ∧ a <+: f) →
      leaf dir (overlay δP W I a) = none)
    (huncover : ∀ a, a <+: q → D a → ¬ Covers W a → leaf dir (I a) = none)
    (hu : Untouched dir δ T q) :
    leaf dir (shown dir (committedOverlay dir δ δP I T W D) q) =
      leaf dir (shown dir (overlay δP W I) q) := by
  have hpruned : ∀ a, a <+: q → D a → committedOverlay dir δ δP I T W D a =
      overlay (fun _ => none) W I a → committedOverlay dir δ δP I T W D a ≠ some dir →
      Covers W a ∨ I a = none := by
    intro a ha hDa heq hnot
    by_cases hc : Covers W a
    · exact Or.inl hc
    · rw [heq, overlay_of_none rfl hc] at hnot
      exact Or.inr ((leaf_eq_none.mp (huncover a ha hDa hc)).resolve_right hnot)
  refine leaf_shown_eq ?_ ?_ ?_
  · rcases untouched_nested_cases δP I W D hu with
      ⟨hDq, heq⟩ | ⟨_, hdown, heq⟩ | ⟨_, _, heq⟩
    · rw [heq, overlay_of_some (hD.was_dir hDq).2, leaf_dir]
      by_cases hc : Covers W q
      · rw [overlay_of_covered rfl hc, leaf_none]
      · rw [overlay_of_none rfl hc]
        exact huncover q List.prefix_rfl hDq hc
    · rw [heq, leaf_dir, hover q List.prefix_rfl hdown]
    · rw [heq]
  · intro a ha hne hB hA
    rcases untouched_nested_cases δP I W D (hu.mono ha) with
      ⟨hDa, heq⟩ | ⟨_, _, heq⟩ | ⟨_, _, heq⟩
    · exact no_leaf_below_pruned hD hI hu ha hne hDa (hpruned a ha hDa heq hA)
    · exact absurd heq hA
    · exact absurd (heq.trans hB) hA
  · intro a ha hne hA hB
    rcases untouched_nested_cases δP I W D (hu.mono ha) with
      ⟨hDa, _⟩ | ⟨_, hdown, _⟩ | ⟨_, _, heq⟩
    · exact absurd (overlay_of_some (hD.was_dir hDa).2) hB
    · -- the directory was made for a leaf below, and nothing else is there
      have hnone : overlay δP W I a = none :=
        (leaf_eq_none.mp (hover a ha hdown)).resolve_right hB
      have hPa : δP a = none := by
        cases hPa : δP a with
        | none => rfl
        | some k =>
          rw [overlay_of_some hPa] at hnone
          cases hnone
      have hPq : δP q = none := by
        by_contra h
        rw [hδP.above h ha hne] at hPa
        cases hPa
      have hgone : overlay δP W I q = none := by
        by_cases hc : Covers W q
        · exact overlay_of_covered hPq hc
        · rw [overlay_of_none hPa fun h => hc (h.mono ha)] at hnone
          rw [overlay_of_none hPq hc, hI a q hnone ha]
      rcases untouched_nested_cases δP I W D hu with
        ⟨hDq, _⟩ | ⟨_, _, heq⟩ | ⟨_, _, heq⟩
      · rw [(hD.was_dir hDq).2] at hPq
        cases hPq
      · rw [heq, leaf_dir]
      · rw [heq, hgone, leaf_none]
    · exact absurd (heq.symm.trans hA) hB

omit hδP hI in
/-- Where a pruned directory uncovers a leaf, nothing is shown below it. -/
theorem leaf_shown_uncovered {a : List ν} (ha : a <+: q) (hne : a ≠ q) (hDa : D a)
    (hc : ¬ Covers W a) (hIa : leaf dir (I a) ≠ none) :
    leaf dir (shown dir (committedOverlay dir δ δP I T W D) q) = none := by
  have hu : Untouched dir δ T a :=
    ⟨(hD.was_dir hDa).1, fun ⟨f, hf, hfa⟩ => (hD.no_leaf hDa hf).1 hfa⟩
  have hself : committedOverlay dir δ δP I T W D a = I a := by
    rcases untouched_nested_cases δP I W D hu with
      ⟨_, heq⟩ | ⟨hnot, _⟩ | ⟨hnot, _⟩
    · rw [heq, overlay_of_none rfl hc]
    · exact absurd hDa hnot
    · exact absurd hDa hnot
  rw [shown_of_not ha hne, leaf_none]
  rw [hself]
  intro hdir
  exact hIa (by rw [hdir, leaf_dir])

include hδ

omit hδP in
/-- At a path that is not untouched, and that the delta holds nothing at, the lower overlay shows no
leaf after the commit. -/
theorem leaf_shown_touched_nested (hq : δ q = none) (hu : ¬ Untouched dir δ T q) :
    leaf dir (shown dir (committedOverlay dir δ δP I T W D) q) = none := by
  by_cases hup : ∃ f, Leaf dir δ f ∧ f <+: q
  · -- the walk ends at the leaf
    obtain ⟨f, hf, hfq⟩ := hup
    have hDf : ¬ D f := fun hDf => (hD.no_leaf hDf hf).1 List.prefix_rfl
    have hne : f ≠ q := fun heq => hf.ne_none (heq ▸ hq)
    obtain ⟨k, hk, hkd⟩ := hf
    have hself : committedOverlay dir δ δP I T W D f = some k := by
      refine overlay_of_some ?_
      rw [prune_of_not hDf, graft_of_leaf ⟨k, hk, hkd⟩, hk]
    rw [shown_of_not hfq hne, leaf_none]
    rw [hself]
    exact fun heq => hkd (Option.some.inj heq)
  · have hT : Covers T q := by
      by_contra hT
      exact hu ⟨hT, hup⟩
    have hp : prune (graft dir δP T δ) D q = none := by
      unfold prune
      rw [graft_touched hδ hq hu]
      exact ite_self none
    refine leaf_shown_eq_none ?_
    unfold committedOverlay
    by_cases hc : Covers (mergedWhiteouts dir I δ T W) q
    · rw [overlay_of_covered hp hc, leaf_none]
    · rw [overlay_of_none hp hc]
      rw [(covered_or_none (W := W) hI hT hup).resolve_left hc, leaf_none]

/-- **A commit to the lower overlay leaves untouched paths alone exactly when** that overlay has no
leaf above a leaf of the session, and pruning uncovers none. -/
theorem untouched_nested_iff :
    (∀ q, Untouched dir δ T q → leaf dir (shown dir (committedOverlay dir δ δP I T W D) q) =
      leaf dir (shown dir (overlay δP W I) q)) ↔
    NoLeafOver dir (overlay δP W I) T δ ∧ NoLeafUncovered dir I W D := by
  constructor
  · intro hshown
    -- by the length of the path: the first place where a condition fails would show
    have main : ∀ (n : Nat) (g : List ν), g.length = n →
        (∀ f, Leaf dir δ f → g <+: f → g ≠ f → ¬ Covers T g → leaf dir (overlay δP W I g) = none) ∧
        (D g → ¬ Covers W g → leaf dir (I g) = none) := by
      intro n
      induction n using Nat.strong_induction_on with
      | _ n ih =>
        intro g hg
        have hlt : ∀ a, a <+: g → a ≠ g → a.length < n := by
          intro a ha hne
          exact hg ▸ lt_of_le_of_ne ha.length_le fun heq => hne (ha.eq_of_length heq)
        constructor
        · intro f hf hgf hgne hT
          by_contra hkg
          have hdg : δ g = some dir := hδ.dir_above hf hgf hgne
          have hu : Untouched dir δ T g := ⟨hT, hδ.no_leaf_above hdg⟩
          have hmade : ∀ a, a <+: g → committedOverlay dir δ δP I T W D a = some dir := by
            intro a ha
            have haf : a <+: f := ha.trans hgf
            rcases untouched_nested_cases δP I W D (hu.mono ha) with
              ⟨hDa, _⟩ | ⟨_, _, heq⟩ | ⟨_, hdown, _⟩
            · exact absurd haf (hD.no_leaf hDa hf).2
            · exact heq
            · exact absurd ⟨f, hf, haf⟩ hdown
          have hway : ∀ a, a <+: g → a ≠ g → overlay δP W I a = some dir := by
            intro a ha hne
            have haf : a ≠ f := by
              rintro rfl
              exact hgne (hgf.eq_of_length_le ha.length_le)
            have hka := (ih a.length (hlt a ha hne) a rfl).1 f hf (ha.trans hgf) haf
              fun h => hT (h.mono ha)
            refine (leaf_eq_none.mp hka).resolve_left fun hnone => hkg ?_
            have hPa : δP a = none := by
              cases hPa : δP a with
              | none => rfl
              | some k =>
                rw [overlay_of_some hPa] at hnone
                cases hnone
            have hPg : δP g = none := by
              by_contra h
              rw [hδP.above h ha hne] at hPa
              cases hPa
            by_cases hc : Covers W g
            · rw [overlay_of_covered hPg hc, leaf_none]
            · rw [overlay_of_none hPa fun h => hc (h.mono ha)] at hnone
              rw [overlay_of_none hPg hc, hI a g hnone ha, leaf_none]
          have heq := hshown g hu
          rw [shown_of_dirs fun a ha _ => hmade a ha, hmade g List.prefix_rfl, leaf_dir,
            shown_of_dirs hway] at heq
          exact hkg heq.symm
        · intro hDg hc
          by_contra hkg
          have hIg : I g ≠ none := fun h => hkg (by rw [h, leaf_none])
          obtain ⟨hT, hPg⟩ := hD.was_dir hDg
          have hu : Untouched dir δ T g := ⟨hT, fun ⟨f, hf, hfg⟩ => (hD.no_leaf hDg hf).1 hfg⟩
          have hdirs : ∀ a, a <+: g → a ≠ g → δP a = some dir :=
            fun a ha hne => hδP.above (by simp [hPg]) ha hne
          have hway : ∀ a, a <+: g → a ≠ g → committedOverlay dir δ δP I T W D a = some dir := by
            intro a ha hne
            have hca : ¬ Covers W a := fun h => hc (h.mono ha)
            rcases untouched_nested_cases δP I W D (hu.mono ha) with
              ⟨hDa, heq⟩ | ⟨_, _, heq⟩ | ⟨_, _, heq⟩
            · rw [heq, overlay_of_none rfl hca]
              have hleaf := (ih a.length (hlt a ha hne) a rfl).2 hDa hca
              exact (leaf_eq_none.mp hleaf).resolve_left fun h => hIg (hI a g h ha)
            · exact heq
            · rw [heq, overlay_of_some (hdirs a ha hne)]
          have hself : committedOverlay dir δ δP I T W D g = I g := by
            rcases untouched_nested_cases δP I W D hu with
              ⟨_, heq⟩ | ⟨hnot, _⟩ | ⟨hnot, _⟩
            · rw [heq, overlay_of_none rfl hc]
            · exact absurd hDg hnot
            · exact absurd hDg hnot
          have heq := hshown g hu
          rw [shown_of_dirs hway, hself] at heq
          apply hkg
          rw [heq]
          exact leaf_shown_eq_none (by rw [overlay_of_some hPg, leaf_dir])
    exact ⟨fun g f hf hgf hne hT => (main _ g rfl).1 f hf hgf hne hT,
      fun x hx hc => (main _ x rfl).2 hx hc⟩
  · rintro ⟨hover, huncover⟩ q hu
    refine leaf_shown_untouched_nested hδP hD hI ?_ (fun a _ hDa hc => huncover a hDa hc) hu
    rintro a ha ⟨f, hf, haf⟩
    refine hover a f hf haf ?_ (hu.mono ha).notDeleted
    rintro rfl
    exact hu.notBelow ⟨a, hf, ha⟩

end Nested

/-! ## Directories -/

section Dirs

variable {δ δM δM' β δP I : Shape ν ε} {T TM W D : List ν → Prop} {a : List ν}

/-- Where the delta has no leaf at or above, the lower overlay has a directory after the commit just
when it had one that is not whited out, or one is made for a leaf below. -/
theorem dir_after_base_iff (hclear : cleared dir δM T δ δM') (hok : Unblocked dir β T δ)
    (hup : ¬ ∃ f, Leaf dir δ f ∧ f <+: a) :
    overlay δM' TM (graft dir β T δ) a = some dir ↔
      (¬ Covers T a ∧ overlay δM TM β a = some dir) ∨
      ((∃ f, Leaf dir δ f ∧ a <+: f) ∧ ¬ Covers TM a ∧
        (Covers T a ∨ overlay δM TM β a = none)) := by
  by_cases hT : Covers T a
  · -- what is left is what is made
    have hM : δM' a = none := (hclear a).1 (Or.inl hT)
    by_cases hTM : Covers TM a
    · rw [overlay_of_covered hM hTM]
      simp [hT, hTM]
    · rw [overlay_of_none hM hTM]
      rcases graft_cases (K := β) (T := T) hup with ⟨hdown, hg⟩ | ⟨hdown, _, hg⟩ | ⟨_, hno, _⟩
      · simp [hg, hdown, hT, hTM]
      · simp [hg, hdown, hT]
      · exact absurd hT hno
  · have hM : δM' a = δM a := (hclear a).2 hT hup
    cases hk : δM a with
    | some k =>
      rw [overlay_of_some (hM.trans hk), overlay_of_some hk]
      simp [hT]
    | none =>
      by_cases hTM : Covers TM a
      · rw [overlay_of_covered (hM.trans hk) hTM, overlay_of_covered hk hTM]
        simp [hTM]
      · rw [overlay_of_none (hM.trans hk) hTM, overlay_of_none hk hTM]
        rcases graft_cases (K := β) (T := T) hup with ⟨hdown, hg⟩ | ⟨_, hyes, _⟩ | ⟨hdown, _, hg⟩
        · obtain ⟨f, hf, haf⟩ := hdown
          have hne : a ≠ f := fun heq => hup ⟨f, hf, heq ▸ List.prefix_rfl⟩
          have hdown : ∃ f, Leaf dir δ f ∧ a <+: f := ⟨f, hf, haf⟩
          rcases hok f a hf haf hne hT with hβ | hβ
          · simp [hg, hdown, hTM, hβ]
          · simp [hg, hT, hβ]
        · exact absurd hyes hT
        · simp [hg, hT, hdown]

/-- The same for a commit into a delta: a directory is made for every leaf below, and one that is
pruned must come back from underneath. -/
theorem dir_after_nested_iff (hD : Pruned dir (graft dir δP T δ) D)
    (hI : ∀ t q, I t = none → t <+: q → I q = none) (hup : ¬ ∃ f, Leaf dir δ f ∧ f <+: a) :
    committedOverlay dir δ δP I T W D a = some dir ↔
      (∃ f, Leaf dir δ f ∧ a <+: f) ∨
      (¬ Covers T a ∧ overlay δP W I a = some dir ∧ (D a → ¬ Covers W a ∧ I a = some dir)) := by
  unfold committedOverlay
  by_cases hDa : D a
  · have hno : ¬ ∃ f, Leaf dir δ f ∧ a <+: f := fun ⟨f, hf, haf⟩ => (hD.no_leaf hDa hf).2 haf
    obtain ⟨hT, hP⟩ := hD.was_dir hDa
    have hcov := covers_merged_iff (I := I) (W := W) hT hup
    rw [overlay_of_some (I := I) (T := W) hP]
    by_cases hW : Covers W a
    · rw [overlay_of_covered (prune_of hDa) (hcov.mpr hW)]
      simp [hno, hDa, hW]
    · rw [overlay_of_none (prune_of hDa) fun h => hW (hcov.mp h)]
      simp [hno, hDa, hW, hT]
  · have hp : prune (graft dir δP T δ) D a = graft dir δP T δ a := prune_of_not hDa
    rcases graft_cases (K := δP) (T := T) hup with ⟨hdown, hg⟩ | ⟨hdown, hT, hg⟩ | ⟨hdown, hT, hg⟩
    · rw [overlay_of_some (hp.trans hg)]
      simp [hdown]
    · have hnone : overlay (prune (graft dir δP T δ) D) (mergedWhiteouts dir I δ T W) I a = none := by
        rcases covered_or_none (W := W) hI hT hup with hc | hIa
        · exact overlay_of_covered (hp.trans hg) hc
        · by_contra hne
          obtain ⟨k, hk⟩ := Option.ne_none_iff_exists'.mp hne
          rcases overlay_eq_some hk with h | h
          · rw [hp.trans hg] at h
            cases h
          · rw [hIa] at h
            cases h
      rw [hnone]
      simp [hdown, hT]
    · have hcov := covers_merged_iff (I := I) (W := W) hT hup
      have hsame : overlay (prune (graft dir δP T δ) D) (mergedWhiteouts dir I δ T W) I a =
          overlay δP W I a := by
        cases hk : δP a with
        | some k => rw [overlay_of_some (hp.trans (hg.trans hk)), overlay_of_some hk]
        | none =>
          by_cases hW : Covers W a
          · rw [overlay_of_covered (hp.trans (hg.trans hk)) (hcov.mpr hW), overlay_of_covered hk hW]
          · rw [overlay_of_none (hp.trans (hg.trans hk)) fun h => hW (hcov.mp h),
              overlay_of_none hk hW]
      rw [hsame]
      simp [hdown, hT, hDa]

end Dirs

end BranchFs.Logic
