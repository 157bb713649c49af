/-
# BranchFs.Store.Hidden -- hide rules as text and as components

A hide entry is kept as text, trimmed of blanks and then of slashes; a path is trimmed the same way and
compared with it as text. Split at the slashes the comparison is a prefix test again
(`isHidden_iff_spelled`), but of what the entry spells, with its empty and `.` parts in it. And the
path is read without the blanks its last name ends in, so a rule always hides more than it says.
-/
import BranchFs.Store.Reopen
import Mathlib.Data.List.TakeWhile

namespace BranchFs.Store

open BranchFs.Logic

/-! ## Texts split at the slashes -/

/-- A text continues another one at a slash exactly when its parts continue the other's. -/
theorem splitOn_prefix_iff {a b : Text} :
    b.splitOn '/' <+: a.splitOn '/' ↔ a = b ∨ b ++ ['/'] <+: a := by
  constructor
  · rintro ⟨rest, hrest⟩
    have hjoin := congrArg (['/'].intercalate ·) hrest
    simp only [List.intercalate_splitOn] at hjoin
    by_cases hnil : rest = []
    · left
      rw [hnil, List.append_nil, List.intercalate_splitOn] at hjoin
      exact hjoin.symm
    · right
      refine ⟨['/'].intercalate rest, ?_⟩
      rw [← hjoin, intercalate_append (List.splitOn_ne_nil _ _) hnil, List.intercalate_splitOn]
      simp
  · rintro (rfl | ⟨rest, rfl⟩)
    · exact List.prefix_refl _
    · rw [List.append_assoc, List.singleton_append, List.splitOn_append_cons_self]
      exact List.prefix_append _ _

/-- A part has no slash in it. -/
theorem notMem_of_mem_splitOn {t l : Text} (h : l ∈ t.splitOn '/') : '/' ∉ l := by
  induction t generalizing l with
  | nil =>
    rw [List.splitOn_nil, List.mem_singleton] at h
    rw [h]
    exact List.not_mem_nil
  | cons c t ih =>
    rw [List.splitOn_cons_eq_if_modifyHead] at h
    split at h
    · rcases List.mem_cons.mp h with rfl | h
      · exact List.not_mem_nil
      · exact ih h
    · next hc =>
      obtain ⟨head, tail, hparts⟩ := List.exists_cons_of_ne_nil (List.splitOn_ne_nil '/' t)
      rw [hparts, List.modifyHead_cons] at h
      rcases List.mem_cons.mp h with rfl | h
      · rw [List.mem_cons, not_or]
        refine ⟨fun heq => hc (by rw [← heq]; rfl), ih ?_⟩
        rw [hparts]
        exact List.mem_cons_self
      · apply ih
        rw [hparts]
        exact List.mem_cons_of_mem _ h

/-! ## Entries -/

/-- The components of a path: what stands between its slashes and is neither empty nor `.`. -/
def components (path : String) : RelPath :=
  ((path.toList.splitOn '/').filter fun part => part ≠ [] ∧ part ≠ ['.']).map String.ofList

/-- A path as the handlers form it. -/
def Canonical (p : RelPath) : Prop := ∀ n ∈ p, FileName n ∧ n ≠ "." ∧ n ≠ ".."

/-- Some entry's components are a prefix of the path. -/
def Denoted (hide : List String) (p : RelPath) : Prop :=
  ∃ e ∈ hide, components e ≠ [] ∧ components e <+: p

/-- The text `normalize_hide_path` puts behind a slash. -/
def trimmedText (path : String) : Text :=
  trimEnd (· == '/') (trimStart (· == '/') (trimEnd isWhiteSpace (trimStart isWhiteSpace path.toList)))

/-- What an entry spells: the parts of its trimmed text, whatever they are. -/
def spelled (path : String) : Option RelPath :=
  if trimmedText path = [] then none
  else some (((trimmedText path).splitOn '/').map String.ofList)

theorem normalizeHidePath_eq (path : String) : normalizeHidePath path =
    if trimmedText path = [] then none else some (String.ofList ('/' :: trimmedText path)) := by
  rw [normalizeHidePath]
  show (if (trimmedText path).isEmpty = true then _ else _) = _
  simp only [List.isEmpty_iff]
  rfl

variable {b : BranchFs.Branch} {hide : List String} {p : RelPath}

/-- A path is hidden when what an entry spells is a prefix of what the path is read as. -/
theorem isHidden_iff (hrules : b.hidePaths = hide.filterMap normalizeHidePath) :
    b.isHidden p = true ↔ ∃ e ∈ hide, trimmedText e ≠ [] ∧
      (trimmedText e).splitOn '/' <+: (trimmedText (relText p)).splitOn '/' := by
  have hmem : ∀ rule, rule ∈ b.hidePaths ↔
      ∃ e ∈ hide, trimmedText e ≠ [] ∧ String.ofList ('/' :: trimmedText e) = rule := by
    intro rule
    rw [hrules, List.mem_filterMap]
    simp only [normalizeHidePath_eq, Option.ite_none_left_eq_some, Option.some.injEq, ne_eq]
  -- the comparison of two texts, each with a slash before it
  have hcompare : ∀ x t : Text,
      ((String.ofList ('/' :: x) == String.ofList ('/' :: t)) = true ∨
        startsWith (String.ofList ('/' :: x)) (String.ofList ('/' :: t) ++ "/") = true) ↔
      t.splitOn '/' <+: x.splitOn '/' := by
    intro x t
    rw [splitOn_prefix_iff, beq_iff_eq, startsWith, List.isPrefixOf_iff_prefix]
    simp [String.ofList_inj, List.cons_prefix_cons]
  rw [BranchFs.Branch.isHidden, normalizeHidePath_eq]
  by_cases hx : trimmedText (relText p) = []
  · -- the root is hidden by no entry
    rw [if_pos hx]
    simp only [ite_self, Bool.false_eq_true, false_iff, not_exists, not_and]
    intro e _ hne hpre
    rw [hx, splitOn_prefix_iff] at hpre
    rcases hpre with heq | ⟨rest, hrest⟩
    · exact hne heq.symm
    · simp at hrest
  · rw [if_neg hx]
    dsimp only
    have hany : (if b.hidePaths.isEmpty = true then false
        else b.hidePaths.any fun hidden => String.ofList ('/' :: trimmedText (relText p)) == hidden ||
          startsWith (String.ofList ('/' :: trimmedText (relText p))) (hidden ++ "/")) =
        b.hidePaths.any fun hidden => String.ofList ('/' :: trimmedText (relText p)) == hidden ||
          startsWith (String.ofList ('/' :: trimmedText (relText p))) (hidden ++ "/") := by
      split
      · next hnil => rw [List.isEmpty_iff.mp hnil, List.any_nil]
      · rfl
    rw [hany, List.any_eq_true]
    simp only [hmem, Bool.or_eq_true]
    constructor
    · rintro ⟨rule, ⟨e, he, hne, rfl⟩, hmatch⟩
      exact ⟨e, he, hne, (hcompare _ _).mp hmatch⟩
    · rintro ⟨e, he, hne, hpre⟩
      exact ⟨_, ⟨e, he, hne, rfl⟩, (hcompare _ _).mpr hpre⟩

/-! ## What a path is read as -/

/-- The path does not end in a blank. -/
def EndsSolid (p : RelPath) : Prop := ∀ c, (bareText p).getLast? = some c → isWhiteSpace c = false

theorem trimEnd_begins (P : Char → Bool) (t : Text) : trimEnd P t <+: t := by
  have h : t.reverse.dropWhile P <:+ t.reverse := List.dropWhile_suffix P
  rw [trimEnd]
  have hrev := List.reverse_prefix.mpr h
  rwa [List.reverse_reverse] at hrev

theorem trimEnd_append {P : Char → Bool} {w : Text} (hw : ∀ c ∈ w, P c = true) (t : Text) :
    trimEnd P (t ++ w) = trimEnd P t := by
  rw [trimEnd, trimEnd, List.reverse_append, List.dropWhile_append]
  have hall : w.reverse.dropWhile P = [] := by
    rw [List.dropWhile_eq_nil_iff]
    intro c hc
    exact hw c (List.mem_reverse.mp hc)
  rw [hall]
  rfl

theorem trimEnd_of_last {P : Char → Bool} {t : Text} (h : ∀ c, t.getLast? = some c → P c = false) :
    trimEnd P t = t := by
  rw [trimEnd]
  have hsame : t.reverse.dropWhile P = t.reverse := by
    cases hr : t.reverse with
    | nil => rfl
    | cons c r =>
      apply List.dropWhile_cons_of_neg
      rw [h c]
      · exact Bool.false_ne_true
      · rw [← List.head?_reverse, hr]
        rfl
  rw [hsame, List.reverse_reverse]

/-- The blanks at the start of a path's text: there are none. -/
theorem trimmedText_relText (p : RelPath) : trimmedText (relText p) =
    trimEnd (· == '/') (trimStart (· == '/') (trimEnd isWhiteSpace ('/' :: bareText p))) := by
  have htext : (relText p).toList = '/' :: bareText p := pathText_eq p
  rw [trimmedText, htext]
  rfl

/-- Blanks behind the last name are not read. -/
theorem trimmedText_blanks (q : RelPath) (n : String) {w : String}
    (hw : ∀ c ∈ w.toList, isWhiteSpace c = true) :
    trimmedText (relText (q ++ [n ++ w])) = trimmedText (relText (q ++ [n])) := by
  have hbare : bareText (q ++ [n ++ w]) = bareText (q ++ [n]) ++ w.toList := by
    by_cases hq : q = []
    · subst hq
      simp [bareText]
    · rw [bareText_append hq (List.cons_ne_nil _ _), bareText_append hq (List.cons_ne_nil _ _)]
      simp [bareText]
  rw [trimmedText_relText, trimmedText_relText, hbare, ← List.cons_append, trimEnd_append hw]

/-- A path that ends in no blank is read as it is. -/
theorem trimmedText_solid (hp : NamePath p) (hsolid : EndsSolid p) :
    trimmedText (relText p) = bareText p := by
  rw [trimmedText_relText]
  have hend : trimEnd isWhiteSpace ('/' :: bareText p) = '/' :: bareText p := by
    apply trimEnd_of_last
    intro c hc
    rw [List.getLast?_cons, Option.some.injEq] at hc
    cases hlast : (bareText p).getLast? with
    | none =>
      rw [hlast, Option.getD_none] at hc
      rw [← hc]
      rfl
    | some d =>
      rw [hlast, Option.getD_some] at hc
      rw [← hc]
      exact hsolid d hlast
  have hslashes := trimSlashes_pathText hp
  rw [trimSlashes, pathText_eq] at hslashes
  rw [hend, hslashes]

/-- Whatever is trimmed, the beginning of the path is read. -/
theorem trimmedText_begins (hp : NamePath p) : trimmedText (relText p) <+: bareText p := by
  rw [trimmedText_relText]
  refine (trimEnd_begins _ _).trans ?_
  have htrim : trimEnd isWhiteSpace ('/' :: bareText p) <+: '/' :: bareText p := trimEnd_begins _ _
  match htext : trimEnd isWhiteSpace ('/' :: bareText p) with
  | [] => exact List.nil_prefix
  | c :: t =>
    rw [htext] at htrim
    obtain ⟨rfl, ht⟩ := List.cons_prefix_cons.mp htrim
    have hhead : t.head? ≠ some '/' := by
      intro h
      apply bareText_head hp
      obtain ⟨s, hs⟩ := ht
      rw [← hs, List.head?_append, h]
      rfl
    rw [trimStart, List.dropWhile_cons_of_pos (by simp), dropWhile_of_head hhead]
    exact ht

/-- On such paths a path is hidden by an entry that spells a prefix of it. -/
theorem isHidden_iff_spelled (hrules : b.hidePaths = hide.filterMap normalizeHidePath)
    (hp : NamePath p) (hsolid : EndsSolid p) :
    b.isHidden p = true ↔ ∃ e ∈ hide, ∃ r, spelled e = some r ∧ r <+: p := by
  rw [isHidden_iff hrules, trimmedText_solid hp hsolid]
  have hentry : ∀ e : String, (trimmedText e ≠ [] ∧
      (trimmedText e).splitOn '/' <+: (bareText p).splitOn '/') ↔
      ∃ r, spelled e = some r ∧ r <+: p := by
    intro e
    by_cases he : trimmedText e = []
    · simp [spelled, he]
    · have hsome : spelled e = some (((trimmedText e).splitOn '/').map String.ofList) := if_neg he
      rw [hsome]
      simp only [Option.some.injEq, exists_eq_left', ne_eq, he, not_false_eq_true, true_and]
      by_cases hnil : p = []
      · subst hnil
        -- no entry spells the root
        have hleft : ¬ (trimmedText e).splitOn '/' <+: (bareText []).splitOn '/' := by
          rw [splitOn_prefix_iff]
          rintro (h | ⟨rest, h⟩)
          · exact he h.symm
          · simp [bareText] at h
        have hright : ¬ ((trimmedText e).splitOn '/').map String.ofList <+: [] := by
          rw [List.prefix_nil, List.map_eq_nil_iff]
          exact List.splitOn_ne_nil _ _
        exact iff_of_false hleft hright
      · rw [splitOn_bareText hp hnil]
        have hback : p = (p.map String.toList).map String.ofList := by
          rw [List.map_map]
          conv_lhs => rw [← List.map_id p]
          exact (List.map_congr_left fun n _ => String.ofList_toList).symm
        conv_rhs => rw [hback]
        exact (List.prefix_map_iff_of_injective fun _ _ => String.ofList_inj.mp).symm
  exact exists_congr fun e => and_congr_right fun _ => hentry e

/-! ## What an entry denotes -/

theorem Canonical.names (h : Canonical p) : NamePath p := fun n hn => (h n hn).1

theorem Canonical.mono (h : Canonical p) {q : RelPath} (hq : q <+: p) : Canonical q :=
  fun n hn => h n (hq.subset hn)

/-- The components of an entry without `..` are a path. -/
theorem canonical_components {e : String} (hdots : ".." ∉ components e) :
    Canonical (components e) := by
  intro n hn
  have hn' := hn
  rw [components, List.mem_map] at hn
  obtain ⟨part, hpart, rfl⟩ := hn
  rw [List.mem_filter] at hpart
  obtain ⟨hsplit, hne⟩ := hpart
  rw [decide_eq_true_eq] at hne
  refine ⟨⟨?_, ?_⟩, ?_, ?_⟩
  · intro hnil
    exact hne.1 (by simpa using hnil)
  · rw [String.toList_ofList]
    exact notMem_of_mem_splitOn hsplit
  · intro hdot
    exact hne.2 (by rw [← String.toList_ofList (l := part), hdot]; rfl)
  · rintro hdd
    exact hdots (hdd ▸ hn')

/-- The components of a path are the path. -/
theorem components_relText (hp : Canonical p) : components (relText p) = p := by
  have htext : (relText p).toList = '/' :: bareText p := pathText_eq p
  rw [components, htext, List.splitOn_cons_eq_if_modifyHead]
  simp only [beq_self_eq_true, if_true]
  by_cases hnil : p = []
  · subst hnil
    rfl
  · rw [splitOn_bareText hp.names hnil, List.filter_cons_of_neg (by simp)]
    have hall : (p.map String.toList).filter (fun part => part ≠ [] ∧ part ≠ ['.']) =
        p.map String.toList := by
      apply List.filter_eq_self.mpr
      intro part hpart
      obtain ⟨n, hn, rfl⟩ := List.mem_map.mp hpart
      rw [decide_eq_true_eq]
      refine ⟨fun h => (hp n hn).1.1 (String.toList_eq_nil_iff.mp h), fun h => (hp n hn).2.1 ?_⟩
      exact String.toList_injective h
    rw [hall, List.map_map]
    conv_rhs => rw [← List.map_id p]
    exact List.map_congr_left fun n _ => String.ofList_toList

/-- The names that stand in an entry. -/
def entryNames (e : String) : List String := components e ++ (spelled e).getD []

/-- No name this long stands in an entry. -/
theorem exists_longer (hide : List String) :
    ∃ k, ∀ n : String, k < n.length → ∀ e ∈ hide, n ∉ entryNames e := by
  refine ⟨(hide.flatMap entryNames).toFinset.sup String.length, ?_⟩
  intro n hn e he hmem
  have hin : n ∈ (hide.flatMap entryNames).toFinset :=
    List.mem_toFinset.mpr (List.mem_flatMap.mpr ⟨e, he, hmem⟩)
  have hle : n.length ≤ _ := Finset.le_sup (f := String.length) hin
  omega

/-- A new name behind a path: it ends in no blank, and it stands in no entry. -/
theorem exists_behind (hide : List String) (hp : Canonical p) : ∃ n : String,
    Canonical (p ++ [n]) ∧ EndsSolid (p ++ [n]) ∧ ∀ e ∈ hide, n ∉ entryNames e := by
  obtain ⟨k, hk⟩ := exists_longer hide
  refine ⟨String.ofList (List.replicate (k + 1) 'x'), ?_, ?_, hk _ ?_⟩
  · intro n hn
    rcases List.mem_append.mp hn with hn | hn
    · exact hp n hn
    · rw [List.mem_singleton.mp hn]
      have hx : ∀ m : String, 'x' ∉ m.toList → String.ofList (List.replicate (k + 1) 'x') ≠ m := by
        rintro m hm rfl
        exact hm (by simp)
      refine ⟨⟨hx _ (by decide), ?_⟩, hx _ (by decide), hx _ (by decide)⟩
      simp [List.mem_replicate]
  · intro c hc
    have hlast : (bareText (p ++ [String.ofList (List.replicate (k + 1) 'x')])).getLast? =
        some 'x' := by
      by_cases hnil : p = []
      · subst hnil
        simp [bareText, List.getLast?_replicate]
      · rw [bareText_append hnil (List.cons_ne_nil _ _)]
        simp [bareText, List.getLast?_append, List.getLast?_cons, List.getLast?_replicate]
    rw [hlast] at hc
    rw [← Option.some.inj hc]
    rfl
  · simp

/-- A prefix without the last name is a prefix of what is before it. -/
theorem prefix_of_behind {q : RelPath} {n : String} (h : q <+: p ++ [n]) (hn : n ∉ q) : q <+: p := by
  rcases List.prefix_concat_iff.mp h with heq | hpre
  · exact absurd (by rw [heq]; simp) hn
  · exact hpre

/-! ## Exact lists -/

/-- A path is hidden exactly when an entry denotes it or something above it. -/
def HidesExactly (b : BranchFs.Branch) (hide : List String) : Prop :=
  ∀ p, Canonical p → (b.isHidden p = true ↔ Denoted hide p)

/-- The same, of the paths that do not end in a blank. -/
def HidesSolid (b : BranchFs.Branch) (hide : List String) : Prop :=
  ∀ p, Canonical p → EndsSolid p → (b.isHidden p = true ↔ Denoted hide p)

/-- What an entry denotes, some entry spells from above, and the other way round. -/
structure SpelledOut (hide : List String) : Prop where
  reached : ∀ e ∈ hide, components e ≠ [] →
    ∃ e' ∈ hide, ∃ r, spelled e' = some r ∧ r <+: components e
  meant : ∀ e ∈ hide, ∀ r, spelled e = some r → Canonical r → Denoted hide r

/-- No entry has a component, and none is a lone `.`. -/
def HidesNothing (hide : List String) : Prop :=
  ∀ e ∈ hide, components e = [] ∧ spelled e ≠ some ["."]

/-- On paths that do not end in a blank, a list is exact when its entries are spelled out. -/
theorem hides_solid_iff (hrules : b.hidePaths = hide.filterMap normalizeHidePath)
    (hdots : ∀ e ∈ hide, ".." ∉ components e) : HidesSolid b hide ↔ SpelledOut hide := by
  constructor
  · intro h
    constructor
    · intro e he hne
      obtain ⟨n, hcanon, hsolid, hnew⟩ := exists_behind hide (canonical_components (hdots e he))
      have hhid := (h _ hcanon hsolid).mpr ⟨e, he, hne, List.prefix_append _ _⟩
      obtain ⟨e', he', r, hr, hpre⟩ := (isHidden_iff_spelled hrules hcanon.names hsolid).mp hhid
      refine ⟨e', he', r, hr, prefix_of_behind hpre fun hn => hnew e' he' ?_⟩
      rw [entryNames, hr]
      exact List.mem_append_right _ hn
    · intro e he r hr hcanonr
      obtain ⟨n, hcanon, hsolid, hnew⟩ := exists_behind hide hcanonr
      have hhid := (isHidden_iff_spelled hrules hcanon.names hsolid).mpr
        ⟨e, he, r, hr, List.prefix_append _ _⟩
      obtain ⟨e', he', hne, hpre⟩ := (h _ hcanon hsolid).mp hhid
      refine ⟨e', he', hne, prefix_of_behind hpre fun hn => hnew e' he' ?_⟩
      exact List.mem_append_left _ hn
  · intro h p hcanon hsolid
    rw [isHidden_iff_spelled hrules hcanon.names hsolid]
    constructor
    · rintro ⟨e, he, r, hr, hpre⟩
      obtain ⟨e', he', hne, hup⟩ := h.meant e he r hr (hcanon.mono hpre)
      exact ⟨e', he', hne, hup.trans hpre⟩
    · rintro ⟨e, he, hne, hpre⟩
      obtain ⟨e', he', r, hr, hup⟩ := h.reached e he hne
      exact ⟨e', he', r, hr, hup.trans hpre⟩

/-- A list that hides exactly what it denotes hides nothing: blanks behind a name it denotes are not
read, and no list names all of them. -/
theorem HidesExactly.nothing (hrules : b.hidePaths = hide.filterMap normalizeHidePath)
    (hdots : ∀ e ∈ hide, ".." ∉ components e) (h : HidesExactly b hide) : HidesNothing hide := by
  have hnone : ∀ e ∈ hide, components e = [] := by
    by_contra hsome
    push Not at hsome
    -- an entry with as few components as any
    classical
    have hlen : ∃ n, ∃ e ∈ hide, components e ≠ [] ∧ (components e).length = n := by
      obtain ⟨e, he, hne⟩ := hsome
      exact ⟨_, e, he, hne, rfl⟩
    obtain ⟨e, he, hne, hfew⟩ := Nat.find_spec hlen
    have hmin : ∀ e' ∈ hide, components e' ≠ [] →
        (components e).length ≤ (components e').length := by
      intro e' he' hne'
      rw [hfew]
      exact Nat.find_min' hlen ⟨e', he', hne', rfl⟩
    have hcanon := canonical_components (hdots e he)
    obtain ⟨q, n, hqn⟩ : ∃ q n, components e = q ++ [n] :=
      ⟨_, _, (List.dropLast_append_getLast hne).symm⟩
    obtain ⟨k, hk⟩ := exists_longer hide
    let w := String.ofList (List.replicate (k + 1) ' ')
    have hw : ∀ c ∈ w.toList, isWhiteSpace c = true := by
      intro c hc
      rw [String.toList_ofList] at hc
      rw [(List.mem_replicate.mp hc).2]
      rfl
    have hcanonw : Canonical (q ++ [n ++ w]) := by
      intro m hm
      rcases List.mem_append.mp hm with hm | hm
      · exact hcanon m (by rw [hqn]; exact List.mem_append_left _ hm)
      · rw [List.mem_singleton.mp hm]
        have hn := hcanon n (by rw [hqn]; simp)
        have hblank : ∀ s : String, ' ' ∉ s.toList → n ++ w ≠ s := by
          rintro s hs rfl
          exact hs (by simp [w])
        refine ⟨⟨hblank _ (by decide), ?_⟩, hblank _ (by decide), hblank _ (by decide)⟩
        simp [w, hn.1.2, List.mem_replicate]
    have hhid : b.isHidden (q ++ [n ++ w]) = true := by
      rw [isHidden_iff hrules, trimmedText_blanks q n hw, ← isHidden_iff hrules, ← hqn]
      exact (h _ hcanon).mpr ⟨e, he, hne, List.prefix_refl _⟩
    obtain ⟨e', he', hne', hpre⟩ := (h _ hcanonw).mp hhid
    have hlong : (components e').length = (q ++ [n ++ w]).length := by
      have hle := hmin e' he' hne'
      have hge := hpre.length_le
      rw [hqn] at hle
      simp only [List.length_append, List.length_singleton] at hle hge ⊢
      omega
    have heq := hpre.eq_of_length hlong
    refine hk (n ++ w) ?_ e' he' (List.mem_append_left _ ?_)
    · simp [w]
      omega
    · rw [heq]
      simp
  intro e he
  refine ⟨hnone e he, fun hdot => ?_⟩
  -- the name that is a dot and a blank is read as a dot
  have hcanon : Canonical ["." ++ " "] := by
    intro m hm
    rw [List.mem_singleton.mp hm]
    exact ⟨⟨by decide, by decide⟩, by decide, by decide⟩
  have hhid : b.isHidden ["." ++ " "] = true := by
    rw [isHidden_iff hrules]
    rw [spelled] at hdot
    split at hdot
    · cases hdot
    · next hne =>
      refine ⟨e, he, hne, ?_⟩
      have hparts : (trimmedText e).splitOn '/' = [['.']] := by
        have hlist := Option.some.inj hdot
        rw [show ["."] = [['.']].map String.ofList from rfl] at hlist
        exact List.map_injective_iff.mpr (fun _ _ => String.ofList_inj.mp) hlist
      rw [hparts]
      exact ⟨[], rfl⟩
  obtain ⟨e', he', hne', -⟩ := (h _ hcanon).mp hhid
  exact hne' (hnone e' he')

theorem mem_of_mem_intercalate {ls : List Text} {c : Char} (h : c ∈ ['/'].intercalate ls) :
    c = '/' ∨ ∃ l ∈ ls, c ∈ l := by
  induction ls with
  | nil => simp [List.intercalate_nil] at h
  | cons l ls ih =>
    match ls with
    | [] =>
      rw [List.intercalate_singleton] at h
      exact Or.inr ⟨l, List.mem_cons_self, h⟩
    | m :: ls =>
      rw [List.intercalate_cons_cons] at h
      simp only [List.mem_append, List.mem_singleton] at h
      rcases h with (h | h) | h
      · exact Or.inr ⟨l, List.mem_cons_self, h⟩
      · exact Or.inl h
      · rcases ih h with h | ⟨x, hx, hc⟩
        · exact Or.inl h
        · exact Or.inr ⟨x, List.mem_cons_of_mem _ hx, hc⟩

/-- Slashes in front of a text add empty parts. -/
theorem mem_splitOn_trimStart {t l : Text} (h : l ∈ (trimStart (· == '/') t).splitOn '/') :
    l ∈ t.splitOn '/' := by
  induction t with
  | nil => exact h
  | cons c t ih =>
    by_cases hc : c = '/'
    · subst hc
      rw [trimStart, List.dropWhile_cons_of_pos (by simp)] at h
      rw [List.splitOn_cons_eq_if_modifyHead, if_pos (by simp)]
      exact List.mem_cons_of_mem _ (ih h)
    · rwa [trimStart, List.dropWhile_cons_of_neg (by simpa using hc)] at h

/-- And so do slashes behind it. -/
theorem mem_splitOn_trimEnd {t l : Text} (h : l ∈ (trimEnd (· == '/') t).splitOn '/') :
    l ∈ t.splitOn '/' := by
  induction t using List.reverseRecOn with
  | nil => exact h
  | append_singleton t c ih =>
    by_cases hc : c = '/'
    · subst hc
      have htrim : trimEnd (· == '/') (t ++ ['/']) = trimEnd (· == '/') t :=
        trimEnd_append (by simp) t
      rw [htrim] at h
      rw [List.splitOn_append_cons_self]
      exact List.mem_append_left _ (ih h)
    · have hsame : trimEnd (· == '/') (t ++ [c]) = t ++ [c] := by
        apply trimEnd_of_last
        intro d hd
        rw [List.getLast?_concat, Option.some.injEq] at hd
        rw [← hd]
        simpa using hc
      rwa [hsame] at h

/-- The parts of an entry without components, after trimming. -/
theorem parts_of_no_components {e : String} (h : components e = []) {l : Text}
    (hl : l ∈ (trimmedText e).splitOn '/') : l = [] ∨ l = ['.'] := by
  have hparts : ∀ l ∈ e.toList.splitOn '/', l = [] ∨ l = ['.'] := by
    intro l hl
    rw [components, List.map_eq_nil_iff, List.filter_eq_nil_iff] at h
    have hnot := h l hl
    rw [decide_eq_true_eq, not_and_or, not_not, not_not] at hnot
    exact hnot
  have hsolid : ∀ c ∈ e.toList, isWhiteSpace c = false := by
    intro c hc
    have hjoin : ['/'].intercalate (e.toList.splitOn '/') = e.toList := List.intercalate_splitOn '/'
    rw [← hjoin] at hc
    rcases mem_of_mem_intercalate hc with rfl | ⟨l, hl, hcl⟩
    · rfl
    · rcases hparts l hl with rfl | rfl
      · exact absurd hcl List.not_mem_nil
      · rw [List.mem_singleton.mp hcl]
        rfl
  have hstart : trimStart isWhiteSpace e.toList = e.toList := by
    rw [trimStart]
    cases hs : e.toList with
    | nil => rfl
    | cons c s =>
      apply List.dropWhile_cons_of_neg
      rw [hsolid c (by rw [hs]; exact List.mem_cons_self)]
      exact Bool.false_ne_true
  have hend : trimEnd isWhiteSpace e.toList = e.toList :=
    trimEnd_of_last fun c hc => hsolid c (List.mem_of_getLast? hc)
  rw [trimmedText, hstart, hend] at hl
  exact hparts l (mem_splitOn_trimStart (mem_splitOn_trimEnd hl))

/-- What is left after trimming does not begin with a slash. -/
theorem trimmedText_head (e : String) : (trimmedText e).head? ≠ some '/' := by
  rw [trimmedText]
  generalize trimEnd isWhiteSpace (trimStart isWhiteSpace e.toList) = t
  intro h
  obtain ⟨rest, hrest⟩ := trimEnd_begins (· == '/') (trimStart (· == '/') t)
  have hhead : (trimStart (· == '/') t).head? = some '/' := by
    rw [← hrest, List.head?_append, h]
    rfl
  have hnot := List.head?_dropWhile_not (· == '/') t
  rw [trimStart] at hhead
  rw [hhead] at hnot
  simp at hnot

theorem HidesNothing.exactly (hrules : b.hidePaths = hide.filterMap normalizeHidePath)
    (h : HidesNothing hide) : HidesExactly b hide := by
  intro p hcanon
  have hnot : ¬ Denoted hide p := by
    rintro ⟨e, he, hne, -⟩
    exact hne (h e he).1
  refine iff_of_false (fun hhid => ?_) hnot
  obtain ⟨e, he, hne, hpre⟩ := (isHidden_iff hrules).mp hhid
  obtain ⟨hcomp, hdot⟩ := h e he
  -- the entry spells a `.` and then something more
  obtain ⟨part, parts, hparts⟩ := List.exists_cons_of_ne_nil (List.splitOn_ne_nil '/' (trimmedText e))
  have hjoin : ['/'].intercalate ((trimmedText e).splitOn '/') = trimmedText e :=
    List.intercalate_splitOn '/'
  rw [hparts] at hjoin
  have hpart : part = ['.'] := by
    rcases parts_of_no_components hcomp (l := part) (by rw [hparts]; exact List.mem_cons_self) with
      rfl | rfl
    · exfalso
      match parts with
      | [] =>
        rw [List.intercalate_singleton] at hjoin
        exact hne hjoin.symm
      | m :: parts =>
        rw [List.intercalate_cons_cons] at hjoin
        apply trimmedText_head e
        rw [← hjoin]
        rfl
    · rfl
  subst hpart
  obtain ⟨m, parts', rfl⟩ : ∃ m parts', parts = m :: parts' := by
    match parts with
    | [] =>
      exfalso
      apply hdot
      rw [spelled, if_neg hne, hparts]
      rfl
    | m :: parts => exact ⟨m, parts, rfl⟩
  -- so does the path
  obtain ⟨rest, hrest⟩ := hpre
  have hread : ['/'].intercalate ((trimmedText (relText p)).splitOn '/') = trimmedText (relText p) :=
    List.intercalate_splitOn '/'
  rw [← hrest, hparts, List.cons_append, List.cons_append, List.intercalate_cons_cons] at hread
  obtain ⟨more, hmore⟩ := trimmedText_begins hcanon.names
  rw [← hread] at hmore
  by_cases hnil : p = []
  · subst hnil
    simp [bareText] at hmore
  · have hsplit := splitOn_bareText hcanon.names hnil
    rw [← hmore] at hsplit
    simp only [List.cons_append, List.nil_append] at hsplit
    rw [show ∀ s : Text, '.' :: '/' :: s = ['.'] ++ '/' :: s from fun _ => rfl,
      List.splitOn_append_cons_self] at hsplit
    obtain ⟨n, q, rfl⟩ := List.exists_cons_of_ne_nil hnil
    rw [List.map_cons, show List.splitOn '/' ['.'] = [['.']] from rfl, List.singleton_append] at hsplit
    have hfirst : n.toList = ['.'] := (List.cons.inj hsplit).1.symm
    exact (hcanon n List.mem_cons_self).2.1 (String.toList_injective hfirst)

/-! ## From creation on -/

section Json

variable {json : SerdeJson}

/-- What `meta.json` holds of a branch is what it holds in memory. -/
def Kept (json : SerdeJson) (s : Branch) : Prop :=
  s.files.metadata = some (json.writeMetadata s.metadata)

theorem foldl_appendTombstoneOp_kept (removed : List Text) {s : Branch} (h : Kept json s) :
    Kept json (removed.foldl (fun b t => Branch.appendTombstoneOp '-' t b) s) ∧
      (removed.foldl (fun b t => Branch.appendTombstoneOp '-' t b) s).metadata = s.metadata := by
  induction removed generalizing s with
  | nil => exact ⟨h, rfl⟩
  | cons t removed ih => exact ih (s := Branch.appendTombstoneOp '-' t s) h

theorem migrateLegacyTombstones_metadata (f : BranchFiles) :
    (migrateLegacyTombstones f).metadata = f.metadata := by
  unfold migrateLegacyTombstones
  dsimp only
  split <;> rfl

theorem migrateLegacyTouches_metadata {f f' : BranchFiles}
    (h : migrateLegacyTouches json f = some f') : f'.metadata = f.metadata := by
  unfold migrateLegacyTouches at h
  obtain ⟨records, -, h⟩ := Option.bind_eq_some_iff.mp h
  split at h
  · rw [← Option.some.inj h]
  · rw [← Option.some.inj h]

/-- A load takes the metadata from the file, and leaves the file. -/
theorem load_metadata (hjson : json.Lawful) {f : BranchFiles} {m : BranchMetadata}
    (hf : f.metadata = some (json.writeMetadata m)) {s : Branch} (h : load json f = some s) :
    s.metadata = m ∧ Kept json s := by
  rw [load] at h
  simp only [Option.bind_eq_bind, hf, Option.bind_some, hjson.readMetadata_write] at h
  obtain ⟨f', hf', h⟩ := Option.bind_eq_some_iff.mp h
  obtain ⟨touches, -, h⟩ := Option.bind_eq_some_iff.mp h
  have hfile : f'.metadata = some (json.writeMetadata m) := migrateLegacyTouches_metadata hf'
  rw [← Option.some.inj h]
  exact ⟨rfl, (migrateLegacyTombstones_metadata f').trans hfile⟩

/-- No step changes the hide rules. -/
theorem step_rules (hjson : json.Lawful) {s s' : Branch} (hkept : Kept json s) {op : Op}
    (h : step json s op = some s') :
    Kept json s' ∧ s'.metadata.hidePaths = s.metadata.hidePaths := by
  cases op with
  | recordFirstTouch path base key =>
    rw [← Option.some.inj h, Branch.recordFirstTouch]
    split
    · exact ⟨hkept, rfl⟩
    · exact ⟨hkept, rfl⟩
  | removeTouchRecordsUnder path =>
    rw [← Option.some.inj h, Branch.removeTouchRecordsUnder]
    dsimp only
    split
    · exact ⟨hkept, rfl⟩
    · exact ⟨hkept, rfl⟩
  | addTombstone path =>
    rw [← Option.some.inj h, Branch.addTombstone]
    split
    · exact ⟨hkept, rfl⟩
    · exact ⟨hkept, rfl⟩
  | removeTombstone path =>
    rw [← Option.some.inj h, Branch.removeTombstone]
    split
    · exact ⟨hkept, rfl⟩
    · exact ⟨hkept, rfl⟩
  | removeTombstonesUnder order path =>
    rw [← Option.some.inj h, Branch.removeTombstonesUnder]
    generalize (order.iter s.tombstones).filter (pathIsSameOrDescendant · path) = removed
    have hcut : Kept json { s with tombstones := s.tombstones.filter (· ∉ removed) } := hkept
    obtain ⟨hk, hm⟩ := foldl_appendTombstoneOp_kept removed hcut
    exact ⟨hk, congrArg BranchMetadata.hidePaths hm⟩
  | setTombstones order tombstones =>
    rw [← Option.some.inj h]
    exact ⟨hkept, rfl⟩
  | setState state =>
    rw [← Option.some.inj h]
    exact ⟨rfl, rfl⟩
  | countCommit =>
    rw [← Option.some.inj h]
    exact ⟨rfl, rfl⟩
  | restart =>
    obtain ⟨hm, hk⟩ := load_metadata hjson hkept h
    exact ⟨hk, congrArg BranchMetadata.hidePaths hm⟩

theorem run_rules (hjson : json.Lawful) {s s' : Branch} (hkept : Kept json s) {ops : List Op}
    (h : run json s ops = some s') : s'.metadata.hidePaths = s.metadata.hidePaths := by
  induction ops generalizing s with
  | nil => rw [← Option.some.inj h]
  | cons op ops ih =>
    rw [run, List.foldlM_cons] at h
    obtain ⟨mid, hstep, hrest⟩ := Option.bind_eq_some_iff.mp h
    obtain ⟨hk, hrules⟩ := step_rules hjson hkept hstep
    rw [ih hk hrest, hrules]

/-- A branch has the rules it was created with, in their normal form, whatever was done to it. -/
theorem rules_of_run (hjson : json.Lawful) {f : BranchFiles} {name : String} {parent : Option String}
    {version : UInt64} {inheritance : InheritanceMode} {new s : Branch} {ops : List Op}
    (hnew : Branch.create json f name parent version inheritance hide = some new)
    (hrun : run json new ops = some s) (order : LoadOrder) :
    (s.record order).hidePaths = hide.filterMap normalizeHidePath := by
  have hkept : Kept json new := by
    unfold Branch.create at hnew
    obtain ⟨touches, -, hnew⟩ := Option.bind_eq_some_iff.mp hnew
    rw [← Option.some.inj hnew]
    rfl
  obtain ⟨hmeta, -⟩ := create_eq_some hnew
  show s.metadata.hidePaths = _
  rw [run_rules hjson hkept hrun, hmeta]

/-- Every list of entries hides what it denotes and nothing else, from its creation on. -/
def HideRulesAreExact : Prop :=
  ∀ json : SerdeJson, json.Lawful → ∀ f name parent version inheritance (hide : List String) new,
    (∀ e ∈ hide, ".." ∉ components e) →
    Branch.create json f name parent version inheritance hide = some new →
    ∀ ops s, run json new ops = some s → ∀ order : LoadOrder, HidesExactly (s.record order) hide

/-- A list is exact on all names exactly when it hides nothing, and exact on the paths that end in no
blank exactly when its entries are spelled as what they denote. -/
theorem hides_exactly_iff (hjson : json.Lawful) {f : BranchFiles} {name : String}
    {parent : Option String} {version : UInt64} {inheritance : InheritanceMode} {new s : Branch}
    {ops : List Op} (hdots : ∀ e ∈ hide, ".." ∉ components e)
    (hnew : Branch.create json f name parent version inheritance hide = some new)
    (hrun : run json new ops = some s) (order : LoadOrder) :
    (HidesExactly (s.record order) hide ↔ HidesNothing hide) ∧
      (HidesSolid (s.record order) hide ↔ SpelledOut hide) := by
  have hrules := rules_of_run hjson hnew hrun order
  exact ⟨⟨fun h => h.nothing hrules hdots, fun h => h.exactly hrules⟩,
    hides_solid_iff hrules hdots⟩

/-- An entry that spells its components. -/
def PlainEntry (e : String) : Prop :=
  spelled e = if components e = [] then none else some (components e)

instance (e : String) : Decidable (PlainEntry e) := inferInstanceAs (Decidable (_ = _))

theorem spelledOut_of_plain (h : ∀ e ∈ hide, PlainEntry e) : SpelledOut hide where
  reached e he hne := by
    have hspelled := h e he
    rw [PlainEntry, if_neg hne] at hspelled
    exact ⟨e, he, components e, hspelled, List.prefix_refl _⟩
  meant e he r hr _ := by
    have hspelled := h e he
    rw [PlainEntry, hr] at hspelled
    split at hspelled
    · cases hspelled
    · next hne =>
      rw [Option.some.injEq] at hspelled
      exact ⟨e, he, hne, hspelled ▸ List.prefix_refl _⟩

/-- Two rules in the usual spellings, through a restart. -/
theorem hides_exactly_plain : ∃ new s,
    Branch.create sampleJson .fresh "agent" (some "main") 0 .lazy ["/.ssh", "docs/keys/"] = some new ∧
      run sampleJson new [.restart] = some s ∧
      HidesSolid (s.record listOrder) ["/.ssh", "docs/keys/"] := by
  obtain ⟨new, hnew, hdurable⟩ :=
    Durable.create sampleJson "agent" (some "main") 0 .lazy ["/.ssh", "docs/keys/"]
  have hsafe : SafeRun sampleJson new [.restart] := ⟨trivial, fun _ _ => trivial⟩
  obtain ⟨s, hrun, -⟩ := hdurable.run sampleJson_lawful hsafe
  refine ⟨new, s, hnew, hrun, ?_⟩
  apply (hides_exactly_iff sampleJson_lawful (by decide) hnew hrun listOrder).2.mpr
  exact spelledOut_of_plain (by decide)

/-- `./.ssh` does not hide `.ssh`. -/
theorem not_hideRulesAreExact : ¬ HideRulesAreExact := by
  intro h
  obtain ⟨new, hnew, -⟩ := Durable.create sampleJson "agent" (some "main") 0 .lazy ["./.ssh"]
  have hexact := h sampleJson sampleJson_lawful .fresh "agent" (some "main") 0 .lazy ["./.ssh"] new
    (by decide) hnew [] new rfl listOrder
  have hcanon : Canonical [".ssh"] := by
    intro n hn
    rw [List.mem_singleton.mp hn]
    exact ⟨⟨by decide, by decide⟩, by decide, by decide⟩
  have hhid := (hexact [".ssh"] hcanon).mpr ⟨"./.ssh", by decide, by decide, by decide⟩
  have hrun : run sampleJson new [] = some new := rfl
  obtain ⟨e, he, -, hpre⟩ :=
    (isHidden_iff (rules_of_run sampleJson_lawful hnew hrun listOrder)).mp hhid
  rw [List.mem_singleton.mp he] at hpre
  revert hpre
  decide

end Json

end BranchFs.Store
