/-
# BranchFs.Store.PathText -- component paths and their text

The manager's model has a path as the list of its components, the store has its text. A component is
a file name: not empty and without a `/`. On such paths `relText` is injective and the source's
`path_is_same_or_descendant` on text is the prefix test on components, so the tombstones and touch
records of the two branches stay the same ones under every method (`Carries`).
-/
import BranchFs.Store.Persist

namespace BranchFs.Store

open BranchFs.Logic

/-- A file name. -/
def FileName (n : String) : Prop := n ≠ "" ∧ '/' ∉ n.toList

/-- A path of file names. -/
def NamePath (p : RelPath) : Prop := ∀ n ∈ p, FileName n

/-- The text of a path, character by character. -/
def pathText (p : RelPath) : Text := (relText p).toList

/-- The text behind the first slash. -/
def bareText (p : RelPath) : Text := ['/'].intercalate (p.map String.toList)

theorem pathText_eq (p : RelPath) : pathText p = '/' :: bareText p := by
  simp [pathText, relText, bareText, String.toList_intercalate]

theorem bareText_cons_cons (n m : String) (p : RelPath) :
    bareText (n :: m :: p) = n.toList ++ '/' :: bareText (m :: p) := by
  simp [bareText, List.intercalate_cons_cons]

/-- Parts joined in two pieces. -/
theorem intercalate_append {q r : List Text} (hq : q ≠ []) (hr : r ≠ []) :
    ['/'].intercalate (q ++ r) = ['/'].intercalate q ++ '/' :: ['/'].intercalate r := by
  induction q with
  | nil => exact absurd rfl hq
  | cons n q ih =>
    match q with
    | [] =>
      obtain ⟨m, r', rfl⟩ := List.exists_cons_of_ne_nil hr
      rw [List.singleton_append, List.intercalate_cons_cons]
      simp
    | m :: q =>
      have happend := ih (List.cons_ne_nil m q)
      rw [List.cons_append] at happend
      rw [List.cons_append, List.cons_append, List.intercalate_cons_cons,
        List.intercalate_cons_cons, happend]
      simp

theorem bareText_append {q r : RelPath} (hq : q ≠ []) (hr : r ≠ []) :
    bareText (q ++ r) = bareText q ++ '/' :: bareText r := by
  rw [bareText, List.map_append]
  exact intercalate_append (by simpa using hq) (by simpa using hr)

/-- Splitting the text at its slashes gives the components back. -/
theorem splitOn_bareText {p : RelPath} (h : NamePath p) (hne : p ≠ []) :
    (bareText p).splitOn '/' = p.map String.toList := by
  apply List.splitOn_intercalate
  · intro l hl
    obtain ⟨n, hn, rfl⟩ := List.mem_map.mp hl
    exact (h n hn).2
  · simpa using hne

theorem toList_map_injective {p q : RelPath} (h : p.map String.toList = q.map String.toList) :
    p = q :=
  List.map_injective_iff.mpr (fun _ _ => String.toList_injective) h

theorem bareText_eq_nil {p : RelPath} (h : NamePath p) (hnil : bareText p = []) : p = [] := by
  by_contra hne
  have hsplit := splitOn_bareText h hne
  rw [hnil] at hsplit
  obtain ⟨n, q, rfl⟩ := List.exists_cons_of_ne_nil hne
  have hn : n.toList = [] := by
    rw [List.splitOn_nil, List.map_cons] at hsplit
    exact (List.cons.inj hsplit).1.symm
  exact (h n List.mem_cons_self).1 (String.toList_eq_nil_iff.mp hn)

theorem bareText_injective {p q : RelPath} (hp : NamePath p) (hq : NamePath q)
    (h : bareText p = bareText q) : p = q := by
  by_cases hpn : p = []
  · rw [hpn] at h ⊢
    exact (bareText_eq_nil hq h.symm).symm
  · have hqn : q ≠ [] := by
      rintro rfl
      exact hpn (bareText_eq_nil hp h)
    apply toList_map_injective
    rw [← splitOn_bareText hp hpn, ← splitOn_bareText hq hqn, h]

theorem pathText_injective {p q : RelPath} (hp : NamePath p) (hq : NamePath q)
    (h : pathText p = pathText q) : p = q := by
  rw [pathText_eq, pathText_eq] at h
  exact bareText_injective hp hq (List.cons.inj h).2

/-! ## Trimming -/

theorem bareText_head {p : RelPath} (h : NamePath p) : (bareText p).head? ≠ some '/' := by
  intro hhead
  obtain ⟨t, ht⟩ : ∃ t, bareText p = '/' :: t := by
    cases hb : bareText p with
    | nil => simp [hb] at hhead
    | cons c t => exact ⟨t, by simp_all⟩
  have hne : p ≠ [] := by
    rintro rfl
    simp [bareText] at ht
  -- an empty component would stand before the slash
  have hsplit := splitOn_bareText h hne
  rw [ht] at hsplit
  obtain ⟨n, q, rfl⟩ := List.exists_cons_of_ne_nil hne
  have hn : n.toList = [] := by
    rw [List.splitOn_cons_eq_if_modifyHead] at hsplit
    simp only [beq_self_eq_true, if_true, List.map_cons] at hsplit
    exact (List.cons.inj hsplit).1.symm
  exact (h n List.mem_cons_self).1 (String.toList_eq_nil_iff.mp hn)

theorem bareText_last {p : RelPath} (h : NamePath p) : (bareText p).getLast? ≠ some '/' := by
  intro hlast
  obtain ⟨t, ht⟩ : ∃ t, bareText p = t ++ ['/'] := by
    rcases (bareText p).eq_nil_or_concat with hnil | ⟨t, c, hc⟩
    · simp [hnil] at hlast
    · rw [hc, List.concat_eq_append] at hlast ⊢
      rw [List.getLast?_concat, Option.some.injEq] at hlast
      exact ⟨t, by rw [hlast]⟩
  have hne : p ≠ [] := by
    rintro rfl
    simp [bareText] at ht
  -- an empty component would stand behind the slash
  have hsplit := splitOn_bareText h hne
  rw [ht, List.splitOn_append_cons_self, List.splitOn_nil] at hsplit
  have hempty : [] ∈ p.map String.toList := by
    rw [← hsplit]
    simp
  obtain ⟨n, hn, hnil⟩ := List.mem_map.mp hempty
  exact (h n hn).1 (String.toList_eq_nil_iff.mp hnil)

theorem dropWhile_of_head {t : Text} (h : t.head? ≠ some '/') : t.dropWhile (· == '/') = t := by
  match t with
  | [] => rfl
  | c :: t =>
    have hc : c ≠ '/' := fun hc => h (by rw [hc]; rfl)
    exact List.dropWhile_cons_of_neg (by simpa using hc)

theorem trimSlashes_pathText {p : RelPath} (h : NamePath p) :
    trimSlashes (pathText p) = bareText p := by
  have hstart : trimStart (· == '/') (pathText p) = bareText p := by
    rw [pathText_eq, trimStart, List.dropWhile_cons_of_pos (by simp)]
    exact dropWhile_of_head (bareText_head h)
  have hlast : (bareText p).reverse.head? ≠ some '/' := by
    rw [List.head?_reverse]
    exact bareText_last h
  rw [trimSlashes, hstart, trimEnd, dropWhile_of_head hlast, List.reverse_reverse]

/-- On texts of paths, the source's test is the prefix test. -/
theorem pathIsSameOrDescendant_pathText {p q : RelPath} (hp : NamePath p) (hq : NamePath q) :
    pathIsSameOrDescendant (pathText p) (pathText q) = BranchFs.pathIsSameOrDescendant p q := by
  rw [Bool.eq_iff_iff]
  simp only [pathIsSameOrDescendant, BranchFs.pathIsSameOrDescendant, trimSlashes_pathText hp,
    trimSlashes_pathText hq, Bool.or_eq_true, beq_iff_eq, List.isPrefixOf_iff_prefix,
    Bool.and_eq_true, Bool.not_eq_true', List.isEmpty_eq_false_iff]
  constructor
  · rintro (heq | ⟨t, ht⟩)
    · exact Or.inl (bareText_injective hp hq heq)
    · -- the root's text is a prefix of no path's
      have hqn : q ≠ [] := by
        rintro rfl
        apply bareText_head hp
        rw [← ht]
        rfl
      have hpn : p ≠ [] := by
        rintro rfl
        have hlen := congrArg List.length ht
        simp [bareText] at hlen
      refine Or.inr ⟨hqn, ?_⟩
      have hsplit := splitOn_bareText hp hpn
      rw [← ht, List.append_assoc, List.singleton_append, List.splitOn_append_cons_self,
        splitOn_bareText hq hqn] at hsplit
      have hpre : q.map String.toList <+: p.map String.toList := ⟨_, hsplit⟩
      exact (List.prefix_map_iff_of_injective fun _ _ => String.toList_injective).mp hpre
  · rintro (rfl | ⟨hqn, r, rfl⟩)
    · exact Or.inl rfl
    · by_cases hr : r = []
      · left
        rw [hr, List.append_nil]
      · right
        rw [bareText_append hqn hr]
        exact ⟨bareText r, by simp⟩

/-! ## The two branches -/

/-- A touch record with its path as text. -/
def TouchRecord.ofRecord (r : BranchFs.TouchRecord) : TouchRecord where
  path := pathText r.path
  baseAtFirstTouch := r.baseAtFirstTouch
  baseContentKey := r.baseContentKey

/-- The stored branch holds the tombstones and touch records of the manager's. -/
structure Carries (s : Branch) (b : BranchFs.Branch) : Prop where
  tombstones : s.tombstones = (b.tombstones.map pathText).toFinset
  touches : s.touches = (b.touches.map TouchRecord.ofRecord).toFinset
  names : ∀ t ∈ b.tombstones, NamePath t
  touchNames : ∀ r ∈ b.touches, NamePath r.path

theorem Carries.mem_tombstones {s : Branch} {b : BranchFs.Branch} (h : Carries s b) {p : RelPath}
    (hp : NamePath p) : pathText p ∈ s.tombstones ↔ p ∈ b.tombstones := by
  rw [h.tombstones, List.mem_toFinset, List.mem_map]
  constructor
  · rintro ⟨t, ht, heq⟩
    rw [← pathText_injective (h.names t ht) hp heq]
    exact ht
  · exact fun hmem => ⟨p, hmem, rfl⟩

theorem Carries.addTombstone {s : Branch} {b : BranchFs.Branch} (h : Carries s b) {p : RelPath}
    (hp : NamePath p) : Carries (s.addTombstone (pathText p)) (b.addTombstone p) := by
  have hmem : b.tombstones.contains p = true ↔ pathText p ∈ s.tombstones := by
    rw [h.mem_tombstones hp, List.contains_iff_mem]
  rw [Branch.addTombstone, BranchFs.Branch.addTombstone]
  split
  · next hin =>
    rw [if_pos (hmem.mpr hin)]
    exact h
  · next hout =>
    rw [if_neg fun hin => hout (hmem.mp hin)]
    refine ⟨?_, h.touches, ?_, h.touchNames⟩
    · show insert (pathText p) s.tombstones = _
      rw [h.tombstones, List.map_cons, List.toFinset_cons]
    · intro t ht
      rcases List.mem_cons.mp ht with rfl | ht
      · exact hp
      · exact h.names t ht

theorem Carries.removeTombstone {s : Branch} {b : BranchFs.Branch} (h : Carries s b) {p : RelPath}
    (hp : NamePath p) : Carries (s.removeTombstone (pathText p)) (b.removeTombstone p) := by
  have herase : s.tombstones.erase (pathText p) =
      ((b.tombstones.filter (· ≠ p)).map pathText).toFinset := by
    ext t
    simp only [h.tombstones, Finset.mem_erase, List.mem_toFinset, List.mem_map, List.mem_filter,
      decide_eq_true_eq]
    constructor
    · rintro ⟨hne, q, hq, rfl⟩
      exact ⟨q, ⟨hq, fun hqp => hne (by rw [hqp])⟩, rfl⟩
    · rintro ⟨q, ⟨hq, hqp⟩, rfl⟩
      exact ⟨fun heq => hqp (pathText_injective (h.names q hq) hp heq), q, hq, rfl⟩
  have hnames : ∀ t ∈ (b.removeTombstone p).tombstones, NamePath t :=
    fun t ht => h.names t (List.mem_of_mem_filter ht)
  rw [Branch.removeTombstone]
  split
  · exact ⟨herase, h.touches, hnames, h.touchNames⟩
  · next hout =>
    refine ⟨?_, h.touches, hnames, h.touchNames⟩
    rw [← Finset.erase_eq_of_notMem hout]
    exact herase

theorem foldl_appendTombstoneOp_tombstones (removed : List Text) (s : Branch) :
    (removed.foldl (fun b t => Branch.appendTombstoneOp '-' t b) s).tombstones = s.tombstones := by
  induction removed generalizing s with
  | nil => rfl
  | cons t removed ih => exact ih (Branch.appendTombstoneOp '-' t s)

theorem foldl_appendTombstoneOp_touches (removed : List Text) (s : Branch) :
    (removed.foldl (fun b t => Branch.appendTombstoneOp '-' t b) s).touches = s.touches := by
  induction removed generalizing s with
  | nil => rfl
  | cons t removed ih => exact ih (Branch.appendTombstoneOp '-' t s)

theorem Carries.removeTombstonesUnder {s : Branch} {b : BranchFs.Branch} (h : Carries s b)
    (order : HashIter) {p : RelPath} (hp : NamePath p) :
    Carries (s.removeTombstonesUnder order (pathText p)) (b.removeTombstonesUnder p) := by
  refine ⟨?_, ?_, fun t ht => h.names t (List.mem_of_mem_filter ht), h.touchNames⟩
  · rw [Branch.removeTombstonesUnder, foldl_appendTombstoneOp_tombstones]
    ext t
    simp only [BranchFs.Branch.removeTombstonesUnder, Finset.mem_filter, List.mem_filter,
      order.mem_iter, not_and, List.mem_toFinset, List.mem_map, h.tombstones,
      Bool.not_eq_true']
    constructor
    · rintro ⟨⟨q, hq, rfl⟩, hout⟩
      have hnot := hout ⟨q, hq, rfl⟩
      rw [pathIsSameOrDescendant_pathText (h.names q hq) hp, Bool.not_eq_true] at hnot
      exact ⟨q, ⟨hq, hnot⟩, rfl⟩
    · rintro ⟨q, ⟨hq, hnot⟩, rfl⟩
      refine ⟨⟨q, hq, rfl⟩, fun _ => ?_⟩
      rw [pathIsSameOrDescendant_pathText (h.names q hq) hp, hnot]
      exact Bool.false_ne_true
  · rw [Branch.removeTombstonesUnder, foldl_appendTombstoneOp_touches]
    exact h.touches

/-- The record a touch leaves is the same one. -/
theorem Carries.getTouchRecord {s : Branch} {b : BranchFs.Branch} (h : Carries s b) {p : RelPath}
    (hp : NamePath p) : (∃ r ∈ s.touches, r.path = pathText p) ↔ b.getTouchRecord p ≠ none := by
  rw [h.touches]
  simp only [List.mem_toFinset, List.mem_map, exists_exists_and_eq_and,
    BranchFs.Branch.getTouchRecord, ne_eq, List.find?_eq_none, not_forall, beq_iff_eq, not_not]
  constructor
  · rintro ⟨r, hr, heq⟩
    exact ⟨r, hr, pathText_injective (h.touchNames r hr) hp heq⟩
  · rintro ⟨r, hr, rfl⟩
    exact ⟨r, hr, rfl⟩

end BranchFs.Store
