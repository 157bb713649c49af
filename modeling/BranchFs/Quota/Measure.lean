/-
# BranchFs.Quota.Measure -- what `dir_size` measures

`dir_size` goes on below whatever `is_dir` admits, and that follows links. The recursion ends, since no
path meets more than so many links, but it takes down other entries than the ones of the tree: those
behind a link to a directory, as often as a way leads to them, and not the link. It measures the tree
exactly when the two come to the same length (`dir_size_measures_iff`).
-/
import BranchFs.Posix.Leads
import BranchFs.Model.Ops
import Mathlib.Algebra.BigOperators.Finprod
import Mathlib.Data.UInt

namespace BranchFs

open BranchFs.Posix

/-- The length `symlink_metadata` reports for what a path names. -/
def lstatLen (d : Tree) (l : Place) : UInt64 :=
  match d.lstat l with
  | .ok node => metaLen node
  | .error _ => 0

/-- A directory, and no link to one. -/
def realDir (d : Tree) (l : Place) : Bool := d.lkind l == some .dir

/-- The length of the tree at `p`: the entries that are no directories, on ways through directories
only. -/
noncomputable def treeSize (d : Tree) (p : Place) : UInt64 :=
  ∑ᶠ q ∈ {q : RelPath | d.Taken (realDir d) p q}, lstatLen d (p.join q)

/-- The length of what lies behind the links to directories of the tree at `p`, as often as a way leads
to it. -/
noncomputable def behindLinks (d : Tree) (p : Place) : UInt64 :=
  ∑ᶠ q ∈ {q : RelPath | d.Taken d.isDir p q ∧
    ∃ q', q' <+: q ∧ q' ≠ [] ∧ q' ≠ q ∧ realDir d (p.join q') = false}, lstatLen d (p.join q)

/-- The length of the links to directories of the tree at `p`. -/
noncomputable def linksToDirs (d : Tree) (p : Place) : UInt64 :=
  ∑ᶠ q ∈ {q : RelPath | d.Taken (realDir d) p q ∧ d.isDir (p.join q) = true}, lstatLen d (p.join q)

section Measure

variable (d : Tree) (p : Place)

/-! ## The recursion as a sum -/

theorem foldl_add_eq_sum {α : Type} (f : α → UInt64) (xs : List α) (a : UInt64) :
    xs.foldl (fun total x => total + f x) a = a + (xs.map f).sum := by
  induction xs generalizing a with
  | nil => simp
  | cons x xs ih =>
    rw [List.foldl_cons, ih, List.map_cons, List.sum_cons, add_assoc]

/-- `dir_size` adds up the ways it takes down. -/
theorem dirSizeUpTo_eq (fuel : Nat) : dirSizeUpTo d fuel p =
    ((d.below d.isDir fuel p).map fun q => lstatLen d (p.join q)).sum := by
  induction fuel generalizing p with
  | zero => rfl
  | succ fuel ih =>
    rw [dirSizeUpTo, Disk.below_succ]
    cases d.readDir p with
    | error e => rfl
    | ok names =>
      have hentry : ∀ n : String,
          (if d.isDir (p.child n) then dirSizeUpTo d fuel (p.child n) else lstatLen d (p.child n)) =
          ((if d.isDir (p.child n) then (d.below d.isDir fuel (p.child n)).map (n :: ·) else [[n]]).map
            fun q => lstatLen d (p.join q)).sum := by
        intro n
        split
        · rw [ih, List.map_map]
          refine congrArg List.sum (List.map_congr_left fun q _ => ?_)
          exact congrArg (lstatLen d) (Disk.join_cons p n q).symm
        · exact (add_zero _).symm
      have hfold : ∀ total n, (if d.isDir (p.child n) then total + dirSizeUpTo d fuel (p.child n)
          else match d.lstat (p.child n) with
            | .ok node => total + metaLen node
            | .error _ => total) =
          total + if d.isDir (p.child n) then dirSizeUpTo d fuel (p.child n)
            else lstatLen d (p.child n) := by
        intro total n
        split
        · rfl
        · unfold lstatLen
          cases d.lstat (p.child n) with
          | ok node => rfl
          | error e => exact (add_zero total).symm
      refine (List.foldl_ext _ _ _ fun total n _ => hfold total n).trans ?_
      rw [foldl_add_eq_sum, zero_add]
      show _ = ((names.dedup.flatMap fun n =>
        if d.isDir (p.child n) then (d.below d.isDir fuel (p.child n)).map (n :: ·) else [[n]]).map
          fun q => lstatLen d (p.join q)).sum
      induction names.dedup with
      | nil => rfl
      | cons n names ihn =>
        rw [List.flatMap_cons, List.map_append, List.sum_append, List.map_cons, List.sum_cons, ihn,
          hentry]

theorem isDir_of_realDir {l : Place} (h : realDir d l = true) : d.isDir l = true := by
  have hkind : d.lkind l = some .dir := by simpa [realDir] using h
  unfold Disk.lkind Disk.lstat at hkind
  cases hr : d.realpath l with
  | error e => simp [hr, Except.toOption] at hkind
  | ok r =>
    cases hg : d.get r with
    | none => simp [hr, hg, Except.toOption] at hkind
    | some node =>
      have hnode : node.kind = .dir := by simpa [hr, hg, Except.toOption] using hkind
      have hway : d.wayAt r = some .dir := Disk.wayAt_of_dir (by rw [Disk.kindAt_of_get hg, hnode])
      have hfollow := Disk.realpathFollow_of_realpath hr (by rw [hway]; rfl)
      simp [Disk.isDir, Disk.stat, hfollow, hg, hnode, Except.toOption]

/-- **The recursion ends**: from some depth on nothing is left to go on below. -/
theorem dirSize_ends : ∃ bound, ∀ fuel, bound ≤ fuel → dirSizeUpTo d fuel p = dirSize d p := by
  refine ⟨(Disk.maxLinks + 1) * (2 * (d.height + 1)), fun fuel hle => ?_⟩
  rw [dirSize, dirSizeUpTo_eq, dirSizeUpTo_eq,
    Disk.below_enough (fun _ h => h) (d.deep_max p) hle]

/-- The ways a recursion takes down are a finite set, and a sum over them one over the list. -/
theorem sum_taken {descend : Place → Bool} (hdescend : ∀ l, descend l = true → d.isDir l = true)
    (f : RelPath → UInt64) :
    {q : RelPath | d.Taken descend p q}.Finite ∧
      ∑ᶠ q ∈ {q : RelPath | d.Taken descend p q}, f q =
        ((d.below descend ((Disk.maxLinks + 1) * (2 * (d.height + 1))) p).map f).sum := by
  have hset : {q : RelPath | d.Taken descend p q} =
      ((d.below descend ((Disk.maxLinks + 1) * (2 * (d.height + 1))) p).toFinset : Set RelPath) := by
    ext q
    rw [Set.mem_ofPred_eq, List.coe_toFinset, Set.mem_ofPred_eq,
      Disk.mem_below hdescend (d.deep_max p)]
  rw [hset]
  refine ⟨Finset.finite_toSet _, ?_⟩
  rw [finsum_mem_coe_finset, List.sum_toFinset _ (d.below_nodup descend _ p)]

theorem dirSize_eq : dirSize d p = ∑ᶠ q ∈ {q : RelPath | d.Taken d.isDir p q}, lstatLen d (p.join q) := by
  rw [(sum_taken d p (fun _ h => h) _).2]
  exact dirSizeUpTo_eq d p _

/-! ## The recursion and the tree -/

variable {d p} in
/-- Below a directory of a named tree the ways through directories only are the entries of the table
that are no directories. -/
theorem taken_realDir_iff {r : Root} (hr : p.root = some r) (hp : d.kindAt p = some .dir)
    (q : RelPath) : d.Taken (realDir d) p q ↔
      q ≠ [] ∧ ∃ k, d.kindAt (p.join q) = some k ∧ k ≠ .dir := by
  -- under a directory `lstat` reads the table
  have hread : ∀ q : RelPath, q ≠ [] → d.kindAt (p.join q.dropLast) = some .dir →
      d.lkind (p.join q) = d.kindAt (p.join q) := by
    intro q hq hdir
    refine Disk.lkind_eq (r := r) hr (Disk.noLinkAbove_of_dir ?_)
    have hparent : (p.join q).parent = p.join q.dropLast := by
      ext1
      · rfl
      · simp [List.dropLast_append_of_ne_nil hq]
    rw [hparent]
    exact hdir
  constructor
  · intro htaken
    have hway : ∀ q' : RelPath, q' <+: q → q' ≠ q → d.kindAt (p.join q') = some .dir := by
      intro q'
      induction q' using List.reverseRecOn with
      | nil =>
        intro _ _
        have hself : p.join ([] : RelPath) = p := by ext1 <;> simp
        rw [hself, hp]
      | append_singleton q' n ih =>
        intro hpre hne
        have hup : d.kindAt (p.join q') = some .dir := by
          refine ih ((List.prefix_append q' [n]).trans hpre) ?_
          rintro rfl
          have hlen := hpre.length_le
          simp at hlen
        have hreal := htaken.through (q' ++ [n]) hpre (by simp) hne
        have hkind : d.lkind (p.join (q' ++ [n])) = some .dir := by simpa [realDir] using hreal
        rw [← hread (q' ++ [n]) (by simp) (by simpa using hup), hkind]
    have hlast : d.kindAt (p.join q.dropLast) = some .dir := by
      refine hway _ (List.dropLast_prefix q) fun heq => ?_
      have hlen := congrArg List.length heq
      have hpos := List.length_pos_iff.mpr htaken.ne_nil
      rw [List.length_dropLast] at hlen
      omega
    have hkind := hread q htaken.ne_nil hlast
    have hex := Disk.lexists_iff_lkind.mp htaken.exists_end
    have hstops := htaken.stops
    obtain ⟨k, hk⟩ := Option.ne_none_iff_exists'.mp hex
    refine ⟨htaken.ne_nil, k, by rw [← hkind, hk], ?_⟩
    rintro rfl
    simp [realDir, hk] at hstops
  · rintro ⟨hne, k, hk, hleaf⟩
    have habove : ∀ q' : RelPath, q' <+: q → q' ≠ q → d.kindAt (p.join q') = some .dir := by
      intro q' hpre hlt
      refine Disk.dir_above (l := p.join q) (by rw [hk]; exact Option.some_ne_none _) ?_ ?_
      · exact ⟨rfl, (List.prefix_append_right_inj p.path).mpr hpre⟩
      · intro heq
        exact hlt (List.append_cancel_left (congrArg Posix.Loc.path heq))
    have hdrop : ∀ q' : RelPath, q' ≠ [] → q'.dropLast ≠ q' := by
      intro q' hq heq
      have hlen := congrArg List.length heq
      have hpos := List.length_pos_iff.mpr hq
      rw [List.length_dropLast] at hlen
      omega
    have hkind : d.lkind (p.join q) = some k := by
      rw [hread q hne (habove _ (List.dropLast_prefix q) (hdrop q hne)), hk]
    refine ⟨hne, Disk.lexists_iff_lkind.mpr (by rw [hkind]; exact Option.some_ne_none _), ?_, ?_⟩
    · simp [realDir, hkind, hleaf]
    · intro q' hpre hq' hlt
      have hup : d.kindAt (p.join q'.dropLast) = some .dir := by
        refine habove _ ((List.dropLast_prefix q').trans hpre) fun heq => ?_
        have hlen := congrArg List.length heq
        have hle := hpre.length_le
        have hpos := List.length_pos_iff.mpr hq'
        rw [List.length_dropLast] at hlen
        omega
      simp [realDir, hread q' hq' hup, habove q' hpre hlt]

/-- The ways both recursions take down. -/
def PlainEntry (q : RelPath) : Prop := d.Taken (realDir d) p q ∧ d.isDir (p.join q) = false

theorem plain_iff (q : RelPath) : PlainEntry d p q ↔ d.Taken d.isDir p q ∧
    ¬ ∃ q', q' <+: q ∧ q' ≠ [] ∧ q' ≠ q ∧ realDir d (p.join q') = false := by
  constructor
  · rintro ⟨htaken, hend⟩
    refine ⟨⟨htaken.ne_nil, htaken.exists_end, hend, fun q' hq hne hlt =>
      isDir_of_realDir d (htaken.through q' hq hne hlt)⟩, ?_⟩
    rintro ⟨q', hq, hne, hlt, hlink⟩
    rw [htaken.through q' hq hne hlt] at hlink
    cases hlink
  · rintro ⟨htaken, hno⟩
    refine ⟨⟨htaken.ne_nil, htaken.exists_end, ?_, fun q' hq hne hlt => ?_⟩, htaken.stops⟩
    · cases hreal : realDir d (p.join q) with
      | false => rfl
      | true =>
        have hstops := htaken.stops
        rw [isDir_of_realDir d hreal] at hstops
        cases hstops
    · cases hreal : realDir d (p.join q') with
      | true => rfl
      | false => exact absurd ⟨q', hq, hne, hlt, hreal⟩ hno

/-- What `dir_size` and the tree have in common. -/
noncomputable def plainSize : UInt64 := ∑ᶠ q ∈ {q : RelPath | PlainEntry d p q}, lstatLen d (p.join q)

variable {d p} in
/-- A sum over a finite set, split in two. -/
theorem sum_split {s : Set RelPath} (hs : s.Finite) (P : RelPath → Prop) (f : RelPath → UInt64) :
    ∑ᶠ q ∈ s, f q = ∑ᶠ q ∈ {q | q ∈ s ∧ P q}, f q + ∑ᶠ q ∈ {q | q ∈ s ∧ ¬ P q}, f q := by
  have hunion : s = {q | q ∈ s ∧ P q} ∪ {q | q ∈ s ∧ ¬ P q} := by
    ext q
    exact ⟨fun h => (em (P q)).imp (⟨h, ·⟩) (⟨h, ·⟩), fun h => h.elim And.left And.left⟩
  have hapart : Disjoint {q | q ∈ s ∧ P q} {q | q ∈ s ∧ ¬ P q} :=
    Set.disjoint_left.mpr fun q h h' => h'.2 h.2
  calc ∑ᶠ q ∈ s, f q = ∑ᶠ q ∈ {q | q ∈ s ∧ P q} ∪ {q | q ∈ s ∧ ¬ P q}, f q := by rw [← hunion]
    _ = _ := finsum_mem_union hapart (hs.subset fun _ h => h.1) (hs.subset fun _ h => h.1)

theorem dirSize_split : dirSize d p = behindLinks d p + plainSize d p := by
  have hdescend : ∀ l, d.isDir l = true → d.isDir l = true := fun _ h => h
  have hfinite := (sum_taken d p hdescend fun _ => 0).1
  rw [dirSize_eq, sum_split hfinite fun q =>
    ∃ q', q' <+: q ∧ q' ≠ [] ∧ q' ≠ q ∧ realDir d (p.join q') = false]
  have hplain : {q : RelPath | PlainEntry d p q} = {q | q ∈ {q : RelPath | d.Taken d.isDir p q} ∧
      ¬ ∃ q', q' <+: q ∧ q' ≠ [] ∧ q' ≠ q ∧ realDir d (p.join q') = false} := by
    ext q
    exact plain_iff d p q
  rw [behindLinks, plainSize, hplain]
  rfl

theorem treeSize_split : treeSize d p = linksToDirs d p + plainSize d p := by
  have hdescend : ∀ l, realDir d l = true → d.isDir l = true := fun _ h => isDir_of_realDir d h
  have hfinite := (sum_taken d p hdescend fun _ => 0).1
  rw [treeSize, sum_split hfinite fun q => d.isDir (p.join q) = true]
  have hplain : {q : RelPath | PlainEntry d p q} = {q | q ∈ {q : RelPath | d.Taken (realDir d) p q} ∧
      ¬ d.isDir (p.join q) = true} := by
    ext q
    rw [Set.mem_ofPred_eq, Set.mem_ofPred_eq, Bool.not_eq_true]
    rfl
  rw [linksToDirs, plainSize, hplain]
  rfl

/-- `dir_size` of a place ends, and says the length of the tree there. -/
def MeasuresTree : Prop :=
  (∃ bound, ∀ fuel, bound ≤ fuel → dirSizeUpTo d fuel p = dirSize d p) ∧ dirSize d p = treeSize d p

/-- `dir_size` measures every tree. -/
def DirSizeMeasuresTrees : Prop := ∀ d p, MeasuresTree d p

/-- **`dir_size` measures the tree at a place exactly when what it finds behind the tree's links to
directories is as long as these links**, whatever the links lead to. -/
theorem dir_size_measures_iff : MeasuresTree d p ↔ behindLinks d p = linksToDirs d p := by
  constructor
  · rintro ⟨-, hsize⟩
    rw [dirSize_split, treeSize_split] at hsize
    exact add_right_cancel hsize
  · intro hlen
    refine ⟨dirSize_ends d p, ?_⟩
    rw [dirSize_split, treeSize_split, hlen]

variable {d p} in
/-- A way behind a link to a directory starts with a way to such a link of the tree. -/
theorem exists_first_link {q : RelPath} (htaken : d.Taken d.isDir p q)
    (hlink : ∃ q', q' <+: q ∧ q' ≠ [] ∧ q' ≠ q ∧ realDir d (p.join q') = false) :
    ∃ q', q' <+: q ∧ d.Taken (realDir d) p q' ∧ d.isDir (p.join q') = true := by
  classical
  have hex : ∃ k, ∃ q', q' <+: q ∧ q' ≠ [] ∧ q' ≠ q ∧ realDir d (p.join q') = false ∧
      q'.length = k := by
    obtain ⟨q', hq, hne, hlt, hreal⟩ := hlink
    exact ⟨_, q', hq, hne, hlt, hreal, rfl⟩
  obtain ⟨q', hq, hne, hlt, hreal, hlen⟩ := Nat.find_spec hex
  have hdir : d.isDir (p.join q') = true := htaken.through q' hq hne hlt
  refine ⟨q', hq, ⟨hne, ?_, hreal, fun r hr hrne hrlt => ?_⟩, hdir⟩
  · have hchild : p.join q' = (p.join q'.dropLast).child (q'.getLast hne) := by
      ext1
      · rfl
      · simp [List.append_assoc, List.dropLast_append_getLast]
    rw [hchild] at hdir ⊢
    exact Disk.lexists_of_isDir hdir
  · -- a shorter one would have been found first
    cases hshort : realDir d (p.join r) with
    | true => rfl
    | false =>
      have hrlen : r.length < q'.length := by
        rcases Nat.lt_or_eq_of_le hr.length_le with h | h
        · exact h
        · exact absurd (hr.eq_of_length h) hrlt
      have hrq : r ≠ q := by
        rintro rfl
        exact hrlt (hr.eq_of_length (Nat.le_antisymm hr.length_le hq.length_le))
      rw [hlen] at hrlen
      exact absurd ⟨r, hr.trans hq, hrne, hrq, hshort, rfl⟩ (Nat.find_min hex hrlen)

variable {d p} in
/-- A tree none of whose links leads to a directory has neither. -/
theorem no_links (hno : ∀ q, d.Taken (realDir d) p q → d.isDir (p.join q) = false) :
    behindLinks d p = 0 ∧ linksToDirs d p = 0 := by
  have hbehind : {q : RelPath | d.Taken d.isDir p q ∧
      ∃ q', q' <+: q ∧ q' ≠ [] ∧ q' ≠ q ∧ realDir d (p.join q') = false} = ∅ := by
    ext q
    refine iff_of_false ?_ (Set.notMem_empty q)
    rintro ⟨htaken, hlink⟩
    obtain ⟨q', -, hfirst, hdir⟩ := exists_first_link htaken hlink
    rw [hno q' hfirst] at hdir
    cases hdir
  have hlinks : {q : RelPath | d.Taken (realDir d) p q ∧ d.isDir (p.join q) = true} = ∅ := by
    ext q
    refine iff_of_false (fun h => ?_) (Set.notMem_empty q)
    have hfalse := hno q h.1
    rw [h.2] at hfalse
    cases hfalse
  rw [behindLinks, linksToDirs, hlinks, hbehind]
  exact ⟨finsum_mem_empty, finsum_mem_empty⟩

variable {d p} in
/-- Such a tree is measured. -/
theorem MeasuresTree.of_no_links
    (hno : ∀ q, d.Taken (realDir d) p q → d.isDir (p.join q) = false) : MeasuresTree d p := by
  refine ⟨dirSize_ends d p, ?_⟩
  rw [dirSize_split, treeSize_split, (no_links hno).1, (no_links hno).2]

end Measure

/-- A delta with a link to the base directory, where a file of one byte lies. -/
def linkedTree : Tree where
  layout := storeLayout
  entries :=
    [(⟨some (.files "b"), ["l"]⟩, ⟨.symlink ⟨true, [.name "base"]⟩, 0o777, 0, 0, 1, 1⟩),
      (⟨some .base, ["f"]⟩, ⟨.file [0], 0o644, 0, 0, 2, 2⟩)]
  orphans := []
  clock := 3
  closed := by decide
  unique := by decide

theorem linkedTree_run :
    dirSize linkedTree (deltaPath "b" []) = 1 ∧
      linkedTree.below (realDir linkedTree) ((Disk.maxLinks + 1) * (2 * (linkedTree.height + 1)))
        (deltaPath "b" []) = [["l"]] ∧
      lstatLen linkedTree (deltaPath "b" ["l"]) = 5 := by
  decide +kernel

/-- The delta has five bytes, the text of the link; `dir_size` finds the one behind it. -/
theorem not_dirSizeMeasuresTrees : ¬ DirSizeMeasuresTrees := by
  intro h
  obtain ⟨hfound, hbelow, hlen⟩ := linkedTree_run
  have hsize := (h linkedTree (deltaPath "b" [])).2
  have htree : treeSize linkedTree (deltaPath "b" []) = 5 := by
    rw [treeSize, (sum_taken _ _ (fun _ h => isDir_of_realDir _ h) _).2, hbelow]
    exact (add_zero _).trans hlen
  rw [hfound, htree] at hsize
  exact absurd hsize (by decide)

end BranchFs
