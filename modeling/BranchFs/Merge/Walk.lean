/-
# BranchFs.Merge.Walk -- the two walks through a delta

The commit and the review walk through the delta with a walker each. Both find every entry that is
no directory, each once; no such entry is above another, so the paths of a commit stand apart.
-/
import BranchFs.Merge.Publish
import BranchFs.Model.Status
import BranchFs.Model.Flat

namespace BranchFs

open BranchFs.Posix BranchFs.Logic

section

variable {d : Tree} {R : Root}

theorem inTree_child (R : Root) (p : RelPath) (n : String) :
    (inTree R p).child n = inTree R (p ++ [n]) := rfl

/-- An entry of a directory that is there is read where it stands. -/
theorem lstat_child {p : RelPath} {n : String}
    (hn : n ∈ d.children (inTree R p)) :
    ∃ node, d.get (inTree R (p ++ [n])) = some node ∧ d.lstat (inTree R (p ++ [n])) = .ok node := by
  obtain ⟨k, hk⟩ := Option.ne_none_iff_exists'.mp (Disk.mem_children.mp hn)
  obtain ⟨node, hg, _⟩ := Disk.exists_get hk
  exact ⟨node, hg, Disk.lstat_of_get rfl hg⟩

theorem lkind_child {p : RelPath} (hp : d.kindAt (inTree R p) = some .dir) (n : String) :
    d.lkind (inTree R (p ++ [n])) = d.kindAt (inTree R (p ++ [n])) :=
  Disk.lkind_eq rfl (Disk.noLinkAbove_of_dir (by rwa [inTree_parent, List.dropLast_concat]))

theorem readDir_of_dir {p : RelPath} (hp : d.kindAt (inTree R p) = some .dir) :
    d.readDir (inTree R p) = .ok (d.children (inTree R p)) := by
  have hreal : d.realpathFollow (inTree R p) = .ok (inTree R p) :=
    Disk.realpathFollow_of_dir rfl (Disk.dir_parent (by simp [hp]))
      (Disk.linkAt_eq_false_of_kind hp rfl)
  exact Disk.readDir_of_follow rfl hreal hp

theorem lkind_of_dir {p : RelPath} (hp : d.kindAt (inTree R p) = some .dir) :
    d.lkind (inTree R p) = some .dir := by
  rw [Disk.lkind_eq rfl (Disk.noLinkAbove_of_dir (Disk.dir_parent (by simp [hp]))), hp]

/-- One level of the walk. -/
theorem walkFilesFrom_succ {p : RelPath} (fuel : Nat) (hp : d.kindAt (inTree R p) = some .dir) :
    walkFilesFrom d (fuel + 1) (inTree R p) p =
      (d.children (inTree R p)).flatMap fun n =>
        if d.kindAt (inTree R (p ++ [n])) = some .dir
        then walkFilesFrom d fuel (inTree R (p ++ [n])) (p ++ [n])
        else [(p ++ [n], inTree R (p ++ [n]))] := by
  rw [walkFilesFrom, if_pos (by rw [lkind_of_dir hp]; rfl), readDir_of_dir hp]
  show (d.children (inTree R p)).flatMap _ = _
  congr 1
  funext n
  simp only [inTree_child, lkind_child hp n]
  refine if_congr ?_ rfl rfl
  cases d.kindAt (inTree R (p ++ [n])) with
  | none => simp
  | some k => simp

/-- The walk has enough fuel for every entry below `p`. -/
def Deep (d : Tree) (fuel : Nat) (p : RelPath) : Prop := d.height < p.length + fuel

theorem Deep.child {fuel : Nat} {p : RelPath} (h : Deep d (fuel + 1) p) (n : String) :
    Deep d fuel (p ++ [n]) := by
  unfold Deep at h ⊢
  rw [List.length_append, List.length_singleton]
  omega

theorem not_deep_zero {p : RelPath} (hp : d.kindAt (inTree R p) = some .dir) : ¬ Deep d 0 p := by
  intro h
  have hle := Disk.length_le_height (d := d) (l := inTree R p) (by simp [hp])
  unfold Deep at h
  have : (inTree R p).path.length = p.length := rfl
  omega

/-- The next name on the way down. -/
theorem exists_child {p q : RelPath} (h : p <+: q) (hne : p ≠ q) : ∃ n, p ++ [n] <+: q := by
  obtain ⟨s, rfl⟩ := h
  cases s with
  | nil => simp at hne
  | cons n s => exact ⟨n, s, by simp⟩

/-- **The walk of a commit finds the entries that are no directories.** -/
theorem mem_walkFilesFrom {f : RelPath} {src : Place} :
    ∀ (fuel : Nat) (p : RelPath), d.kindAt (inTree R p) = some .dir → Deep d fuel p →
      ((f, src) ∈ walkFilesFrom d fuel (inTree R p) p ↔
        src = inTree R f ∧ p <+: f ∧ ∃ k, d.kindAt (inTree R f) = some k ∧ k ≠ .dir) := by
  intro fuel
  induction fuel with
  | zero =>
    intro p hp hdeep
    exact absurd hdeep (not_deep_zero hp)
  | succ fuel ih =>
    intro p hp hdeep
    rw [walkFilesFrom_succ fuel hp, List.mem_flatMap]
    constructor
    · rintro ⟨n, hn, hmem⟩
      by_cases hdir : d.kindAt (inTree R (p ++ [n])) = some .dir
      · rw [if_pos hdir, ih (p ++ [n]) hdir (hdeep.child n)] at hmem
        obtain ⟨hsrc, hle, hk⟩ := hmem
        exact ⟨hsrc, (List.prefix_append p [n]).trans hle, hk⟩
      · rw [if_neg hdir, List.mem_singleton, Prod.mk.injEq] at hmem
        obtain ⟨rfl, rfl⟩ := hmem
        obtain ⟨k, hk⟩ := Option.ne_none_iff_exists'.mp (Disk.mem_children.mp hn)
        refine ⟨rfl, List.prefix_append p [n], k, hk, ?_⟩
        rintro rfl
        exact hdir hk
    · rintro ⟨rfl, hle, k, hk, hkd⟩
      have hne : p ≠ f := by
        rintro rfl
        rw [hp] at hk
        exact hkd (Option.some.inj hk).symm
      obtain ⟨n, hn⟩ := exists_child hle hne
      have hthere : d.kindAt (inTree R (p ++ [n])) ≠ none :=
        fun hnone => by rw [Disk.none_of_le hnone (inTree_le.mpr hn)] at hk; cases hk
      refine ⟨n, Disk.mem_children.mpr hthere, ?_⟩
      by_cases heq : p ++ [n] = f
      · rw [if_neg]
        · rw [heq]
          exact List.mem_singleton.mpr rfl
        · rw [heq, hk]
          exact fun h => hkd (Option.some.inj h)
      · have hdir : d.kindAt (inTree R (p ++ [n])) = some .dir :=
          Disk.dir_above (by simp [hk]) (inTree_le.mpr hn) (inTree_ne.mpr heq)
        rw [if_pos hdir, ih (p ++ [n]) hdir (hdeep.child n)]
        exact ⟨rfl, hn, k, hk, hkd⟩

theorem walkFilesFrom_nodup :
    ∀ (fuel : Nat) (p : RelPath), d.kindAt (inTree R p) = some .dir → Deep d fuel p →
      ((walkFilesFrom d fuel (inTree R p) p).map Prod.fst).Nodup := by
  intro fuel
  induction fuel with
  | zero =>
    intro p hp hdeep
    exact absurd hdeep (not_deep_zero hp)
  | succ fuel ih =>
    intro p hp hdeep
    rw [walkFilesFrom_succ fuel hp, List.map_flatMap, List.nodup_flatMap]
    constructor
    · intro n hn
      by_cases hdir : d.kindAt (inTree R (p ++ [n])) = some .dir
      · rw [if_pos hdir]
        exact ih _ hdir (hdeep.child n)
      · rw [if_neg hdir]
        simp
    · -- what is found under one name starts with that name
      have hstart : ∀ n f, f ∈ ((if d.kindAt (inTree R (p ++ [n])) = some .dir
          then walkFilesFrom d fuel (inTree R (p ++ [n])) (p ++ [n])
          else [(p ++ [n], inTree R (p ++ [n]))]).map Prod.fst) → p ++ [n] <+: f := by
        intro n f hf
        obtain ⟨⟨f', src⟩, hmem, rfl⟩ := List.mem_map.mp hf
        by_cases hdir : d.kindAt (inTree R (p ++ [n])) = some .dir
        · rw [if_pos hdir, mem_walkFilesFrom fuel _ hdir (hdeep.child n)] at hmem
          exact hmem.2.1
        · rw [if_neg hdir, List.mem_singleton, Prod.mk.injEq] at hmem
          exact hmem.1 ▸ List.prefix_rfl
      refine (Disk.children_nodup d (inTree R p)).imp ?_
      intro n n' hne
      show List.Disjoint _ _
      intro f hf hf'
      have h1 := hstart n f hf
      have h2 := hstart n' f hf'
      have heq : p ++ [n] = p ++ [n'] :=
        (List.prefix_of_prefix_length_le h1 h2 (by simp)).eq_of_length (by simp)
      exact hne (by simpa using heq)

/-! ## The review -/

theorem mapM_ok {α β : Type} {xs : List α} {f : α → Except Errno β} {g : α → β}
    (h : ∀ x ∈ xs, f x = .ok (g x)) : xs.mapM f = .ok (xs.map g) := by
  induction xs with
  | nil => rfl
  | cons x xs ih =>
    rw [List.mapM_cons, h x (List.mem_cons_self ..), ih fun y hy => h y (List.mem_cons_of_mem x hy)]
    rfl

/-- The entry of a file the walk found. -/
def entryOf (d : Tree) (f : RelPath × Place) : DiffEntry :=
  deltaEntry f.1 ((d.get f.2).getD Disk.rootNode)

/-- **The walk of the review finds what the walk of a commit finds.** -/
theorem collectDeltaDiff_eq :
    ∀ (fuel : Nat) (p : RelPath), d.kindAt (inTree R p) = some .dir → Deep d fuel p →
      collectDeltaDiff d fuel (inTree R p) p =
        .ok ((walkFilesFrom d fuel (inTree R p) p).map (entryOf d)) := by
  intro fuel
  induction fuel with
  | zero =>
    intro p hp hdeep
    exact absurd hdeep (not_deep_zero hp)
  | succ fuel ih =>
    intro p hp hdeep
    obtain ⟨node, hg, hkind⟩ := Disk.exists_get hp
    have hstat : d.lstat (inTree R p) = .ok node := Disk.lstat_of_get rfl hg
    have hisDir : node.kind.isDir = true := Kind.isDir_iff.mpr hkind
    let found : String → List DiffEntry := fun n =>
      (if d.kindAt (inTree R (p ++ [n])) = some .dir
        then walkFilesFrom d fuel (inTree R (p ++ [n])) (p ++ [n])
        else [(p ++ [n], inTree R (p ++ [n]))]).map (entryOf d)
    rw [collectDeltaDiff, hstat]
    show (if node.kind.isDir = true then _ else _) = _
    rw [if_pos hisDir, readDir_of_dir hp]
    show Except.bind (Except.bind (.ok (d.children (inTree R p))) fun names => List.mapM _ names) _ = _
    rw [Except.bind, mapM_ok (g := found)]
    · rw [walkFilesFrom_succ fuel hp, List.map_flatMap]
      rfl
    · intro n hn
      obtain ⟨child, hcg, hcs⟩ := lstat_child hn
      have hck : d.kindAt (inTree R (p ++ [n])) = some child.kind := Disk.kindAt_of_get hcg
      rw [inTree_child, hcs]
      show (if child.kind.isDir = true then _ else _) = Except.ok (List.map (entryOf d) (if _ then _ else _))
      by_cases hdir : child.kind = .dir
      · have hdir' : d.kindAt (inTree R (p ++ [n])) = some .dir := by rw [hck, hdir]
        rw [if_pos (Kind.isDir_iff.mpr hdir), if_pos hdir', ih _ hdir' (hdeep.child n)]
      · rw [if_neg fun h => hdir (Kind.isDir_iff.mp h), if_neg]
        · simp only [List.map_cons, List.map_nil, entryOf, hcg, Option.getD_some]
          rfl
        · rw [hck]
          exact fun h => hdir (Option.some.inj h)

end

/-! ## The delta of a branch -/

theorem delta_root (d : Tree) (name : String) : d.kindAt (inTree (.files name) []) = some .dir :=
  Disk.kindAt_root d rfl

theorem delta_deep (d : Tree) : Deep d (d.height + 1) [] := by
  unfold Deep
  simp

/-- The delta files are the leaves of the delta. -/
theorem mem_walkFiles {d : Tree} {name : String} {f : RelPath} {src : Place} :
    (f, src) ∈ walkFiles d name ↔
      src = deltaPath name f ∧ ∃ k, d.kindAt (deltaPath name f) = some k ∧ k ≠ .dir := by
  have h : (f, src) ∈ walkFilesFrom d (d.height + 1) (inTree (.files name) []) [] ↔ _ :=
    mem_walkFilesFrom (d.height + 1) [] (delta_root d name) (delta_deep d)
  show (f, src) ∈ walkFilesFrom d (d.height + 1) (inTree (.files name) []) [] ↔ _
  rw [h]
  simp only [List.nil_prefix, true_and]
  rfl

theorem mem_walkFiles_fst {d : Tree} {name : String} {f : RelPath} :
    f ∈ (walkFiles d name).map Prod.fst ↔ ∃ k, d.kindAt (deltaPath name f) = some k ∧ k ≠ .dir := by
  rw [List.mem_map]
  constructor
  · rintro ⟨⟨g, src⟩, hmem, rfl⟩
    exact (mem_walkFiles.mp hmem).2
  · intro hk
    exact ⟨(f, deltaPath name f), mem_walkFiles.mpr ⟨rfl, hk⟩, rfl⟩

/-- **The delta files stand apart.** -/
theorem walkFiles_antichain (d : Tree) (name : String) :
    Antichain ((walkFiles d name).map Prod.fst) where
  nodup := walkFilesFrom_nodup _ [] (delta_root d name) (delta_deep d)
  eq := by
    intro f g hf hg hle
    obtain ⟨k, hk, hkd⟩ := mem_walkFiles_fst.mp hf
    obtain ⟨k', hk', _⟩ := mem_walkFiles_fst.mp hg
    by_contra hne
    have hdir : d.kindAt (deltaPath name f) = some .dir :=
      Disk.dir_above (l := deltaPath name g) (by simp [hk'])
        (inTree_le (R := .files name).mpr hle) (inTree_ne (R := .files name).mpr hne)
    rw [hk] at hdir
    exact hkd (Option.some.inj hdir)

/-- What the review lists: the delta files and the tombstones. -/
theorem branchStatus_diff {m : Manager} {name : String} {b : Branch} (order : HashOrder)
    (hb : m.forest.get? name = some b) :
    ∃ s, branchStatus m order name = .ok s ∧
      s.diff.Perm ((walkFiles m.disk name).map (entryOf m.disk) ++
        b.tombstones.dedup.map deleteEntry) := by
  have hwalk : collectDeltaDiff m.disk (m.disk.height + 1) (deltaPath name []) [] =
      .ok ((walkFiles m.disk name).map (entryOf m.disk)) :=
    collectDeltaDiff_eq _ [] (delta_root m.disk name) (delta_deep m.disk)
  unfold branchStatus
  simp only [hb, hwalk]
  refine ⟨_, rfl, ?_⟩
  refine (List.mergeSort_perm _ _).trans (List.Perm.append_left _ ?_)
  exact (order.perm _).map deleteEntry

end BranchFs
