/-
# BranchFs.Fork.Copy -- the copy a snapshot takes

`snapshot_visible_dir` goes down the directories a branch shows and copies what it finds into the
`inherited` directory of a new branch. Whatever it reads and through whichever links, it writes
where it has made the way itself (`FilledIn`); and where no link stands in place of a directory the
source shows, what it leaves is what the source shows.
-/
import BranchFs.Merge.Aside
import BranchFs.Model.Reads

namespace BranchFs

open BranchFs.Posix BranchFs.Logic

/-- Only the tree `R` differs, and there only what is at the paths of `X`. -/
structure FilledIn (R : Root) (X : RelPath → Prop) (d d' : Tree) : Prop where
  same : SameOn (fun r => r ≠ some R) d d'
  kind : ∀ q, ¬ X q → treeKind R d' q = treeKind R d q

namespace FilledIn

variable {R : Root} {X Y : RelPath → Prop} {d d' d'' : Tree}

theorem refl (R : Root) (X : RelPath → Prop) (d : Tree) : FilledIn R X d d :=
  ⟨SameOn.refl _ d, fun _ _ => rfl⟩

theorem trans (h : FilledIn R X d d') (h' : FilledIn R X d' d'') : FilledIn R X d d'' :=
  ⟨h.same.trans h'.same, fun q hq => (h'.kind q hq).trans (h.kind q hq)⟩

theorem mono (h : FilledIn R X d d') (hXY : ∀ q, X q → Y q) : FilledIn R Y d d' :=
  ⟨h.same, fun q hq => h.kind q fun hx => hq (hXY q hx)⟩

end FilledIn

section Entry

variable {m : Manager} {source name : String} {deeper : RelPath → Io Unit} {p : RelPath} {n : String}
variable {d d' : Tree}

/-- One pass of the loop of `snapshot_visible_dir`. -/
def snapshotEntry (m : Manager) (source name : String) (deeper : RelPath → Io Unit) (p : RelPath)
    (n : String) : Io Unit := do
  let child := p ++ [n]
  match ← fun d => .ok ({ m with disk := d }.resolved source child) d with
  | none => pure ()
  | some src => do
    let node ← Io.symlinkMetadata src
    let dst := inheritedPath name child
    if node.kind.isDir then
      Posix.Sys.createDirAll dst
      Posix.Sys.setPermissions dst node.mode
      deeper child
    else Io.copyEntry src dst

/-- The names the loop goes through. -/
def snapshotNames (m : Manager) (source : String) (p : RelPath) (d : Tree) : List String :=
  ({ m with disk := d }.collected source p).insertionSort (· ≤ ·)

theorem snapshotVisibleDir_succ (fuel : Nat) (p : RelPath) (d : Tree) :
    snapshotVisibleDir m source name (fuel + 1) p d =
      (snapshotNames m source p d).forM
        (snapshotEntry m source name (snapshotVisibleDir m source name fuel) p) d := rfl

/-- The copy of a leaf to a free place of a directory. -/
theorem copyEntry_free {src dst : Place} {r : Root} {node : Node String} (hr : dst.root = some r)
    (hp : d.kindAt dst.parent = some .dir) (hfree : d.kindAt dst = none)
    (hsrc : d.lstat src = .ok node) (hleaf : node.kind ≠ .dir) :
    ∃ d', Io.copyEntry src dst d = .ok () d' ∧
      (∀ x, d'.kindAt x = if x = dst then some node.kind else d.kindAt x) ∧
      SameOn (fun r => r ≠ dst.root) d d' := by
  obtain ⟨d', hrun⟩ : ∃ d', Io.copyNode src dst node d = .ok () d' := by
    cases hk : node.kind with
    | dir => exact absurd hk hleaf
    | file b =>
      have hstat : d.stat src = .ok node := Disk.stat_of_lstat hsrc (by simp [hk, Kind.isSymlink])
      obtain ⟨d', hd', -⟩ := Posix.Sys.copyFile_ok hr hstat hk hp (Or.inl hfree)
      exact ⟨d', by simp only [Io.copyNode, hk, hd']⟩
    | symlink t =>
      obtain ⟨e, he⟩ := Posix.Sys.removeFile_other hr (Disk.noLinkAbove_of_dir hp) (Or.inl hfree)
      have hattempt : attempt (Posix.Sys.removeFile dst) d = .ok (.error e) d := by
        simp only [attempt, he]
      obtain ⟨d', hd', -⟩ := Posix.Sys.symlink_of_free (t := t) hr hp hfree
      refine ⟨d', ?_⟩
      simp only [Io.copyNode, hk]
      rw [bind_ok hattempt, hd']
  obtain ⟨-, hkind, hsame⟩ := copyNode_made hr hp (Disk.linkAt_of_none hfree) hsrc hleaf hrun
  refine ⟨d', ?_, hkind, hsame⟩
  have hmeta : Io.symlinkMetadata src d = .ok node d := by
    simp only [Io.symlinkMetadata, hsrc]
  have hdirs : Io.ensureParentDirs dst d = .ok () d := Posix.Sys.createDirAll_of_dir hr hp
  rw [Io.copyEntry, bind_ok hdirs, bind_ok hmeta, hrun]

/-- A directory made at a free place of a directory, with its permissions. -/
theorem makeDir_free {dst : Place} {r : Root} (hr : dst.root = some r)
    (hp : d.kindAt dst.parent = some .dir) (hfree : d.kindAt dst = none) (mode : Nat) :
    ∃ d', (do Posix.Sys.createDirAll dst; Posix.Sys.setPermissions dst mode : Io Unit) d =
        .ok () d' ∧
      (∀ x, d'.kindAt x = if x = dst then some .dir else d.kindAt x) ∧
      SameOn (fun r => r ≠ dst.root) d d' := by
  obtain ⟨d₁, hmade, hadd⟩ := Posix.Sys.createDirAll_of_free hr hp hfree
  have hdir : d₁.kindAt dst = some .dir := by rw [Disk.kindAt_add hadd, if_pos rfl]
  have hlink : d₁.linkAt dst = false := Disk.linkAt_eq_false_of_kind hdir rfl
  have hp₁ : d₁.kindAt dst.parent = some .dir := Disk.dir_parent (by simp [hdir])
  obtain ⟨hsame, hkind⟩ := Posix.Sys.setAttr_confined (fun n => { n with mode := mode }) hr
    (Disk.noLinkAbove_of_dir hp₁) hlink
  obtain ⟨d₂, hset⟩ : ∃ d₂, Posix.Sys.setPermissions dst mode d₁ = .ok () d₂ := by
    rw [Posix.Sys.setPermissions, Posix.Sys.setAttr, Posix.Sys.followed_of_dir hr hp₁ hlink]
    simp only [Posix.Sys.setAttrAt, hdir]
    exact ⟨_, rfl⟩
  have hafter : after (Posix.Sys.setPermissions dst mode) d₁ = d₂ := after_ok hset
  refine ⟨d₂, by rw [bind_ok hmade, hset], fun x => ?_, ?_⟩
  · rw [← hafter, Posix.Sys.setPermissions, hkind, Disk.kindAt_add hadd]
  · refine (Disk.sameOn_add hadd (by simp)).trans ?_
    rw [← hafter]
    exact hsame

variable (m source deeper) in
/-- **What a pass of the loop can do** at a free place of the copy: nothing, fail, copy a leaf, or
make a directory and go down. -/
theorem snapshotEntry_cases (hdir : treeKind (.inherited name) d p = some .dir)
    (hfree : treeKind (.inherited name) d (p ++ [n]) = none) :
    ({ m with disk := d }.resolved source (p ++ [n]) = none ∧
      snapshotEntry m source name deeper p n d = .ok () d) ∨
    (∃ e, snapshotEntry m source name deeper p n d = .error e d) ∨
    ∃ src node d₁, { m with disk := d }.resolved source (p ++ [n]) = some src ∧
      d.lstat src = .ok node ∧ SameOn (fun r => r ≠ some (.inherited name)) d d₁ ∧
      (∀ q, treeKind (.inherited name) d₁ q =
        if q = p ++ [n] then some node.kind else treeKind (.inherited name) d q) ∧
      snapshotEntry m source name deeper p n d =
        if node.kind = .dir then deeper (p ++ [n]) d₁ else .ok () d₁ := by
  let dst := inheritedPath name (p ++ [n])
  have hp : d.kindAt dst.parent = some .dir := by
    have hparent : dst.parent = inTree (.inherited name) p := by
      simp [dst, inheritedPath, Loc.parent, inTree]
    rw [hparent]
    exact hdir
  have hkinds : ∀ {d₁ : Tree} {k : Entry},
      (∀ x, d₁.kindAt x = if x = dst then some k else d.kindAt x) → ∀ q,
      treeKind (.inherited name) d₁ q =
        if q = p ++ [n] then some k else treeKind (.inherited name) d q := by
    intro d₁ k h q
    rw [treeKind, h]
    refine if_congr ?_ rfl rfl
    constructor
    · exact fun heq => congrArg Loc.path heq
    · rintro rfl
      rfl
  cases hres : { m with disk := d }.resolved source (p ++ [n]) with
  | none =>
    left
    refine ⟨rfl, ?_⟩
    show (match { m with disk := d }.resolved source (p ++ [n]) with
      | none => pure ()
      | some src => _ : Io Unit) d = _
    rw [hres]
    rfl
  | some src =>
    right
    have hrun : snapshotEntry m source name deeper p n d = (do
        let node ← Io.symlinkMetadata src
        if node.kind.isDir then do
          Posix.Sys.createDirAll dst
          Posix.Sys.setPermissions dst node.mode
          deeper (p ++ [n])
        else Io.copyEntry src dst : Io Unit) d := by
      show (match { m with disk := d }.resolved source (p ++ [n]) with
        | none => pure ()
        | some src => _ : Io Unit) d = _
      rw [hres]
    cases hstat : d.lstat src with
    | error e =>
      have hmeta : Io.symlinkMetadata src d = .error e d := by
        simp only [Io.symlinkMetadata, hstat]
      exact Or.inl ⟨e, by rw [hrun, bind_error hmeta]⟩
    | ok node =>
      have hmeta : Io.symlinkMetadata src d = .ok node d := by
        simp only [Io.symlinkMetadata, hstat]
      rw [bind_ok hmeta] at hrun
      right
      by_cases hk : node.kind = .dir
      · obtain ⟨d₁, hmade, hkind, hsame⟩ := makeDir_free (r := .inherited name) rfl hp hfree
          node.mode
        refine ⟨src, node, d₁, rfl, hstat, hsame, hkinds (by rw [hk]; exact hkind), ?_⟩
        obtain ⟨_, d₀, hcreate, hset⟩ := bind_eq_ok hmade
        rw [hrun, if_pos (Kind.isDir_iff.mpr hk), bind_ok hcreate, bind_ok hset, if_pos hk]
      · obtain ⟨d₁, hcopy, hkind, hsame⟩ := copyEntry_free (r := .inherited name) rfl hp hfree
          hstat hk
        refine ⟨src, node, d₁, rfl, hstat, hsame, hkinds hkind, ?_⟩
        rw [hrun, if_neg fun h => hk (Kind.isDir_iff.mp h), hcopy, if_neg hk]

/-! ## Where the copy writes -/

/-- A directory of the copy with nothing in it. -/
structure EmptyAt (name : String) (p : RelPath) (d : Tree) : Prop where
  dir : treeKind (.inherited name) d p = some .dir
  free : ∀ q, p <+: q → q ≠ p → treeKind (.inherited name) d q = none

/-- The paths below `p`. -/
def Below (p q : RelPath) : Prop := p <+: q ∧ q ≠ p

theorem child_ne (p : RelPath) (n : String) : p ++ [n] ≠ p := by simp

theorem below_of_child {q : RelPath} (h : p ++ [n] <+: q) : Below p q := by
  refine ⟨(List.prefix_append p [n]).trans h, ?_⟩
  rintro rfl
  have hlen := h.length_le
  rw [List.length_append, List.length_singleton] at hlen
  omega

theorem exists_child_of_below {q : RelPath} (h : Below p q) : ∃ n, p ++ [n] <+: q := by
  obtain ⟨⟨s, rfl⟩, hne⟩ := h
  match s with
  | [] => exact absurd (List.append_nil p) hne
  | n :: s => exact ⟨n, s, by simp⟩

theorem child_inj {a b : String} {q : RelPath} (ha : p ++ [a] <+: q) (hb : p ++ [b] <+: q) :
    a = b := by
  have hle := List.prefix_of_prefix_length_le ha hb (by simp)
  simpa using hle.eq_of_length (by simp)

/-- A place made in a free place of the copy is empty. -/
theorem emptyAt_child {d₁ : Tree} (hfree : ∀ q, p ++ [n] <+: q →
      treeKind (.inherited name) d q = none)
    (hkind : ∀ q, treeKind (.inherited name) d₁ q =
      if q = p ++ [n] then some .dir else treeKind (.inherited name) d q) :
    EmptyAt name (p ++ [n]) d₁ where
  dir := by rw [hkind, if_pos rfl]
  free q hq hne := by rw [hkind, if_neg hne, hfree q hq]

variable (m source) in
theorem snapshotEntry_filled (hdeeper : ∀ c d, EmptyAt name c d →
      FilledIn (.inherited name) (Below c) d (after (deeper c) d))
    (hdir : treeKind (.inherited name) d p = some .dir)
    (hfree : ∀ q, p ++ [n] <+: q → treeKind (.inherited name) d q = none) :
    FilledIn (.inherited name) (p ++ [n] <+: ·) d
      (after (snapshotEntry m source name deeper p n) d) := by
  rcases snapshotEntry_cases m source deeper hdir
      (hfree _ List.prefix_rfl) with ⟨-, hrun⟩ | ⟨e, hrun⟩ | ⟨_, node, d₁, -, -, hsame, hkind, hrun⟩
  · rw [after_ok hrun]
    exact FilledIn.refl _ _ d
  · rw [after_error hrun]
    exact FilledIn.refl _ _ d
  · have hfirst : FilledIn (.inherited name) (p ++ [n] <+: ·) d d₁ := by
      refine ⟨hsame, fun q hq => ?_⟩
      rw [hkind, if_neg]
      rintro rfl
      exact hq List.prefix_rfl
    by_cases hk : node.kind = .dir
    · rw [if_pos hk] at hrun
      have hempty : EmptyAt name (p ++ [n]) d₁ := emptyAt_child hfree (by rw [← hk]; exact hkind)
      have hrest := (hdeeper _ _ hempty).mono (Y := (p ++ [n] <+: ·)) fun q hq => hq.1
      have hafter : after (snapshotEntry m source name deeper p n) d =
          after (deeper (p ++ [n])) d₁ := by
        unfold after
        rw [hrun]
      rw [hafter]
      exact hfirst.trans hrest
    · rw [if_neg hk] at hrun
      rw [after_ok hrun]
      exact hfirst

variable (m source) in
/-- The loop writes at the names it goes through. -/
theorem snapshotEntries_filled (hdeeper : ∀ c d, EmptyAt name c d →
      FilledIn (.inherited name) (Below c) d (after (deeper c) d)) (names : List String)
    (hnodup : names.Nodup) (hdir : treeKind (.inherited name) d p = some .dir)
    (hfree : ∀ n ∈ names, ∀ q, p ++ [n] <+: q → treeKind (.inherited name) d q = none) :
    FilledIn (.inherited name) (fun q => ∃ n ∈ names, p ++ [n] <+: q) d
      (after (names.forM (snapshotEntry m source name deeper p)) d) := by
  induction names generalizing d with
  | nil => exact FilledIn.refl _ _ d
  | cons n names ih =>
    obtain ⟨hn, hnodup⟩ := List.nodup_cons.mp hnodup
    have hfirst := (snapshotEntry_filled m source hdeeper hdir
      (hfree n List.mem_cons_self)).mono (Y := fun q => ∃ k ∈ n :: names, p ++ [k] <+: q)
      fun q hq => ⟨n, List.mem_cons_self, hq⟩
    show FilledIn _ _ d (after (snapshotEntry m source name deeper p n >>= fun _ =>
      names.forM (snapshotEntry m source name deeper p)) d)
    cases hrun : snapshotEntry m source name deeper p n d with
    | error e d₁ =>
      rw [after_error (bind_error hrun)]
      rwa [after_error hrun] at hfirst
    | ok u d₁ =>
      rw [after_ok hrun] at hfirst
      have hrest : after (snapshotEntry m source name deeper p n >>= fun _ =>
          names.forM (snapshotEntry m source name deeper p)) d =
          after (names.forM (snapshotEntry m source name deeper p)) d₁ := by
        unfold after
        rw [bind_ok hrun]
      rw [hrest]
      have hfirst' := snapshotEntry_filled m source hdeeper hdir
        (hfree n List.mem_cons_self)
      rw [after_ok hrun] at hfirst'
      refine hfirst.trans ((ih hnodup ?_ ?_).mono fun q ⟨k, hk, hq⟩ =>
        ⟨k, List.mem_cons_of_mem n hk, hq⟩)
      · rw [hfirst'.kind p fun hle => (below_of_child hle).2 rfl, hdir]
      · intro k hk q hq
        rw [hfirst'.kind q, hfree k (List.mem_cons_of_mem n hk) q hq]
        intro hle
        exact hn (child_inj hle hq ▸ hk)

theorem snapshotNames_nodup (m : Manager) (source : String) (p : RelPath) (d : Tree) :
    (snapshotNames m source p d).Nodup :=
  (List.perm_insertionSort _ _).nodup_iff.mpr (Manager.collected_nodup _ source p)

theorem mem_snapshotNames : n ∈ snapshotNames m source p d ↔
    n ∈ { m with disk := d }.collected source p := List.mem_insertionSort _

variable (m source name) in
/-- **The copy stays below the directory it fills**, whatever is read and whether it succeeds. -/
theorem snapshotVisibleDir_filled (fuel : Nat) (p : RelPath) (d : Tree) (h : EmptyAt name p d) :
    FilledIn (.inherited name) (Below p) d
      (after (snapshotVisibleDir m source name fuel p) d) := by
  induction fuel generalizing p d with
  | zero => exact FilledIn.refl _ _ d
  | succ fuel ih =>
    have hrun : after (snapshotVisibleDir m source name (fuel + 1) p) d =
        after ((snapshotNames m source p d).forM
          (snapshotEntry m source name (snapshotVisibleDir m source name fuel) p)) d := by
      unfold after
      rw [snapshotVisibleDir_succ]
    rw [hrun]
    refine (snapshotEntries_filled m source ih _ (snapshotNames_nodup m source p d) h.dir ?_).mono ?_
    · intro n _ q hq
      obtain ⟨hle, hne⟩ := below_of_child hq
      exact h.free q hle hne
    · rintro q ⟨n, _, hq⟩
      exact below_of_child hq

/-! ## What the copy leaves -/

/-- No tree the source reads is the one that is filled. -/
theorem Manager.reads_ne_of_missing {r : Root} (hsource : m.forest.get? source ≠ none)
    (hname : m.forest.get? name = none) (h : m.Reads source r) : r ≠ .inherited name := by
  have hthere : ∀ {a b : String}, m.Inherits a b → m.forest.get? b ≠ none →
      m.forest.get? a ≠ none := by
    intro a b hab
    induction hab with
    | self => exact fun h => h
    | up hb hp _ ih =>
      intro _
      obtain ⟨q, hq⟩ := Forest.get?_parent hb hp
      exact ih (by rw [hq]; exact Option.some_ne_none q)
  rintro rfl
  rcases h with h | ⟨a, ha, h | h⟩
  · cases h
  · cases h
  · cases h
    exact hthere ha hsource hname

/-- While it is copied, the source shows what it showed. -/
theorem sameReads_child (hsource : m.forest.get? source ≠ none)
    (hname : m.forest.get? name = none) (hlink : m.NoLinkUnderShown source)
    (hsame : SameOn (fun r => r ≠ some (.inherited name)) m.disk d)
    (hshown : m.view source p = some .dir) (n : String) :
    Manager.SameReads m { m with disk := d } source (p ++ [n]) ∧
      ∀ r, m.Reads source r → d.NoLinkAbove ⟨some r, p ++ [n]⟩ := by
  have hkind : ∀ r, m.Reads source r → ∀ q, d.kindAt ⟨some r, q⟩ = m.disk.kindAt ⟨some r, q⟩ := by
    intro r hr q
    refine hsame.kindAt ?_
    exact fun heq => Manager.reads_ne_of_missing hsource hname hr (Option.some.inj heq)
  have hfree : ∀ r, m.Reads source r → m.disk.NoLinkAbove ⟨some r, p ++ [n]⟩ := by
    intro r hr
    refine Disk.noLinkAbove_of fun x hx hne => ?_
    have hxq : x = ⟨some r, x.path⟩ := Loc.ext' hx.1 rfl
    have hxp : x.path <+: p := by
      rcases List.prefix_concat_iff.mp hx.2 with heq | hle
      · exact absurd (Loc.ext' hx.1 heq) hne
      · exact hle
    rw [hxq]
    refine hlink x.path ?_ r hr
    rw [Manager.view_eq_kindOf fun a ha _ =>
      Manager.kindOf_of_view_dir hshown a (ha.trans hxp)]
    exact Manager.kindOf_of_view_dir hshown _ hxp
  have hfree' : ∀ r, m.Reads source r → d.NoLinkAbove ⟨some r, p ++ [n]⟩ := by
    intro r hr
    refine (hfree r hr).of_le fun x hx _ hl => ?_
    have hxq : x = ⟨some r, x.path⟩ := Loc.ext' hx.1 rfl
    rw [hxq] at hl ⊢
    unfold Disk.linkAt at hl ⊢
    rwa [hkind r hr] at hl
  refine ⟨⟨fun _ _ => rfl, fun r hr => ?_⟩, hfree'⟩
  rw [Disk.lkind_eq rfl (hfree' r hr), Disk.lkind_eq rfl (hfree r hr), hkind r hr]

/-- What the source shows right below a directory is what it resolves there. -/
theorem view_child (hshown : m.view source p = some .dir) (n : String) :
    m.view source (p ++ [n]) = m.kindOf source (p ++ [n]) := by
  refine Manager.view_eq_kindOf fun a ha hne => ?_
  exact Manager.kindOf_of_view_dir hshown a ((List.prefix_concat_iff.mp ha).resolve_left hne)

theorem view_below_child (h : m.kindOf source (p ++ [n]) ≠ some .dir) {q : RelPath}
    (hq : p ++ [n] <+: q) (hne : q ≠ p ++ [n]) : m.view source q = none :=
  Manager.view_eq_none hq (fun heq => hne heq.symm) h

section Shown

variable (hsource : m.forest.get? source ≠ none) (hname : m.forest.get? name = none)
  (hlink : m.NoLinkUnderShown source)

include hsource hname hlink

/-- **A pass of the loop copies what the source shows** at and below its name. -/
theorem snapshotEntry_copied (hdeeper : ∀ c d d', EmptyAt name c d →
      SameOn (fun r => r ≠ some (.inherited name)) m.disk d → m.view source c = some .dir →
      deeper c d = .ok () d' → ∀ q, c <+: q → treeKind (.inherited name) d' q = m.view source q)
    (hsame : SameOn (fun r => r ≠ some (.inherited name)) m.disk d)
    (hshown : m.view source p = some .dir) (hdir : treeKind (.inherited name) d p = some .dir)
    (hfree : ∀ q, p ++ [n] <+: q → treeKind (.inherited name) d q = none)
    (hok : snapshotEntry m source name deeper p n d = .ok () d') :
    ∀ q, p ++ [n] <+: q → treeKind (.inherited name) d' q = m.view source q := by
  have hreads := (sameReads_child hsource hname hlink hsame hshown n).1
  have hkindOf : m.kindOf source (p ++ [n]) =
      kindAtPath d ({ m with disk := d }.resolved source (p ++ [n])) :=
    (Manager.kindOf_of_sameReads hreads).symm
  rcases snapshotEntry_cases m source deeper hdir
      (hfree _ List.prefix_rfl) with ⟨hres, hrun⟩ | ⟨e, hrun⟩ |
        ⟨src, node, d₁, hres, hstat, hsame₁, hkind, hrun⟩
  · rw [hok] at hrun
    cases hrun
    rw [hres, kindAtPath_none] at hkindOf
    intro q hq
    rw [hfree q hq]
    by_cases heq : q = p ++ [n]
    · rw [heq, view_child hshown, hkindOf]
    · rw [view_below_child (by simp [hkindOf]) hq heq]
  · rw [hok] at hrun
    cases hrun
  · have hnode : m.kindOf source (p ++ [n]) = some node.kind := by
      rw [hkindOf, hres]
      show d.lkind src = some node.kind
      simp [Disk.lkind, hstat, Except.toOption]
    by_cases hk : node.kind = .dir
    · rw [if_pos hk, hok] at hrun
      rw [hk] at hnode hkind
      have hview : m.view source (p ++ [n]) = some .dir := by rw [view_child hshown, hnode]
      exact hdeeper _ _ _ (emptyAt_child hfree hkind) (hsame.trans hsame₁) hview hrun.symm
    · rw [if_neg hk, hok] at hrun
      cases hrun
      intro q hq
      rw [hkind]
      by_cases heq : q = p ++ [n]
      · rw [if_pos heq, heq, view_child hshown, hnode]
      · rw [if_neg heq, hfree q hq, view_below_child ?_ hq heq]
        rw [hnode]
        exact fun h => hk (Option.some.inj h)

theorem snapshotEntries_copied (hfilled : ∀ c d, EmptyAt name c d →
      FilledIn (.inherited name) (Below c) d (after (deeper c) d))
    (hdeeper : ∀ c d d', EmptyAt name c d →
      SameOn (fun r => r ≠ some (.inherited name)) m.disk d → m.view source c = some .dir →
      deeper c d = .ok () d' → ∀ q, c <+: q → treeKind (.inherited name) d' q = m.view source q)
    (hshown : m.view source p = some .dir) (names : List String) (hnodup : names.Nodup)
    (hsame : SameOn (fun r => r ≠ some (.inherited name)) m.disk d)
    (hdir : treeKind (.inherited name) d p = some .dir)
    (hfree : ∀ n ∈ names, ∀ q, p ++ [n] <+: q → treeKind (.inherited name) d q = none)
    (hok : names.forM (snapshotEntry m source name deeper p) d = .ok () d') :
    ∀ n ∈ names, ∀ q, p ++ [n] <+: q → treeKind (.inherited name) d' q = m.view source q := by
  induction names generalizing d with
  | nil => exact fun n hn => absurd hn List.not_mem_nil
  | cons n names ih =>
    obtain ⟨hn, hnodup'⟩ := List.nodup_cons.mp hnodup
    obtain ⟨_, d₁, hfirst, hrest⟩ := bind_eq_ok (show (snapshotEntry m source name deeper p n >>=
      fun _ => names.forM (snapshotEntry m source name deeper p)) d = .ok () d' from hok)
    have hfree' := hfree n List.mem_cons_self
    have hfill := snapshotEntry_filled m source hfilled hdir hfree'
    rw [after_ok hfirst] at hfill
    have hdir₁ : treeKind (.inherited name) d₁ p = some .dir := by
      rw [hfill.kind p fun hle => (below_of_child hle).2 rfl, hdir]
    have hfree₁ : ∀ k ∈ names, ∀ q, p ++ [k] <+: q → treeKind (.inherited name) d₁ q = none := by
      intro k hk q hq
      rw [hfill.kind q fun hle => hn (child_inj hle hq ▸ hk),
        hfree k (List.mem_cons_of_mem n hk) q hq]
    intro k hk q hq
    rcases List.mem_cons.mp hk with rfl | hk
    · -- the later names leave the first one's copy alone
      have hlater := snapshotEntries_filled m source hfilled names hnodup'
        hdir₁ hfree₁
      rw [after_ok hrest] at hlater
      rw [hlater.kind q fun ⟨k', hk', hq'⟩ => hn (child_inj hq hq' ▸ hk')]
      exact snapshotEntry_copied hsource hname hlink hdeeper hsame hshown hdir hfree' hfirst q hq
    · exact ih hnodup' (hsame.trans hfill.same) hdir₁ hfree₁ hrest k hk q hq

/-- **The copy of a directory is what the source shows there.** -/
theorem snapshotVisibleDir_copied (fuel : Nat) (p : RelPath) (d d' : Tree) (h : EmptyAt name p d)
    (hsame : SameOn (fun r => r ≠ some (.inherited name)) m.disk d)
    (hshown : m.view source p = some .dir)
    (hok : snapshotVisibleDir m source name fuel p d = .ok () d') :
    ∀ q, p <+: q → treeKind (.inherited name) d' q = m.view source q := by
  induction fuel generalizing p d d' with
  | zero => cases hok
  | succ fuel ih =>
    have hfilled := snapshotVisibleDir_filled m source name fuel
    rw [snapshotVisibleDir_succ] at hok
    have hnodup := snapshotNames_nodup m source p d
    have hfree : ∀ n ∈ snapshotNames m source p d, ∀ q, p ++ [n] <+: q →
        treeKind (.inherited name) d q = none := by
      intro n _ q hq
      obtain ⟨hle, hne⟩ := below_of_child hq
      exact h.free q hle hne
    have hcopied := snapshotEntries_copied hsource hname hlink hfilled ih hshown _ hnodup hsame
      h.dir hfree hok
    have hrest := snapshotEntries_filled m source hfilled _ hnodup h.dir hfree
    rw [after_ok hok] at hrest
    intro q hq
    by_cases heq : q = p
    · rw [heq, hrest.kind p fun ⟨n, _, hle⟩ => (below_of_child hle).2 rfl, h.dir, hshown]
    · obtain ⟨n, hn⟩ := exists_child_of_below ⟨hq, heq⟩
      by_cases hmem : n ∈ snapshotNames m source p d
      · exact hcopied n hmem q hn
      · -- a name that was not collected is not shown
        have hread := sameReads_child hsource hname hlink hsame hshown n
        have hnone : m.kindOf source (p ++ [n]) = none := by
          rw [← Manager.kindOf_of_sameReads hread.1, Manager.kindOf_eq_none]
          by_contra hres
          refine hmem (mem_snapshotNames.mpr (Manager.mem_collected.mpr ?_))
          exact Option.isSome_iff_ne_none.mpr hres
        rw [hrest.kind q fun ⟨k, hk, hle⟩ => hmem (child_inj hle hn ▸ hk), h.free q hq heq]
        by_cases hqn : q = p ++ [n]
        · rw [hqn, view_child hshown, hnone]
        · rw [view_below_child (by simp [hnone]) hn hqn]

end Shown

end Entry

end BranchFs
