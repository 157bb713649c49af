/-
# BranchFs.Posix.Walk -- path resolution

The kernel reads a path one component at a time. A directory is entered, a symbolic link met on the
way is replaced by its text (with a bound on how often), a file on the way is ENOTDIR and a missing
name ENOENT. The last component is not followed by `realpath` (`lstat`, `rename`, `unlink`) and is
followed by `realpathFollow` (`stat`, `open`, `chmod`).

The lemmas cover the case the callers want: no link stands above the location. Then resolution is
the identity where the directory exists, and `lstat` reads the table.
-/
import BranchFs.Posix.Disk

namespace BranchFs.Posix

inductive Errno where
  | ENOENT
  | EEXIST
  | ENOTDIR
  | EISDIR
  | ENOTEMPTY
  | EINVAL
  | EBUSY
  | ELOOP
  | ENOSPC
  | EFBIG
  | EROFS
  | EXDEV
  | EPERM
  | ESTALE
  | EIO
  | ENOTTY
  deriving DecidableEq, Repr

namespace Disk

variable {ρ ν : Type} [DecidableEq ρ] [DecidableEq ν]

/-- A host path that is a mount point continues in the tree mounted there. -/
def norm (d : Disk ρ ν) (l : Loc ρ ν) : Loc ρ ν :=
  match l.root with
  | some _ => l
  | none =>
    match d.layout.mountAt l.path with
    | some r => ⟨some r, []⟩
    | none => l

/-- The `..` of a directory; above the root of a tree lies the host. -/
def up (d : Disk ρ ν) (l : Loc ρ ν) : Loc ρ ν :=
  match l.root, l.path with
  | some r, [] => d.norm ⟨none, (d.layout.mountPath r).dropLast⟩
  | _, _ => d.norm l.parent

/-- What resolution meets at a place on the way; a host directory that holds mounts is a
directory. -/
def wayAt (d : Disk ρ ν) (l : Loc ρ ν) : Option (Kind ν) :=
  if l.root = none ∧ d.layout.hostDir l.path = true then some .dir else d.kindAt l

/-- Resolve `comps` from the directory `cur`; `follow` continues at a link met before the last
component. -/
def walkFrom (d : Disk ρ ν) (follow : Loc ρ ν → List (Comp ν) → Except Errno (Loc ρ ν)) :
    Loc ρ ν → List (Comp ν) → Except Errno (Loc ρ ν)
  | cur, [] => .ok cur
  | cur, .up :: rest => walkFrom d follow (d.up cur) rest
  | cur, .name n :: rest =>
    let next := d.norm (cur.child n)
    if rest.isEmpty then .ok next
    else
      match d.wayAt next with
      | some .dir => walkFrom d follow next rest
      | some (.symlink t) =>
        follow (if t.absolute then d.norm ⟨none, []⟩ else cur) (t.comps ++ rest)
      | some (.file _) => .error .ENOTDIR
      | none => .error .ENOENT

/-- Resolution with at most `k` links met on the way. -/
def walk (d : Disk ρ ν) : Nat → Loc ρ ν → List (Comp ν) → Except Errno (Loc ρ ν)
  | 0 => walkFrom d fun _ _ => .error .ELOOP
  | k + 1 => walkFrom d (walk d k)

/-- The kernel's bound on the links of one resolution. -/
def maxLinks : Nat := 40

/-- The place a path names, its last component not followed. -/
def realpath (d : Disk ρ ν) (l : Loc ρ ν) : Except Errno (Loc ρ ν) :=
  d.walk maxLinks ⟨l.root, []⟩ (l.path.map .name)

/-- Resolve `comps` from the directory `cur`, the last component followed like the others. -/
def enterFrom (d : Disk ρ ν) (follow : Loc ρ ν → List (Comp ν) → Except Errno (Loc ρ ν)) :
    Loc ρ ν → List (Comp ν) → Except Errno (Loc ρ ν)
  | cur, [] => .ok cur
  | cur, .up :: rest => enterFrom d follow (d.up cur) rest
  | cur, .name n :: rest =>
    let next := d.norm (cur.child n)
    match d.wayAt next with
    | some .dir => enterFrom d follow next rest
    | some (.symlink t) =>
      follow (if t.absolute then d.norm ⟨none, []⟩ else cur) (t.comps ++ rest)
    | some (.file _) => if rest.isEmpty then .ok next else .error .ENOTDIR
    | none => if rest.isEmpty then .ok next else .error .ENOENT

/-- Resolution to the end with at most `k` links met. -/
def enter (d : Disk ρ ν) : Nat → Loc ρ ν → List (Comp ν) → Except Errno (Loc ρ ν)
  | 0 => enterFrom d fun _ _ => .error .ELOOP
  | k + 1 => enterFrom d (enter d k)

/-- The place a path names, its last component followed. -/
def realpathFollow (d : Disk ρ ν) (l : Loc ρ ν) : Except Errno (Loc ρ ν) :=
  d.enter maxLinks ⟨l.root, []⟩ (l.path.map .name)

/-- `lstat`: the node a path names. -/
def lstat (d : Disk ρ ν) (l : Loc ρ ν) : Except Errno (Node ν) :=
  match d.realpath l with
  | .ok r =>
    match d.get r with
    | some n => .ok n
    | none => .error .ENOENT
  | .error e => .error e

/-- `stat`: the node a path leads to. -/
def stat (d : Disk ρ ν) (l : Loc ρ ν) : Except Errno (Node ν) :=
  match d.realpathFollow l with
  | .ok r =>
    match d.get r with
    | some n => .ok n
    | none => .error .ENOENT
  | .error e => .error e

/-- `Path::is_dir`, which follows links. -/
def isDir (d : Disk ρ ν) (l : Loc ρ ν) : Bool := (d.stat l).toOption.any fun n => n.kind.isDir

/-- `Path::exists`, which follows links. -/
def pathExists (d : Disk ρ ν) (l : Loc ρ ν) : Bool := (d.stat l).toOption.isSome

/-- `symlink_metadata().is_ok()`. -/
def lexists (d : Disk ρ ν) (l : Loc ρ ν) : Bool := (d.lstat l).toOption.isSome

/-- The kind `lstat` reports, if it succeeds. -/
def lkind (d : Disk ρ ν) (l : Loc ρ ν) : Option (Kind ν) := (d.lstat l).toOption.map (·.kind)

/-! ## Locations no link stands above -/

def linkAt (d : Disk ρ ν) (l : Loc ρ ν) : Bool := (d.kindAt l).any Kind.isSymlink

def fileAt (d : Disk ρ ν) (l : Loc ρ ν) : Bool := (d.kindAt l).any Kind.isFile

/-- A file stands properly above `l`. -/
def fileAbove (d : Disk ρ ν) (l : Loc ρ ν) : Bool := l.above.any d.fileAt

/-- No link stands properly above `l`, so resolution never leaves the way to `l`. -/
def NoLinkAbove (d : Disk ρ ν) (l : Loc ρ ν) : Prop := ∀ a ∈ l.above, d.linkAt a = false

instance (d : Disk ρ ν) (l : Loc ρ ν) : Decidable (d.NoLinkAbove l) :=
  inferInstanceAs (Decidable (∀ a ∈ l.above, d.linkAt a = false))

theorem fileAbove_iff {d : Disk ρ ν} {l : Loc ρ ν} :
    d.fileAbove l = true ↔ ∃ a, a ≤ l ∧ a ≠ l ∧ d.fileAt a = true := by
  simp only [fileAbove, List.any_eq_true, Loc.mem_above, and_assoc]

theorem NoLinkAbove.not_link {d : Disk ρ ν} {a l : Loc ρ ν} (h : d.NoLinkAbove l) (hal : a ≤ l)
    (hne : a ≠ l) : d.linkAt a = false := h a (Loc.mem_above.mpr ⟨hal, hne⟩)

theorem noLinkAbove_of {d : Disk ρ ν} {l : Loc ρ ν}
    (h : ∀ a, a ≤ l → a ≠ l → d.linkAt a = false) : d.NoLinkAbove l := by
  intro a ha
  obtain ⟨hle, hne⟩ := Loc.mem_above.mp ha
  exact h a hle hne

theorem NoLinkAbove.mono {d : Disk ρ ν} {a l : Loc ρ ν} (h : d.NoLinkAbove l) (hal : a ≤ l) :
    d.NoLinkAbove a := by
  refine noLinkAbove_of fun b hb hne => h.not_link (le_trans hb hal) ?_
  rintro rfl
  exact hne (le_antisymm hb hal)

/-- Where no new link has appeared above `l`, none stands above it. -/
theorem NoLinkAbove.of_le {d d' : Disk ρ ν} {l : Loc ρ ν} (h : d.NoLinkAbove l)
    (hlink : ∀ a, a ≤ l → a ≠ l → d'.linkAt a = true → d.linkAt a = true) :
    d'.NoLinkAbove l := by
  refine noLinkAbove_of fun a ha hne => ?_
  by_contra hl
  have := hlink a ha hne (by simpa using hl)
  rw [h.not_link ha hne] at this
  simp at this

theorem noLinkAbove_of_dir {d : Disk ρ ν} {l : Loc ρ ν} (h : d.kindAt l.parent = some .dir) :
    d.NoLinkAbove l := by
  refine noLinkAbove_of fun a ha hne => ?_
  have hdir : d.kindAt a = some .dir := by
    by_cases heq : a = l.parent
    · rw [heq, h]
    · exact dir_above (by simp [h]) (Loc.le_parent_of_lt ha hne) heq
  simp [linkAt, hdir, Kind.isSymlink]

theorem linkAt_eq_false_of_kind {d : Disk ρ ν} {l : Loc ρ ν} {k : Kind ν}
    (h : d.kindAt l = some k) (hk : k.isSymlink = false) : d.linkAt l = false := by
  simp [linkAt, h, hk]

theorem linkAt_of_none {d : Disk ρ ν} {l : Loc ρ ν} (h : d.kindAt l = none) :
    d.linkAt l = false := by
  simp [linkAt, h]

/-- Inside a named tree the table says what stands on the way. -/
theorem wayAt_of_root {d : Disk ρ ν} {l : Loc ρ ν} {r : ρ} (hr : l.root = some r) :
    d.wayAt l = d.kindAt l := by
  simp [wayAt, hr]

/-- Without a link on the way and with the directory in place the walk ends where it was sent. -/
theorem walkFrom_names (d : Disk ρ ν) (follow) {r : ρ} (ns : List ν) :
    ∀ cur : Loc ρ ν, cur.root = some r → d.kindAt (cur.join ns).parent = some .dir →
      walkFrom d follow cur (ns.map .name) = .ok (cur.join ns) := by
  induction ns with
  | nil =>
    intro cur _ _
    simp [walkFrom, Loc.join]
  | cons n ns ih =>
    intro cur hroot hdir
    have hnorm : d.norm (cur.child n) = cur.child n := by simp [norm, hroot]
    have hjoin : cur.join (n :: ns) = (cur.child n).join ns := by
      ext1 <;> simp
    rw [List.map_cons, walkFrom, hnorm, hjoin]
    cases ns with
    | nil =>
      simp only [List.map_nil, List.isEmpty_nil, if_true, Except.ok.injEq]
      ext1 <;> simp
    | cons m ns =>
      have hdir' : d.kindAt ((cur.child n).join (m :: ns)).parent = some .dir := by
        rw [← hjoin]
        exact hdir
      have hchild : d.kindAt (cur.child n) = some .dir := by
        by_cases heq : cur.child n = ((cur.child n).join (m :: ns)).parent
        · rw [heq]
          exact hdir'
        · refine dir_above (l := ((cur.child n).join (m :: ns)).parent) (by simp [hdir']) ?_ heq
          refine Loc.le_parent_of_lt (Loc.le_join _ _) ?_
          intro h
          have := congrArg (fun k : Loc ρ ν => k.path.length) h
          simp at this
      have hway : d.wayAt (cur.child n) = some .dir := by
        rw [wayAt_of_root (r := r) (by simpa using hroot), hchild]
      simp only [List.map_cons, List.isEmpty_cons, Bool.false_eq_true, if_false, hway]
      exact ih (cur.child n) (by simpa using hroot) hdir'

/-- The error a walk stops with: what stands at the first place that is not a directory. -/
theorem walkFrom_blocked (d : Disk ρ ν) (follow) {r : ρ} (ns : List ν) :
    ∀ cur : Loc ρ ν, cur.root = some r → d.kindAt cur = some .dir →
      (∀ a, cur ≤ a → a ≤ cur.join ns → a ≠ cur.join ns → d.linkAt a = false) →
      d.kindAt (cur.join ns).parent ≠ some .dir →
      walkFrom d follow cur (ns.map .name) =
        .error (if d.fileAbove (cur.join ns) then .ENOTDIR else .ENOENT) := by
  induction ns with
  | nil =>
    intro cur _ hcur _ hdir
    have hjoin : cur.join ([] : List ν) = cur := by ext1 <;> simp
    rw [hjoin] at hdir
    exact absurd (dir_parent (by simp [hcur])) hdir
  | cons n ns ih =>
    intro cur hroot hcur hlink hdir
    have hnorm : d.norm (cur.child n) = cur.child n := by simp [norm, hroot]
    have hjoin : cur.join (n :: ns) = (cur.child n).join ns := by
      ext1 <;> simp
    rw [List.map_cons, walkFrom, hnorm]
    rw [hjoin] at hlink hdir ⊢
    cases ns with
    | nil =>
      have h1 : ((cur.child n).join ([] : List ν)).parent = cur := by ext1 <;> simp
      rw [h1] at hdir
      exact absurd hcur hdir
    | cons m ns =>
      have hle : cur.child n ≤ (cur.child n).join (m :: ns) := Loc.le_join _ _
      have hne : cur.child n ≠ (cur.child n).join (m :: ns) := by
        intro h
        have := congrArg (fun k : Loc ρ ν => k.path.length) h
        simp at this
      have hcc : cur ≤ cur.child n := by simpa using Loc.parent_le (cur.child n)
      have hnl := hlink (cur.child n) hcc hle hne
      simp only [List.map_cons, List.isEmpty_cons, Bool.false_eq_true, if_false]
      rw [wayAt_of_root (r := r) (by simpa using hroot)]
      cases hk : d.kindAt (cur.child n) with
      | none =>
        -- everything further down is missing too, and everything above is a directory
        show Except.error _ = _
        rw [if_neg]
        rw [fileAbove_iff]
        rintro ⟨a, ha, _, hf⟩
        rcases Loc.le_total_of_le ha hle with h | h
        · rcases Loc.le_child_iff.mp h with h | rfl
          · have : d.kindAt a = some .dir := by
              by_cases heq : a = cur
              · rw [heq, hcur]
              · exact dir_above (by simp [hcur]) h heq
            simp [fileAt, this, Kind.isFile] at hf
          · simp [fileAt, hk] at hf
        · simp [fileAt, none_of_le hk h] at hf
      | some k =>
        cases k with
        | dir =>
          exact ih (cur.child n) (by simpa using hroot) hk
            (fun a h1 h2 h3 => hlink a (le_trans hcc h1) h2 h3) hdir
        | symlink t => simp [linkAt, hk, Kind.isSymlink] at hnl
        | file b =>
          have hf : d.fileAt (cur.child n) = true := by simp [fileAt, hk, Kind.isFile]
          rw [if_pos (fileAbove_iff.mpr ⟨cur.child n, hle, hne, hf⟩)]

/-- A location of a named tree, its directory in place, is where it says. -/
theorem realpath_of_dir {d : Disk ρ ν} {l : Loc ρ ν} {r : ρ} (hr : l.root = some r)
    (h : d.kindAt l.parent = some .dir) : d.realpath l = .ok l := by
  have hjoin : (⟨l.root, []⟩ : Loc ρ ν).join l.path = l := by ext1 <;> simp
  unfold realpath walk
  rw [maxLinks]
  simp only
  rw [walkFrom_names d _ l.path ⟨l.root, []⟩ hr (by rw [hjoin]; exact h), hjoin]

/-- Below a file the answer is ENOTDIR, below a missing directory ENOENT. -/
theorem realpath_blocked {d : Disk ρ ν} {l : Loc ρ ν} {r : ρ} (hr : l.root = some r)
    (hlink : d.NoLinkAbove l) (h : d.kindAt l.parent ≠ some .dir) :
    d.realpath l = .error (if d.fileAbove l then .ENOTDIR else .ENOENT) := by
  have hjoin : (⟨l.root, []⟩ : Loc ρ ν).join l.path = l := by ext1 <;> simp
  unfold realpath walk
  rw [maxLinks]
  simp only
  rw [walkFrom_blocked d _ l.path ⟨l.root, []⟩ hr (kindAt_root d rfl), hjoin]
  · intro a _ h2 h3
    rw [hjoin] at h2 h3
    exact hlink.not_link h2 h3
  · rw [hjoin]
    exact h

/-- Whatever resolution answers, it stays on the way to `l`. -/
theorem realpath_eq {d : Disk ρ ν} {l l' : Loc ρ ν} {r : ρ} (hr : l.root = some r)
    (hlink : d.NoLinkAbove l) (h : d.realpath l = .ok l') : l' = l := by
  by_cases hdir : d.kindAt l.parent = some .dir
  · rw [realpath_of_dir hr hdir] at h
    exact (Except.ok.inj h).symm
  · rw [realpath_blocked hr hlink hdir] at h
    cases h

/-- Where no link stands above, `lstat` reads the table. -/
theorem lstat_toOption {d : Disk ρ ν} {l : Loc ρ ν} {r : ρ} (hr : l.root = some r)
    (hlink : d.NoLinkAbove l) : (d.lstat l).toOption = d.get l := by
  unfold lstat
  by_cases hdir : d.kindAt l.parent = some .dir
  · rw [realpath_of_dir hr hdir]
    cases hg : d.get l <;> simp [hg, Except.toOption]
  · rw [realpath_blocked hr hlink hdir]
    have hnone : d.get l = none := by
      rw [get_none_iff]
      by_contra hk
      exact hdir (dir_parent hk)
    simp [hnone, Except.toOption]

theorem lkind_eq {d : Disk ρ ν} {l : Loc ρ ν} {r : ρ} (hr : l.root = some r)
    (hlink : d.NoLinkAbove l) : d.lkind l = d.kindAt l := by
  simp [lkind, lstat_toOption hr hlink, kindAt]

theorem lexists_iff_lkind {d : Disk ρ ν} {l : Loc ρ ν} :
    d.lexists l = true ↔ d.lkind l ≠ none := by
  simp [lexists, lkind, Option.isSome_iff_ne_none]

theorem lexists_eq {d : Disk ρ ν} {l : Loc ρ ν} {r : ρ} (hr : l.root = some r)
    (hlink : d.NoLinkAbove l) : d.lexists l = true ↔ d.kindAt l ≠ none := by
  rw [lexists_iff_lkind, lkind_eq hr hlink]

theorem lstat_of_get {d : Disk ρ ν} {l : Loc ρ ν} {r : ρ} {n : Node ν} (hr : l.root = some r)
    (h : d.get l = some n) : d.lstat l = .ok n := by
  have hdir : d.kindAt l.parent = some .dir := dir_parent (by simp [kindAt_of_get h])
  simp [lstat, realpath_of_dir hr hdir, h]

/-- What a resolution that may still meet `k` links does at one. -/
def linkFrom (d : Disk ρ ν) : Nat → Loc ρ ν → List (Comp ν) → Except Errno (Loc ρ ν)
  | 0 => fun _ _ => .error .ELOOP
  | k + 1 => d.walk k

theorem walk_eq (d : Disk ρ ν) (k : Nat) : d.walk k = d.walkFrom (d.linkFrom k) := by
  cases k <;> rfl

/-- The same, for a resolution that follows the last component. -/
def enterLinkFrom (d : Disk ρ ν) : Nat → Loc ρ ν → List (Comp ν) → Except Errno (Loc ρ ν)
  | 0 => fun _ _ => .error .ELOOP
  | k + 1 => d.enter k

theorem enter_eq (d : Disk ρ ν) (k : Nat) : d.enter k = d.enterFrom (d.enterLinkFrom k) := by
  cases k <;> rfl

/-- Two resolutions part at the last component only: what stops the one on the way stops the other,
and where the place reached is no link there is nothing more to follow. -/
def EntersAs (d : Disk ρ ν) (x y : Except Errno (Loc ρ ν)) : Prop :=
  match x with
  | .error e => y = .error e
  | .ok t => (d.wayAt t).any Kind.isSymlink = false → y = .ok t

theorem enterFrom_as {d : Disk ρ ν} {f g : Loc ρ ν → List (Comp ν) → Except Errno (Loc ρ ν)}
    (hfg : ∀ cur cs, d.EntersAs (f cur cs) (g cur cs)) (cs : List (Comp ν)) :
    ∀ cur, d.EntersAs (d.walkFrom f cur cs) (d.enterFrom g cur cs) := by
  induction cs with
  | nil => exact fun cur _ => rfl
  | cons c rest ih =>
    intro cur
    cases c with
    | up => exact ih (d.up cur)
    | name n =>
      rw [walkFrom, enterFrom]
      cases rest with
      | nil =>
        intro hlink
        cases hway : d.wayAt (d.norm (cur.child n)) with
        | none => rfl
        | some k =>
          cases k with
          | file b => rfl
          | dir => rfl
          | symlink t => simp [hway, Kind.isSymlink] at hlink
      | cons c' rest =>
        simp only [List.isEmpty_cons, Bool.false_eq_true, if_false]
        cases d.wayAt (d.norm (cur.child n)) with
        | none => rfl
        | some k =>
          cases k with
          | file b => rfl
          | dir => exact ih _
          | symlink t => exact hfg _ _

theorem enter_as (d : Disk ρ ν) (k : Nat) :
    ∀ cur cs, d.EntersAs (d.walk k cur cs) (d.enter k cur cs) := by
  induction k with
  | zero =>
    intro cur cs
    refine enterFrom_as (fun _ _ => ?_) cs cur
    exact rfl
  | succ k ih => exact fun cur cs => enterFrom_as ih cs cur

/-- What stops resolution on the way stops it also where the last component is followed. -/
theorem realpathFollow_error {d : Disk ρ ν} {l : Loc ρ ν} {e : Errno}
    (h : d.realpath l = .error e) : d.realpathFollow l = .error e := by
  have := enter_as d maxLinks ⟨l.root, []⟩ (l.path.map .name)
  unfold realpath at h
  rw [h] at this
  exact this

/-- A place that is no link is not followed any further. -/
theorem realpathFollow_of_realpath {d : Disk ρ ν} {l t : Loc ρ ν} (h : d.realpath l = .ok t)
    (ht : (d.wayAt t).any Kind.isSymlink = false) : d.realpathFollow l = .ok t := by
  have := enter_as d maxLinks ⟨l.root, []⟩ (l.path.map .name)
  unfold realpath at h
  rw [h] at this
  exact this ht

theorem realpathFollow_of_dir {d : Disk ρ ν} {l : Loc ρ ν} {r : ρ} (hr : l.root = some r)
    (h : d.kindAt l.parent = some .dir) (hl : d.linkAt l = false) :
    d.realpathFollow l = .ok l := by
  refine realpathFollow_of_realpath (realpath_of_dir hr h) ?_
  rw [wayAt_of_root hr]
  exact hl

theorem realpathFollow_blocked {d : Disk ρ ν} {l : Loc ρ ν} {r : ρ} (hr : l.root = some r)
    (hlink : d.NoLinkAbove l) (h : d.kindAt l.parent ≠ some .dir) :
    d.realpathFollow l = .error (if d.fileAbove l then .ENOTDIR else .ENOENT) :=
  realpathFollow_error (realpath_blocked hr hlink h)

theorem realpathFollow_eq {d : Disk ρ ν} {l l' : Loc ρ ν} {r : ρ} (hr : l.root = some r)
    (hlink : d.NoLinkAbove l) (hl : d.linkAt l = false) (h : d.realpathFollow l = .ok l') :
    l' = l := by
  by_cases hdir : d.kindAt l.parent = some .dir
  · rw [realpathFollow_of_dir hr hdir hl] at h
    exact (Except.ok.inj h).symm
  · rw [realpathFollow_blocked hr hlink hdir] at h
    cases h

theorem stat_toOption {d : Disk ρ ν} {l : Loc ρ ν} {r : ρ} (hr : l.root = some r)
    (hlink : d.NoLinkAbove l) (hl : d.linkAt l = false) : (d.stat l).toOption = d.get l := by
  unfold stat
  by_cases hdir : d.kindAt l.parent = some .dir
  · rw [realpathFollow_of_dir hr hdir hl]
    cases hg : d.get l <;> simp [hg, Except.toOption]
  · rw [realpathFollow_blocked hr hlink hdir]
    have hnone : d.get l = none := by
      rw [get_none_iff]
      by_contra hk
      exact hdir (dir_parent hk)
    simp [hnone, Except.toOption]

theorem isDir_eq {d : Disk ρ ν} {l : Loc ρ ν} {r : ρ} (hr : l.root = some r)
    (hlink : d.NoLinkAbove l) (hl : d.linkAt l = false) :
    d.isDir l = decide (d.kindAt l = some .dir) := by
  unfold isDir
  rw [stat_toOption hr hlink hl]
  cases hg : d.get l with
  | none => simp [kindAt, hg]
  | some n =>
    simp only [Option.any_some, kindAt, hg, Option.map_some, Option.some.injEq]
    rw [Bool.eq_iff_iff, decide_eq_true_iff, Kind.isDir_iff]

/-! ## A name after a way -/

/-- A normalised place below a root is the place itself. -/
theorem eq_of_norm {d : Disk ρ ν} {l t : Loc ρ ν} (h : d.norm l = t) (ht : t.path ≠ []) : l = t := by
  subst h
  unfold norm at ht ⊢
  split at ht
  · simp_all
  · split at ht
    · exact absurd rfl ht
    · simp_all

theorem wayAt_empty (d : Disk ρ ν) (root : Option ρ) : d.wayAt ⟨root, []⟩ = some .dir := by
  unfold wayAt
  split
  · rfl
  · exact kindAt_root d rfl

/-- The tree a host path hangs in starts at a directory. -/
theorem wayAt_norm {d : Disk ρ ν} {l : Loc ρ ν} (h : d.wayAt l = some .dir) :
    d.wayAt (d.norm l) = some .dir := by
  unfold norm
  cases hr : l.root with
  | some r => simpa only [hr] using h
  | none =>
    cases hm : d.layout.mountAt l.path with
    | none => simpa only [hr, hm] using h
    | some r => simpa only [hm] using wayAt_empty d (some r)

/-- From a directory `..` leads to a directory. -/
theorem wayAt_up {d : Disk ρ ν} {cur : Loc ρ ν} (h : d.wayAt cur = some .dir) :
    d.wayAt (d.up cur) = some .dir := by
  have hparent : d.wayAt cur.parent = some .dir := by
    unfold wayAt at h ⊢
    by_cases hhost : cur.root = none ∧ d.layout.hostDir cur.path = true
    · exact if_pos ⟨hhost.1, d.layout.hostDir_dropLast _ hhost.2⟩
    · rw [if_neg hhost] at h
      rw [dir_parent (by simp [h]), ite_self]
  unfold up
  split
  · next r _ _ =>
    exact wayAt_norm (if_pos ⟨rfl, d.layout.hostDir_mountPath r⟩)
  · exact wayAt_norm hparent

/-- The links of a way after which a name follows, at one budget. -/
theorem walkFrom_concat {d : Disk ρ ν} {n : ν} {t : Loc ρ ν}
    {f g : Loc ρ ν → List (Comp ν) → Except Errno (Loc ρ ν)}
    (hfg : ∀ cur cs, d.wayAt cur = some .dir → (f cur (cs ++ [.name n]) = .ok t ↔
      ∃ r, g cur cs = .ok r ∧ d.wayAt r = some .dir ∧ d.norm (r.child n) = t))
    (cs : List (Comp ν)) : ∀ cur, d.wayAt cur = some .dir →
      (d.walkFrom f cur (cs ++ [.name n]) = .ok t ↔
        ∃ r, d.enterFrom g cur cs = .ok r ∧ d.wayAt r = some .dir ∧ d.norm (r.child n) = t) := by
  induction cs with
  | nil =>
    intro cur hcur
    rw [List.nil_append, walkFrom, enterFrom]
    simp only [List.isEmpty_nil, if_true, Except.ok.injEq, exists_eq_left', hcur, true_and]
  | cons c rest ih =>
    intro cur hcur
    cases c with
    | up =>
      rw [List.cons_append, walkFrom, enterFrom]
      exact ih (d.up cur) (wayAt_up hcur)
    | name m =>
      rw [List.cons_append, walkFrom, enterFrom]
      have hne : ((rest ++ [Comp.name n]).isEmpty) = false := by simp
      simp only [hne, Bool.false_eq_true, if_false]
      -- a place that is no directory is the end of the one, and not one for the other
      have hstop : ∀ e, d.wayAt (d.norm (cur.child m)) ≠ some .dir →
          ¬ ∃ r, (if rest.isEmpty then .ok (d.norm (cur.child m)) else .error e : Except Errno _) =
            .ok r ∧ d.wayAt r = some .dir ∧ d.norm (r.child n) = t := by
        rintro e hno ⟨r, hr, hdir, -⟩
        split at hr
        · cases hr
          exact hno hdir
        · cases hr
      cases hway : d.wayAt (d.norm (cur.child m)) with
      | none => exact iff_of_false (by simp) (hstop _ (by simp [hway]))
      | some k =>
        cases k with
        | file b => exact iff_of_false (by simp) (hstop _ (by simp [hway]))
        | dir => exact ih _ hway
        | symlink tg =>
          simp only
          rw [← List.append_assoc]
          refine hfg _ _ ?_
          split
          · exact wayAt_norm (wayAt_empty d none)
          · exact hcur

/-- A name is reached by going to its directory, all the way, and then to the name. -/
theorem walk_concat (d : Disk ρ ν) (n : ν) (t : Loc ρ ν) (k : Nat) :
    ∀ cur cs, d.wayAt cur = some .dir → (d.walk k cur (cs ++ [.name n]) = .ok t ↔
      ∃ r, d.enter k cur cs = .ok r ∧ d.wayAt r = some .dir ∧ d.norm (r.child n) = t) := by
  induction k with
  | zero => exact fun cur cs hcur => walkFrom_concat (fun _ _ _ => by simp) cs cur hcur
  | succ k ih => exact fun cur cs hcur => walkFrom_concat ih cs cur hcur

/-- What `lstat` finds under a name is found in the directory the way before the name leads to. -/
theorem realpath_child {d : Disk ρ ν} {l t : Loc ρ ν} {n : ν} :
    d.realpath (l.child n) = .ok t ↔
      ∃ r, d.realpathFollow l = .ok r ∧ d.wayAt r = some .dir ∧ d.norm (r.child n) = t := by
  unfold realpath realpathFollow
  rw [Loc.child_path, Loc.child_root, List.map_append]
  exact walk_concat d n t maxLinks _ _ (wayAt_empty d _)

/-! ## A link on the way -/

section LinkAbove

variable {d : Disk ρ ν} {l : Loc ρ ν} {r : ρ}

/-- `lstat` reads a link that stands in a named tree: what stands above an entry are directories. -/
theorem lkind_of_linkAt (hr : l.root = some r) (h : d.linkAt l = true) :
    ∃ t, d.lkind l = some (.symlink t) := by
  unfold linkAt at h
  cases hk : d.kindAt l with
  | none => simp [hk] at h
  | some k =>
    have hlink : d.NoLinkAbove l := noLinkAbove_of_dir (dir_parent (by simp [hk]))
    rw [lkind_eq hr hlink, hk]
    cases k with
    | symlink t => exact ⟨t, rfl⟩
    | file b => simp [hk, Kind.isSymlink] at h
    | dir => simp [hk, Kind.isSymlink] at h

/-- The link is not the root. -/
theorem path_ne_nil_of_link {t : Link ν} (hr : l.root = some r) (h : d.lkind l = some (.symlink t)) :
    l.path ≠ [] := by
  intro hnil
  have hroot := d.kindAt_root hnil
  have hlink : d.NoLinkAbove l := noLinkAbove_of_dir (dir_parent (by simp [hroot]))
  rw [lkind_eq hr hlink, hroot] at h
  cases h

/-- What `lstat` finds under a place stands in a directory, or a link leads there. -/
theorem dir_or_link_of_lexists_child {n : ν} (hr : l.root = some r)
    (h : d.lexists (l.child n) = true) :
    d.lkind l = some .dir ∨ ∃ a t, a ≤ l ∧ d.lkind a = some (.symlink t) := by
  by_cases hlink : d.NoLinkAbove (l.child n)
  · left
    have hk := (lexists_eq (by rw [Loc.child_root, hr]) hlink).mp h
    have hdir := dir_parent hk
    rw [Loc.parent_child] at hdir
    rw [lkind_eq hr (hlink.mono (Loc.le_child_iff.mpr (Or.inl le_rfl))), hdir]
  · right
    unfold NoLinkAbove at hlink
    push Not at hlink
    obtain ⟨a, habove, ha⟩ := hlink
    obtain ⟨hle, hne⟩ := Loc.mem_above.mp habove
    have hal : a ≤ l := (Loc.le_child_iff.mp hle).resolve_right hne
    obtain ⟨t, ht⟩ := lkind_of_linkAt (by rw [hal.1, hr]) (by simpa using ha)
    exact ⟨a, t, hal, ht⟩

end LinkAbove

end Disk

end BranchFs.Posix
