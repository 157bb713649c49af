/-
# BranchFs.Cow.Create -- making an entry under a name that is not shown

`create`, `mkdir` and `symlink` all run copy-on-write first, and copy-on-write does not ask whether
the name was deleted: it brings up whatever the parent still holds there. What the handler then finds
in the delta decides its fate. A file that came up is emptied by `create`, but `mkdir` and `symlink`
fail on it, and a link that came up is followed by `create`; in each of these cases the entry that had
been deleted is shown again. Where nothing comes up all three work, `mkdir` with the reservation that
the tombstone it drops was all that hid the inherited entries below.
-/
import BranchFs.Cow.Shown

namespace BranchFs

open BranchFs.Posix BranchFs.Logic

/-! ## Request steps, one at a time -/

theorem readReq_bind {α β : Type} (f : Manager → α) (g : α → Req β) (m : Manager) :
    (readReq f >>= g) m = g (f m) m := rfl

theorem asReq_ok {α : Type} {f : BranchError → Errno} {x : Mgr α} {m m' : Manager} {a : α}
    (h : x m = .ok a m') : asReq f x m = .ok a m' := by
  simp only [asReq, h]

theorem asReq_error {α : Type} {f : BranchError → Errno} {x : Mgr α} {m m' : Manager}
    {e : BranchError} (h : x m = .error e m') : asReq f x m = .error (f e) m' := by
  simp only [asReq, h]

theorem ioOrEio_ok {α : Type} {x : Io α} {m : Manager} {a : α} {d : Tree}
    (h : x m.disk = .ok a d) : ioOrEio x m = .ok a { m with disk := d } := asReq_ok (onDisk_ok h)

theorem ioOrEio_error {α : Type} {x : Io α} {m : Manager} {e : Errno} {d : Tree}
    (h : x m.disk = .error e d) : ioOrEio x m = .error Errno.EIO { m with disk := d } :=
  asReq_error (onDisk_error h)

theorem ignoring_eq {α : Type} (x : Io α) (m : Manager) :
    ignoring x m = .ok () { m with disk := after x m.disk } := by
  unfold ignoring
  cases h : x m.disk with
  | ok a d =>
    rw [bind_ok (show attempt (ioOrEio x) m = .ok (.ok a) { m with disk := d } by
      simp only [attempt, ioOrEio_ok h])]
    simp only [after, h]
    rfl
  | error e d =>
    rw [bind_ok (show attempt (ioOrEio x) m = .ok (.error Errno.EIO) { m with disk := d } by
      simp only [attempt, ioOrEio_error h])]
    simp only [after, h]
    rfl

/-! ## A name to be made -/

/-- A name that is missing from a directory the open branch shows. -/
structure NewName (m : Manager) (name : String) (b : Branch) (dir : RelPath) (n : String) : Prop where
  branch : m.forest.get? name = some b
  writable : b.isWritable = true
  shown : m.view name dir = some .dir
  missing : m.view name (dir ++ [n]) = none
  capture : CanCapture m.disk name
  straight : Straight m name (dir ++ [n])

/-- What a handler that makes the entry `k` owes: it succeeds where no quota is set, then the entry is
shown and nothing below it, and an error leaves the name missing. -/
structure Makes (m : Manager) (name : String) (p : RelPath) (k : Entry) (op : Req Unit) : Prop where
  succeeds : m.quota.maxBytes = none → ∃ m', op m = .ok () m'
  shows : ∀ m', op m = .ok () m' →
    m'.view name p = some k ∧ ∀ q, p <+: q → q ≠ p → m'.view name q = none
  nothing : ∀ e m', op m = .error e m' → m'.view name p = none

section NewName

variable {m : Manager} {name : String} {b : Branch} {dir : RelPath} {n : String}

theorem NewName.free (h : NewName m name b dir n) :
    FreePlace m.disk (deltaPath name (dir ++ [n])) := freePlace_of_shown h.branch h.shown h.missing

/-- Without a quota nothing is refused. -/
theorem refuses_of_noQuota (h : m.quota.maxBytes = none) (p : RelPath) : m.refuses b p = false := by
  unfold Manager.refuses StorageQuota.check
  cases m.inheritedNode b p <;> simp [h]

/-- What the branch inherits is the same after an operation that stays in its own trees. -/
theorem inheritedKind_of_own (m' : Manager) {b' : Branch} {p : RelPath} (hst : Straight m name p)
    (hb : m.forest.get? name = some b) (hb' : m'.forest.get? name = some b')
    (hF : m.forest.SameBut name m'.forest) (hd : SameOn (fun r => ¬ Own name r) m.disk m'.disk) :
    m'.inheritedKind b' p = none ↔ m.inheritedKind b p = none := by
  rw [Manager.inheritedKind_eq_none, Manager.inheritedKind_eq_none]
  rw [Manager.inheritedForTouch_congr hF hb hb']
  intro r hr
  unfold Disk.lexists
  rw [hst.lstat hd hr]

/-- A refused copy leaves the name missing. -/
theorem missing_of_touched {m' : Manager} (h : NewName m name b dir n) (ht : Touched name m m') :
    m'.view name (dir ++ [n]) = none := by
  obtain ⟨b', hb', hs, hts⟩ := ht.get? h.branch
  have hfree : FreePlace m'.disk (deltaPath name (dir ++ [n])) :=
    h.free.of_same fun x hx => ht.disk.same x (by rw [hx]; simp [deltaPath])
  have hkind : m'.kindOf name (dir ++ [n]) = none := by
    have hdelta : hasDelta m'.disk name (dir ++ [n]) = false := not_lexists_of_free hfree
    rw [Manager.kindOf_eq hb', hdelta]
    simp only [Bool.false_eq_true, if_false]
    rcases deleted_of_shown h.branch h.shown h.missing with hdel | hinh
    · rw [if_pos]
      simpa only [Branch.isDeleted, hts] using hdel
    · rw [(inheritedKind_of_own m' h.straight h.branch hb' ht.adds.forest ht.adds.same).mpr hinh]
      simp
  unfold Manager.view
  rw [hkind]
  simp

/-- Nothing is shown below an entry that is no directory. -/
theorem view_below {p q : RelPath} {k : Entry} (hk : m.view name p = some k) (hdir : k ≠ .dir)
    (hq : p <+: q) (hne : q ≠ p) : m.view name q = none := by
  refine Manager.view_eq_none hq (Ne.symm hne) ?_
  unfold Manager.view at hk
  split at hk
  · rw [hk]
    simpa using hdir
  · cases hk

variable {p : RelPath} {m' : Manager}

theorem Ensured.get? (h : Ensured name p b m m') : ∃ b', m'.forest.get? name = some b' := by
  obtain ⟨b', hb', _⟩ := h.branch
  exact ⟨b', hb'⟩

/-- The delta after copy-on-write, as the next call finds it. -/
theorem Ensured.parent_dir (h : Ensured name p b m m') (hp : p ≠ []) :
    m'.disk.kindAt (deltaPath name p).parent = some .dir :=
  h.above _ (Loc.parent_le _) (Loc.parent_ne hp)

/-- What is shown after a later call that changed the disk only, from what it left in the delta. -/
theorem Ensured.view (h : Ensured name p b m m') {d : Tree} {k : Entry}
    (hk : d.kindAt (deltaPath name p) = some k) :
    Manager.view { m' with disk := d } name p = some k := by
  obtain ⟨b', hb'⟩ := h.get?
  exact view_of_delta (m := { m' with disk := d }) (b := b') hb' hk

/-- The way every handler here begins. -/
theorem ensure_cases (h : NewName m name b dir n) :
    (m.refuses b (dir ++ [n]) = true ∧ m.quota.maxBytes ≠ none ∧
      ∃ m', ensureCowForBranch name (dir ++ [n]) m = .error Errno.EIO m' ∧
        m'.view name (dir ++ [n]) = none) ∨
    (m.refuses b (dir ++ [n]) = false ∧
      ∃ m', ensureCowForBranch name (dir ++ [n]) m = .ok (deltaPath name (dir ++ [n])) m' ∧
        Ensured name (dir ++ [n]) b m m') := by
  cases hr : m.refuses b (dir ++ [n]) with
  | true =>
    obtain ⟨m', hm', ht⟩ :=
      ensureDelta_refused h.branch h.writable h.free h.capture h.straight hr
    refine Or.inl ⟨rfl, ?_, m', asReq_error hm', missing_of_touched h ht⟩
    intro hq
    rw [refuses_of_noQuota hq] at hr
    cases hr
  | false =>
    obtain ⟨m', hm', he⟩ := ensureDelta_ok h.branch h.writable h.free h.capture h.straight hr
    exact Or.inr ⟨rfl, m', asReq_ok hm', he⟩

theorem Makes.of_error {k : Entry} {op : Req Unit} {e : Errno} (ho : op m = .error e m')
    (hq : m.quota.maxBytes ≠ none) (hv : m'.view name p = none) : Makes m name p k op where
  succeeds := fun h => absurd h hq
  shows := by
    intro m'' h
    rw [ho] at h
    cases h
  nothing := by
    intro e' m'' h
    rw [ho] at h
    cases h
    exact hv

theorem Makes.of_ok {k : Entry} {op : Req Unit} (ho : op m = .ok () m')
    (hv : m'.view name p = some k) (hbelow : ∀ q, p <+: q → q ≠ p → m'.view name q = none) :
    Makes m name p k op where
  succeeds := fun _ => ⟨m', ho⟩
  shows := by
    intro m'' h
    rw [ho] at h
    cases h
    exact ⟨hv, hbelow⟩
  nothing := by
    intro e m'' h
    rw [ho] at h
    cases h

/-- An operation that leaves something else in place of the entry does not make it. -/
theorem Makes.not_of_other {k : Entry} (k' : Entry) {op : Req Unit} (hv : (after op m).view name p = some k')
    (hne : k' ≠ k) : ¬ Makes m name p k op := by
  intro hmakes
  unfold after at hv
  cases ho : op m with
  | ok a m' =>
    rw [ho] at hv
    have := (hmakes.shows m' ho).1
    rw [hv] at this
    exact hne (Option.some.inj this)
  | error e m' =>
    rw [ho] at hv
    have := hmakes.nothing e m' ho
    rw [hv] at this
    cases this

theorem broughtUp_of_refuses (h : m.refuses b p = true) : m.broughtUp b p = none := by
  unfold Manager.refuses at h
  unfold Manager.broughtUp
  cases hn : m.inheritedNode b p with
  | none => rfl
  | some k =>
    obtain ⟨hdir, hcheck⟩ : k.kind.isDir = false ∧ m.quota.check (metaLen k) = false := by
      simpa [hn] using h
    simp [hdir, hcheck]

theorem broughtUp_ne_dir : m.broughtUp b p ≠ some .dir := by
  unfold Manager.broughtUp
  cases hn : m.inheritedNode b p with
  | none => simp
  | some k =>
    by_cases hdir : k.kind = .dir
    · simp [hdir]
    · simp only [Kind.isDir_iff, hdir, if_false]
      split
      · simpa using hdir
      · simp

/-! ## The three handlers -/

/-- The directories are there by now, so the handler's own attempt to make them changes nothing. -/
theorem Ensured.parentDirs_idle (h : Ensured name p b m m') (hp : p ≠ []) :
    ioOrEio (Io.ensureParentDirs (deltaPath name p)) m' = .ok () m' :=
  ioOrEio_ok (Posix.Sys.createDirAll_of_dir rfl (h.parent_dir hp))

/-- `createFile` once copy-on-write has gone through. -/
theorem createFile_eq (mode : Nat) (hp : p ≠ [])
    (he : ensureCowForBranch name p m = .ok (deltaPath name p) m') (h : Ensured name p b m m') :
    createFile name p mode m = (do
      let _ ← ioOrEio (Posix.Sys.openWrite (deltaPath name p) true true)
      ignoring (Posix.Sys.setPermissions (deltaPath name p) mode) : Req Unit) m' := by
  rw [createFile, bind_ok he, bind_ok (h.parentDirs_idle hp)]

/-- **`create` over a name that is not shown** makes an empty file, unless copy-on-write brings up a
link. -/
theorem createFile_makes (mode : Nat) (h : NewName m name b dir n) :
    Makes m name (dir ++ [n]) (.file []) (createFile name (dir ++ [n]) mode) ↔
      ∀ t, m.broughtUp b (dir ++ [n]) ≠ some (.symlink t) := by
  have hp : dir ++ [n] ≠ [] := by simp
  rcases ensure_cases h with ⟨href, hq, m₁, hm₁, hv⟩ | ⟨_, m₁, hm₁, hens⟩
  · refine iff_of_true (Makes.of_error (e := Errno.EIO) ?_ hq hv) ?_
    · rw [createFile, bind_error hm₁]
    · intro t
      rw [broughtUp_of_refuses href]
      simp
  · have hrun := createFile_eq mode hp hm₁ hens
    have hcopy := hens.at_delta
    by_cases hlink : ∃ t, m.broughtUp b (dir ++ [n]) = some (.symlink t)
    · -- the link is still there after `open` has followed it, whether that worked or not
      obtain ⟨t, ht⟩ := hlink
      refine iff_of_false ?_ (fun hno => hno t ht)
      rw [ht] at hcopy
      obtain ⟨k, hk, hshape⟩ := hcopy
      obtain rfl := hshape.symlink
      have hstay : (after (Posix.Sys.openWrite (deltaPath name (dir ++ [n])) true true) m₁.disk).kindAt
          (deltaPath name (dir ++ [n])) = some (.symlink t) :=
        Posix.Sys.openWrite_keeps_link true true hk
      refine Makes.not_of_other (.symlink t) ?_ (by simp)
      unfold after at hstay ⊢
      rw [hrun]
      cases ho : Posix.Sys.openWrite (deltaPath name (dir ++ [n])) true true m₁.disk with
      | error e d =>
        rw [ho] at hstay
        rw [bind_error (ioOrEio_error ho)]
        exact hens.view hstay
      | ok hd d =>
        rw [ho] at hstay
        rw [bind_ok (ioOrEio_ok ho), ignoring_eq]
        refine hens.view ?_
        rw [Posix.Sys.setPermissions, Posix.Sys.kindAt_setAttr]
        exact hstay
    · refine iff_of_true ?_ (fun t ht => hlink ⟨t, ht⟩)
      have hfresh : m₁.disk.kindAt (deltaPath name (dir ++ [n])) = none ∨
          m₁.disk.fileAt (deltaPath name (dir ++ [n])) = true := by
        cases hup : m.broughtUp b (dir ++ [n]) with
        | none =>
          rw [hup] at hcopy
          exact Or.inl hcopy
        | some k =>
          rw [hup] at hcopy
          obtain ⟨k', hk', hshape⟩ := hcopy
          refine Or.inr ?_
          rcases hshape with rfl | ⟨_, hfile⟩
          · cases k' with
            | dir => exact absurd hup broughtUp_ne_dir
            | symlink t => exact absurd ⟨t, hup⟩ hlink
            | file c => simp [Disk.fileAt, hk', Kind.isFile]
          · simpa [Disk.fileAt, hk'] using hfile
      obtain ⟨hd, d, ho, hk⟩ := Posix.Sys.openWrite_fresh (r := .files name) rfl (hens.parent_dir hp) hfresh
      have hk' : (after (Posix.Sys.setPermissions (deltaPath name (dir ++ [n])) mode) d).kindAt
          (deltaPath name (dir ++ [n])) = some (.file []) := by
        rw [Posix.Sys.setPermissions, Posix.Sys.kindAt_setAttr, hk]
      have hv := hens.view hk'
      refine Makes.of_ok ?_ hv fun q hq hne => view_below hv (by simp) hq hne
      rw [hrun, bind_ok (ioOrEio_ok ho), ignoring_eq]

/-- **`symlink` over a name that is not shown** makes the link, unless copy-on-write brings anything
up. -/
theorem makeSymlink_makes (t : Target) (h : NewName m name b dir n) :
    Makes m name (dir ++ [n]) (.symlink t) (makeSymlink name (dir ++ [n]) t) ↔
      m.broughtUp b (dir ++ [n]) = none := by
  have hp : dir ++ [n] ≠ [] := by simp
  rcases ensure_cases h with ⟨href, hq, m₁, hm₁, hv⟩ | ⟨_, m₁, hm₁, hens⟩
  · refine iff_of_true (Makes.of_error (e := Errno.EIO) ?_ hq hv) (broughtUp_of_refuses href)
    rw [makeSymlink, bind_error hm₁]
  · have hrun : makeSymlink name (dir ++ [n]) t m =
        ioOrEio (Posix.Sys.symlink t (deltaPath name (dir ++ [n]))) m₁ := by
      rw [makeSymlink, bind_ok hm₁, bind_ok (hens.parentDirs_idle hp)]
    have hcopy := hens.at_delta
    cases hup : m.broughtUp b (dir ++ [n]) with
    | none =>
      rw [hup] at hcopy
      refine iff_of_true ?_ rfl
      obtain ⟨d, hd, hadd⟩ :=
        Posix.Sys.symlink_of_free (t := t) (r := .files name) rfl (hens.parent_dir hp) hcopy
      have hv := hens.view (show d.kindAt (deltaPath name (dir ++ [n])) = some (.symlink t) by
        rw [Disk.kindAt_add hadd, if_pos rfl])
      refine Makes.of_ok ?_ hv fun q hq hne => view_below hv (by simp) hq hne
      rw [hrun, ioOrEio_ok hd]
    | some k =>
      rw [hup] at hcopy
      obtain ⟨k', hk', _⟩ := hcopy
      refine iff_of_false ?_ (by simp)
      intro hmakes
      -- the name is taken by what came up, and the error leaves it shown
      have hd : Posix.Sys.symlink t (deltaPath name (dir ++ [n])) m₁.disk = .error .EEXIST m₁.disk :=
        Posix.Sys.symlink_of_taken (r := .files name) rfl (by simp [hk'])
      have hnone := hmakes.nothing Errno.EIO m₁ (by rw [hrun, ioOrEio_error hd])
      rw [hens.view (d := m₁.disk) hk'] at hnone
      cases hnone

/-- What is shown below a directory is what is shown right below it, and further down. -/
theorem view_below_dir (hdir : m.view name p = some .dir) :
    (∀ q, p <+: q → q ≠ p → m.view name q = none) ↔ ∀ k, m.kindOf name (p ++ [k]) = none := by
  have hshown := Manager.kindOf_of_view_dir hdir
  constructor
  · intro h k
    rw [← Manager.view_eq_kindOf (p := p ++ [k]) fun a ha hne => hshown a (prefix_of_mem_dir ha hne)]
    exact h _ (List.prefix_append p [k]) (by simp)
  · rintro h q ⟨rest, rfl⟩ hne
    cases rest with
    | nil => simp at hne
    | cons k rest =>
      by_cases hrest : rest = []
      · subst hrest
        rw [Manager.view_eq_kindOf fun a ha hne => hshown a (prefix_of_mem_dir ha hne)]
        exact h k
      · refine Manager.view_eq_none (a := p ++ [k]) ⟨rest, by simp⟩ ?_ (by simp [h k])
        simpa using hrest

/-- Another tombstone than that of `p` covers whatever is inherited right below it. -/
def HiddenBelow (m : Manager) (b : Branch) (p : RelPath) : Prop :=
  ∀ k, m.inheritedKind b (p ++ [k]) ≠ none → (b.removeTombstone p).isDeleted (p ++ [k]) = true

/-- What an empty directory made in the delta shows below it: what is inherited there and not deleted
by another tombstone than that of `p`. -/
theorem kindOf_below_madeDir (hfree : m.disk.kindAt (deltaPath name p) = none)
    (hb : m.forest.get? name = some b) (h : Ensured name p b m m') {d : Tree}
    (hst : ∀ k, Straight m name (p ++ [k]))
    (hd : SameOn (fun r => r ≠ some (.files name)) m'.disk d)
    (hk : ∀ x, d.kindAt x = if x = deltaPath name p then some .dir else m'.disk.kindAt x) :
    (∀ k, Manager.kindOf { m' with disk := d } name (p ++ [k]) = none) ↔ HiddenBelow m b p := by
  obtain ⟨b', hb', hs, hts⟩ := h.branch
  refine forall_congr' fun k => ?_
  have hnone : d.kindAt (deltaPath name (p ++ [k])) = none := by
    rw [hk, if_neg (deltaPath_ne.mpr (by simp)), h.other _ rfl]
    · exact Disk.none_of_le hfree (deltaPath_le.mpr (List.prefix_append p [k]))
    · rw [deltaPath_le]
      intro hle
      have hlen := hle.length_le
      rw [List.length_append, List.length_singleton] at hlen
      omega
  have hparent : d.kindAt (deltaPath name (p ++ [k])).parent = some .dir := by
    have hpar : (deltaPath name (p ++ [k])).parent = deltaPath name p := by
      simp [Loc.parent, deltaPath]
    rw [hpar, hk, if_pos rfl]
  have hdelta : hasDelta d name (p ++ [k]) = false := by
    unfold hasDelta
    rw [← Bool.not_eq_true, Disk.lexists_eq rfl (Disk.noLinkAbove_of_dir hparent)]
    exact fun hne => hne hnone
  have hinh : Manager.inheritedKind { m' with disk := d } b' (p ++ [k]) = none ↔
      m.inheritedKind b (p ++ [k]) = none :=
    inheritedKind_of_own { m' with disk := d } (hst k) hb hb' h.adds.forest
      (h.adds.same.trans (sameOn_of_own (own_files name) hd))
  have hdel : b'.isDeleted (p ++ [k]) = (b.removeTombstone p).isDeleted (p ++ [k]) := by
    simp only [Branch.isDeleted, Branch.removeTombstone, hts]
  rw [Manager.kindOf_eq (m := { m' with disk := d }) hb', hdel]
  simp only [hdelta, Bool.false_eq_true, if_false]
  split
  · next hdel' => simp [hdel']
  · next hdel' => rw [hinh]; simp [hdel']

/-- **`mkdir` over a name that is not shown** makes an empty directory, unless copy-on-write brings
anything up or the tombstone it drops was all that hid an inherited entry below. -/
theorem makeDir_makes (mode : Nat) (h : NewName m name b dir n)
    (hst : m.broughtUp b (dir ++ [n]) = none → ∀ k, Straight m name (dir ++ [n] ++ [k])) :
    Makes m name (dir ++ [n]) .dir (makeDir name (dir ++ [n]) mode) ↔
      m.broughtUp b (dir ++ [n]) = none ∧
        (m.refuses b (dir ++ [n]) = true ∨ HiddenBelow m b (dir ++ [n])) := by
  have hp : dir ++ [n] ≠ [] := by simp
  rcases ensure_cases h with ⟨href, hq, m₁, hm₁, hv⟩ | ⟨href, m₁, hm₁, hens⟩
  · refine iff_of_true (Makes.of_error (e := Errno.EIO) ?_ hq hv) ⟨broughtUp_of_refuses href, Or.inl href⟩
    rw [makeDir, bind_error hm₁]
  · have hcopy := hens.at_delta
    cases hup : m.broughtUp b (dir ++ [n]) with
    | none =>
      rw [hup] at hcopy
      obtain ⟨d, hd, hadd⟩ :=
        Posix.Sys.createDirAll_of_free (r := .files name) rfl (hens.parent_dir hp) hcopy
      let d' := after (Posix.Sys.setPermissions (deltaPath name (dir ++ [n])) mode) d
      have hrun : makeDir name (dir ++ [n]) mode m = .ok () { m₁ with disk := d' } := by
        rw [makeDir, bind_ok hm₁, bind_ok (ioOrEio_ok hd), ignoring_eq]
      have hk : ∀ x, d'.kindAt x =
          if x = deltaPath name (dir ++ [n]) then some .dir else m₁.disk.kindAt x := by
        intro x
        show (after (Posix.Sys.setPermissions _ _) d).kindAt x = _
        rw [Posix.Sys.setPermissions, Posix.Sys.kindAt_setAttr, Disk.kindAt_add hadd]
      have hdk : d.kindAt (deltaPath name (dir ++ [n])) = some .dir := by
        rw [Disk.kindAt_add hadd, if_pos rfl]
      have hsame : SameOn (fun r => r ≠ some (.files name)) m₁.disk d' := by
        refine (Disk.sameOn_add hadd (by simp [deltaPath])).trans ?_
        exact (Posix.Sys.setAttr_confined _ (r := .files name) rfl
          (Disk.noLinkAbove_of_dir (Disk.dir_parent (by simp [hdk])))
          (Disk.linkAt_eq_false_of_kind hdk rfl)).1
      have hv : Manager.view { m₁ with disk := d' } name (dir ++ [n]) = some .dir :=
        hens.view (by rw [hk, if_pos rfl])
      have hbelow := kindOf_below_madeDir h.free.free h.branch hens (hst hup) hsame hk
      have hiff := (view_below_dir hv).trans hbelow
      constructor
      · intro hmakes
        exact ⟨rfl, Or.inr (hiff.mp (hmakes.shows _ hrun).2)⟩
      · rintro ⟨_, hor⟩
        rw [href] at hor
        exact Makes.of_ok hrun hv (hiff.mpr (hor.resolve_left (by simp)))
    | some k =>
      rw [hup] at hcopy
      obtain ⟨k', hk', hshape⟩ := hcopy
      have hne : k' ≠ .dir := by
        rintro rfl
        rcases hshape with heq | ⟨_, hfile⟩
        · exact broughtUp_ne_dir (heq ▸ hup)
        · cases hfile
      refine iff_of_false ?_ (by simp)
      -- what came up stays: the name is taken, and a link to a directory even passes for one
      have hstay : (after (Posix.Sys.createDirAll (deltaPath name (dir ++ [n]))) m₁.disk).kindAt
          (deltaPath name (dir ++ [n])) = some k' := by
        rw [Posix.Sys.after_createDirAll_of_taken (r := .files name) rfl (by simp [hk']), hk']
      refine Makes.not_of_other k' ?_ hne
      unfold after at hstay ⊢
      rw [makeDir, bind_ok hm₁]
      cases ho : Posix.Sys.createDirAll (deltaPath name (dir ++ [n])) m₁.disk with
      | error e d =>
        rw [ho] at hstay
        rw [bind_error (ioOrEio_error ho)]
        exact hens.view hstay
      | ok hd d =>
        rw [ho] at hstay
        rw [bind_ok (ioOrEio_ok ho), ignoring_eq]
        refine hens.view ?_
        rw [Posix.Sys.setPermissions, Posix.Sys.kindAt_setAttr]
        exact hstay

end NewName

/-! ## Over a deleted name -/

/-- Every handler makes its entry over every missing name, whatever happened before. -/
def MakesOverDeleted : Prop :=
  ∀ m, Reachable m → ∀ name b dir n, NewName m name b dir n → ∀ mode target,
    Makes m name (dir ++ [n]) (.file []) (createFile name (dir ++ [n]) mode) ∧
    Makes m name (dir ++ [n]) .dir (makeDir name (dir ++ [n]) mode) ∧
    Makes m name (dir ++ [n]) (.symlink target) (makeSymlink name (dir ++ [n]) target)

/-- **When the handlers make their entries.** `create` does unless an inherited link comes up,
`symlink` unless an inherited link or file comes up, and `mkdir` if nothing comes up and another
tombstone covers whatever is inherited right below the name. -/
theorem makes_over_deleted_iff {m : Manager} {name : String} {b : Branch} {dir : RelPath} {n : String}
    (h : NewName m name b dir n)
    (hst : m.broughtUp b (dir ++ [n]) = none → ∀ k, Straight m name (dir ++ [n] ++ [k]))
    (mode : Nat) (target : Target) :
    (Makes m name (dir ++ [n]) (.file []) (createFile name (dir ++ [n]) mode) ↔
      ∀ t, m.broughtUp b (dir ++ [n]) ≠ some (.symlink t)) ∧
    (Makes m name (dir ++ [n]) .dir (makeDir name (dir ++ [n]) mode) ↔
      m.broughtUp b (dir ++ [n]) = none ∧
        (m.refuses b (dir ++ [n]) = true ∨ HiddenBelow m b (dir ++ [n]))) ∧
    (Makes m name (dir ++ [n]) (.symlink target) (makeSymlink name (dir ++ [n]) target) ↔
      m.broughtUp b (dir ++ [n]) = none) :=
  ⟨createFile_makes mode h, makeDir_makes mode h hst, makeSymlink_makes target h⟩

theorem canCapture_of_empty {d : Tree} {name : String}
    (h : ∀ e ∈ d.entries, e.1.root ≠ some (.touchContent name)) : CanCapture d name := by
  intro key
  left
  unfold Disk.kindAt Disk.get touchContentPath
  cases hl : d.entries.lookup ⟨some (.touchContent name), [key]⟩ with
  | none => simp
  | some k => exact absurd rfl (h _ (mem_of_lookup hl))

/-- A branch that deleted a file of the base. -/
def deletedFile : Manager :=
  run step (Manager.init .bare)
    [.host (.write ["f"] [120]), .create "b" "main" .lazy [], .file "b" (.unlink [] "f")]

/-- Its record of the branch. -/
def deletedFileBranch : Branch :=
  (deletedFile.forest.get? "b").getD mainBranch

theorem deletedFile_newName : NewName deletedFile "b" deletedFileBranch [] "f" where
  branch := by decide
  writable := by decide
  shown := by decide
  missing := by decide
  capture := canCapture_of_empty (by decide)
  straight := by unfold Straight; decide

/-- A link made over the deleted file fails, and the file is back. -/
theorem not_makesOverDeleted : ¬ MakesOverDeleted := by
  intro h
  have hmakes := (h deletedFile ⟨_, _, rfl⟩ "b" deletedFileBranch [] "f" deletedFile_newName 0
    ⟨true, []⟩).2.2
  have hup : deletedFile.broughtUp deletedFileBranch ["f"] = some (.file [120]) := by decide
  have := (makeSymlink_makes _ deletedFile_newName).mp hmakes
  rw [List.nil_append, hup] at this
  cases this

/-- Over the deleted file `create` works, `mkdir` and `symlink` do not. -/
theorem makes_over_deletedFile :
    Makes deletedFile "b" ["f"] (.file []) (createFile "b" ["f"] 0o644) ∧
    ¬ Makes deletedFile "b" ["f"] .dir (makeDir "b" ["f"] 0o755) ∧
    ¬ Makes deletedFile "b" ["f"] (.symlink ⟨true, []⟩) (makeSymlink "b" ["f"] ⟨true, []⟩) := by
  have hup : deletedFile.broughtUp deletedFileBranch ([] ++ ["f"]) = some (.file [120]) := by decide
  have hiff := makes_over_deleted_iff deletedFile_newName (fun hnone => by rw [hup] at hnone; cases hnone)
  refine ⟨(hiff 0o644 ⟨true, []⟩).1.mpr ?_, ?_, ?_⟩
  · intro t
    rw [hup]
    simp
  · intro hmakes
    have := ((hiff 0o755 ⟨true, []⟩).2.1.mp hmakes).1
    rw [hup] at this
    cases this
  · intro hmakes
    have := (hiff 0o755 ⟨true, []⟩).2.2.mp hmakes
    rw [hup] at this
    cases this

end BranchFs
