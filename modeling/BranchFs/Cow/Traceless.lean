/-
# BranchFs.Cow.Traceless -- what a failed copy-on-write leaves behind

Copy-on-write records the touch first, and nothing takes the record back: whatever fails afterwards, a
path touched for the first time keeps it. `ensure_delta_path_for_write` copies straight into the delta,
so a copy that fails halfway leaves what it wrote where it is shown; `write_data_to_branch` copies aside
and removes the copy. The write through the delta path drops the tombstone before it asks the quota.
-/
import BranchFs.Cow.Write
import BranchFs.Model.Faults

namespace BranchFs

open BranchFs.Posix BranchFs.Logic

/-! ## A host that fails where it is not asked -/

namespace Faulty

section Ok

variable {f : Faults}

/-- A copy that is to fail does. -/
theorem copyFile_fails (hf : f.copy ≠ none) (src dst : Place) (d d' : Tree) :
    copyFile f src dst d ≠ .ok () d' := by
  intro hok
  unfold copyFile at hok
  cases hc : f.copy with
  | none => exact hf hc
  | some made =>
    rw [hc] at hok
    cases made with
    | none => cases hok
    | some j =>
      obtain ⟨_, _, _, hrest⟩ := bind_eq_ok hok
      obtain ⟨_, _, _, hlast⟩ := bind_eq_ok hrest
      cases hlast

theorem copyFile_of_ok {src dst : Place} {d d' : Tree} (hok : copyFile f src dst d = .ok () d') :
    Posix.Sys.copyFile src dst d = .ok () d' := by
  by_cases hf : f.copy = none
  · unfold copyFile at hok
    rw [hf] at hok
    exact hok
  · exact absurd hok (copyFile_fails hf src dst d d')

theorem copyNode_of_ok {src dst : Place} {n : Node String} {d d' : Tree}
    (hok : copyNode f src dst n d = .ok () d') : Io.copyNode src dst n d = .ok () d' := by
  unfold copyNode at hok
  unfold Io.copyNode
  cases hk : n.kind with
  | symlink t =>
    rw [hk] at hok
    exact hok
  | dir =>
    rw [hk] at hok
    exact copyFile_of_ok hok
  | file c =>
    rw [hk] at hok
    exact copyFile_of_ok hok

theorem copyUpInherited_of_ok {delta : Place} {inherited : Option Place} {m m' : Manager}
    (hok : copyUpInherited f delta inherited m = .ok () m') :
    BranchFs.copyUpInherited delta inherited m = .ok () m' := by
  cases inherited with
  | none => exact hok
  | some src =>
    change copyUp f src delta m = .ok () m' at hok
    show BranchFs.copyUp src delta m = .ok () m'
    rw [copyUp, readDisk_bind] at hok
    rw [BranchFs.copyUp, readDisk_bind]
    cases hl : m.disk.lstat src with
    | error e =>
      rw [hl] at hok
      exact hok
    | ok n =>
      rw [hl] at hok
      dsimp only at hok ⊢
      split at hok
      · next hdir =>
        rw [if_pos hdir]
        exact hok
      · next hdir =>
        rw [if_neg hdir]
        obtain ⟨_, m₁, hcheck, hrest⟩ := bind_eq_ok hok
        obtain ⟨_, m₂, hcopy, hadd⟩ := bind_eq_ok hrest
        have hplain : onDisk (Io.copyEntry src delta) m₁ = .ok () m₂ := by
          unfold onDisk at hcopy ⊢
          split at hcopy
          · next d hd =>
            obtain ⟨_, d₁, hdirs, hentry⟩ := bind_eq_ok hd
            obtain ⟨k, d₂, hlook, hnode⟩ := bind_eq_ok hentry
            have hcopied : Io.copyEntry src delta m₁.disk = .ok () d :=
              (bind_ok hdirs).trans ((bind_ok hlook).trans (copyNode_of_ok hnode))
            rw [hcopied]
            exact hcopy
          · cases hcopy
        exact (bind_ok hcheck).trans ((bind_ok hplain).trans hadd)

/-- **Copy-on-write that returns Ok** has met no fault. -/
theorem ensureDeltaPathForWrite_of_ok {branch : String} {p : RelPath} {l : Place} {m m' : Manager}
    (hok : ensureDeltaPathForWrite f branch p m = .ok l m') :
    BranchFs.ensureDeltaPathForWrite branch p m = .ok l m' := by
  obtain ⟨_, m₁, hw, hrest⟩ := bind_eq_ok hok
  rw [readDisk_bind] at hrest
  obtain ⟨_, m₂, htouch, htail⟩ := bind_eq_ok hrest
  have hplain : when (¬ m₁.disk.lexists (deltaPath branch p)) (BranchFs.touchAndCopyUp branch p) m₁ =
      .ok () m₂ := by
    unfold when at htouch ⊢
    split at htouch
    · next hc =>
      rw [if_pos hc]
      obtain ⟨inherited, m₃, hinh, hrec⟩ := bind_eq_ok htouch
      obtain ⟨_, m₄, hrecord, hcopy⟩ := bind_eq_ok hrec
      exact (bind_ok hinh).trans ((bind_ok hrecord).trans (copyUpInherited_of_ok hcopy))
    · next hc =>
      rw [if_neg hc]
      exact htouch
  refine (bind_ok hw).trans ?_
  rw [readDisk_bind]
  exact (bind_ok hplain).trans htail

/-- Copy-on-write answers with the delta path. -/
theorem ensureDelta_place {name : String} {p : RelPath} {l : Place} {m m' : Manager}
    (hok : ensureDeltaPathForWrite f name p m = .ok l m') : l = deltaPath name p := by
  obtain ⟨_, _, _, hrest⟩ := bind_eq_ok hok
  obtain ⟨_, _, _, hrest⟩ := bind_eq_ok hrest
  obtain ⟨_, _, _, hrest⟩ := bind_eq_ok hrest
  obtain ⟨_, _, _, hrest⟩ := bind_eq_ok hrest
  obtain ⟨_, _, _, hlast⟩ := bind_eq_ok hrest
  cases hlast
  rfl

end Ok

end Faulty

/-! ## What a failure may leave -/

/-- The delta's files and links, the tombstones, the touch records and the quota are what they were. -/
structure NoTrace (m m' : Manager) (name : String) : Prop where
  delta : ∀ q, leaf .dir (deltaKind m'.disk name q) = leaf .dir (deltaKind m.disk name q)
  tombstones : (m'.forest.get? name).map Branch.tombstones =
    (m.forest.get? name).map Branch.tombstones
  touches : (m'.forest.get? name).map Branch.touches = (m.forest.get? name).map Branch.touches
  quota : m'.quota = m.quota

theorem NoTrace.refl (m : Manager) (name : String) : NoTrace m m name := ⟨fun _ => rfl, rfl, rfl, rfl⟩

/-- Dropping a tombstone that is not there changes nothing. -/
theorem removeTombstone_idle (b : Branch) (p : RelPath) :
    (b.removeTombstone p).tombstones = b.tombstones ↔ p ∉ b.tombstones := by
  unfold Branch.removeTombstone
  rw [List.filter_eq_self]
  constructor
  · intro hall hp
    simpa using hall p hp
  · intro hp t htm
    have hne : t ≠ p := fun heq => hp (heq ▸ htm)
    simpa using hne

theorem writableBranch_frozen {m : Manager} {name : String} {b : Branch}
    (hb : m.forest.get? name = some b) (hw : b.isWritable = false) : writableBranch name m =
      .error (.invalid ("branch '" ++ name ++ "' is frozen/read-only")) m := by
  simp only [writableBranch, hb, hw, Bool.false_eq_true, if_false]

section Touch

variable {m m₁ m' : Manager} {name : String} {b : Branch} {p : RelPath}

/-- The touch of a path with a record does nothing; any other adds one. -/
def Records (name : String) (b : Branch) (p : RelPath) (m m₁ : Manager) : Prop :=
  (HasRecord b p ∧ m₁ = m) ∨
    (¬ HasRecord b p ∧ ∃ b₁, m₁.forest.get? name = some b₁ ∧ b₁.touches ≠ b.touches)

theorem records_of_touch {inherited : Option Place} (hb : m.forest.get? name = some b)
    (hcap : CanCapture m.disk name) (hinh : ∀ l, inherited = some l → m.disk.lkind l ≠ none)
    (hrec : recordFirstTouch name p inherited true m = .ok () m₁) : Records name b p m m₁ := by
  unfold recordFirstTouch at hrec
  rw [bind_ok (getBranch_ok hb)] at hrec
  by_cases hr : (b.getTouchRecord p).isSome = true
  · rw [if_pos hr] at hrec
    cases hrec
    exact Or.inl ⟨hr, rfl⟩
  · rw [if_neg hr, addTouchRecord, readDisk_bind] at hrec
    obtain ⟨key, d, hkey, _⟩ := captureBaseContent_ok (p := p) hcap hinh
    rw [bind_ok (show contentKey name p inherited true m = .ok key { m with disk := d } from hkey)]
      at hrec
    cases hrec
    refine Or.inr ⟨hr, _, Forest.get?_modify_self hb rfl rfl, fun heq => ?_⟩
    exact absurd (congrArg List.length heq) (by simp)

/-- A failure after the touch that left the record of the branch alone. -/
theorem Records.noTrace_iff (h : Records name b p m m₁) (ht : Touched name m m₁)
    (hb : m.forest.get? name = some b) (hforest : m'.forest = m₁.forest)
    (hquota : m'.quota = m.quota)
    (hleaf : ∀ q, leaf .dir (deltaKind m'.disk name q) = leaf .dir (deltaKind m.disk name q)) :
    NoTrace m m' name ↔ HasRecord b p := by
  rcases h with ⟨hr, rfl⟩ | ⟨hr, b₁, hb₁, hne⟩
  · refine iff_of_true ⟨hleaf, by rw [hforest], by rw [hforest], hquota⟩ hr
  · refine iff_of_false (fun hno => hne ?_) hr
    have htouches := hno.touches
    rw [hforest, hb₁, hb] at htouches
    exact Option.some.inj htouches

/-- A failure after the touch, with the tombstone of the path dropped. -/
theorem Records.noTrace_dropped_iff (h : Records name b p m m₁) (ht : Touched name m m₁)
    (hb : m.forest.get? name = some b)
    (hforest : m'.forest = m₁.forest.modify name (Branch.removeTombstone p))
    (hquota : m'.quota = m.quota)
    (hleaf : ∀ q, leaf .dir (deltaKind m'.disk name q) = leaf .dir (deltaKind m.disk name q)) :
    NoTrace m m' name ↔ HasRecord b p ∧ p ∉ b.tombstones := by
  obtain ⟨b₂, hb₂, _, hts⟩ := ht.get? hb
  have hb' : m'.forest.get? name = some (b₂.removeTombstone p) := by
    rw [hforest]
    exact Forest.get?_modify_self hb₂ rfl rfl
  have hfilter : (b₂.removeTombstone p).tombstones = b.tombstones ↔ p ∉ b.tombstones := by
    rw [← hts]
    exact removeTombstone_idle b₂ p
  constructor
  · intro hno
    have htomb := hno.tombstones
    have htouches := hno.touches
    rw [hb', hb] at htomb htouches
    refine ⟨?_, hfilter.mp (Option.some.inj htomb)⟩
    rcases h with ⟨hr, _⟩ | ⟨_, b₁, hb₁, hne⟩
    · exact hr
    · rw [hb₂] at hb₁
      obtain rfl := Option.some.inj hb₁
      exact absurd (Option.some.inj htouches) hne
  · rintro ⟨hr, hp⟩
    rcases h with ⟨_, rfl⟩ | ⟨hno, _⟩
    · rw [hb] at hb₂
      obtain rfl := Option.some.inj hb₂
      refine ⟨hleaf, ?_, ?_, hquota⟩
      · rw [hb', hb, Option.map_some, Option.map_some, hfilter.mpr hp]
      · rw [hb', hb]
        rfl
    · exact absurd hr hno

end Touch

section Entry

variable {d d' : Tree} {l src : Place} {name : String} {p : RelPath} {f : Faults}

/-- Directories are all that was made. -/
theorem Entered.leaves (h : Entered (deltaPath name p) none d d')
    (hfree : d.kindAt (deltaPath name p) = none) (q : RelPath) :
    leaf .dir (deltaKind d' name q) = leaf .dir (deltaKind d name q) := by
  unfold deltaKind
  rw [Disk.kindAt_eq_attr, h.attr (deltaPath name q) rfl]
  by_cases hq : deltaPath name q = deltaPath name p
  · rw [if_pos hq, hq, hfree]
    rfl
  · rw [if_neg hq]
    split
    · next hc =>
      rw [hc.2]
      exact leaf_dir.trans leaf_none.symm
    · rw [← Disk.kindAt_eq_attr]

/-- **`copy_entry`** into a free place, with its faults: nothing but directories, or a truncated file,
is left. -/
theorem copyEntry_cases (f : Faults) {n : Node String} (h : FreePlace d l)
    (hread : ∀ d₁, SameOn (fun r => r ≠ l.root) d d₁ → SameLayout d d₁ → d₁.lstat src = .ok n)
    (hn : n.kind ≠ .dir) :
    (∃ d', Faulty.copyEntry f src l d = .ok () d' ∧ Entered l (copyAttr n) d d') ∨
      ∃ d', n.kind.isFile = true ∧ Faulty.copyEntry f src l d = .error Errno.EIO d' ∧
        ((f.copy = some none ∧ Entered l none d d') ∨
          ((∃ k, f.copy = some (some k)) ∧ d'.fileAt l = true)) := by
  obtain ⟨r, hr⟩ := h.root
  obtain ⟨d₁, hd₁, hent, hmade, _⟩ := h.entered
  have hs : d₁.lstat src = .ok n := hread d₁ hent.same hent.mounts
  have hfree : d₁.kindAt l = none := MadeDirs.free hmade h.free
  have hpar : d₁.kindAt l.parent = some .dir := by rw [hmade.kind, if_pos (le_refl _)]
  have hcopy : Faulty.copyEntry f src l d = Faulty.copyNode f src l n d₁ := by
    unfold Faulty.copyEntry
    rw [bind_ok (show Io.ensureParentDirs l d = .ok () d₁ from hd₁),
      bind_ok (show Io.symlinkMetadata src d₁ = .ok n d₁ by simp only [Io.symlinkMetadata, hs])]
  have hplain : Io.copyEntry src l d = Io.copyNode src l n d₁ := by
    unfold Io.copyEntry
    rw [bind_ok (show Io.ensureParentDirs l d = .ok () d₁ from hd₁),
      bind_ok (show Io.symlinkMetadata src d₁ = .ok n d₁ by simp only [Io.symlinkMetadata, hs])]
  have same : Faulty.copyNode f src l n d₁ = Io.copyNode src l n d₁ →
      ∃ d', Faulty.copyEntry f src l d = .ok () d' ∧ Entered l (copyAttr n) d d' := by
    intro heq
    rw [hcopy, heq, ← hplain]
    exact copyEntry_entered h hread hn
  cases hk : n.kind with
  | dir => exact absurd hk hn
  | symlink t =>
    refine Or.inl (same ?_)
    unfold Faulty.copyNode Io.copyNode
    rw [hk]
  | file c =>
    have hnode : Faulty.copyNode f src l n d₁ = Faulty.copyFile f src l d₁ := by
      unfold Faulty.copyNode
      rw [hk]
    cases hf : f.copy with
    | none =>
      refine Or.inl (same ?_)
      rw [hnode]
      unfold Faulty.copyFile Io.copyNode
      rw [hf, hk]
    | some left =>
      cases left with
      | none =>
        refine Or.inr ⟨d₁, rfl, ?_, Or.inl ⟨rfl, hent⟩⟩
        rw [hcopy, hnode]
        unfold Faulty.copyFile
        rw [hf]
        rfl
      | some k =>
        have hst : d₁.stat src = .ok n := Disk.stat_of_lstat hs (by simp [hk, Kind.isSymlink])
        have hdata : Posix.Sys.readFile src d₁ = .ok c d₁ := by
          simp only [Posix.Sys.readFile, hst, hk]
        obtain ⟨d₂, hput⟩ := Disk.putFile_ok d₁ (c.take k) none hpar (Or.inl hfree)
        have hwrite : Posix.Sys.writeFile l (c.take k) d₁ = .ok () d₂ := by
          rw [Posix.Sys.writeFile, Sys.followed_of_dir hr hpar (Disk.linkAt_of_none hfree)]
          exact hput
        refine Or.inr ⟨d₂, rfl, ?_, Or.inr ⟨⟨k, rfl⟩, ?_⟩⟩
        · rw [hcopy, hnode]
          unfold Faulty.copyFile
          rw [hf]
          dsimp only
          rw [bind_ok hdata, bind_ok hwrite]
          rfl
        · unfold Disk.fileAt
          rw [Disk.kindAt_putFile hput, if_pos rfl]
          rfl

end Entry

/-- The failed write of this path in this state is undone. With a delta entry it is when no tombstone is
dropped; without one when the touch has its record already, and what the branch inherits is a file, a link
the quota keeps from being copied up, or nothing to copy and no tombstone. -/
def Manager.Undone (m : Manager) (b : Branch) (p : RelPath) : Prop :=
  if deltaKind m.disk b.name p ≠ none then p ∉ b.tombstones
  else HasRecord b p ∧
    match m.inheritedKind b p with
    | some (.file _) => True
    | some (.symlink _) => m.refuses b p = true
    | _ => p ∉ b.tombstones

section Failures

variable {m m₁ m' : Manager} {name : String} {b : Branch} {dir p : RelPath} {n : String} {f : Faults}

/-- The manager a first touch of the path leaves, together with what is known of it. -/
structure AfterTouch (m m₁ : Manager) (name : String) (b : Branch) (p : RelPath) : Prop where
  branch : m.forest.get? name = some b
  touched : Touched name m m₁
  calm : Calm m m₁
  records : Records name b p m m₁

theorem NameIn.touch (hin : NameIn m name b dir) (p : RelPath) :
    ∃ m₁, recordFirstTouch name p (m.inheritedForTouch b p) true m = .ok () m₁ ∧
      AfterTouch m m₁ name b p := by
  have hinh : ∀ l, m.inheritedForTouch b p = some l → m.disk.lkind l ≠ none :=
    fun l hl => inherited_lkind (p := p) (b := b) l hl
  obtain ⟨m₁, hrec, ht⟩ := recordFirstTouch_ok (p := p) true hin.branch hin.capture hinh
  exact ⟨m₁, hrec, hin.branch, ht, (calm_recordFirstTouch _ _).ok hrec,
    records_of_touch hin.branch hin.capture hinh hrec⟩

theorem AfterTouch.deltaKind (h : AfterTouch m m₁ name b p) (q : RelPath) :
    deltaKind m₁.disk name q = deltaKind m.disk name q := by
  unfold BranchFs.deltaKind Disk.kindAt
  rw [h.touched.delta rfl]

theorem AfterTouch.free (h : AfterTouch m m₁ name b p) (hfree : FreePlace m.disk (deltaPath name p)) :
    FreePlace m₁.disk (deltaPath name p) := hfree.of_same fun _ hx => h.touched.delta hx

/-- The ways the copy of a first touch ends: it goes through, the quota refuses it before anything is
made, or the copy fails. -/
theorem copyUp_cases (f : Faults) (hin : NameIn m name b dir)
    (hfree : deltaKind m.disk name (dir ++ [n]) = none) (ht : Touched name m m₁) (hc : Calm m m₁) :
    (m.refuses b (dir ++ [n]) = false ∧ ∃ m₂ d,
      Faulty.copyUpInherited f (deltaPath name (dir ++ [n]))
        (m.inheritedForTouch b (dir ++ [n])) m₁ = .ok () m₂ ∧
      Posix.Sys.createDirAll (deltaPath name (dir ++ [n])).parent m₂.disk = .ok () d) ∨
    (m.refuses b (dir ++ [n]) = true ∧ Faulty.copyUpInherited f (deltaPath name (dir ++ [n]))
        (m.inheritedForTouch b (dir ++ [n])) m₁ = .error (.io .ENOSPC) m₁) ∨
    (m.refuses b (dir ++ [n]) = false ∧
      (∃ node, m.inheritedNode b (dir ++ [n]) = some node ∧ node.kind.isFile = true) ∧
      ∃ d, Faulty.copyUpInherited f (deltaPath name (dir ++ [n]))
        (m.inheritedForTouch b (dir ++ [n])) m₁ = .error (.io Errno.EIO) { m₁ with disk := d } ∧
      ((f.copy = some none ∧ Entered (deltaPath name (dir ++ [n])) none m₁.disk d) ∨
        ((∃ k, f.copy = some (some k)) ∧ d.fileAt (deltaPath name (dir ++ [n])) = true))) := by
  have hplace : FreePlace m₁.disk (deltaPath name (dir ++ [n])) :=
    (hin.free hfree).of_same fun x hx => ht.delta hx
  have idle : Faulty.copyUpInherited f (deltaPath name (dir ++ [n]))
        (m.inheritedForTouch b (dir ++ [n])) m₁ = .ok () m₁ →
      ∃ m₂ d, Faulty.copyUpInherited f (deltaPath name (dir ++ [n]))
          (m.inheritedForTouch b (dir ++ [n])) m₁ = .ok () m₂ ∧
        Posix.Sys.createDirAll (deltaPath name (dir ++ [n])).parent m₂.disk = .ok () d := by
    intro hok
    obtain ⟨d, hd, _⟩ := hplace.parentDirs
    exact ⟨m₁, d, hok, hd⟩
  cases hsrc : m.inheritedForTouch b (dir ++ [n]) with
  | none =>
    rw [hsrc] at idle
    exact Or.inl ⟨by simp [Manager.refuses, Manager.inheritedNode, hsrc], idle rfl⟩
  | some src =>
    rw [hsrc] at idle
    obtain ⟨node, hnode⟩ := inheritedNode_of_some hsrc
    have hread : StillReads name m₁ src node := fun d hd hl =>
      hin.unseen.lstat hin.branch (ht.adds.same.trans (sameOn_of_own (own_files name) hd))
        (SameLayout.trans hc.1 hl) hsrc hnode
    have hrun : Faulty.copyUpInherited f (deltaPath name (dir ++ [n])) (some src) m₁ =
        if node.kind.isDir then .ok () m₁
        else Faulty.copyUpNode f src (deltaPath name (dir ++ [n])) node m₁ := by
      show Faulty.copyUp f src (deltaPath name (dir ++ [n])) m₁ = _
      rw [Faulty.copyUp, readDisk_bind, hread.now]
      dsimp only
      split <;> rfl
    by_cases hdir : node.kind = .dir
    · rw [if_pos (by simp [hdir])] at hrun
      exact Or.inl ⟨by simp [Manager.refuses, hnode, hdir, Kind.isDir], idle hrun⟩
    · rw [if_neg (by simpa using hdir)] at hrun
      rw [hrun]
      have hrefuses : m.refuses b (dir ++ [n]) = !m.quota.check (metaLen node) := by
        unfold Manager.refuses
        rw [hnode]
        cases hk : node.kind with
        | dir => exact absurd hk hdir
        | file c => simp [hk, Kind.isDir]
        | symlink t => simp [hk, Kind.isDir]
      unfold Faulty.copyUpNode
      cases hcheck : m.quota.check (metaLen node) with
      | false =>
        refine Or.inr (Or.inl ⟨by rw [hrefuses, hcheck]; rfl, ?_⟩)
        have hq : quotaCheck (metaLen node) m₁ = .error (.io .ENOSPC) m₁ := by
          simp only [quotaCheck, ht.quota, hcheck, Bool.false_eq_true, if_false]
        rw [bind_error hq]
      | true =>
        have hq : quotaCheck (metaLen node) m₁ = .ok () m₁ := by
          simp only [quotaCheck, ht.quota, hcheck, if_true]
        rw [bind_ok hq]
        rcases copyEntry_cases f hplace hread hdir with ⟨d, hd, hent⟩ | ⟨d, hfile, hd, hleft⟩
        · refine Or.inl ⟨by rw [hrefuses, hcheck]; rfl, _, d, by rw [bind_ok (onDisk_ok hd)]; rfl, ?_⟩
          have hthere : d.kindAt (deltaPath name (dir ++ [n])) ≠ none := by
            intro hnone
            have hattr := Disk.attrAt_eq_none.mpr hnone
            rw [hent.attr _ rfl, if_pos rfl] at hattr
            unfold copyAttr at hattr
            split at hattr
            · next hk => exact hdir hk
            · cases hattr
            · cases hattr
          exact Sys.createDirAll_of_dir rfl (Disk.dir_parent hthere)
        · exact Or.inr (Or.inr ⟨by rw [hrefuses, hcheck]; rfl, ⟨node, hnode, hfile⟩, d,
            by rw [bind_error (onDisk_error hd)], hleft⟩)

/-- Copy-on-write that brings something up had room for it, and a host that copies files. -/
theorem ensureDelta_room (h : NameIn m name b dir)
    (hfree : deltaKind m.disk name (dir ++ [n]) = none) {node : Node String}
    (hnode : m.inheritedNode b (dir ++ [n]) = some node) (hdir : node.kind ≠ .dir) {l : Place}
    (hok : Faulty.ensureDeltaPathForWrite f name (dir ++ [n]) m = .ok l m') :
    m.refuses b (dir ++ [n]) = false ∧ ∀ c, node.kind = .file c → f.copy = none := by
  obtain ⟨m₁, hrec, ht⟩ := h.touch (dir ++ [n])
  have hno : m.disk.lexists (deltaPath name (dir ++ [n])) = false := by
    rw [← Bool.not_eq_true, h.lexists, not_not]
    exact hfree
  obtain ⟨src, hsrc⟩ : ∃ src, m.inheritedForTouch b (dir ++ [n]) = some src := by
    cases hsrc : m.inheritedForTouch b (dir ++ [n]) with
    | none => simp [Manager.inheritedNode, hsrc] at hnode
    | some src => exact ⟨src, rfl⟩
  have hread : StillReads name m₁ src node := fun d hd hl =>
    h.unseen.lstat h.branch (ht.touched.adds.same.trans (sameOn_of_own (own_files name) hd))
      (SameLayout.trans ht.calm.1 hl) hsrc hnode
  have hnotdir : ¬ node.kind.isDir = true := by simpa using hdir
  -- down to the copy
  unfold Faulty.ensureDeltaPathForWrite at hok
  obtain ⟨_, m₀, hw, hrest⟩ := bind_eq_ok hok
  rw [writableBranch_idle hw, readDisk_bind, hno, when_true (by simp)] at hrest
  obtain ⟨_, m₂, htouch, -⟩ := bind_eq_ok hrest
  unfold Faulty.touchAndCopyUp at htouch
  rw [bind_ok (inheritedForTouch_ok h.branch), bind_ok hrec, hsrc] at htouch
  change Faulty.copyUp f src (deltaPath name (dir ++ [n])) m₁ = .ok () m₂ at htouch
  rw [Faulty.copyUp, readDisk_bind, hread.now] at htouch
  dsimp only at htouch
  rw [if_neg hnotdir] at htouch
  obtain ⟨_, m₃, hcheck, hcopying⟩ := bind_eq_ok htouch
  have hroom : m.quota.check (metaLen node) = true := by
    unfold quotaCheck at hcheck
    rw [ht.touched.quota] at hcheck
    split at hcheck
    · next hroom => exact hroom
    · cases hcheck
  refine ⟨by simp [Manager.refuses, hnode, hroom], fun c hfile => ?_⟩
  by_contra hf
  rw [quotaCheck_idle hcheck] at hcopying
  obtain ⟨_, m₄, hdisk, -⟩ := bind_eq_ok hcopying
  obtain ⟨d, hcopy⟩ : ∃ d, Faulty.copyEntry f src (deltaPath name (dir ++ [n])) m₁.disk = .ok () d := by
    unfold onDisk at hdisk
    split at hdisk
    · next hd => exact ⟨_, hd⟩
    · cases hdisk
  obtain ⟨d₁, hdirs, hent, -⟩ := (ht.free (h.free hfree)).entered
  unfold Faulty.copyEntry at hcopy
  rw [bind_ok (show Io.ensureParentDirs (deltaPath name (dir ++ [n])) m₁.disk = .ok () d₁ from hdirs)]
    at hcopy
  have hlook : Io.symlinkMetadata src d₁ = .ok node d₁ := by
    simp only [Io.symlinkMetadata, hread d₁ hent.same hent.mounts]
  rw [bind_ok hlook] at hcopy
  unfold Faulty.copyNode at hcopy
  rw [hfile] at hcopy
  exact Faulty.copyFile_fails hf src _ d₁ d hcopy

/-- **When a failed copy-on-write leaves no trace.** -/
theorem ensure_noTrace_iff (hin : NameIn m name b dir) {e : BranchError}
    (herr : Faulty.ensureDeltaPathForWrite f name (dir ++ [n]) m = .error e m') :
    NoTrace m m' name ↔
      b.isWritable = false ∨
        (HasRecord b (dir ++ [n]) ∧ (m.refuses b (dir ++ [n]) = true ∨ f.copy = some none)) := by
  unfold Faulty.ensureDeltaPathForWrite at herr
  cases hw : b.isWritable with
  | false =>
    rw [bind_error (writableBranch_frozen hin.branch hw)] at herr
    cases herr
    exact iff_of_true (NoTrace.refl m name) (Or.inl rfl)
  | true =>
    rw [bind_ok (writableBranch_ok hin.branch hw), readDisk_bind] at herr
    have hcond : (true = false ∨ (HasRecord b (dir ++ [n]) ∧
        (m.refuses b (dir ++ [n]) = true ∨ f.copy = some none))) ↔
        HasRecord b (dir ++ [n]) ∧ (m.refuses b (dir ++ [n]) = true ∨ f.copy = some none) := by
      simp
    rw [hcond]
    have finish : ∀ {m₂ : Manager} {d : Tree},
        Posix.Sys.createDirAll (deltaPath name (dir ++ [n])).parent m₂.disk = .ok () d →
        (do
          modifyBranch name (Branch.removeTombstone (dir ++ [n]))
          onDisk (Io.ensureParentDirs (deltaPath name (dir ++ [n])))
          pure (deltaPath name (dir ++ [n])) : Mgr Place) m₂ ≠ .error e m' := by
      intro m₂ d hd heq
      let m₃ : Manager :=
        { m₂ with forest := m₂.forest.modify name (Branch.removeTombstone (dir ++ [n])) }
      rw [bind_ok (show modifyBranch name (Branch.removeTombstone (dir ++ [n])) m₂ = .ok () m₃ from rfl),
        bind_ok (show onDisk (Io.ensureParentDirs (deltaPath name (dir ++ [n]))) m₃ =
          .ok () { m₃ with disk := d } from onDisk_ok hd)] at heq
      cases heq
    by_cases hk : deltaKind m.disk name (dir ++ [n]) = none
    · have hno : m.disk.lexists (deltaPath name (dir ++ [n])) = false := by
        rw [← Bool.not_eq_true, hin.lexists, not_not]
        exact hk
      obtain ⟨m₁, hrec, htouch⟩ := hin.touch (dir ++ [n])
      have hstart : ∀ r, Faulty.copyUpInherited f (deltaPath name (dir ++ [n]))
          (m.inheritedForTouch b (dir ++ [n])) m₁ = r →
          Faulty.touchAndCopyUp f name (dir ++ [n]) m = r := by
        intro r hr
        rw [Faulty.touchAndCopyUp, bind_ok (inheritedForTouch_ok hin.branch), bind_ok hrec, hr]
      rw [hno, when_true (by simp)] at herr
      rcases copyUp_cases f hin hk htouch.touched htouch.calm with ⟨-, m₂, d, hok, hd⟩ | ⟨hroom, hrun⟩ |
          ⟨hroom, -, d, hrun, hleft⟩
      · rw [bind_ok (hstart _ hok)] at herr
        exact absurd herr (finish hd)
      · rw [bind_error (hstart _ hrun)] at herr
        cases herr
        rw [htouch.records.noTrace_iff htouch.touched hin.branch rfl htouch.touched.quota fun q => by
          rw [htouch.deltaKind]]
        simp [hroom]
      · rw [bind_error (hstart _ hrun)] at herr
        cases herr
        rcases hleft with ⟨hf, hent⟩ | ⟨⟨k, hf⟩, hfile⟩
        · have hfree₁ : m₁.disk.kindAt (deltaPath name (dir ++ [n])) = none := (htouch.deltaKind _).trans hk
          have hiff : NoTrace m { m₁ with disk := d } name ↔ HasRecord b (dir ++ [n]) := by
            refine htouch.records.noTrace_iff htouch.touched hin.branch rfl htouch.touched.quota fun q => ?_
            rw [← htouch.deltaKind q]
            exact hent.leaves hfree₁ q
          rw [hiff]
          simp [hf]
        · refine iff_of_false (fun hno => ?_) (by simp [hroom, hf])
          -- the truncated copy is a file where there was none
          have hleaf := hno.delta (dir ++ [n])
          obtain ⟨c, hc'⟩ := Disk.fileAt_iff.mp hfile
          rw [hk, leaf_none, leaf_eq_none] at hleaf
          rcases hleaf with hleaf | hleaf
          · exact absurd (hc'.symm.trans hleaf) (by simp)
          · exact absurd (hc'.symm.trans hleaf) (by simp)
    · exfalso
      rw [hin.lexists.mpr hk, when_false (by simp),
        bind_ok (show (pure ⟨⟩ : Mgr PUnit) m = .ok ⟨⟩ m from rfl)] at herr
      exact finish (Sys.createDirAll_of_dir rfl (Disk.dir_parent hk)) herr

/-! ## The write -/

/-- A failed `open` for writing leaves the disk as it was. -/
theorem openWrite_error {l : Place} {create trunc : Bool} {d d' : Tree} {e : Errno}
    (h : Posix.Sys.openWrite l create trunc d = .error e d') : d' = d := by
  unfold Posix.Sys.openWrite Posix.Sys.followed at h
  split at h
  · cases h
    rfl
  · unfold Posix.Sys.openWriteAt at h
    split at h
    · split at h
      · cases h
        rfl
      · cases h
        rfl
      · cases h
    · split at h
      · split at h
        · cases h
        · cases h
          rfl
      · cases h
        rfl

/-- The write through the delta path drops the tombstone; where it fails this is all it does. -/
theorem writeInPlace_error {off : Nat} {data : Bytes} {e : BranchError}
    (h : writeInPlace name p off data m = .error e m') :
    m' = { m with forest := m.forest.modify name (Branch.removeTombstone p) } := by
  unfold writeInPlace at h
  let m₁ : Manager := { m with forest := m.forest.modify name (Branch.removeTombstone p) }
  rw [bind_ok (show modifyBranch name (Branch.removeTombstone p) m = .ok () m₁ from rfl),
    readDisk_bind] at h
  rcases bind_eq_error h with hcheck | ⟨_, m₂, hcheck, hrest⟩
  · unfold when at hcheck
    split at hcheck
    · unfold quotaCheck at hcheck
      split at hcheck
      · cases hcheck
      · injection hcheck with _ hm
        exact hm.symm
    · cases hcheck
  · rw [when_idle (fun _ => quotaCheck_idle) hcheck] at hrest
    rcases bind_eq_error hrest with hwrite | ⟨written, m₃, _, hrest₂⟩
    · unfold onDisk at hwrite
      split at hwrite
      · cases hwrite
      · next e' d hx =>
        rcases bind_eq_error hx with hopen | ⟨_, _, _, hpwrite⟩
        · obtain rfl := openWrite_error hopen
          cases hwrite
          rfl
        · cases hpwrite
    · rw [readDisk_bind] at hrest₂
      rcases bind_eq_error hrest₂ with hadd | ⟨_, _, _, hpure⟩
      · unfold when at hadd
        split at hadd <;> cases hadd
      · cases hpure

/-- The write of a path without delta that brings nothing up makes directories first. -/
theorem writeFirstPlain_error {off : Nat} {data : Bytes} {e : BranchError}
    (hfree : FreePlace m.disk (deltaPath name p))
    (h : writeFirstPlain name p off data m = .error e m') :
    m'.forest = m.forest.modify name (Branch.removeTombstone p) ∧ m'.quota = m.quota ∧
      Entered (deltaPath name p) none m.disk m'.disk := by
  obtain ⟨d, hd, hent, _, _⟩ := hfree.entered
  rw [writeFirstPlain, bind_ok (show onDisk (Io.ensureParentDirs (deltaPath name p)) m =
    .ok () { m with disk := d } from onDisk_ok hd)] at h
  rw [writeInPlace_error h]
  exact ⟨rfl, rfl, hent⟩

/-- A rename that fails leaves the disk as it was. -/
theorem rename_error {s t : Place} {d d' : Tree} {e : Errno}
    (h : Posix.Sys.rename s t d = .error e d') : d' = d := by
  unfold Posix.Sys.rename Posix.Sys.resolved at h
  split at h
  · cases h
    rfl
  · dsimp only at h
    split at h
    · cases h
      rfl
    · next r _ _ r' _ =>
      rcases Sys.renameAt_cases r r' d with ⟨e', he⟩ | ⟨_, he⟩ | ⟨_, _, _, _, _, _, he⟩
      · rw [he] at h
        cases h
        rfl
      · rw [he] at h
        cases h
      · rw [he] at h
        cases h

/-- What the calls on the staging name do stays in the staging directory, and makes no link. -/
def StaysAside (name : String) (d d' : Tree) : Prop :=
  SameOn (fun r => r ≠ some (.staging name)) d d' ∧ NoNewLinks d d'

theorem StaysAside.trans {d d' d'' : Tree} (h : StaysAside name d d') (h' : StaysAside name d' d'') :
    StaysAside name d d'' := ⟨h.1.trans h'.1, h.2.trans h'.2⟩

theorem stagingPath_noLink (d : Tree) : d.NoLinkAbove (stagingPath name) :=
  Disk.noLinkAbove_of_dir (Disk.kindAt_root d rfl)

theorem copyFile_aside (f : Faults) (src : Place) {d : Tree}
    (hlink : d.linkAt (stagingPath name) = false) :
    StaysAside name d (after (Faulty.copyFile f src (stagingPath name)) d) := by
  have hrefl : StaysAside name d d := ⟨SameOn.refl _ d, NoNewLinks.refl d⟩
  unfold Faulty.copyFile
  split
  · exact Sys.copyFile_confined src (r := .staging name) rfl (stagingPath_noLink d) hlink
  · exact hrefl
  · next k _ =>
    cases hread : Posix.Sys.readFile src d with
    | error e d₁ =>
      have hidle : d₁ = d := by
        unfold Posix.Sys.readFile at hread
        split at hread
        · cases hread
          rfl
        · split at hread
          · cases hread
          · cases hread
            rfl
      rw [after_bind_error hread, hidle]
      exact hrefl
    | ok c d₁ =>
      have hidle : d₁ = d := by
        unfold Posix.Sys.readFile at hread
        split at hread
        · cases hread
        · split at hread
          · cases hread
            rfl
          · cases hread
      rw [after_bind_ok hread, hidle]
      have hwrite : StaysAside name d
          (after (Posix.Sys.writeFile (stagingPath name) (c.take k)) d) :=
        Sys.after_followed (r := .staging name) rfl (stagingPath_noLink d) hlink
          (P := StaysAside name d) hrefl
            (Sys.putFileAt_confined (l := stagingPath name) (d := d) (c.take k) none)
      unfold after at hwrite
      cases hw : Posix.Sys.writeFile (stagingPath name) (c.take k) d with
      | ok a d₂ =>
        rw [hw] at hwrite
        rw [after_bind_ok hw]
        exact hwrite
      | error e d₂ =>
        rw [hw] at hwrite
        rw [after_bind_error hw]
        exact hwrite

theorem writeDataToFile_aside {off : Nat} {data : Bytes} {d : Tree}
    (hlink : d.linkAt (stagingPath name) = false) :
    StaysAside name d (after (writeDataToFile (stagingPath name) off data) d) := by
  have hopen := Sys.openWrite_confined (l := stagingPath name) (d := d) true false (r := .staging name)
    rfl (stagingPath_noLink d) hlink
  unfold after at hopen
  unfold writeDataToFile
  cases ho : Posix.Sys.openWrite (stagingPath name) true false d with
  | error e d₁ =>
    rw [ho] at hopen
    rw [after_bind_error ho]
    exact hopen
  | ok h d₁ =>
    rw [ho] at hopen
    have hroot : h.root = some (.staging name) :=
      Sys.openWrite_root true false (r := .staging name) rfl (stagingPath_noLink d) hlink ho
    rw [after_bind_ok ho]
    refine StaysAside.trans hopen ⟨?_, Disk.noNewLinks_mapFile d₁ h _⟩
    exact Disk.sameOn_mapFile d₁ h _ (by simp [hroot])

/-- **A staged write that fails** has changed nothing outside the staging directory. -/
theorem stageWrite_error {src l : Place} {off : Nat} {data : Bytes} {d d' : Tree} {e : Errno}
    (hstage : d.kindAt (stagingPath name) = none)
    (h : Faulty.stageWrite f name src l off data d = .error e d') :
    SameOn (fun r => r ≠ some (.staging name)) d d' := by
  have hcopy := copyFile_aside f src (Disk.linkAt_of_none hstage)
  unfold Faulty.stageWrite at h
  dsimp only at h
  split at h
  · cases h
  · next e' d₁ hwork =>
    have hd₁ : StaysAside name d d₁ := by
      unfold after at hcopy
      rcases bind_eq_error hwork with hc | ⟨_, d₂, hc, hrest⟩
      · rw [hc] at hcopy
        exact hcopy
      · rw [hc] at hcopy
        have hlink : d₂.linkAt (stagingPath name) = false := by
          rw [← Bool.not_eq_true]
          intro hl
          have := hcopy.2 _ hl
          rw [Disk.linkAt_of_none hstage] at this
          cases this
        have hwrite : StaysAside name d₂ (after (writeDataToFile (stagingPath name) off data) d₂) :=
          writeDataToFile_aside hlink
        unfold after at hwrite
        rcases bind_eq_error hrest with hw | ⟨_, d₃, hw, hrest₂⟩
        · rw [hw] at hwrite
          exact hcopy.trans hwrite
        · rw [hw] at hwrite
          rcases bind_eq_error hrest₂ with hs | ⟨_, d₄, hs, hrest₃⟩
          · split at hs
            · cases hs
            · cases hs
              exact hcopy.trans hwrite
          · split at hs
            · cases hs
              rcases bind_eq_error hrest₃ with hr | ⟨_, _, _, hpure⟩
              · unfold Faulty.rename at hr
                split at hr
                · cases hr
                  exact hcopy.trans hwrite
                · rw [rename_error hr]
                  exact hcopy.trans hwrite
              · cases hpure
            · cases hs
    injection h with _ hd'
    rw [← hd']
    refine hd₁.1.trans ?_
    rcases Sys.after_removeFile (l := stagingPath name) (d := d₁) (r := .staging name) rfl
      (stagingPath_noLink d₁) with hr | ⟨hne, _, hr⟩
    · rw [hr]
      exact SameOn.refl _ d₁
    · rw [hr]
      exact Disk.sameOn_cut d₁ hne (by simp [stagingPath])

/-! ## The write after its touch -/

/-- Nothing inherited, or a directory: the tombstone goes before the write is tried. -/
theorem writeFirstPlain_noTrace_iff (h : AfterTouch m m₁ name b p)
    (hfree : FreePlace m.disk (deltaPath name p)) {off : Nat} {data : Bytes} {e : BranchError}
    (herr : writeFirstPlain name p off data m₁ = .error e m') :
    NoTrace m m' name ↔ HasRecord b p ∧ p ∉ b.tombstones := by
  obtain ⟨hforest, hquota, hent⟩ := writeFirstPlain_error (h.free hfree) herr
  refine h.records.noTrace_dropped_iff h.touched h.branch hforest (hquota.trans h.touched.quota) ?_
  intro q
  rw [← h.deltaKind q]
  exact hent.leaves (h.free hfree).free q

/-- The quota's refusal. -/
theorem quotaCheck_error {k : UInt64} {e : BranchError} (h : quotaCheck k m = .error e m') :
    m' = m := by
  unfold quotaCheck at h
  split at h
  · cases h
  · injection h with _ hm
    exact hm.symm

/-- A file: what the copy makes is made aside, and gone when it fails. -/
theorem writeFirstCopy_noTrace_iff (h : AfterTouch m m₁ name b p)
    (hfree : FreePlace m.disk (deltaPath name p))
    (hstage : m.disk.kindAt (stagingPath name) = none) {src : Place} {len : UInt64} {off : Nat}
    {data : Bytes} {e : BranchError}
    (herr : Faulty.writeFirstCopy f name p src len off data m₁ = .error e m') :
    NoTrace m m' name ↔ HasRecord b p := by
  have hstage₁ : m₁.disk.kindAt (stagingPath name) = none := by
    rw [h.touched.disk.same.kindAt (by simp [stagingPath]), hstage]
  obtain ⟨d, hd, hent, _, _⟩ := (h.free hfree).entered
  unfold Faulty.writeFirstCopy at herr
  rcases bind_eq_error herr with hcheck | ⟨_, m₂, hcheck, hrest⟩
  · rw [quotaCheck_error hcheck]
    exact h.records.noTrace_iff h.touched h.branch rfl h.touched.quota fun q => by
      rw [h.deltaKind]
  · rw [quotaCheck_idle hcheck, bind_ok (show onDisk (Io.ensureParentDirs (deltaPath name p)) m₁ =
      .ok () { m₁ with disk := d } from onDisk_ok hd)] at hrest
    rcases bind_eq_error hrest with hstaged | ⟨_, _, _, htail⟩
    · unfold onDisk at hstaged
      split at hstaged
      · cases hstaged
      · next e' d₂ hrun =>
        cases hstaged
        have hstage₂ : d.kindAt (stagingPath name) = none := by
          rw [hent.same.kindAt (by simp [stagingPath, deltaPath]), hstage₁]
        have hsame := stageWrite_error hstage₂ hrun
        refine h.records.noTrace_iff h.touched h.branch rfl h.touched.quota fun q => ?_
        rw [← h.deltaKind q, ← hent.leaves (h.free hfree).free q]
        unfold BranchFs.deltaKind
        rw [hsame.kindAt (by simp [deltaPath])]
    · cases htail

/-- A link is copied up where it is shown before the write is tried. -/
theorem writeFirstLink_noTrace_iff (h : AfterTouch m m₁ name b p)
    (hfree : FreePlace m.disk (deltaPath name p)) {src : Place} {node : Node String} {t : Link String}
    (hread : StillReads name m₁ src node) (hlink : node.kind = .symlink t) {off : Nat}
    {data : Bytes} {e : BranchError}
    (herr : Faulty.writeFirstNode f name p src node off data m₁ = .error e m') :
    NoTrace m m' name ↔ HasRecord b p ∧ m.quota.check (metaLen node) = false := by
  have hquota := h.touched.quota
  unfold Faulty.writeFirstNode at herr
  rw [if_neg (by simp [hlink, Kind.isFile]), when_true (by simp [hlink, Kind.isSymlink])] at herr
  unfold Faulty.copyUpNode at herr
  cases hcheck : m.quota.check (metaLen node) with
  | false =>
    have hq : quotaCheck (metaLen node) m₁ = .error (.io .ENOSPC) m₁ := by
      simp only [quotaCheck, hquota, hcheck, Bool.false_eq_true, if_false]
    rw [bind_error (bind_error hq)] at herr
    cases herr
    rw [h.records.noTrace_iff h.touched h.branch rfl hquota fun q => by rw [h.deltaKind]]
    simp
  | true =>
    have hq : quotaCheck (metaLen node) m₁ = .ok () m₁ := by
      simp only [quotaCheck, hquota, hcheck, if_true]
    refine iff_of_false (fun hno => ?_) (by simp)
    rcases copyEntry_cases f (h.free hfree) hread (by simp [hlink]) with
      ⟨d, hd, hent⟩ | ⟨_, hfile, _⟩
    · have hkind : d.kindAt (deltaPath name p) = some (.symlink t) := by
        rw [Disk.kindAt_eq_attr, hent.attr _ rfl, if_pos rfl, copyAttr, hlink]
        rfl
      have hstays : BranchFs.deltaKind m'.disk name p = some (.symlink t) := by
        let m₂ : Manager := { m₁ with disk := d, quota := m₁.quota.add (metaLen node) }
        have hup : (do quotaCheck (metaLen node)
                       onDisk (Faulty.copyEntry f src (deltaPath name p))
                       quotaAdd (metaLen node) : Mgr Unit) m₁ = .ok () m₂ := by
          rw [bind_ok hq, bind_ok (onDisk_ok hd)]
          rfl
        rw [bind_ok hup, writeFirstPlain,
          bind_ok (show onDisk (Io.ensureParentDirs (deltaPath name p)) m₂ = .ok () m₂ from
            onDisk_ok (Sys.createDirAll_of_dir rfl (Disk.dir_parent (by simp [m₂, hkind]))))] at herr
        rw [writeInPlace_error herr]
        exact hkind
      -- the link is there, where the delta had nothing
      have hleaf := hno.delta p
      have hnone : BranchFs.deltaKind m.disk name p = none := hfree.free
      rw [hstays, hnone, leaf_none, leaf_eq_none] at hleaf
      rcases hleaf with hleaf | hleaf <;> cases hleaf
    · rw [hlink] at hfile
      cases hfile

theorem writeChecked_noTrace_iff (hin : NameIn m name b dir) {off : Nat} {data : Bytes}
    {e : BranchError} (herr : Faulty.writeChecked f name (dir ++ [n]) off data m = .error e m') :
    NoTrace m m' name ↔ b.isWritable = false ∨ m.Undone b (dir ++ [n]) := by
  have hname := Forest.name_of_get? hin.branch
  unfold Faulty.writeChecked at herr
  cases hw : b.isWritable with
  | false =>
    rw [bind_error (writableBranch_frozen hin.branch hw)] at herr
    cases herr
    exact iff_of_true (NoTrace.refl m name) (Or.inl rfl)
  | true =>
    rw [bind_ok (writableBranch_ok hin.branch hw), readDisk_bind] at herr
    rw [or_iff_right (by simp), Manager.Undone, hname]
    by_cases hk : deltaKind m.disk name (dir ++ [n]) = none
    · obtain ⟨m₁, hrec, htouch⟩ := hin.touch (dir ++ [n])
      have hfree := hin.free hk
      have hno : ¬ m.disk.lexists (deltaPath name (dir ++ [n])) = true := by
        rw [hin.lexists, not_not]
        exact hk
      rw [if_neg hno, bind_ok (inheritedForTouch_ok hin.branch), bind_ok hrec] at herr
      rw [if_neg (by simp [hk]), m.inheritedKind_eq]
      cases hsrc : m.inheritedForTouch b (dir ++ [n]) with
      | none =>
        rw [hsrc] at herr
        rw [writeFirstPlain_noTrace_iff htouch hfree herr]
        simp [Manager.inheritedNode, hsrc]
      | some src =>
        obtain ⟨node, hnode⟩ := inheritedNode_of_some hsrc
        have hread : StillReads name m₁ src node := fun d hd hl =>
          hin.unseen.lstat hin.branch
            (htouch.touched.adds.same.trans (sameOn_of_own (own_files name) hd))
            (SameLayout.trans htouch.calm.1 hl) hsrc hnode
        rw [hsrc] at herr
        change Faulty.writeFirst f name (dir ++ [n]) off data (some src) m₁ = .error e m' at herr
        rw [Faulty.writeFirst, readDisk_bind, hread.now] at herr
        change Faulty.writeFirstNode f name (dir ++ [n]) src node off data m₁ = .error e m' at herr
        rw [hnode, Option.map_some]
        cases hkind : node.kind with
        | file c =>
          rw [Faulty.writeFirstNode, if_pos (by simp [hkind, Kind.isFile])] at herr
          rw [writeFirstCopy_noTrace_iff htouch hfree hin.staging herr]
          simp
        | dir =>
          rw [Faulty.writeFirstNode, if_neg (by simp [hkind, Kind.isFile]),
            when_false (by simp [hkind, Kind.isSymlink])] at herr
          exact writeFirstPlain_noTrace_iff htouch hfree herr
        | symlink t =>
          rw [writeFirstLink_noTrace_iff htouch hfree hread hkind herr]
          simp [Manager.refuses, hnode, hkind, Kind.isDir]
    · rw [if_pos (hin.lexists.mpr hk)] at herr
      rw [if_pos hk, writeInPlace_error herr]
      rw [← removeTombstone_idle b (dir ++ [n])]
      have hget : (m.forest.modify name (Branch.removeTombstone (dir ++ [n]))).get? name =
          some (b.removeTombstone (dir ++ [n])) := Forest.get?_modify_self hin.branch rfl rfl
      constructor
      · intro hno
        have htomb := hno.tombstones
        rw [hget, hin.branch] at htomb
        exact Option.some.inj htomb
      · intro hsame
        refine ⟨fun _ => rfl, ?_, ?_, rfl⟩
        · rw [hget, hin.branch, Option.map_some, Option.map_some, hsame]
        · rw [hget, hin.branch]
          rfl

/-- **When a failed write leaves no trace**: the request was refused before anything was done, or what
was to be written has been touched before, and what was done since has been undone. -/
theorem write_noTrace_iff (hin : NameIn m name b dir) {off : Int} {data : Bytes} {e : BranchError}
    (herr : Faulty.writeDataToBranch f name (dir ++ [n]) off data m = .error e m') :
    NoTrace m m' name ↔
      off < 0 ∨ 2 ^ 64 ≤ off.toNat + data.length ∨ b.isWritable = false ∨
        m.Undone b (dir ++ [n]) := by
  unfold Faulty.writeDataToBranch at herr
  split at herr
  · next hneg =>
    cases herr
    exact iff_of_true (NoTrace.refl m name) (Or.inl hneg)
  · next hpos =>
    split at herr
    · next hbig =>
      cases herr
      exact iff_of_true (NoTrace.refl m name) (Or.inr (Or.inl hbig))
    · next hfits =>
      rw [or_iff_right hpos, or_iff_right hfits]
      exact writeChecked_noTrace_iff hin herr

/-- **When a failed copy-on-write leaves no trace**, whatever fails: only a refusal that comes before the
first touch, or a repeated failure on a path whose record is already there, leaves the branch as it was. -/
theorem failed_noTrace_iff (hin : NameIn m name b dir) :
    (∀ f e m', Faulty.ensureDeltaPathForWrite f name (dir ++ [n]) m = .error e m' →
      (NoTrace m m' name ↔ b.isWritable = false ∨
        (HasRecord b (dir ++ [n]) ∧ (m.refuses b (dir ++ [n]) = true ∨ f.copy = some none)))) ∧
    (∀ f off data e m', Faulty.writeDataToBranch f name (dir ++ [n]) off data m = .error e m' →
      (NoTrace m m' name ↔ off < 0 ∨ 2 ^ 64 ≤ off.toNat + data.length ∨ b.isWritable = false ∨
        m.Undone b (dir ++ [n]))) :=
  ⟨fun _ _ _ herr => ensure_noTrace_iff hin herr, fun _ _ _ _ _ herr => write_noTrace_iff hin herr⟩

end Failures

/-- A copy-on-write and a write that return Err leave no trace, whatever failed. -/
def FailuresLeaveNoTrace : Prop :=
  ∀ (store : FreshStore) ops name p f e m', let m := run step (Manager.init store) ops
    (Faulty.ensureDeltaPathForWrite f name p m = .error e m' ∨
      ∃ off data, Faulty.writeDataToBranch f name p off data m = .error e m') →
    NoTrace m m' name

/-- A store for two bytes of changes. -/
def FreshStore.narrow : FreshStore := { FreshStore.bare with maxBytes := some 2 }

def threeBytesOps : List Op := [.host (.write ["f"] [0, 0, 0]), .create "b" "main" .lazy []]

/-- A branch over a file its store has no room for. -/
def threeBytes : Manager := run step (Manager.init .narrow) threeBytesOps

theorem threeBytes_run :
    failureOf (writeDataToBranch "b" ["f"] 0 [120]) threeBytes = some (.io .ENOSPC) ∧
      (threeBytes.forest.get? "b").map (·.touches.length) = some 0 ∧
      ((after (writeDataToBranch "b" ["f"] 0 [120]) threeBytes).forest.get? "b").map
        (·.touches.length) = some 1 := by
  decide +kernel

/-- The refused write stays on record. -/
theorem not_failuresLeaveNoTrace : ¬ FailuresLeaveNoTrace := by
  intro h
  obtain ⟨herr, hbefore, hafter⟩ := threeBytes_run
  have hno : NoTrace threeBytes (after (writeDataToBranch "b" ["f"] 0 [120]) threeBytes) "b" := by
    refine h .narrow threeBytesOps "b" ["f"] .absent (.io .ENOSPC) _ (Or.inr ⟨0, [120], ?_⟩)
    rw [Faulty.writeDataToBranch_absent]
    exact error_of_failureOf herr
  have hlength := congrArg (Option.map List.length) hno.touches
  rw [Option.map_map, Option.map_map] at hlength
  exact absurd (hafter.symm.trans (hlength.trans hbefore)) (by decide)

/-- The same branch after a first refused write. -/
def refusedOnce : Manager := run step threeBytes [.file "b" (.write ["f"] 0 [120])]

theorem refusedOnce_run :
    refusedOnce.forest.get? "b" = some (refusedOnce.recordOf "b") ∧
      refusedOnce.view "b" [] = some .dir ∧
      (∀ e ∈ refusedOnce.disk.entries, ¬ Own "b" e.1.root) ∧
      (∀ e ∈ refusedOnce.disk.entries, e.2.kind.isSymlink = false) ∧
      HasRecord (refusedOnce.recordOf "b") ["f"] ∧
      refusedOnce.refuses (refusedOnce.recordOf "b") ["f"] = true ∧
      deltaKind refusedOnce.disk "b" ["f"] = none ∧
      refusedOnce.inheritedKind (refusedOnce.recordOf "b") ["f"] = some (.file [0, 0, 0]) := by
  decide +kernel

theorem refusedOnce_fails :
    failureOf (ensureDeltaPathForWrite "b" ["f"]) refusedOnce = some (.io .ENOSPC) ∧
      failureOf (writeDataToBranch "b" ["f"] 0 [120]) refusedOnce = some (.io .ENOSPC) := by
  decide +kernel

/-- The second refusal, of either operation, leaves no trace. -/
theorem refusedOnce_noTrace :
    NoTrace refusedOnce (after (ensureDeltaPathForWrite "b" ["f"]) refusedOnce) "b" ∧
      NoTrace refusedOnce (after (writeDataToBranch "b" ["f"] 0 [120]) refusedOnce) "b" := by
  obtain ⟨hb, hdir, hown, hlinks, hrec, hroom, hdelta, hinh⟩ := refusedOnce_run
  obtain ⟨hens, hwrite⟩ := refusedOnce_fails
  have hin : NameIn refusedOnce "b" (refusedOnce.recordOf "b") [] :=
    nameIn_of_untouched hb hdir hown hlinks
  have hiff := failed_noTrace_iff (n := "f") hin
  constructor
  · refine (hiff.1 .absent (.io .ENOSPC) _ ?_).mpr (Or.inr ⟨hrec, Or.inl hroom⟩)
    rw [Faulty.ensureDeltaPathForWrite_absent]
    exact error_of_failureOf hens
  · refine (hiff.2 .absent 0 [120] (.io .ENOSPC) _ ?_).mpr (Or.inr (Or.inr (Or.inr ?_)))
    · rw [Faulty.writeDataToBranch_absent]
      exact error_of_failureOf hwrite
    · have hnone : deltaKind refusedOnce.disk (refusedOnce.recordOf "b").name ([] ++ ["f"]) = none := by
        rw [Forest.name_of_get? hb]
        exact hdelta
      rw [Manager.Undone, if_neg (not_not_intro hnone)]
      refine ⟨hrec, ?_⟩
      show match refusedOnce.inheritedKind (refusedOnce.recordOf "b") ["f"] with
        | some (.file _) => True
        | some (.symlink _) => refusedOnce.refuses (refusedOnce.recordOf "b") ["f"] = true
        | _ => ["f"] ∉ (refusedOnce.recordOf "b").tombstones
      rw [hinh]
      trivial

end BranchFs
