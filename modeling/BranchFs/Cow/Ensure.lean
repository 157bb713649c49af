/-
# BranchFs.Cow.Ensure -- copy-on-write of a path whose directory is shown

Where every directory on the way to a path is shown as a directory, the branch's own delta has only
directories on the way, so copy-on-write meets no link and no file: it records the touch, brings the
inherited file or link into the delta, drops the tombstone and makes the directories. `Adds` is the
frame of all of this: entries are added to the branch's own trees and nothing else happens.
-/
import BranchFs.Model.Layers

namespace BranchFs

open BranchFs.Posix BranchFs.Logic

/-- The trees a file operation of the branch writes to. -/
def Own (name : String) (r : Option Root) : Prop :=
  r = some (.files name) ∨ r = some (.staging name) ∨ r = some (.touchContent name)

instance (name : String) (r : Option Root) : Decidable (Own name r) :=
  inferInstanceAs (Decidable (_ ∨ _ ∨ _))

/-- Entries were added to the branch's own trees; records of other branches and its own settings
stay. -/
structure Adds (name : String) (m m' : Manager) : Prop where
  forest : m.forest.SameBut name m'.forest
  same : SameOn (fun r => ¬ Own name r) m.disk m'.disk
  grows : Grows m.disk m'.disk
  maxBytes : m'.quota.maxBytes = m.quota.maxBytes

namespace Adds

variable {name : String} {m m' m'' : Manager}

theorem refl (name : String) (m : Manager) : Adds name m m :=
  ⟨Forest.SameBut.refl name m.forest, SameOn.refl _ _, Grows.refl _, rfl⟩

theorem trans (h : Adds name m m') (h' : Adds name m' m'') : Adds name m m'' :=
  ⟨h.forest.trans h'.forest, h.same.trans h'.same, h.grows.trans h'.grows,
    h'.maxBytes.trans h.maxBytes⟩

theorem of_disk {d : Tree} (hs : SameOn (fun r => ¬ Own name r) m.disk d) (hg : Grows m.disk d) :
    Adds name m { m with disk := d } :=
  ⟨Forest.SameBut.refl name _, hs, hg, rfl⟩

theorem of_modify {f : Branch → Branch} (hf : ∀ b, SameSettings b (f b)) :
    Adds name m { m with forest := m.forest.modify name f } :=
  ⟨Forest.SameBut.of_modify hf, SameOn.refl _ _, Grows.refl _, rfl⟩

end Adds

theorem own_files (name : String) : Own name (some (.files name)) := Or.inl rfl

theorem own_touchContent (name : String) : Own name (some (.touchContent name)) :=
  Or.inr (Or.inr rfl)

/-- A change confined to one of the branch's own trees. -/
theorem sameOn_of_own {name : String} {d d' : Tree} {r : Option Root} (hr : Own name r)
    (h : SameOn (fun s => s ≠ r) d d') : SameOn (fun s => ¬ Own name s) d d' := by
  refine h.mono fun s hs heq => ?_
  exact hs (heq ▸ hr)

/-! ## Manager steps, one at a time -/

theorem onDisk_ok {α : Type} {x : Io α} {m : Manager} {a : α} {d : Tree} (h : x m.disk = .ok a d) :
    onDisk x m = .ok a { m with disk := d } := by
  simp only [onDisk, h]

theorem onDisk_error {α : Type} {x : Io α} {m : Manager} {e : Errno} {d : Tree}
    (h : x m.disk = .error e d) : onDisk x m = .error (.io e) { m with disk := d } := by
  simp only [onDisk, h]

theorem readDisk_bind {α β : Type} (f : Tree → α) (g : α → Mgr β) (m : Manager) :
    (readDisk f >>= g) m = g (f m.disk) m := rfl

theorem getBranch_ok {name : String} {m : Manager} {b : Branch} (h : m.forest.get? name = some b) :
    getBranch name m = .ok b m := by
  simp only [getBranch, h]

theorem writableBranch_ok {name : String} {m : Manager} {b : Branch}
    (h : m.forest.get? name = some b) (hw : b.isWritable = true) :
    writableBranch name m = .ok b m := by
  simp only [writableBranch, h, hw, if_true]

theorem quotaCheck_ok {m : Manager} (h : m.quota.maxBytes = none) (n : UInt64) :
    quotaCheck n m = .ok () m := by
  simp only [quotaCheck, StorageQuota.check, h, if_true]

/-! ## Recording the touch -/

/-- The touch-content directory holds nothing but files, so contents can be kept there. -/
def CanCapture (d : Tree) (name : String) : Prop :=
  ∀ key, d.kindAt (touchContentPath name key) = none ∨ d.fileAt (touchContentPath name key) = true

theorem readBoundedText_ok {d : Tree} {l : Place} (h : d.lkind l ≠ none) :
    ∃ t, readBoundedText l d = .ok t d := by
  unfold Disk.lkind at h
  unfold readBoundedText
  cases hl : d.lstat l with
  | error e => simp [hl, Except.toOption] at h
  | ok n =>
    simp only
    split
    · exact ⟨_, rfl⟩
    · next hc =>
      have hfile : n.kind.isFile = true := by
        by_contra hf
        exact hc (by simp [hf])
      have hlink : n.kind.isSymlink = false := by
        cases hk : n.kind <;> simp [hk, Kind.isFile, Kind.isSymlink] at hfile ⊢
      have hs := Disk.stat_of_lstat hl hlink
      cases hk : n.kind with
      | file b =>
        exact ⟨if b.contains 0 || !isUtf8 b then none else some b, by
          simp only [Posix.Sys.readFile, hs, hk]⟩
      | symlink t => simp [hk, Kind.isFile] at hfile
      | dir => simp [hk, Kind.isFile] at hfile

/-- Writing a file at the top of one of the daemon's trees. -/
theorem writeFile_top {d : Tree} {r : Root} {key : String} (data : Bytes)
    (h : d.kindAt ⟨some r, [key]⟩ = none ∨ d.fileAt ⟨some r, [key]⟩ = true) :
    ∃ d', Posix.Sys.writeFile ⟨some r, [key]⟩ data d = .ok () d' ∧
      d.putFile ⟨some r, [key]⟩ data none = .ok () d' := by
  have hp : d.kindAt (Loc.parent ⟨some r, [key]⟩) = some .dir := Disk.kindAt_root d (by simp)
  obtain ⟨d', hd'⟩ := Disk.putFile_ok d data none hp h
  refine ⟨d', ?_, hd'⟩
  rw [Posix.Sys.writeFile, Posix.Sys.followed_of_dir rfl hp (Posix.Sys.linkAt_of_free_or_file h)]
  exact hd'

/-- What keeping the contents of a touched file leaves: at most one file in touch-content. -/
structure Captured (name : String) (d d' : Tree) : Prop where
  same : SameOn (fun r => r ≠ some (.touchContent name)) d d'
  grows : Grows d d'
  can : CanCapture d' name

theorem Captured.refl {name : String} {d : Tree} (h : CanCapture d name) : Captured name d d :=
  ⟨SameOn.refl _ d, Grows.refl d, h⟩

theorem captureBaseContent_ok {name : String} {p : RelPath} {inherited : Option Place}
    {m : Manager} (hcap : CanCapture m.disk name)
    (hinh : ∀ l, inherited = some l → m.disk.lkind l ≠ none) :
    ∃ key d, captureBaseContent name p inherited m = .ok key { m with disk := d } ∧
      Captured name m.disk d := by
  cases inherited with
  | none => exact ⟨none, m.disk, rfl, Captured.refl hcap⟩
  | some src =>
    obtain ⟨t, ht⟩ := readBoundedText_ok (hinh src rfl)
    rw [captureBaseContent, bind_ok (onDisk_ok ht)]
    cases t with
    | none => exact ⟨none, m.disk, rfl, Captured.refl hcap⟩
    | some bytes =>
      have hdirs : onDisk (Io.ensureParentDirs (touchContentPath name (touchContentKey p))) m =
          .ok () m := onDisk_ok (Posix.Sys.createDirAll_of_dir rfl (Disk.kindAt_root _ rfl))
      obtain ⟨d, hd, hput⟩ := writeFile_top bytes (hcap (touchContentKey p))
      have hwrite : onDisk (Posix.Sys.writeFile (touchContentPath name (touchContentKey p)) bytes) m
          = .ok () { m with disk := d } := onDisk_ok hd
      refine ⟨some (touchContentKey p), d, ?_, ?_⟩
      · rw [keepBaseContent]
        rw [bind_ok hdirs, bind_ok hwrite]
        rfl
      · refine ⟨Posix.Sys.sameOn_putFile_ok hput, Grows.of_putFile hput, ?_⟩
        intro key
        unfold Disk.fileAt
        rw [Disk.kindAt_putFile hput]
        split
        · right
          rfl
        · exact hcap key

/-- What a first touch leaves: a record, and perhaps the contents it keeps. -/
structure Touched (name : String) (m m' : Manager) : Prop where
  forest : ∃ f : Branch → Branch, m'.forest = m.forest.modify name f ∧
    ∀ b, SameSettings b (f b) ∧ (f b).tombstones = b.tombstones
  disk : Captured name m.disk m'.disk
  quota : m'.quota = m.quota

theorem modify_id (F : Forest) (name : String) : F.modify name id = F := by
  have : F.list.map (Forest.modifyAt name id) = F.list := by
    conv_rhs => rw [← List.map_id F.list]
    refine List.map_congr_left fun b _ => ?_
    unfold Forest.modifyAt
    split <;> rfl
  cases F
  simp only [Forest.modify, Forest.mk.injEq]
  exact this

theorem recordFirstTouch_ok {name : String} {p : RelPath} {inherited : Option Place}
    (capture : Bool) {m : Manager} {b : Branch} (hb : m.forest.get? name = some b)
    (hcap : CanCapture m.disk name) (hinh : ∀ l, inherited = some l → m.disk.lkind l ≠ none) :
    ∃ m', recordFirstTouch name p inherited capture m = .ok () m' ∧ Touched name m m' := by
  unfold recordFirstTouch
  rw [bind_ok (getBranch_ok hb)]
  by_cases hr : (b.getTouchRecord p).isSome = true
  · refine ⟨m, by rw [if_pos hr]; rfl, ⟨id, (modify_id _ _).symm, fun b => ⟨SameSettings.refl b, rfl⟩⟩,
      Captured.refl hcap, rfl⟩
  · rw [if_neg hr]
    unfold addTouchRecord
    obtain ⟨key, d, hk, hd⟩ : ∃ key d, contentKey name p inherited capture m = .ok key { m with disk := d } ∧ Captured name m.disk d := by
      cases capture with
      | true => exact captureBaseContent_ok hcap hinh
      | false => exact ⟨none, m.disk, rfl, Captured.refl hcap⟩
    let addRecord : Branch → Branch := fun b =>
      { b with touches := ⟨p, PathIdentity.fromPath m.disk inherited, key⟩ :: b.touches }
    refine ⟨{ m with disk := d, forest := m.forest.modify name addRecord }, ?_,
      ⟨addRecord, rfl, fun b => ⟨⟨rfl, rfl, rfl, rfl, rfl, rfl, rfl⟩, rfl⟩⟩, hd, rfl⟩
    rw [readDisk_bind, bind_ok hk]
    rfl

theorem Touched.adds {name : String} {m m' : Manager} (h : Touched name m m') : Adds name m m' := by
  obtain ⟨f, hf, hs⟩ := h.forest
  refine ⟨?_, sameOn_of_own (own_touchContent name) h.disk.same, h.disk.grows, by rw [h.quota]⟩
  rw [hf]
  exact Forest.SameBut.of_modify fun b => (hs b).1

theorem Touched.get? {name : String} {m m' : Manager} (h : Touched name m m') {b : Branch}
    (hb : m.forest.get? name = some b) :
    ∃ b', m'.forest.get? name = some b' ∧ SameSettings b b' ∧ b'.tombstones = b.tombstones := by
  obtain ⟨f, hf, hs⟩ := h.forest
  refine ⟨f b, ?_, (hs b).1, (hs b).2⟩
  rw [hf]
  exact Forest.get?_modify_self hb (hs b).1.name (hs b).1.parent

/-! ## Bringing the inherited entry up -/

/-- What copy-on-write leaves of the disk: directories down to the delta path, and the copy. -/
structure CopiedUp (delta : Place) (copy : Option Entry) (d d' : Tree) : Prop where
  same : SameOn (fun r => r ≠ delta.root) d d'
  grows : Grows d d'
  at_delta : d'.kindAt delta = copy
  above : copy ≠ none → ∀ x, x ≤ delta → x ≠ delta → d'.kindAt x = some .dir
  other : ∀ x, ¬ x ≤ delta → d'.kindAt x = d.kindAt x
  idle : copy = none → d' = d

theorem CopiedUp.none {delta : Place} {d : Tree} (h : d.kindAt delta = none) :
    CopiedUp delta none d d :=
  ⟨SameOn.refl _ d, Grows.refl d, h, fun hne => absurd rfl hne, fun _ _ => rfl, fun _ => rfl⟩

/-- A place with nothing but directories on the way, where nothing is yet. -/
structure FreePlace (d : Tree) (l : Place) : Prop where
  root : ∃ r, l.root = some r
  noLink : d.NoLinkAbove l
  noFile : d.fileAbove l = false
  free : d.kindAt l = none

theorem FreePlace.parentDirs {d : Tree} {l : Place} (h : FreePlace d l) :
    ∃ d', Posix.Sys.createDirAll l.parent d = .ok () d' ∧ Posix.Sys.MadeDirs l.parent d d' ∧
      Grows d d' := by
  obtain ⟨r, hr⟩ := h.root
  have hne : l.path ≠ [] := Disk.path_ne_nil_of_not_dir (d := d) (by simp [h.free])
  have hup := Loc.parent_ne hne
  have hlp := h.noLink.mono (Loc.parent_le l)
  have hl := h.noLink.not_link (Loc.parent_le l) hup
  have hfa : d.fileAbove l.parent = false := by
    by_contra hc
    have := Disk.fileAbove_of_le (by simpa using hc) (Loc.parent_le l)
    rw [h.noFile] at this
    cases this
  have hf : d.fileAt l.parent = false := by
    by_contra hc
    have := Disk.fileAbove_iff.mpr ⟨l.parent, Loc.parent_le l, hup, by simpa using hc⟩
    rw [h.noFile] at this
    cases this
  obtain ⟨d', hd', hmade⟩ := Posix.Sys.createDirAll_ok (l := l.parent) (d := d) hr hlp hl hfa hf
  exact ⟨d', hd', hmade, Grows.of_madeDirs hmade hfa hlp hf hl⟩

theorem MadeDirs.above {d d' : Tree} {l x : Place} (h : Posix.Sys.MadeDirs l.parent d d') (hx : x ≤ l)
    (hne : x ≠ l) : d'.kindAt x = some .dir := by
  rw [h.kind, if_pos (Loc.le_parent_of_lt hx hne)]

theorem MadeDirs.other {d d' : Tree} {l x : Place} (h : Posix.Sys.MadeDirs l.parent d d') (hx : ¬ x ≤ l) :
    d'.kindAt x = d.kindAt x := by
  rw [h.kind, if_neg fun hle => hx (le_trans hle (Loc.parent_le l))]

theorem MadeDirs.free {d d' : Tree} {l : Place} (h : Posix.Sys.MadeDirs l.parent d d')
    (hl : d.kindAt l = none) : d'.kindAt l = none := by
  have hne : l.path ≠ [] := Disk.path_ne_nil_of_not_dir (d := d) (by simp [hl])
  rw [h.kind, if_neg, hl]
  exact fun hle => Loc.parent_ne hne (le_antisymm (Loc.parent_le l) hle)

/-- The copy into a free place, its directories made. -/
theorem copyEntry_made {d d₁ : Tree} {src delta : Place} {n : Node String} (h : FreePlace d delta)
    (hd₁ : Posix.Sys.createDirAll delta.parent d = .ok () d₁)
    (hmade : Posix.Sys.MadeDirs delta.parent d d₁) (hgrow : Grows d d₁)
    (hs : d₁.lstat src = .ok n) (hn : n.kind ≠ .dir) :
    ∃ d', Io.copyEntry src delta d = .ok () d' ∧ CopiedUp delta (some n.kind) d d' := by
  obtain ⟨r, hr⟩ := h.root
  have hfree₁ := MadeDirs.free hmade h.free
  have hpar₁ : d₁.kindAt delta.parent = some .dir := by rw [hmade.kind, if_pos (le_refl _)]
  have hsame : SameOn (fun r => r ≠ delta.root) d d₁ := hmade.same
  have hcopy : Io.copyEntry src delta d = Io.copyNode src delta n d₁ := by
    unfold Io.copyEntry
    rw [bind_ok (show Io.ensureParentDirs delta d = .ok () d₁ from hd₁),
      bind_ok (show Io.symlinkMetadata src d₁ = .ok n d₁ by simp only [Io.symlinkMetadata, hs])]
  have finish : ∀ d₂ k, SameOn (fun r => r ≠ delta.root) d₁ d₂ → Grows d₁ d₂ →
      (∀ x, d₂.kindAt x = if x = delta then some k else d₁.kindAt x) →
      CopiedUp delta (some k) d d₂ := by
    intro d₂ k hs₂ hg₂ hk₂
    refine ⟨hsame.trans hs₂, hgrow.trans hg₂, by rw [hk₂, if_pos rfl], ?_, ?_, by simp⟩
    · intro _ x hx hxne
      rw [hk₂, if_neg hxne, MadeDirs.above hmade hx hxne]
    · intro x hx
      rw [hk₂, if_neg (fun heq => hx (le_of_eq heq)), MadeDirs.other hmade hx]
  rw [hcopy]
  cases hk : n.kind with
  | dir => exact absurd hk hn
  | symlink t =>
    obtain ⟨e, he⟩ := Posix.Sys.removeFile_other (d := d₁) hr
      (Disk.noLinkAbove_of_dir hpar₁) (Or.inl hfree₁)
    obtain ⟨d₂, hd₂, hadd⟩ := Posix.Sys.symlink_of_free (t := t) (d := d₁) hr hpar₁ hfree₁
    refine ⟨d₂, ?_, finish d₂ _ (Disk.sameOn_add hadd (by simp))
      (Grows.of_add hadd) (fun x => Disk.kindAt_add hadd x)⟩
    simp only [Io.copyNode, hk]
    rw [bind_ok (show attempt (Posix.Sys.removeFile delta) d₁ = .ok (.error e) d₁ by
      simp only [attempt, he])]
    exact hd₂
  | file b =>
    have hst : d₁.stat src = .ok n := Disk.stat_of_lstat hs (by simp [hk, Kind.isSymlink])
    obtain ⟨d₂, hd₂, hput⟩ := Posix.Sys.copyFile_ok (d := d₁) hr hst hk hpar₁ (Or.inl hfree₁)
    refine ⟨d₂, ?_, finish d₂ _ (Posix.Sys.sameOn_putFile_ok hput)
      (Grows.of_putFile hput) (fun x => Disk.kindAt_putFile hput x)⟩
    simp only [Io.copyNode, hk]
    exact hd₂

/-- The copy of an entry that may stand on the way to the place itself: what is copied is the entry
as it is once the directories are made. -/
theorem copyEntry_ok {d : Tree} {src delta : Place} {n : Node String} (h : FreePlace d delta)
    (hs : d.lstat src = .ok n) (hn : n.kind ≠ .dir) :
    ∃ d' k, Io.copyEntry src delta d = .ok () d' ∧ SameShape n.kind k ∧
      CopiedUp delta (some k) d d' := by
  obtain ⟨d₁, hd₁, hmade, hgrow⟩ := h.parentDirs
  have hlk : d.lkind src = some n.kind := by simp [Disk.lkind, hs, Except.toOption]
  obtain ⟨k₁, hk₁, hshape⟩ := hgrow.lkind hlk
  obtain ⟨n₁, hs₁, hn₁⟩ : ∃ n₁, d₁.lstat src = .ok n₁ ∧ n₁.kind = k₁ := by
    unfold Disk.lkind at hk₁
    cases hl : d₁.lstat src with
    | error e => simp [hl, Except.toOption] at hk₁
    | ok n₁ => exact ⟨n₁, rfl, by simpa [hl, Except.toOption] using hk₁⟩
  have hne : n₁.kind ≠ .dir := by
    intro hk
    rw [hn₁] at hk
    rw [hk] at hshape
    rcases hshape with heq | ⟨_, hf⟩
    · exact hn heq.symm
    · cases hf
  obtain ⟨d', hd', hup⟩ := copyEntry_made h hd₁ hmade hgrow hs₁ hne
  exact ⟨d', k₁, hd', hshape, hn₁ ▸ hup⟩

/-- No layer below the branch has a link on the way to `p`. -/
def Straight (m : Manager) (name : String) (p : RelPath) : Prop :=
  ∀ r ∈ m.layers name, m.disk.NoLinkAbove ⟨some r, p⟩

theorem not_own_of_mem_layers {m : Manager} {name : String} {r : Root} (h : r ∈ m.layers name) :
    ¬ Own name (some r) := by
  simp only [Manager.layers, List.mem_cons, List.mem_flatMap, List.not_mem_nil, or_false] at h
  rcases h with rfl | rfl | ⟨c, hc, rfl | rfl⟩
  · simp [Own]
  · simp [Own]
  · have hne : c.name ≠ name := key_ne_of_mem_olderThan m.forest.grown.nodup hc
    simp [Own, hne]
  · simp [Own]

/-- A layer reads the same before and after an operation that stays in the branch's own trees. -/
theorem Straight.lstat {m : Manager} {name : String} {p : RelPath} {d : Tree}
    (h : Straight m name p) (hd : SameOn (fun r => ¬ Own name r) m.disk d) {r : Root}
    (hr : r ∈ m.layers name) : (d.lstat ⟨some r, p⟩).toOption = (m.disk.lstat ⟨some r, p⟩).toOption := by
  have hown := not_own_of_mem_layers hr
  have hget : ∀ x : Place, x.root = some r → d.get x = m.disk.get x :=
    fun x hx => hd x (by rw [hx]; exact hown)
  have hlink := h r hr
  have hlink' : d.NoLinkAbove ⟨some r, p⟩ := by
    intro a ha
    have hroot : a.root = some r := (Loc.mem_above.mp ha).1.1
    have := hlink a ha
    unfold Disk.linkAt Disk.kindAt at this ⊢
    rwa [hget a hroot]
  rw [Disk.lstat_toOption rfl hlink, Disk.lstat_toOption rfl hlink', hget _ rfl]

/-- What the branch inherits at `p`, as `symlink_metadata` reads it. -/
def Manager.inheritedNode (m : Manager) (b : Branch) (p : RelPath) : Option (Node String) :=
  (m.inheritedForTouch b p).bind fun l => (m.disk.lstat l).toOption

theorem Manager.inheritedKind_eq (m : Manager) (b : Branch) (p : RelPath) :
    m.inheritedKind b p = (m.inheritedNode b p).map (·.kind) := by
  unfold inheritedKind kindAtPath inheritedNode Disk.lkind
  cases m.inheritedForTouch b p <;> rfl

/-- What copy-on-write brings into the delta: files and links the quota has room for. -/
def Manager.broughtUp (m : Manager) (b : Branch) (p : RelPath) : Option Entry :=
  match m.inheritedNode b p with
  | none => none
  | some n => if n.kind.isDir then none else if m.quota.check (metaLen n) then some n.kind else none

/-- The quota turns away what copy-on-write would bring up. -/
def Manager.refuses (m : Manager) (b : Branch) (p : RelPath) : Bool :=
  (m.inheritedNode b p).any fun n => !n.kind.isDir && !m.quota.check (metaLen n)

/-- The entry is a copy of what was brought up, up to the bytes of a file. -/
def CopyOf : Option Entry → Option Entry → Prop
  | none, x => x = none
  | some k, x => ∃ k', x = some k' ∧ SameShape k k'

/-- What copy-on-write leaves: directories down to the delta path, the copy in it, no tombstone, and
the rest of the delta as it was. -/
structure Ensured (name : String) (p : RelPath) (b : Branch) (m m' : Manager) : Prop where
  adds : Adds name m m'
  branch : ∃ b', m'.forest.get? name = some b' ∧ SameSettings b b' ∧
    b'.tombstones = b.tombstones.filter (· ≠ p)
  at_delta : CopyOf (m.broughtUp b p) (m'.disk.kindAt (deltaPath name p))
  above : ∀ x, x ≤ deltaPath name p → x ≠ deltaPath name p → m'.disk.kindAt x = some .dir
  other : ∀ x : Place, x.root = some (.files name) → ¬ x ≤ deltaPath name p →
    m'.disk.kindAt x = m.disk.kindAt x

theorem FreePlace.of_same {d d' : Tree} {l : Place} (h : FreePlace d l)
    (hd : ∀ x : Place, x.root = l.root → d'.get x = d.get x) : FreePlace d' l := by
  have hk : ∀ x : Place, x.root = l.root → d'.kindAt x = d.kindAt x := by
    intro x hx
    simp only [Disk.kindAt, hd x hx]
  refine ⟨h.root, ?_, ?_, ?_⟩
  · intro a ha
    have := h.noLink a ha
    unfold Disk.linkAt at this ⊢
    rwa [hk a (Loc.mem_above.mp ha).1.1]
  · have := h.noFile
    rw [← Bool.not_eq_true, Disk.fileAbove_iff] at this ⊢
    rintro ⟨a, hle, hne, ha⟩
    refine this ⟨a, hle, hne, ?_⟩
    unfold Disk.fileAt at ha ⊢
    rwa [← hk a hle.1]
  · rw [hk l rfl]
    exact h.free

/-- The inherited entry after the touch is what it was before it. -/
theorem lstat_of_touched {name : String} {p : RelPath} {b : Branch} {m m₁ : Manager}
    (hb : m.forest.get? name = some b) (hst : Straight m name p) (ht : Touched name m m₁) {src : Place}
    (hsrc : m.inheritedForTouch b p = some src) {n : Node String}
    (hn : m.inheritedNode b p = some n) : m₁.disk.lstat src = .ok n := by
  have hres : m.inheritedResolve b p = some src := by
    unfold Manager.inheritedForTouch at hsrc
    split at hsrc
    · cases hsrc
    · exact hsrc
  obtain ⟨r, hr, rfl⟩ := Manager.mem_layers_of_inherited hb hres
  have heq := hst.lstat (sameOn_of_own (own_touchContent name) ht.disk.same) hr
  rw [Manager.inheritedNode, hsrc, Option.bind_some] at hn
  rw [hn] at heq
  cases hl : m₁.disk.lstat ⟨some r, p⟩ with
  | error e =>
    rw [hl] at heq
    cases heq
  | ok n' =>
    rw [hl] at heq
    cases heq
    rfl

/-- Nothing comes up where nothing but a directory is inherited. -/
theorem broughtUp_of_dir {m : Manager} {b : Branch} {p : RelPath}
    (h : ∀ n, m.inheritedNode b p = some n → n.kind = .dir) : m.broughtUp b p = none := by
  unfold Manager.broughtUp
  cases hn : m.inheritedNode b p with
  | none => rfl
  | some n => simp [h n hn]

theorem inheritedNode_of_some {m : Manager} {b : Branch} {p : RelPath} {src : Place}
    (h : m.inheritedForTouch b p = some src) : ∃ n, m.inheritedNode b p = some n := by
  have hk : m.inheritedKind b p ≠ none := by
    rw [Ne, Manager.inheritedKind_eq_none, h]
    simp
  rw [Manager.inheritedKind_eq] at hk
  cases hn : m.inheritedNode b p with
  | none => simp [hn] at hk
  | some n => exact ⟨n, rfl⟩

/-- The copy a first touch makes. -/
theorem copyUpInherited_ok {name : String} {p : RelPath} {b : Branch} {m m₁ : Manager}
    (hb : m.forest.get? name = some b) (hst : Straight m name p)
    (hfree : FreePlace m.disk (deltaPath name p)) (ht : Touched name m m₁)
    (hroom : m.refuses b p = false) :
    ∃ m₂ k, copyUpInherited (deltaPath name p) (m.inheritedForTouch b p) m₁ = .ok () m₂ ∧
      m₂.forest = m₁.forest ∧ m₂.quota.maxBytes = m₁.quota.maxBytes ∧
      CopyOf (m.broughtUp b p) k ∧ CopiedUp (deltaPath name p) k m₁.disk m₂.disk := by
  have hfree₁ : FreePlace m₁.disk (deltaPath name p) :=
    hfree.of_same fun x hx => ht.disk.same x (by rw [hx]; simp [deltaPath])
  cases hsrc : m.inheritedForTouch b p with
  | none =>
    have hup : m.broughtUp b p = none := by
      refine broughtUp_of_dir fun n hn => ?_
      simp [Manager.inheritedNode, hsrc] at hn
    exact ⟨m₁, none, rfl, rfl, rfl, by rw [hup]; rfl, CopiedUp.none hfree₁.free⟩
  | some src =>
    obtain ⟨n, hn⟩ := inheritedNode_of_some hsrc
    have hl : m₁.disk.lstat src = .ok n := lstat_of_touched hb hst ht hsrc hn
    by_cases hdir : n.kind.isDir = true
    · have hup : m.broughtUp b p = none := by
        simp [Manager.broughtUp, hn, hdir]
      refine ⟨m₁, none, ?_, rfl, rfl, by rw [hup]; rfl, CopiedUp.none hfree₁.free⟩
      show copyUp src (deltaPath name p) m₁ = .ok () m₁
      rw [copyUp, readDisk_bind, hl]
      simp only [hdir, if_true]
      rfl
    · have hcheck : m.quota.check (metaLen n) = true := by
        simpa [Manager.refuses, hn, hdir] using hroom
      have hup : m.broughtUp b p = some n.kind := by
        simp [Manager.broughtUp, hn, hdir, hcheck]
      obtain ⟨d, k, hd, hk, hcopied⟩ := copyEntry_ok hfree₁ hl (by simpa using hdir)
      refine ⟨{ m₁ with disk := d, quota := m₁.quota.add (metaLen n) }, some k, ?_, rfl, rfl,
        by rw [hup]; exact ⟨k, rfl, hk⟩, hcopied⟩
      show copyUp src (deltaPath name p) m₁ = _
      rw [copyUp, readDisk_bind, hl]
      simp only [hdir, Bool.false_eq_true, if_false]
      have hqc : quotaCheck (metaLen n) m₁ = .ok () m₁ := by
        simp only [quotaCheck, ht.quota, hcheck, if_true]
      rw [copyUpNode, bind_ok hqc, bind_ok (onDisk_ok hd)]
      rfl

/-- The quota stops the copy before anything is made. -/
theorem copyUpInherited_refused {name : String} {p : RelPath} {b : Branch} {m m₁ : Manager}
    (hb : m.forest.get? name = some b) (hst : Straight m name p) (ht : Touched name m m₁)
    (hroom : m.refuses b p = true) :
    copyUpInherited (deltaPath name p) (m.inheritedForTouch b p) m₁ = .error (.io .ENOSPC) m₁ := by
  unfold Manager.refuses at hroom
  cases hn : m.inheritedNode b p with
  | none => simp [hn] at hroom
  | some n =>
    obtain ⟨hdir, hcheck⟩ : n.kind.isDir = false ∧ m.quota.check (metaLen n) = false := by
      simpa [hn] using hroom
    cases hsrc : m.inheritedForTouch b p with
    | none => simp [Manager.inheritedNode, hsrc] at hn
    | some src =>
      have hl : m₁.disk.lstat src = .ok n := lstat_of_touched hb hst ht hsrc hn
      show copyUp src (deltaPath name p) m₁ = _
      rw [copyUp, readDisk_bind, hl]
      simp only [hdir, Bool.false_eq_true, if_false]
      have hqc : quotaCheck (metaLen n) m₁ = .error (.io .ENOSPC) m₁ := by
        simp only [quotaCheck, ht.quota, hcheck, Bool.false_eq_true, if_false]
      rw [copyUpNode, bind_error hqc]

theorem CopiedUp.parentDirs {delta : Place} {copy : Option Entry} {d d' : Tree}
    (h : CopiedUp delta copy d d') (hfree : FreePlace d delta) :
    ∃ d'', Posix.Sys.createDirAll delta.parent d' = .ok () d'' ∧
      Posix.Sys.MadeDirs delta.parent d' d'' ∧ Grows d' d'' := by
  cases copy with
  | none =>
    rw [h.idle rfl]
    exact hfree.parentDirs
  | some k =>
    obtain ⟨r, hr⟩ := hfree.root
    have hne : delta.path ≠ [] := Disk.path_ne_nil_of_not_dir (d := d) (by simp [hfree.free])
    have hdir : d'.kindAt delta.parent = some .dir :=
      h.above (by simp) _ (Loc.parent_le delta) (Loc.parent_ne hne)
    have hup : d'.kindAt (Loc.parent delta.parent) = some .dir := Disk.dir_parent (by simp [hdir])
    have hlink := Disk.noLinkAbove_of_dir hup
    have hl := Disk.linkAt_eq_false_of_kind hdir rfl
    have hfa := Disk.not_fileAbove_of_dir hup
    have hf : d'.fileAt delta.parent = false := by simp [Disk.fileAt, hdir, Kind.isFile]
    obtain ⟨d'', hd'', hmade⟩ := Posix.Sys.createDirAll_ok (l := delta.parent) hr hlink hl hfa hf
    exact ⟨d'', hd'', hmade, Grows.of_madeDirs hmade hfa hlink hf hl⟩

section EnsureDelta

variable {name : String} {p : RelPath} {b : Branch} {m : Manager}

theorem not_lexists_of_free {l : Place} (h : FreePlace m.disk l) : m.disk.lexists l = false := by
  obtain ⟨r, hr⟩ := h.root
  rw [← Bool.not_eq_true, Disk.lexists_eq hr h.noLink]
  exact fun hne => hne h.free

theorem inherited_lkind (l : Place) (h : m.inheritedForTouch b p = some l) :
    m.disk.lkind l ≠ none := by
  unfold Manager.inheritedForTouch at h
  split at h
  · cases h
  · exact Manager.inheritedResolve_lkind h

theorem inheritedForTouch_ok (hb : m.forest.get? name = some b) :
    inheritedForTouch name p m = .ok (m.inheritedForTouch b p) m := by
  simp only [inheritedForTouch, hb]

end EnsureDelta

/-- **Copy-on-write of a free place succeeds** unless the quota turns the copy away. -/
theorem ensureDelta_ok {name : String} {p : RelPath} {b : Branch} {m : Manager}
    (hb : m.forest.get? name = some b) (hw : b.isWritable = true)
    (hfree : FreePlace m.disk (deltaPath name p)) (hcap : CanCapture m.disk name)
    (hst : Straight m name p) (hroom : m.refuses b p = false) :
    ∃ m', ensureDeltaPathForWrite name p m = .ok (deltaPath name p) m' ∧ Ensured name p b m m' := by
  obtain ⟨m₁, hrec, ht⟩ := recordFirstTouch_ok (p := p) true hb hcap
    (fun l hl => inherited_lkind (p := p) (b := b) l hl)
  obtain ⟨m₂, k, hcopy, hforest, hquota, hk, hup⟩ := copyUpInherited_ok hb hst hfree ht hroom
  have hfree₁ : FreePlace m₁.disk (deltaPath name p) :=
    hfree.of_same fun x hx => ht.disk.same x (by rw [hx]; simp [deltaPath])
  obtain ⟨d, hd, hmade, hgrow⟩ := hup.parentDirs hfree₁
  let m₃ : Manager := { m₂ with forest := m₂.forest.modify name (Branch.removeTombstone p) }
  let m₄ : Manager := { m₃ with disk := d }
  have htouch : touchAndCopyUp name p m = .ok () m₂ := by
    rw [touchAndCopyUp, bind_ok (inheritedForTouch_ok hb), bind_ok hrec]
    exact hcopy
  have hrun : ensureDeltaPathForWrite name p m = .ok (deltaPath name p) m₄ := by
    rw [ensureDeltaPathForWrite, bind_ok (writableBranch_ok hb hw)]
    rw [readDisk_bind, not_lexists_of_free hfree, when_true (by simp), bind_ok htouch,
      bind_ok (show modifyBranch name (Branch.removeTombstone p) m₂ = .ok () m₃ from rfl),
      bind_ok (show onDisk (Io.ensureParentDirs (deltaPath name p)) m₃ = .ok () m₄ from
        onDisk_ok hd)]
    rfl
  have hsettings : ∀ c : Branch, SameSettings c (c.removeTombstone p) :=
    fun c => ⟨rfl, rfl, rfl, rfl, rfl, rfl, rfl⟩
  have hadds₂ : Adds name m₁ m₂ :=
    ⟨by rw [hforest]; exact Forest.SameBut.refl name _,
      sameOn_of_own (own_files name) hup.same, hup.grows, hquota⟩
  have hadds₄ : Adds name m₃ m₄ :=
    Adds.of_disk (sameOn_of_own (own_files name) hmade.same) hgrow
  obtain ⟨b₁, hb₁, hs₁, hts₁⟩ := ht.get? hb
  refine ⟨m₄, hrun, ht.adds.trans (hadds₂.trans ((Adds.of_modify hsettings).trans hadds₄)), ?_, ?_, ?_, ?_⟩
  · refine ⟨b₁.removeTombstone p, ?_, hs₁.trans (hsettings b₁), ?_⟩
    · exact Forest.get?_modify_self (by rw [hforest]; exact hb₁) rfl rfl
    · rw [Branch.removeTombstone, hts₁]
  · have hnot : ¬ deltaPath name p ≤ (deltaPath name p).parent := by
      intro hle
      have hne : (deltaPath name p).path ≠ [] :=
        Disk.path_ne_nil_of_not_dir (d := m.disk) (by simp [hfree.free])
      exact Loc.parent_ne hne (le_antisymm (Loc.parent_le _) hle)
    have : d.kindAt (deltaPath name p) = k := by rw [hmade.kind, if_neg hnot, hup.at_delta]
    show CopyOf _ (d.kindAt (deltaPath name p))
    rwa [this]
  · intro x hx hne
    exact MadeDirs.above hmade hx hne
  · intro x hx hnle
    show d.kindAt x = _
    rw [MadeDirs.other hmade hnle, hup.other x hnle]
    refine ht.disk.same.kindAt ?_
    rw [hx]
    simp

/-- A copy the quota has no room for stops copy-on-write after the touch. -/
theorem ensureDelta_refused {name : String} {p : RelPath} {b : Branch} {m : Manager}
    (hb : m.forest.get? name = some b) (hw : b.isWritable = true)
    (hfree : FreePlace m.disk (deltaPath name p)) (hcap : CanCapture m.disk name)
    (hst : Straight m name p) (hroom : m.refuses b p = true) :
    ∃ m', ensureDeltaPathForWrite name p m = .error (.io .ENOSPC) m' ∧ Touched name m m' := by
  obtain ⟨m₁, hrec, ht⟩ := recordFirstTouch_ok (p := p) true hb hcap
    (fun l hl => inherited_lkind (p := p) (b := b) l hl)
  have htouch : touchAndCopyUp name p m = .error (.io .ENOSPC) m₁ := by
    rw [touchAndCopyUp, bind_ok (inheritedForTouch_ok hb), bind_ok hrec]
    exact copyUpInherited_refused hb hst ht hroom
  refine ⟨m₁, ?_, ht⟩
  rw [ensureDeltaPathForWrite, bind_ok (writableBranch_ok hb hw)]
  rw [readDisk_bind, not_lexists_of_free hfree, when_true (by simp), bind_error htouch]

end BranchFs
