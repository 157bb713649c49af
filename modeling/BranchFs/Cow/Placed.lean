/-
# BranchFs.Cow.Placed -- what copy-on-write and a first write leave in the delta

`ensure_delta_path_for_write` and `write_data_to_branch` of a name in a directory the branch shows, when
they return Ok: the delta has the entry at the path and directories on the way to it, all of them with the
attributes the calls gave them; the tombstone of the path is gone; and nothing else has changed outside
the branch's staging and touch-content directories. Everything said about a successful write is read off
this.
-/
import BranchFs.Cow.Delete
import BranchFs.Posix.Attr

namespace BranchFs

open BranchFs.Posix BranchFs.Logic

/-! ## What is inherited, attributes included -/

section Unseen

variable {m m' : Manager} {name : String} {b b' : Branch} {p : RelPath}

/-- No link in the layers below the branch leads into the branch's own store: whatever stood there, a
look into the layers would find the same entries. -/
def Manager.LayersUnseen (m : Manager) (name : String) : Prop :=
  ∀ d : Tree, SameOn (fun r => ¬ Own name r) m.disk d → SameLayout m.disk d →
    ∀ r ∈ m.layers name, ∀ p,
      (d.lstat ⟨some r, p⟩).toOption = (m.disk.lstat ⟨some r, p⟩).toOption

theorem Manager.LayersUnseen.apart (h : m.LayersUnseen name) : m.LayersApart name := by
  intro d hd hl r hr p
  unfold Disk.lkind
  rw [h d hd hl r hr p]

/-- Layers without links have none that leads anywhere. -/
theorem layersUnseen_of_linkless (h : ∀ r ∈ m.layers name, ∀ p, m.disk.linkAt ⟨some r, p⟩ = false) :
    m.LayersUnseen name := by
  intro d hd _ r hr p
  refine Straight.lstat (p := p) (fun r' hr' => ?_) hd hr
  refine Disk.noLinkAbove_of fun x hx _ => ?_
  have hxr : x = ⟨some r', x.path⟩ := Loc.ext' hx.1 rfl
  rw [hxr]
  exact h r' hr' x.path

/-- What a look at the inherited entry finds once the branch's own trees have changed. -/
theorem Manager.LayersUnseen.lstat (h : m.LayersUnseen name) (hb : m.forest.get? name = some b)
    {d : Tree} (hd : SameOn (fun r => ¬ Own name r) m.disk d) (hl : SameLayout m.disk d) {src : Place}
    (hsrc : m.inheritedForTouch b p = some src) {n : Node String}
    (hn : m.inheritedNode b p = some n) : d.lstat src = .ok n := by
  have hres : m.inheritedResolve b p = some src := by
    unfold Manager.inheritedForTouch at hsrc
    split at hsrc
    · cases hsrc
    · exact hsrc
  obtain ⟨r, hr, rfl⟩ := Manager.mem_layers_of_inherited hb hres
  have heq := h d hd hl r hr p
  rw [Manager.inheritedNode, hsrc, Option.bind_some] at hn
  rw [hn] at heq
  cases hfound : d.lstat ⟨some r, p⟩ with
  | error e =>
    rw [hfound] at heq
    cases heq
  | ok n' =>
    rw [hfound] at heq
    cases heq
    rfl

end Unseen

/-! ## The first touch -/

section Calm

/-- Mounts stay, and inode numbers stay apart. -/
def Calm (m m' : Manager) : Prop := SameMounts m m' ∧ Disk.NumbersStay m.disk m'.disk

theorem Calm.refl (m : Manager) : Calm m m := ⟨rfl, Disk.NumbersStay.refl _⟩

theorem Calm.trans {m m' m'' : Manager} (h : Calm m m') (h' : Calm m' m'') : Calm m m'' :=
  ⟨h.1.trans h'.1, h.2.trans h'.2⟩

variable {α β : Type} {name : String} {p : RelPath}

theorem calm_bind {x : Mgr α} {f : α → Mgr β} (hx : Keeps Calm x) (hf : ∀ a, Keeps Calm (f a)) :
    Keeps Calm (x >>= f) := by
  have htrans : ∀ s t u : Manager, Calm s t → Calm t u → Calm s u := fun _ _ _ => Calm.trans
  exact keeps_bind htrans hx hf

theorem calm_onDisk {x : Io α} (h : Sys.Settled x) (hn : Keeps Disk.NumbersStay x) :
    Keeps Calm (onDisk x) := by
  intro m
  refine ⟨mounts_onDisk h m, ?_⟩
  have hd := hn m.disk
  unfold after at hd ⊢
  unfold onDisk
  cases hx : x m.disk with
  | ok a d => simpa [hx] using hd
  | error e d => simpa [hx] using hd

/-- A look at a file changes nothing. -/
theorem readBoundedText_idle (l : Place) (d : Tree) : after (readBoundedText l) d = d := by
  unfold after
  cases hl : d.lstat l with
  | ok n => rw [readBoundedText_eq hl]
  | error e =>
    unfold readBoundedText
    rw [hl]
    cases e <;> rfl

theorem calm_captureBaseContent (inherited : Option Place) :
    Keeps Calm (captureBaseContent name p inherited) := by
  cases inherited with
  | none => exact Calm.refl
  | some src =>
    have hread : Keeps Calm (onDisk (readBoundedText src)) := by
      have hidle := readBoundedText_idle src
      refine calm_onDisk (fun d => ?_) fun d => ?_
      · rw [hidle]
        exact SameLayout.refl d
      · rw [hidle]
        exact Disk.NumbersStay.refl d
    refine calm_bind hread fun text => ?_
    cases text with
    | none => exact Calm.refl
    | some bytes =>
      refine calm_bind (calm_onDisk (Sys.settled_createDirAll _) (Sys.numbersStay_createDirAll _))
        fun _ => ?_
      refine calm_bind (calm_onDisk (Sys.settled_writeFile _ _) (Sys.numbersStay_writeFile _ _))
        fun _ => ?_
      exact Calm.refl

theorem calm_recordFirstTouch (inherited : Option Place) (capture : Bool) :
    Keeps Calm (recordFirstTouch name p inherited capture) := by
  have hget : Keeps Calm (getBranch name) := by
    intro m
    unfold after getBranch
    cases m.forest.get? name <;> exact Calm.refl m
  refine calm_bind hget fun b => ?_
  split
  · exact Calm.refl
  · have hread : Keeps Calm (readDisk fun d => PathIdentity.fromPath d inherited) := Calm.refl
    have hkey : Keeps Calm (contentKey name p inherited capture) := by
      cases capture with
      | true => exact calm_captureBaseContent inherited
      | false => exact Calm.refl
    exact calm_bind hread fun _ => calm_bind hkey fun _ => Calm.refl

end Calm

/-! ## A name in a directory the branch shows -/

/-- A name in a directory that the branch shows. Its touch-content directory holds files only, the
staging name is fresh, no two names of its own trees are one inode, and no link in the layers below
leads into its store. -/
structure NameIn (m : Manager) (name : String) (b : Branch) (dir : RelPath) : Prop where
  branch : m.forest.get? name = some b
  shown : m.view name dir = some .dir
  capture : CanCapture m.disk name
  unseen : m.LayersUnseen name
  numbered : ∀ R, Own name R → Disk.Numbered m.disk R
  staging : m.disk.kindAt (stagingPath name) = none

section NameIn

variable {m m' : Manager} {name : String} {b : Branch} {dir : RelPath} {n : String}

/-- The delta has a directory or nothing at every step of the way. -/
theorem NameIn.way (h : NameIn m name b dir) {a : RelPath} (ha : a <+: dir) :
    deltaKind m.disk name a = none ∨ deltaKind m.disk name a = some .dir :=
  (delta_of_shown h.branch (Manager.kindOf_of_view_dir h.shown) a.length a rfl ha).2

theorem NameIn.noLink (h : NameIn m name b dir) :
    m.disk.NoLinkAbove (deltaPath name (dir ++ [n])) := by
  refine Disk.noLinkAbove_of fun x hx hne => ?_
  obtain ⟨a, ha, rfl⟩ := le_deltaPath.mp hx
  rcases h.way (prefix_of_mem_dir ha (deltaPath_ne.mp hne)) with hk | hk
  · exact Disk.linkAt_of_none hk
  · exact Disk.linkAt_eq_false_of_kind hk rfl

theorem NameIn.free (h : NameIn m name b dir) (hk : deltaKind m.disk name (dir ++ [n]) = none) :
    FreePlace m.disk (deltaPath name (dir ++ [n])) := by
  refine ⟨⟨_, rfl⟩, h.noLink, ?_, hk⟩
  rw [← Bool.not_eq_true, Disk.fileAbove_iff]
  rintro ⟨x, hx, hne, hf⟩
  obtain ⟨a, ha, rfl⟩ := le_deltaPath.mp hx
  rcases h.way (prefix_of_mem_dir ha (deltaPath_ne.mp hne)) with hw | hw <;>
    simp [Disk.fileAt, show m.disk.kindAt (deltaPath name a) = _ from hw, Kind.isFile] at hf

theorem NameIn.lexists (h : NameIn m name b dir) :
    m.disk.lexists (deltaPath name (dir ++ [n])) = true ↔
      deltaKind m.disk name (dir ++ [n]) ≠ none := Disk.lexists_eq rfl h.noLink

end NameIn

/-! ## Making the entry -/

section Entry

variable {d d' d₁ : Tree} {l src : Place}

/-- What the calls of one operation leave of the disk: the entry `a` at `l`, plain directories made on
the way, and the rest of that tree as it was. -/
structure Entered (l : Place) (a : Option (Attr String)) (d d' : Tree) : Prop where
  attr : ∀ x, x.root = l.root → d'.attrAt x =
    if x = l then a else if x ≤ l ∧ d.kindAt x = none then some Attr.newDir else d.attrAt x
  same : SameOn (fun r => r ≠ l.root) d d'
  mounts : SameLayout d d'

/-- The directories alone. -/
theorem FreePlace.entered (h : FreePlace d l) :
    ∃ d', Posix.Sys.createDirAll l.parent d = .ok () d' ∧ Entered l none d d' ∧
      Posix.Sys.MadeDirs l.parent d d' ∧ Disk.NumbersStay d d' := by
  obtain ⟨d', hd', hmade, _⟩ := h.parentDirs
  have hne : l.path ≠ [] := Disk.path_ne_nil_of_not_dir (d := d) (by simp [h.free])
  refine ⟨d', hd', ⟨fun x _ => ?_, hmade.same, (Sys.settled_createDirAll _).ok hd'⟩, hmade,
    (Sys.numbersStay_createDirAll _).ok hd'⟩
  rw [Sys.attrAt_createDirAll hd' hmade]
  by_cases hx : x = l
  · subst hx
    have hnot : ¬ x ≤ x.parent := fun hle =>
      Loc.parent_ne hne (le_antisymm (Loc.parent_le x) hle)
    rw [if_pos rfl, if_neg fun hc => hnot hc.1, Disk.attrAt_eq_none.mpr h.free]
  · rw [if_neg hx]
    have hiff : (x ≤ l.parent ∧ d.kindAt x = none) ↔ (x ≤ l ∧ d.kindAt x = none) :=
      ⟨fun hc => ⟨hc.1.trans (Loc.parent_le l), hc.2⟩, fun hc => ⟨Loc.le_parent_of_lt hc.1 hx, hc.2⟩⟩
    exact if_congr hiff rfl rfl

/-- A change at the place itself, after the directories. -/
theorem Entered.put {a a' : Option (Attr String)} (h : Entered l a d d₁)
    (hattr : ∀ x, x.root = l.root → d'.attrAt x = if x = l then a' else d₁.attrAt x)
    (hs : SameOn (fun r => r ≠ l.root) d₁ d') (hl : SameLayout d₁ d') : Entered l a' d d' := by
  refine ⟨fun x hx => ?_, h.same.trans hs, h.mounts.trans hl⟩
  rw [hattr x hx]
  by_cases hxl : x = l
  · rw [if_pos hxl, if_pos hxl]
  · rw [if_neg hxl, if_neg hxl, h.attr x hx, if_neg hxl]

/-- The attributes of a copy: contents and mode, but not the owner. -/
def copyAttr (n : Node String) : Option (Attr String) :=
  match n.kind with
  | .dir => none
  | .symlink t => some ⟨.symlink t, 0o777, 0, 0⟩
  | .file c => some ⟨.file c, n.mode, 0, 0⟩

/-- **`copy_entry`** of a file or link into a free place. -/
theorem copyEntry_entered {n : Node String} (h : FreePlace d l)
    (hread : ∀ d₁, SameOn (fun r => r ≠ l.root) d d₁ → SameLayout d d₁ → d₁.lstat src = .ok n)
    (hn : n.kind ≠ .dir) :
    ∃ d', Io.copyEntry src l d = .ok () d' ∧ Entered l (copyAttr n) d d' := by
  obtain ⟨r, hr⟩ := h.root
  obtain ⟨d₁, hd₁, hent, hmade, _⟩ := h.entered
  have hs : d₁.lstat src = .ok n := hread d₁ hent.same hent.mounts
  have hfree : d₁.kindAt l = none := MadeDirs.free hmade h.free
  have hpar : d₁.kindAt l.parent = some .dir := by rw [hmade.kind, if_pos (le_refl _)]
  have hcopy : Io.copyEntry src l d = Io.copyNode src l n d₁ := by
    unfold Io.copyEntry
    rw [bind_ok (show Io.ensureParentDirs l d = .ok () d₁ from hd₁),
      bind_ok (show Io.symlinkMetadata src d₁ = .ok n d₁ by simp only [Io.symlinkMetadata, hs])]
  rw [hcopy]
  unfold copyAttr
  cases hk : n.kind with
  | dir => exact absurd hk hn
  | symlink t =>
    obtain ⟨e, he⟩ := Posix.Sys.removeFile_other (d := d₁) hr
      (Disk.noLinkAbove_of_dir hpar) (Or.inl hfree)
    obtain ⟨d₂, hd₂, hadd⟩ := Posix.Sys.symlink_of_free (t := t) (d := d₁) hr hpar hfree
    refine ⟨d₂, ?_, hent.put (fun x _ => Disk.attrAt_add hadd x) (Disk.sameOn_add hadd (by simp))
      (Disk.layout_add hadd)⟩
    simp only [Io.copyNode, hk]
    rw [bind_ok (show attempt (Posix.Sys.removeFile l) d₁ = .ok (.error e) d₁ by
      simp only [attempt, he])]
    exact hd₂
  | file c =>
    have hst : d₁.stat src = .ok n := Disk.stat_of_lstat hs (by simp [hk, Kind.isSymlink])
    obtain ⟨d₂, hd₂, hput⟩ := Posix.Sys.copyFile_ok (d := d₁) hr hst hk hpar (Or.inl hfree)
    refine ⟨d₂, ?_, hent.put (fun x _ => ?_) (Posix.Sys.sameOn_putFile_ok hput)
      (Disk.layout_putFile hput)⟩
    · simp only [Io.copyNode, hk]
      exact hd₂
    · rw [Disk.attrAt_putFile hput]
      unfold Disk.putAttr
      rw [Disk.attrAt_eq_none.mpr hfree]
      rfl

/-- **The copy written aside and moved into the delta.** -/
theorem stageWrite_entered {name : String} {n : Node String} {c : Bytes} {r : Root}
    (hr : l.root = some r) (hrs : some r ≠ some (.staging name))
    (hs : d.lstat src = .ok n) (hn : n.kind = .file c)
    (hfree : d.kindAt l = none) (hpar : d.kindAt l.parent = some .dir)
    (hstage : d.kindAt (stagingPath name) = none)
    (hnum : Disk.Numbered d (some (.staging name))) (off : Nat) (data : Bytes) :
    ∃ res d', stageWrite name src l off data d = .ok res d' ∧ res.1 = data.length ∧
      (∀ x, x.root = l.root → d'.attrAt x =
        if x = l then some ⟨.file (splice c off data), n.mode, 0, 0⟩ else d.attrAt x) ∧
      SameOn (fun r => r ≠ l.root ∧ r ≠ some (.staging name)) d d' ∧ SameLayout d d' := by
  have hst : d.stat src = .ok n := Disk.stat_of_lstat hs (by simp [hn, Kind.isSymlink])
  have htop : d.kindAt (stagingPath name).parent = some .dir := Disk.kindAt_root d rfl
  have hsne : (stagingPath name).path ≠ [] := by simp [stagingPath]
  obtain ⟨d₁, hcopy, hput⟩ :=
    Posix.Sys.copyFile_ok (r := .staging name) rfl hst hn htop (Or.inl hstage)
  have hattr₁ : d₁.attrAt (stagingPath name) = some ⟨.file c, n.mode, 0, 0⟩ := by
    rw [Disk.attrAt_putFile hput, if_pos rfl]
    unfold Disk.putAttr
    rw [Disk.attrAt_eq_none.mpr hstage]
    rfl
  have hsame₁ : SameOn (fun r => r ≠ some (.staging name)) d d₁ :=
    Posix.Sys.sameOn_putFile_ok hput
  have hmount₁ : SameLayout d d₁ := Disk.layout_putFile hput
  have hfile₁ : d₁.fileAt (stagingPath name) = true :=
    Disk.fileAt_iff.mpr ⟨c, Disk.kindAt_of_attr hattr₁⟩
  obtain ⟨h, d₂, d₃, hopen, hwrite, hattr₃, hsame₃, hlay₃⟩ := Sys.openWrite_pwrite
    (r := .staging name) rfl (Disk.kindAt_root d₁ rfl) (Or.inr hfile₁)
    (Disk.numbersStay_putFile hput _ hnum) off data
  have hself : d₃.attrAt (stagingPath name) =
      some ⟨.file (splice c off data), n.mode, 0, 0⟩ := by
    rw [hattr₃, if_pos rfl, hattr₁]
    rfl
  have hkind₃ : d₃.kindAt (stagingPath name) = some (.file (splice c off data)) :=
    Disk.kindAt_of_attr hself
  have hstat : ∃ k, d₃.stat (stagingPath name) = .ok k := by
    obtain ⟨k, hk, _⟩ := Disk.exists_get hkind₃
    exact ⟨k, Disk.stat_of_get rfl hk (Disk.linkAt_eq_false_of_kind hkind₃ rfl)⟩
  obtain ⟨k, hk⟩ := hstat
  have hsame : SameOn (fun r => r ≠ some (.staging name)) d d₃ := hsame₁.trans hsame₃
  have hrl : l.root ≠ some (.staging name) := by rw [hr]; exact hrs
  have hapart : ¬ l ≤ stagingPath name := fun hle => hrl hle.1
  have hne : l.path ≠ [] := Disk.path_ne_nil_of_not_dir (d := d) (by simp [hfree])
  have hfree₃ : d₃.kindAt l = none := by rw [hsame.kindAt hrl, hfree]
  have hfit : Sys.Fits d₃ (.file (splice c off data)) l :=
    ⟨by simp, fun _ => by simp [hfree₃], Sys.children_eq_nil d₃ (by simp [hfree₃])⟩
  have hpar₃ : d₃.kindAt l.parent = some .dir := by
    rw [hsame.kindAt (l := l.parent) hrl, hpar]
  obtain ⟨d', hren, hshift⟩ := Sys.rename_ok
    (show (stagingPath name).root = some (.staging name) from rfl) hr hkind₃ hpar₃ hsne hne
    (fun hle => hrl hle.1.symm) hfit
  have hdata : writeDataToFile (stagingPath name) off data d₁ = .ok data.length d₃ := by
    rw [writeDataToFile, bind_ok hopen]
    exact hwrite
  have hlook : lenAt (stagingPath name) d₃ = .ok (metaLen k) d₃ := by
    simp only [lenAt, hk]
  refine ⟨(data.length, metaLen k), d', ?_, rfl, fun x hx => ?_, ?_, ?_⟩
  · apply stageWrite_of_ok
    rw [stageWriteCalls, bind_ok hcopy, bind_ok hdata, bind_ok hlook, bind_ok hren]
    rfl
  · rw [Disk.attrAt_shift hshift hapart]
    by_cases hxl : x = l
    · rw [if_pos (le_of_eq hxl.symm), if_pos hxl, hxl, Loc.rebase_self, hself]
    · have hns : ¬ stagingPath name ≤ x := fun hle => hrl (hx.symm.trans hle.1.symm)
      have hold : d₃.attrAt x = d.attrAt x := Disk.attrAt_congr (hsame x (by rw [hx]; exact hrl))
      rw [if_neg hxl, if_neg hns, hold]
      split
      · next hle =>
        -- nothing stands below a file, and nothing stood below a free place
        have hbelow : d₃.kindAt (Loc.rebase l (stagingPath name) x) = none := by
          refine Disk.none_below (by simp [hkind₃]) (Loc.le_rebase _ _ _) fun heq => hxl ?_
          have := congrArg (Loc.rebase (stagingPath name) l) heq
          rw [Loc.rebase_self, Loc.rebase_rebase hle] at this
          exact this.symm
        rw [Disk.attrAt_eq_none.mpr hbelow, Disk.attrAt_eq_none.mpr (Disk.none_of_le hfree hle)]
      · rfl
  · refine (hsame.mono fun _ hP => hP.2).trans (Disk.sameOn_shift hshift ?_ ?_)
    · simp [stagingPath]
    · simp
  · exact (hmount₁.trans hlay₃).trans (Disk.layout_shift hshift)

end Entry

/-! ## What the operations leave -/

/-- The entry `a` in the delta at `p`, directories on the way, the tombstone of `p` gone, and the rest of
the delta and what lies outside the branch's own trees as they were. -/
structure Placed (m m' : Manager) (name : String) (b : Branch) (p : RelPath)
    (a : Option (Attr String)) : Prop where
  branch : ∃ b', m'.forest.get? name = some b' ∧ b'.tombstones = b.tombstones.filter (· ≠ p)
  forest : m.forest.SameBut name m'.forest
  attr : ∀ q, m'.disk.attrAt (deltaPath name q) =
    if q = p then a
    else if q <+: p ∧ deltaKind m.disk name q = none then some Attr.newDir
    else m.disk.attrAt (deltaPath name q)
  same : SameOn (fun r => ¬ Own name r) m.disk m'.disk
  mounts : SameMounts m m'

section Placed

variable {m m₁ m' : Manager} {name : String} {b : Branch} {dir p : RelPath} {n : String}

theorem Touched.refl (hcap : CanCapture m.disk name) : Touched name m m :=
  ⟨⟨id, (modify_id _ _).symm, fun c => ⟨SameSettings.refl c, rfl⟩⟩, Captured.refl hcap, rfl⟩

/-- A first touch leaves the delta alone. -/
theorem Touched.delta (h : Touched name m m₁) {x : Place} (hx : x.root = some (.files name)) :
    m₁.disk.get x = m.disk.get x := h.disk.same x (by rw [hx]; simp)

/-- An operation from its touch and what it did to the delta. -/
theorem Touched.placed {a : Option (Attr String)} (ht : Touched name m m₁) (hc : Calm m m₁)
    (hb : m.forest.get? name = some b)
    (hforest : m'.forest = m₁.forest.modify name (Branch.removeTombstone p))
    (hattr : ∀ x : Place, x.root = some (.files name) → m'.disk.attrAt x =
      if x = deltaPath name p then a
      else if x ≤ deltaPath name p ∧ m₁.disk.kindAt x = none then some Attr.newDir
      else m₁.disk.attrAt x)
    (hs : SameOn (fun r => ¬ Own name r) m₁.disk m'.disk) (hl : SameMounts m₁ m') :
    Placed m m' name b p a := by
  obtain ⟨b₁, hb₁, hset, hts⟩ := ht.get? hb
  have hsettings : ∀ c : Branch, SameSettings c (c.removeTombstone p) :=
    fun c => ⟨rfl, rfl, rfl, rfl, rfl, rfl, rfl⟩
  refine ⟨⟨b₁.removeTombstone p, ?_, ?_⟩, ?_, fun q => ?_, ht.adds.same.trans hs, hc.1.trans hl⟩
  · rw [hforest]
    exact Forest.get?_modify_self hb₁ rfl rfl
  · rw [Branch.removeTombstone, hts]
  · rw [hforest]
    exact ht.adds.forest.trans (Forest.SameBut.of_modify hsettings)
  · have hget : m₁.disk.get (deltaPath name q) = m.disk.get (deltaPath name q) := ht.delta rfl
    rw [hattr _ rfl]
    by_cases hq : q = p
    · rw [if_pos hq, if_pos (by rw [hq])]
    · rw [if_neg hq, if_neg (deltaPath_ne.mpr hq), Disk.attrAt_congr hget]
      have hkind : m₁.disk.kindAt (deltaPath name q) = deltaKind m.disk name q := by
        unfold deltaKind Disk.kindAt
        rw [hget]
      rw [hkind]
      exact if_congr (and_congr_left fun _ => deltaPath_le) rfl rfl

/-- The attributes the delta has at `p` after copy-on-write. -/
def Manager.upAttr (m : Manager) (b : Branch) (p : RelPath) : Option (Attr String) :=
  (m.disk.attrAt (deltaPath b.name p)).or ((m.inheritedNode b p).bind copyAttr)

/-- The guard passed without a change. -/
theorem writableBranch_idle {c : Branch} (h : writableBranch name m = .ok c m') : m' = m := by
  unfold writableBranch at h
  split at h
  · split at h
    · cases h
      rfl
    · cases h
  · cases h

/-- The check passed without a change. -/
theorem quotaCheck_idle {k : UInt64} (h : quotaCheck k m = .ok () m') : m' = m := by
  unfold quotaCheck at h
  split at h
  · cases h
    rfl
  · cases h

/-- What the copy of a first touch leaves, when it went through. -/
theorem copyUpInherited_entered (h : NameIn m name b dir)
    (hfree : deltaKind m.disk name (dir ++ [n]) = none) (ht : Touched name m m₁) (hc : Calm m m₁)
    (hok : copyUpInherited (deltaPath name (dir ++ [n])) (m.inheritedForTouch b (dir ++ [n])) m₁ =
      .ok () m') :
    m'.forest = m₁.forest ∧
      (((m.inheritedNode b (dir ++ [n])).bind copyAttr = none ∧ m'.disk = m₁.disk ∧
          m'.quota = m₁.quota) ∨
        ((m.inheritedNode b (dir ++ [n])).bind copyAttr ≠ none ∧
          Entered (deltaPath name (dir ++ [n])) ((m.inheritedNode b (dir ++ [n])).bind copyAttr)
            m₁.disk m'.disk)) := by
  have hplace : FreePlace m₁.disk (deltaPath name (dir ++ [n])) :=
    (h.free hfree).of_same fun x hx => ht.delta hx
  cases hsrc : m.inheritedForTouch b (dir ++ [n]) with
  | none =>
    rw [hsrc] at hok
    cases hok
    exact ⟨rfl, Or.inl ⟨by simp [Manager.inheritedNode, hsrc], rfl, rfl⟩⟩
  | some src =>
    obtain ⟨k, hk⟩ := inheritedNode_of_some hsrc
    have hread : ∀ d, SameOn (fun r => r ≠ some (.files name)) m₁.disk d → SameLayout m₁.disk d →
        d.lstat src = .ok k := fun d hd hl =>
      h.unseen.lstat h.branch (ht.adds.same.trans (sameOn_of_own (own_files name) hd))
        (SameLayout.trans hc.1 hl) hsrc hk
    have hl : m₁.disk.lstat src = .ok k := hread _ (SameOn.refl _ _) (SameLayout.refl _)
    rw [hk, Option.bind_some]
    rw [hsrc] at hok
    change copyUp src (deltaPath name (dir ++ [n])) m₁ = .ok () m' at hok
    rw [copyUp, readDisk_bind, hl] at hok
    dsimp only at hok
    by_cases hdir : k.kind = .dir
    · rw [if_pos (by simp [hdir])] at hok
      cases hok
      exact ⟨rfl, Or.inl ⟨by simp [copyAttr, hdir], rfl, rfl⟩⟩
    · rw [if_neg (by simpa using hdir)] at hok
      obtain ⟨d, hd, hent⟩ := copyEntry_entered hplace hread hdir
      obtain ⟨_, m₂, hcheck, hrest⟩ := bind_eq_ok hok
      rw [quotaCheck_idle hcheck, bind_ok (onDisk_ok hd)] at hrest
      cases hrest
      refine ⟨rfl, Or.inr ⟨?_, hent⟩⟩
      unfold copyAttr
      cases hkk : k.kind with
      | dir => exact absurd hkk hdir
      | file c => simp
      | symlink t => simp

/-- Nothing but the entry itself is asked of a place that has one. -/
theorem Entered.idle {l : Place} {d : Tree} {a : Attr String} (ha : d.attrAt l = some a) :
    Entered l (some a) d d := by
  refine ⟨fun x _ => ?_, SameOn.refl _ d, SameLayout.refl d⟩
  by_cases hx : x = l
  · rw [if_pos hx, hx, ha]
  · rw [if_neg hx, if_neg]
    rintro ⟨hle, hnone⟩
    have hthere : d.kindAt l ≠ none := fun hk => by
      rw [Disk.attrAt_eq_none.mpr hk] at ha
      cases ha
    rw [Disk.dir_above hthere hle hx] at hnone
    cases hnone

/-- **Copy-on-write in its parts**, where it returns Ok: the touch, what the delta gets, the tombstone that
goes, and no charge where nothing comes up. -/
theorem ensureDelta_parts (h : NameIn m name b dir) {l : Place}
    (hok : ensureDeltaPathForWrite name (dir ++ [n]) m = .ok l m') :
    ∃ m₁, Touched name m m₁ ∧ Calm m m₁ ∧
      m'.forest = m₁.forest.modify name (Branch.removeTombstone (dir ++ [n])) ∧
      Entered (deltaPath name (dir ++ [n])) (m.upAttr b (dir ++ [n])) m₁.disk m'.disk ∧
      ((deltaKind m.disk name (dir ++ [n]) = none →
        (m.inheritedNode b (dir ++ [n])).bind copyAttr = none) → m'.quota = m.quota) := by
  have hname := Forest.name_of_get? h.branch
  unfold ensureDeltaPathForWrite at hok
  obtain ⟨_, m₀, hw, hrest⟩ := bind_eq_ok hok
  rw [writableBranch_idle hw, readDisk_bind] at hrest
  by_cases hk : deltaKind m.disk name (dir ++ [n]) = none
  · have hno : m.disk.lexists (deltaPath name (dir ++ [n])) = false := by
      rw [← Bool.not_eq_true, h.lexists, not_not]
      exact hk
    rw [hno, when_true (by simp)] at hrest
    obtain ⟨_, m₂, htouch, hrest₂⟩ := bind_eq_ok hrest
    rw [touchAndCopyUp, bind_ok (inheritedForTouch_ok h.branch)] at htouch
    obtain ⟨m₁, hrec, ht⟩ := recordFirstTouch_ok (p := dir ++ [n]) true h.branch h.capture
      (fun l hl => inherited_lkind (p := dir ++ [n]) (b := b) l hl)
    have hc : Calm m m₁ := (calm_recordFirstTouch _ _).ok hrec
    rw [bind_ok hrec] at htouch
    obtain ⟨hforest, hcase⟩ := copyUpInherited_entered h hk ht hc htouch
    let m₃ : Manager := { m₂ with forest := m₂.forest.modify name (Branch.removeTombstone (dir ++ [n])) }
    rw [bind_ok (show modifyBranch name (Branch.removeTombstone (dir ++ [n])) m₂ = .ok () m₃ from rfl)]
      at hrest₂
    have hup : m.upAttr b (dir ++ [n]) = (m.inheritedNode b (dir ++ [n])).bind copyAttr := by
      unfold Manager.upAttr
      rw [hname, Disk.attrAt_eq_none.mpr hk, Option.none_or]
    have hplace : FreePlace m₁.disk (deltaPath name (dir ++ [n])) :=
      (h.free hk).of_same fun x hx => ht.delta hx
    have hmodified : m₃.forest = m₁.forest.modify name (Branch.removeTombstone (dir ++ [n])) := by
      show m₂.forest.modify name _ = _
      rw [hforest]
    rw [hup]
    refine ⟨m₁, ht, hc, ?_⟩
    rcases hcase with ⟨hnone, hdisk, hquota⟩ | ⟨hsome, hent⟩
    · obtain ⟨d, hd, hent, _, _⟩ := hplace.entered
      rw [bind_ok (show onDisk (Io.ensureParentDirs (deltaPath name (dir ++ [n]))) m₃ =
        .ok () { m₃ with disk := d } from onDisk_ok (hdisk ▸ hd))] at hrest₂
      cases hrest₂
      rw [hnone]
      exact ⟨hmodified, hent, fun _ => hquota.trans ht.quota⟩
    · have hthere : m₂.disk.kindAt (deltaPath name (dir ++ [n])) ≠ none := by
        intro hnone
        have hattr := Disk.attrAt_eq_none.mpr hnone
        rw [hent.attr _ rfl, if_pos rfl] at hattr
        exact hsome hattr
      have hpar : m₂.disk.kindAt (deltaPath name (dir ++ [n])).parent = some .dir :=
        Disk.dir_parent hthere
      rw [bind_ok (show onDisk (Io.ensureParentDirs (deltaPath name (dir ++ [n]))) m₃ = .ok () m₃ from
        onDisk_ok (Sys.createDirAll_of_dir rfl hpar))] at hrest₂
      obtain rfl : m₃ = m' := by
        injection hrest₂
      exact ⟨hmodified, hent, fun hidle => absurd (hidle hk) hsome⟩
  · have hyes : m.disk.lexists (deltaPath name (dir ++ [n])) = true := h.lexists.mpr hk
    rw [hyes, when_false (by simp)] at hrest
    have hpar : m.disk.kindAt (deltaPath name (dir ++ [n])).parent = some .dir := Disk.dir_parent hk
    let m₃ : Manager := { m with forest := m.forest.modify name (Branch.removeTombstone (dir ++ [n])) }
    have htail : (do
        modifyBranch name (Branch.removeTombstone (dir ++ [n]))
        onDisk (Io.ensureParentDirs (deltaPath name (dir ++ [n])))
        pure (deltaPath name (dir ++ [n])) : Mgr Place) m = .ok (deltaPath name (dir ++ [n])) m₃ := by
      rw [bind_ok (show modifyBranch name (Branch.removeTombstone (dir ++ [n])) m = .ok () m₃ from rfl),
        bind_ok (show onDisk (Io.ensureParentDirs (deltaPath name (dir ++ [n]))) m₃ = .ok () m₃ from
          onDisk_ok (Sys.createDirAll_of_dir rfl hpar))]
      rfl
    rw [bind_ok (show (pure ⟨⟩ : Mgr PUnit) m = .ok ⟨⟩ m from rfl), htail] at hrest
    obtain rfl : m₃ = m' := by
      injection hrest
    obtain ⟨a, ha⟩ : ∃ a, m.disk.attrAt (deltaPath name (dir ++ [n])) = some a :=
      Option.ne_none_iff_exists'.mp fun hnone => hk (Disk.attrAt_eq_none.mp hnone)
    have hup : m.upAttr b (dir ++ [n]) = some a := by
      unfold Manager.upAttr
      rw [hname, ha, Option.some_or]
    rw [hup]
    exact ⟨m, Touched.refl h.capture, Calm.refl m, rfl, Entered.idle ha, fun _ => rfl⟩

/-- **Copy-on-write**, where it returns Ok. -/
theorem ensureDelta_placed (h : NameIn m name b dir) {l : Place}
    (hok : ensureDeltaPathForWrite name (dir ++ [n]) m = .ok l m') :
    Placed m m' name b (dir ++ [n]) (m.upAttr b (dir ++ [n])) := by
  obtain ⟨m₁, ht, hc, hforest, hent, -⟩ := ensureDelta_parts h hok
  exact ht.placed hc h.branch hforest hent.attr (sameOn_of_own (own_files name) hent.same) hent.mounts

/-! ## Writing -/

theorem when_idle {c : Prop} [Decidable c] {x : Mgr Unit} (hx : ∀ m', x m = .ok () m' → m' = m)
    (h : when c x m = .ok () m') : m' = m := by
  by_cases hc : c
  · rw [when_true hc] at h
    exact hx m' h
  · rw [when_false hc] at h
    cases h
    rfl

/-- The write through the delta path, onto a file or nothing. -/
theorem writeInPlace_entered {off k : Nat} {data : Bytes}
    (hpar : m.disk.kindAt (deltaPath name p).parent = some .dir)
    (hl : m.disk.kindAt (deltaPath name p) = none ∨ m.disk.fileAt (deltaPath name p) = true)
    (hnum : Disk.Numbered m.disk (some (.files name)))
    (hok : writeInPlace name p off data m = .ok k m') :
    k = data.length ∧ m'.forest = m.forest.modify name (Branch.removeTombstone p) ∧
      (∀ x, m'.disk.attrAt x =
        if x = deltaPath name p then
          some (Attr.written (splice · off data) (m.disk.attrAt (deltaPath name p)))
        else m.disk.attrAt x) ∧
      SameOn (fun r => r ≠ some (.files name)) m.disk m'.disk ∧ SameMounts m m' := by
  obtain ⟨h, d₁, d₂, hopen, hwrite, hattr, hsame, hlay⟩ :=
    Sys.openWrite_pwrite (l := deltaPath name p) (r := .files name) rfl hpar hl hnum off data
  have hdata : writeDataToFile (deltaPath name p) off data m.disk = .ok data.length d₂ := by
    rw [writeDataToFile, bind_ok hopen]
    exact hwrite
  let m₁ : Manager := { m with forest := m.forest.modify name (Branch.removeTombstone p) }
  unfold writeInPlace at hok
  rw [bind_ok (show modifyBranch name (Branch.removeTombstone p) m = .ok () m₁ from rfl),
    readDisk_bind] at hok
  obtain ⟨_, m₂, hcheck, hrest⟩ := bind_eq_ok hok
  have hm₂ : m₂ = m₁ := when_idle (fun _ => quotaCheck_idle) hcheck
  rw [hm₂, bind_ok (show onDisk (writeDataToFile (deltaPath name p) off data) m₁ =
    .ok data.length { m₁ with disk := d₂ } from onDisk_ok hdata), readDisk_bind] at hrest
  obtain ⟨_, m₃, hadd, hlast⟩ := bind_eq_ok hrest
  have hm₃ : m₃.forest = m₁.forest ∧ m₃.disk = d₂ := by
    unfold when at hadd
    split at hadd
    · cases hadd
      exact ⟨rfl, rfl⟩
    · cases hadd
      exact ⟨rfl, rfl⟩
  cases hlast
  refine ⟨rfl, hm₃.1, ?_, ?_, ?_⟩
  · rw [hm₃.2]
    exact hattr
  · rw [hm₃.2]
    exact hsame
  · show SameLayout m.disk m'.disk
    rw [hm₃.2]
    exact hlay

/-- The write of a path without delta that brings nothing up. -/
theorem writeFirstPlain_entered {off k : Nat} {data : Bytes}
    (hfree : FreePlace m.disk (deltaPath name p)) (hnum : Disk.Numbered m.disk (some (.files name)))
    (hok : writeFirstPlain name p off data m = .ok k m') :
    k = data.length ∧ m'.forest = m.forest.modify name (Branch.removeTombstone p) ∧
      Entered (deltaPath name p) (some (Attr.written (splice · off data) none)) m.disk m'.disk := by
  obtain ⟨d, hd, hent, hmade, hnums⟩ := hfree.entered
  have hnone : d.kindAt (deltaPath name p) = none := MadeDirs.free hmade hfree.free
  have hpar : d.kindAt (deltaPath name p).parent = some .dir := by rw [hmade.kind, if_pos (le_refl _)]
  let m₁ : Manager := { m with disk := d }
  rw [writeFirstPlain, bind_ok (show onDisk (Io.ensureParentDirs (deltaPath name p)) m = .ok () m₁ from
    onDisk_ok hd)] at hok
  obtain ⟨hk, hforest, hattr, hsame, hmounts⟩ :=
    writeInPlace_entered (m := m₁) hpar (Or.inl hnone) (hnums _ hnum) hok
  refine ⟨hk, hforest, hent.put (fun x _ => ?_) hsame hmounts⟩
  rw [hattr, show m₁.disk.attrAt (deltaPath name p) = none from Disk.attrAt_eq_none.mpr hnone]

/-- The write of a path that inherits a file and has no delta yet. -/
theorem writeFirstCopy_entered {off k : Nat} {data c : Bytes} {src : Place} {len : UInt64}
    {node : Node String} (hfree : FreePlace m.disk (deltaPath name p))
    (hread : ∀ d₁, SameOn (fun r => r ≠ some (.files name)) m.disk d₁ → SameLayout m.disk d₁ →
      d₁.lstat src = .ok node)
    (hnode : node.kind = .file c) (hstage : m.disk.kindAt (stagingPath name) = none)
    (hnum : Disk.Numbered m.disk (some (.staging name)))
    (hok : writeFirstCopy name p src len off data m = .ok k m') :
    k = data.length ∧ m'.forest = m.forest.modify name (Branch.removeTombstone p) ∧
      (∀ x : Place, x.root = some (.files name) → m'.disk.attrAt x =
        if x = deltaPath name p then some ⟨.file (splice c off data), node.mode, 0, 0⟩
        else if x ≤ deltaPath name p ∧ m.disk.kindAt x = none then some Attr.newDir
        else m.disk.attrAt x) ∧
      SameOn (fun r => ¬ Own name r) m.disk m'.disk ∧ SameMounts m m' := by
  obtain ⟨d, hd, hent, hmade, hnums⟩ := hfree.entered
  have hnone : d.kindAt (deltaPath name p) = none := MadeDirs.free hmade hfree.free
  have hpar : d.kindAt (deltaPath name p).parent = some .dir := by rw [hmade.kind, if_pos (le_refl _)]
  have hstage' : d.kindAt (stagingPath name) = none := by
    rw [hent.same.kindAt (by simp [stagingPath, deltaPath]), hstage]
  obtain ⟨res, d', hrun, hres, hattr, hsame, hlay⟩ := stageWrite_entered (l := deltaPath name p) (r := .files name) rfl
    (by simp) (hread d hent.same hent.mounts) hnode hnone hpar hstage' (hnums _ hnum) off data
  unfold writeFirstCopy at hok
  obtain ⟨_, m₁, hcheck, hrest⟩ := bind_eq_ok hok
  rw [quotaCheck_idle hcheck, bind_ok (show onDisk (Io.ensureParentDirs (deltaPath name p)) m =
    .ok () { m with disk := d } from onDisk_ok hd)] at hrest
  rw [bind_ok (show onDisk (stageWrite name src (deltaPath name p) off data) { m with disk := d } =
    .ok res { m with disk := d' } from onDisk_ok hrun)] at hrest
  obtain ⟨written, finalLen⟩ := res
  cases hrest
  have hown : SameOn (fun r => ¬ Own name r) d d' := by
    refine hsame.mono fun r hr => ⟨fun heq => hr ?_, fun heq => hr ?_⟩
    · rw [heq]
      exact own_files name
    · rw [heq]
      exact Or.inr (Or.inl rfl)
  refine ⟨hres, rfl, fun x hx => ?_, (sameOn_of_own (own_files name) hent.same).trans hown,
    hent.mounts.trans hlay⟩
  show d'.attrAt x = _
  rw [hattr x hx, hent.attr x hx]
  by_cases hxl : x = deltaPath name p
  · rw [if_pos hxl, if_pos hxl]
  · rw [if_neg hxl, if_neg hxl, if_neg hxl]

/-- What a look at `src` finds as long as only the delta changes. -/
def StillReads (name : String) (m : Manager) (src : Place) (node : Node String) : Prop :=
  ∀ d, SameOn (fun r => r ≠ some (.files name)) m.disk d → SameLayout m.disk d →
    d.lstat src = .ok node

theorem StillReads.now {src : Place} {node : Node String} (h : StillReads name m src node) :
    m.disk.lstat src = .ok node := h _ (SameOn.refl _ _) (SameLayout.refl _)

/-- The arguments were in order. -/
theorem writeChecked_of_ok {off : Int} {data : Bytes} {k : Nat}
    (hok : writeDataToBranch name p off data m = .ok k m') :
    writeChecked name p off.toNat data m = .ok k m' := by
  unfold writeDataToBranch at hok
  split at hok
  · cases hok
  · split at hok
    · cases hok
    · exact hok

/-- The write of a path without delta after its first touch, by what is inherited there. -/
theorem writeFirst_of_ok (h : NameIn m name b dir) {off k : Nat} {data : Bytes}
    (hfree : deltaKind m.disk name (dir ++ [n]) = none)
    (hok : writeChecked name (dir ++ [n]) off data m = .ok k m') :
    ∃ m₁, Touched name m m₁ ∧ Calm m m₁ ∧
      ((m.inheritedNode b (dir ++ [n]) = none ∧
          writeFirstPlain name (dir ++ [n]) off data m₁ = .ok k m') ∨
        ∃ src node, m.inheritedNode b (dir ++ [n]) = some node ∧ StillReads name m₁ src node ∧
          writeFirstNode name (dir ++ [n]) src node off data m₁ = .ok k m') := by
  unfold writeChecked at hok
  obtain ⟨_, m₀, hw, hrest⟩ := bind_eq_ok hok
  have hno : ¬ m.disk.lexists (deltaPath name (dir ++ [n])) = true := by
    rw [h.lexists, not_not]
    exact hfree
  rw [writableBranch_idle hw, readDisk_bind, if_neg hno, bind_ok (inheritedForTouch_ok h.branch)]
    at hrest
  obtain ⟨m₁, hrec, ht⟩ := recordFirstTouch_ok (p := dir ++ [n]) true h.branch h.capture
    (fun l hl => inherited_lkind (p := dir ++ [n]) (b := b) l hl)
  have hc : Calm m m₁ := (calm_recordFirstTouch _ _).ok hrec
  rw [bind_ok hrec] at hrest
  refine ⟨m₁, ht, hc, ?_⟩
  cases hsrc : m.inheritedForTouch b (dir ++ [n]) with
  | none =>
    rw [hsrc] at hrest
    exact Or.inl ⟨by simp [Manager.inheritedNode, hsrc], hrest⟩
  | some src =>
    obtain ⟨node, hnode⟩ := inheritedNode_of_some hsrc
    have hread : StillReads name m₁ src node := fun d hd hl =>
      h.unseen.lstat h.branch (ht.adds.same.trans (sameOn_of_own (own_files name) hd))
        (SameLayout.trans hc.1 hl) hsrc hnode
    rw [hsrc] at hrest
    change writeFirst name (dir ++ [n]) off data (some src) m₁ = .ok k m' at hrest
    rw [writeFirst, readDisk_bind, hread.now] at hrest
    exact Or.inr ⟨src, node, hnode, hread, hrest⟩

/-- **A write** onto a file, or where copy-on-write brings up a file or nothing, when it returns Ok. -/
theorem write_placed (h : NameIn m name b dir) {off : Int} {data : Bytes} {k : Nat}
    (hplain : ∀ a, m.upAttr b (dir ++ [n]) = some a → a.kind.isFile = true)
    (hok : writeDataToBranch name (dir ++ [n]) off data m = .ok k m') :
    k = data.length ∧ Placed m m' name b (dir ++ [n])
      (some (Attr.written (splice · off.toNat data) (m.upAttr b (dir ++ [n])))) := by
  have hname := Forest.name_of_get? h.branch
  have hchecked := writeChecked_of_ok hok
  by_cases hk : deltaKind m.disk name (dir ++ [n]) = none
  · obtain ⟨m₁, ht, hc, hcase⟩ := writeFirst_of_ok h hk hchecked
    have hplace : FreePlace m₁.disk (deltaPath name (dir ++ [n])) :=
      (h.free hk).of_same fun x hx => ht.delta hx
    have hnum := fun R hR => hc.2 R (h.numbered R hR)
    have hup : m.upAttr b (dir ++ [n]) = (m.inheritedNode b (dir ++ [n])).bind copyAttr := by
      unfold Manager.upAttr
      rw [hname, Disk.attrAt_eq_none.mpr hk, Option.none_or]
    have plain : m.upAttr b (dir ++ [n]) = none →
        writeFirstPlain name (dir ++ [n]) off.toNat data m₁ = .ok k m' →
        k = data.length ∧ Placed m m' name b (dir ++ [n])
          (some (Attr.written (splice · off.toNat data) (m.upAttr b (dir ++ [n])))) := by
      intro hnone hrun
      obtain ⟨hlen, hforest, hent⟩ := writeFirstPlain_entered hplace (hnum _ (own_files name)) hrun
      rw [hnone]
      exact ⟨hlen, ht.placed hc h.branch hforest hent.attr (sameOn_of_own (own_files name) hent.same)
        hent.mounts⟩
    rcases hcase with ⟨hnone, hrun⟩ | ⟨src, node, hnode, hread, hrun⟩
    · refine plain ?_ hrun
      rw [hup, hnone]
      rfl
    · unfold writeFirstNode at hrun
      rw [hnode, Option.bind_some] at hup
      cases hkind : node.kind with
      | file c =>
        rw [if_pos (by simp [hkind, Kind.isFile])] at hrun
        have hstage : m₁.disk.kindAt (stagingPath name) = none := by
          rw [ht.disk.same.kindAt (by simp [stagingPath]), h.staging]
        obtain ⟨hlen, hforest, hattr, hsame, hmounts⟩ := writeFirstCopy_entered hplace hread hkind
          hstage (hnum _ (Or.inr (Or.inl rfl))) hrun
        refine ⟨hlen, ht.placed hc h.branch hforest ?_ hsame hmounts⟩
        rw [hup, copyAttr, hkind]
        exact hattr
      | dir =>
        rw [if_neg (by simp [hkind, Kind.isFile]), when_false (by simp [hkind, Kind.isSymlink])] at hrun
        refine plain ?_ hrun
        rw [hup, copyAttr, hkind]
      | symlink t =>
        have hbad := hplain ⟨.symlink t, 0o777, 0, 0⟩ (by rw [hup, copyAttr, hkind])
        cases hbad
  · unfold writeChecked at hchecked
    obtain ⟨_, m₀, hw, hrest⟩ := bind_eq_ok hchecked
    rw [writableBranch_idle hw, readDisk_bind, if_pos (h.lexists.mpr hk)] at hrest
    obtain ⟨a, ha⟩ : ∃ a, m.disk.attrAt (deltaPath name (dir ++ [n])) = some a :=
      Option.ne_none_iff_exists'.mp fun hnone => hk (Disk.attrAt_eq_none.mp hnone)
    have hup : m.upAttr b (dir ++ [n]) = some a := by
      unfold Manager.upAttr
      rw [hname, ha]
      rfl
    have hfile : m.disk.fileAt (deltaPath name (dir ++ [n])) = true := by
      unfold Disk.fileAt
      rw [Disk.kindAt_of_attr ha]
      exact hplain a hup
    obtain ⟨hlen, hforest, hattr, hsame, hmounts⟩ := writeInPlace_entered (Disk.dir_parent hk)
      (Or.inr hfile) (h.numbered _ (own_files name)) hrest
    refine ⟨hlen, (Touched.refl h.capture).placed (Calm.refl m) h.branch hforest (fun x _ => ?_)
      (sameOn_of_own (own_files name) hsame) hmounts⟩
    rw [hattr x, hup, ha]
    by_cases hx : x = deltaPath name (dir ++ [n])
    · rw [if_pos hx, if_pos hx]
    · rw [if_neg hx, if_neg hx, if_neg]
      rintro ⟨hle, hnone⟩
      rw [Disk.dir_above hk hle hx] at hnone
      cases hnone

end Placed

end BranchFs
