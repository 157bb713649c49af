/-
# BranchFs.Cow.Rename -- what a rename leaves of a branch

`rename` brings both names into the delta, clears the new one, moves one entry of the delta and edits two
tombstones. `Renamed` is what that leaves: the delta's own subtree under the new name, what the branch
inherits where it was, the old name hidden and the new one no longer.
-/
import BranchFs.Cow.Metadata
import BranchFs.Cow.Traceless
import BranchFs.Isolate.Handlers
import BranchFs.Logic.Moved
import BranchFs.Model.Handlers

namespace BranchFs

open BranchFs.Posix BranchFs.Logic

/-! ## One name after the other -/

theorem calm_copyEntry (src l : Place) : Keeps Calm (onDisk (Io.copyEntry src l)) := by
  have htrans : ∀ d d' d'' : Tree, Disk.NumbersStay d d' → Disk.NumbersStay d' d'' →
      Disk.NumbersStay d d'' := fun _ _ _ h h' => h.trans h'
  have hlook : ∀ d : Tree, after (Io.symlinkMetadata src) d = d := by
    intro d
    unfold after Io.symlinkMetadata
    cases d.lstat src <;> rfl
  have hnumbers : ∀ n : Node String, Keeps Disk.NumbersStay (Io.copyNode src l n) := by
    intro n
    unfold Io.copyNode
    split
    · exact keeps_bind htrans (keeps_attempt (Sys.numbersStay_removeFile l)) fun _ =>
        Sys.numbersStay_symlink _ l
    · exact Sys.numbersStay_copyFile src l
  have hsettled : ∀ n : Node String, Sys.Settled (Io.copyNode src l n) := by
    intro n
    unfold Io.copyNode
    split
    · exact Sys.settled_bind (keeps_attempt (Sys.settled_removeFile l)) fun _ =>
        Sys.settled_symlink _ l
    · exact Sys.settled_copyFile src l
  refine calm_onDisk ?_ ?_
  · refine Sys.settled_bind (Sys.settled_createDirAll _) fun _ => Sys.settled_bind (fun d => ?_) hsettled
    rw [hlook]
    exact SameLayout.refl d
  · refine keeps_bind htrans (Sys.numbersStay_createDirAll _) fun _ => ?_
    refine keeps_bind htrans (fun d => ?_) hnumbers
    rw [hlook]
    exact Disk.NumbersStay.refl d

theorem calm_still {α : Type} {x : Mgr α} (h : ∀ m, after x m = m) : Keeps Calm x :=
  fun m => (h m).symm ▸ Calm.refl m

theorem calm_ensureDelta (name : String) (p : RelPath) :
    Keeps Calm (ensureDeltaPathForWrite name p) := by
  have hcheck : ∀ k, Keeps Calm (quotaCheck k) := by
    intro k m
    unfold after quotaCheck
    split
    · next h =>
      split at h <;> cases h
      exact Calm.refl m
    · next h =>
      split at h <;> cases h
      exact Calm.refl m
  have hcopy : ∀ inherited, Keeps Calm (copyUpInherited (deltaPath name p) inherited) := by
    intro inherited
    cases inherited with
    | none => exact Calm.refl
    | some src =>
      refine calm_bind Calm.refl fun found => ?_
      cases found with
      | error e => exact Calm.refl
      | ok n =>
        show Keeps Calm (if n.kind.isDir then pure () else copyUpNode src (deltaPath name p) n)
        split
        · exact Calm.refl
        · exact calm_bind (hcheck _) fun _ => calm_bind (calm_copyEntry src _) fun _ => Calm.refl
  have htouch : Keeps Calm (touchAndCopyUp name p) :=
    calm_bind (calm_still (after_inheritedForTouch name p)) fun inherited =>
      calm_bind (calm_recordFirstTouch inherited true) fun _ => hcopy inherited
  refine calm_bind (calm_still (after_writableBranch name)) fun _ => ?_
  refine calm_bind Calm.refl fun there => ?_
  refine calm_bind (keeps_when Calm.refl _ fun _ => htouch) fun _ => ?_
  refine calm_bind Calm.refl fun _ => ?_
  exact calm_bind (calm_onDisk (Sys.settled_createDirAll _) (Sys.numbersStay_createDirAll _))
    fun _ => Calm.refl

/-- What copy-on-write copies up: an inherited file or link. -/
def Manager.copyKind (m : Manager) (b : Branch) (p : RelPath) : Option Entry :=
  ((m.inheritedNode b p).bind copyAttr).map Attr.kind

/-- What copy-on-write of `p` adds to the delta at `x`, where it has nothing. -/
def Manager.cowKind (m : Manager) (b : Branch) (p x : RelPath) : Option Entry :=
  if x = p then m.copyKind b p else if x <+: p then some .dir else none

section Added

variable {m m' : Manager} {name : String} {b : Branch} {p x dir : RelPath} {n : String}

theorem cowKind_cases (m : Manager) (b : Branch) (p x : RelPath) :
    m.cowKind b p x = none ∨ m.cowKind b p x = some .dir ∨
      (x = p ∧ m.cowKind b p x = m.copyKind b p) := by
  unfold Manager.cowKind
  split
  · next hx => exact Or.inr (Or.inr ⟨hx, rfl⟩)
  · split
    · exact Or.inr (Or.inl rfl)
    · exact Or.inl rfl

theorem cowKind_off (h : ¬ x <+: p) : m.cowKind b p x = none := by
  have hne : x ≠ p := fun heq => h (heq ▸ List.prefix_rfl)
  unfold Manager.cowKind
  rw [if_neg hne, if_neg h]

/-- An inherited directory is not copied up. -/
theorem copyKind_of_dir (h : m.inheritedKind b p = some .dir) : m.copyKind b p = none := by
  rw [Manager.inheritedKind_eq, Option.map_eq_some_iff] at h
  obtain ⟨node, hnode, hkind⟩ := h
  unfold Manager.copyKind copyAttr
  rw [hnode, Option.bind_some, hkind]
  rfl

theorem upAttr_kind (hb : m.forest.get? name = some b) (p : RelPath) :
    (m.upAttr b p).map Attr.kind = (deltaKind m.disk name p).or (m.copyKind b p) := by
  unfold Manager.upAttr Manager.copyKind deltaKind
  rw [Forest.name_of_get? hb, Option.map_or, ← Disk.kindAt_eq_attr]

/-- **What copy-on-write adds to the delta.** -/
theorem Placed.cow (h : Placed m m' name b (dir ++ [n]) (m.upAttr b (dir ++ [n])))
    (hin : NameIn m name b dir) (x : RelPath) :
    deltaKind m'.disk name x = (deltaKind m.disk name x).or (m.cowKind b (dir ++ [n]) x) := by
  rw [h.delta]
  unfold Manager.cowKind
  by_cases hx : x = dir ++ [n]
  · subst hx
    rw [if_pos rfl, if_pos rfl, upAttr_kind hin.branch]
  · rw [if_neg hx, if_neg hx]
    by_cases hle : x <+: dir ++ [n]
    · rw [if_pos hle]
      rcases hin.way (prefix_of_mem_dir hle hx) with hk | hk
      · rw [if_pos ⟨hle, hk⟩, hk, Option.none_or]
      · rw [if_neg (by simp [hk]), hk, Option.some_or]
    · rw [if_neg (fun hc => hle hc.1), if_neg hle, Option.or_none]

end Added

section Again

variable {m m' : Manager} {name : String} {b b' : Branch} {dir dir' : RelPath} {n : String}

theorem Manager.LayersUnseen.after (h : m.LayersUnseen name) (hF : m.forest.SameBut name m'.forest)
    (hd : SameOn (fun r => ¬ Own name r) m.disk m'.disk) (hl : SameLayout m.disk m'.disk) :
    m'.LayersUnseen name := by
  intro d hd' hl' r hr p
  have hlayers : m'.layers name = m.layers name := by
    unfold Manager.layers Manager.older
    rw [hF.older]
  rw [hlayers] at hr
  rw [h d (hd.trans hd') (SameLayout.trans hl hl') r hr p, h m'.disk hd hl r hr p]

/-- What the branch shows stays a directory on the way to what it shows. -/
theorem overlay_after_cow
    (hδ : ∀ x, deltaKind m'.disk name x = (deltaKind m.disk name x).or (m.cowKind b (dir ++ [n]) x))
    (hts : b'.tombstones = b.tombstones.filter (· ≠ dir ++ [n])) {a : RelPath}
    (ha : overlay (deltaKind m.disk name) (Whiteout b) (m.inheritedKind b) a = some .dir) :
    overlay (deltaKind m'.disk name) (Whiteout b') (m.inheritedKind b) a = some .dir := by
  cases hk : deltaKind m.disk name a with
  | some k =>
    rw [overlay_of_some hk] at ha
    apply overlay_of_some
    rw [hδ, hk, Option.some_or, ha]
  | none =>
    have hcov : ¬ Covers (Whiteout b) a := fun hc => by
      rw [overlay_of_covered hk hc] at ha
      cases ha
    rw [overlay_of_none hk hcov] at ha
    have hcov' : ¬ Covers (Whiteout b') a := by
      rintro ⟨t, ⟨ht, hne⟩, hta⟩
      rw [hts] at ht
      exact hcov ⟨t, ⟨List.mem_of_mem_filter ht, hne⟩, hta⟩
    have hadd := hδ a
    rw [hk, Option.none_or] at hadd
    rcases cowKind_cases m b (dir ++ [n]) a with hnone | hdir | ⟨rfl, hcopy⟩
    · rw [overlay_of_none (hadd.trans hnone) hcov', ha]
    · exact overlay_of_some (hadd.trans hdir)
    · rw [overlay_of_none (hadd.trans ?_) hcov', ha]
      rw [hcopy]
      exact copyKind_of_dir ha

/-- **After copy-on-write of one name** the branch is as ready for another. -/
theorem NameIn.after (h : NameIn m name b dir) {l : Place}
    (hok : ensureDeltaPathForWrite name (dir ++ [n]) m = .ok l m')
    (hdir : m.view name dir' = some .dir) :
    ∃ b', NameIn m' name b' dir' ∧ b'.tombstones = b.tombstones.filter (· ≠ dir ++ [n]) := by
  obtain ⟨m₁, ht, hc, -, hent, -⟩ := ensureDelta_parts h hok
  have hp := ensureDelta_placed h hok
  have hcalm : Calm m m' := (calm_ensureDelta name (dir ++ [n])).ok hok
  obtain ⟨b', hb', hts⟩ := hp.branch
  have hkinds : ∀ x : Place, x.root ≠ some (.files name) → x.root ≠ some (.touchContent name) →
      m'.disk.kindAt x = m.disk.kindAt x := by
    intro x hfiles htouch
    rw [hent.same.kindAt hfiles, ht.disk.same.kindAt htouch]
  refine ⟨b', ⟨hb', ?_, fun key => ?_, ?_, fun R hR => hcalm.2 R (h.numbered R hR), ?_⟩, hts⟩
  · rw [Manager.view_eq_overlay h.branch, shown_eq_some] at hdir
    rw [Manager.view_eq_overlay hb', Manager.inheritedKind_of_apart h.unseen.apart hp.forest h.branch
      hb' hp.same hp.mounts, shown_eq_some]
    have hδ := hp.cow h
    exact ⟨fun a ha hne => overlay_after_cow hδ hts (hdir.1 a ha hne),
      overlay_after_cow hδ hts hdir.2⟩
  · have hkind := hent.same.kindAt (l := touchContentPath name key) (by simp [touchContentPath, deltaPath])
    have hcan := ht.disk.can key
    unfold Disk.fileAt at hcan ⊢
    rwa [hkind]
  · exact h.unseen.after hp.forest hp.same hp.mounts
  · rw [hkinds _ (by simp [stagingPath]) (by simp [stagingPath])]
    exact h.staging

end Again

/-! ## Both names in the delta -/

/-- What copy-on-write of two names leaves: what comes up of them, directories on the ways to them, and
neither tombstone. -/
structure BothUp (m m' : Manager) (name : String) (b : Branch) (src dst : RelPath) : Prop where
  branch : ∃ b', m'.forest.get? name = some b' ∧
    b'.tombstones = (b.tombstones.filter (· ≠ src)).filter (· ≠ dst)
  forest : m.forest.SameBut name m'.forest
  delta : ∀ x, deltaKind m'.disk name x =
    ((deltaKind m.disk name x).or (m.cowKind b src x)).or (m.cowKind b dst x)
  ways : ∀ q, (q <+: src ∧ q ≠ src) ∨ (q <+: dst ∧ q ≠ dst) → deltaKind m'.disk name q = some .dir
  same : SameOn (fun r => ¬ Own name r) m.disk m'.disk
  mounts : SameMounts m m'

section Both

variable {m m₁ m₂ : Manager} {name : String} {b : Branch} {sdir ddir src dst : RelPath} {sn dn : String}
  {l l' : Place}

/-- The delta on the way to an entry that came up. -/
theorem Placed.ways {a : Option (Attr String)} {p : RelPath} (h : Placed m m₁ name b p a) {q : RelPath}
    (hq : q <+: p) (hne : q ≠ p)
    (hway : deltaKind m.disk name q = none ∨ deltaKind m.disk name q = some .dir) :
    deltaKind m₁.disk name q = some .dir := by
  rw [h.delta, if_neg hne]
  rcases hway with hk | hk
  · rw [if_pos ⟨hq, hk⟩]
  · rw [if_neg (by simp [hk]), hk]

/-- **Copy-on-write of two names.** -/
theorem bothUp (hs : NameIn m name b sdir) (hd : NameIn m name b ddir)
    (hsrc : ensureDeltaPathForWrite name (sdir ++ [sn]) m = .ok l m₁)
    (hdst : ensureDeltaPathForWrite name (ddir ++ [dn]) m₁ = .ok l' m₂) :
    BothUp m m₂ name b (sdir ++ [sn]) (ddir ++ [dn]) := by
  obtain ⟨b₁, hd₁, hts₁⟩ := hs.after hsrc hd.shown
  have hp₁ := ensureDelta_placed hs hsrc
  have hp₂ := ensureDelta_placed hd₁ hdst
  obtain ⟨b₂, hb₂, hts₂⟩ := hp₂.branch
  have hcow : ∀ x, m₁.cowKind b₁ (ddir ++ [dn]) x = m.cowKind b (ddir ++ [dn]) x := by
    intro x
    unfold Manager.cowKind Manager.copyKind
    rw [Manager.inheritedNode_of_unseen hs.unseen hp₁.forest hs.branch hd₁.branch hp₁.same hp₁.mounts]
  refine ⟨⟨b₂, hb₂, by rw [hts₂, hts₁]⟩, hp₁.forest.trans hp₂.forest, fun x => ?_, ?_,
    hp₁.same.trans hp₂.same, hp₁.mounts.trans hp₂.mounts⟩
  · rw [hp₂.cow hd₁, hp₁.cow hs, hcow]
  · rintro q (⟨hq, hne⟩ | ⟨hq, hne⟩)
    · have hk := hp₁.ways hq hne (hs.way (prefix_of_mem_dir hq hne))
      rw [hp₂.cow hd₁, hk, Option.some_or]
    · exact hp₂.ways hq hne (hd₁.way (prefix_of_mem_dir hq hne))

/-- Off the ways to the two names nothing has changed. -/
theorem BothUp.rest (h : BothUp m m₂ name b src dst) {q : RelPath} (hs : ¬ q <+: src)
    (hd : ¬ q <+: dst) : deltaKind m₂.disk name q = deltaKind m.disk name q := by
  rw [h.delta, cowKind_off hs, cowKind_off hd, Option.or_none, Option.or_none]

/-- What the delta has of a source that does not lie above the destination. -/
theorem BothUp.source (h : BothUp m m₂ name b src dst) (hb : m.forest.get? name = some b)
    (hsd : ¬ src <+: dst) : deltaKind m₂.disk name src = (m.upAttr b src).map Attr.kind := by
  rw [h.delta, cowKind_off hsd, Option.or_none, upAttr_kind hb]
  unfold Manager.cowKind
  rw [if_pos rfl]

end Both

/-! ## The move -/

/-- What a rename that returns Ok leaves, for a source neither above nor below the destination: the
delta's subtree at the destination and nowhere else, and the tombstones of the two names edited. -/
structure Renamed (m m' : Manager) (name : String) (b : Branch) (src dst : RelPath) : Prop where
  branch : ∃ b', m'.forest.get? name = some b' ∧ ∀ t, t ∈ b'.tombstones ↔
    (t = src ∧ m.inheritedPathExists b src = true) ∨ (t ∈ b.tombstones ∧ t ≠ src ∧ t ≠ dst)
  forest : m.forest.SameBut name m'.forest
  up : m.upAttr b src ≠ none
  top : deltaKind m'.disk name dst = (m.upAttr b src).map Attr.kind
  moved : ∀ r, r ≠ [] → deltaKind m'.disk name (dst ++ r) = deltaKind m.disk name (src ++ r)
  gone : ∀ q, src <+: q → deltaKind m'.disk name q = none
  ways : ∀ q, (q <+: src ∧ q ≠ src) ∨ (q <+: dst ∧ q ≠ dst) → deltaKind m'.disk name q = some .dir
  rest : ∀ q, ¬ q <+: src → ¬ q <+: dst → ¬ src <+: q → ¬ dst <+: q →
    deltaKind m'.disk name q = deltaKind m.disk name q
  same : SameOn (fun r => ¬ Own name r) m.disk m'.disk
  mounts : SameMounts m m'

section Move

variable {f : Faults} {m m' m₂ : Manager} {name : String} {b : Branch} {p src dst : RelPath}
  {inh noReplace : Bool}

/-- The delta with the destination cleared or left. -/
def Cleared (d d' : Tree) (name : String) (dst : RelPath) : Prop :=
  d' = d ∨ d' = d.cut (deltaPath name dst)

/-- The destination is cleared or left. -/
theorem clearDestination_cases (hlink : m.disk.NoLinkAbove (deltaPath name p)) :
    ∃ d, clearDestination name p m = .ok () { m with disk := d } ∧ Cleared m.disk d name p := by
  have hfile : after (Posix.Sys.removeFile (deltaPath name p)) m.disk = m.disk ∨
      after (Posix.Sys.removeFile (deltaPath name p)) m.disk = m.disk.cut (deltaPath name p) := by
    rcases Sys.after_removeFile (l := deltaPath name p) rfl hlink with h | ⟨-, -, h⟩
    · exact Or.inl h
    · exact Or.inr h
  have hall : after (Posix.Sys.removeDirAll (deltaPath name p)) m.disk = m.disk ∨
      after (Posix.Sys.removeDirAll (deltaPath name p)) m.disk = m.disk.cut (deltaPath name p) := by
    rcases Sys.after_removeDirAll (l := deltaPath name p) rfl hlink with h | ⟨-, h⟩
    · exact Or.inl h
    · exact Or.inr h
  show ∃ d, when (m.disk.pathExists (deltaPath name p) = true)
    (if m.disk.isDir (deltaPath name p) = true then ignoring (Posix.Sys.removeDirAll (deltaPath name p))
      else ignoring (Posix.Sys.removeFile (deltaPath name p))) m = .ok () { m with disk := d } ∧ _
  by_cases hthere : m.disk.pathExists (deltaPath name p) = true
  · rw [when_true hthere]
    split
    · exact ⟨_, ignoring_eq _ m, hall⟩
    · exact ⟨_, ignoring_eq _ m, hfile⟩
  · rw [when_false hthere]
    exact ⟨m.disk, rfl, Or.inl rfl⟩

theorem BothUp.parent (h : BothUp m m₂ name b src dst) (hdst : dst ≠ []) :
    m₂.disk.kindAt (deltaPath name dst).parent = some .dir := by
  have hne : dst.dropLast ≠ dst := by
    intro heq
    have hlen := congrArg List.length heq
    have hpos := List.length_pos_iff.mpr hdst
    rw [List.length_dropLast] at hlen
    omega
  exact h.ways dst.dropLast (Or.inr ⟨List.dropLast_prefix dst, hne⟩)

/-- A way of directories has no link on it. -/
theorem noLink_of_dirs {d : Tree} (h : ∀ a, a <+: p → a ≠ p → deltaKind d name a = some .dir) :
    d.NoLinkAbove (deltaPath name p) := by
  refine Disk.noLinkAbove_of fun x hx hne => ?_
  obtain ⟨a, ha, rfl⟩ := le_deltaPath.mp hx
  exact Disk.linkAt_eq_false_of_kind (h a ha (deltaPath_ne.mp hne)) rfl

theorem BothUp.way (h : BothUp m m₂ name b src dst) (hp : p = src ∨ p = dst) {a : RelPath}
    (ha : a <+: p) (hne : a ≠ p) : deltaKind m₂.disk name a = some .dir := by
  apply h.ways a
  rcases hp with rfl | rfl
  · exact Or.inl ⟨ha, hne⟩
  · exact Or.inr ⟨ha, hne⟩

theorem BothUp.noLink (h : BothUp m m₂ name b src dst) (hp : p = src ∨ p = dst) :
    m₂.disk.NoLinkAbove (deltaPath name p) := noLink_of_dirs fun _ ha hne => h.way hp ha hne

/-- The steps of the move, where it returns Ok: the clearing, the rename, the tombstones. -/
theorem moveDelta_steps (h : BothUp m m₂ name b src dst) (hdst : dst ≠ [])
    (hok : Faulty.moveDelta f name src dst inh (deltaPath name src) (deltaPath name dst) m₂ =
      .ok () m') :
    ∃ d existed, Cleared m₂.disk d name dst ∧
      Posix.Sys.rename (deltaPath name src) (deltaPath name dst) d = .ok () m'.disk ∧
      m'.forest = m₂.forest.modify name (renameTombstones src dst inh existed) := by
  have hdirs : ioOrEio (Io.ensureParentDirs (deltaPath name dst)) m₂ = .ok () m₂ :=
    ioOrEio_ok (Sys.createDirAll_of_dir rfl (h.parent hdst))
  let existed : Bool := (m₂.resolved name dst).isSome
  obtain ⟨d, hclear, hd⟩ := clearDestination_cases (h.noLink (Or.inr rfl))
  obtain ⟨d', hwhen, hd'⟩ : ∃ d', when (existed = true) (clearDestination name dst) m₂ =
      .ok () { m₂ with disk := d' } ∧ Cleared m₂.disk d' name dst := by
    cases existed with
    | true => exact ⟨d, hclear, hd⟩
    | false => exact ⟨m₂.disk, rfl, Or.inl rfl⟩
  unfold Faulty.moveDelta at hok
  rw [bind_ok hdirs, bind_ok (show readReq (fun m => (m.resolved name dst).isSome) m₂ = .ok existed m₂
    from rfl), bind_ok hwhen] at hok
  obtain ⟨_, m₄, hren, hlast⟩ := bind_eq_ok hok
  obtain ⟨d₄, hd₄, rfl⟩ : ∃ d₄, Posix.Sys.rename (deltaPath name src) (deltaPath name dst) d' =
      .ok () d₄ ∧ { m₂ with disk := d₄ } = m₄ := by
    cases hf : f.rename with
    | true =>
      unfold Faulty.rename at hren
      rw [hf] at hren
      cases hren
    | false =>
      unfold Faulty.rename at hren
      rw [hf, if_neg (by simp)] at hren
      unfold ioOrEio asReq onDisk at hren
      cases hx : Posix.Sys.rename (deltaPath name src) (deltaPath name dst) d' with
      | ok a d₄ =>
        simp only [hx, EStateM.Result.ok.injEq] at hren
        exact ⟨d₄, rfl, hren.2⟩
      | error e d₄ =>
        simp only [hx] at hren
        cases hren
  refine ⟨d', existed, hd', ?_⟩
  obtain ⟨b', hb', -⟩ := h.branch
  have hfinish : (do
      let _ ← getBranch name
      modifyBranch name (renameTombstones src dst inh existed) : Mgr Unit)
        { m₂ with disk := d₄ } = .ok () { m₂ with
          disk := d₄
          forest := m₂.forest.modify name (renameTombstones src dst inh existed) } :=
    bind_ok (getBranch_ok (m := { m₂ with disk := d₄ }) hb')
  rw [asReq_ok hfinish] at hlast
  injection hlast with _ hm'
  rw [← hm']
  exact ⟨hd₄, rfl⟩

/-- The tombstones after a rename. -/
theorem mem_renameTombstones {c : Branch} {existed : Bool} {t : RelPath} (hne : src ≠ dst) :
    t ∈ (renameTombstones src dst inh existed c).tombstones ↔
      (t = src ∧ inh = true) ∨ (t ∈ c.tombstones ∧ t ≠ src ∧ t ≠ dst) := by
  unfold renameTombstones
  cases inh <;> cases existed <;>
    simp only [Branch.mem_removeTombstone, Branch.mem_addTombstone, Bool.false_eq_true, if_true,
      if_false, and_true, and_false, false_or]
  · tauto
  · tauto
  · constructor
    · rintro ⟨rfl | ht, hd⟩
      · exact Or.inl rfl
      · by_cases hts : t = src
        · exact Or.inl hts
        · exact Or.inr ⟨ht, hts, hd⟩
    · rintro (rfl | ⟨ht, -, hd⟩)
      · exact ⟨Or.inl rfl, hne⟩
      · exact ⟨Or.inr ht, hd⟩
  · constructor
    · rintro ⟨rfl | rfl | ht, hd⟩
      · exact absurd rfl hd
      · exact Or.inl rfl
      · by_cases hts : t = src
        · exact Or.inl hts
        · exact Or.inr ⟨ht, hts, hd⟩
    · rintro (rfl | ⟨ht, -, hd⟩)
      · exact ⟨Or.inr (Or.inl rfl), hne⟩
      · exact ⟨Or.inr (Or.inr ht), hd⟩

section Cleared

variable {d d' d'' : Tree}

/-- Off the destination the clearing is not noticed. -/
theorem Cleared.kept (h : Cleared d d' name dst) (hdst : dst ≠ []) {q : RelPath} (hq : ¬ dst <+: q) :
    deltaKind d' name q = deltaKind d name q := by
  rcases h with rfl | rfl
  · rfl
  · show (d.cut _).kindAt (deltaPath name q) = _
    rw [Disk.kindAt_cut _ (l := deltaPath name dst) hdst, if_neg fun hle => hq (deltaPath_le.mp hle)]
    rfl

theorem Cleared.same (h : Cleared d d' name dst) (hdst : dst ≠ []) :
    SameOn (fun r => ¬ Own name r) d d' := by
  rcases h with rfl | rfl
  · exact SameOn.refl _ _
  · exact Disk.sameOn_cut _ hdst fun hno => hno (own_files name)

theorem Cleared.layout (h : Cleared d d' name dst) : SameLayout d d' := by
  rcases h with rfl | rfl
  · exact SameLayout.refl _
  · exact Disk.layout_cut _ _

/-- The ways to both names are as before the clearing. -/
theorem BothUp.noLink_cleared (h : BothUp m m₂ name b src dst) (hd : Cleared m₂.disk d name dst)
    (hdst : dst ≠ []) (hds : ¬ dst <+: src) (hp : p = src ∨ p = dst) :
    d.NoLinkAbove (deltaPath name p) := by
  apply noLink_of_dirs
  intro a ha hap
  have hda : ¬ dst <+: a := by
    intro hda
    rcases hp with rfl | rfl
    · exact hds (hda.trans ha)
    · exact hap (ha.eq_of_length_le hda.length_le)
  rw [hd.kept hdst hda]
  exact h.way hp ha hap

/-- The delta after an entry has moved from `src` to `dst`. -/
theorem deltaKind_shift (hds : ¬ dst <+: src)
    (h : d'.shift (deltaPath name src) (deltaPath name dst) = some d'') :
    (∀ r, deltaKind d'' name (dst ++ r) = deltaKind d' name (src ++ r)) ∧
      (∀ q, ¬ dst <+: q → deltaKind d'' name q = if src <+: q then none else deltaKind d' name q) := by
  have hts : ¬ deltaPath name dst ≤ deltaPath name src := fun hle => hds (deltaPath_le.mp hle)
  constructor
  · intro r
    have hback : Loc.rebase (deltaPath name dst) (deltaPath name src) (deltaPath name (dst ++ r)) =
        deltaPath name (src ++ r) := by
      ext1
      · rfl
      · simp [Loc.rebase, deltaPath]
    show d''.kindAt (deltaPath name (dst ++ r)) = _
    rw [Disk.kindAt_shift h hts, if_pos (deltaPath_le.mpr (List.prefix_append dst r)), hback]
    rfl
  · intro q hq
    show d''.kindAt (deltaPath name q) = _
    rw [Disk.kindAt_shift h hts, if_neg fun hle => hq (deltaPath_le.mp hle)]
    exact if_congr deltaPath_le rfl rfl

end Cleared

/-- **The move**, where it returns Ok. -/
theorem BothUp.renamed (h : BothUp m m₂ name b src dst) (hb : m.forest.get? name = some b)
    (hsd : ¬ src <+: dst) (hds : ¬ dst <+: src)
    (hok : Faulty.moveDelta f name src dst (m.inheritedPathExists b src) (deltaPath name src)
      (deltaPath name dst) m₂ = .ok () m') : Renamed m m' name b src dst := by
  have hne : src ≠ dst := fun heq => hsd (heq ▸ List.prefix_rfl)
  have hdst : dst ≠ [] := fun heq => hds (heq ▸ List.nil_prefix)
  obtain ⟨d, existed, hd, hren, hforest⟩ := moveDelta_steps h hdst hok
  rcases Sys.rename_cases (s := deltaPath name src) (t := deltaPath name dst) rfl rfl
    (h.noLink_cleared hd hdst hds (Or.inl rfl)) (h.noLink_cleared hd hdst hds (Or.inr rfl))
    with ⟨e, he⟩ | ⟨heq, -⟩ | ⟨d', k, hk, -, -, hshift, hmoved⟩
  · rw [hren] at he
    cases he
  · exact absurd heq (deltaPath_ne.mpr hne)
  rw [hren] at hmoved
  injection hmoved with _ hdisk
  subst hdisk
  obtain ⟨hshifted, hleft⟩ := deltaKind_shift hds hshift
  have hoff : ∀ q, src <+: q → ¬ dst <+: q := fun q hq hle =>
    (List.prefix_or_prefix_of_prefix hle hq).elim hds hsd
  have hat : ∀ r, deltaKind m'.disk name (dst ++ r) = deltaKind m₂.disk name (src ++ r) := by
    intro r
    rw [hshifted, hd.kept hdst (hoff _ (List.prefix_append src r))]
  have hgone : ∀ q, src <+: q → deltaKind m'.disk name q = none := by
    intro q hq
    rw [hleft q (hoff q hq), if_pos hq]
  have helse : ∀ q, ¬ src <+: q → ¬ dst <+: q →
      deltaKind m'.disk name q = deltaKind m₂.disk name q := by
    intro q hqs hqd
    rw [hleft q hqd, if_neg hqs, hd.kept hdst hqd]
  obtain ⟨b', hb', htomb⟩ := h.branch
  refine
    { branch := ⟨renameTombstones src dst (m.inheritedPathExists b src) existed b', ?_, fun t => ?_⟩
      forest := ?_
      up := ?_
      top := ?_
      moved := fun r hr => ?_
      gone := hgone
      ways := fun q hq => ?_
      rest := fun q h₁ h₂ h₃ h₄ => by rw [helse q h₃ h₄, h.rest h₁ h₂]
      same := ?_
      mounts := ?_ }
  · have hset := sameSettings_renameTombstones src dst (m.inheritedPathExists b src) existed b'
    rw [hforest]
    exact Forest.get?_modify_self hb' hset.name hset.parent
  · rw [mem_renameTombstones hne, htomb]
    simp only [List.mem_filter, decide_eq_true_eq]
    tauto
  · rw [hforest]
    exact h.forest.trans (Forest.SameBut.of_modify
      (sameSettings_renameTombstones src dst (m.inheritedPathExists b src) existed))
  · intro hup
    have hnone := h.source hb hsd
    rw [hup, ← hd.kept hdst hds] at hnone
    exact absurd (hk.symm.trans hnone) (by simp)
  · have htop := hat []
    rw [List.append_nil, List.append_nil] at htop
    rw [htop, h.source hb hsd]
  · have hsr : ¬ src ++ r <+: src := fun hle => by
      have hlen := hle.length_le
      have hpos := List.length_pos_iff.mpr hr
      rw [List.length_append] at hlen
      omega
    have hdr : ¬ src ++ r <+: dst := fun hle => hsd ((List.prefix_append src r).trans hle)
    rw [hat, h.rest hsr hdr]
  · have hfree : ¬ src <+: q ∧ ¬ dst <+: q := by
      rcases hq with ⟨hq, hqne⟩ | ⟨hq, hqne⟩
      · exact ⟨fun hle => hqne (hq.eq_of_length_le hle.length_le), fun hle => hds (hle.trans hq)⟩
      · exact ⟨fun hle => hsd (hle.trans hq), fun hle => hqne (hq.eq_of_length_le hle.length_le)⟩
    rw [helse q hfree.1 hfree.2, h.ways q hq]
  · refine (h.same.trans (hd.same hdst)).trans (Disk.sameOn_shift hshift ?_ ?_)
    · exact fun hno => hno (own_files name)
    · exact fun hno => hno (own_files name)
  · exact SameLayout.trans (SameLayout.trans h.mounts hd.layout) (Disk.layout_shift hshift)

end Move

section Body

variable {f : Faults} {m m' : Manager} {name : String} {b : Branch} {p sdir ddir : RelPath}
  {sn dn : String} {noReplace : Bool}

theorem ensureCow_eq_ok {l : Place} (h : Faulty.ensureCowForBranch f name p m = .ok l m') :
    ensureDeltaPathForWrite name p m = .ok l m' ∧ l = deltaPath name p := by
  unfold Faulty.ensureCowForBranch asReq at h
  cases hx : Faulty.ensureDeltaPathForWrite f name p m with
  | error e m₁ =>
    rw [hx] at h
    cases h
  | ok l' m₁ =>
    rw [hx] at h
    injection h with hl hm
    subst hl hm
    exact ⟨Faulty.ensureDeltaPathForWrite_of_ok hx, Faulty.ensureDelta_place hx⟩

/-- **The body of `rename`**, where it returns Ok, moves a path that was visible. -/
theorem renamePath_renamed (hs : NameIn m name b sdir) (hd : NameIn m name b ddir)
    (hsd : ¬ sdir ++ [sn] <+: ddir ++ [dn]) (hds : ¬ ddir ++ [dn] <+: sdir ++ [sn])
    (hok : Faulty.renamePath f name (sdir ++ [sn]) (ddir ++ [dn]) noReplace m = .ok () m') :
    Renamed m m' name b (sdir ++ [sn]) (ddir ++ [dn]) ∧ m.view name (sdir ++ [sn]) ≠ none := by
  unfold Faulty.renamePath at hok
  rw [readReq_bind] at hok
  obtain ⟨_, m₀, hfound, hrest⟩ := bind_eq_ok hok
  obtain ⟨hfound, rfl⟩ := failIf_eq_ok hfound
  rw [readReq_bind, readReq_bind] at hrest
  obtain ⟨_, m₁, hfree, hrest⟩ := bind_eq_ok hrest
  obtain ⟨-, rfl⟩ := failIf_eq_ok hfree
  obtain ⟨l, m₂, hsrc, hrest⟩ := bind_eq_ok hrest
  obtain ⟨l', m₃, hdst, hmove⟩ := bind_eq_ok hrest
  obtain ⟨hsrc, rfl⟩ := ensureCow_eq_ok hsrc
  obtain ⟨hdst, rfl⟩ := ensureCow_eq_ok hdst
  have hinherited : (m₁.forest.get? name).any (fun b => m₁.inheritedPathExists b (sdir ++ [sn])) =
      m₁.inheritedPathExists b (sdir ++ [sn]) := by
    rw [hs.branch]
    rfl
  rw [hinherited] at hmove
  refine ⟨(bothUp hs hd hsrc hdst).renamed hs.branch hsd hds hmove, ?_⟩
  have hkinds := Manager.kindOf_of_view_dir hs.shown
  rw [Manager.view_eq_kindOf fun a ha hne => hkinds a (prefix_of_mem_dir ha hne), Ne,
    Manager.kindOf_eq_none]
  simpa using hfound

end Body

/-! ## What is shown afterwards -/

/-- What a branch shows at a path where its delta has nothing. -/
def Manager.showsThrough (m : Manager) (b : Branch) (p : RelPath) : Option Entry :=
  if b.isDeleted p then none else m.inheritedKind b p

/-- The subtree the branch shows at `src` is shown at `dst` and nowhere else, where no directory with
something in it was shown, and all else is shown as before. -/
structure Moves (m m' : Manager) (name : String) (src dst : RelPath) : Prop where
  onto : ¬ (m.view name dst = some .dir ∧ ∃ r, r ≠ [] ∧ m.view name (dst ++ r) ≠ none)
  moved : ∀ r, m'.view name (dst ++ r) = m.view name (src ++ r)
  gone : ∀ r, m'.view name (src ++ r) = none
  others : ∀ q, ¬ src <+: q → ¬ dst <+: q → m'.view name q = m.view name q

/-- Wherever directories lead to a path below the source that the delta lacks, the same shows through there
and at the destination, once the tombstone of the destination is gone. -/
def ThroughAlike (m : Manager) (name : String) (b : Branch) (src dst : RelPath) : Prop :=
  ∀ r, r ≠ [] → (∀ a, a <+: r → a ≠ r → m.view name (src ++ a) = some .dir) →
    deltaKind m.disk name (src ++ r) = none →
    m.showsThrough (b.removeTombstone dst) (dst ++ r) = m.showsThrough b (src ++ r)

section Shown

variable {m m' : Manager} {name : String} {b b' : Branch} {dir sdir ddir src dst p q : RelPath}
  {n sn dn : String}

theorem showsThrough_eq (hp : p ≠ []) :
    m.showsThrough b p = beneath (Whiteout b) (m.inheritedKind b) p := by
  classical
  unfold Manager.showsThrough beneath
  exact if_congr (covers_whiteout hp).symm rfl rfl

/-- The branch has directories all the way to a name it shows a directory for. -/
theorem NameIn.overlay_way (h : NameIn m name b dir) {a : RelPath} (ha : a <+: dir ++ [n])
    (hne : a ≠ dir ++ [n]) :
    overlay (deltaKind m.disk name) (Whiteout b) (m.inheritedKind b) a = some .dir := by
  have hshown := h.shown
  rw [Manager.view_eq_overlay h.branch, shown_eq_some] at hshown
  by_cases had : a = dir
  · rw [had]
    exact hshown.2
  · exact hshown.1 a (prefix_of_mem_dir ha hne) had

/-- What comes up of a visible path is what is shown there. -/
theorem overlay_of_upAttr (hb : m.forest.get? name = some b)
    (hthere : overlay (deltaKind m.disk name) (Whiteout b) (m.inheritedKind b) p ≠ none)
    {x : Attr String} (hx : m.upAttr b p = some x) :
    overlay (deltaKind m.disk name) (Whiteout b) (m.inheritedKind b) p = some x.kind := by
  unfold Manager.upAttr at hx
  rw [Forest.name_of_get? hb] at hx
  cases hk : deltaKind m.disk name p with
  | some k =>
    obtain ⟨a, ha, hak⟩ := Disk.exists_attr hk
    rw [ha, Option.some_or] at hx
    rw [overlay_of_some hk, ← hak, Option.some.inj hx]
  | none =>
    have hcov : ¬ Covers (Whiteout b) p := fun hc => hthere (overlay_of_covered hk hc)
    rw [Disk.attrAt_eq_none.mpr hk, Option.none_or] at hx
    rw [overlay_of_none hk hcov, Manager.inheritedKind_eq]
    cases hnode : m.inheritedNode b p with
    | none => simp [hnode] at hx
    | some node =>
      rw [hnode, Option.bind_some] at hx
      unfold copyAttr at hx
      cases hkind : node.kind with
      | dir => simp [hkind] at hx
      | file c =>
        simp only [hkind, Option.some.injEq] at hx
        rw [← hx, Option.map_some, hkind]
      | symlink t =>
        simp only [hkind, Option.some.injEq] at hx
        rw [← hx, Option.map_some, hkind]

/-- The branch after a rename, as an overlay. -/
theorem Renamed.view (h : Renamed m m' name b src dst) (hs : NameIn m name b sdir)
    (hb' : m'.forest.get? name = some b') : m'.view name =
      Logic.shown .dir (overlay (deltaKind m'.disk name) (Whiteout b') (m.inheritedKind b)) := by
  rw [Manager.view_eq_overlay hb', Manager.inheritedKind_of_apart hs.unseen.apart h.forest hs.branch
    hb' h.same h.mounts]

/-- A tombstone that is neither name's is one exactly when it was. -/
theorem Renamed.whiteouts (hts : ∀ t, t ∈ b'.tombstones ↔
      (t = src ∧ m.inheritedPathExists b src = true) ∨ (t ∈ b.tombstones ∧ t ≠ src ∧ t ≠ dst))
    {t : RelPath} (hs : t ≠ src) (hd : t ≠ dst) : Whiteout b' t ↔ Whiteout b t := by
  unfold Whiteout
  rw [hts]
  simp [hs, hd]

/-- **Nothing is left at the source.** -/
theorem Renamed.view_gone (h : Renamed m m' name b (sdir ++ [sn]) dst) (hs : NameIn m name b sdir)
    (r : RelPath) : m'.view name (sdir ++ [sn] ++ r) = none := by
  obtain ⟨b', hb', hts⟩ := h.branch
  have hnone : overlay (deltaKind m'.disk name) (Whiteout b') (m.inheritedKind b) (sdir ++ [sn]) =
      none := by
    have hk := h.gone (sdir ++ [sn]) List.prefix_rfl
    by_cases hinh : m.inheritedPathExists b (sdir ++ [sn]) = true
    · refine overlay_of_covered hk ⟨sdir ++ [sn], ⟨?_, by simp⟩, List.prefix_rfl⟩
      rw [hts]
      exact Or.inl ⟨rfl, hinh⟩
    · have hI : m.inheritedKind b (sdir ++ [sn]) = none := by
        rw [Manager.inheritedKind_eq_none]
        simpa [Manager.inheritedPathExists] using hinh
      by_cases hc : Covers (Whiteout b') (sdir ++ [sn])
      · exact overlay_of_covered hk hc
      · rw [overlay_of_none hk hc, hI]
  have hself : m'.view name (sdir ++ [sn]) = none := by
    rw [h.view hs hb']
    unfold Logic.shown
    rw [hnone]
    exact ite_self _
  by_cases hr : r = []
  · rw [hr, List.append_nil, hself]
  · apply view_below_of_not_dir (by simp [hself]) (List.prefix_append _ r)
    simpa using hr

/-- **Elsewhere everything is shown as before.** -/
theorem Renamed.view_others (h : Renamed m m' name b (sdir ++ [sn]) (ddir ++ [dn]))
    (hs : NameIn m name b sdir) (hd : NameIn m name b ddir) (hqs : ¬ sdir ++ [sn] <+: q)
    (hqd : ¬ ddir ++ [dn] <+: q) : m'.view name q = m.view name q := by
  obtain ⟨b', hb', hts⟩ := h.branch
  rw [h.view hs hb', Manager.view_eq_overlay hs.branch]
  refine shown_congr fun a ha => ?_
  have has : ¬ sdir ++ [sn] <+: a := fun hle => hqs (hle.trans ha)
  have had : ¬ ddir ++ [dn] <+: a := fun hle => hqd (hle.trans ha)
  have hns : a ≠ sdir ++ [sn] := fun heq => has (heq ▸ List.prefix_rfl)
  have hnd : a ≠ ddir ++ [dn] := fun heq => had (heq ▸ List.prefix_rfl)
  by_cases hsway : a <+: sdir ++ [sn]
  · rw [overlay_of_some (h.ways a (Or.inl ⟨hsway, hns⟩)), hs.overlay_way hsway hns]
  by_cases hdway : a <+: ddir ++ [dn]
  · rw [overlay_of_some (h.ways a (Or.inr ⟨hdway, hnd⟩)), hd.overlay_way hdway hnd]
  have hwhite : ∀ t, t <+: a → (Whiteout b' t ↔ Whiteout b t) := fun t ht =>
    Renamed.whiteouts hts (fun heq => has (heq ▸ ht)) fun heq => had (heq ▸ ht)
  rw [overlay_eq_or, overlay_eq_or, h.rest a hsway hdway has had, beneath_congr hwhite]

/-- The overlay after a rename has the subtree moved. -/
theorem Renamed.transplanted (h : Renamed m m' name b (sdir ++ [sn]) (ddir ++ [dn]))
    (hs : NameIn m name b sdir) (hthere : m.view name (sdir ++ [sn]) ≠ none) (b' : Branch) :
    Transplanted Kind.dir (deltaKind m.disk name) (deltaKind m'.disk name) (m.inheritedKind b) (Whiteout b)
      (Whiteout b') (sdir ++ [sn]) (ddir ++ [dn]) where
  source := fun a ha hne => hs.overlay_way ha hne
  target := fun a ha hne => overlay_of_some (h.ways a (Or.inr ⟨ha, hne⟩))
  top := by
    obtain ⟨x, hx⟩ := Option.ne_none_iff_exists'.mp h.up
    have hover : overlay (deltaKind m.disk name) (Whiteout b) (m.inheritedKind b) (sdir ++ [sn]) ≠
        none := by
      intro hnone
      refine hthere ?_
      rw [Manager.view_eq_overlay hs.branch]
      unfold Logic.shown
      rw [hnone]
      exact ite_self _
    rw [overlay_of_upAttr hs.branch hover hx]
    refine overlay_of_some ?_
    rw [h.top, hx]
    rfl
  below := h.moved

/-- **When a rename moves the whole subtree and nothing else.** -/
theorem Renamed.moves_iff (h : Renamed m m' name b (sdir ++ [sn]) (ddir ++ [dn]))
    (hs : NameIn m name b sdir) (hd : NameIn m name b ddir)
    (hsd : ¬ sdir ++ [sn] <+: ddir ++ [dn]) (hds : ¬ ddir ++ [dn] <+: sdir ++ [sn])
    (hthere : m.view name (sdir ++ [sn]) ≠ none) :
    Moves m m' name (sdir ++ [sn]) (ddir ++ [dn]) ↔
      ¬ (m.view name (ddir ++ [dn]) = some .dir ∧
        ∃ r, r ≠ [] ∧ m.view name (ddir ++ [dn] ++ r) ≠ none) ∧
      ThroughAlike m name b (sdir ++ [sn]) (ddir ++ [dn]) := by
  obtain ⟨b', hb', hts⟩ := h.branch
  have hiff := shown_transplanted_iff (h.transplanted hs hthere b')
  rw [← h.view hs hb', ← Manager.view_eq_overlay hs.branch] at hiff
  have hbeneath : ∀ r, r ≠ [] → m.showsThrough (b.removeTombstone (ddir ++ [dn])) (ddir ++ [dn] ++ r) =
      beneath (Whiteout b') (m.inheritedKind b) (ddir ++ [dn] ++ r) := by
    intro r _
    have hcov : ∀ t, t <+: ddir ++ [dn] ++ r →
        (Whiteout (b.removeTombstone (ddir ++ [dn])) t ↔ Whiteout b' t) := by
      intro t ht
      have hts' : t ≠ sdir ++ [sn] := by
        rintro rfl
        exact (List.prefix_or_prefix_of_prefix ht (List.prefix_append _ r)).elim hsd hds
      unfold Whiteout
      rw [hts, Branch.mem_removeTombstone]
      simp [hts']
    rw [showsThrough_eq (by simp), beneath_congr hcov]
    rfl
  have hthrough : ThroughAlike m name b (sdir ++ [sn]) (ddir ++ [dn]) ↔
      ∀ r, m'.view name (ddir ++ [dn] ++ r) = m.view name (sdir ++ [sn] ++ r) := by
    rw [hiff]
    refine forall_congr' fun r => forall_congr' fun hr => forall_congr' fun _ =>
      forall_congr' fun _ => ?_
    rw [hbeneath r hr, showsThrough_eq (by simp)]
  rw [hthrough]
  constructor
  · exact fun hm => ⟨hm.onto, hm.moved⟩
  · rintro ⟨honto, hmoved⟩
    exact ⟨honto, hmoved, h.view_gone hs, fun q hqs hqd => h.view_others hs hd hqs hqd⟩

end Shown

end BranchFs
