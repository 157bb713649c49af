/-
# BranchFs.Mount.Undone -- what a rename leaves that fails

`rename` brings both names into the delta, clears the delta at the destination, moves, and edits the
tombstones; nothing is put back when a step fails. A failure before the destination is cleared disturbs
nothing unless a copy-on-write had something to add. Clearing disturbs what the delta alone has there, and
a move that went through is not undone when the tombstone log fails. So which renames can fail without a
trace is decided by the state before (`rename_harmless_iff`).
-/
import BranchFs.Cow.Halfway
import BranchFs.Mount.Listing
import BranchFs.Mount.Moves

namespace BranchFs

open BranchFs.Posix BranchFs.Logic

/-! ## The condition -/

/-- What the delta has at a path once both names are up. -/
def Manager.upKind (m : Manager) (name : String) (b : Branch) (src dst x : RelPath) : Option Entry :=
  ((deltaKind m.disk name x).or (m.cowKind b src x)).or (m.cowKind b dst x)

/-- With both names up, the delta path of the destination leads to something. -/
def Manager.LeadsOn (m : Manager) (name : String) (b : Branch) (src dst : RelPath) : Prop :=
  ∃ d : Tree, SameLayout m.disk d ∧
    (∀ x : Place, d.kindAt x =
      if x.root = some (.files name) then m.upKind name b src dst x.path else m.disk.kindAt x) ∧
    d.pathExists (deltaPath name dst) = true

/-- What the delta has at the path and below it shows through from the layers below all the same, and is
no file. -/
def Manager.Mirrored (m : Manager) (name : String) (b : Branch) (p : RelPath) : Prop :=
  ∀ r k, deltaKind m.disk name (p ++ r) = some k → fileOf (some k) = none ∧ m.showsThrough b (p ++ r) = some k

/-- With both names up and the destination cleared, `fs::rename` goes through. -/
def Manager.CanMove (m : Manager) (name : String) (b : Branch) (src dst : RelPath) : Prop :=
  ∃ k, m.upKind name b src dst src = some k ∧ ¬ (m.LeadsOn name b src dst ∧ dst <+: src) ∧
    (src = dst ∨ (¬ src <+: dst ∧
      (k = .dir → m.upKind name b src dst dst = none ∨ m.LeadsOn name b src dst)))

/-- The quota turns away what copy-on-write of the second name has to bring up, the first one charged. -/
def Manager.RefusedNext (m : Manager) (name : String) (b : Branch) (p q : RelPath) : Prop :=
  (deltaKind m.disk name q).or (m.cowKind b p q) = none ∧
    (m.inheritedNode b q).any (fun n => !n.kind.isDir && !(m.quotaUp name b p).check (metaLen n)) = true

/-- The rename cannot fail with a trace. -/
def Manager.RenameHarmless (m : Manager) (name : String) (b : Branch) (src dst : RelPath)
    (noReplace : Bool) : Prop :=
  m.view name src = none ∨ (noReplace = true ∧ m.view name dst ≠ none) ∨ m.Refused name b src ∨
    (m.Idle name b src ∧ (m.RefusedNext name b src dst ∨
      (m.Idle name b dst ∧ (m.LeadsOn name b src dst → m.Mirrored name b dst) ∧
        (m.CanMove name b src dst →
          m.inheritedPathExists b src = false ∧ m.view name dst = none))))

/-! ## Both names up -/

section Up

variable {m m₁ m₂ m' : Manager} {name : String} {b b₁ : Branch} {sdir ddir src dst : RelPath}
  {sn dn : String} {l l' : Place}

/-- **Both names up**, with nothing to add. -/
theorem BothUp.kept (h : BothUp m m₂ name b (sdir ++ [sn]) (ddir ++ [dn])) (hs : NameIn m name b sdir)
    (hd : NameIn m name b ddir) (his : m.Idle name b (sdir ++ [sn]))
    (hid : m.Idle name b (ddir ++ [dn])) : Kept m m₂ name b := by
  have hadds : ∀ x, overlay (deltaKind m₂.disk name) (Whiteout b) (m.inheritedKind b) x =
        overlay (deltaKind m.disk name) (Whiteout b) (m.inheritedKind b) x ∧
      fileOf (deltaKind m₂.disk name x) = fileOf (deltaKind m.disk name x) := by
    intro x
    have hx := h.delta x
    cases hfirst : (deltaKind m.disk name x).or (m.cowKind b (sdir ++ [sn]) x) with
    | some k =>
      rw [hfirst, Option.some_or, ← hfirst] at hx
      exact overlay_or_cowKind hs his hx
    | none =>
      obtain ⟨hk, -⟩ := Option.or_eq_none_iff.mp hfirst
      rw [hfirst, Option.none_or] at hx
      exact overlay_or_cowKind hd hid (by rw [hx, hk, Option.none_or])
  obtain ⟨b', hb', hts⟩ := h.branch
  have hsame : b'.tombstones = b.tombstones := by
    have hfirst : b.tombstones.filter (· ≠ sdir ++ [sn]) = b.tombstones := (removeTombstone_idle b _).mpr his.1
    rw [hts, hfirst]
    exact (removeTombstone_idle b _).mpr hid.1
  exact ⟨⟨b', hb', fun t => by rw [hsame]⟩, h.forest, fun x => (hadds x).1, fun x => (hadds x).2, h.same,
    h.mounts⟩

theorem BothUp.upKind (h : BothUp m m₂ name b src dst) (x : RelPath) :
    deltaKind m₂.disk name x = m.upKind name b src dst x := h.delta x

/-- Whether the destination leads to something is decided before. -/
theorem BothUp.leadsOn_iff (h : BothUp m m₂ name b src dst)
    (hsame : SameOn (fun r => r ≠ some (.files name)) m.disk m₂.disk) :
    m₂.disk.pathExists (deltaPath name dst) = true ↔ m.LeadsOn name b src dst := by
  have hkinds : ∀ x : Place, m₂.disk.kindAt x =
      if x.root = some (.files name) then m.upKind name b src dst x.path else m.disk.kindAt x := by
    intro x
    by_cases hx : x.root = some (.files name)
    · rw [if_pos hx, ← h.upKind]
      have heq : x = deltaPath name x.path := Loc.ext' hx rfl
      rw [heq]
      rfl
    · rw [if_neg hx, hsame.kindAt hx]
  constructor
  · exact fun hthere => ⟨m₂.disk, h.mounts, hkinds, hthere⟩
  · rintro ⟨d, hlayout, hd, hthere⟩
    have halike : m₂.disk.pathExists (deltaPath name dst) = d.pathExists (deltaPath name dst) := by
      refine Disk.pathExists_alike (fun x => ?_) ?_ _
      · rw [hkinds, hd]
      · exact Eq.trans h.mounts hlayout.symm
    rw [halike, hthere]

end Up

/-! ## The destination cleared -/

/-- The disk after the clearing: what leads somewhere is gone. -/
def cleared (d : Tree) (l : Place) : Tree := if d.pathExists l then d.cut l else d

section Clear

variable {m m₂ m' : Manager} {name : String} {b : Branch} {d : Tree} {p src dst q : RelPath} {r : RelPath}

theorem pathExists_kind {l : Place} {r : Root} {k : Entry} (hr : l.root = some r)
    (hk : d.kindAt l = some k) (hlink : k.isSymlink = false) :
    d.pathExists l = true ∧ d.isDir l = k.isDir := by
  obtain ⟨node, hget, rfl⟩ := Disk.exists_get hk
  have hnot : d.linkAt l = false := Disk.linkAt_eq_false_of_kind hk hlink
  unfold Disk.pathExists Disk.isDir
  rw [Disk.stat_of_get hr hget hnot]
  exact ⟨rfl, rfl⟩

theorem not_pathExists_of_free {l : Place} {r : Root} (hr : l.root = some r)
    (hp : d.kindAt l.parent = some .dir) (hk : d.kindAt l = none) : d.pathExists l = false := by
  have hget : d.get l = none := (Disk.get_none_iff d l).mpr hk
  unfold Disk.pathExists Disk.stat
  rw [Disk.realpathFollow_of_dir hr hp (Disk.linkAt_of_none hk)]
  simp only [hget]
  rfl

/-- **Clearing the destination** takes down whatever the delta path leads to something through. -/
theorem clearDestination_eq (hp : m.disk.kindAt (deltaPath name p).parent = some .dir) (hne : p ≠ []) :
    clearDestination name p m = .ok () { m with disk := cleared m.disk (deltaPath name p) } := by
  show when (m.disk.pathExists (deltaPath name p) = true)
    (if m.disk.isDir (deltaPath name p) = true then ignoring (Posix.Sys.removeDirAll (deltaPath name p))
      else ignoring (Posix.Sys.removeFile (deltaPath name p))) m = _
  unfold cleared
  by_cases hthere : m.disk.pathExists (deltaPath name p) = true
  · rw [when_true hthere, if_pos hthere]
    have hpath : (deltaPath name p).path ≠ [] := hne
    cases hk : m.disk.kindAt (deltaPath name p) with
    | none =>
      rw [not_pathExists_of_free rfl hp hk] at hthere
      cases hthere
    | some k =>
      cases k with
      | dir =>
        have hdir : m.disk.isDir (deltaPath name p) = true := (pathExists_kind rfl hk rfl).2
        rw [if_pos hdir, ignoring_eq]
        simp only [after, Sys.removeDirAll_ok rfl hpath hk]
      | file c =>
        have hdir : m.disk.isDir (deltaPath name p) = false := (pathExists_kind rfl hk rfl).2
        rw [if_neg (by rw [hdir]; simp), ignoring_eq]
        simp only [after, Sys.removeFile_ok rfl hk (by simp)]
      | symlink t =>
        split
        · rw [ignoring_eq]
          simp only [after, Sys.removeDirAll_link rfl hpath hk]
        · rw [ignoring_eq]
          simp only [after, Sys.removeFile_ok rfl hk (by simp)]
  · rw [when_false hthere, if_neg hthere]
    rfl

/-- What the delta has once the destination is cleared. -/
theorem deltaKind_cleared (d : Tree) (name : String) (hne : p ≠ []) (x : RelPath) :
    deltaKind (cleared d (deltaPath name p)) name x =
      if d.pathExists (deltaPath name p) = true ∧ p <+: x then none else deltaKind d name x := by
  unfold cleared
  by_cases hthere : d.pathExists (deltaPath name p) = true
  · rw [if_pos hthere]
    unfold deltaKind
    rw [Disk.kindAt_cut d (show (deltaPath name p).path ≠ [] from hne)]
    exact if_congr (by rw [deltaPath_le, and_iff_right hthere]) rfl rfl
  · rw [if_neg hthere, if_neg fun hc => hthere hc.1]

theorem sameOn_cleared (d : Tree) (name : String) (p : RelPath) (hne : p ≠ []) :
    SameOn (fun r => ¬ Own name r) d (cleared d (deltaPath name p)) ∧
      SameLayout d (cleared d (deltaPath name p)) := by
  have hcases : Cleared d (cleared d (deltaPath name p)) name p := by
    unfold cleared
    split
    · exact Or.inr rfl
    · exact Or.inl rfl
  exact ⟨hcases.same hne, hcases.layout⟩

/-- **Clearing the destination disturbs nothing** exactly when it takes down nothing, or what shows through
from below anyway. -/
theorem Kept.cleared_iff (h : Kept m m₂ name b) (hb : m.forest.get? name = some b)
    (hunseen : m.LayersUnseen name) (hne : dst ≠ []) :
    Undisturbed m { m₂ with disk := cleared m₂.disk (deltaPath name dst) } name ↔
      (m₂.disk.pathExists (deltaPath name dst) = true → m.Mirrored name b dst) := by
  let mc : Manager := { m₂ with disk := cleared m₂.disk (deltaPath name dst) }
  have hsame : SameOn (fun r => ¬ Own name r) m.disk mc.disk :=
    h.same.trans (sameOn_cleared m₂.disk name dst hne).1
  have hlayout : SameMounts m mc := SameLayout.trans h.mounts (sameOn_cleared m₂.disk name dst hne).2
  obtain ⟨b₂, hb₂, hts⟩ := h.branch
  constructor
  · intro hundisturbed hthere r k hk
    have hgone : deltaKind mc.disk name (dst ++ r) = none := by
      rw [deltaKind_cleared _ name hne, if_pos ⟨hthere, List.prefix_append dst r⟩]
    have hfile := hundisturbed.files (dst ++ r)
    unfold deltaFile at hfile
    rw [hgone, hk] at hfile
    refine ⟨hfile.symm, ?_⟩
    have hshown : mc.view name (dst ++ r) = some k := by
      rw [hundisturbed.view]
      exact view_of_delta hb hk
    have hinherited : mc.inheritedKind b₂ = m.inheritedKind b :=
      Manager.inheritedKind_of_apart hunseen.apart h.forest hb hb₂ hsame hlayout
    rw [Manager.view_eq_overlay (show mc.forest.get? name = some b₂ from hb₂), hinherited,
      whiteout_congr hts, shown_eq_some] at hshown
    have hover := hshown.2
    rw [overlay_eq_or, hgone, Option.none_or] at hover
    rw [showsThrough_eq (by simp [hne]), hover]
  · intro hmirrored
    have hadds : ∀ x, overlay (deltaKind mc.disk name) (Whiteout b) (m.inheritedKind b) x =
          overlay (deltaKind m.disk name) (Whiteout b) (m.inheritedKind b) x ∧
        fileOf (deltaKind mc.disk name x) = fileOf (deltaKind m.disk name x) := by
      intro x
      have hx : deltaKind mc.disk name x = _ := deltaKind_cleared _ name hne x
      by_cases hcut : m₂.disk.pathExists (deltaPath name dst) = true ∧ dst <+: x
      · rw [if_pos hcut] at hx
        obtain ⟨hthere, r, rfl⟩ := hcut
        rw [overlay_eq_or, overlay_eq_or, hx, Option.none_or]
        cases hk : deltaKind m.disk name (dst ++ r) with
        | none => exact ⟨rfl, rfl⟩
        | some k =>
          obtain ⟨hfile, hthrough⟩ := hmirrored hthere r k hk
          rw [showsThrough_eq (by simp [hne])] at hthrough
          rw [hthrough, Option.some_or, hfile]
          exact ⟨rfl, rfl⟩
      · rw [if_neg hcut] at hx
        have hover := h.overlaid x
        have hfiles := h.files x
        unfold deltaFile at hfiles
        rw [overlay_eq_or] at hover ⊢
        rw [hx]
        exact ⟨hover, hfiles⟩
    have hkept : Kept m mc name b :=
      ⟨⟨b₂, hb₂, hts⟩, h.forest, fun x => (hadds x).1, fun x => (hadds x).2, hsame, hlayout⟩
    exact hkept.undisturbed_of hb hunseen

end Clear

/-! ## The move -/

section Move

variable {m m₂ : Manager} {name : String} {b : Branch} {d : Tree} {p src dst : RelPath}

theorem parent_of_ways (hne : p ≠ []) (hway : ∀ a, a <+: p → a ≠ p → deltaKind d name a = some .dir) :
    d.kindAt (deltaPath name p).parent = some .dir := by
  refine hway p.dropLast (List.dropLast_prefix p) fun heq => ?_
  have hlen := congrArg List.length heq
  have hpos := List.length_pos_iff.mpr hne
  rw [List.length_dropLast] at hlen
  omega

/-- What fits in the place of a cleared destination. -/
theorem fits_cleared_iff {k : Entry} (hne : dst ≠ []) :
    Sys.Fits (cleared d (deltaPath name dst)) k (deltaPath name dst) ↔
      (k = .dir → deltaKind d name dst = none ∨ d.pathExists (deltaPath name dst) = true) := by
  have hkind : (cleared d (deltaPath name dst)).kindAt (deltaPath name dst) = _ :=
    deltaKind_cleared _ name hne dst
  by_cases hthere : d.pathExists (deltaPath name dst) = true
  · rw [if_pos ⟨hthere, List.prefix_rfl⟩] at hkind
    exact iff_of_true ⟨fun _ => Or.inl hkind, fun _ => by simp [hkind],
      Sys.children_eq_nil _ (by simp [hkind])⟩ fun _ => Or.inr hthere
  · rw [if_neg fun hc => hthere hc.1] at hkind
    -- only a link can stand there and lead nowhere
    have hlink : deltaKind d name dst ≠ some .dir := fun hdir =>
      hthere (pathExists_kind (r := .files name) rfl hdir rfl).1
    constructor
    · intro hfit hk
      rcases hfit.dir hk with hnone | hdir
      · exact Or.inl (hkind.symm.trans hnone)
      · exact absurd (hkind.symm.trans hdir) hlink
    · intro h
      refine ⟨fun hk => Or.inl ?_, fun _ => by rw [hkind]; exact hlink,
        Sys.children_eq_nil _ (by rw [hkind]; exact hlink)⟩
      exact hkind.trans ((h hk).resolve_right hthere)

/-- **When the move goes through** is decided before. -/
theorem BothUp.move_iff (h : BothUp m m₂ name b src dst)
    (hsame : SameOn (fun r => r ≠ some (.files name)) m.disk m₂.disk) (hsrc : src ≠ []) (hdst : dst ≠ []) :
    (∃ d', Posix.Sys.rename (deltaPath name src) (deltaPath name dst)
        (cleared m₂.disk (deltaPath name dst)) = .ok () d') ↔ m.CanMove name b src dst := by
  unfold Manager.CanMove
  rw [← h.leadsOn_iff hsame, ← h.upKind src, ← h.upKind dst]
  have hdstway : ∀ a, a <+: dst → a ≠ dst →
      deltaKind (cleared m₂.disk (deltaPath name dst)) name a = some .dir := by
    intro a ha hne
    rw [deltaKind_cleared _ name hdst, if_neg, h.way (Or.inr rfl) ha hne]
    exact fun hc => hne (ha.eq_of_length_le hc.2.length_le)
  by_cases hcut : m₂.disk.pathExists (deltaPath name dst) = true ∧ dst <+: src
  · -- the source went with the destination
    have hgone : (cleared m₂.disk (deltaPath name dst)).kindAt (deltaPath name src) = none := by
      have hkind := deltaKind_cleared m₂.disk name hdst src
      rw [if_pos hcut] at hkind
      exact hkind
    refine iff_of_false (fun hok => ?_) fun ⟨k, _, hno, _⟩ => hno hcut
    by_cases heq : src = dst
    · subst heq
      obtain ⟨k, hk, -⟩ := (Sys.rename_ok_iff rfl rfl (parent_of_ways hsrc hdstway)
        (parent_of_ways hsrc hdstway) hsrc hsrc).mp hok
      rw [hgone] at hk
      cases hk
    · obtain ⟨d', hok⟩ := hok
      have hsrclink : (cleared m₂.disk (deltaPath name dst)).NoLinkAbove (deltaPath name src) := by
        refine Disk.noLinkAbove_of fun x hx hne => ?_
        obtain ⟨a, ha, rfl⟩ := le_deltaPath.mp hx
        have hkind := deltaKind_cleared m₂.disk name hdst a
        by_cases hc : m₂.disk.pathExists (deltaPath name dst) = true ∧ dst <+: a
        · rw [if_pos hc] at hkind
          exact Disk.linkAt_of_none hkind
        · rw [if_neg hc, h.way (Or.inl rfl) ha (deltaPath_ne.mp hne)] at hkind
          exact Disk.linkAt_eq_false_of_kind hkind rfl
      rcases Sys.rename_cases (s := deltaPath name src) (t := deltaPath name dst) rfl rfl hsrclink
        (noLink_of_dirs hdstway) with ⟨e, he⟩ | ⟨hst, -⟩ | ⟨d₁, k, hk, -⟩
      · cases he.symm.trans hok
      · exact heq (by simpa [deltaPath] using hst)
      · rw [hgone] at hk
        cases hk
  · have hsrcway : ∀ a, a <+: src → a ≠ src →
        deltaKind (cleared m₂.disk (deltaPath name dst)) name a = some .dir := by
      intro a ha hne
      rw [deltaKind_cleared _ name hdst, if_neg fun hc => hcut ⟨hc.1, hc.2.trans ha⟩, h.way (Or.inl rfl) ha hne]
    have hkind : (cleared m₂.disk (deltaPath name dst)).kindAt (deltaPath name src) =
        deltaKind m₂.disk name src := by
      have hkind := deltaKind_cleared m₂.disk name hdst src
      rw [if_neg hcut] at hkind
      exact hkind
    rw [Sys.rename_ok_iff rfl rfl (parent_of_ways hsrc hsrcway) (parent_of_ways hdst hdstway) hsrc hdst,
      hkind]
    refine exists_congr fun k => and_congr_right fun _ => ?_
    rw [and_iff_right hcut, fits_cleared_iff hdst, deltaPath_le]
    refine or_congr ⟨fun heq => by simpa [deltaPath] using heq, fun heq => by rw [heq]⟩ Iff.rfl

/-- The destination is visible once the names are up exactly when the handler clears it. -/
theorem BothUp.existed_iff (h : BothUp m m₂ name b src dst) :
    (m₂.resolved name dst).isSome = true ↔ m₂.view name dst ≠ none := by
  obtain ⟨b', hb', -⟩ := h.branch
  have hway : ∀ a, a <+: dst → a ≠ dst → m₂.kindOf name a = some .dir := by
    intro a ha hne
    exact Manager.kindOf_of_view_dir (view_of_delta hb' (h.way (Or.inr rfl) ha hne)) a List.prefix_rfl
  rw [Manager.view_eq_kindOf hway, Ne, Manager.kindOf_eq_none, Option.isSome_iff_ne_none]

/-- The steps of the move up to `fs::rename`. -/
theorem BothUp.moveDelta_eq (h : BothUp m m₂ name b src dst) (hdst : dst ≠ []) (inh : Bool)
    {x : Option RenameCall} (hx : x ≠ some .parents) :
    Halts.moveDelta x name src dst inh (deltaPath name src) (deltaPath name dst) m₂ =
      (do
        failIf (x = some .move) Errno.EIO
        ioOrEio (Posix.Sys.rename (deltaPath name src) (deltaPath name dst))
        asReq (fun _ => Errno.EIO)
          (Halts.renameTombstones x name src dst inh (m₂.resolved name dst).isSome) : Req Unit)
        { m₂ with disk := cleared m₂.disk (deltaPath name dst) } := by
  obtain ⟨b', hb', -⟩ := h.branch
  have hparent := h.parent hdst
  have hdirs : ioOrEio (Io.ensureParentDirs (deltaPath name dst)) m₂ = .ok () m₂ :=
    ioOrEio_ok (Sys.createDirAll_of_dir rfl hparent)
  have hclear : when ((m₂.resolved name dst).isSome = true) (clearDestination name dst) m₂ =
      .ok () { m₂ with disk := cleared m₂.disk (deltaPath name dst) } := by
    by_cases hexisted : (m₂.resolved name dst).isSome = true
    · rw [when_true hexisted]
      exact clearDestination_eq hparent hdst
    · rw [when_false hexisted]
      have hnothing : m₂.disk.kindAt (deltaPath name dst) = none := by
        by_contra hk
        obtain ⟨k, hk⟩ := Option.ne_none_iff_exists'.mp hk
        exact hexisted (h.existed_iff.mpr (by rw [view_of_delta hb' hk]; simp))
      unfold cleared
      rw [not_pathExists_of_free rfl hparent hnothing, if_neg (by simp)]
      rfl
  unfold Halts.moveDelta
  rw [bind_ok (failIf_ok hx _ _), bind_ok hdirs, readReq_bind, bind_ok hclear]

section Log

variable {c : Branch}

/-- Adding a tombstone fails in the log, with the tombstone in the set. -/
theorem addTombstone_fails (hb : m.forest.get? name = some c) (hp : p ∉ c.tombstones) :
    ∃ m', Halts.addTombstone true name p m = .error (.io Errno.EIO) m' ∧ m'.tombstoned name p = true := by
  have hno : m.tombstoned name p = false := by
    rw [← Bool.not_eq_true, tombstoned_iff hb]
    exact hp
  let m' : Manager := { m with forest := m.forest.modify name (Branch.addTombstone p) }
  refine ⟨m', ?_, ?_⟩
  · show failIf ((true && !m.tombstoned name p) = true) (BranchError.io Errno.EIO) m' = _
    exact failIf_error (by rw [hno]; rfl) _ _
  · have hb' : m'.forest.get? name = some (c.addTombstone p) :=
      Forest.get?_modify_self hb (Halts.addTombstone_name p c) (Halts.addTombstone_parent p c)
    rw [tombstoned_iff hb', Branch.mem_addTombstone]
    exact Or.inl rfl

/-- Removing a tombstone that is not there does not touch the log. -/
theorem removeTombstone_silent (fails : Bool) (hb : m.forest.get? name = some c) (hp : p ∉ c.tombstones) :
    ∃ m', Halts.removeTombstone fails name p m = .ok () m' ∧
      m'.forest.get? name = some (c.removeTombstone p) := by
  have hno : m.tombstoned name p = false := by
    rw [← Bool.not_eq_true, tombstoned_iff hb]
    exact hp
  let m' : Manager := { m with forest := m.forest.modify name (Branch.removeTombstone p) }
  refine ⟨m', ?_, Forest.get?_modify_self hb rfl rfl⟩
  show failIf ((fails && m.tombstoned name p) = true) (BranchError.io Errno.EIO) m' = _
  exact failIf_ok (by simp [hno]) _ _

/-- With nothing to hide and nothing to revive the tombstones stay, whatever the log does. -/
theorem renameTombstones_silent (hb : m.forest.get? name = some c) (hs : src ∉ c.tombstones)
    (hd : dst ∉ c.tombstones) (x : Option RenameCall) :
    ∃ m', Halts.renameTombstones x name src dst false false m = .ok () m' := by
  obtain ⟨m₁, hfirst, hb₁⟩ := removeTombstone_silent (decide (x = some .sourceLog)) hb hs
  have hd₁ : dst ∉ (c.removeTombstone src).tombstones := fun hmem =>
    hd (Branch.mem_removeTombstone.mp hmem).1
  obtain ⟨m₂, hlast, -⟩ := removeTombstone_silent (decide (x = some .targetRevived)) hb₁ hd₁
  refine ⟨m₂, ?_⟩
  unfold Halts.renameTombstones
  rw [bind_ok (getBranch_ok hb)]
  exact (bind_ok hfirst).trans hlast

/-- Something to hide at either name: the log fails once the set has changed. -/
theorem renameTombstones_fails {inh existed : Bool} (hb : m.forest.get? name = some c)
    (hs : src ∉ c.tombstones) (hd : dst ∉ c.tombstones) (hhide : inh = true ∨ existed = true) :
    ∃ x e m' t, x ≠ some .parents ∧ x ≠ some .move ∧ x.bind RenameCall.ofSource = none ∧
      x.bind RenameCall.ofTarget = none ∧
      Halts.renameTombstones x name src dst inh existed m = .error e m' ∧
      t ∉ c.tombstones ∧ m'.tombstoned name t = true := by
  cases inh with
  | true =>
    obtain ⟨m', hfails, hthere⟩ := addTombstone_fails hb hs
    refine ⟨some .sourceLog, .io Errno.EIO, m', src, by simp, by simp, rfl, rfl, ?_, hs, hthere⟩
    unfold Halts.renameTombstones
    rw [bind_ok (getBranch_ok hb)]
    exact bind_error hfails
  | false =>
    obtain rfl : existed = true := by simpa using hhide
    obtain ⟨m₁, hfirst, hb₁⟩ := removeTombstone_silent false hb hs
    have hd₁ : dst ∉ (c.removeTombstone src).tombstones := fun hmem =>
      hd (Branch.mem_removeTombstone.mp hmem).1
    obtain ⟨m', hfails, hthere⟩ := addTombstone_fails hb₁ hd₁
    have hhidden : when (true = true) (Halts.addTombstone (decide (some RenameCall.targetHidden =
        some .targetHidden)) name dst) m₁ = .error (.io Errno.EIO) m' := hfails
    refine ⟨some .targetHidden, .io Errno.EIO, m', dst, by simp, by simp, rfl, rfl, ?_, hd, hthere⟩
    unfold Halts.renameTombstones
    rw [bind_ok (getBranch_ok hb)]
    exact (bind_ok hfirst).trans (bind_error hhidden)

end Log

/-- The move of a request in which no copy-on-write fails cannot fail with a trace. -/
def MoveHarmless (m m₂ : Manager) (name : String) (src dst : RelPath) (inh : Bool) : Prop :=
  ∀ x e m', x.bind RenameCall.ofSource = none → x.bind RenameCall.ofTarget = none →
    Halts.moveDelta x name src dst inh (deltaPath name src) (deltaPath name dst) m₂ = .error e m' →
    Undisturbed m m' name

/-- **When the move cannot fail with a trace**, both names up. -/
theorem BothUp.harmless_iff (h : BothUp m m₂ name b src dst) (hkept : Kept m m₂ name b)
    (hsame : SameOn (fun r => r ≠ some (.files name)) m.disk m₂.disk) (hb : m.forest.get? name = some b)
    (hunseen : m.LayersUnseen name) (hsrc : src ≠ []) (hdst : dst ≠ []) (hs : src ∉ b.tombstones)
    (hd : dst ∉ b.tombstones) (inh : Bool) :
    MoveHarmless m m₂ name src dst inh ↔
      (m.LeadsOn name b src dst → m.Mirrored name b dst) ∧
        (m.CanMove name b src dst → inh = false ∧ m.view name dst = none) := by
  let mc : Manager := { m₂ with disk := cleared m₂.disk (deltaPath name dst) }
  obtain ⟨b₂, hb₂, hts⟩ := hkept.branch
  have hexisted : (m₂.resolved name dst).isSome = true ↔ m.view name dst ≠ none := by
    rw [h.existed_iff, (hkept.undisturbed_of hb hunseen).view]
  have hcleared : Undisturbed m mc name ↔ (m.LeadsOn name b src dst → m.Mirrored name b dst) := by
    rw [hkept.cleared_iff hb hunseen hdst, h.leadsOn_iff hsame]
  -- from the cleared state on
  have hmoved : ∀ {x d'}, x ≠ some .parents → x ≠ some .move →
      Posix.Sys.rename (deltaPath name src) (deltaPath name dst) mc.disk = .ok () d' →
      Halts.moveDelta x name src dst inh (deltaPath name src) (deltaPath name dst) m₂ =
        asReq (fun _ => Errno.EIO)
          (Halts.renameTombstones x name src dst inh (m₂.resolved name dst).isSome)
          { mc with disk := d' } := by
    intro x d' hx hx' hok
    rw [h.moveDelta_eq hdst inh hx, bind_ok (failIf_ok hx' _ _), bind_ok (ioOrEio_ok hok)]
  constructor
  · intro hharmless
    have hmirrored : m.LeadsOn name b src dst → m.Mirrored name b dst := by
      refine hcleared.mp (hharmless (some .move) Errno.EIO mc rfl rfl ?_)
      rw [h.moveDelta_eq hdst inh (by simp)]
      exact bind_error (failIf_error rfl _ _)
    refine ⟨hmirrored, fun hcan => ?_⟩
    obtain ⟨d', hok⟩ := (h.move_iff hsame hsrc hdst).mpr hcan
    by_contra hhide
    have hhides : inh = true ∨ (m₂.resolved name dst).isSome = true := by
      rw [hexisted]
      by_contra hno
      rw [not_or, not_not, Bool.not_eq_true] at hno
      exact hhide hno
    obtain ⟨x, e, m', t, hx, hx', hxs, hxt, hfails, ht, hthere⟩ :=
      renameTombstones_fails (m := { mc with disk := d' }) hb₂ (fun hmem => hs ((hts _).mp hmem))
        (fun hmem => hd ((hts _).mp hmem)) hhides
    have hundisturbed := hharmless x _ m' hxs hxt ((hmoved hx hx' hok).trans (asReq_error hfails))
    rw [hundisturbed.tombstones, tombstoned_iff hb] at hthere
    exact ht ((hts t).mpr hthere)
  · rintro ⟨hmirrored, hcan⟩ x e m' - - herr
    by_cases hx : x = some .parents
    · subst hx
      have hstop : Halts.moveDelta (some .parents) name src dst inh (deltaPath name src)
          (deltaPath name dst) m₂ = .error Errno.EIO m₂ := bind_error (failIf_error rfl _ _)
      cases hstop.symm.trans herr
      exact hkept.undisturbed_of hb hunseen
    rw [h.moveDelta_eq hdst inh hx] at herr
    by_cases hx' : x = some .move
    · rw [bind_error (failIf_error hx' _ _)] at herr
      injection herr with _ hm
      exact hm ▸ hcleared.mpr hmirrored
    rw [bind_ok (failIf_ok hx' _ _)] at herr
    cases hren : Posix.Sys.rename (deltaPath name src) (deltaPath name dst) mc.disk with
    | error e' d' =>
      rw [bind_error (ioOrEio_error (m := mc) hren), rename_error hren] at herr
      injection herr with _ hm
      exact hm ▸ hcleared.mpr hmirrored
    | ok u d' =>
      obtain ⟨hinh, hnone⟩ := hcan ((h.move_iff hsame hsrc hdst).mp ⟨d', hren⟩)
      have hgone : (m₂.resolved name dst).isSome = false := by
        rw [← Bool.not_eq_true, hexisted, not_not]
        exact hnone
      obtain ⟨m₄, hlast⟩ := renameTombstones_silent (m := { mc with disk := d' }) hb₂
        (fun hmem => hs ((hts _).mp hmem)) (fun hmem => hd ((hts _).mp hmem)) x
      rw [bind_ok (ioOrEio_ok (m := mc) hren), hinh, hgone] at herr
      cases (asReq_ok hlast).symm.trans herr

end Move

/-! ## Both copies and the move -/

section Names

variable {m m₁ m₂ m' : Manager} {name : String} {b b₁ : Branch} {sdir ddir dir p : RelPath} {sn dn n : String}
  {l l' : Place} {inh : Bool}

/-- The branch is as writable after copy-on-write as before. -/
theorem Placed.writable {a : Option (Attr String)} (h : Placed m m₁ name b p a)
    (hb : m.forest.get? name = some b) (hb₁ : m₁.forest.get? name = some b₁) :
    b₁.isWritable = b.isWritable := by
  obtain ⟨c, hc, hset, -⟩ := (h.forest.get? name).1 b hb
  obtain rfl := Option.some.inj (hc.symm.trans hb₁)
  unfold Branch.isWritable
  rw [hset.state]

/-- Whether the quota refuses the second copy is decided before the first. -/
theorem refusedNext_iff (hs : NameIn m name b sdir) (hd₁ : NameIn m₁ name b₁ ddir)
    (hok : ensureDeltaPathForWrite name (sdir ++ [sn]) m = .ok l m₁) :
    m₁.Refused name b₁ (ddir ++ [dn]) ↔ m.RefusedNext name b (sdir ++ [sn]) (ddir ++ [dn]) := by
  have hp := ensureDelta_placed hs hok
  unfold Manager.Refused Manager.RefusedNext Manager.refuses
  rw [hp.cow hs, ensure_quota hs hok,
    Manager.inheritedNode_of_unseen hs.unseen hp.forest hs.branch hd₁.branch hp.same hp.mounts]

/-- So is whether it has something to add. -/
theorem idleNext_iff (hs : NameIn m name b sdir) (hd₁ : NameIn m₁ name b₁ ddir)
    (his : m.Idle name b (sdir ++ [sn])) (hts : b₁.tombstones = b.tombstones.filter (· ≠ sdir ++ [sn]))
    (hok : ensureDeltaPathForWrite name (sdir ++ [sn]) m = .ok l m₁) :
    m₁.Idle name b₁ (ddir ++ [dn]) ↔ m.Idle name b (ddir ++ [dn]) := by
  have hp := ensureDelta_placed hs hok
  have hsame : b₁.tombstones = b.tombstones := hts.trans ((removeTombstone_idle b _).mpr his.1)
  have hdeleted : b₁.isDeleted (ddir ++ [dn]) = b.isDeleted (ddir ++ [dn]) := by
    unfold Branch.isDeleted
    rw [hsame]
  have hcopy : m₁.copyKind b₁ (ddir ++ [dn]) = m.copyKind b (ddir ++ [dn]) := by
    unfold Manager.copyKind
    rw [Manager.inheritedNode_of_unseen hs.unseen hp.forest hs.branch hd₁.branch hp.same hp.mounts]
  unfold Manager.Idle
  rw [hsame, hcopy, hdeleted, hp.cow hs]
  refine and_congr_right fun _ => ⟨fun h hk k hcopied => ?_, fun h hk => h (Option.or_eq_none_iff.mp hk).1⟩
  cases hcow : m.cowKind b (sdir ++ [sn]) (ddir ++ [dn]) with
  | none => exact h (by rw [hk, hcow]; rfl) k hcopied
  | some k' =>
    unfold Manager.cowKind at hcow
    by_cases heq : ddir ++ [dn] = sdir ++ [sn]
    · rw [heq] at hk hcopied ⊢
      exact his.2 hk k hcopied
    · rw [if_neg heq] at hcow
      split at hcow
      · next hle =>
        -- a directory is shown on the way to the source, so none comes up there
        have hdir := hs.overlay_way hle heq
        have hinherited : m.inheritedKind b (ddir ++ [dn]) = some .dir := by
          by_cases hcov : Covers (Whiteout b) (ddir ++ [dn])
          · rw [overlay_of_covered hk hcov] at hdir
            cases hdir
          · rwa [overlay_of_none hk hcov] at hdir
        rw [copyKind_of_dir hinherited] at hcopied
        cases hcopied
      · cases hcow

theorem ensureCow_of_ok {y : Option CowCall} (h : Halts.ensureCowForBranch y name p m = .ok l m₁) :
    ensureDeltaPathForWrite name p m = .ok l m₁ := by
  unfold Halts.ensureCowForBranch asReq at h
  cases hx : Halts.ensureDeltaPathForWrite y name p m with
  | error e m₂ =>
    rw [hx] at h
    cases h
  | ok l' m₂ =>
    rw [hx] at h
    injection h with hl hm
    subst hl hm
    exact Halts.ensureDeltaPathForWrite_of_ok hx

theorem ensureCow_error {y : Option CowCall} {e : Errno}
    (h : Halts.ensureCowForBranch y name p m = .error e m₁) :
    ∃ e', Halts.ensureDeltaPathForWrite y name p m = .error e' m₁ := by
  unfold Halts.ensureCowForBranch asReq at h
  cases hx : Halts.ensureDeltaPathForWrite y name p m with
  | ok l' m₂ =>
    rw [hx] at h
    cases h
  | error e' m₂ =>
    rw [hx] at h
    injection h with _ hm
    exact ⟨e', by rw [hm]⟩

theorem ensureCow_none (h : ensureDeltaPathForWrite name p m = .ok l m₁) :
    Halts.ensureCowForBranch none name p m = .ok l m₁ := by
  unfold Halts.ensureCowForBranch
  rw [Halts.ensureDeltaPathForWrite_none]
  exact asReq_ok h

/-- A call of a copy-on-write is none of the move. -/
theorem moveDelta_of_cow {x : RenameCall} (hx : x.ofSource ≠ none ∨ x.ofTarget ≠ none)
    (src dst : RelPath) (l l' : Place) :
    Halts.moveDelta (some x) name src dst inh l l' = Halts.moveDelta none name src dst inh l l' := by
  cases x with
  | source c => rfl
  | target c => rfl
  | _ => simp [RenameCall.ofSource, RenameCall.ofTarget] at hx

/-- A request whose first copy-on-write fails. -/
theorem moveNames_source {x : Option RenameCall} {e : BranchError} (src dst : RelPath) (inh : Bool)
    (h : Halts.ensureDeltaPathForWrite (x.bind RenameCall.ofSource) name src m = .error e m') :
    Halts.moveNames x name src dst inh m = .error Errno.EIO m' :=
  bind_error (asReq_error h)

/-- A request whose second copy-on-write fails. -/
theorem moveNames_target {x : Option RenameCall} {e : BranchError} {src dst : RelPath}
    (hfirst : Halts.ensureCowForBranch (x.bind RenameCall.ofSource) name src m = .ok l m₁)
    (h : Halts.ensureDeltaPathForWrite (x.bind RenameCall.ofTarget) name dst m₁ = .error e m') :
    Halts.moveNames x name src dst inh m = .error Errno.EIO m' :=
  (bind_ok hfirst).trans (bind_error (asReq_error h))

/-- Where a request stops: in either copy-on-write, or in the move. -/
theorem moveNames_error {x : Option RenameCall} {e : Errno} {src dst : RelPath}
    (hok₁ : ensureDeltaPathForWrite name src m = .ok (deltaPath name src) m₁)
    (h : Halts.moveNames x name src dst inh m = .error e m') :
    (∃ e', Halts.ensureDeltaPathForWrite (x.bind RenameCall.ofSource) name src m = .error e' m') ∨
      (∃ e', Halts.ensureDeltaPathForWrite (x.bind RenameCall.ofTarget) name dst m₁ = .error e' m') ∨
      ∃ l' m₂, ensureDeltaPathForWrite name dst m₁ = .ok l' m₂ ∧
        Halts.moveDelta x name src dst inh (deltaPath name src) l' m₂ = .error e m' := by
  unfold Halts.moveNames at h
  rcases bind_eq_error h with hsource | ⟨l, m₃, hsource, hrest⟩
  · exact Or.inl (ensureCow_error hsource)
  · obtain ⟨rfl, rfl⟩ : deltaPath name src = l ∧ m₁ = m₃ := by
      have heq := hok₁.symm.trans (ensureCow_of_ok hsource)
      injection heq with hl hm
      exact ⟨hl, hm⟩
    rcases bind_eq_error hrest with htarget | ⟨l', m₂, htarget, hmove⟩
    · exact Or.inr (Or.inl (ensureCow_error htarget))
    · exact Or.inr (Or.inr ⟨l', m₂, ensureCow_of_ok htarget, hmove⟩)

/-- **When both copies and the move cannot fail with a trace.** -/
theorem moveNames_harmless_iff (hs : NameIn m name b sdir) (hd : NameIn m name b ddir)
    (hw : b.isWritable = true) :
    (∀ x e m', Halts.moveNames x name (sdir ++ [sn]) (ddir ++ [dn]) inh m = .error e m' →
        Undisturbed m m' name) ↔
      m.Refused name b (sdir ++ [sn]) ∨ (m.Idle name b (sdir ++ [sn]) ∧
        (m.RefusedNext name b (sdir ++ [sn]) (ddir ++ [dn]) ∨ (m.Idle name b (ddir ++ [dn]) ∧
          (m.LeadsOn name b (sdir ++ [sn]) (ddir ++ [dn]) → m.Mirrored name b (ddir ++ [dn])) ∧
          (m.CanMove name b (sdir ++ [sn]) (ddir ++ [dn]) →
            inh = false ∧ m.view name (ddir ++ [dn]) = none)))) := by
  by_cases href : m.Refused name b (sdir ++ [sn])
  · refine iff_of_true (fun x e m' herr => ?_) (Or.inl href)
    obtain ⟨e', m₁, hfails, hkept⟩ := ensure_refused hs hw href (x.bind RenameCall.ofSource)
    cases (moveNames_source _ (ddir ++ [dn]) inh hfails).symm.trans herr
    exact hkept.undisturbed hs
  rw [or_iff_right href]
  by_cases his : m.Idle name b (sdir ++ [sn])
  swap
  · obtain ⟨y, e, m', hfails, hdisturbs⟩ := ensure_disturbs hs hw href his
    refine iff_of_false (fun hharmless => hdisturbs ?_) fun h => his h.1
    refine hharmless (y.map RenameCall.source) Errno.EIO m' (moveNames_source (e := e) _ _ _ ?_)
    cases y <;> exact hfails
  rw [and_iff_right his]
  -- the first name is up, and nothing is disturbed
  obtain ⟨m₁, hok₁⟩ := ensure_ok hs hw href
  have hp₁ := ensureDelta_placed hs hok₁
  obtain ⟨b₁, hd₁, hts₁⟩ := hs.after hok₁ hd.shown
  have hw₁ : b₁.isWritable = true := (hp₁.writable hs.branch hd₁.branch).trans hw
  have hundisturbed₁ : Undisturbed m m₁ name := (hp₁.kept hs his).undisturbed hs
  have hsource : ∀ {y e m'}, Halts.ensureDeltaPathForWrite y name (sdir ++ [sn]) m = .error e m' →
      Undisturbed m m' name := fun herr => (ensure_kept hs his herr).undisturbed hs
  by_cases hnext : m.RefusedNext name b (sdir ++ [sn]) (ddir ++ [dn])
  · refine iff_of_true (fun x e m' herr => ?_) (Or.inl hnext)
    have href₁ := (refusedNext_iff hs hd₁ hok₁).mpr hnext
    obtain ⟨e', m₂, hfails, hkept⟩ := ensure_refused hd₁ hw₁ href₁ (x.bind RenameCall.ofTarget)
    rcases moveNames_error hok₁ herr with ⟨e'', hfirst⟩ | ⟨e'', htarget⟩ | ⟨l', m₃, htarget, -⟩
    · exact hsource hfirst
    · cases hfails.symm.trans htarget
      exact hundisturbed₁.trans (hkept.undisturbed hd₁)
    · obtain ⟨e₀, m₀, hfails₀, -⟩ := ensure_refused hd₁ hw₁ href₁ none
      rw [Halts.ensureDeltaPathForWrite_none] at hfails₀
      cases hfails₀.symm.trans htarget
  have href₁ : ¬ m₁.Refused name b₁ (ddir ++ [dn]) := fun h => hnext ((refusedNext_iff hs hd₁ hok₁).mp h)
  rw [or_iff_right hnext]
  have hidle : m₁.Idle name b₁ (ddir ++ [dn]) ↔ m.Idle name b (ddir ++ [dn]) :=
    idleNext_iff hs hd₁ his hts₁ hok₁
  by_cases hid : m.Idle name b (ddir ++ [dn])
  swap
  · obtain ⟨y, e, m', hfails, hdisturbs⟩ := ensure_disturbs hd₁ hw₁ href₁ fun h => hid (hidle.mp h)
    refine iff_of_false (fun hharmless => hdisturbs (hundisturbed₁.iff_of.mp ?_)) fun h => hid h.1
    refine hharmless (y.map RenameCall.target) Errno.EIO m' ?_
    cases y
    · exact moveNames_target (ensureCow_none hok₁) hfails
    · exact moveNames_target (ensureCow_none hok₁) hfails
  rw [and_iff_right hid]
  -- both are up
  obtain ⟨m₂, hok₂⟩ := ensure_ok hd₁ hw₁ href₁
  have hup := bothUp hs hd hok₁ hok₂
  have hsame : SameOn (fun r => r ≠ some (.files name)) m.disk m₂.disk :=
    (ensure_same hs his hok₁).trans (ensure_same hd₁ (hidle.mpr hid) hok₂)
  rw [← hup.harmless_iff (hup.kept hs hd his hid) hsame hs.branch hs.unseen (by simp) (by simp) his.1 hid.1
    inh]
  constructor
  · intro hharmless x e m' hxs hxt herr
    refine hharmless x e m' ?_
    unfold Halts.moveNames
    rw [hxs, hxt, bind_ok (ensureCow_none hok₁), bind_ok (ensureCow_none hok₂)]
    exact herr
  · intro hharmless x e m' herr
    rcases moveNames_error hok₁ herr with ⟨e'', hfirst⟩ | ⟨e'', htarget⟩ | ⟨l', m₃, htarget, hmove⟩
    · exact hsource hfirst
    · exact hundisturbed₁.trans ((ensure_kept hd₁ (hidle.mpr hid) htarget).undisturbed hd₁)
    · cases hok₂.symm.trans htarget
      by_cases hx : x.bind RenameCall.ofSource = none ∧ x.bind RenameCall.ofTarget = none
      · exact hharmless x e m' hx.1 hx.2 hmove
      · cases x with
        | none => exact absurd ⟨rfl, rfl⟩ hx
        | some c =>
          rw [moveDelta_of_cow (by rw [← not_and_or]; exact hx)] at hmove
          exact hharmless none e m' rfl rfl hmove

end Names

/-! ## The request -/

section Body

variable {m m' : Manager} {name : String} {b : Branch} {sdir ddir dir : RelPath} {sn dn n : String}
  {noReplace : Bool}

theorem NameIn.resolved_iff (hin : NameIn m name b dir) :
    (m.resolved name (dir ++ [n])).isSome = true ↔ m.view name (dir ++ [n]) ≠ none := by
  have hkinds := Manager.kindOf_of_view_dir hin.shown
  rw [Manager.view_eq_kindOf fun a ha hne => hkinds a (prefix_of_mem_dir ha hne), Ne,
    Manager.kindOf_eq_none, Option.isSome_iff_ne_none]

/-- **When the body of `rename` cannot fail with a trace.** -/
theorem renamePath_harmless_iff (hs : NameIn m name b sdir) (hd : NameIn m name b ddir)
    (hw : b.isWritable = true) :
    (∀ x e m', Halts.renamePath x name (sdir ++ [sn]) (ddir ++ [dn]) noReplace m = .error e m' →
        Undisturbed m m' name) ↔
      m.RenameHarmless name b (sdir ++ [sn]) (ddir ++ [dn]) noReplace := by
  let srcThere : Bool := (m.resolved name (sdir ++ [sn])).isSome
  let dstThere : Bool := (m.resolved name (ddir ++ [dn])).isSome
  have hinherited : (m.forest.get? name).any (fun b => m.inheritedPathExists b (sdir ++ [sn])) =
      m.inheritedPathExists b (sdir ++ [sn]) := by
    rw [hs.branch]
    rfl
  have hrun : ∀ x, Halts.renamePath x name (sdir ++ [sn]) (ddir ++ [dn]) noReplace m =
      (do
        failIf (¬ srcThere = true) .ENOENT
        failIf ((noReplace && dstThere) = true) .EEXIST
        Halts.moveNames x name (sdir ++ [sn]) (ddir ++ [dn])
          (m.inheritedPathExists b (sdir ++ [sn])) : Req Unit) m := by
    intro x
    unfold Halts.renamePath
    rw [readReq_bind]
    by_cases hsrc : srcThere = true
    · rw [bind_ok (failIf_ok (not_not_intro hsrc) _ _), bind_ok (failIf_ok (not_not_intro hsrc) _ _),
        readReq_bind, readReq_bind, hinherited]
    · rw [bind_error (failIf_error hsrc _ _), bind_error (failIf_error hsrc _ _)]
  unfold Manager.RenameHarmless
  by_cases hsrc : m.view name (sdir ++ [sn]) = none
  · refine iff_of_true (fun x e m' herr => ?_) (Or.inl hsrc)
    have hno : ¬ srcThere = true := fun hthere => hs.resolved_iff.mp hthere hsrc
    rw [hrun, bind_error (failIf_error hno _ _)] at herr
    injection herr with _ hm
    exact hm ▸ Undisturbed.refl m name
  have hthere : srcThere = true := hs.resolved_iff.mpr hsrc
  rw [or_iff_right hsrc]
  by_cases hdst : noReplace = true ∧ m.view name (ddir ++ [dn]) ≠ none
  · refine iff_of_true (fun x e m' herr => ?_) (Or.inl hdst)
    have hexists : (noReplace && dstThere) = true := by
      rw [hdst.1, Bool.true_and]
      exact hd.resolved_iff.mpr hdst.2
    rw [hrun, bind_ok (failIf_ok (not_not_intro hthere) _ _), bind_error (failIf_error hexists _ _)] at herr
    injection herr with _ hm
    exact hm ▸ Undisturbed.refl m name
  have hfree : ¬ (noReplace && dstThere) = true := by
    rw [Bool.and_eq_true]
    exact fun hc => hdst ⟨hc.1, hd.resolved_iff.mp hc.2⟩
  rw [or_iff_right hdst, ← moveNames_harmless_iff hs hd hw]
  refine forall_congr' fun x => forall_congr' fun e => forall_congr' fun m' => ?_
  rw [hrun, bind_ok (failIf_ok (not_not_intro hthere) _ _), bind_ok (failIf_ok hfree _ _)]

end Body

section Request

variable {m m' : Manager} {name newname : String} {b : Branch} {sdir ddir : RelPath} {sn dn : String}
  {noReplace inh : Bool} {s s' : Mount} {parent newparent : Nat} {flags : RenameFlags}
  {paths : RenamePaths} {x : Option RenameCall}

/-- The mounts show the branches they showed, and the branch is there if it was. -/
def Stays (name : String) (m m' : Manager) : Prop :=
  SameBranchOf m m' ∧ m'.isBranchValid name = m.isBranchValid name

theorem stays_bind {ε α β : Type} {x : EStateM ε Manager α} {f : α → EStateM ε Manager β}
    (hx : Keeps (Stays name) x) (hf : ∀ a, Keeps (Stays name) (f a)) : Keeps (Stays name) (x >>= f) :=
  keeps_bind (fun _ _ _ h h' => ⟨Eq.trans h'.1 h.1, h'.2.trans h.2⟩) hx hf

theorem stays_refl (m : Manager) : Stays name m m := ⟨SameBranchOf.refl m, rfl⟩

theorem stays_ioOrEio {α : Type} (x : Io α) : Keeps (Stays name) (ioOrEio x) := by
  intro m
  refine ⟨mountOf_ioOrEio x m, ?_⟩
  unfold after ioOrEio asReq onDisk
  cases x m.disk <;> rfl

theorem stays_ignoring {α : Type} (x : Io α) : Keeps (Stays name) (ignoring x) :=
  stays_bind (keeps_attempt (stays_ioOrEio x)) fun _ => stays_refl

theorem stays_modifyBranch (f : Branch → Branch) : Keeps (Stays name) (modifyBranch name f) := by
  refine fun m => ⟨rfl, ?_⟩
  show ((m.forest.modify name f).get? name).isSome = (m.forest.get? name).isSome
  rw [Forest.get?_modify, Option.isSome_map]

theorem stays_renameTombstones (src dst : RelPath) (inh existed : Bool) :
    Keeps (Stays name) (Halts.renameTombstones x name src dst inh existed) := by
  have hadd : ∀ fails p, Keeps (Stays name) (Halts.addTombstone fails name p) := fun _ _ =>
    stays_bind stays_refl fun _ => stays_bind (stays_modifyBranch _) fun _ => keeps_failIf stays_refl _ _
  have hremove : ∀ fails p, Keeps (Stays name) (Halts.removeTombstone fails name p) := fun _ _ =>
    stays_bind stays_refl fun _ => stays_bind (stays_modifyBranch _) fun _ => keeps_failIf stays_refl _ _
  have hlast : Keeps (Stays name) (do
      when (existed = true) (Halts.addTombstone (decide (x = some .targetHidden)) name dst)
      Halts.removeTombstone (decide (x = some .targetRevived)) name dst) :=
    stays_bind (keeps_when stays_refl _ fun _ => hadd _ _) fun _ => hremove _ _
  refine stays_bind (fun m => (after_getBranch name m).symm ▸ stays_refl m) fun _ => ?_
  cases inh with
  | true => exact stays_bind (hadd _ _) fun _ => hlast
  | false => exact stays_bind (hremove _ _) fun _ => hlast

theorem stays_moveDelta (src dst : RelPath) (l l' : Place) :
    Keeps (Stays name) (Halts.moveDelta x name src dst inh l l') := by
  have hclear : Keeps (Stays name) (clearDestination name dst) := by
    refine stays_bind stays_refl fun there => stays_bind stays_refl fun isDir =>
      keeps_when stays_refl _ fun _ => ?_
    split <;> exact stays_ignoring _
  have htombstones : ∀ existed, Keeps (Stays name)
      (asReq (fun _ => Errno.EIO) (Halts.renameTombstones x name src dst inh existed)) := by
    intro existed m
    rw [after_asReq]
    exact stays_renameTombstones src dst inh existed m
  refine stays_bind (keeps_failIf stays_refl _ _) fun _ => ?_
  refine stays_bind (stays_ioOrEio _) fun _ => ?_
  refine stays_bind stays_refl fun existed => ?_
  refine stays_bind (keeps_when stays_refl _ fun _ => hclear) fun _ => ?_
  refine stays_bind (keeps_failIf stays_refl _ _) fun _ => ?_
  exact stays_bind (stays_ioOrEio _) fun _ => htombstones existed

theorem stays_ensureDelta {l : Place} (hin : NameIn m name b sdir)
    (hok : ensureDeltaPathForWrite name (sdir ++ [sn]) m = .ok l m') : Stays name m m' := by
  have hmounts := mountOf_ensureDelta .absent name (sdir ++ [sn])
  rw [Faulty.ensureDeltaPathForWrite_absent] at hmounts
  obtain ⟨b', hb', -⟩ := (ensureDelta_placed hin hok).branch
  refine ⟨hmounts.ok hok, ?_⟩
  unfold Manager.isBranchValid
  rw [hb', hin.branch]
  rfl

/-- The branch of a request is there when the body has gone through. -/
theorem stays_moveNames (hs : NameIn m name b sdir) (hd : NameIn m name b ddir)
    (hok : Halts.moveNames x name (sdir ++ [sn]) (ddir ++ [dn]) inh m = .ok () m') : Stays name m m' := by
  obtain ⟨l, m₁, hsource, hrest⟩ := bind_eq_ok hok
  obtain ⟨l', m₂, htarget, hmove⟩ := bind_eq_ok hrest
  obtain ⟨b₁, hd₁, -⟩ := hs.after (ensureCow_of_ok hsource) hd.shown
  have h₁ := stays_ensureDelta hs (ensureCow_of_ok hsource)
  have h₂ := stays_ensureDelta hd₁ (ensureCow_of_ok htarget)
  have h₃ : Stays name m₂ m' := (stays_moveDelta _ _ l l').ok hmove
  exact ⟨Eq.trans h₃.1 (Eq.trans h₂.1 h₁.1), h₃.2.trans (h₂.2.trans h₁.2)⟩

theorem reads_inodePath (ino : Nat) : Keeps Eq (inodePath ino) := by
  intro s
  unfold after inodePath
  cases s.inodes.getPath ino <;> rfl

theorem reads_needParent (path : RelPath) : Keeps Eq (needParent path) := by
  intro s
  unfold after needParent
  cases resolveParent path <;> rfl

theorem reads_needBranch (branch : String) : Keeps Eq (needBranch branch) := by
  intro s
  unfold after needBranch
  cases s.manager.isBranchValid branch <;> rfl

theorem reads_renameBranch (branch : Option String) : Keeps Eq (renameBranch branch) := by
  cases branch with
  | none => exact fun _ => rfl
  | some c =>
    have htrans : ∀ s t u : Mount, s = t → t = u → s = u := fun _ _ _ => Eq.trans
    exact keeps_bind htrans (reads_needBranch c) fun _ _ => rfl

theorem reads_denyUnlessWritable (branch : String) : Keeps Eq (onReq (denyUnlessWritable branch)) := by
  intro s
  unfold after onReq denyUnlessWritable
  cases s.manager.isBranchWritable branch <;> rfl

/-- What a rename names is looked up without changing anything. -/
theorem reads_renamePaths (parent : Nat) (name : String) (newparent : Nat) (newname : String) :
    Keeps Eq (renamePaths parent name newparent newname) := by
  have htrans : ∀ s t u : Mount, s = t → t = u → s = u := fun _ _ _ => Eq.trans
  refine keeps_bind htrans (reads_inodePath _) fun _ => keeps_bind htrans (reads_inodePath _) fun _ => ?_
  refine keeps_bind htrans (reads_needParent _) fun src => keeps_bind htrans (reads_needParent _) fun dst => ?_
  refine keeps_bind htrans (keeps_failIf (fun _ => rfl) _ _) fun _ => ?_
  refine keeps_bind htrans (reads_renameBranch _) fun branch => ?_
  exact keeps_bind htrans (reads_denyUnlessWritable _) fun _ => keeps_pure (fun _ => rfl) _

/-- What a rename names has been checked. -/
theorem renamePaths_ok (hpaths : renamePaths parent name newparent newname s = .ok paths s) :
    s.manager.isBranchWritable paths.branch = true ∧
      (paths.ofRoot = true → paths.branch = s.branchName) := by
  unfold renamePaths at hpaths
  obtain ⟨_, s₁, h₁, hrest⟩ := bind_eq_ok hpaths
  obtain ⟨_, s₂, h₂, hrest⟩ := bind_eq_ok hrest
  obtain ⟨src, s₃, h₃, hrest⟩ := bind_eq_ok hrest
  obtain ⟨dst, s₄, h₄, hrest⟩ := bind_eq_ok hrest
  obtain ⟨_, s₅, h₅, hrest⟩ := bind_eq_ok hrest
  obtain ⟨branch, s₆, h₆, hrest⟩ := bind_eq_ok hrest
  obtain ⟨_, s₇, h₇, hlast⟩ := bind_eq_ok hrest
  injection hlast with hvalue hs₇
  obtain rfl := hs₇
  obtain rfl := (reads_denyUnlessWritable branch).ok h₇
  obtain rfl := (reads_renameBranch _).ok h₆
  rw [← hvalue]
  constructor
  · by_contra hw
    rw [onReq, denyUnlessWritable, if_neg hw] at h₇
    cases h₇
  · intro hroot
    rw [Option.isNone_iff_eq_none.mp hroot] at h₆
    injection h₆ with hbranch _
    exact hbranch.symm

theorem stays_renamePath (hs : NameIn m name b sdir) (hd : NameIn m name b ddir)
    (hok : Halts.renamePath x name (sdir ++ [sn]) (ddir ++ [dn]) noReplace m = .ok () m') :
    Stays name m m' := by
  obtain ⟨_, m₁, hthere, hrest⟩ := bind_eq_ok hok
  cases hthere
  obtain ⟨_, m₂, hsource, hrest'⟩ := bind_eq_ok hrest
  obtain ⟨inh, m₃, hinherited, hrest''⟩ := bind_eq_ok hrest'
  cases hinherited
  obtain ⟨_, m₄, htarget, hlast⟩ := bind_eq_ok hrest''
  cases htarget
  obtain ⟨_, m₅, hexists, hmove⟩ := bind_eq_ok hlast
  obtain ⟨-, rfl⟩ := failIf_eq_ok hexists
  obtain ⟨-, rfl⟩ := failIf_eq_ok hsource
  exact stays_moveNames hs hd hmove

/-- A rename that is refused before the branch is asked leaves the mount as it is. -/
theorem rename_refused {e e' : Errno} {t : Mount}
    (hpaths : renamePaths parent name newparent newname s = .error e t)
    (h : Halts.rename x parent name newparent newname flags s = .error e' s') : s' = s := by
  rcases bind_eq_error h with hflags | ⟨_, s₁, hflags, hrest⟩
  · exact ((keeps_failIf (fun _ => rfl) _ _ : Keeps Eq _).error hflags).symm
  · obtain rfl := (keeps_failIf (fun _ => rfl) _ _ : Keeps Eq _).ok hflags
    rw [bind_error hpaths] at hrest
    injection hrest with _ hs
    rw [← hs]
    exact ((reads_renamePaths parent name newparent newname).error hpaths).symm

/-- **What a failed rename leaves of the mount**: what its body left when that failed. -/
theorem rename_error_iff (hpaths : renamePaths parent name newparent newname s = .ok paths s)
    (hs : NameIn s.manager paths.branch b paths.src.dropLast)
    (hd : NameIn s.manager paths.branch b paths.dst.dropLast) (hflags : flags.exchange = false) :
    (∀ x e s', Halts.rename x parent name newparent newname flags s = .error e s' →
        Undisturbed s.manager s'.manager paths.branch) ↔
      ∀ x e m', Halts.renamePath x paths.branch paths.src paths.dst flags.noReplace s.manager =
        .error e m' → Undisturbed s.manager m' paths.branch := by
  obtain ⟨hsrc, hdst⟩ := renamePaths_names hpaths
  obtain ⟨-, hroot⟩ := renamePaths_ok hpaths
  have hnoflags : failIf (flags.exchange = true) Errno.EINVAL s = .ok () s :=
    failIf_ok (by simp [hflags]) _ _
  constructor
  · intro hharmless x e m' herr
    refine hharmless x e { s with manager := m' } ?_
    unfold Halts.rename
    rw [bind_ok hnoflags, bind_ok hpaths]
    refine bind_error ?_
    unfold onReq
    rw [herr]
  · intro hharmless x e s' herr
    unfold Halts.rename at herr
    rw [bind_ok hnoflags, bind_ok hpaths] at herr
    rcases bind_eq_error herr with hbody | ⟨_, s₁, hbody, hrest⟩
    · unfold onReq at hbody
      cases hrun : Halts.renamePath x paths.branch paths.src paths.dst flags.noReplace s.manager with
      | ok u m' =>
        rw [hrun] at hbody
        cases hbody
      | error e' m' =>
        rw [hrun] at hbody
        injection hbody with _ hs'
        rw [← hs']
        exact hharmless x e' m' hrun
    -- the branch is there after the body, and the rest of the request cannot fail
    exfalso
    have hstays : Stays paths.branch s.manager s₁.manager ∧ s₁.mountpoint = s.mountpoint := by
      unfold onReq at hbody
      cases hrun : Halts.renamePath x paths.branch paths.src paths.dst flags.noReplace s.manager with
      | error e' m' =>
        rw [hrun] at hbody
        cases hbody
      | ok u m' =>
        rw [hrun] at hbody
        injection hbody with _ hs'
        rw [← hs']
        rw [hsrc, hdst] at hrun
        exact ⟨stays_renamePath hs hd hrun, rfl⟩
    rcases bind_eq_error hrest with hstale | ⟨_, s₂, -, hlast⟩
    · unfold when at hstale
      split at hstale
      · next hof =>
        have hlive : s₁.live = true := by
          have hname : s₁.branchName = paths.branch := by
            rw [hroot hof]
            unfold Mount.branchName
            rw [hstays.2, show s₁.manager.mountBranches = s.manager.mountBranches from hstays.1.1]
          unfold Mount.live
          rw [hname, hstays.1.2, Manager.isBranchValid, hs.branch]
          rfl
        obtain ⟨t, hok, -⟩ := failWhenStale_live hlive
        cases hok.symm.trans hstale
      · cases hstale
    · cases hlast

/-- **When a rename cannot fail with a trace**, whichever of its calls fails. -/
theorem rename_harmless_iff (hpaths : renamePaths parent name newparent newname s = .ok paths s)
    (hs : NameIn s.manager paths.branch b paths.src.dropLast)
    (hd : NameIn s.manager paths.branch b paths.dst.dropLast) :
    (∀ x e s', Halts.rename x parent name newparent newname flags s = .error e s' →
        Undisturbed s.manager s'.manager paths.branch) ↔
      flags.exchange = true ∨
        s.manager.RenameHarmless paths.branch b paths.src paths.dst flags.noReplace := by
  obtain ⟨hsrc, hdst⟩ := renamePaths_names hpaths
  obtain ⟨hwritable, -⟩ := renamePaths_ok hpaths
  have hw : b.isWritable = true := by
    rw [Manager.isBranchWritable, hs.branch] at hwritable
    exact hwritable
  by_cases hflags : flags.exchange = true
  · refine iff_of_true (fun x e s' herr => ?_) (Or.inl hflags)
    have hrefused : failIf (flags.exchange = true) Errno.EINVAL s = .error Errno.EINVAL s :=
      failIf_error hflags _ _
    unfold Halts.rename at herr
    rw [bind_error hrefused] at herr
    injection herr with _ hs'
    exact hs' ▸ Undisturbed.refl _ _
  · rw [or_iff_right hflags, rename_error_iff hpaths hs hd (by simpa using hflags), hsrc, hdst]
    exact renamePath_harmless_iff hs hd hw

end Request

/-- A rename that fails at any of its calls leaves what the branch shows, its tombstones and the files of its
delta as they were. -/
def FailedRenamesAreUndone : Prop :=
  ∀ s : Mount, s.Reachable → ∀ x parent name newparent newname flags paths e s',
    renamePaths parent name newparent newname s = .ok paths s →
    Halts.rename x parent name newparent newname flags s = .error e s' →
    Undisturbed s.manager s'.manager paths.branch

/-! ## An inherited directory, renamed over one of the branch -/

/-- A mount of `main` over a directory, with a directory of its own that holds a file. -/
def overOwnDir : Mount :=
  run Mount.step (Mount.new (Manager.init .bare) "/mnt" true)
    [.manager (.host (.mkdir ["d"])), .manager (.file "main" (.mkdir [] "e" 0o755)),
      .manager (.file "main" (.create ["e"] "x" 0o644))]

theorem overOwnDir_reachable : overOwnDir.Reachable := ⟨_, _, _, _, ⟨_, [], rfl⟩, rfl⟩

theorem overOwnDir_run :
    failureOf (rename rootIno "d" rootIno "e" ⟨false, false⟩) overOwnDir = some Errno.EIO ∧
      overOwnDir.manager.view "main" ["e", "x"] = some (.file []) ∧
      (after (rename rootIno "d" rootIno "e" ⟨false, false⟩) overOwnDir).manager.view "main" ["e"] = none ∧
      (after (rename rootIno "d" rootIno "e" ⟨false, false⟩) overOwnDir).manager.view "main" ["e", "x"] =
        none ∧
      overOwnDir.inodes.getPath rootIno = some [] ∧ overOwnDir.branchName = "main" ∧
      overOwnDir.manager.isBranchWritable "main" = true := by
  decide +kernel

/-- The rename is answered with an error, and the directory it should have replaced is gone. -/
theorem not_failedRenamesAreUndone : ¬ FailedRenamesAreUndone := by
  intro h
  obtain ⟨hfails, hbefore, -, hafter, hroot, hbranch, hwritable⟩ := overOwnDir_run
  rw [← Halts.rename_none] at hfails hafter
  have hundisturbed := h overOwnDir overOwnDir_reachable none rootIno "d" rootIno "e" ⟨false, false⟩ _ _ _
    (renamePaths_root hroot hbranch hwritable "d" "e") (error_of_failureOf hfails)
  have hshown := congrFun hundisturbed.view ["e", "x"]
  change (after (Halts.rename none rootIno "d" rootIno "e" ⟨false, false⟩) overOwnDir).manager.view "main"
    ["e", "x"] = overOwnDir.manager.view "main" ["e", "x"] at hshown
  rw [hafter, hbefore] at hshown
  cases hshown

/-- A mount of `main` over a base directory with a directory. -/
def baseDir : Mount :=
  run Mount.step (Mount.new (Manager.init .bare) "/mnt" true) [.manager (.host (.mkdir ["d"]))]

theorem baseDir_run :
    failureOf (Halts.rename none rootIno "d" rootIno "e" ⟨false, false⟩) baseDir = some Errno.EIO ∧
      baseDir.manager.forest.get? "main" = some (baseDir.manager.recordOf "main") ∧
      baseDir.manager.view "main" [] = some .dir ∧
      (baseDir.manager.recordOf "main").tombstones = [] ∧
      baseDir.manager.copyKind (baseDir.manager.recordOf "main") ["d"] = none ∧
      baseDir.manager.copyKind (baseDir.manager.recordOf "main") ["e"] = none ∧
      (∀ e ∈ baseDir.manager.disk.entries, ¬ Own "main" e.1.root) ∧
      (∀ e ∈ baseDir.manager.disk.entries, e.2.kind.isSymlink = false) ∧
      baseDir.inodes.getPath rootIno = some [] ∧ baseDir.branchName = "main" ∧
      baseDir.manager.isBranchWritable "main" = true := by
  decide +kernel

/-- The directory is not moved, and nothing else has happened. -/
theorem baseDir_undisturbed : Undisturbed baseDir.manager
    (after (Halts.rename none rootIno "d" rootIno "e" ⟨false, false⟩) baseDir).manager "main" := by
  obtain ⟨hfails, hb, hdir, hts, hd, he, hown, hlinks, hroot, hbranch, hwritable⟩ := baseDir_run
  have hin : NameIn baseDir.manager "main" (baseDir.manager.recordOf "main") [] :=
    nameIn_of_untouched hb hdir hown hlinks
  have hfree : ∀ p, p ≠ [] → deltaKind baseDir.manager.disk "main" p = none := fun p hp =>
    deltaKind_of_entries (by
      rw [List.all_eq_true]
      intro e he
      rw [bne_iff_ne]
      exact fun hr => hown e he (hr ▸ own_files "main")) hp
  have hidle : ∀ p, baseDir.manager.copyKind (baseDir.manager.recordOf "main") p = none →
      baseDir.manager.Idle "main" (baseDir.manager.recordOf "main") p := by
    intro p hp
    refine ⟨by simp [hts], fun _ k hk => ?_⟩
    rw [hp] at hk
    cases hk
  refine (rename_harmless_iff (renamePaths_root hroot hbranch hwritable "d" "e") hin hin).mpr
    (Or.inr ?_) none Errno.EIO _ (error_of_failureOf hfails)
  refine Or.inr (Or.inr (Or.inr ⟨hidle ["d"] hd, Or.inr ⟨hidle ["e"] he, fun _ r k hk => ?_, ?_⟩⟩))
  · rw [hfree _ (by simp)] at hk
    cases hk
  · rintro ⟨k, hk, -⟩
    have hnone : baseDir.manager.upKind "main" (baseDir.manager.recordOf "main") ["d"] ["e"] ["d"] = none := by
      unfold Manager.upKind Manager.cowKind
      rw [if_pos rfl, if_neg (by decide), if_neg (by decide), hfree _ (by simp), hd]
      rfl
    rw [hnone] at hk
    cases hk

end BranchFs
