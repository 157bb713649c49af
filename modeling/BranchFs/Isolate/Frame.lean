/-
# BranchFs.Isolate.Frame -- what an operation aimed at a branch leaves alone

An operation of one branch may write its delta and its two private directories (staged copies, kept
contents) and change its record; `Isolated` says that it does nothing else. Every system call it
makes goes through a path, so this holds as long as no link stands where the path leads: the guard
`S` is the set of these places, and every building block of `Model.Cow` is framed by it.
-/
import BranchFs.Posix.Guard
import BranchFs.Cow.Ensure

namespace BranchFs

open BranchFs.Posix BranchFs.Logic

/-- Nothing but the record and the trees of `name` changes. -/
structure Isolated (name : String) (m m' : Manager) : Prop where
  forest : m.forest.SameBut name m'.forest
  same : SameOn (fun r => ¬ Own name r) m.disk m'.disk

namespace Isolated

variable {name : String} {m m' m'' : Manager}

theorem refl (name : String) (m : Manager) : Isolated name m m :=
  ⟨Forest.SameBut.refl name m.forest, SameOn.refl _ _⟩

theorem trans (h : Isolated name m m') (h' : Isolated name m' m'') : Isolated name m m'' :=
  ⟨h.forest.trans h'.forest, h.same.trans h'.same⟩

end Isolated

/-- The places of the private directories. -/
def privatePlaces (name : String) : Set Place :=
  { l | l.root = some (.staging name) ∨ l.root = some (.touchContent name) }

/-- The disk of a state meets a guard. -/
abbrev Clear (S : Set Place) (m : Manager) : Prop := Guard S m.disk

variable {name : String} {S S' : Set Place} {α : Type} {p : RelPath}

theorem own_staging (name : String) : Own name (some (.staging name)) := Or.inr (Or.inl rfl)

/-! ## Steps that touch one part of the state -/

theorem framed_onDisk {x : Io α} (h : Framed (Inside (Own name)) (Guard S) (Guard S') x) :
    Framed (Isolated name) (Clear S) (Clear S') (onDisk x) := by
  intro m hm
  obtain ⟨hsame, hS'⟩ := h m.disk hm
  have hrun : after (onDisk x) m = { m with disk := after x m.disk } := by
    unfold after onDisk
    cases hx : x m.disk <;> rfl
  rw [hrun]
  exact ⟨⟨Forest.SameBut.refl name m.forest, hsame⟩, hS'⟩

theorem framed_modify {f : Branch → Branch} (hf : ∀ b, SameSettings b (f b)) :
    Framed (Isolated name) (Clear S) (Clear S) (modifyBranch name f) := by
  intro m hm
  exact ⟨⟨Forest.SameBut.of_modify hf, SameOn.refl _ _⟩, hm⟩

/-- The quota and the epoch are neither. -/
theorem framed_aside {x : Mgr α} (hd : ∀ m, (after x m).disk = m.disk)
    (hf : ∀ m, (after x m).forest = m.forest) : Framed (Isolated name) (Clear S) (Clear S) x := by
  intro m hm
  refine ⟨⟨?_, ?_⟩, ?_⟩
  · rw [hf m]
    exact Forest.SameBut.refl name m.forest
  · rw [hd m]
    exact SameOn.refl _ _
  · show Guard S (after x m).disk
    rw [hd m]
    exact hm

theorem framed_quotaCheck (n : UInt64) :
    Framed (Isolated name) (Clear S) (Clear S) (quotaCheck n) := by
  refine framed_read (Isolated.refl name) fun m => ?_
  unfold after quotaCheck
  cases m.quota.check n <;> rfl

theorem framed_quotaAdd (n : UInt64) : Framed (Isolated name) (Clear S) (Clear S) (quotaAdd n) :=
  framed_aside (fun _ => rfl) fun _ => rfl

theorem framed_quotaSub (n : UInt64) : Framed (Isolated name) (Clear S) (Clear S) (quotaSub n) :=
  framed_aside (fun _ => rfl) fun _ => rfl

theorem framed_readDisk {P : Manager → Prop} (f : Tree → α) :
    Framed (Isolated name) P P (readDisk f) := framed_read (Isolated.refl name) fun _ => rfl

theorem after_getBranch (n : String) (m : Manager) : after (getBranch n) m = m := by
  unfold after getBranch
  cases m.forest.get? n <;> rfl

theorem after_writableBranch (n : String) (m : Manager) : after (writableBranch n) m = m := by
  unfold after writableBranch
  cases m.forest.get? n with
  | none => rfl
  | some b =>
    simp only
    cases b.isWritable <;> rfl

theorem after_inheritedForTouch (n : String) (p : RelPath) (m : Manager) :
    after (inheritedForTouch n p) m = m := by
  unfold after inheritedForTouch
  cases m.forest.get? n <;> rfl

/-- One program after another, the invariant `P` in between. -/
theorem after_checkEmptyDir (n : String) (q : RelPath) (m : Manager) :
    after (checkEmptyDir n q) m = m := by
  unfold checkEmptyDir
  cases hr : m.resolved n q with
  | none => simp only [after, hr]
  | some l =>
    cases hl : m.disk.lstat l with
    | error e => simp only [after, hr, hl]
    | ok node =>
      cases hk : node.kind.isDir <;> cases hc : (m.collected n q).isEmpty <;>
        simp [after, hr, hl, hk, hc]

theorem framed_seq {P Q U : Manager → Prop} {ε β : Type} {x : EStateM ε Manager α}
    {f : α → EStateM ε Manager β} (hx : Framed (Isolated name) P Q x)
    (hf : ∀ a, Framed (Isolated name) Q U (f a)) (hU : ∀ m, Q m → U m) :
    Framed (Isolated name) P U (x >>= f) :=
  framed_bind (R := Isolated name) (fun _ _ _ h h' => h.trans h') hx (fun a _ _ _ _ => hf a) hU

/-! ## Calls on one entry -/

section Entry

variable {W : Option Root → Prop} {l : Place} {r : Root} (hr : l.root = some r) (hW : W l.root)
  (hway : WayIn S l)

include hr hW hway

theorem framed_ensureParentDirs :
    Framed (Inside W) (Guard S) (Guard S) (Io.ensureParentDirs l) :=
  Posix.Sys.framed_createDirAll_parent hr hW hway

/-- The copy of a link is a link, so the guard loses its place; a file leaves the guard standing. -/
theorem framed_copyNode {src : Place} {n : Node String} (hin : l ∈ S)
    (hsub : S' ⊆ S) (hlink : l ∈ S' → n.kind.isSymlink = false) :
    Framed (Inside W) (Guard S) (Guard S') (Io.copyNode src l n) := by
  have hcopy : Framed (Inside W) (Guard S) (Guard S') (Posix.Sys.copyFile src l) :=
    (Posix.Sys.framed_copyFile src hr hW hway hin).mono (fun _ h => h) fun _ h => h.mono hsub
  unfold Io.copyNode
  cases hk : n.kind with
  | symlink t =>
    have hout : l ∉ S' := by
      intro h
      have := hlink h
      rw [hk] at this
      cases this
    refine framed_bind (R := Inside W) (fun _ _ _ h h' => h.trans h')
      (framed_attempt (Posix.Sys.framed_removeFile hr hW hway)) ?_ fun _ h => h.mono hsub
    intro _ _ _ _ _
    exact Posix.Sys.framed_symlink hr hW hway fun x hx => ⟨hsub hx, fun heq => hout (heq ▸ hx)⟩
  | file b => exact hcopy
  | dir => exact hcopy

omit hr hW hway in
theorem after_symlinkMetadata (src : Place) (d : Tree) : after (Io.symlinkMetadata src) d = d := by
  unfold after Io.symlinkMetadata
  cases d.lstat src <;> rfl

theorem framed_copyEntry {src : Place} (hin : l ∈ S) (hsub : S' ⊆ S)
    (hsrc : l ∈ S' → (∃ r, src.root = some r) ∧ ∀ a, a ≤ src → a ∈ S) :
    Framed (Inside W) (Guard S) (Guard S') (Io.copyEntry src l) := by
  refine framed_bind (R := Inside W) (fun _ _ _ h h' => h.trans h')
    (framed_ensureParentDirs hr hW hway) ?_ fun _ h => h.mono hsub
  intro _ _ _ _ _
  refine framed_bind (R := Inside W) (fun _ _ _ h h' => h.trans h')
    (framed_read (fun d => SameOn.refl _ d) (after_symlinkMetadata src)) ?_ fun _ h => h.mono hsub
  intro n d d' hd hn
  refine framed_copyNode hr hW hway hin hsub fun hlinked => ?_
  -- the entry that was read is the one the guard speaks of
  obtain ⟨⟨r', hr'⟩, hall⟩ := hsrc hlinked
  have hstat : d.lstat src = .ok n := by
    unfold Io.symlinkMetadata at hn
    cases hl : d.lstat src with
    | ok k => simp_all
    | error e => simp_all
  have hget := Disk.lstat_toOption hr' (Guard.noLinkAbove hd fun a ha _ => hall a ha)
  rw [hstat] at hget
  have hlink := hd src (hall src (le_refl _))
  unfold Disk.linkAt at hlink
  rw [Disk.kindAt_of_get hget.symm] at hlink
  simpa using hlink

theorem framed_removeEntry :
    Framed (Inside W) (Guard S) (Guard S) (Io.removeEntry l) := by
  intro d hd
  have hstay : Inside W d d ∧ Guard S d := ⟨SameOn.refl _ d, hd⟩
  unfold after Io.removeEntry
  cases d.lstat l with
  | ok n =>
    simp only
    by_cases hk : n.kind.isDir = true
    · rw [if_pos hk]
      exact Posix.Sys.framed_removeDirAll hr hW hway d hd
    · rw [if_neg hk]
      exact Posix.Sys.framed_removeFile hr hW hway d hd
  | error e => cases e <;> exact hstay

end Entry

/-! ## First touches -/

/-- Contents are kept below the touch-content directory, where no link may stand. -/
theorem framed_keepBaseContent (hpriv : privatePlaces name ⊆ S) (p : RelPath) (t : Option Bytes) :
    Framed (Isolated name) (Clear S) (Clear S) (keepBaseContent name p t) := by
  have hmem : ∀ l : Place, l.root = some (.touchContent name) → l ∈ S := fun l hl =>
    hpriv (Or.inr hl)
  cases t with
  | none => exact framed_pure (Isolated.refl name) (fun _ h => h) _
  | some bytes =>
    have hway : WayIn S (touchContentPath name (touchContentKey p)) := fun a ha _ =>
      hmem a (Loc.root_eq_of_le ha)
    refine framed_seq (framed_onDisk ?_) (fun _ => framed_seq (framed_onDisk ?_) (fun _ =>
      framed_pure (Isolated.refl name) (fun _ h => h) _) fun _ h => h) fun _ h => h
    · exact Posix.Sys.framed_createDirAll_parent rfl (own_touchContent name) hway
    · exact Posix.Sys.framed_writeFile rfl (own_touchContent name) hway (hmem _ rfl)

theorem after_readFile (l : Place) (d : Tree) : after (Posix.Sys.readFile l) d = d := by
  unfold after Posix.Sys.readFile
  cases d.stat l with
  | error e => rfl
  | ok n => cases hk : n.kind <;> simp only [hk]

theorem after_readBoundedText (l : Place) (d : Tree) : after (readBoundedText l) d = d := by
  have hread := after_readFile l d
  unfold readBoundedText
  cases hl : d.lstat l with
  | error e => cases e <;> simp only [after, hl]
  | ok n =>
    by_cases hc : (!n.kind.isFile || decide (maxTextMergeBytes < (metaLen n).toNat)) = true
    · simp only [after, hl, hc, if_true]
    · cases hr : Posix.Sys.readFile l d with
      | ok bytes d' =>
        rw [after_ok hr] at hread
        simp only [after, hl, hc, if_false, hr, hread, Bool.false_eq_true]
      | error e d' =>
        rw [after_error hr] at hread
        simp only [after, hl, hc, if_false, hr, hread, Bool.false_eq_true]

theorem after_onDisk_of {α : Type} {x : Io α} (h : ∀ d, after x d = d) (m : Manager) :
    after (onDisk x) m = m := by
  have hd := h m.disk
  unfold after onDisk at *
  cases hx : x m.disk with
  | ok a d =>
    rw [hx] at hd
    exact congrArg (fun d : Tree => { m with disk := d }) hd
  | error e d =>
    rw [hx] at hd
    exact congrArg (fun d : Tree => { m with disk := d }) hd

theorem framed_captureBaseContent (hpriv : privatePlaces name ⊆ S) (p : RelPath)
    (inherited : Option Place) :
    Framed (Isolated name) (Clear S) (Clear S) (captureBaseContent name p inherited) := by
  cases inherited with
  | none => exact framed_pure (Isolated.refl name) (fun _ h => h) _
  | some src =>
    refine framed_seq (framed_onDisk ?_) (fun t => framed_keepBaseContent hpriv p t) fun _ h => h
    exact framed_read (fun d => SameOn.refl _ d) (after_readBoundedText src)

/-- The contents are kept only where the caller asks for them. -/
theorem framed_recordFirstTouch {capture : Bool}
    (hpriv : capture = true → privatePlaces name ⊆ S) (p : RelPath) (inherited : Option Place) :
    Framed (Isolated name) (Clear S) (Clear S) (recordFirstTouch name p inherited capture) := by
  refine framed_seq (framed_read (Isolated.refl name) (after_getBranch name)) (fun b => ?_)
    fun _ h => h
  by_cases hr : (b.getTouchRecord p).isSome = true
  · rw [if_pos hr]
    exact framed_pure (Isolated.refl name) (fun _ h => h) _
  · rw [if_neg hr]
    refine framed_seq (framed_readDisk _) (fun id => ?_) fun _ h => h
    have hkey : Framed (Isolated name) (Clear S) (Clear S) (contentKey name p inherited capture) := by
      unfold contentKey
      cases capture with
      | true => exact framed_captureBaseContent (hpriv rfl) p inherited
      | false => exact framed_pure (Isolated.refl name) (fun _ h => h) _
    refine framed_seq hkey (fun key => framed_modify fun b => ?_) fun _ h => h
    exact ⟨rfl, rfl, rfl, rfl, rfl, rfl, rfl⟩

theorem framed_removeTombstone (p : RelPath) :
    Framed (Isolated name) (Clear S) (Clear S) (modifyBranch name (Branch.removeTombstone p)) :=
  framed_modify fun _ => ⟨rfl, rfl, rfl, rfl, rfl, rfl, rfl⟩

theorem sameSettings_addTombstone (p : RelPath) (b : Branch) :
    SameSettings b (b.addTombstone p) := by
  unfold Branch.addTombstone
  split
  · exact SameSettings.refl b
  · exact ⟨rfl, rfl, rfl, rfl, rfl, rfl, rfl⟩

/-! ## Copy-on-write -/

/-- What copy-on-write of `p` needs of the guard: where it speaks of the delta path itself, no link
is there yet and none can be brought up. -/
structure CowReady (S : Set Place) (name : String) (p : RelPath) (m : Manager) : Prop where
  clear : Guard S m.disk
  plain : deltaPath name p ∈ S → m.disk.lexists (deltaPath name p) = false →
    ∀ b, m.forest.get? name = some b → ∀ src, m.inheritedForTouch b p = some src →
      ∀ a, a ≤ src → a ∈ S

theorem root_of_inheritedForTouch {m : Manager} {b : Branch} (hb : m.forest.get? name = some b)
    {src : Place} (h : m.inheritedForTouch b p = some src) : ∃ r, src.root = some r := by
  unfold Manager.inheritedForTouch at h
  split at h
  · cases h
  · obtain ⟨r, -, hr⟩ := Manager.mem_layers_of_inherited hb h
    exact ⟨r, by rw [hr]⟩

section Cow

variable (hway : WayIn S (deltaPath name p)) (hpriv : privatePlaces name ⊆ S)

include hway

theorem framed_copyUpNode {src : Place} {n : Node String} (hin : deltaPath name p ∈ S)
    (hsub : S' ⊆ S)
    (hsrc : deltaPath name p ∈ S' → (∃ r, src.root = some r) ∧ ∀ a, a ≤ src → a ∈ S) :
    Framed (Isolated name) (Clear S) (Clear S') (copyUpNode src (deltaPath name p) n) := by
  refine framed_seq (framed_quotaCheck _) (fun _ => ?_) fun _ h => h.mono hsub
  refine framed_seq (framed_onDisk (framed_copyEntry rfl (own_files name) hway hin hsub hsrc))
    (fun _ => ?_) fun _ h => h
  exact framed_quotaAdd _

theorem framed_copyUpInherited (inherited : Option Place) (hin : deltaPath name p ∈ S)
    (hsub : S' ⊆ S) (hsrc : deltaPath name p ∈ S' → ∀ src, inherited = some src →
      (∃ r, src.root = some r) ∧ ∀ a, a ≤ src → a ∈ S) :
    Framed (Isolated name) (Clear S) (Clear S') (copyUpInherited (deltaPath name p) inherited) := by
  have hidle : Framed (Isolated name) (Clear S) (Clear S') (pure () : Mgr Unit) :=
    framed_pure (Isolated.refl name) (fun _ h => h.mono hsub) _
  cases inherited with
  | none => exact hidle
  | some src =>
    refine framed_seq (framed_readDisk _) (fun found => ?_) fun _ h => h.mono hsub
    cases found with
    | error e => exact hidle
    | ok n =>
      show Framed (Isolated name) (Clear S) (Clear S')
        (if n.kind.isDir then pure () else copyUpNode src (deltaPath name p) n)
      by_cases hk : n.kind.isDir = true
      · rw [if_pos hk]
        exact hidle
      · rw [if_neg hk]
        exact framed_copyUpNode hway hin hsub fun h => hsrc h src rfl

include hpriv

/-- The first touch of a path without a delta: while the copy is made the guard can speak of the
delta path too, since nothing is there. -/
theorem framed_touchAndCopyUp :
    Framed (Isolated name)
      (fun m => CowReady S name p m ∧ m.disk.lexists (deltaPath name p) = false) (Clear S)
      (touchAndCopyUp name p) := by
  let T : Set Place := insert (deltaPath name p) S
  have hsub : S ⊆ T := Set.subset_insert _ _
  have hwayT : WayIn T (deltaPath name p) := hway.mono hsub
  refine framed_at fun m ⟨hready, hfree⟩ => ?_
  have hnone : m.disk.kindAt (deltaPath name p) = none := by
    have hex := Disk.lexists_eq (d := m.disk) (l := deltaPath name p) rfl
      (hready.clear.noLinkAbove hway)
    rw [hfree] at hex
    simpa using hex.symm
  have hT : Clear T m := hready.clear.insert (Disk.linkAt_of_none hnone)
  refine framed_look (Isolated.refl name) (after_inheritedForTouch name p m) ?_ hready.clear
  intro inherited hread
  refine (framed_seq (framed_recordFirstTouch (fun _ => hpriv.trans hsub) p inherited)
    (fun _ => framed_copyUpInherited hwayT inherited (Set.mem_insert _ _) hsub ?_)
    fun _ h => h.mono hsub).mono (fun s hs => hs ▸ hT) fun _ h => h
  rintro hmem src rfl
  -- what is brought up is what the state before the touch inherits
  unfold inheritedForTouch at hread
  cases hb : m.forest.get? name with
  | none => simp [hb] at hread
  | some b =>
    simp only [hb, EStateM.Result.ok.injEq, and_true] at hread
    refine ⟨root_of_inheritedForTouch hb hread, fun a ha => hsub ?_⟩
    exact hready.plain hmem hfree b hb src hread a ha

/-- The touch of copy-on-write, made only where there is no delta. -/
theorem framed_cowTouch {m : Manager} (hready : CowReady S name p m) :
    Framed (Isolated name) (fun s => s = m) (Clear S)
      (when (¬ (m.disk.lexists (deltaPath name p) : Prop)) (touchAndCopyUp name p)) := by
  cases hval : m.disk.lexists (deltaPath name p) with
  | true =>
    rw [when_false (by simp)]
    exact framed_pure (Isolated.refl name) (fun s hs => hs ▸ hready.clear) _
  | false =>
    rw [when_true (by simp)]
    exact (framed_touchAndCopyUp hway hpriv).mono (fun s hs => hs ▸ ⟨hready, hval⟩) fun _ h => h

/-- **Copy-on-write is isolated** where no link stands on the way to the delta path. -/
theorem framed_ensureDeltaPathForWrite :
    Framed (Isolated name) (CowReady S name p) (Clear S) (ensureDeltaPathForWrite name p) := by
  refine framed_at fun m hready => ?_
  refine framed_look (Isolated.refl name) (after_writableBranch name m) ?_ hready.clear
  intro _ _
  refine framed_look (Isolated.refl name) rfl ?_ hready.clear
  rintro there hthere
  have hval : m.disk.lexists (deltaPath name p) = there := by
    simpa [readDisk] using hthere
  subst hval
  refine framed_seq (framed_cowTouch hway hpriv hready) (fun _ => ?_) fun _ h => h
  refine framed_seq (framed_removeTombstone p) (fun _ => ?_) fun _ h => h
  exact framed_seq (framed_onDisk (framed_ensureParentDirs rfl (own_files name) hway))
    (fun _ => framed_pure (Isolated.refl name) (fun _ h => h) _) fun _ h => h

/-- A successful copy-on-write answers the delta path, with directories on the way to it. -/
theorem ensureDeltaPathForWrite_spec {m m' : Manager} {l : Place} (hready : CowReady S name p m)
    (h : ensureDeltaPathForWrite name p m = .ok l m') :
    l = deltaPath name p ∧
      ∀ a, a ≤ deltaPath name p → a ≠ deltaPath name p → m'.disk.kindAt a = some .dir := by
  unfold ensureDeltaPathForWrite at h
  obtain ⟨b, m₁, hw, hrest⟩ := bind_eq_ok h
  obtain rfl : m₁ = m := by
    rw [← after_writableBranch name m, after_ok hw]
  obtain ⟨there, m₂, hthere, hrest⟩ := bind_eq_ok hrest
  cases hthere
  obtain ⟨_, m₂, htouch, h⟩ := bind_eq_ok hrest
  have hclear : Clear S m₂ := by
    have := (framed_cowTouch hway hpriv hready m₁ rfl).2
    rwa [after_ok htouch] at this
  obtain ⟨_, m₃, hmod, h⟩ := bind_eq_ok h
  cases hmod
  obtain ⟨_, m₄, hdirs, h⟩ := bind_eq_ok h
  cases h
  refine ⟨rfl, fun a ha hne => ?_⟩
  have hpath : (deltaPath name p).path ≠ [] := by
    intro hnil
    have hlen := ha.2.length_le
    rw [hnil, List.length_nil, Nat.le_zero, List.length_eq_zero_iff] at hlen
    exact hne (Loc.ext' ha.1 (by rw [hlen, hnil]))
  have hdir : m'.disk.kindAt (deltaPath name p).parent = some .dir := by
    unfold onDisk at hdirs
    cases hx : Io.ensureParentDirs (deltaPath name p) m₂.disk with
    | error e d => simp [hx] at hdirs
    | ok u d =>
      simp only [hx, EStateM.Result.ok.injEq, true_and] at hdirs
      rw [← hdirs]
      exact Posix.Sys.kindAt_of_createDirAll (r := .files name) rfl
        (hclear.noLinkAbove hway.parent) (hclear _ (hway.parent_mem hpath)) hx
  have hle := Loc.le_parent_of_lt ha hne
  by_cases heq : a = (deltaPath name p).parent
  · rw [heq, hdir]
  · exact Disk.dir_above (by simp [hdir]) hle heq

end Cow

/-! ## Deletion and revert -/

/-- The directories pruned lie on the way to the path. -/
theorem framed_prune : ∀ (levels : Nat) (q : RelPath), (∀ a, a <+: q → deltaPath name a ∈ S) →
    Framed (Isolated name) (Clear S) (Clear S) (pruneEmptyDeltaParents name levels q) := by
  intro levels
  induction levels with
  | zero => exact fun q _ => framed_pure (Isolated.refl name) (fun _ h => h) _
  | succ levels ih =>
    intro q hq
    refine framed_seq (framed_read (Isolated.refl name) (after_getBranch name)) (fun b => ?_)
      fun _ h => h
    have hidle : Framed (Isolated name) (Clear S) (Clear S) (pure () : Mgr Unit) :=
      framed_pure (Isolated.refl name) (fun _ h => h) _
    by_cases hstop : (q.isEmpty || (b.getTouchRecord q).isSome) = true
    · rw [if_pos hstop]
      exact hidle
    · rw [if_neg hstop]
      have hway : WayIn S (deltaPath name q) := by
        rintro ⟨r, a⟩ ⟨hr, ha⟩ _
        have hr' : r = some (.files name) := hr
        subst hr'
        exact hq a ha
      refine framed_seq (framed_attempt (framed_onDisk
        (Posix.Sys.framed_removeDir rfl (own_files name) hway))) (fun r => ?_) fun _ h => h
      cases r with
      | error e => exact hidle
      | ok u => exact ih q.dropLast fun a ha => hq a (ha.trans (List.dropLast_prefix q))

/-- Kept contents stand at the top of their directory, with nothing on the way but its root. -/
theorem framed_removeTouchContent (key : String) :
    Framed (Inside (Own name)) (Guard S) (Guard S)
      (Posix.Sys.removeFile (touchContentPath name key)) :=
  Posix.Sys.framed_of_cut (own_touchContent name) fun d _ => by
    have hroot : d.kindAt (touchContentPath name key).parent = some .dir := Disk.kindAt_root d rfl
    rcases Posix.Sys.after_removeFile (r := .touchContent name) rfl
      (Disk.noLinkAbove_of_dir hroot) with h | ⟨hne, -, h⟩
    · exact Or.inl h
    · exact Or.inr ⟨hne, h⟩

theorem framed_removeTouchRecordsUnder (q : RelPath) :
    Framed (Isolated name) (Clear S) (Clear S) (removeTouchRecordsUnder name q) := by
  refine framed_seq (framed_read (Isolated.refl name) (after_getBranch name)) (fun b => ?_)
    fun _ h => h
  refine framed_seq (framed_modify fun _ => ⟨rfl, rfl, rfl, rfl, rfl, rfl, rfl⟩) (fun _ => ?_)
    fun _ h => h
  refine framed_forM (Isolated.refl name) (fun _ _ _ h h' => h.trans h') _ fun record _ => ?_
  cases record.baseContentKey with
  | none => exact framed_pure (Isolated.refl name) (fun _ h => h) _
  | some key =>
    intro m hm
    -- a record whose contents are gone is passed over, with the disk as the call left it
    have hcut : Framed (Isolated name) (Clear S) (Clear S)
        (onDisk (Posix.Sys.removeFile (touchContentPath name key))) :=
      framed_onDisk (framed_removeTouchContent key)
    obtain ⟨h, hS⟩ := hcut m hm
    unfold after onDisk at h hS
    unfold after
    cases hr : Posix.Sys.removeFile (touchContentPath name key) m.disk with
    | ok u d => simpa [hr] using And.intro h hS
    | error e d => cases e <;> simpa [hr] using And.intro h hS

section Remove

variable (hway : WayIn S (deltaPath name p))

include hway

theorem framed_removeDelta :
    Framed (Isolated name) (Clear S) (Clear S) (removeDelta name p) := by
  refine framed_seq (framed_readDisk _) (fun found => ?_) fun _ h => h
  cases found with
  | error e => exact framed_pure (Isolated.refl name) (fun _ h => h) _
  | ok n =>
    refine framed_seq (framed_readDisk _) (fun freed => ?_) fun _ h => h
    refine framed_seq (framed_onDisk (framed_removeEntry rfl (own_files name) hway))
      (fun _ => ?_) fun _ h => h
    refine framed_seq (framed_quotaSub freed) (fun _ => ?_) fun _ h => h
    by_cases hp : p = []
    · subst hp
      exact framed_pure (Isolated.refl name) (fun _ h => h) _
    · refine framed_prune p.length p.dropLast fun a ha => hway _ ⟨rfl, ?_⟩ ?_
      · exact ha.trans (List.dropLast_prefix p)
      · intro heq
        have hlen := congrArg (fun l : Place => l.path.length) heq
        have hle := ha.length_le
        have hpos := List.length_pos_iff.mpr hp
        simp only [deltaPath, List.length_dropLast] at hlen hle
        omega

theorem framed_deleteTouched :
    Framed (Isolated name) (Clear S) (Clear S) (deleteTouched name p) := by
  refine framed_seq (framed_read (Isolated.refl name) (after_inheritedForTouch name p))
    (fun inherited => ?_) fun _ h => h
  refine framed_seq (framed_recordFirstTouch (by simp) p inherited) (fun _ => ?_) fun _ h => h
  refine framed_seq (framed_removeDelta hway) (fun _ => ?_) fun _ h => h
  by_cases hi : inherited.isSome = true
  · rw [if_pos hi]
    exact framed_modify (sameSettings_addTombstone p)
  · rw [if_neg hi]
    exact framed_removeTombstone p

theorem framed_deletePathInBranch :
    Framed (Isolated name) (Clear S) (Clear S) (deletePathInBranch name p) :=
  framed_seq (framed_read (Isolated.refl name) (after_writableBranch name))
    (fun _ => framed_deleteTouched hway) fun _ h => h

theorem framed_rmdirPathInBranch :
    Framed (Isolated name) (Clear S) (Clear S) (rmdirPathInBranch name p) := by
  exact framed_seq (framed_read (Isolated.refl name) (after_writableBranch name))
    (fun _ => framed_seq (framed_read (Isolated.refl name) (after_checkEmptyDir name p))
      (fun _ => framed_deleteTouched hway) fun _ h => h) fun _ h => h

theorem framed_revertPathInBranch :
    Framed (Isolated name) (Clear S) (Clear S) (revertPathInBranch name p) := by
  unfold revertPathInBranch failIf
  refine framed_seq (framed_when (Isolated.refl name) _ fun _ =>
    framed_throw (Isolated.refl name) (fun _ h => h) _) (fun _ => ?_) fun _ h => h
  refine framed_seq (framed_read (Isolated.refl name) (after_writableBranch name)) (fun _ => ?_)
    fun _ h => h
  refine framed_seq (framed_removeDelta hway) (fun _ => ?_) fun _ h => h
  refine framed_seq (framed_modify fun _ => ⟨rfl, rfl, rfl, rfl, rfl, rfl, rfl⟩) (fun _ => ?_)
    fun _ h => h
  exact framed_seq (framed_removeTouchRecordsUnder p)
    (fun _ => framed_aside (fun _ => rfl) fun _ => rfl) fun _ h => h

end Remove

end BranchFs
