/-
# BranchFs.Isolate.Epochs -- what the epoch tells

The epoch moves with every step that makes a branch or changes the state of one, and never back. So
between two states of one epoch no branch has been made, frozen or thawed: a branch that is there in the second
was there in the first, in the state it is in. An abort alone takes a branch away without moving the epoch.
-/
import BranchFs.Isolate.Kept

namespace BranchFs

open BranchFs.Posix BranchFs.Logic

/-! ## File operations -/

/-- Epoch, mounts, and the branches with their states are what they were. -/
structure Gentle (m m' : Manager) : Prop where
  epoch : m'.epoch = m.epoch
  mounts : m'.mountBranches = m.mountBranches
  states : ∀ b, (m'.forest.get? b).map Branch.state = (m.forest.get? b).map Branch.state

section

variable {m m' : Manager} {name b : String}

theorem Gentle.refl (m : Manager) : Gentle m m := ⟨rfl, rfl, fun _ => rfl⟩

theorem Gentle.trans (m₁ m₂ m₃ : Manager) (h : Gentle m₁ m₂) (h' : Gentle m₂ m₃) : Gentle m₁ m₃ :=
  ⟨h'.epoch.trans h.epoch, h'.mounts.trans h.mounts, fun b => (h'.states b).trans (h.states b)⟩

theorem gentle_onDisk {α : Type} (x : Io α) : Keeps Gentle (onDisk x) := by
  intro m
  unfold after onDisk
  cases x m.disk <;> exact ⟨rfl, rfl, fun _ => rfl⟩

theorem gentle_modifyBranch (name : String) (f : Branch → Branch) (hf : ∀ b, (f b).state = b.state) :
    Keeps Gentle (modifyBranch name f) := by
  refine fun m => ⟨rfl, rfl, fun b => ?_⟩
  show ((m.forest.modify name f).get? b).map Branch.state = _
  rw [Forest.get?_modify, Option.map_map]
  congr 1
  funext c
  show (Forest.modifyAt name f c).state = c.state
  unfold Forest.modifyAt
  split
  · exact hf c
  · rfl

theorem keptByCalls_gentle : KeptByCalls Gentle where
  refl := Gentle.refl
  trans := Gentle.trans
  call x _ := gentle_onDisk x
  record := gentle_modifyBranch
  quota _ _ := ⟨rfl, rfl, fun _ => rfl⟩

/-- **A file operation makes no branch, takes none away and changes the state of none.** -/
theorem gentle_fileOp (name : String) (op : FileOp) : Keeps Gentle (op.run name) :=
  keptByCalls_gentle.fileOp op

theorem Gentle.valid (h : Gentle m m') : m'.isBranchValid b = m.isBranchValid b := by
  have hb := congrArg Option.isSome (h.states b)
  rwa [Option.isSome_map, Option.isSome_map] at hb

theorem isBranchWritable_eq (m : Manager) (b : String) :
    m.isBranchWritable b = ((m.forest.get? b).map Branch.state == some .open) := by
  unfold Manager.isBranchWritable Branch.isWritable
  cases m.forest.get? b with
  | none => rfl
  | some c => cases hc : c.state <;> simp [hc]

theorem Gentle.writable (h : Gentle m m') : m'.isBranchWritable b = m.isBranchWritable b := by
  rw [isBranchWritable_eq, isBranchWritable_eq, h.states]

end

/-! ## Steps -/

/-- The epoch has not gone back, and if it has not moved, every branch that is there was there, in the state
it is in. -/
structure Watched (m m' : Manager) : Prop where
  later : m.epoch ≤ m'.epoch
  told : m'.epoch = m.epoch → ∀ b c', m'.forest.get? b = some c' →
    ∃ c, m.forest.get? b = some c ∧ c'.state = c.state

section

variable {m m' : Manager} {name b : String}

theorem Watched.refl (m : Manager) : Watched m m := ⟨le_rfl, fun _ _ c hc => ⟨c, hc, rfl⟩⟩

theorem Watched.trans (m₁ m₂ m₃ : Manager) (h : Watched m₁ m₂) (h' : Watched m₂ m₃) : Watched m₁ m₃ where
  later := h.later.trans h'.later
  told heq b c₃ hc₃ := by
    have hlater := h.later
    have hlater' := h'.later
    obtain ⟨c₂, hc₂, hstate₂⟩ := h'.told (by omega) b c₃ hc₃
    obtain ⟨c₁, hc₁, hstate₁⟩ := h.told (by omega) b c₂ hc₂
    exact ⟨c₁, hc₁, hstate₂.trans hstate₁⟩

theorem Gentle.watched (h : Gentle m m') : Watched m m' where
  later := h.epoch.ge
  told _ b c' hc' := by
    have hb := h.states b
    rw [hc', Option.map_some] at hb
    obtain ⟨c, hc, hstate⟩ := Option.map_eq_some_iff.mp hb.symm
    exact ⟨c, hc, hstate.symm⟩

/-- Whatever comes before, a step of the epoch is told. -/
theorem Watched.of_later (h : m.epoch < m'.epoch) : Watched m m' :=
  ⟨h.le, fun heq => absurd heq h.ne'⟩

theorem watched_removeBranch (name : String) : Keeps Watched (removeBranch name) := by
  intro m
  unfold after removeBranch
  by_cases h : m.forest.isLeaf name = true ∧ name ≠ "main"
  · rw [dif_pos h]
    refine ⟨le_rfl, fun _ b c' hc' => ⟨c', ?_, rfl⟩⟩
    change (m.forest.remove name h).get? b = some c' at hc'
    rw [Forest.get?_remove] at hc'
    split at hc'
    · cases hc'
    · exact hc'
  · rw [dif_neg h]
    exact Watched.refl m

theorem keptBySteps_watched : KeptBySteps Watched where
  refl := Watched.refl
  trans := Watched.trans
  call x _ m := (gentle_onDisk x m).watched
  record name f hf m := (gentle_modifyBranch name f hf m).watched
  quota _ _ := Gentle.watched ⟨rfl, rfl, fun _ => rfl⟩
  staged x m := (gentle_onDisk (runStaged x) m).watched
  remove := watched_removeBranch
  epoch m := Watched.of_later (Nat.lt_succ_self m.epoch)
  disk _ _ := Gentle.watched ⟨rfl, rfl, fun _ => rfl⟩
  made c parent m := by
    by_cases h : c.parent = some parent ∧ m.forest.get? parent ≠ none ∧ m.forest.get? c.name = none
    · have hins : insertBranch c parent m = .ok () { m with forest := m.forest.fork c parent h } := dif_pos h
      rw [after_bind_ok hins]
      exact Watched.of_later (Nat.lt_succ_self m.epoch)
    · have hins : insertBranch c parent m = .error (.alreadyExists c.name) m := dif_neg h
      rw [after_bind_error hins]
      exact Watched.refl m
  state _ _ m := Watched.of_later (Nat.lt_succ_self m.epoch)

/-- **The epoch tells of every branch that is made and of every change of a branch's state**, whatever the
step. -/
theorem watched_step (m : Manager) (op : Op) : Watched m (step m op) := keptBySteps_watched.step m op

/-! ## Mounts -/

/-- What a mountpoint shows is no matter of the manager's steps. -/
theorem keptBySteps_mounts : KeptBySteps fun m m' => m'.mountBranches = m.mountBranches where
  refl _ := rfl
  trans _ _ _ h h' := h'.trans h
  call x _ m := (gentle_onDisk x m).mounts
  record name f hf m := (gentle_modifyBranch name f hf m).mounts
  quota _ _ := rfl
  staged x m := (gentle_onDisk (runStaged x) m).mounts
  remove name m := by
    unfold after removeBranch
    by_cases h : m.forest.isLeaf name = true ∧ name ≠ "main"
    · rw [dif_pos h]
    · rw [dif_neg h]
  epoch _ := rfl
  disk _ _ := rfl
  made c parent m := by
    by_cases h : c.parent = some parent ∧ m.forest.get? parent ≠ none ∧ m.forest.get? c.name = none
    · have hins : insertBranch c parent m = .ok () { m with forest := m.forest.fork c parent h } := dif_pos h
      rw [after_bind_ok hins]
      rfl
    · have hins : insertBranch c parent m = .error (.alreadyExists c.name) m := dif_neg h
      rw [after_bind_error hins]
  state _ _ _ := rfl

end

end BranchFs
