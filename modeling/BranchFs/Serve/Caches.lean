/-
# BranchFs.Serve.Caches -- what the requests of a mount keep, its descriptors included

The handlers that know of the descriptor caches are handlers of `Serve.Steps` with two things more: they
forget a descriptor, and a write keeps the one it has opened. The second is what a relation has to answer for
(`KeptByServing.opened`), and may do so by what is known of the acts of the request.
-/
import BranchFs.Serve.Trace

namespace BranchFs

open BranchFs.Posix BranchFs.Logic

/-- The relation also holds when bodies move the manager by `M`, when the descriptor kept for writing is
forgotten, and when a write that is an act of which `P` holds keeps the one it opens. -/
structure KeptByServing (P : Manager → Act → Prop) (M : Manager → Manager → Prop)
    (R : Mount → Mount → Prop) (C : CachedMount → CachedMount → Prop) : Prop extends KeptByReading R C where
  bodies : KeptByBodies M R
  forget : ∀ s ino, C s { s with writeCache := s.writeCache.invalidateIno ino }
  opened : ∀ (s : CachedMount) branch rel offset data ino h m,
    P s.mount.manager (.op (.file branch (.write rel offset data))) →
    openForWrite branch rel s.mount.manager = .ok h m →
    C s { s with
      mount := { s.mount with manager := m }
      writeCache := s.writeCache.insert ino s.mount.currentEpoch h }

namespace KeptByServing

variable {P : Manager → Act → Prop} {M : Manager → Manager → Prop} {R : Mount → Mount → Prop}
variable {C : CachedMount → CachedMount → Prop} (h : KeptByServing P M R C)
variable {α : Type} {s : CachedMount} {branch : String} {rel : RelPath}

include h

theorem body {x : Req α} (hx : Keeps M x) : Keeps C (onBody x) := h.onMount (h.bodies.body hx)

/-! ### Writing -/

theorem writeOffset (append : Bool) (requested : Int) (len : Option UInt64) :
    Keeps C (BranchFs.writeOffset append requested len) := by
  intro s
  have hstill : after (BranchFs.writeOffset append requested len) s = s := by
    unfold after BranchFs.writeOffset
    cases effectiveWriteOffset append requested len <;> rfl
  rw [hstill]
  exact h.refl s

theorem writeOpened (file : FileHandle) (offset : Nat) (data : Bytes) (ofRoot : Bool) :
    Keeps C (BranchFs.writeOpened file offset data ofRoot) := by
  have hc := h.bodies.calls
  refine h.seq (h.body (hc.readReq _)) fun oldSize => ?_
  refine h.seq (h.body (hc.checked (KeptByCalls.asReq _ (hc.quotaCheck _)))) fun _ => ?_
  refine h.seq (h.body (hc.ioOrEio (.pwrite file offset data))) fun n => ?_
  refine h.seq (keeps_when h.refl _ fun _ => h.onMount h.bodies.failWhenStale) fun _ => ?_
  refine h.seq (h.body (hc.checked (KeptByCalls.asReq _ (hc.quotaAdd _)))) fun _ => ?_
  exact h.pure n

/-- A write keeps the descriptor it has opened, if it opens one. -/
theorem writeAt {ofRoot : Bool} {ino : Nat} {offset : Int} {data : Bytes} {append : Bool}
    (hacts : Along act P s.mount.manager (writeAtActs s.mount.manager branch rel offset data append)) :
    C s (after (BranchFs.writeAt branch rel ofRoot ino offset data append) s) := by
  unfold writeAtActs at hacts
  unfold BranchFs.writeAt
  rw [after_bind_ok (rfl : (MonadState.get : CachedReq CachedMount) s = .ok s s)]
  generalize (if append then s.mount.manager.fileLen branch rel else none) = len at hacts ⊢
  cases hoffset : effectiveWriteOffset append offset len with
  | error e =>
    have hrefused : BranchFs.writeOffset append offset len s = .error e s := by
      unfold BranchFs.writeOffset
      rw [hoffset]
    rw [after_bind_error hrefused]
    exact h.refl s
  | ok start =>
    have htaken : BranchFs.writeOffset append offset len s = .ok start s := by
      unfold BranchFs.writeOffset
      rw [hoffset]
    rw [after_bind_ok htaken]
    by_cases hdelta : s.mount.manager.branchHasDelta branch rel = true
    · simp only [hoffset, if_pos hdelta] at hacts
      rw [if_pos hdelta]
      cases hrun : openForWrite branch rel s.mount.manager with
      | error e m =>
        have hopen : openToWrite branch rel ino s =
            .error e { s with mount := { s.mount with manager := m } } := by
          unfold openToWrite
          rw [bind_ok (rfl : (MonadState.get : CachedReq CachedMount) s = .ok s s)]
          exact bind_error (onBody_of_error hrun)
        have hopens : Keeps M (openForWrite branch rel) := h.bodies.calls.openForWrite
        have hbody := h.body hopens s
        rw [after_error (onBody_of_error hrun)] at hbody
        rw [after_bind_error hopen]
        exact hbody
      | ok file m =>
        have hopen : openToWrite branch rel ino s = .ok file { s with
            mount := { s.mount with manager := m }
            writeCache := s.writeCache.insert ino s.mount.currentEpoch file } := by
          unfold openToWrite
          rw [bind_ok (rfl : (MonadState.get : CachedReq CachedMount) s = .ok s s)]
          rw [bind_ok (onBody_of_ok hrun)]
          rfl
        rw [after_bind_ok hopen]
        exact h.trans _ _ _ (h.opened s branch rel start.toNat data ino file m hacts.1 hrun)
          (h.seq (h.writeOpened file _ data ofRoot) (fun n => h.pure _) _)
    · rw [if_neg hdelta]
      exact h.refl s

theorem writeSlow {ino : Nat} {offset : Int} {data : Bytes} {append : Bool}
    (hacts : Along act P s.mount.manager (s.writeSlowActs ino offset data append)) :
    C s (after (BranchFs.writeSlow ino offset data append) s) := by
  unfold CachedMount.writeSlowActs Mount.denotesFile at hacts
  unfold BranchFs.writeSlow
  cases hpath : s.mount.inodes.getPath ino with
  | none =>
    rw [after_bind_error (onMount_of_error (inodePath_error hpath))]
    exact h.refl s
  | some path =>
    rw [after_bind_ok (onMount_of_ok (inodePath_ok hpath))]
    rw [hpath, Option.bind_some] at hacts
    cases hc : classifyPath path with
    | branchDir b => exact h.refl s
    | branchCtl b => exact h.refl s
    | rootPath rel =>
      simp only [hc] at hacts ⊢
      rw [after_bind_ok (rfl : (MonadState.get : CachedReq CachedMount) s = .ok s s)]
      exact h.writeAt hacts
    | branchPath b rel =>
      simp only [hc] at hacts ⊢
      cases hw : s.mount.manager.isBranchWritable b with
      | true =>
        have hopen : onBody (denyUnlessWritable b) s = .ok () s := onMount_of_ok (onDeny_ok hw)
        have hthere : BranchFs.onMount (needBranch b) s = .ok () s :=
          onMount_of_ok (needBranch_ok (isBranchValid_of_writable hw))
        rw [after_bind_ok hopen, after_bind_ok hthere]
        exact h.writeAt hacts
      | false =>
        have hdenied : onBody (denyUnlessWritable b) s = .error .EROFS s := onMount_of_error (onDeny_error hw)
        rw [after_bind_error hdenied]
        exact h.refl s

theorem writeFile {ino : Nat} {offset : Int} {data : Bytes} {append : Bool}
    (hacts : Along act P s.mount.manager (s.writeFileActs ino offset data append)) :
    C s (after (BranchFs.writeFile ino offset data append) s) := by
  have hlook := h.onMount h.bodies.failWhenStale s
  unfold BranchFs.writeFile
  cases hlive : s.mount.live with
  | false =>
    have hdead := onMount_of_error (failWhenStale_dead hlive)
    rw [after_error hdead] at hlook
    rw [after_bind_error hdead]
    exact hlook
  | true =>
    have hfresh := onMount_of_ok (failWhenStale_eq hlive)
    rw [after_ok hfresh] at hlook
    rw [after_bind_ok hfresh]
    refine h.trans _ _ _ hlook ?_
    by_cases hneg : offset < 0
    · rw [after_bind_error (failIf_error hneg _ _)]
      exact h.refl _
    rw [after_bind_ok (failIf_ok hneg _ _)]
    unfold CachedMount.writeFileActs at hacts
    unfold Mount.live at hlive
    simp only [hlive, hneg, Bool.true_eq_false, or_self, if_false] at hacts
    generalize hu : ({ s with mount := { s.mount with currentEpoch := s.mount.manager.epoch } } :
      CachedMount) = u
    have hmanager : s.mount.manager = u.mount.manager := by rw [← hu]
    have hget : s.writeCache.get ino s.mount.manager.epoch = u.writeCache.get ino u.mount.currentEpoch := by
      rw [← hu]
    have hslow : s.writeSlowActs ino offset data append = u.writeSlowActs ino offset data append := by
      rw [← hu]
      rfl
    rw [hget, hmanager, hslow] at hacts
    rw [after_bind_ok (rfl : (MonadState.get : CachedReq CachedMount) u = .ok u u)]
    cases hkept : u.writeCache.get ino u.mount.currentEpoch with
    | none =>
      simp only [hkept] at hacts
      exact h.writeSlow hacts
    | some file =>
      refine h.seq (KeptByReading.get fun v => h.seq (h.writeOffset append offset _) fun start => ?_)
        (fun n => h.pure _) u
      exact h.body (h.bodies.calls.writeThrough file start.toNat data)

/-- A write, to a control file or to any other. -/
theorem write {ino : Nat} {offset : Int} {data : Bytes} {append : Bool} {command : CtlCommand}
    (hctl : ∀ file, s.mount.ctlFileOf ino = some file → R s.mount (after (writeCtl file command) s.mount))
    (hacts : Along act P s.mount.manager (s.writeActs ino offset data append command)) :
    C s (after (BranchFs.write ino offset data append command) s) := by
  unfold CachedMount.writeActs at hacts
  unfold BranchFs.write
  have hstart := h.reading s (s.openCache.invalidateIno ino)
  generalize hforgot : ({ s with openCache := s.openCache.invalidateIno ino } : CachedMount) = u at hstart
  have hmodify : (modify (fun t : CachedMount => { t with openCache := t.openCache.invalidateIno ino }) :
      CachedReq Unit) s = .ok () u := by
    rw [← hforgot]
    rfl
  have hmount : s.mount = u.mount := by rw [← hforgot]
  have hfile : s.writeFileActs ino offset data append = u.writeFileActs ino offset data append := by
    rw [← hforgot]
    rfl
  rw [hfile, hmount] at hacts
  rw [hmount] at hctl
  rw [after_bind_ok hmodify, after_bind_ok (rfl : (MonadState.get : CachedReq CachedMount) u = .ok u u)]
  refine h.trans _ _ _ hstart ?_
  cases hcase : u.mount.ctlFileOf ino with
  | none =>
    simp only [hcase] at hacts
    exact h.writeFile hacts
  | some file =>
    simp only
    rw [after_bind_pure]
    exact h.onMount_at (hctl file hcase)

/-! ### Names and attributes -/

theorem forgetBoth (ino : Nat) : Keeps C (modify (fun t : CachedMount => { t with
    openCache := t.openCache.invalidateIno ino, writeCache := t.writeCache.invalidateIno ino }) :
      CachedReq Unit) := by
  intro s
  have hforgot := h.forget { s with openCache := s.openCache.invalidateIno ino } ino
  exact h.trans _ _ _ (h.reading s _) hforgot

/-- A rename forgets the descriptors of the destination. -/
theorem rename {parent : Nat} {name : String} {newparent : Nat} {newname : String} {flags : RenameFlags}
    (hx : R s.mount (after (BranchFs.rename parent name newparent newname flags) s.mount)) :
    C s (after (CachedMount.rename parent name newparent newname flags) s) := by
  have hrenamed := h.onMount_at hx
  unfold CachedMount.rename
  rw [after_bind_ok (rfl : (MonadState.get : CachedReq CachedMount) s = .ok s s)]
  cases hrun : BranchFs.onMount (BranchFs.rename parent name newparent newname flags) s with
  | error e t =>
    rw [after_error hrun] at hrenamed
    rw [after_bind_error hrun]
    exact hrenamed
  | ok u t =>
    rw [after_ok hrun] at hrenamed
    rw [after_bind_ok hrun, after_bind_ok (rfl : (MonadState.get : CachedReq CachedMount) t = .ok t t)]
    refine h.trans _ _ _ hrenamed ?_
    cases renamePaths parent name newparent newname s.mount with
    | error e v => exact h.refl t
    | ok paths v =>
      simp only
      cases t.mount.inodes.getIno paths.dstInode with
      | none => exact h.refl t
      | some ino => exact h.forgetBoth ino t

/-- A new size forgets the descriptors of the inode. -/
theorem setattr (ino : Nat) (size : Option Nat) (a : SetAttr) : Keeps C (CachedMount.setattr ino size a) := by
  exact h.seq (keeps_when h.refl _ fun _ => h.forgetBoth ino) fun _ => h.onMount (h.bodies.setattr ino size a)

end KeptByServing

end BranchFs
