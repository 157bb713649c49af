/-
# BranchFs.Serve.Review -- a review holds in the whole process

A branch is frozen so that what is reviewed is what is committed. That is a matter of the process, not of one
request: mounts of the branch keep descriptors from before, and the worker has jobs left for it. Neither reaches
the branch (`reviewed_run`): the freeze has moved the epoch, and a job asks the branch again when it is run.
-/
import BranchFs.Isolate.Frozen
import BranchFs.Serve.Descriptors

namespace BranchFs

open BranchFs.Posix BranchFs.Logic

/-- The act neither thaws the branch nor ends it, commits no change to it and follows no link. Of writes
through descriptors and of the mounts nothing is asked. -/
def Act.KeepsOff (b : String) (m : Manager) : Act → Prop
  | .op o => o.Retains b ∧ o.KeepsOff b m
  | _ => True

section

variable {m : Manager} {b : String}

theorem Manager.Frozen.not_writable (h : m.Frozen b) : m.isBranchWritable b = false := by
  obtain ⟨c, hc, hstate⟩ := h
  unfold Manager.isBranchWritable Branch.isWritable
  rw [hc, Option.any_some, hstate]
  rfl

/-- An act holds a frozen branch still. -/
theorem act_held {a : Act} (hb : m.Frozen b) (hserved : a.Served m) (h : a.KeepsOff b m) :
    HeldStill b m (act m a) := by
  cases a with
  | op op => exact step_held hb h.1 h.2
  | through file offset data =>
    obtain ⟨name, hroot, hstate⟩ := hserved
    have hne : b ≠ name := by
      rintro rfl
      obtain ⟨c, hc, hfrozen⟩ := hb
      rw [hstate c hc] at hfrozen
      cases hfrozen
    have hown : Own name file.root := by
      rw [hroot]
      exact own_files name
    exact HeldStill.of_isolated (framed_writeThrough hown offset data m (clear_plainPlaces m)).1 hne
  | switch mountpoint branch => exact HeldStill.of_spares ⟨rfl, SameOn.refl _ _⟩
  | unmount mountpoint => exact HeldStill.of_spares ⟨rfl, SameOn.refl _ _⟩

/-- Beside a frozen branch, a write that keeps off it opens its file directly. -/
theorem Act.KeepsOff.direct {a : Act} (hb : m.Frozen b) (h : a.KeepsOff b m) : a.Direct m := by
  cases a with
  | op op =>
    cases op with
    | file name op =>
      cases op with
      | write p offset data =>
        intro hw
        refine h.2 ?_
        rintro rfl
        rw [hb.not_writable] at hw
        cases hw
      | _ => trivial
    | _ => trivial
  | _ => trivial

/-- So do acts in a row. -/
theorem acts_held {acts : List Act} (hb : m.Frozen b) (hserved : Along act Act.Served m acts)
    (h : Along act (Act.KeepsOff b) m acts) :
    HeldStill b m (run act m acts) ∧ Along act Act.Direct m acts := by
  induction acts generalizing m with
  | nil => exact ⟨HeldStill.refl b m, trivial⟩
  | cons a acts ih =>
    have hheld := act_held hb hserved.1 h.1
    obtain ⟨hrest, hdirect⟩ := ih (hheld.frozen hb) hserved.2 h.2
    exact ⟨hheld.trans hrest, h.1.direct hb, hdirect⟩

end

/-- **What is reviewed is what is committed, whatever the process does**: while a branch is frozen, no mount,
no kept descriptor and no job that is still to be run changes what it holds or what its review says. -/
theorem reviewed_run {p : Process} {b : String} (hb : p.manager.Frozen b)
    (hnames : p.manager.ProperNames b) (hp : p.Guarded) (events : List Event)
    (h : Along act (Act.KeepsOff b) p.manager (p.trace events)) :
    AsReviewed b p.manager (run Process.step p events).manager := by
  have hall := drives_process.safe (I := fun q => HeldStill b p.manager q.manager ∧ q.Guarded)
    (C := Act.KeepsOff b) (P := fun _ _ => True) ?_ events p ⟨HeldStill.refl b _, hp⟩ h
  · exact hall.1.1.asReviewed hb hnames
  · rintro q e ⟨hheld, hq⟩ hoff
    obtain ⟨hstill, hdirect⟩ := acts_held (hheld.frozen hb) (served_acts hq e) hoff
    refine ⟨⟨?_, guarded_step hq hdirect⟩, hoff.mono fun _ _ _ => trivial⟩
    rw [drives_process.step]
    exact hheld.trans hstill

/-! ## A review beside writers -/

/-- A file operation, or a write through a descriptor. -/
def Act.isWrite : Act → Bool
  | .op (.file _ _) => true
  | .through _ _ _ => true
  | _ => false

theorem Act.keepsOff_of_linkless {m : Manager} {a : Act} (hwrite : a.isWrite = true)
    (h : Linkless m.disk) (b : String) : a.KeepsOff b m := by
  cases a with
  | op o =>
    cases o with
    | file name op =>
      exact ⟨trivial, fun _ => FileOp.contained_of_linkless h op name⟩
    | _ => cases hwrite
  | _ => trivial

/-- The events of `writtenTwice`, and a freeze. -/
def writtenAndFrozen : List Event := writtenTwice ++ [.manager (.freeze "b")]

@[irreducible] def underReview : Process :=
  run Process.step (Process.init (Manager.init .bare)) writtenAndFrozen

/-- A write to the file under review, for which the mount still keeps its descriptor, and a file that is made
and written in the other branch. -/
def besideReview : List Event :=
  [.request 0 (.write 2 0 [122] false .unknown), .request 1 (.create 1 "g" 0o644 0),
    .request 1 (.write 2 0 [120] false .unknown), .request 1 (.write 2 1 [121] false .unknown)]

theorem underReview_run :
    (underReview.manager.forest.get? "b").map (fun c => (c.state, c.tombstones)) = some (.frozen, []) ∧
    (∀ e ∈ underReview.manager.disk.entries, e.1.root = some (.files "b") → e.1.path = ["f"]) ∧
    Along act (fun m _ => Linkless m.disk) (Manager.init .bare)
      ((Process.init (Manager.init .bare)).trace writtenAndFrozen) ∧
    Along act (fun m a => a.isWrite = true ∧ Linkless m.disk) underReview.manager
      (underReview.trace besideReview) := by
  decide +kernel

theorem guarded_underReview : underReview.Guarded := by
  unfold underReview
  exact (served_run (guarded_init (Manager.init .bare)) writtenAndFrozen
    (underReview_run.2.2.1.mono fun _ a h => Act.direct_of_linkless h a)).1

theorem underReview_names : underReview.manager.ProperNames "b" := by
  obtain ⟨hrecord, hentries, -, -⟩ := underReview_run
  obtain ⟨c, hc, -, htomb⟩ := record_of_map hrecord
  constructor
  · intro q hq
    obtain ⟨k, hk⟩ := Option.ne_none_iff_exists'.mp hq
    rcases Disk.entry_of_kindAt hk with ⟨hroot, -⟩ | ⟨e, he, hloc, -⟩
    · obtain rfl : q = [] := hroot
      exact fun n hn => absurd hn List.not_mem_nil
    · have hname := hentries e he (by rw [hloc]; rfl)
      rw [hloc] at hname
      obtain rfl : q = ["f"] := hname
      intro n hn
      rw [List.mem_singleton.mp hn]
      exact ⟨by decide, by decide⟩
  · intro c' hc' t ht
    rw [hc] at hc'
    rw [← Option.some.inj hc', htomb] at ht
    exact absurd ht List.not_mem_nil

/-- The review is that of the two writes. -/
theorem reviewed_run_sample :
    AsReviewed "b" underReview.manager (run Process.step underReview besideReview).manager := by
  obtain ⟨hrecord, -, -, hbeside⟩ := underReview_run
  obtain ⟨c, hc, hstate, -⟩ := record_of_map hrecord
  have hoff : Along act (Act.KeepsOff "b") underReview.manager (underReview.trace besideReview) :=
    hbeside.mono fun _ _ h => Act.keepsOff_of_linkless h.1 h.2 "b"
  have hfrozen : underReview.manager.Frozen "b" := ⟨c, hc, hstate⟩
  exact reviewed_run hfrozen underReview_names guarded_underReview besideReview hoff

end BranchFs
