/-
# BranchFs.Merge.Listed -- which paths a commit reports

A commit reports a path of its session exactly when the parent's counter has moved since the fork
and what the branch inherits at the path has another identity than the one its touch record holds.
Nothing else enters: not what the parent shows, and not who changed it.
-/
import BranchFs.Merge.Success

namespace BranchFs

open BranchFs.Posix BranchFs.Logic

section

variable {m m' m₁ : Manager} {name : String} {b : Branch} {r r' : Report} {p : RelPath}

/-! ## What is reported -/

/-- The two ways a report can name a path. -/
structure Report.Names (r : Report) (p : RelPath) (auto conflict : Prop) : Prop where
  auto : p ∈ r.autoMerges.map CommitAutoMerge.path ↔ auto
  conflict : p ∈ r.conflicts.map CommitConflict.path ↔ conflict

/-- One file of the detection adds its own path, if the parent has moved on from it. -/
theorem names_detectFile {q : RelPath} {src : Place} {auto conflict : Prop}
    (h : Detected b.name m r m') (hb : m.forest.get? b.name = some b)
    (hcap : CanCapture m.disk b.name) (hst : Straight m b.name q)
    (hplace : src = deltaPath b.name q) (hleaf : Leaf .dir (deltaKind m.disk b.name) q)
    (hr : r.Names p auto conflict) (hok : detectFile b q src r m' = .ok r' m₁) :
    r'.Names p (auto ∨ (p = q ∧ MovedOn m b p ∧ MergesCleanly m b p))
      (conflict ∨ (p = q ∧ MovedOn m b p ∧ ¬ MergesCleanly m b p)) := by
  have hid := h.currentIdentity hb hst
  have hget : (get : Mgr Manager) m' = .ok m' m' := rfl
  rw [detectFile, bind_ok hget] at hok
  simp only at hok
  by_cases hsame : (b.touchRecordOrMissing q).baseAtFirstTouch = m'.currentIdentity b q
  · rw [if_pos hsame] at hok
    cases hok
    rw [hid] at hsame
    have hno : ¬ (p = q ∧ MovedOn m b p) := by
      rintro ⟨rfl, hmoved⟩
      exact hmoved hsame
    refine ⟨hr.auto.trans ⟨Or.inl, ?_⟩, hr.conflict.trans ⟨Or.inl, ?_⟩⟩
    · rintro (ha | ⟨hpq, hmoved, -⟩)
      · exact ha
      · exact absurd ⟨hpq, hmoved⟩ hno
    · rintro (hc | ⟨hpq, hmoved, -⟩)
      · exact hc
      · exact absurd ⟨hpq, hmoved⟩ hno
  · rw [if_neg hsame] at hok
    have hmoved : MovedOn m b q := by rwa [hid] at hsame
    have hleaf' : Leaf .dir (deltaKind m'.disk b.name) q := by
      obtain ⟨k, hk, hkd⟩ := hleaf
      exact ⟨k, (h.deltaKind b.name q).trans hk, hkd⟩
    rcases mergeAttempt_eq (canCapture_of_same h.same hcap) hplace hleaf' hsame with
      ⟨-, t, ht, hclean⟩ | ⟨-, herror⟩
    swap
    · rw [bind_error herror] at hok
      cases hok
    rw [h.mergesCleanly hb hst] at hclean
    rw [bind_ok ht] at hok
    cases t with
    | none =>
      have hno : ¬ MergesCleanly m b q := fun hm => (hclean.mpr hm) rfl
      cases hok
      refine ⟨hr.auto.trans ⟨Or.inl, ?_⟩, ?_⟩
      · rintro (ha | ⟨rfl, -, hm⟩)
        · exact ha
        · exact absurd hm hno
      · rw [List.map_append, List.mem_append, hr.conflict]
        refine or_congr Iff.rfl ?_
        simp only [mkConflict, List.map_cons, List.map_nil, List.mem_singleton]
        constructor
        · rintro rfl
          exact ⟨rfl, hmoved, hno⟩
        · exact fun hc => hc.1
    | some bytes =>
      have hyes : MergesCleanly m b q := hclean.mp (by simp)
      obtain ⟨_, _, _, hok⟩ := bind_eq_ok hok
      obtain ⟨_, _, _, hok⟩ := bind_eq_ok hok
      cases hok
      refine ⟨?_, hr.conflict.trans ⟨Or.inl, ?_⟩⟩
      · rw [List.map_append, List.mem_append, hr.auto]
        refine or_congr Iff.rfl ?_
        simp only [List.map_cons, List.map_nil, List.mem_singleton]
        constructor
        · rintro rfl
          exact ⟨rfl, hmoved, hyes⟩
        · exact fun hc => hc.1
      · rintro (hc | ⟨rfl, -, hm⟩)
        · exact hc
        · exact absurd hyes hm

theorem names_detectFiles (hb : m.forest.get? b.name = some b) (hcap : CanCapture m.disk b.name) :
    ∀ (files : List (RelPath × Place)) (r : Report) (m' : Manager) (auto conflict : Prop),
      (∀ f ∈ files, (f.2 = deltaPath b.name f.1 ∧ Leaf .dir (deltaKind m.disk b.name) f.1) ∧
        Straight m b.name f.1) →
      Detected b.name m r m' → r.Names p auto conflict → ∀ {r' : Report} {m₁ : Manager},
      detectFiles b files r m' = .ok r' m₁ →
      r'.Names p (auto ∨ (p ∈ files.map Prod.fst ∧ MovedOn m b p ∧ MergesCleanly m b p))
        (conflict ∨ (p ∈ files.map Prod.fst ∧ MovedOn m b p ∧ ¬ MergesCleanly m b p)) := by
  intro files
  induction files with
  | nil =>
    intro r m' auto conflict _ _ hr r' m₁ hok
    cases hok
    simpa using hr
  | cons f files ih =>
    intro r m' auto conflict hfiles h hr r' m₁ hok
    obtain ⟨q, src⟩ := f
    obtain ⟨⟨hplace, hleaf⟩, hst⟩ := hfiles (q, src) List.mem_cons_self
    rw [detectFiles] at hok
    rcases h.file hb hcap hst hplace hleaf with ⟨-, r₂, m₂, hrun, h₂⟩ | ⟨-, herror⟩
    swap
    · rw [bind_error herror] at hok
      cases hok
    rw [bind_ok hrun] at hok
    have hfile := names_detectFile h hb hcap hst hplace hleaf hr hrun
    have hrest := ih r₂ m₂ _ _ (fun g hg => hfiles g (List.mem_cons_of_mem _ hg)) h₂ hfile hok
    simpa only [List.map_cons, List.mem_cons, or_and_right, or_assoc] using hrest

/-- The deletions the parent has moved on from are in conflict. -/
theorem mem_tombstoneConflicts (m : Manager) (b : Branch) (ts : List RelPath) :
    p ∈ (tombstoneConflicts m b ts).map CommitConflict.path ↔ p ∈ ts ∧ MovedOn m b p := by
  simp only [tombstoneConflicts, List.mem_map, List.mem_filterMap]
  constructor
  · rintro ⟨c, ⟨t, ht, hc⟩, rfl⟩
    split at hc
    · next hne =>
      cases hc
      exact ⟨ht, hne⟩
    · cases hc
  · rintro ⟨ht, hne⟩
    exact ⟨_, ⟨p, ht, if_pos hne⟩, rfl⟩

/-- A commit that goes through has made its report and applied it. -/
theorem report_of_commit {parent : Branch} (h : Session m name b parent) {order : HashOrder}
    {o : CommitOutcome} (hok : commitWithReport order name m = .ok o m') :
    ∃ r m₁, reportFor b parent (order.iter b.tombstones) (walkFiles m.disk name) m = .ok r m₁ ∧
      applyCommit name parent r (order.iter b.tombstones) (walkFiles m.disk name) m₁ = .ok () m' ∧
      o = ⟨parent.name, r.autoMerges, r.conflicts⟩ := by
  have hfinal := finalizable_ok h.name_ne_main h.branch h.leaf h.up h.record
  unfold commitWithReport at hok
  rw [bind_ok hfinal] at hok
  have hfiles : (readDisk (fun d => walkFiles d name) : Mgr _) m = .ok (walkFiles m.disk name) m := rfl
  simp only at hok
  rw [bind_ok hfiles] at hok
  obtain ⟨r, m₁, hreport, hok⟩ := bind_eq_ok hok
  obtain ⟨_, _, happly, hok⟩ := bind_eq_ok hok
  cases hok
  exact ⟨r, m₁, hreport, happly, rfl⟩

/-- The files of a session, as the detection takes them. -/
theorem Session.walk {parent : Branch} (h : Session m name b parent) :
    ∀ f ∈ walkFiles m.disk b.name,
      (f.2 = deltaPath b.name f.1 ∧ Leaf .dir (deltaKind m.disk b.name) f.1) ∧ Straight m b.name f.1 := by
  intro f hf
  have hname := Forest.name_of_get? h.branch
  have hf' := mem_walkFiles.mp (show (f.1, f.2) ∈ _ from hf)
  rw [hname] at hf' ⊢
  exact ⟨hf', h.committable.straight f.1 (Or.inr hf'.2)⟩

/-- Before its first file the detection has the conflicts of the deletions. -/
theorem Session.detectedStart {parent : Branch} (h : Session m name b parent) (ts : List RelPath) :
    Detected b.name m ⟨[], tombstoneConflicts m b ts, []⟩ m := by
  have hname := Forest.name_of_get? h.branch
  exact ⟨by simp, rfl, SameOn.refl _ _, by rw [hname]; exact h.committable.store.merge, by simp⟩

/-- What the report of a session names. -/
theorem Session.names {parent : Branch} (h : Session m name b parent) {order : HashOrder}
    (hreport : reportFor b parent (order.iter b.tombstones) (walkFiles m.disk name) m = .ok r m₁) :
    r.Names p
      (parent.commitCount ≠ b.parentVersionAtFork ∧ Leaf .dir (deltaKind m.disk name) p ∧
        MovedOn m b p ∧ MergesCleanly m b p)
      (parent.commitCount ≠ b.parentVersionAtFork ∧ MovedOn m b p ∧
        (p ∈ b.tombstones ∨ (Leaf .dir (deltaKind m.disk name) p ∧ ¬ MergesCleanly m b p))) := by
  have hname := Forest.name_of_get? h.branch
  have hbranch : m.forest.get? b.name = some b := by rw [hname]; exact h.branch
  unfold reportFor at hreport
  by_cases hmoved : parent.commitCount ≠ b.parentVersionAtFork
  · rw [if_pos hmoved, detect] at hreport
    have hget : (get : Mgr Manager) m = .ok m m := rfl
    rw [bind_ok hget] at hreport
    have hcap : CanCapture m.disk b.name := by rw [hname]; exact h.committable.store.capture
    have hstart : (⟨[], tombstoneConflicts m b (order.iter b.tombstones), []⟩ : Report).Names p False
        (p ∈ b.tombstones ∧ MovedOn m b p) :=
      ⟨by simp, by rw [mem_tombstoneConflicts, (order.perm _).mem_iff]⟩
    rw [← hname] at hreport
    have hnames := names_detectFiles hbranch hcap _ _ m _ _ h.walk (h.detectedStart _) hstart hreport
    have hmem : p ∈ (walkFiles m.disk b.name).map Prod.fst ↔ Leaf .dir (deltaKind m.disk name) p := by
      rw [hname]
      exact mem_walkFiles_fst
    refine ⟨?_, ?_⟩
    · rw [hnames.auto, hmem]
      constructor
      · rintro (hf | hc)
        · exact hf.elim
        · exact ⟨hmoved, hc⟩
      · exact fun hc => Or.inr hc.2
    · rw [hnames.conflict, hmem]
      constructor
      · rintro (⟨ht, hm⟩ | ⟨hl, hm, hc⟩)
        · exact ⟨hmoved, hm, Or.inl ht⟩
        · exact ⟨hmoved, hm, Or.inr ⟨hl, hc⟩⟩
      · rintro ⟨-, hm, ht | ⟨hl, hc⟩⟩
        · exact Or.inl ⟨ht, hm⟩
        · exact Or.inr ⟨hl, hm, hc⟩
  · rw [if_neg hmoved] at hreport
    cases hreport
    exact ⟨by simp [hmoved], by simp [hmoved]⟩

/-- **What a commit reports.** A commit that goes through names the paths of its session the parent
has moved on from, once the parent's counter has moved; those that merge are not in conflict. -/
theorem reported_of_commit {parent : Branch} (h : Session m name b parent) {order : HashOrder}
    {o : CommitOutcome} (hok : commitWithReport order name m = .ok o m') :
    (p ∈ o.autoMerges.map CommitAutoMerge.path ↔
      parent.commitCount ≠ b.parentVersionAtFork ∧ Leaf .dir (deltaKind m.disk name) p ∧
        MovedOn m b p ∧ MergesCleanly m b p) ∧
    (p ∈ o.conflicts.map CommitConflict.path ↔
      parent.commitCount ≠ b.parentVersionAtFork ∧ MovedOn m b p ∧
        (p ∈ b.tombstones ∨ (Leaf .dir (deltaKind m.disk name) p ∧ ¬ MergesCleanly m b p))) := by
  obtain ⟨r, m₁, hreport, -, rfl⟩ := report_of_commit h hok
  have hnames := h.names (p := p) hreport
  exact ⟨hnames.auto, hnames.conflict⟩

theorem lists_iff {o : CommitOutcome} : o.lists p = true ↔
    p ∈ o.autoMerges.map CommitAutoMerge.path ∨ p ∈ o.conflicts.map CommitConflict.path := by
  simp only [CommitOutcome.lists, Bool.or_eq_true, List.any_eq_true, beq_iff_eq, List.mem_map]

/-- A path of the session is reported exactly when the parent's counter has moved and the parent has
moved on from the path. -/
theorem lists_of_commit {parent : Branch} (h : Session m name b parent) {order : HashOrder}
    {o : CommitOutcome} (hok : commitWithReport order name m = .ok o m')
    (hp : p ∈ b.tombstones ∨ Leaf .dir (deltaKind m.disk name) p) :
    o.lists p = true ↔ parent.commitCount ≠ b.parentVersionAtFork ∧ MovedOn m b p := by
  obtain ⟨hauto, hconflict⟩ := reported_of_commit (p := p) h hok
  rw [lists_iff, hauto, hconflict]
  constructor
  · rintro (⟨hc, -, hm, -⟩ | ⟨hc, hm, -⟩)
    · exact ⟨hc, hm⟩
    · exact ⟨hc, hm⟩
  · rintro ⟨hc, hm⟩
    rcases hp with ht | hl
    · exact Or.inr ⟨hc, hm, Or.inl ht⟩
    · by_cases hclean : MergesCleanly m b p
      · exact Or.inl ⟨hc, hl, hm, hclean⟩
      · exact Or.inr ⟨hc, hm, Or.inr ⟨hl, hclean⟩⟩

end

end BranchFs
