/-
# BranchFs.Store.Concurrent -- tombstones and touches under many callers

The methods of a branch take a lock for what they do to the memory, and some of them write their log
lines and remove kept files after they let go of it. An `Action` is one such atomic step: a method's
critical section, or one append or one removal it still owes; a thread is the list of the actions
before it, and a schedule says whose turn it is.

What is owed is what the files are behind: a tombstone with a removal owed is out of the memory
already and may still be in the log, and so for touch records (`Tracked`). This survives every step
but one that brings a path back into the memory while its removal is owed (`SafeStep`): the removal
is then written after it, and undoes it in the log alone.
-/
import BranchFs.Model.Cow
import BranchFs.Store.PathText
import BranchFs.Store.Reload
import Mathlib.Data.Finset.Option

namespace BranchFs.Store

open BranchFs.Logic

/-! ## Atomic steps -/

/-- `touch_content_key`: FNV-1a of the path's text. -/
def touchContentKey (path : Text) : String :=
  let hash := (path.flatMap String.utf8EncodeChar).foldl
    (fun (hash : UInt64) b => (hash ^^^ b.toUInt64) * 1099511628211) 14695981039346656037
  hex16 hash ++ ".base"

/-- On a path's text it is the manager's key. -/
theorem touchContentKey_pathText (p : RelPath) :
    touchContentKey (pathText p) = BranchFs.touchContentKey p := rfl

/-- The order in which the touch map hands out its records. -/
structure TouchIter where
  iter : Finset TouchRecord → List TouchRecord
  mem_iter : ∀ T r, r ∈ iter T ↔ r ∈ T

instance lawfulBEq_text : LawfulBEq Text := List.instLawfulBEq

/-- A call of a method; `captured` says that the base has a text to keep. -/
inductive Call where
  | addTombstone (path : Text)
  | removeTombstone (path : Text)
  | removeTombstonesUnder (order : HashIter) (path : Text)
  | recordFirstTouch (path : Text) (base : PathIdentity) (captured : Bool)
  | removeTouchRecordsUnder (order : TouchIter) (path : Text)

/-- A critical section, or a file operation that is owed after it. -/
inductive Action where
  | enter (call : Call)
  | logTombstoneRemoval (path : Text)
  | logTouchRemoval (path : Text)
  | removeContent (key : String)

/-- A branch and the names in its `touch-content` directory. -/
structure Shared where
  branch : Branch
  content : Finset String

section Json

variable (json : SerdeJson)

/-- The critical section of a call, and what it owes after it. -/
def enter (s : Shared) : Call → Shared × List Action
  | .addTombstone path => ({ s with branch := s.branch.addTombstone path }, [])
  | .removeTombstone path => ({ s with branch := s.branch.removeTombstone path }, [])
  | .removeTombstonesUnder order path =>
    let removed := (order.iter s.branch.tombstones).filter (pathIsSameOrDescendant · path)
    ({ s with branch :=
        { s.branch with tombstones := s.branch.tombstones.filter (· ∉ removed) } },
      removed.map .logTombstoneRemoval)
  | .recordFirstTouch path base captured =>
    if ∃ r ∈ s.branch.touches, r.path = path then (s, [])
    else
      let key := if captured then some (touchContentKey path) else none
      ({ branch := s.branch.recordFirstTouch json path base key
         content := s.content ∪ key.toFinset }, [])
  | .removeTouchRecordsUnder order path =>
    let removed := (order.iter s.branch.touches).filter (pathIsSameOrDescendant ·.path path)
    let kept := s.branch.touches.filter fun r => ∀ x ∈ removed, r.path ≠ x.path
    let branch := { s.branch with touches := kept }
    if removed.isEmpty then ({ s with branch := branch }, [])
    else
      ({ s with branch := branch },
        .logTouchRemoval path :: (removed.filterMap TouchRecord.baseContentKey).map .removeContent)

/-- One atomic step. -/
def act (s : Shared) : Action → Shared × List Action
  | .enter call => enter json s call
  | .logTombstoneRemoval path => ({ s with branch := s.branch.appendTombstoneOp '-' path }, [])
  | .logTouchRemoval path =>
    let files := { s.branch.files with
      touchesLog := appendLine s.branch.files.touchesLog ("- ".toList ++ path) }
    ({ s with branch := { s.branch with files := files } }, [])
  | .removeContent key => ({ s with content := s.content.erase key }, [])

/-- The branch and the threads at work on it. -/
structure System where
  shared : Shared
  threads : List (List Action)

/-- The next action of thread `i`; a thread that is done has none. -/
def System.next (sys : System) (i : Nat) : Option Action :=
  (sys.threads[i]?).bind List.head?

/-- Thread `i` takes a step. -/
def System.step (sys : System) (i : Nat) : System :=
  match sys.threads[i]? with
  | some (a :: rest) =>
    { shared := (act json sys.shared a).1
      threads := sys.threads.set i ((act json sys.shared a).2 ++ rest) }
  | _ => sys

/-- The threads take steps in the order of a schedule. -/
def System.run (sys : System) (schedule : List Nat) : System :=
  schedule.foldl (System.step json) sys

end Json

/-- Every call has returned. -/
def System.Finished (sys : System) : Prop := ∀ thread ∈ sys.threads, thread = []

/-- Some thread has the action before it. -/
def System.Owes (sys : System) (a : Action) : Prop := ∃ thread ∈ sys.threads, a ∈ thread

/-! ## Alone -/

section Alone

variable {json : SerdeJson}

/-- A call and everything it owes, with nobody in between. -/
def alone (json : SerdeJson) (s : Shared) (call : Call) : Shared :=
  (enter json s call).2.foldl (fun s a => (act json s a).1) (enter json s call).1

theorem alone_removeTombstonesUnder (s : Shared) (order : HashIter) (path : Text) :
    (alone json s (.removeTombstonesUnder order path)).branch =
      s.branch.removeTombstonesUnder order path := by
  have hfold : ∀ (removed : List Text) (s : Shared),
      ((removed.map Action.logTombstoneRemoval).foldl (fun s a => (act json s a).1) s).branch =
        removed.foldl (fun b t => Branch.appendTombstoneOp '-' t b) s.branch := by
    intro removed
    induction removed with
    | nil => exact fun s => rfl
    | cons t removed ih => exact fun s => ih _
  rw [alone, enter, hfold]
  rfl

theorem alone_removeTouchRecordsUnder (s : Shared) (order : TouchIter) (path : Text) :
    (alone json s (.removeTouchRecordsUnder order path)).branch =
      s.branch.removeTouchRecordsUnder path := by
  have hfold : ∀ (keys : List String) (s : Shared),
      ((keys.map Action.removeContent).foldl (fun s a => (act json s a).1) s).branch = s.branch := by
    intro keys
    induction keys with
    | nil => exact fun s => rfl
    | cons key keys ih => exact fun s => ih _
  have hmem : ∀ x, x ∈ (order.iter s.branch.touches).filter (pathIsSameOrDescendant ·.path path) ↔
      x ∈ s.branch.touches.filter fun r => pathIsSameOrDescendant r.path path := by
    intro x
    rw [List.mem_filter, order.mem_iter, Finset.mem_filter]
  have hkept : (s.branch.touches.filter fun r =>
      ∀ x ∈ (order.iter s.branch.touches).filter (pathIsSameOrDescendant ·.path path),
        r.path ≠ x.path) =
      s.branch.touches.filter fun r =>
        ∀ x ∈ s.branch.touches.filter (fun r => pathIsSameOrDescendant r.path path),
          r.path ≠ x.path := by
    simp only [hmem]
  rw [alone, enter, Branch.removeTouchRecordsUnder, hkept]
  dsimp only
  split
  · next hnone =>
    have hempty : s.branch.touches.filter (fun r => pathIsSameOrDescendant r.path path) = ∅ := by
      ext x
      rw [← hmem, List.isEmpty_iff.mp hnone]
      simp
    rw [if_pos hempty, kept_eq]
    have hall : (s.branch.touches.filter fun r => !pathIsSameOrDescendant r.path path) =
        s.branch.touches := by
      apply Finset.filter_true_of_mem
      intro r hr
      by_contra hunder
      have hin : r ∈ s.branch.touches.filter fun r => pathIsSameOrDescendant r.path path := by
        rw [Finset.mem_filter]
        exact ⟨hr, by simpa using hunder⟩
      rw [hempty] at hin
      exact Finset.notMem_empty r hin
    rw [hall]
    rfl
  · next hsome =>
    have hne : ¬ s.branch.touches.filter (fun r => pathIsSameOrDescendant r.path path) = ∅ := by
      intro hempty
      apply hsome
      rw [List.isEmpty_iff, List.eq_nil_iff_forall_not_mem]
      intro x hx
      rw [hmem, hempty] at hx
      exact Finset.notMem_empty x hx
    rw [if_neg hne, List.foldl_cons, hfold]
    rfl

end Alone

/-! ## What is owed -/

/-- The files hold what the memory holds and, for every removal that is owed, perhaps what it will
remove. -/
structure Tracked (json : SerdeJson) (s : Shared) (owes : Action → Prop) : Prop where
  tombstones : ∃ S, TombstonesRead s.branch.files S ∧
    ∀ t, t ∈ s.branch.tombstones ↔ t ∈ S ∧ ¬ owes (.logTombstoneRemoval t)
  touches : ∃ T, TouchesRead json s.branch.files T ∧
    ∀ r, r ∈ s.branch.touches ↔
      r ∈ T ∧ ∀ path, owes (.logTouchRemoval path) → pathIsSameOrDescendant r.path path = false
  content : ∀ r ∈ s.branch.touches, ∀ key, r.baseContentKey = some key →
    key ∈ s.content ∧ ¬ owes (.removeContent key)
  safe : ∀ t ∈ s.branch.tombstones, LineSafe t
  owedTombstones : ∀ t, owes (.logTombstoneRemoval t) → LineSafe t
  owedTouches : ∀ path, owes (.logTouchRemoval path) → LineSafe path

/-- What is owed after a step: what it owes itself, and what was owed before, the step apart. -/
structure Passes (a : Action) (added : List Action) (owes owes' : Action → Prop) : Prop where
  new : ∀ b ∈ added, owes' b
  old : ∀ b, owes b → b = a ∨ owes' b
  only : ∀ b, owes' b → b ∈ added ∨ owes b

variable {json : SerdeJson} {s : Shared} {owes owes' : Action → Prop}

/-- A critical section adds what it owes. -/
theorem Passes.enter {call : Call} {added : List Action}
    (h : Passes (.enter call) added owes owes') {b : Action} (hb : ∀ c, b ≠ .enter c) :
    owes' b ↔ b ∈ added ∨ owes b := by
  constructor
  · exact h.only b
  · rintro (hnew | hold)
    · exact h.new b hnew
    · exact (h.old b hold).resolve_left (hb call)

/-- An operation that was owed is owed no more, but for another thread. -/
theorem Passes.paid {a : Action} (h : Passes a [] owes owes') {b : Action} (hb : b ≠ a) :
    owes' b ↔ owes b := by
  constructor
  · exact fun hb' => (h.only b hb').resolve_left List.not_mem_nil
  · exact fun hold => (h.old b hold).resolve_left hb

/-- Nothing changes where a critical section finds nothing to do. -/
theorem Tracked.idle (h : Tracked json s owes) {call : Call}
    (hp : Passes (.enter call) [] owes owes') : Tracked json s owes' := by
  have hsame : ∀ {b : Action}, (∀ c, b ≠ .enter c) → (owes' b ↔ owes b) := by
    intro b hb
    rw [hp.enter hb]
    simp
  obtain ⟨S, hread, hS⟩ := h.tombstones
  obtain ⟨T, hreadT, hT⟩ := h.touches
  refine ⟨⟨S, hread, ?_⟩, ⟨T, hreadT, ?_⟩, ?_, h.safe, ?_, ?_⟩
  · intro t
    rw [hS, hsame fun c => Action.noConfusion]
  · intro r
    rw [hT]
    simp only [hsame (b := .logTouchRemoval _) fun c => Action.noConfusion]
  · intro r hr key hkey
    rw [hsame fun c => Action.noConfusion]
    exact h.content r hr key hkey
  · intro t ht
    exact h.owedTombstones t ((hsame fun c => Action.noConfusion).mp ht)
  · intro path hpath
    exact h.owedTouches path ((hsame fun c => Action.noConfusion).mp hpath)

/-- A path whose removal nobody owes comes in. -/
theorem Tracked.addTombstone (h : Tracked json s owes) {path : Text}
    (hsafe : LineSafe path) (hfree : ¬ owes (.logTombstoneRemoval path)) :
    Tracked json { s with branch := s.branch.addTombstone path } owes := by
  by_cases hin : path ∈ s.branch.tombstones
  · rw [Branch.addTombstone, if_pos hin]
    exact h
  · obtain ⟨S, hread, hS⟩ := h.tombstones
    rw [Branch.addTombstone, if_neg hin]
    have happend := hread.append (hsafe.marked (lineSafe_mark '+' (by decide)))
    rw [applyTombstone_add] at happend
    refine ⟨⟨insert path S, happend, ?_⟩, h.touches, h.content, ?_, h.owedTombstones,
      h.owedTouches⟩
    · intro t
      show t ∈ insert path s.branch.tombstones ↔ _
      rw [Finset.mem_insert, Finset.mem_insert, hS]
      constructor
      · rintro (rfl | ⟨ht, hno⟩)
        · exact ⟨Or.inl rfl, hfree⟩
        · exact ⟨Or.inr ht, hno⟩
      · rintro ⟨rfl | ht, hno⟩
        · exact Or.inl rfl
        · exact Or.inr ⟨ht, hno⟩
    · intro t ht
      rcases Finset.mem_insert.mp ht with rfl | ht
      · exact hsafe
      · exact h.safe t ht

theorem Tracked.removeTombstone (h : Tracked json s owes) (path : Text) :
    Tracked json { s with branch := s.branch.removeTombstone path } owes := by
  by_cases hin : path ∈ s.branch.tombstones
  · obtain ⟨S, hread, hS⟩ := h.tombstones
    rw [Branch.removeTombstone, if_pos hin]
    have happend := hread.append ((h.safe path hin).marked (lineSafe_mark '-' (by decide)))
    rw [applyTombstone_remove] at happend
    refine ⟨⟨S.erase path, happend, ?_⟩, h.touches, h.content, ?_, h.owedTombstones,
      h.owedTouches⟩
    · intro t
      show t ∈ s.branch.tombstones.erase path ↔ _
      rw [Finset.mem_erase, Finset.mem_erase, hS, and_assoc]
    · intro t ht
      exact h.safe t (Finset.mem_of_mem_erase ht)
  · rw [Branch.removeTombstone, if_neg hin]
    exact h

/-- The tombstones at or below a path go out of the memory, and their lines are owed. -/
theorem Tracked.removeTombstonesUnder (h : Tracked json s owes) {order : HashIter} {path : Text}
    (hp : Passes (.enter (.removeTombstonesUnder order path))
      (enter json s (.removeTombstonesUnder order path)).2 owes owes') :
    Tracked json (enter json s (.removeTombstonesUnder order path)).1 owes' := by
  obtain ⟨S, hread, hS⟩ := h.tombstones
  obtain ⟨T, hreadT, hT⟩ := h.touches
  rw [enter] at hp
  have hmem : ∀ t, t ∈ (order.iter s.branch.tombstones).filter (pathIsSameOrDescendant · path) →
      t ∈ s.branch.tombstones := by
    intro t ht
    exact (order.mem_iter _ t).mp (List.mem_of_mem_filter ht)
  have howes : ∀ t, owes' (.logTombstoneRemoval t) ↔
      t ∈ (order.iter s.branch.tombstones).filter (pathIsSameOrDescendant · path) ∨
        owes (.logTombstoneRemoval t) := by
    intro t
    rw [hp.enter fun c => Action.noConfusion]
    simp
  refine ⟨⟨S, hread, ?_⟩, ⟨T, hreadT, ?_⟩, ?_, ?_, ?_, ?_⟩
  · intro t
    show t ∈ s.branch.tombstones.filter _ ↔ _
    rw [Finset.mem_filter, howes, not_or, hS]
    tauto
  · intro r
    show r ∈ s.branch.touches ↔ _
    rw [hT]
    simp only [hp.enter (b := .logTouchRemoval _) fun c => Action.noConfusion, List.mem_map,
      reduceCtorEq, and_false, exists_false, false_or]
  · intro r hr key hkey
    obtain ⟨hthere, hno⟩ := h.content r hr key hkey
    rw [hp.enter fun c => Action.noConfusion]
    exact ⟨hthere, by simpa using hno⟩
  · intro t ht
    exact h.safe t (Finset.mem_filter.mp ht).1
  · intro t ht
    rcases (howes t).mp ht with ht | ht
    · exact h.safe t (hmem t ht)
    · exact h.owedTombstones t ht
  · intro q hq
    rw [hp.enter fun c => Action.noConfusion] at hq
    exact h.owedTouches q (by simpa using hq)

/-- A line that was owed takes out what is out of the memory already. -/
theorem Tracked.logTombstoneRemoval (h : Tracked json s owes) {path : Text}
    (howed : owes (.logTombstoneRemoval path))
    (hp : Passes (.logTombstoneRemoval path) [] owes owes') :
    Tracked json { s with branch := s.branch.appendTombstoneOp '-' path } owes' := by
  obtain ⟨S, hread, hS⟩ := h.tombstones
  obtain ⟨T, hreadT, hT⟩ := h.touches
  have happend := hread.append
    ((h.owedTombstones path howed).marked (lineSafe_mark '-' (by decide)))
  rw [applyTombstone_remove] at happend
  refine ⟨⟨S.erase path, happend, ?_⟩, ⟨T, hreadT, ?_⟩, ?_, h.safe, ?_, ?_⟩
  · intro t
    show t ∈ s.branch.tombstones ↔ _
    rw [hS, Finset.mem_erase]
    by_cases ht : t = path
    · subst ht
      simp [howed]
    · rw [hp.paid (by simpa using ht)]
      simp [ht]
  · intro r
    show r ∈ s.branch.touches ↔ _
    rw [hT]
    simp only [hp.paid (b := .logTouchRemoval _) Action.noConfusion]
  · intro r hr key hkey
    rw [hp.paid Action.noConfusion]
    exact h.content r hr key hkey
  · intro t ht
    exact h.owedTombstones t ((hp.only _ ht).resolve_left List.not_mem_nil)
  · intro q hq
    exact h.owedTouches q ((hp.only _ hq).resolve_left List.not_mem_nil)

/-- A first touch where no removal of its path is owed. -/
theorem Tracked.recordFirstTouch (hjson : json.Lawful) (h : Tracked json s owes) {path : Text}
    {base : PathIdentity} {captured : Bool} (hnew : ¬ ∃ r ∈ s.branch.touches, r.path = path)
    (hfree : ∀ q, owes (.logTouchRemoval q) → pathIsSameOrDescendant path q = false)
    (hkey : captured = true → ¬ owes (.removeContent (touchContentKey path))) :
    Tracked json (enter json s (.recordFirstTouch path base captured)).1 owes := by
  obtain ⟨T, hread, hT⟩ := h.touches
  rw [enter, if_neg hnew]
  dsimp only
  rw [Branch.recordFirstTouch, if_neg hnew]
  -- what the log still holds for the path would be owed
  have hnone : ∀ r ∈ T, r.path ≠ path := by
    intro r hr hpath
    refine hnew ⟨r, (hT r).mpr ⟨hr, fun q hq => ?_⟩, hpath⟩
    rw [hpath]
    exact hfree q hq
  let record : TouchRecord :=
    ⟨path, base, if captured then some (touchContentKey path) else none⟩
  have happly : applyTouch json T (json.writeTouch record) = some (insert record T) := by
    apply applyTouch_record hjson
    rintro ⟨r, hr, hpath⟩
    exact hnone r hr hpath
  have happend := hread.append (lineSafe_record hjson _) happly
  refine ⟨h.tombstones, ⟨_, happend, ?_⟩, ?_, h.safe, h.owedTombstones, h.owedTouches⟩
  · intro r
    show r ∈ insert _ s.branch.touches ↔ _
    rw [Finset.mem_insert, Finset.mem_insert, hT]
    constructor
    · rintro (rfl | ⟨hr, hno⟩)
      · exact ⟨Or.inl rfl, hfree⟩
      · exact ⟨Or.inr hr, hno⟩
    · rintro ⟨rfl | hr, hno⟩
      · exact Or.inl rfl
      · exact Or.inr ⟨hr, hno⟩
  · intro r hr key hrkey
    rcases Finset.mem_insert.mp hr with rfl | hr
    · cases captured with
      | false => simp at hrkey
      | true =>
        obtain rfl : touchContentKey path = key := Option.some.inj hrkey
        exact ⟨Finset.mem_union_right _ (Finset.mem_singleton_self _), hkey rfl⟩
    · obtain ⟨hthere, hno⟩ := h.content r hr key hrkey
      exact ⟨Finset.mem_union_left _ hthere, hno⟩

/-- No record that stays names the kept text of one that goes. -/
def KeysApart (touches : Finset TouchRecord) (path : Text) : Prop :=
  ∀ r ∈ touches, pathIsSameOrDescendant r.path path = true →
    ∀ r' ∈ touches, pathIsSameOrDescendant r'.path path = false →
      ∀ key, r.baseContentKey = some key → r'.baseContentKey ≠ some key

/-- The records at or below a path go out of the memory; their line and their texts are owed. -/
theorem Tracked.removeTouchRecordsUnder (h : Tracked json s owes) {order : TouchIter} {path : Text}
    (hsafe : (∃ r ∈ s.branch.touches, pathIsSameOrDescendant r.path path = true) →
      LineSafe path ∧ KeysApart s.branch.touches path)
    (hp : Passes (.enter (.removeTouchRecordsUnder order path))
      (enter json s (.removeTouchRecordsUnder order path)).2 owes owes') :
    Tracked json (enter json s (.removeTouchRecordsUnder order path)).1 owes' := by
  obtain ⟨S, hread, hS⟩ := h.tombstones
  obtain ⟨T, hreadT, hT⟩ := h.touches
  have hremoved : ∀ r, r ∈ (order.iter s.branch.touches).filter
      (pathIsSameOrDescendant ·.path path) ↔
        r ∈ s.branch.touches ∧ pathIsSameOrDescendant r.path path = true := by
    intro r
    rw [List.mem_filter, order.mem_iter]
  have hkept : ∀ r, (r ∈ s.branch.touches.filter fun r =>
      ∀ x ∈ (order.iter s.branch.touches).filter (pathIsSameOrDescendant ·.path path),
        r.path ≠ x.path) ↔
      r ∈ s.branch.touches ∧ pathIsSameOrDescendant r.path path = false := by
    intro r
    rw [Finset.mem_filter]
    constructor
    · rintro ⟨hr, hout⟩
      refine ⟨hr, ?_⟩
      by_contra hunder
      rw [Bool.not_eq_false] at hunder
      exact hout r ((hremoved r).mpr ⟨hr, hunder⟩) rfl
    · rintro ⟨hr, hout⟩
      refine ⟨hr, fun x hx hpath => ?_⟩
      rw [hpath, ((hremoved x).mp hx).2] at hout
      cases hout
  by_cases hnone : ((order.iter s.branch.touches).filter
      (pathIsSameOrDescendant ·.path path)).isEmpty = true
  · -- nothing below the path: the memory is what it was, and nothing is owed
    have hidle : enter json s (.removeTouchRecordsUnder order path) = (s, []) := by
      rw [enter]
      dsimp only
      rw [if_pos hnone, List.isEmpty_iff.mp hnone]
      simp
    rw [hidle] at hp ⊢
    exact h.idle hp
  · rw [enter] at hp ⊢
    dsimp only at hp ⊢
    rw [if_neg hnone] at hp ⊢
    obtain ⟨hline, hkeys⟩ : LineSafe path ∧ KeysApart s.branch.touches path := by
      apply hsafe
      rw [List.isEmpty_iff] at hnone
      obtain ⟨r, hr⟩ := List.exists_mem_of_ne_nil _ hnone
      exact ⟨r, (hremoved r).mp hr⟩
    have hlines : ∀ q, owes' (.logTouchRemoval q) ↔ q = path ∨ owes (.logTouchRemoval q) := by
      intro q
      rw [hp.enter fun c => Action.noConfusion]
      simp
    refine ⟨⟨S, hread, ?_⟩, ⟨T, hreadT, ?_⟩, ?_, h.safe, ?_, ?_⟩
    · intro t
      show t ∈ s.branch.tombstones ↔ _
      rw [hS, hp.enter (b := .logTombstoneRemoval t) fun c => Action.noConfusion]
      simp
    · intro r
      rw [hkept, hT]
      simp only [hlines, or_imp, forall_and, forall_eq]
      tauto
    · intro r hr key hkey
      obtain ⟨hr, hout⟩ := (hkept r).mp hr
      obtain ⟨hthere, hno⟩ := h.content r hr key hkey
      refine ⟨hthere, ?_⟩
      rw [hp.enter fun c => Action.noConfusion]
      rintro (howed | howed)
      · simp only [List.mem_cons, reduceCtorEq, false_or, List.mem_map, List.mem_filterMap,
          Action.removeContent.injEq, exists_eq_right] at howed
        obtain ⟨x, hx, hxkey⟩ := howed
        obtain ⟨hx, hunder⟩ := (hremoved x).mp hx
        exact hkeys x hx hunder r hr hout key hxkey hkey
      · exact hno howed
    · intro t ht
      rw [hp.enter fun c => Action.noConfusion] at ht
      exact h.owedTombstones t (by simpa using ht)
    · intro q hq
      rcases (hlines q).mp hq with rfl | hq
      · exact hline
      · exact h.owedTouches q hq

/-- The line takes out of the log what is at or below its path. -/
theorem Tracked.logTouchRemoval (h : Tracked json s owes) {path : Text}
    (howed : owes (.logTouchRemoval path)) (hp : Passes (.logTouchRemoval path) [] owes owes') :
    Tracked json (act json s (.logTouchRemoval path)).1 owes' := by
  obtain ⟨S, hread, hS⟩ := h.tombstones
  obtain ⟨T, hreadT, hT⟩ := h.touches
  have happend := hreadT.append
    ((h.owedTouches path howed).marked (lineSafe_mark '-' (by decide)))
    (applyTouch_remove json T path)
  refine ⟨⟨S, hread, ?_⟩, ⟨_, happend, ?_⟩, ?_, h.safe, ?_, ?_⟩
  · intro t
    show t ∈ s.branch.tombstones ↔ _
    rw [hS, hp.paid (b := .logTombstoneRemoval t) Action.noConfusion]
  · intro r
    show r ∈ s.branch.touches ↔ _
    rw [hT, Finset.mem_filter, Bool.not_eq_true', and_assoc]
    constructor
    · rintro ⟨hr, hno⟩
      exact ⟨hr, hno path howed,
        fun q hq => hno q ((hp.only _ hq).resolve_left List.not_mem_nil)⟩
    · rintro ⟨hr, hout, hno⟩
      refine ⟨hr, fun q hq => ?_⟩
      rcases hp.old _ hq with heq | hq
      · rw [Action.logTouchRemoval.inj heq]
        exact hout
      · exact hno q hq
  · intro r hr key hkey
    rw [hp.paid Action.noConfusion]
    exact h.content r hr key hkey
  · intro t ht
    exact h.owedTombstones t ((hp.only _ ht).resolve_left List.not_mem_nil)
  · intro q hq
    exact h.owedTouches q ((hp.only _ hq).resolve_left List.not_mem_nil)

/-- A text that is removed late is one that no record names. -/
theorem Tracked.removeContent (h : Tracked json s owes) {key : String}
    (howed : owes (.removeContent key)) (hp : Passes (.removeContent key) [] owes owes') :
    Tracked json { s with content := s.content.erase key } owes' := by
  obtain ⟨S, hread, hS⟩ := h.tombstones
  obtain ⟨T, hreadT, hT⟩ := h.touches
  refine ⟨⟨S, hread, ?_⟩, ⟨T, hreadT, ?_⟩, ?_, h.safe, ?_, ?_⟩
  · intro t
    show t ∈ s.branch.tombstones ↔ _
    rw [hS, hp.paid (b := .logTombstoneRemoval t) Action.noConfusion]
  · intro r
    show r ∈ s.branch.touches ↔ _
    rw [hT]
    simp only [hp.paid (b := .logTouchRemoval _) Action.noConfusion]
  · intro r hr k hk
    obtain ⟨hthere, hno⟩ := h.content r hr k hk
    have hne : k ≠ key := by
      rintro rfl
      exact hno howed
    rw [hp.paid (by simpa using hne)]
    exact ⟨Finset.mem_erase.mpr ⟨hne, hthere⟩, hno⟩
  · intro t ht
    exact h.owedTombstones t ((hp.only _ ht).resolve_left List.not_mem_nil)
  · intro q hq
    exact h.owedTouches q ((hp.only _ hq).resolve_left List.not_mem_nil)

/-! ## Schedules -/

/-- Thread `i` does not bring back what is about to be removed again, and what it writes raw fits on
a line. -/
def SafeStep (sys : System) (i : Nat) : Prop :=
  match sys.next i with
  | some (.enter (.addTombstone path)) =>
    path ∈ sys.shared.branch.tombstones ∨
      LineSafe path ∧ ¬ sys.Owes (.logTombstoneRemoval path)
  | some (.enter (.recordFirstTouch path _ captured)) =>
    (∃ r ∈ sys.shared.branch.touches, r.path = path) ∨
      (∀ q, sys.Owes (.logTouchRemoval q) → pathIsSameOrDescendant path q = false) ∧
        (captured = true → ¬ sys.Owes (.removeContent (touchContentKey path)))
  | some (.enter (.removeTouchRecordsUnder _ path)) =>
    (∃ r ∈ sys.shared.branch.touches, pathIsSameOrDescendant r.path path = true) →
      LineSafe path ∧ KeysApart sys.shared.branch.touches path
  | _ => True

/-- Every step of the schedule is safe where it is taken. -/
def SafeSchedule (json : SerdeJson) (sys : System) : List Nat → Prop
  | [] => True
  | i :: schedule => SafeStep sys i ∧ SafeSchedule json (sys.step json i) schedule

/-- The system's files are behind its memory by what is owed. -/
def System.Tracked (json : SerdeJson) (sys : System) : Prop :=
  Store.Tracked json sys.shared sys.Owes

theorem System.step_idle {sys : System} {i : Nat} (h : sys.next i = none) :
    sys.step json i = sys := by
  rw [System.next] at h
  rw [System.step]
  match hthread : sys.threads[i]? with
  | none => rfl
  | some [] => rfl
  | some (a :: rest) =>
    rw [hthread] at h
    cases h

/-- What a step does to the branch, and to what is owed. -/
theorem System.step_passes (json : SerdeJson) {sys : System} {i : Nat} {a : Action} (h : sys.next i = some a) :
    (sys.step json i).shared = (act json sys.shared a).1 ∧ sys.Owes a ∧
      Passes a (act json sys.shared a).2 sys.Owes (sys.step json i).Owes := by
  rw [System.next, Option.bind_eq_some_iff] at h
  obtain ⟨thread, hthread, hhead⟩ := h
  obtain ⟨rest, rfl⟩ := List.head?_eq_some_iff.mp hhead
  obtain ⟨hi, hget⟩ := List.getElem?_eq_some_iff.mp hthread
  have hstep : sys.step json i =
      { shared := (act json sys.shared a).1
        threads := sys.threads.set i ((act json sys.shared a).2 ++ rest) } := by
    rw [System.step, hthread]
  have hset : ∀ b, (sys.step json i).Owes b ↔
      b ∈ (act json sys.shared a).2 ++ rest ∨
        ∃ j, j ≠ i ∧ ∃ thread, sys.threads[j]? = some thread ∧ b ∈ thread := by
    intro b
    rw [hstep, System.Owes]
    simp only [List.mem_iff_getElem?, List.getElem?_set]
    constructor
    · rintro ⟨thread, ⟨j, hj⟩, hb⟩
      by_cases hji : i = j
      · subst hji
        rw [if_pos rfl, if_pos hi] at hj
        rw [Option.some.inj hj]
        exact Or.inl hb
      · rw [if_neg hji] at hj
        exact Or.inr ⟨j, fun heq => hji heq.symm, thread, hj, hb⟩
    · rintro (hb | ⟨j, hji, thread, hj, hb⟩)
      · exact ⟨_, ⟨i, by rw [if_pos rfl, if_pos hi]⟩, hb⟩
      · exact ⟨thread, ⟨j, by rw [if_neg fun heq => hji heq.symm]; exact hj⟩, hb⟩
  have hmem : ∀ {j : Nat} {thread : List Action}, sys.threads[j]? = some thread →
      thread ∈ sys.threads := fun hj => List.mem_of_getElem? hj
  refine ⟨by rw [hstep], ⟨_, hmem hthread, List.mem_cons_self⟩, ?_, ?_, ?_⟩
  · intro b hb
    exact (hset b).mpr (Or.inl (List.mem_append_left _ hb))
  · rintro b ⟨thread, hmemt, hb⟩
    obtain ⟨j, hj⟩ := List.mem_iff_getElem?.mp hmemt
    by_cases hji : j = i
    · subst hji
      rw [hthread] at hj
      obtain rfl := Option.some.inj hj
      rcases List.mem_cons.mp hb with rfl | hb
      · exact Or.inl rfl
      · exact Or.inr ((hset b).mpr (Or.inl (List.mem_append_right _ hb)))
    · exact Or.inr ((hset b).mpr (Or.inr ⟨j, hji, thread, hj, hb⟩))
  · intro b hb
    rcases (hset b).mp hb with hb | ⟨j, -, thread, hj, hb⟩
    · rcases List.mem_append.mp hb with hb | hb
      · exact Or.inl hb
      · exact Or.inr ⟨_, hmem hthread, List.mem_cons_of_mem _ hb⟩
    · exact Or.inr ⟨thread, hmem hj, hb⟩

/-- A safe step keeps track. -/
theorem System.Tracked.step (hjson : json.Lawful) {sys : System} (h : sys.Tracked json) {i : Nat}
    (hsafe : SafeStep sys i) : (sys.step json i).Tracked json := by
  cases hnext : sys.next i with
  | none =>
    rw [System.step_idle hnext]
    exact h
  | some a =>
    obtain ⟨hshared, howed, hp⟩ := System.step_passes json hnext
    rw [SafeStep, hnext] at hsafe
    rw [System.Tracked, hshared]
    cases a with
    | enter call =>
      cases call with
      | addTombstone path =>
        have hidle := Store.Tracked.idle h hp
        rcases hsafe with hin | ⟨hline, hfree⟩
        · have hsame : sys.shared.branch.addTombstone path = sys.shared.branch := by
            rw [Branch.addTombstone, if_pos hin]
          show Store.Tracked json { sys.shared with branch := _ } _
          rw [hsame]
          exact hidle
        · refine hidle.addTombstone hline fun hlate => hfree ?_
          exact (hp.only _ hlate).resolve_left List.not_mem_nil
      | removeTombstone path => exact (Store.Tracked.idle h hp).removeTombstone path
      | removeTombstonesUnder order path => exact Store.Tracked.removeTombstonesUnder h hp
      | recordFirstTouch path base captured =>
        by_cases hthere : ∃ r ∈ sys.shared.branch.touches, r.path = path
        · have hsame : act json sys.shared (.enter (.recordFirstTouch path base captured)) =
              (sys.shared, []) := by rw [act, enter, if_pos hthere]
          rw [hsame] at hp ⊢
          exact Store.Tracked.idle h hp
        · have hnothing : (act json sys.shared (.enter (.recordFirstTouch path base captured))).2 =
              [] := by rw [act, enter, if_neg hthere]
          rw [hnothing] at hp
          obtain ⟨hfree, hkey⟩ := hsafe.resolve_left hthere
          refine (Store.Tracked.idle h hp).recordFirstTouch hjson hthere ?_ ?_
          · intro q hq
            exact hfree q ((hp.only _ hq).resolve_left List.not_mem_nil)
          · intro hcaptured hlate
            exact hkey hcaptured ((hp.only _ hlate).resolve_left List.not_mem_nil)
      | removeTouchRecordsUnder order path =>
        exact Store.Tracked.removeTouchRecordsUnder h hsafe hp
    | logTombstoneRemoval path => exact Store.Tracked.logTombstoneRemoval h howed hp
    | logTouchRemoval path => exact Store.Tracked.logTouchRemoval h howed hp
    | removeContent key => exact Store.Tracked.removeContent h howed hp

/-- A safe schedule keeps track, wherever it is cut off. -/
theorem System.Tracked.run (hjson : json.Lawful) {sys : System} (h : sys.Tracked json)
    {schedule : List Nat} (hsafe : SafeSchedule json sys schedule) :
    (sys.run json schedule).Tracked json := by
  induction schedule generalizing sys with
  | nil => exact h
  | cons i schedule ih => exact ih (h.step hjson hsafe.1) hsafe.2

/-! ## When all calls have returned -/

/-- The logs replay to the memory, and every text a record names is there. -/
def Agrees (json : SerdeJson) (s : Shared) : Prop :=
  loadTombstones s.branch.files = s.branch.tombstones ∧
    loadTouches json s.branch.files = some s.branch.touches ∧
    ∀ r ∈ s.branch.touches, ∀ key, r.baseContentKey = some key → key ∈ s.content

/-- A branch whose files hold what its memory holds, and calls to it that have not begun. -/
structure System.Starts (json : SerdeJson) (sys : System) : Prop where
  durable : Durable json sys.shared.branch
  content : ∀ r ∈ sys.shared.branch.touches, ∀ key, r.baseContentKey = some key →
    key ∈ sys.shared.content
  calls : ∀ a, sys.Owes a → ∃ call, a = .enter call

theorem System.Starts.tracked {sys : System} (h : sys.Starts json) : sys.Tracked json := by
  have hnone : ∀ a, (∀ call, a ≠ .enter call) → ¬ sys.Owes a := by
    intro a ha howes
    obtain ⟨call, hcall⟩ := h.calls a howes
    exact ha call hcall
  refine ⟨⟨_, h.durable.tombstones, ?_⟩, ⟨_, h.durable.touches, ?_⟩, ?_, h.durable.safe, ?_, ?_⟩
  · intro t
    exact ⟨fun ht => ⟨ht, hnone _ fun _ => Action.noConfusion⟩, And.left⟩
  · intro r
    refine ⟨fun hr => ⟨hr, fun q hq => ?_⟩, And.left⟩
    exact absurd hq (hnone _ fun _ => Action.noConfusion)
  · intro r hr key hkey
    exact ⟨h.content r hr key hkey, hnone _ fun _ => Action.noConfusion⟩
  · intro t ht
    exact absurd ht (hnone _ fun _ => Action.noConfusion)
  · intro q hq
    exact absurd hq (hnone _ fun _ => Action.noConfusion)

/-- Where nothing is owed, nothing is behind. -/
theorem System.Tracked.agrees {sys : System} (h : sys.Tracked json) (hdone : sys.Finished) :
    Agrees json sys.shared := by
  have hnone : ∀ a, ¬ sys.Owes a := by
    rintro a ⟨thread, hthread, ha⟩
    rw [hdone thread hthread] at ha
    exact List.not_mem_nil ha
  obtain ⟨S, hread, hS⟩ := h.tombstones
  obtain ⟨T, hreadT, hT⟩ := h.touches
  refine ⟨?_, ?_, fun r hr key hkey => (h.content r hr key hkey).1⟩
  · rw [hread.load]
    ext t
    rw [hS, and_iff_left (hnone _)]
  · rw [hreadT.load]
    congr 1
    ext r
    rw [hT]
    exact ⟨fun hr => ⟨hr, fun q hq => absurd hq (hnone _)⟩, And.left⟩

/-- The path a call is about. -/
def Call.path : Call → Text
  | .addTombstone path => path
  | .removeTombstone path => path
  | .removeTombstonesUnder _ path => path
  | .recordFirstTouch path _ _ => path
  | .removeTouchRecordsUnder _ path => path

/-- Logs and memory agree under every schedule, once all calls have returned. -/
def LogsAgreeConcurrently : Prop :=
  ∀ json : SerdeJson, json.Lawful → ∀ sys : System, sys.Starts json →
    (∀ call, sys.Owes (.enter call) → '\n' ∉ call.path) →
    ∀ schedule, (sys.run json schedule).Finished → Agrees json (sys.run json schedule).shared

/-- They agree under every schedule that brings nothing back while its removal is owed. -/
theorem logs_agree_along (hjson : json.Lawful) {sys : System} (hstart : sys.Starts json)
    {schedule : List Nat} (hsafe : SafeSchedule json sys schedule)
    (hdone : (sys.run json schedule).Finished) : Agrees json (sys.run json schedule).shared :=
  (hstart.tracked.run hjson hsafe).agrees hdone

/-- An open branch with nothing in it. -/
noncomputable def emptyBranch : Branch where
  metadata := sampleMetadata
  tombstones := ∅
  touches := ∅
  files :=
    { BranchFiles.fresh with
      tombstones := some [], metadata := some (sampleJson.writeMetadata sampleMetadata) }

/-- `/d/x` is deleted and `/d` reverted, while somebody deletes another path. -/
noncomputable def racers (path : Text) : System where
  shared := { branch := emptyBranch, content := ∅ }
  threads :=
    [[.enter (.addTombstone "/d/x".toList),
      .enter (.removeTombstonesUnder ⟨Finset.toList, fun _ _ => Finset.mem_toList⟩ "/d".toList)],
     [.enter (.addTombstone path)]]

theorem racers_starts (path : Text) : (racers path).Starts sampleJson where
  durable :=
    { metadata := rfl
      tombstones := ⟨[], [], rfl, rfl, by simp, by simp, rfl⟩
      touches := ⟨[], rfl, rfl, by simp, rfl⟩
      safe := fun t ht => absurd ht (Finset.notMem_empty t) }
  content r hr := absurd hr (Finset.notMem_empty r)
  calls a ha := by
    simp only [System.Owes, racers, List.mem_cons, List.not_mem_nil, or_false, exists_eq_or_imp,
      exists_eq_left] at ha
    rcases ha with (rfl | rfl) | rfl <;> exact ⟨_, rfl⟩

/-- The branch with the deletion of `/d/x` in its log and not in its memory. -/
noncomputable def revertingBranch : Branch :=
  { emptyBranch with
    files := { emptyBranch.files with tombstonesLog := some "+ /d/x\n".toList } }

/-- The revert has let go of the lock and has not written its line yet. -/
theorem racers_reverting (path : Text) : (racers path).run sampleJson [0, 0] =
    { shared := { branch := revertingBranch, content := ∅ }
      threads := [[.logTombstoneRemoval "/d/x".toList], [.enter (.addTombstone path)]] } := by
  have hunder : pathIsSameOrDescendant "/d/x".toList "/d".toList = true := by decide
  have hadd : emptyBranch.addTombstone "/d/x".toList =
      { revertingBranch with tombstones := {"/d/x".toList} } := by
    have hnew : "/d/x".toList ∉ emptyBranch.tombstones := Finset.notMem_empty _
    rw [Branch.addTombstone, if_neg hnew]
    rfl
  simp only [System.run, List.foldl_cons, List.foldl_nil, System.step, racers,
    List.getElem?_cons_zero, act, enter, hadd, List.set_cons_zero, List.nil_append,
    Finset.toList_singleton, List.filter_cons, hunder, if_true, List.filter_nil, List.map_cons,
    List.map_nil, List.append_nil]
  have hout : ({"/d/x".toList} : Finset Text).filter (· ∉ ["/d/x".toList]) = ∅ := by decide
  rw [hout]
  rfl

/-- The two go together where the paths differ. -/
theorem logs_agree_elsewhere :
    Agrees sampleJson ((racers "/e".toList).run sampleJson [0, 0, 1, 0]).shared := by
  have hsplit : (racers "/e".toList).run sampleJson [0, 0, 1, 0] =
      ((racers "/e".toList).run sampleJson [0, 0]).run sampleJson [1, 0] := rfl
  have hsafe : SafeSchedule sampleJson (racers "/e".toList) [0, 0, 1, 0] := by
    refine ⟨Or.inr ⟨by decide, ?_⟩, trivial, ?_⟩
    · rintro ⟨thread, hthread, howed⟩
      simp only [racers, List.mem_cons, List.not_mem_nil, or_false] at hthread
      rcases hthread with rfl | rfl <;> simp at howed
    · show SafeSchedule sampleJson ((racers "/e".toList).run sampleJson [0, 0]) [1, 0]
      rw [racers_reverting]
      refine ⟨Or.inr ⟨by decide, ?_⟩, trivial, trivial⟩
      rintro ⟨thread, hthread, howed⟩
      simp only [List.mem_cons, List.not_mem_nil, or_false] at hthread
      rcases hthread with rfl | rfl
      · simp at howed
      · simp at howed
  refine logs_agree_along sampleJson_lawful (racers_starts _) hsafe ?_
  rw [hsplit, racers_reverting]
  intro thread hthread
  simpa [System.run, System.step, act, enter] using hthread

/-- The line of the revert comes after the new deletion's, and takes it back in the log alone. -/
theorem not_logsAgreeConcurrently : ¬ LogsAgreeConcurrently := by
  intro h
  have hsplit : (racers "/d/x".toList).run sampleJson [0, 0, 1, 0] =
      ((racers "/d/x".toList).run sampleJson [0, 0]).run sampleJson [1, 0] := rfl
  have hagrees := h sampleJson sampleJson_lawful (racers "/d/x".toList) (racers_starts _) ?_
    [0, 0, 1, 0] ?_
  · rw [hsplit, racers_reverting] at hagrees
    have hnew : "/d/x".toList ∉ revertingBranch.tombstones := Finset.notMem_empty _
    have hadded : revertingBranch.addTombstone "/d/x".toList =
        Branch.appendTombstoneOp '+' "/d/x".toList
          { revertingBranch with tombstones := insert "/d/x".toList ∅ } := by
      rw [Branch.addTombstone, if_neg hnew]
      rfl
    -- the memory holds the deletion, the log does not
    have hload := hagrees.1
    simp only [System.run, List.foldl_cons, List.foldl_nil, System.step, List.getElem?_cons_zero,
      List.getElem?_cons_succ, act, enter, hadded, List.set_cons_succ, List.set_cons_zero] at hload
    have hheld : "/d/x".toList ∈ (insert "/d/x".toList ∅ : Finset Text) :=
      Finset.mem_insert_self _ _
    have hlost : "/d/x".toList ∉ loadTombstones { BranchFiles.fresh with
        tombstones := some [], tombstonesLog := some "+ /d/x\n+ /d/x\n- /d/x\n".toList } := by
      decide
    apply hlost
    exact hload ▸ hheld
  · rintro call ⟨thread, hthread, howed⟩
    simp only [racers, List.mem_cons, List.not_mem_nil, or_false] at hthread
    rcases hthread with rfl | rfl
    · simp only [List.mem_cons, Action.enter.injEq, List.not_mem_nil, or_false] at howed
      rcases howed with rfl | rfl
      · decide
      · decide
    · simp only [List.mem_cons, Action.enter.injEq, List.not_mem_nil, or_false] at howed
      rw [howed]
      decide
  · rw [hsplit, racers_reverting]
    intro thread hthread
    simpa [System.run, System.step, act, enter] using hthread

end BranchFs.Store
