/-
# BranchFs.Mount.Numbers -- how long inode numbers stay apart

The inode table counts up from 2 in a `u64` and never goes back, so its two maps stay inverse and no
number goes to a second path for as long as the counter has not come round: exactly for the first
2^64 - 3 paths (`tables_sound_iff`).
-/
import BranchFs.Model.Numbers
import Mathlib.Data.Finset.Card

namespace BranchFs.Numbers

open BranchFs.Logic

/-! ## What the calls do to a lookup -/

namespace InodeManager

section Lookup

variable {t : InodeManager} {path p q : String} {ino i : UInt64} {isDir : Bool}

theorem getOrCreate_of_some (h : t.getIno path = some ino) : t.getOrCreate path isDir = (ino, t) := by
  unfold getIno at h
  unfold getOrCreate
  rw [h]

theorem nextIno_getOrCreate (h : t.getIno path = none) :
    (t.getOrCreate path isDir).2.nextIno = t.nextIno + 1 := by
  unfold getIno at h
  unfold getOrCreate
  rw [h]

theorem getIno_getOrCreate (h : t.getIno path = none) : (t.getOrCreate path isDir).2.getIno p =
    if p = path then some t.nextIno else t.getIno p := by
  unfold getIno at h
  unfold getOrCreate getIno
  rw [h]
  by_cases hp : p = path
  · rw [if_pos hp, hp]
    exact AList.lookup_insert _
  · rw [if_neg hp]
    exact AList.lookup_insert_ne hp

theorem getInfo_getOrCreate (h : t.getIno path = none) : (t.getOrCreate path isDir).2.getInfo i =
    if i = t.nextIno then some ⟨t.nextIno, path, isDir⟩ else t.getInfo i := by
  unfold getIno at h
  unfold getOrCreate getInfo
  rw [h]
  by_cases hi : i = t.nextIno
  · rw [if_pos hi, hi]
    exact AList.lookup_insert _
  · rw [if_neg hi]
    exact AList.lookup_insert_ne hi

theorem remove_of_none (h : t.getIno q = none) : t.remove q = t := by
  unfold getIno at h
  unfold remove
  rw [h]

theorem nextIno_remove (t : InodeManager) (q : String) : (t.remove q).nextIno = t.nextIno := by
  unfold remove
  split <;> rfl

theorem getIno_remove (t : InodeManager) (p q : String) :
    (t.remove q).getIno p = if p = q then none else t.getIno p := by
  cases hq : t.pathToIno.lookup q with
  | none =>
    rw [remove_of_none hq]
    split
    · next hp =>
      rw [hp]
      exact hq
    · rfl
  | some ino =>
    unfold remove getIno
    rw [hq]
    by_cases hp : p = q
    · rw [if_pos hp, hp]
      exact AList.lookup_erase ..
    · rw [if_neg hp]
      exact AList.lookup_erase_ne hp

theorem getInfo_remove (t : InodeManager) (q : String) (i : UInt64) :
    (t.remove q).getInfo i = if t.getIno q = some i then none else t.getInfo i := by
  cases hq : t.getIno q with
  | none =>
    rw [remove_of_none hq, if_neg (by simp)]
  | some ino =>
    unfold getIno at hq
    unfold remove getInfo
    rw [hq]
    by_cases hi : ino = i
    · rw [if_pos (by rw [hi]), hi]
      exact AList.lookup_erase ..
    · rw [if_neg (by simpa using hi)]
      exact AList.lookup_erase_ne (Ne.symm hi)

/-- Removing several paths. -/
theorem removes (qs : List String) (t : InodeManager) :
    (qs.foldl remove t).nextIno = t.nextIno ∧
      ∀ p, (qs.foldl remove t).getIno p = if p ∈ qs then none else t.getIno p := by
  induction qs generalizing t with
  | nil => exact ⟨rfl, fun p => by simp⟩
  | cons q qs ih =>
    obtain ⟨hnext, hget⟩ := ih (t.remove q)
    refine ⟨hnext.trans (nextIno_remove t q), fun p => ?_⟩
    rw [List.foldl_cons, hget, getIno_remove]
    by_cases hp : p = q <;> simp [hp]

theorem mem_matching {order : MapOrder} {pre : String} :
    p ∈ (order.iter t.pathToIno.keys).filter (startsWith · pre) ↔
      t.getIno p ≠ none ∧ startsWith p pre = true := by
  rw [List.mem_filter, (order.perm _).mem_iff, ← AList.mem_keys, ← AList.lookup_isSome,
    Option.isSome_iff_ne_none]
  rfl

theorem nextIno_clearPrefix (t : InodeManager) (order : MapOrder) (pre : String) :
    (t.clearPrefix order pre).nextIno = t.nextIno := (removes _ t).1

theorem getIno_clearPrefix (t : InodeManager) (order : MapOrder) (pre p : String) :
    (t.clearPrefix order pre).getIno p = if startsWith p pre = true then none else t.getIno p := by
  unfold clearPrefix
  rw [(removes _ t).2]
  by_cases hpre : startsWith p pre = true
  · rw [if_pos hpre]
    split
    · rfl
    · next hmem =>
      rw [mem_matching] at hmem
      by_contra hne
      exact hmem ⟨hne, hpre⟩
  · rw [if_neg hpre, if_neg fun hmem => hpre (mem_matching.mp hmem).2]

theorem getIno_clear (t : InodeManager) (p : String) :
    t.clear.getIno p = if p = rootPath then some rootIno else none := by
  unfold getIno clear
  by_cases hp : p = rootPath
  · rw [if_pos hp, hp]
    exact AList.lookup_insert _
  · rw [if_neg hp]
    exact AList.lookup_insert_ne hp

theorem getInfo_clear (t : InodeManager) (i : UInt64) :
    t.clear.getInfo i = if i = rootIno then some ⟨rootIno, rootPath, true⟩ else none := by
  unfold getInfo clear
  by_cases hi : i = rootIno
  · rw [if_pos hi, hi]
    exact AList.lookup_insert _
  · rw [if_neg hi]
    exact AList.lookup_insert_ne hi

end Lookup

end InodeManager

/-! ## How many numbers a run hands out -/

/-- The paths that have a number after a call. -/
def known (K : Finset String) : TableCall → Finset String
  | .getOrCreate path _ => insert path K
  | .remove path => K.erase path
  | .clearPrefix _ pre => K.filter fun p => startsWith p pre = false
  | .clear => {InodeManager.rootPath}

/-- The call asks for the number of a path that has none. -/
def asksNew (K : Finset String) : TableCall → Bool
  | .getOrCreate path _ => decide (path ∉ K)
  | _ => false

/-- The paths with a number, and how often one has been handed out. -/
def tally (s : Finset String × Nat) (c : TableCall) : Finset String × Nat :=
  (known s.1 c, if asksNew s.1 c then s.2 + 1 else s.2)

def tallied (calls : List TableCall) : Finset String × Nat := run tally ({InodeManager.rootPath}, 0) calls

/-- The number of calls that ask for the number of a path that has none at the time. -/
def handedOut (calls : List TableCall) : Nat := (tallied calls).2

section Tally

variable {calls before rest : List TableCall} {c : TableCall} {t : InodeManager} {K : Finset String}

theorem tableAfter_concat (calls : List TableCall) (c : TableCall) :
    tableAfter (calls ++ [c]) = (tableAfter calls).call c := run_concat ..

theorem tallied_concat (calls : List TableCall) (c : TableCall) :
    tallied (calls ++ [c]) = tally (tallied calls) c := run_concat ..

theorem handedOut_concat (calls : List TableCall) (c : TableCall) : handedOut (calls ++ [c]) =
    if asksNew (tallied calls).1 c then handedOut calls + 1 else handedOut calls := by
  unfold handedOut
  rw [tallied_concat]
  rfl

theorem handedOut_step (calls : List TableCall) (c : TableCall) :
    handedOut (calls ++ [c]) ≤ handedOut calls + 1 := by
  rw [handedOut_concat]
  split <;> omega

theorem handedOut_mono (calls rest : List TableCall) : handedOut calls ≤ handedOut (calls ++ rest) := by
  induction rest using List.reverseRecOn with
  | nil => rw [List.append_nil]
  | append_singleton rest c ih =>
    rw [← List.append_assoc, handedOut_concat]
    split <;> omega

/-- The paths of the table are the known ones after any call. -/
theorem known_call (h : ∀ p, p ∈ K ↔ t.getIno p ≠ none) (c : TableCall) (p : String) :
    p ∈ known K c ↔ (t.call c).getIno p ≠ none := by
  cases c with
  | getOrCreate path isDir =>
    show p ∈ insert path K ↔ (t.getOrCreate path isDir).2.getIno p ≠ none
    rw [Finset.mem_insert, h]
    cases hpath : t.getIno path with
    | some ino =>
      rw [InodeManager.getOrCreate_of_some hpath]
      constructor
      · rintro (rfl | hp)
        · simp [hpath]
        · exact hp
      · exact Or.inr
    | none =>
      rw [InodeManager.getIno_getOrCreate hpath]
      by_cases hp : p = path <;> simp [hp]
  | remove path =>
    show p ∈ K.erase path ↔ (t.remove path).getIno p ≠ none
    rw [Finset.mem_erase, h, InodeManager.getIno_remove]
    by_cases hp : p = path <;> simp [hp]
  | clearPrefix order pre =>
    show p ∈ K.filter _ ↔ (t.clearPrefix order pre).getIno p ≠ none
    rw [Finset.mem_filter, h, InodeManager.getIno_clearPrefix]
    by_cases hpre : startsWith p pre = true <;> simp [hpre]
  | clear =>
    show p ∈ {InodeManager.rootPath} ↔ t.clear.getIno p ≠ none
    rw [Finset.mem_singleton, InodeManager.getIno_clear]
    by_cases hp : p = InodeManager.rootPath <;> simp [hp]

/-- The counter moves when a new path is asked for. -/
theorem nextIno_call (h : ∀ p, p ∈ K ↔ t.getIno p ≠ none) (c : TableCall) :
    (t.call c).nextIno = if asksNew K c then t.nextIno + 1 else t.nextIno := by
  cases c with
  | getOrCreate path isDir =>
    show (t.getOrCreate path isDir).2.nextIno = _
    have hmem := h path
    cases hpath : t.getIno path with
    | some ino =>
      rw [InodeManager.getOrCreate_of_some hpath, if_neg]
      simp [asksNew, hmem, hpath]
    | none =>
      rw [InodeManager.nextIno_getOrCreate hpath, if_pos]
      simp [asksNew, hmem, hpath]
  | remove path => exact InodeManager.nextIno_remove t path
  | clearPrefix order pre => exact InodeManager.nextIno_clearPrefix t order pre
  | clear => rfl

theorem mem_tallied (calls : List TableCall) (p : String) :
    p ∈ (tallied calls).1 ↔ (tableAfter calls).getIno p ≠ none := by
  induction calls using List.reverseRecOn generalizing p with
  | nil =>
    show p ∈ {InodeManager.rootPath} ↔ InodeManager.new.clear.getIno p ≠ none
    rw [Finset.mem_singleton, InodeManager.getIno_clear]
    by_cases hp : p = InodeManager.rootPath <;> simp [hp]
  | append_singleton calls c ih =>
    rw [tallied_concat, tableAfter_concat]
    exact known_call ih c p

/-- **The counter counts what was handed out**, as far as it goes. -/
theorem nextIno_after (calls : List TableCall) :
    (tableAfter calls).nextIno = UInt64.ofNat (2 + handedOut calls) := by
  induction calls using List.reverseRecOn with
  | nil => rfl
  | append_singleton calls c ih =>
    rw [tableAfter_concat, nextIno_call (mem_tallied calls) c, handedOut_concat, ih]
    split
    · rw [← Nat.add_assoc, UInt64.ofNat_add (2 + handedOut calls) 1]
      rfl
    · rfl

end Tally

/-! ## The maps as long as the counter does not come round -/

/-- The two maps are inverse, the root has its number, and the counter is above every number. -/
structure Sound (t : InodeManager) : Prop where
  inverse : ∀ path ino, t.getIno path = some ino ↔ t.getPath ino = some path
  own : ∀ ino info, t.getInfo ino = some info → info.ino = ino
  root : t.getIno InodeManager.rootPath = some rootIno
  below : ∀ path ino, t.getIno path = some ino → ino.toNat < t.nextIno.toNat

/-- A call with other paths than the root, and a prefix that is not the root's. -/
def TableCall.SparesRoot : TableCall → Prop
  | .getOrCreate path _ => path ≠ InodeManager.rootPath
  | .remove path => path ≠ InodeManager.rootPath
  | .clearPrefix _ pre => pre ≠ "" ∧ pre ≠ InodeManager.rootPath
  | .clear => True

section Steps

variable {t t' : InodeManager} {path p q : String} {ino i : UInt64} {isDir : Bool}

theorem getPath_eq_some : t.getPath i = some p ↔ ∃ info, t.getInfo i = some info ∧ info.path = p :=
  Option.map_eq_some_iff

/-- Only the root's text and the empty one begin the root's text. -/
theorem rootPath_spared {pre : String} (h : pre ≠ "" ∧ pre ≠ InodeManager.rootPath) :
    startsWith InodeManager.rootPath pre = false := by
  rw [← Bool.not_eq_true]
  intro hpre
  have hle : pre.toList <+: ['/'] := List.isPrefixOf_iff_prefix.mp hpre
  rcases List.prefix_cons_iff.mp hle with hnil | ⟨rest, hcons, hrest⟩
  · exact h.1 (String.toList_inj.mp hnil)
  · apply h.2
    apply String.toList_inj.mp
    rw [hcons, List.prefix_nil.mp hrest]
    rfl

theorem Sound.create (h : Sound t) (hnew : t.getIno path = none)
    (hroom : t.nextIno.toNat + 1 < 2 ^ 64) : Sound (t.getOrCreate path isDir).2 := by
  have hnext : (t.getOrCreate path isDir).2.nextIno.toNat = t.nextIno.toNat + 1 := by
    rw [InodeManager.nextIno_getOrCreate hnew, UInt64.toNat_add]
    exact Nat.mod_eq_of_lt hroom
  constructor
  · intro p i
    rw [getPath_eq_some, InodeManager.getIno_getOrCreate hnew, InodeManager.getInfo_getOrCreate hnew]
    have hold := h.inverse p i
    rw [getPath_eq_some] at hold
    by_cases hi : i = t.nextIno
    · subst hi
      rw [if_pos rfl]
      have hfree : t.getIno p ≠ some t.nextIno := fun hp => Nat.lt_irrefl _ (h.below p _ hp)
      by_cases hp : p = path
      · simp [hp]
      · simp [hp, hfree, Ne.symm hp]
    · rw [if_neg hi, ← hold]
      by_cases hp : p = path
      · subst hp
        simp [hnew, Ne.symm hi]
      · rw [if_neg hp]
  · intro i info
    rw [InodeManager.getInfo_getOrCreate hnew]
    split
    · next hi =>
      intro hinfo
      rw [← Option.some.inj hinfo, hi]
    · exact h.own i info
  · rw [InodeManager.getIno_getOrCreate hnew, if_neg, h.root]
    intro heq
    rw [← heq, h.root] at hnew
    cases hnew
  · intro p i
    rw [InodeManager.getIno_getOrCreate hnew, hnext]
    split
    · intro hi
      rw [← Option.some.inj hi]
      omega
    · intro hi
      have hlt := h.below p i hi
      omega

theorem Sound.remove (h : Sound t) (hq : q ≠ InodeManager.rootPath) : Sound (t.remove q) := by
  constructor
  · intro p i
    rw [getPath_eq_some, InodeManager.getIno_remove, InodeManager.getInfo_remove]
    have hold := h.inverse p i
    have hgone := h.inverse q i
    rw [getPath_eq_some] at hold
    by_cases hi : t.getIno q = some i
    · rw [if_pos hi]
      -- the number of the removed path is no other path's
      have hother : p ≠ q → t.getIno p ≠ some i := by
        intro hne hp
        have hpath := (h.inverse p i).mp hp
        rw [hgone.mp hi] at hpath
        exact hne (Option.some.inj hpath).symm
      by_cases hp : p = q
      · simp [hp]
      · simp [hp, hother hp]
    · rw [if_neg hi, ← hold]
      by_cases hp : p = q
      · subst hp
        simp [hi]
      · rw [if_neg hp]
  · intro i info
    rw [InodeManager.getInfo_remove]
    split
    · intro hinfo
      cases hinfo
    · exact h.own i info
  · rw [InodeManager.getIno_remove, if_neg (Ne.symm hq), h.root]
  · intro p i
    rw [InodeManager.getIno_remove, InodeManager.nextIno_remove]
    split
    · intro hi
      cases hi
    · exact h.below p i

theorem Sound.removes (h : Sound t) {qs : List String} (hqs : InodeManager.rootPath ∉ qs) :
    Sound (qs.foldl InodeManager.remove t) := by
  induction qs generalizing t with
  | nil => exact h
  | cons q qs ih =>
    rw [List.mem_cons, not_or] at hqs
    exact ih (h.remove (Ne.symm hqs.1)) hqs.2

theorem sound_clear (h : rootIno.toNat < t.nextIno.toNat) : Sound t.clear := by
  constructor
  · intro p i
    rw [getPath_eq_some, InodeManager.getIno_clear, InodeManager.getInfo_clear]
    by_cases hi : i = rootIno
    · subst hi
      by_cases hp : p = InodeManager.rootPath <;> simp [hp, eq_comm]
    · by_cases hp : p = InodeManager.rootPath <;> simp [hp, hi, Ne.symm hi]
  · intro i info
    rw [InodeManager.getInfo_clear]
    split
    · next hi =>
      intro hinfo
      rw [← Option.some.inj hinfo, hi]
    · intro hinfo
      cases hinfo
  · rw [InodeManager.getIno_clear, if_pos rfl]
  · intro p i
    rw [InodeManager.getIno_clear]
    split
    · intro hi
      rw [← Option.some.inj hi]
      exact h
    · intro hi
      cases hi

theorem Sound.call (h : Sound t) {c : TableCall} (hc : c.SparesRoot)
    (hroom : ∀ path isDir, c = .getOrCreate path isDir → t.getIno path = none →
      t.nextIno.toNat + 1 < 2 ^ 64) : Sound (t.call c) := by
  cases c with
  | getOrCreate path isDir =>
    show Sound (t.getOrCreate path isDir).2
    cases hpath : t.getIno path with
    | some ino =>
      rw [InodeManager.getOrCreate_of_some hpath]
      exact h
    | none => exact h.create hpath (hroom path isDir rfl hpath)
  | remove q => exact h.remove hc
  | clearPrefix order pre =>
    refine h.removes fun hmem => ?_
    have hpre := (InodeManager.mem_matching.mp hmem).2
    rw [rootPath_spared hc] at hpre
    cases hpre
  | clear => exact sound_clear (h.below _ _ h.root)

/-- Between two states of a table: the counter has not gone back, and a number below the earlier counter is
still the path's that had it. -/
structure Later (t t' : InodeManager) : Prop where
  counter : t.nextIno.toNat ≤ t'.nextIno.toNat
  old : ∀ path ino, t'.getIno path = some ino → t.getIno path = some ino ∨ t.nextIno.toNat ≤ ino.toNat

theorem Later.call (h : Later t t') (ht : Sound t) {c : TableCall}
    (hroom : ∀ path isDir, c = .getOrCreate path isDir → t'.getIno path = none →
      t'.nextIno.toNat + 1 < 2 ^ 64) : Later t (t'.call c) := by
  have fewer : ∀ t'' : InodeManager, t''.nextIno = t'.nextIno →
      (∀ p i, t''.getIno p = some i → t'.getIno p = some i) → Later t t'' := by
    intro t'' hnext hless
    refine ⟨by rw [hnext]; exact h.counter, fun p i hi => h.old p i (hless p i hi)⟩
  cases c with
  | getOrCreate path isDir =>
    show Later t (t'.getOrCreate path isDir).2
    cases hpath : t'.getIno path with
    | some ino =>
      rw [InodeManager.getOrCreate_of_some hpath]
      exact h
    | none =>
      have hnext : (t'.getOrCreate path isDir).2.nextIno.toNat = t'.nextIno.toNat + 1 := by
        rw [InodeManager.nextIno_getOrCreate hpath, UInt64.toNat_add]
        exact Nat.mod_eq_of_lt (hroom path isDir rfl hpath)
      have hle := h.counter
      refine ⟨by omega, fun p i => ?_⟩
      rw [InodeManager.getIno_getOrCreate hpath]
      split
      · intro hi
        right
        rw [← Option.some.inj hi]
        exact hle
      · exact h.old p i
  | remove q =>
    refine fewer _ (InodeManager.nextIno_remove t' q) fun p i => ?_
    show (t'.remove q).getIno p = some i → _
    rw [InodeManager.getIno_remove]
    split
    · intro hi
      cases hi
    · exact id
  | clearPrefix order pre =>
    refine fewer _ (InodeManager.nextIno_clearPrefix t' order pre) fun p i => ?_
    show (t'.clearPrefix order pre).getIno p = some i → _
    rw [InodeManager.getIno_clearPrefix]
    split
    · intro hi
      cases hi
    · exact id
  | clear =>
    refine ⟨h.counter, fun p i => ?_⟩
    show t'.clear.getIno p = some i → _
    rw [InodeManager.getIno_clear]
    split
    · next hp =>
      intro hi
      left
      rw [hp, ht.root, hi]
    · intro hi
      cases hi

end Steps

/-! ## Runs -/

/-- What the table is relied on for, after a sequence of calls: the two maps are inverse, the root has
number 1, every number that was handed out is below the counter, and none has gone to a second path. -/
structure TablesSound (calls : List TableCall) : Prop where
  inverse : ∀ path ino, (tableAfter calls).getIno path = some ino ↔
    (tableAfter calls).getPath ino = some path
  own : ∀ ino info, (tableAfter calls).getInfo ino = some info → info.ino = ino
  root : (tableAfter calls).getIno InodeManager.rootPath = some rootIno
  below : ∀ before rest, calls = before ++ rest → ∀ path ino,
    (tableAfter before).getIno path = some ino → ino < (tableAfter calls).nextIno
  once : ∀ before rest, calls = before ++ rest → ∀ path path' ino,
    (tableAfter before).getIno path = some ino → (tableAfter calls).getIno path' = some ino → path' = path

section Runs

variable {calls before rest : List TableCall}

/-- What is left of the counter before a new path is asked for. -/
theorem room_of_count {c : TableCall} (h : handedOut (calls ++ [c]) ≤ 2 ^ 64 - 3) :
    ∀ path isDir, c = .getOrCreate path isDir → (tableAfter calls).getIno path = none →
      (tableAfter calls).nextIno.toNat + 1 < 2 ^ 64 := by
  rintro path isDir rfl hnew
  rw [handedOut_concat, if_pos] at h
  · rw [nextIno_after, UInt64.toNat_ofNat_of_lt' (by show 2 + handedOut calls < 2 ^ 64; omega)]
    omega
  · have hmem := mem_tallied calls path
    simp [asksNew, hmem, hnew]

theorem sound_after (hall : ∀ c ∈ calls, c.SparesRoot) (hcount : handedOut calls ≤ 2 ^ 64 - 3) :
    Sound (tableAfter calls) := by
  induction calls using List.reverseRecOn with
  | nil =>
    have hstart : Sound InodeManager.new.clear := sound_clear (by decide)
    exact hstart
  | append_singleton calls c ih =>
    have hle := handedOut_mono calls [c]
    rw [tableAfter_concat]
    have hbefore := ih (fun x hx => hall x (List.mem_append_left _ hx)) (by omega)
    exact hbefore.call (hall c (by simp)) (room_of_count hcount)

theorem later_after (hall : ∀ c ∈ before, c.SparesRoot) (hcount : handedOut (before ++ rest) ≤ 2 ^ 64 - 3) :
    Later (tableAfter before) (tableAfter (before ++ rest)) := by
  have hstart : handedOut before ≤ handedOut (before ++ rest) := handedOut_mono before rest
  have hsound : Sound (tableAfter before) := sound_after hall (by omega)
  induction rest using List.reverseRecOn with
  | nil =>
    rw [List.append_nil]
    exact ⟨le_refl _, fun _ _ hi => Or.inl hi⟩
  | append_singleton rest c ih =>
    rw [← List.append_assoc] at hcount ⊢
    have hle := handedOut_mono (before ++ rest) [c]
    rw [tableAfter_concat]
    exact (ih (by omega) (handedOut_mono before rest)).call hsound (room_of_count hcount)

/-- A call that adds to the count gives the next number to its path. -/
theorem number_given_of_step {c : TableCall} (h : handedOut (calls ++ [c]) = handedOut calls + 1) :
    ∃ path, (tableAfter (calls ++ [c])).getIno path = some (UInt64.ofNat (2 + handedOut calls)) := by
  have hnew : asksNew (tallied calls).1 c = true := by
    by_contra hno
    rw [handedOut_concat, if_neg hno] at h
    omega
  cases c with
  | getOrCreate path isDir =>
    have hfree : (tableAfter calls).getIno path = none := by
      have hmem := mem_tallied calls path
      by_contra hthere
      simp [asksNew, hmem, hthere] at hnew
    refine ⟨path, ?_⟩
    rw [tableAfter_concat]
    show ((tableAfter calls).getOrCreate path isDir).2.getIno path = _
    rw [InodeManager.getIno_getOrCreate hfree, if_pos rfl, nextIno_after]
  | remove q => cases hnew
  | clearPrefix order pre => cases hnew
  | clear => cases hnew

/-- Each number from 2 on is given to some path in turn. -/
theorem number_given {k : Nat} (h : k < handedOut calls) : ∃ before rest path, calls = before ++ rest ∧
    (tableAfter before).getIno path = some (UInt64.ofNat (2 + k)) := by
  obtain ⟨before, c, rest, rfl, hbefore, hnext⟩ :=
    exists_step_of_count (f := handedOut) rfl handedOut_step h
  obtain ⟨path, hpath⟩ := number_given_of_step (hnext.trans (congrArg (· + 1) hbefore).symm)
  rw [hbefore] at hpath
  exact ⟨before ++ [c], rest, path, by simp, hpath⟩

/-- Once the last number there is has been given, no counter is above it. -/
theorem not_sound_of_many (h : 2 ^ 64 - 3 < handedOut calls) : ¬ TablesSound calls := by
  intro hsound
  obtain ⟨before, rest, path, heq, hlast⟩ := number_given h
  have hlt := hsound.below before rest heq path _ hlast
  have hbound := (tableAfter calls).nextIno.toNat_lt
  rw [UInt64.lt_iff_toNat_lt, UInt64.toNat_ofNat_of_lt' (by decide)] at hlt
  omega

/-- **The inode table is sound for the first 2^64 - 3 paths**, and no longer. -/
theorem tables_sound_iff (hall : ∀ c ∈ calls, c.SparesRoot) :
    TablesSound calls ↔ handedOut calls ≤ 2 ^ 64 - 3 := by
  constructor
  · intro h
    by_contra hmany
    exact not_sound_of_many (not_le.mp hmany) h
  · intro hcount
    have hsound := sound_after hall hcount
    refine ⟨hsound.inverse, hsound.own, hsound.root, ?_, ?_⟩
    · rintro before rest rfl path ino hino
      have hlater := later_after (fun c hc => hall c (List.mem_append_left _ hc)) hcount
      have hmono := handedOut_mono before rest
      have hearlier : Sound (tableAfter before) :=
        sound_after (fun c hc => hall c (List.mem_append_left _ hc)) (by omega)
      have hlt := hearlier.below path ino hino
      have hle := hlater.counter
      exact UInt64.lt_iff_toNat_lt.mpr (by omega)
    · rintro before rest rfl path path' ino hino hino'
      have hlater := later_after (fun c hc => hall c (List.mem_append_left _ hc)) hcount
      have hmono := handedOut_mono before rest
      have hearlier : Sound (tableAfter before) :=
        sound_after (fun c hc => hall c (List.mem_append_left _ hc)) (by omega)
      rcases hlater.old path' ino hino' with hsame | hnew
      · have h₁ := (hearlier.inverse path' ino).mp hsame
        have h₂ := (hearlier.inverse path ino).mp hino
        rw [h₁] at h₂
        exact Option.some.inj h₂
      · have hlt := hearlier.below path ino hino
        omega

/-- The inode table's numbers are the root's and those from 2 on. -/
theorem getIno_range {path : String} {i : UInt64}
    (h : (tableAfter calls).getIno path = some i) :
    i = rootIno ∨ ∃ k < handedOut calls, i = UInt64.ofNat (2 + k) := by
  have start : ∀ p, InodeManager.new.clear.getIno p = some i → i = rootIno := by
    intro p
    rw [InodeManager.getIno_clear]
    split
    · intro hi
      exact (Option.some.inj hi).symm
    · intro hi
      cases hi
  induction calls using List.reverseRecOn generalizing path with
  | nil => exact Or.inl (start path h)
  | append_singleton calls c ih =>
    -- a number of the table before the call
    have old : ∀ p, (tableAfter calls).getIno p = some i →
        i = rootIno ∨ ∃ k < handedOut (calls ++ [c]), i = UInt64.ofNat (2 + k) := by
      intro p hp
      rcases ih hp with hroot | ⟨k, hk, hi⟩
      · exact Or.inl hroot
      · exact Or.inr ⟨k, lt_of_lt_of_le hk (handedOut_mono calls [c]), hi⟩
    rw [tableAfter_concat] at h
    cases c with
    | getOrCreate p isDir =>
      cases hp : (tableAfter calls).getIno p with
      | some ino =>
        refine old path ?_
        rw [← h]
        show _ = ((tableAfter calls).getOrCreate p isDir).2.getIno path
        rw [InodeManager.getOrCreate_of_some hp]
      | none =>
        replace h : ((tableAfter calls).getOrCreate p isDir).2.getIno path = some i := h
        rw [InodeManager.getIno_getOrCreate hp] at h
        split at h
        · right
          refine ⟨handedOut calls, ?_, ?_⟩
          · rw [handedOut_concat, if_pos]
            · exact Nat.lt_succ_self _
            · have hmem := mem_tallied calls p
              simp [asksNew, hmem, hp]
          · rw [← Option.some.inj h, nextIno_after]
        · exact old path h
    | remove q =>
      replace h : ((tableAfter calls).remove q).getIno path = some i := h
      rw [InodeManager.getIno_remove] at h
      split at h
      · cases h
      · exact old path h
    | clearPrefix order pre =>
      replace h : ((tableAfter calls).clearPrefix order pre).getIno path = some i := h
      rw [InodeManager.getIno_clearPrefix] at h
      split at h
      · cases h
      · exact old path h
    | clear => exact Or.inl (start path h)

end Runs

/-- The table is sound after every sequence of calls. -/
def TablesAlwaysSound : Prop :=
  ∀ calls : List TableCall, (∀ c ∈ calls, c.SparesRoot) → TablesSound calls

/-- One path, looked up and forgotten time and again. -/
def recycled (n : Nat) : List TableCall :=
  (List.replicate n [.getOrCreate "/a" false, .remove "/a"]).flatten

theorem recycled_tallied (n : Nat) : tallied (recycled n) = ({InodeManager.rootPath}, n) := by
  induction n with
  | zero => rfl
  | succ n ih =>
    have hsplit : recycled (n + 1) = recycled n ++ [.getOrCreate "/a" false] ++ [.remove "/a"] := by
      unfold recycled
      rw [List.replicate_succ', List.flatten_append]
      simp
    rw [hsplit, tallied_concat, tallied_concat, ih]
    show ((insert "/a" {InodeManager.rootPath} : Finset String).erase "/a", n + 1) = _
    rw [Finset.erase_insert (by decide)]

theorem recycled_spares (n : Nat) : ∀ c ∈ recycled n, c.SparesRoot := by
  intro c hc
  obtain ⟨l, hl, hcl⟩ := List.mem_flatten.mp hc
  rw [List.eq_of_mem_replicate hl] at hcl
  simp only [List.mem_cons, List.not_mem_nil, or_false] at hcl
  rcases hcl with rfl | rfl
  · show "/a" ≠ InodeManager.rootPath
    decide
  · show "/a" ≠ InodeManager.rootPath
    decide

theorem handedOut_recycled (n : Nat) : handedOut (recycled n) = n := by
  unfold handedOut
  rw [recycled_tallied]

/-- The counter comes round after 2^64 - 2 paths. -/
theorem not_tablesAlwaysSound : ¬ TablesAlwaysSound := by
  intro h
  -- the run is never written out, only counted
  obtain ⟨n, hn⟩ : ∃ n, 2 ^ 64 - 3 < n := ⟨_, Nat.lt_succ_self _⟩
  have hcount : 2 ^ 64 - 3 < handedOut (recycled n) := by
    rw [handedOut_recycled]
    exact hn
  exact not_sound_of_many hcount (h _ (recycled_spares n))

/-- A directory, what is in it, and the directory again after both have gone. -/
def fewCalls : List TableCall :=
  [.getOrCreate "/d" true, .getOrCreate "/d/x" false, .clearPrefix ⟨id, fun _ => List.Perm.refl _⟩ "/d",
    .getOrCreate "/d" true, .clear]

theorem fewCalls_sound : TablesSound fewCalls := by
  refine (tables_sound_iff ?_).mpr ?_
  · intro c hc
    simp only [fewCalls, List.mem_cons, List.not_mem_nil, or_false] at hc
    rcases hc with rfl | rfl | rfl | rfl | rfl
    · show "/d" ≠ InodeManager.rootPath
      decide
    · show "/d/x" ≠ InodeManager.rootPath
      decide
    · show "/d" ≠ "" ∧ "/d" ≠ InodeManager.rootPath
      decide
    · show "/d" ≠ InodeManager.rootPath
      decide
    · trivial
  · decide +kernel

end BranchFs.Numbers
