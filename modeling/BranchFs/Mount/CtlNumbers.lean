/-
# BranchFs.Mount.CtlNumbers -- the numbers of control files

The control files of branches have numbers of their own, from a million below the top of a `u64`. They count
up from there, although the comment at the counter has them go down, and the mount's own control file stands
in the way: the millionth branch gets its number. Up to then the numbers of control files are nobody else's,
unless the inode table has come up to the first of them (`ctl_apart_iff`).
-/
import BranchFs.Mount.Numbers

namespace BranchFs.Numbers

open BranchFs.Logic

/-- The branches whose control file a number is asked for. -/
def ctlBranches (calls : List NumberCall) : List String :=
  calls.filterMap fun
    | .ctl branch => some branch
    | .table _ => none

/-- The calls of the inode table. -/
def tableCalls (calls : List NumberCall) : List TableCall :=
  calls.filterMap fun
    | .table c => some c
    | .ctl _ => none

/-- The number of branches whose control file has been looked up. -/
def ctlCount (calls : List NumberCall) : Nat := (ctlBranches calls).toFinset.card

/-- The first number of a branch's control file. -/
def firstCtlIno : Nat := 2 ^ 64 - 1 - 1000000

/-- The numbers of control files of branches are nobody else's: not the mount's own control file's, not
the root's, not 0, none that the inode table has handed out, and no other branch's; so a write to a
control file is a command to its branch. -/
structure CtlApart (calls : List NumberCall) : Prop where
  reserved : ∀ branch ino, (numbersAfter calls).branchCtlInodes.lookup branch = some ino →
    ino ≠ ctlIno ∧ ino ≠ rootIno ∧ ino ≠ 0
  handed : ∀ before rest, calls = before ++ rest → ∀ branch path ino,
    (numbersAfter calls).branchCtlInodes.lookup branch = some ino →
    (numbersAfter before).inodes.getIno path ≠ some ino
  distinct : ∀ branch branch' ino, (numbersAfter calls).branchCtlInodes.lookup branch = some ino →
    (numbersAfter calls).branchCtlInodes.lookup branch' = some ino → branch' = branch
  command : ∀ order branch ino, (numbersAfter calls).branchCtlInodes.lookup branch = some ino →
    (numbersAfter calls).ctlFileOf order ino = some (.branch branch)

/-! ## The counter and the map -/

section Control

variable {calls before rest : List NumberCall} {c : NumberCall} {s : MountNumbers} {branch b b' : String}
  {ino i : UInt64}

theorem MountNumbers.call_ctl_of_some (h : s.branchCtlInodes.lookup branch = some ino) :
    s.call (.ctl branch) = s := by
  show (s.getOrCreateBranchCtlIno branch).2 = s
  unfold getOrCreateBranchCtlIno
  rw [h]

theorem MountNumbers.nextCtlIno_call_ctl (h : s.branchCtlInodes.lookup branch = none) :
    (s.call (.ctl branch)).nextCtlIno = s.nextCtlIno + 1 := by
  show (s.getOrCreateBranchCtlIno branch).2.nextCtlIno = _
  unfold getOrCreateBranchCtlIno
  rw [h]

theorem MountNumbers.lookup_call_ctl (h : s.branchCtlInodes.lookup branch = none) :
    (s.call (.ctl branch)).branchCtlInodes.lookup b =
      if b = branch then some s.nextCtlIno else s.branchCtlInodes.lookup b := by
  show (s.getOrCreateBranchCtlIno branch).2.branchCtlInodes.lookup b = _
  unfold getOrCreateBranchCtlIno
  rw [h]
  by_cases hb : b = branch
  · rw [if_pos hb, hb]
    exact AList.lookup_insert _
  · rw [if_neg hb]
    exact AList.lookup_insert_ne hb

theorem MountNumbers.inodes_call_ctl (s : MountNumbers) (branch : String) :
    (s.call (.ctl branch)).inodes = s.inodes := by
  show (s.getOrCreateBranchCtlIno branch).2.inodes = _
  unfold getOrCreateBranchCtlIno
  split <;> rfl

theorem numbersAfter_concat (calls : List NumberCall) (c : NumberCall) :
    numbersAfter (calls ++ [c]) = (numbersAfter calls).call c := run_concat ..

theorem tableCalls_append (before rest : List NumberCall) :
    tableCalls (before ++ rest) = tableCalls before ++ tableCalls rest := List.filterMap_append

/-- The inode table sees its own calls. -/
theorem inodes_after (calls : List NumberCall) :
    (numbersAfter calls).inodes = tableAfter (tableCalls calls) := by
  induction calls using List.reverseRecOn with
  | nil => rfl
  | append_singleton calls c ih =>
    rw [numbersAfter_concat, tableCalls_append]
    cases c with
    | table c =>
      show (numbersAfter calls).inodes.call c = tableAfter (tableCalls calls ++ [c])
      rw [tableAfter_concat, ih]
    | ctl branch =>
      show _ = tableAfter (tableCalls calls ++ [])
      rw [MountNumbers.inodes_call_ctl, ih, List.append_nil]

theorem ctlBranches_table (calls : List NumberCall) (c : TableCall) :
    ctlBranches (calls ++ [.table c]) = ctlBranches calls := by
  unfold ctlBranches
  simp

theorem ctlBranches_ctl (calls : List NumberCall) (branch : String) :
    ctlBranches (calls ++ [.ctl branch]) = ctlBranches calls ++ [branch] := by
  unfold ctlBranches
  simp

/-- The branches that have a number are the ones it was asked for. -/
theorem lookup_after_ne_none (calls : List NumberCall) (b : String) :
    (numbersAfter calls).branchCtlInodes.lookup b ≠ none ↔ b ∈ ctlBranches calls := by
  induction calls using List.reverseRecOn with
  | nil =>
    show (∅ : AList fun _ : String => UInt64).lookup b ≠ none ↔ b ∈ []
    simp
  | append_singleton calls c ih =>
    rw [numbersAfter_concat]
    cases c with
    | table c =>
      rw [ctlBranches_table]
      exact ih
    | ctl branch =>
      rw [ctlBranches_ctl, List.mem_append, List.mem_singleton, ← ih]
      cases hlook : (numbersAfter calls).branchCtlInodes.lookup branch with
      | some ino =>
        rw [MountNumbers.call_ctl_of_some hlook]
        constructor
        · exact Or.inl
        · rintro (hb | rfl)
          · exact hb
          · simp [hlook]
      | none =>
        rw [MountNumbers.lookup_call_ctl hlook]
        by_cases hb : b = branch <;> simp [hb]

theorem ctlCount_ctl (calls : List NumberCall) (branch : String) : ctlCount (calls ++ [.ctl branch]) =
    if (numbersAfter calls).branchCtlInodes.lookup branch = none then ctlCount calls + 1
    else ctlCount calls := by
  have hmem := lookup_after_ne_none calls branch
  unfold ctlCount
  rw [ctlBranches_ctl, List.toFinset_append]
  split
  · next hnone =>
    have hfresh : branch ∉ (ctlBranches calls).toFinset := by
      rw [List.mem_toFinset, ← hmem]
      exact fun hsome => hsome hnone
    rw [Finset.union_comm]
    exact Finset.card_insert_of_notMem hfresh
  · next hsome =>
    have hold : branch ∈ (ctlBranches calls).toFinset := List.mem_toFinset.mpr (hmem.mp hsome)
    congr 1
    exact Finset.union_eq_left.mpr (by simpa using hold)

theorem ctlCount_table (calls : List NumberCall) (c : TableCall) :
    ctlCount (calls ++ [.table c]) = ctlCount calls := by
  unfold ctlCount
  rw [ctlBranches_table]

theorem ctlCount_step (calls : List NumberCall) (c : NumberCall) :
    ctlCount (calls ++ [c]) ≤ ctlCount calls + 1 := by
  cases c with
  | table c =>
    rw [ctlCount_table]
    omega
  | ctl branch =>
    rw [ctlCount_ctl]
    split <;> omega

theorem ctlCount_mono (calls rest : List NumberCall) : ctlCount calls ≤ ctlCount (calls ++ rest) := by
  apply Finset.card_le_card
  intro b hb
  rw [List.mem_toFinset] at hb ⊢
  unfold ctlBranches at hb ⊢
  rw [List.filterMap_append]
  exact List.mem_append_left _ hb

/-- **The counter of control files goes up.** -/
theorem nextCtlIno_after (calls : List NumberCall) :
    (numbersAfter calls).nextCtlIno = UInt64.ofNat (firstCtlIno + ctlCount calls) := by
  induction calls using List.reverseRecOn with
  | nil => rfl
  | append_singleton calls c ih =>
    rw [numbersAfter_concat]
    cases c with
    | table c =>
      rw [ctlCount_table]
      exact ih
    | ctl branch =>
      rw [ctlCount_ctl]
      split
      · next hnone =>
        rw [MountNumbers.nextCtlIno_call_ctl hnone, ih, ← Nat.add_assoc,
          UInt64.ofNat_add (firstCtlIno + ctlCount calls) 1]
        rfl
      · next hsome =>
        obtain ⟨ino, hino⟩ := Option.ne_none_iff_exists'.mp hsome
        rw [MountNumbers.call_ctl_of_some hino, ih]

/-- A branch keeps its number. -/
theorem lookup_kept (rest : List NumberCall) (h : (numbersAfter before).branchCtlInodes.lookup b = some i) :
    (numbersAfter (before ++ rest)).branchCtlInodes.lookup b = some i := by
  induction rest using List.reverseRecOn with
  | nil =>
    rw [List.append_nil]
    exact h
  | append_singleton rest c ih =>
    rw [← List.append_assoc, numbersAfter_concat]
    cases c with
    | table c => exact ih
    | ctl branch =>
      cases hlook : (numbersAfter (before ++ rest)).branchCtlInodes.lookup branch with
      | some ino =>
        rw [MountNumbers.call_ctl_of_some hlook]
        exact ih
      | none =>
        rw [MountNumbers.lookup_call_ctl hlook, if_neg, ih]
        rintro rfl
        rw [hlook] at ih
        cases ih

/-- Each number from the first on is given to some branch in turn. -/
theorem ctl_given {k : Nat} (h : k < ctlCount calls) : ∃ branch,
    (numbersAfter calls).branchCtlInodes.lookup branch = some (UInt64.ofNat (firstCtlIno + k)) := by
  obtain ⟨before, c, rest, rfl, hbefore, hnext⟩ :=
    exists_step_of_count (f := ctlCount) rfl ctlCount_step h
  cases c with
  | table c =>
    rw [ctlCount_table] at hnext
    omega
  | ctl branch =>
    rw [ctlCount_ctl] at hnext
    split at hnext
    · next hnone =>
      refine ⟨branch, ?_⟩
      rw [List.append_cons]
      apply lookup_kept
      rw [numbersAfter_concat, MountNumbers.lookup_call_ctl hnone, if_pos rfl, nextCtlIno_after, hbefore]
    · omega

/-! ## As long as the counter has room -/

/-- The numbers of control files lie between the first and the counter, one for each branch. -/
structure CtlSound (s : MountNumbers) : Prop where
  range : ∀ branch ino, s.branchCtlInodes.lookup branch = some ino →
    firstCtlIno ≤ ino.toNat ∧ ino.toNat < s.nextCtlIno.toNat
  distinct : ∀ branch branch' ino, s.branchCtlInodes.lookup branch = some ino →
    s.branchCtlInodes.lookup branch' = some ino → branch' = branch

theorem CtlSound.ctl (h : CtlSound s) (hnew : s.branchCtlInodes.lookup branch = none)
    (hfirst : firstCtlIno ≤ s.nextCtlIno.toNat) (hroom : s.nextCtlIno.toNat + 1 < 2 ^ 64) :
    CtlSound (s.call (.ctl branch)) := by
  have hnext : (s.call (.ctl branch)).nextCtlIno.toNat = s.nextCtlIno.toNat + 1 := by
    rw [MountNumbers.nextCtlIno_call_ctl hnew, UInt64.toNat_add]
    exact Nat.mod_eq_of_lt hroom
  -- the counter is nobody's number yet
  have hfree : ∀ b, s.branchCtlInodes.lookup b ≠ some s.nextCtlIno := by
    intro b hb
    have hlt := (h.range b _ hb).2
    omega
  constructor
  · intro b i
    rw [MountNumbers.lookup_call_ctl hnew, hnext]
    split
    · intro hi
      rw [← Option.some.inj hi]
      omega
    · intro hi
      have hrange := h.range b i hi
      omega
  · intro b b' i
    rw [MountNumbers.lookup_call_ctl hnew, MountNumbers.lookup_call_ctl hnew]
    split
    · next hb =>
      intro hi
      rw [← Option.some.inj hi]
      split
      · next hb' =>
        intro _
        rw [hb, hb']
      · intro hi'
        exact absurd hi' (hfree b')
    · intro hi
      split
      · intro hi'
        rw [← Option.some.inj hi'] at hi
        exact absurd hi (hfree b)
      · exact h.distinct b b' i hi

theorem ctlSound_after (h : ctlCount calls ≤ 1000000) : CtlSound (numbersAfter calls) := by
  induction calls using List.reverseRecOn with
  | nil => constructor <;> (intros; rename_i hi; cases hi)
  | append_singleton calls c ih =>
    have hle := ctlCount_mono calls [c]
    have hbefore := ih (by omega)
    rw [numbersAfter_concat]
    cases c with
    | table c => exact ⟨hbefore.range, hbefore.distinct⟩
    | ctl branch =>
      rw [ctlCount_ctl] at h
      cases hlook : (numbersAfter calls).branchCtlInodes.lookup branch with
      | some ino =>
        rw [MountNumbers.call_ctl_of_some hlook]
        exact hbefore
      | none =>
        rw [if_pos hlook] at h
        have hfirst : firstCtlIno = 2 ^ 64 - 1 - 1000000 := rfl
        have hnext : (numbersAfter calls).nextCtlIno.toNat = firstCtlIno + ctlCount calls := by
          rw [nextCtlIno_after]
          exact UInt64.toNat_ofNat_of_lt' (by show _ < 2 ^ 64; omega)
        exact hbefore.ctl hlook (by omega) (by omega)

/-- A write to a branch's control file reaches the branch when no other has its number. -/
theorem MountNumbers.ctlFileOf_eq (order : MapOrder) (hne : ino ≠ ctlIno)
    (hlook : s.branchCtlInodes.lookup branch = some ino)
    (hdistinct : ∀ b, s.branchCtlInodes.lookup b = some ino → b = branch) :
    s.ctlFileOf order ino = some (.branch branch) := by
  have hfound : s.branchForCtlIno order ino = some branch := by
    unfold branchForCtlIno
    cases hfind : (order.iter s.branchCtlInodes.keys).find?
        fun name => s.branchCtlInodes.lookup name == some ino with
    | some b =>
      have hb := List.find?_some hfind
      rw [hdistinct b (by simpa using hb)]
    | none =>
      have hmem : branch ∈ order.iter s.branchCtlInodes.keys := by
        rw [(order.perm _).mem_iff, ← AList.mem_keys, ← AList.lookup_isSome, hlook]
        rfl
      have hno := List.find?_eq_none.mp hfind branch hmem
      rw [hlook] at hno
      simp at hno
  unfold ctlFileOf
  rw [if_neg hne, hfound]
  rfl

theorem tableCount_step (calls : List NumberCall) (c : NumberCall) :
    handedOut (tableCalls (calls ++ [c])) ≤ handedOut (tableCalls calls) + 1 := by
  rw [tableCalls_append]
  cases c with
  | table c => exact handedOut_step (tableCalls calls) c
  | ctl branch =>
    show handedOut (tableCalls calls ++ []) ≤ _
    rw [List.append_nil]
    omega

/-- Each number from 2 on is given by the inode table at some point of the run. -/
theorem table_number_given {k : Nat} (h : k < handedOut (tableCalls calls)) :
    ∃ before rest path, calls = before ++ rest ∧
      (numbersAfter before).inodes.getIno path = some (UInt64.ofNat (2 + k)) := by
  obtain ⟨before, c, rest, rfl, hbefore, hnext⟩ :=
    exists_step_of_count (f := fun calls => handedOut (tableCalls calls)) rfl tableCount_step h
  rw [tableCalls_append] at hnext
  cases c with
  | table c =>
    replace hnext : handedOut (tableCalls before ++ [c]) = k + 1 := hnext
    obtain ⟨path, hpath⟩ := number_given_of_step (hnext.trans (congrArg (· + 1) hbefore).symm)
    refine ⟨before ++ [.table c], rest, path, by simp, ?_⟩
    rw [inodes_after, tableCalls_append, ← hbefore]
    exact hpath
  | ctl branch =>
    replace hnext : handedOut (tableCalls before ++ []) = k + 1 := hnext
    rw [List.append_nil] at hnext
    omega

/-- **The control files of branches keep their numbers to themselves** up to the millionth branch, which
gets the number of the mount's own control file, and until the inode table has come up to the first of
them. -/
theorem ctl_apart_iff (calls : List NumberCall) : CtlApart calls ↔ ctlCount calls = 0 ∨
    (ctlCount calls ≤ 999999 ∧ handedOut (tableCalls calls) + 1 < firstCtlIno) := by
  have hfirst : firstCtlIno = 2 ^ 64 - 1 - 1000000 := rfl
  constructor
  · intro h
    by_contra hno
    rw [not_or, not_and_or, not_le, not_lt] at hno
    obtain ⟨hsome, hmany | hreached⟩ := hno
    · obtain ⟨branch, hbranch⟩ := ctl_given hmany
      exact (h.reserved branch _ hbranch).1 (by decide)
    · -- the table has given the first branch's number
      obtain ⟨branch, hbranch⟩ := ctl_given (Nat.pos_of_ne_zero hsome)
      have hk : firstCtlIno - 2 < handedOut (tableCalls calls) := by omega
      obtain ⟨before, rest, path, heq, hpath⟩ := table_number_given hk
      exact h.handed before rest heq branch path _ hbranch hpath
  · rintro (hnone | ⟨hfew, hbelow⟩)
    · have hempty : ∀ b i, (numbersAfter calls).branchCtlInodes.lookup b ≠ some i := by
        intro b i hi
        have hmem := (lookup_after_ne_none calls b).mp (by rw [hi]; exact Option.some_ne_none i)
        rw [← List.mem_toFinset, Finset.card_eq_zero.mp hnone] at hmem
        cases hmem
      constructor
      · exact fun b i hi => absurd hi (hempty b i)
      · exact fun _ _ _ b _ i hi => absurd hi (hempty b i)
      · exact fun b _ i hi => absurd hi (hempty b i)
      · exact fun _ b i hi => absurd hi (hempty b i)
    · have hle : ctlCount calls ≤ 1000000 := by omega
      have hsound := ctlSound_after hle
      have hnext : (numbersAfter calls).nextCtlIno.toNat = firstCtlIno + ctlCount calls := by
        rw [nextCtlIno_after]
        exact UInt64.toNat_ofNat_of_lt' (by show _ < 2 ^ 64; omega)
      have hreserved : ∀ b i, (numbersAfter calls).branchCtlInodes.lookup b = some i →
          i ≠ ctlIno ∧ i ≠ rootIno ∧ i ≠ 0 := by
        intro b i hi
        have hrange := hsound.range b i hi
        have hctl : ctlIno.toNat = 2 ^ 64 - 2 := rfl
        have hroot : rootIno.toNat = 1 := rfl
        have hzero : (0 : UInt64).toNat = 0 := rfl
        refine ⟨?_, ?_, ?_⟩
        · rintro rfl
          omega
        · rintro rfl
          omega
        · rintro rfl
          omega
      refine ⟨hreserved, ?_, hsound.distinct, ?_⟩
      · rintro before rest rfl branch path ino hino hpath
        have hrange := hsound.range branch ino hino
        rw [inodes_after] at hpath
        rw [tableCalls_append] at hbelow
        have hmono := handedOut_mono (tableCalls before) (tableCalls rest)
        rcases getIno_range hpath with hroot | ⟨k, hk, hnum⟩
        · exact (hreserved branch ino hino).2.1 hroot
        · rw [hnum, UInt64.toNat_ofNat_of_lt' (by show _ < 2 ^ 64; omega)] at hrange
          omega
      · intro order branch ino hino
        refine MountNumbers.ctlFileOf_eq order (hreserved branch ino hino).1 hino ?_
        intro b hb
        exact hsound.distinct branch b ino hino hb

/-! ## The millionth branch -/

/-- No control file of a branch shares its number, however many have been looked up. -/
def CtlAlwaysApart : Prop := ∀ calls, CtlApart calls

/-- The control files of that many branches. -/
def manyBranches (n : Nat) : List NumberCall :=
  (List.range n).map fun i => .ctl (String.ofList (List.replicate (i + 1) 'b'))

theorem ctlCount_manyBranches (n : Nat) : ctlCount (manyBranches n) = n := by
  have hnames : ctlBranches (manyBranches n) =
      (List.range n).map fun i => String.ofList (List.replicate (i + 1) 'b') := by
    unfold ctlBranches manyBranches
    rw [List.filterMap_map]
    exact congrFun List.filterMap_eq_map' _
  have hdistinct : (ctlBranches (manyBranches n)).Nodup := by
    rw [hnames]
    refine List.Nodup.map ?_ List.nodup_range
    intro i j hij
    have hlen := congrArg (fun t => t.toList.length) hij
    simpa using hlen
  unfold ctlCount
  rw [List.toFinset_card_of_nodup hdistinct, hnames, List.length_map, List.length_range]

/-- The millionth branch shares the number of the mount's own control file. -/
theorem not_ctlAlwaysApart : ¬ CtlAlwaysApart := by
  intro h
  -- the run is never written out, only counted
  obtain ⟨n, hn⟩ : ∃ n, n = 1000000 := ⟨_, rfl⟩
  have hcount := ctlCount_manyBranches n
  have hlt : 999999 < ctlCount (manyBranches n) := by omega
  obtain ⟨branch, hbranch⟩ := ctl_given hlt
  exact ((h (manyBranches n)).reserved branch _ hbranch).1 (by decide)

end Control

end BranchFs.Numbers
