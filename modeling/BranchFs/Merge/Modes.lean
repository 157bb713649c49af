/-
# BranchFs.Merge.Modes -- which modes a merge changes, and which it puts back

A guard gives a directory the owner's bits it lacks and is to take them away again. `stage_copy` guards
every directory above its source, from `/` down, also those above the branch's store, and drops the guards in
the same order: a directory that was not searchable is closed again before the ones below it, whose modes
can then no longer be set. So the modes come back exactly when no guarded directory lies below one that
was not searchable, and the guards stay inside the branch exactly when the directories above its files have
their owner's bits (`merge_tidy_iff`).

What a call can do to modes is said once, by `Opened`: some directories get their owner's bits.
-/
import BranchFs.Model.Modes
import BranchFs.Posix.Attr
import Mathlib.Data.List.Nodup

namespace BranchFs.Modes

open BranchFs.Posix BranchFs.Logic

/-! ## Owner's bits -/

theorem ownerRwx_or (mode : Nat) : ownerRwx (mode ||| 0o700) = true := by
  unfold ownerRwx
  rw [beq_iff_eq]
  apply Nat.eq_of_testBit_eq
  intro i
  rw [Nat.testBit_and, Nat.testBit_or]
  cases mode.testBit i <;> cases Nat.testBit 0o700 i <;> rfl

theorem ownerSearch_of_rwx {mode : Nat} (h : ownerRwx mode = true) : ownerSearch mode = true := by
  unfold ownerRwx at h
  unfold ownerSearch
  rw [beq_iff_eq] at h ⊢
  have hbits : (0o100 : Nat) = 0o700 &&& 0o100 := rfl
  rw [hbits, ← Nat.and_assoc, h]

theorem ne_or_of_lacks {mode : Nat} (h : ownerRwx mode = false) : mode ||| 0o700 ≠ mode := by
  intro heq
  have hall := ownerRwx_or mode
  rw [heq, h] at hall
  cases hall

/-! ## Setting one mode -/

namespace Host

variable {h : Host} {l r : HostPath} {m : Nat}

/-- A directory without all of its owner's bits. -/
def Lacks (h : Host) (l : HostPath) : Prop :=
  h.disk.kindAt l = some .dir ∧ ownerRwx (h.mode l) = false

instance (h : Host) (l : HostPath) : Decidable (h.Lacks l) :=
  inferInstanceAs (Decidable (_ ∧ _))

theorem node_of_ne (h : Host) (hl : l ≠ hostPath []) : h.node l = h.disk.get l := if_neg hl

theorem node_kind (h : Host) (l : HostPath) : (h.node l).map Node.kind = h.disk.kindAt l := by
  by_cases hl : l = hostPath []
  · subst hl
    rw [Disk.kindAt_root _ rfl]
    rfl
  · rw [node_of_ne h hl]
    rfl

theorem exists_node {k : Kind String} (hk : h.disk.kindAt l = some k) :
    ∃ n, h.node l = some n ∧ n.kind = k ∧ n.mode = h.mode l := by
  rw [← node_kind] at hk
  obtain ⟨n, hn, hkind⟩ := Option.map_eq_some_iff.mp hk
  refine ⟨n, hn, hkind, ?_⟩
  unfold mode
  rw [hn]
  rfl

theorem kindAt_setMode (h : Host) (r : HostPath) (m : Nat) (l : HostPath) :
    (h.setMode r m).disk.kindAt l = h.disk.kindAt l := by
  unfold setMode
  split
  · rfl
  · exact Disk.kindAt_modify h.disk r (fun n => { n with mode := m }) (fun _ => rfl) l

theorem chmods_setMode (h : Host) (r : HostPath) (m : Nat) : (h.setMode r m).chmods = h.chmods := by
  unfold setMode
  split <;> rfl

theorem mode_setMode_ne (hl : l ≠ r) : (h.setMode r m).mode l = h.mode l := by
  unfold mode
  congr 2
  by_cases hroot : r = hostPath []
  · have hne : l ≠ hostPath [] := by
      rw [← hroot]
      exact hl
    rw [node_of_ne _ hne, node_of_ne _ hne, setMode, if_pos hroot]
  · rw [setMode, if_neg hroot]
    unfold node
    rw [Disk.get_tick, Disk.get_modify_ne _ _ hl]

/-- The directory has the mode it was given; the roots that have no entry are `/` and none else. -/
theorem mode_setMode (hk : h.disk.kindAt r ≠ none) (hr : r = hostPath [] ∨ r.path ≠ []) :
    (h.setMode r m).mode r = m := by
  unfold setMode mode node
  split
  · rfl
  · next hne =>
    have hpath : r.path ≠ [] := hr.resolve_left hne
    have hsame : ∀ n : Node String, h.disk.get r = some n →
        ({ n with mode := m } : Node String).kind.isDir = n.kind.isDir := fun _ _ => rfl
    rw [Disk.get_tick, Disk.get_modify h.disk r _ r hpath hsame, if_pos rfl]
    obtain ⟨n, hn⟩ := Option.ne_none_iff_exists'.mp fun hnone => hk ((Disk.get_none_iff _ _).mp hnone)
    rw [hn]
    rfl

/-- A directory that lacks bits is `/` or an entry. -/
theorem Lacks.entry (hl : h.Lacks r) : r = hostPath [] ∨ r.path ≠ [] := by
  by_contra hno
  rw [not_or, not_not] at hno
  have hmode := hl.2
  unfold mode at hmode
  rw [node_of_ne h hno.1, Disk.get_root _ hno.2] at hmode
  revert hmode
  decide

theorem statAt_dir (hs : h.searchable r = true) (hk : h.disk.kindAt r = some .dir) :
    ∃ n, h.statAt r = .ok n ∧ n.kind = .dir ∧ n.mode = h.mode r := by
  obtain ⟨n, hn, hkind, hmode⟩ := exists_node hk
  refine ⟨n, ?_, hkind, hmode⟩
  unfold statAt
  rw [if_pos hs, hn]

end Host

/-! ## Directories that were given their owner's bits -/

/-- Between two hosts: the directories of `P` that lacked bits of their owner's have them, by one
`set_permissions` each, and no other mode is another. -/
structure Opened (P : HostPath → Prop) (h h' : Host) : Prop where
  kind : ∀ l, h'.disk.kindAt l = h.disk.kindAt l
  given : ∀ l, P l → h.Lacks l → h'.mode l = h.mode l ||| 0o700
  same : ∀ l, ¬ (P l ∧ h.Lacks l) → h'.mode l = h.mode l
  chmods : ∃ calls, h'.chmods = h.chmods ++ calls ∧ ∀ l, l ∈ calls ↔ P l ∧ h.Lacks l

namespace Opened

variable {P Q : HostPath → Prop} {h h' h'' : Host} {l : HostPath}

theorem refl (hP : ∀ l, P l → ¬ h.Lacks l) : Opened P h h where
  kind := fun _ => rfl
  given := fun l hl hlacks => absurd hlacks (hP l hl)
  same := fun _ _ => rfl
  chmods := ⟨[], by simp, fun l => by simpa using hP l⟩

theorem congr (ho : Opened P h h') (hPQ : ∀ l, h.Lacks l → (P l ↔ Q l)) : Opened Q h h' where
  kind := ho.kind
  given := fun l hl hlacks => ho.given l ((hPQ l hlacks).mpr hl) hlacks
  same := fun l hl => ho.same l fun hP => hl ⟨(hPQ l hP.2).mp hP.1, hP.2⟩
  chmods := by
    obtain ⟨calls, heq, hmem⟩ := ho.chmods
    refine ⟨calls, heq, fun l => (hmem l).trans ?_⟩
    constructor
    · rintro ⟨hl, hlacks⟩
      exact ⟨(hPQ l hlacks).mp hl, hlacks⟩
    · rintro ⟨hl, hlacks⟩
      exact ⟨(hPQ l hlacks).mpr hl, hlacks⟩

/-- What still lacks bits is outside. -/
theorem lacks_iff (ho : Opened P h h') (l : HostPath) : h'.Lacks l ↔ h.Lacks l ∧ ¬ P l := by
  unfold Host.Lacks
  rw [ho.kind]
  constructor
  · rintro ⟨hk, hmode⟩
    by_cases hc : P l ∧ h.Lacks l
    · rw [ho.given l hc.1 hc.2, ownerRwx_or] at hmode
      cases hmode
    · rw [ho.same l hc] at hmode
      exact ⟨⟨hk, hmode⟩, fun hP => hc ⟨hP, hk, hmode⟩⟩
  · rintro ⟨⟨hk, hmode⟩, hP⟩
    rw [ho.same l fun hc => hP hc.1]
    exact ⟨hk, hmode⟩

theorem trans (ho : Opened P h h') (ho' : Opened Q h' h'') : Opened (fun l => P l ∨ Q l) h h'' where
  kind := fun l => (ho'.kind l).trans (ho.kind l)
  given := by
    intro l hPQ hlacks
    by_cases hP : P l
    · have hdone : ¬ (Q l ∧ h'.Lacks l) := fun hc => ((ho.lacks_iff l).mp hc.2).2 hP
      rw [ho'.same l hdone, ho.given l hP hlacks]
    · have hleft : h'.Lacks l := (ho.lacks_iff l).mpr ⟨hlacks, hP⟩
      rw [ho'.given l (hPQ.resolve_left hP) hleft, ho.same l fun hc => hP hc.1]
  same := by
    intro l hno
    have hQ : ¬ (Q l ∧ h'.Lacks l) := fun hc => hno ⟨Or.inr hc.1, ((ho.lacks_iff l).mp hc.2).1⟩
    rw [ho'.same l hQ, ho.same l fun hc => hno ⟨Or.inl hc.1, hc.2⟩]
  chmods := by
    obtain ⟨calls, heq, hmem⟩ := ho.chmods
    obtain ⟨calls', heq', hmem'⟩ := ho'.chmods
    refine ⟨calls ++ calls', by rw [heq', heq, List.append_assoc], fun l => ?_⟩
    rw [List.mem_append, hmem, hmem', ho.lacks_iff]
    by_cases hP : P l <;> simp [hP]

theorem search (ho : Opened P h h') (hl : ownerSearch (h.mode l) = true) :
    ownerSearch (h'.mode l) = true := by
  by_cases hc : P l ∧ h.Lacks l
  · rw [ho.given l hc.1 hc.2]
    exact ownerSearch_of_rwx (ownerRwx_or _)
  · rw [ho.same l hc]
    exact hl

theorem searchable (ho : Opened P h h') (hl : h.searchable l = true) : h'.searchable l = true := by
  unfold Host.searchable at hl ⊢
  rw [List.all_eq_true] at hl ⊢
  exact fun a ha => ho.search (hl a ha)

/-- A directory of `P` has all of its owner's bits. -/
theorem rwx (ho : Opened P h h') (hl : P l) (hk : h.disk.kindAt l = some .dir) :
    ownerRwx (h'.mode l) = true := by
  rw [← Bool.not_eq_false]
  intro hmode
  have hlacks : h'.Lacks l := ⟨by rw [ho.kind, hk], hmode⟩
  exact ((ho.lacks_iff l).mp hlacks).2 hl

end Opened

/-- **`add_owner_rwx_if_dir`** on a directory that can be reached. -/
theorem addOwnerRwxAt_dir {h : Host} {r : HostPath} (hs : h.searchable r = true)
    (hk : h.disk.kindAt r = some .dir) : ∃ h', Opened (· = r) h h' ∧
      addOwnerRwxAt r h = .ok (if h.Lacks r then some (h.mode r) else none) h' := by
  obtain ⟨n, hstat, hkind, hmode⟩ := Host.statAt_dir hs hk
  by_cases hlacks : h.Lacks r
  · have hstat' : ({ h with chmods := h.chmods ++ [r] } : Host).statAt r = .ok n := hstat
    refine ⟨({ h with chmods := h.chmods ++ [r] } : Host).setMode r (n.mode ||| 0o700), ?_, ?_⟩
    · constructor
      · exact fun l => Host.kindAt_setMode _ _ _ _
      · rintro l rfl _
        rw [Host.mode_setMode (by simp [hk]) hlacks.entry, hmode]
      · intro l hl
        rw [Host.mode_setMode_ne fun heq => hl ⟨heq, by rw [heq]; exact hlacks⟩]
        rfl
      · refine ⟨[r], Host.chmods_setMode _ _ _, fun l => ?_⟩
        rw [List.mem_singleton]
        constructor
        · rintro rfl
          exact ⟨rfl, hlacks⟩
        · exact And.left
    · unfold addOwnerRwxAt chmodAt
      rw [if_pos hlacks, hstat]
      simp only [hkind, hmode, Kind.isDir, hlacks.2, hstat', and_self, if_true]
  · refine ⟨h, Opened.refl fun l hl => by rw [hl]; exact hlacks, ?_⟩
    have hrwx : ¬ (n.kind.isDir = true ∧ ownerRwx n.mode = false) := by
      rw [hmode]
      exact fun hno => hlacks ⟨hk, hno.2⟩
    unfold addOwnerRwxAt
    rw [if_neg hlacks, hstat]
    exact if_neg hrwx

/-! ## A tree made removable -/

theorem mem_above_child {l r : HostPath} {n : String} : l ∈ (r.child n).above ↔ l = r ∨ l ∈ r.above := by
  rw [Loc.mem_above, Loc.mem_above, Loc.le_child_iff]
  constructor
  · rintro ⟨hle | heq, hne⟩
    · by_cases hl : l = r
      · exact Or.inl hl
      · exact Or.inr ⟨hle, hl⟩
    · exact absurd heq hne
  · have hshort : ∀ l : HostPath, l ≤ r → l ≠ r.child n := by
      rintro l hle rfl
      have hlen := hle.2.length_le
      rw [Loc.child_path, List.length_append, List.length_singleton] at hlen
      omega
    rintro (rfl | ⟨hle, hne⟩)
    · exact ⟨Or.inl (le_refl _), hshort l (le_refl _)⟩
    · exact ⟨Or.inl hle, hshort l hle⟩

theorem searchable_child {h : Host} {r : HostPath} {n : String} (hs : h.searchable r = true)
    (hr : ownerSearch (h.mode r) = true) : h.searchable (r.child n) = true := by
  unfold Host.searchable at hs ⊢
  rw [List.all_eq_true] at hs ⊢
  intro a ha
  rcases mem_above_child.mp ha with rfl | ha
  · exact hr
  · exact hs a ha

/-- Below a place there is the place itself and what is below its names. -/
theorem le_iff_child {l r : HostPath} : r ≤ l ↔ l = r ∨ ∃ n, r.child n ≤ l := by
  constructor
  · rintro ⟨hroot, q, hq⟩
    cases q with
    | nil =>
      left
      exact Loc.ext' hroot.symm (by rw [← hq, List.append_nil])
    | cons n q =>
      right
      exact ⟨n, hroot, q, by rw [Loc.child_path, ← hq, List.append_assoc]; rfl⟩
  · rintro (rfl | ⟨n, hn⟩)
    · exact le_refl _
    · have hle : r ≤ r.child n := ⟨rfl, List.prefix_append _ _⟩
      exact le_trans hle hn

theorem opened_of_not_dir {h : Host} {r : HostPath} (hk : h.disk.kindAt r ≠ some .dir) :
    Opened (r ≤ ·) h h := by
  refine Opened.refl fun l hl hlacks => hk ?_
  by_cases heq : r = l
  · rw [heq]
    exact hlacks.1
  · exact Disk.dir_above (by rw [hlacks.1]; exact Option.some_ne_none _) hl heq

theorem isDirAt_eq {h : Host} {r : HostPath} (hs : h.searchable r = true) :
    h.isDirAt r = true ↔ h.disk.kindAt r = some .dir := by
  unfold Host.isDirAt Host.statAt
  rw [if_pos hs, ← Host.node_kind]
  cases h.node r with
  | none => simp [Except.toOption]
  | some n => simp [Except.toOption]

/-- The pass of the loop over the names of a directory. -/
theorem makeChildRemovable_ok {fuel : Nat} {r : HostPath} {n : String} {h : Host}
    (hs : h.searchable (r.child n) = true)
    (hrec : ∃ h', makeTreeRemovableAt fuel (r.child n) h = .ok () h' ∧ Opened (r.child n ≤ ·) h h') :
    ∃ h', (do
        let isDir ← readHost fun h => h.isDirAt (r.child n)
        when (isDir = true) (makeTreeRemovableAt fuel (r.child n)) : Call Unit) h = .ok () h' ∧
      Opened (r.child n ≤ ·) h h' := by
  by_cases hdir : h.isDirAt (r.child n) = true
  · obtain ⟨h', hrun, hopen⟩ := hrec
    refine ⟨h', ?_, hopen⟩
    show (when _ _ : Call Unit) h = _
    rw [when_true hdir, hrun]
  · refine ⟨h, ?_, opened_of_not_dir fun hk => hdir ((isDirAt_eq hs).mpr hk)⟩
    show (when _ _ : Call Unit) h = _
    rw [when_false hdir]
    rfl

/-- What is open after the pass of one more name, where the directory itself was open before it. -/
theorem makeChildRemovable_pass {fuel : Nat} {r : HostPath} {x : String} {done : List String}
    {h t : Host} (hs : h.searchable r = true) (hk : h.disk.kindAt r = some .dir)
    (hdone : Opened (fun l => l = r ∨ ∃ n ∈ done, r.child n ≤ l) h t)
    (hrec : t.searchable (r.child x) = true → ∃ u,
      makeTreeRemovableAt fuel (r.child x) t = .ok () u ∧ Opened (r.child x ≤ ·) t u) :
    ∃ u, (do
        let isDir ← readHost fun h => h.isDirAt (r.child x)
        when (isDir = true) (makeTreeRemovableAt fuel (r.child x)) : Call Unit) t = .ok () u ∧
      Opened (fun l => l = r ∨ ∃ n ∈ done ++ [x], r.child n ≤ l) h u := by
  have hst : t.searchable (r.child x) = true := by
    apply searchable_child (hdone.searchable hs)
    exact ownerSearch_of_rwx (hdone.rwx (Or.inl rfl) hk)
  obtain ⟨u, hu, hou⟩ := makeChildRemovable_ok hst (hrec hst)
  refine ⟨u, hu, (hdone.trans hou).congr fun l _ => ?_⟩
  simp only [List.mem_append, List.mem_singleton]
  constructor
  · rintro ((h | ⟨n, hn, hle⟩) | hle)
    · exact Or.inl h
    · exact Or.inr ⟨n, Or.inl hn, hle⟩
    · exact Or.inr ⟨x, Or.inr rfl, hle⟩
  · rintro (h | ⟨n, hn | rfl, hle⟩)
    · exact Or.inl (Or.inl h)
    · exact Or.inl (Or.inr ⟨n, hn, hle⟩)
    · exact Or.inr hle

/-- What is no directory is left as it is. -/
theorem makeTreeRemovableAt_other (fuel : Nat) {r : HostPath} {h : Host}
    (hs : h.searchable r = true) (hk : h.disk.kindAt r ≠ some .dir) :
    makeTreeRemovableAt (fuel + 1) r h = .ok () h := by
  unfold makeTreeRemovableAt Host.statAt
  rw [if_pos hs]
  cases hn : h.node r with
  | none => rfl
  | some n =>
    have hno : ¬ n.kind.isDir = true := by
      rw [Kind.isDir_iff]
      intro hdir
      rw [← Host.node_kind, hn, Option.map_some, hdir] at hk
      exact hk rfl
    exact if_neg hno

/-- **`make_branch_store_tree_removable`** gives every directory of the tree its owner's bits. The fuel is
enough for what the tree holds. -/
theorem makeTreeRemovableAt_ok (fuel : Nat) {r : HostPath} {h : Host}
    (hfuel : ∀ l, r ≤ l → h.disk.kindAt l ≠ none → l.path.length < r.path.length + fuel)
    (hs : h.searchable r = true) :
    ∃ h', makeTreeRemovableAt fuel r h = .ok () h' ∧ Opened (r ≤ ·) h h' := by
  induction fuel generalizing r h with
  | zero =>
    refine ⟨h, rfl, Opened.refl fun l hl hlacks => ?_⟩
    have hlen := hfuel l hl (by rw [hlacks.1]; exact Option.some_ne_none _)
    have hle := hl.2.length_le
    omega
  | succ fuel ih =>
    by_cases hk : h.disk.kindAt r = some .dir
    · obtain ⟨n, hn, hkind, -⟩ := Host.exists_node hk
      have hstat : h.statAt r = .ok n := by
        unfold Host.statAt
        rw [if_pos hs, hn]
      obtain ⟨h₁, hopen, hrun⟩ := addOwnerRwxAt_dir hs hk
      -- after some of the names: the directory itself is open and what is below these names
      have hpass : ∀ (done : List String) x (rest : List String) t,
          h₁.disk.children r = done ++ x :: rest →
          Opened (fun l => l = r ∨ ∃ n ∈ done, r.child n ≤ l) h t → ∃ u,
            (do
              let isDir ← readHost fun h => h.isDirAt (r.child x)
              when (isDir = true) (makeTreeRemovableAt fuel (r.child x)) : Call Unit) t = .ok ⟨⟩ u ∧
            Opened (fun l => l = r ∨ ∃ n ∈ done ++ [x], r.child n ≤ l) h u := by
        intro done x rest t _ hdone
        refine makeChildRemovable_pass hs hk hdone (ih ?_)
        intro l hl hsome
        rw [hdone.kind] at hsome
        have hlt := hfuel l (le_iff_child.mpr (Or.inr ⟨x, hl⟩)) hsome
        rw [Loc.child_path, List.length_append, List.length_singleton]
        omega
      obtain ⟨h', hloop, hdone⟩ := forM_ok (hopen.congr fun l _ => by simp) hpass
      refine ⟨h', ?_, hdone.congr fun l hlacks => ?_⟩
      · unfold makeTreeRemovableAt
        rw [hstat]
        simp only [hkind, Kind.isDir, if_true]
        rw [bind_ok hrun]
        exact hloop
      · rw [le_iff_child]
        apply or_congr_right
        constructor
        · rintro ⟨n, -, hle⟩
          exact ⟨n, hle⟩
        · rintro ⟨n, hle⟩
          refine ⟨n, ?_, hle⟩
          rw [Disk.mem_children, hopen.kind]
          intro hno
          have hgone := Disk.none_of_le hno hle
          rw [hlacks.1] at hgone
          cases hgone
    · exact ⟨h, makeTreeRemovableAt_other fuel hs hk, opened_of_not_dir hk⟩

/-! ## Guards taken -/

section Above

variable {src a b : HostPath} {done rest : List HostPath}

theorem above_nodup (src : HostPath) : src.above.Nodup := by
  unfold Loc.above
  refine List.Nodup.map_on ?_ List.nodup_range
  intro i hi j hj heq
  rw [List.mem_range] at hi hj
  have hlen := congrArg (fun l : HostPath => l.path.length) heq
  simp only [List.length_take] at hlen
  omega

/-- The directories before one of them on the way are the ones above it. -/
theorem above_split (h : src.above = done ++ a :: rest) : a.above = done := by
  have hlt : done.length < src.path.length := by
    have hlen := congrArg List.length h
    unfold Loc.above at hlen
    rw [List.length_map, List.length_range, List.length_append, List.length_cons] at hlen
    omega
  have ha : (⟨src.root, src.path.take done.length⟩ : HostPath) = a := by
    have hget := congrArg (fun as : List HostPath => as[done.length]?) h
    unfold Loc.above at hget
    simp only [List.getElem?_map, List.getElem?_range hlt, Option.map_some,
      List.getElem?_append_right (Nat.le_refl _), Nat.sub_self, List.getElem?_cons_zero] at hget
    exact Option.some.inj hget
  have hdone : src.above.take done.length = done := by rw [h, List.take_left']; rfl
  rw [← hdone, ← ha]
  unfold Loc.above
  rw [← List.map_take, List.take_range, Nat.min_eq_left (Nat.le_of_lt hlt), List.length_take,
    Nat.min_eq_left (Nat.le_of_lt hlt)]
  apply List.map_congr_left
  intro i hi
  rw [List.mem_range] at hi
  rw [List.take_take, Nat.min_eq_left (Nat.le_of_lt hi)]

theorem not_mem_of_split (h : src.above = done ++ a :: rest) : a ∉ done ∧ a ∉ rest := by
  have hnodup := above_nodup src
  rw [h, List.nodup_append] at hnodup
  refine ⟨fun hmem => ?_, (List.nodup_cons.mp hnodup.2.1).1⟩
  exact hnodup.2.2 a hmem a (List.mem_cons_self ..) rfl

theorem le_of_split (h : src.above = done ++ a :: rest) (hb : b ∈ rest) : a ≤ b := by
  obtain ⟨r₁, r₂, rfl⟩ := List.append_of_mem hb
  have hsplit : src.above = (done ++ a :: r₁) ++ b :: r₂ := by simp [h]
  have ha : a ∈ b.above := by
    rw [above_split hsplit]
    simp
  exact (Loc.mem_above.mp ha).1

end Above

/-- The guards of the directories of a list. -/
def guardsOf (h : Host) (as : List HostPath) : List StoreDirModeGuard :=
  as.filterMap fun a =>
    if h.disk.kindAt a = some .dir then some ⟨a, if h.Lacks a then some (h.mode a) else none⟩ else none

theorem guardsOf_append (h : Host) (as bs : List HostPath) :
    guardsOf h (as ++ bs) = guardsOf h as ++ guardsOf h bs := List.filterMap_append

theorem guardsOf_dir {h : Host} {a : HostPath} (hk : h.disk.kindAt a = some .dir) :
    guardsOf h [a] = [⟨a, if h.Lacks a then some (h.mode a) else none⟩] := by
  simp [guardsOf, hk]

theorem guardsOf_none {h : Host} {as : List HostPath} (hk : ∀ a ∈ as, h.disk.kindAt a ≠ some .dir) :
    guardsOf h as = [] := by
  unfold guardsOf
  rw [List.filterMap_eq_nil_iff]
  intro a ha
  rw [if_neg (hk a ha)]

/-- A place of the tree from `/` is found where its directory is. -/
theorem lstat_eq {h : Host} {a : HostPath} (hroot : a.root = some ())
    (hdir : h.disk.kindAt a.parent = some .dir) : h.lstat a = h.statAt a := by
  unfold Host.lstat
  rw [Disk.realpath_of_dir hroot hdir]

section Guards

variable {h₀ h h' : Host} {src a : HostPath} {done rest : List HostPath}

/-- Once the directories before it are open, a place on the way whose directory exists can be reached. -/
theorem searchable_of_split (hsplit : src.above = done ++ a :: rest) (ho : Opened (· ∈ done) h₀ h)
    (hdir : h₀.disk.kindAt a.parent = some .dir) : h.searchable a = true := by
  unfold Host.searchable
  rw [List.all_eq_true]
  intro b hb
  have hb' := Loc.mem_above.mp hb
  have hbdir : h₀.disk.kindAt b = some .dir := by
    by_cases heq : b = a.parent
    · rw [heq, hdir]
    · exact Disk.dir_above (by simp [hdir]) (Loc.le_parent_of_lt hb'.1 hb'.2) heq
  rw [above_split hsplit] at hb
  exact ownerSearch_of_rwx (ho.rwx hb hbdir)

theorem guardDirs_cons (a : HostPath) (rest : List HostPath) (guards : List StoreDirModeGuard)
    (h : Host) : guardDirs (a :: rest) guards h =
      match h.lstat a with
      | .ok n =>
        if n.kind.isDir then
          match StoreDirModeGuard.new a h with
          | .ok g h' => guardDirs rest (guards ++ [g]) h'
          | .error e h' => .error e (after (dropAll guards) h')
        else guardDirs rest guards h
      | .error .ENOENT => guardDirs rest guards h
      | .error e => .error e (after (dropAll guards) h) := rfl

/-- A step of `guard_existing_parent_dirs` at a directory. -/
theorem guard_dir (hroot : src.root = some ()) (hsplit : src.above = done ++ a :: rest)
    (ho : Opened (· ∈ done) h₀ h) (hk : h₀.disk.kindAt a = some .dir) : ∃ h',
      guardDirs (a :: rest) (guardsOf h₀ done) h = guardDirs rest (guardsOf h₀ (done ++ [a])) h' ∧
      Opened (· ∈ done ++ [a]) h₀ h' := by
  have haroot : a.root = some () := by
    have ha : a ∈ src.above := by simp [hsplit]
    rw [(Loc.mem_above.mp ha).1.1, hroot]
  have hk' : h.disk.kindAt a = some .dir := by rw [ho.kind, hk]
  have hparent : h₀.disk.kindAt a.parent = some .dir := Disk.dir_parent (by simp [hk])
  have hparent' : h.disk.kindAt a.parent = some .dir := by rw [ho.kind, hparent]
  have hs : h.searchable a = true := searchable_of_split hsplit ho hparent
  obtain ⟨n, hstat, hkind, -⟩ := Host.statAt_dir hs hk'
  obtain ⟨h', hopen, hrun⟩ := addOwnerRwxAt_dir hs hk'
  -- the directories before have left this one as it was
  have hfresh : a ∉ done := (not_mem_of_split hsplit).1
  have hlacks : h.Lacks a ↔ h₀.Lacks a := by
    rw [ho.lacks_iff]
    exact and_iff_left hfresh
  have hmode : h.mode a = h₀.mode a := ho.same a fun hc => hfresh hc.1
  have hnew : StoreDirModeGuard.new a h =
      .ok ⟨a, if h₀.Lacks a then some (h₀.mode a) else none⟩ h' := by
    have hresolved : addOwnerRwxIfDir a h = .ok (if h.Lacks a then some (h.mode a) else none) h' := by
      unfold addOwnerRwxIfDir resolved
      rw [Disk.realpath_of_dir haroot hparent']
      exact hrun
    unfold StoreDirModeGuard.new
    rw [bind_ok hresolved]
    simp only [hlacks, hmode]
    rfl
  refine ⟨h', ?_, (ho.trans hopen).congr fun l _ => by simp⟩
  rw [guardsOf_append, guardsOf_dir hk, guardDirs_cons, lstat_eq haroot hparent', hstat]
  simp only [hkind, Kind.isDir, if_true, hnew]

/-- A step of `guard_existing_parent_dirs` where there is no directory: the loop goes on, or ends with an
error below a file. -/
theorem guard_other (hroot : src.root = some ()) (hlink : h₀.disk.NoLinkAbove src)
    (hsplit : src.above = done ++ a :: rest) (ho : Opened (· ∈ done) h₀ h)
    (hk : h₀.disk.kindAt a ≠ some .dir) (guards : List StoreDirModeGuard) :
    guardDirs (a :: rest) guards h = guardDirs rest guards h ∨
      ((∀ b ∈ a :: rest, h₀.disk.kindAt b ≠ some .dir) ∧
        ∃ e, guardDirs (a :: rest) guards h = .error e (after (dropAll guards) h)) := by
  have ha : a ≤ src ∧ a ≠ src := Loc.mem_above.mp (by simp [hsplit])
  have haroot : a.root = some () := by rw [ha.1.1, hroot]
  by_cases hparent : h₀.disk.kindAt a.parent = some .dir
  · left
    have hs : h.searchable a = true := searchable_of_split hsplit ho hparent
    have hstat := lstat_eq (h := h) haroot (by rw [ho.kind, hparent])
    rw [guardDirs_cons, hstat]
    unfold Host.statAt
    rw [if_pos hs]
    rw [← ho.kind, ← Host.node_kind] at hk
    cases hn : h.node a with
    | none => rfl
    | some n =>
      rw [hn] at hk
      have hno : ¬ n.kind.isDir = true := by
        rw [Kind.isDir_iff]
        simpa using hk
      exact if_neg hno
  · have hlink' : h.disk.NoLinkAbove a := by
      intro b hb
      have hb' := Loc.mem_above.mp hb
      have hmem : b ∈ src.above := by
        refine Loc.mem_above.mpr ⟨le_trans hb'.1 ha.1, ?_⟩
        rintro rfl
        exact ha.2 (le_antisymm ha.1 hb'.1)
      have hold := hlink b hmem
      unfold Disk.linkAt at hold ⊢
      rw [ho.kind, hold]
    have hblocked := Disk.realpath_blocked haroot hlink' (by rw [ho.kind]; exact hparent)
    have hlstat : h.lstat a = .error (if h.disk.fileAbove a then .ENOTDIR else .ENOENT) := by
      unfold Host.lstat
      rw [hblocked]
    cases hfile : h.disk.fileAbove a with
    | false =>
      left
      rw [guardDirs_cons, hlstat, hfile]
      rfl
    | true =>
      right
      have hnone : h₀.disk.kindAt a = none := by
        by_contra hsome
        exact hparent (Disk.dir_parent hsome)
      refine ⟨fun b hb => ?_, .ENOTDIR, ?_⟩
      · have hab : a ≤ b := by
          rcases List.mem_cons.mp hb with rfl | hb
          · exact le_refl _
          · exact le_of_split hsplit hb
        rw [Disk.none_of_le hnone hab]
        exact (Option.some_ne_none _).symm
      · rw [guardDirs_cons, hlstat, hfile]
        rfl

/-- **`guard_existing_parent_dirs`** opens every directory above the source. Where it fails, below a file, it
has opened them all before and drops their guards at once. -/
theorem guardDirs_spec (hroot : src.root = some ()) (hlink : h₀.disk.NoLinkAbove src)
    (hsplit : src.above = done ++ rest) (ho : Opened (· ∈ done) h₀ h) : ∃ h',
      Opened (· ∈ src.above) h₀ h' ∧
        (guardDirs rest (guardsOf h₀ done) h = .ok (guardsOf h₀ src.above) h' ∨
          ∃ e, guardDirs rest (guardsOf h₀ done) h =
            .error e (after (dropAll (guardsOf h₀ src.above)) h')) := by
  induction rest generalizing done h with
  | nil =>
    rw [List.append_nil] at hsplit
    rw [hsplit]
    exact ⟨h, ho, Or.inl rfl⟩
  | cons a rest ih =>
    have hnext : src.above = (done ++ [a]) ++ rest := by simp [hsplit]
    by_cases hk : h₀.disk.kindAt a = some .dir
    · obtain ⟨h₁, hrun, ho₁⟩ := guard_dir hroot hsplit ho hk
      rw [hrun]
      exact ih hnext ho₁
    · have hskip : guardsOf h₀ (done ++ [a]) = guardsOf h₀ done := by
        have hnone : ∀ c ∈ [a], h₀.disk.kindAt c ≠ some .dir := by simpa using hk
        rw [guardsOf_append, guardsOf_none hnone, List.append_nil]
      rcases guard_other hroot hlink hsplit ho hk (guardsOf h₀ done) with hrun | ⟨hno, e, hrun⟩
      · rw [hrun, ← hskip]
        refine ih hnext (ho.congr fun l hlacks => ?_)
        rw [List.mem_append, List.mem_singleton]
        refine (or_iff_left ?_).symm
        rintro rfl
        exact hk hlacks.1
      · refine ⟨h, ho.congr fun l hlacks => ?_, Or.inr ⟨e, ?_⟩⟩
        · rw [hsplit, List.mem_append]
          exact (or_iff_left fun hl => hno l hl hlacks.1).symm
        · rw [hrun, hsplit, guardsOf_append, guardsOf_none hno, List.append_nil]

end Guards

/-! ## Guards dropped -/

/-- The host after one guard was dropped. -/
def dropped (h : Host) (g : StoreDirModeGuard) : Host := after g.drop h

theorem drop_ok (g : StoreDirModeGuard) (h : Host) : g.drop h = .ok () (dropped h g) := by
  unfold dropped after StoreDirModeGuard.drop
  cases g.originalMode with
  | none => rfl
  | some m =>
    obtain ⟨r, hr⟩ := attempt_after (setPermissions g.path m) h
    simp only [bind_ok hr]
    rfl

theorem after_dropAll (guards : List StoreDirModeGuard) (h : Host) :
    after (dropAll guards) h = guards.foldl dropped h := by
  induction guards generalizing h with
  | nil => rfl
  | cons g guards ih =>
    show after (g.drop >>= fun _ => dropAll guards) h = _
    rw [after_bind_ok (drop_ok g h), ih]
    rfl

section Dropped

variable {h₀ h : Host} {src a l : HostPath} {done rest : List HostPath} {m : Nat}

theorem dropped_none (h : Host) (a : HostPath) : dropped h ⟨a, none⟩ = h := rfl

/-- A mode can be set again when the directories above can be searched. -/
theorem dropped_some (hroot : a.root = some ()) (hk : h.disk.kindAt a = some .dir) (m : Nat) :
    dropped h ⟨a, some m⟩ = if h.searchable a then
      ({ h with chmods := h.chmods ++ [a] } : Host).setMode a m
    else { h with chmods := h.chmods ++ [a] } := by
  have hparent : h.disk.kindAt a.parent = some .dir := Disk.dir_parent (by simp [hk])
  have hreal : h.disk.realpathFollow a = .ok a :=
    Disk.realpathFollow_of_dir hroot hparent (by simp [Disk.linkAt, hk, Kind.isSymlink])
  have hset : setPermissions a m h = chmodAt m a h := by
    unfold setPermissions
    rw [hreal]
  have hafter : dropped h ⟨a, some m⟩ = after (chmodAt m a) h := by
    obtain ⟨r, hr⟩ := attempt_after (setPermissions a m) h
    have hsame : after (setPermissions a m) h = after (chmodAt m a) h := by
      unfold after
      rw [hset]
    rw [← hsame]
    exact after_bind_ok hr
  rw [hafter]
  unfold after chmodAt
  by_cases hs : h.searchable a = true
  · obtain ⟨n, hstat, -, -⟩ := Host.statAt_dir hs hk
    have hstat' : ({ h with chmods := h.chmods ++ [a] } : Host).statAt a = .ok n := hstat
    simp only [hstat']
    rw [if_pos hs]
  · have hstat : ({ h with chmods := h.chmods ++ [a] } : Host).statAt a = .error .EPERM := by
      unfold Host.statAt
      exact if_neg hs
    simp only [hstat]
    rw [if_neg hs]

/-- What dropping a guard cannot change. -/
theorem drop_frame {g : StoreDirModeGuard} (hroot : g.path.root = some ())
    (hk : h.disk.kindAt g.path = some .dir) :
    (∀ l, (dropped h g).disk.kindAt l = h.disk.kindAt l) ∧
      ∀ l, (g.path = l → g.originalMode = none) → (dropped h g).mode l = h.mode l := by
  obtain ⟨a, mode⟩ := g
  cases mode with
  | none => exact ⟨fun _ => rfl, fun _ _ => rfl⟩
  | some m =>
    rw [dropped_some hroot hk]
    constructor
    · intro l
      split
      · exact Host.kindAt_setMode _ _ _ _
      · rfl
    · intro l hl
      have hne : l ≠ a := by
        rintro rfl
        cases hl rfl
      split
      · rw [Host.mode_setMode_ne hne]
        rfl
      · rfl

theorem drops_frame {guards : List StoreDirModeGuard} (hguards : ∀ g ∈ guards,
    g.path.root = some () ∧ h.disk.kindAt g.path = some .dir) :
    (∀ l, (guards.foldl dropped h).disk.kindAt l = h.disk.kindAt l) ∧
      ∀ l, (∀ g ∈ guards, g.path = l → g.originalMode = none) →
        (guards.foldl dropped h).mode l = h.mode l := by
  induction guards generalizing h with
  | nil => exact ⟨fun _ => rfl, fun _ _ => rfl⟩
  | cons g guards ih =>
    obtain ⟨hroot, hk⟩ := hguards g (List.mem_cons_self ..)
    obtain ⟨hkind, hmode⟩ := drop_frame hroot hk
    obtain ⟨ihkind, ihmode⟩ := ih (h := dropped h g) (by
      intro g' hg'
      rw [hkind]
      exact hguards g' (List.mem_cons_of_mem _ hg'))
    refine ⟨fun l => (ihkind l).trans (hkind l), fun l hl => ?_⟩
    rw [List.foldl_cons, ihmode l fun g' hg' => hl g' (List.mem_cons_of_mem _ hg')]
    exact hmode l (hl g (List.mem_cons_self ..))

/-- The calls that dropping guards makes. -/
theorem drops_chmods {guards : List StoreDirModeGuard} (hguards : ∀ g ∈ guards,
    g.path.root = some () ∧ h.disk.kindAt g.path = some .dir) :
    (guards.foldl dropped h).chmods = h.chmods ++
      (guards.filter fun g => g.originalMode.isSome).map StoreDirModeGuard.path := by
  induction guards generalizing h with
  | nil => simp
  | cons g guards ih =>
    obtain ⟨hroot, hk⟩ := hguards g (List.mem_cons_self ..)
    have hrest : ∀ g' ∈ guards, g'.path.root = some () ∧
        (dropped h g).disk.kindAt g'.path = some .dir := by
      intro g' hg'
      rw [(drop_frame hroot hk).1]
      exact hguards g' (List.mem_cons_of_mem _ hg')
    rw [List.foldl_cons, ih hrest]
    obtain ⟨a, mode⟩ := g
    cases mode with
    | none => simp [dropped_none]
    | some m =>
      have hcalls : (dropped h ⟨a, some m⟩).chmods = h.chmods ++ [a] := by
        rw [dropped_some hroot hk]
        split
        · rw [Host.chmods_setMode]
        · rfl
      simp [hcalls]

theorem mem_guardsOf {g : StoreDirModeGuard} {as : List HostPath} : g ∈ guardsOf h₀ as ↔
    g.path ∈ as ∧ h₀.disk.kindAt g.path = some .dir ∧
      g.originalMode = if h₀.Lacks g.path then some (h₀.mode g.path) else none := by
  unfold guardsOf
  rw [List.mem_filterMap]
  constructor
  · rintro ⟨a, ha, hg⟩
    split at hg
    · next hk =>
      cases hg
      exact ⟨ha, hk, rfl⟩
    · cases hg
  · rintro ⟨ha, hk, hmode⟩
    refine ⟨g.path, ha, ?_⟩
    rw [if_pos hk, ← hmode]

/-- The directories above the source as the guards have left them, whatever was done elsewhere since. -/
structure Held (h₀ h : Host) (src : HostPath) : Prop where
  root : src.root = some ()
  dir : ∀ a ∈ src.above, h₀.disk.kindAt a = some .dir → h.disk.kindAt a = some .dir
  mode : ∀ a ∈ src.above, h₀.disk.kindAt a = some .dir →
    h.mode a = if h₀.Lacks a then h₀.mode a ||| 0o700 else h₀.mode a

theorem Held.guards (hh : Held h₀ h src) (hsub : rest ⊆ src.above) : ∀ g ∈ guardsOf h₀ rest,
    g.path.root = some () ∧ h.disk.kindAt g.path = some .dir := by
  intro g hg
  obtain ⟨hmem, hk, -⟩ := mem_guardsOf.mp hg
  have habove := hsub hmem
  exact ⟨by rw [(Loc.mem_above.mp habove).1.1, hh.root], hh.dir _ habove hk⟩

/-- No directory that lacks bits lies below one that cannot be searched. -/
def NoneClosed (h : Host) (src : HostPath) : Prop :=
  ∀ a ∈ src.above, ∀ c ∈ src.above, a ≤ c → a ≠ c → h.Lacks c → ownerSearch (h.mode a) = true

instance (h : Host) (src : HostPath) : Decidable (NoneClosed h src) :=
  inferInstanceAs (Decidable (∀ a ∈ src.above, ∀ c ∈ src.above, _))

/-- The guards from a directory on give the modes back, those before having done so. -/
theorem drops_restore (hroot : src.root = some ()) (hclosed : NoneClosed h₀ src)
    (hsplit : src.above = done ++ rest)
    (hdir : ∀ a ∈ src.above, h₀.disk.kindAt a = some .dir → h.disk.kindAt a = some .dir)
    (hdone : ∀ a ∈ done, h₀.disk.kindAt a = some .dir → h.mode a = h₀.mode a)
    (hrest : ∀ a ∈ rest, h₀.disk.kindAt a = some .dir →
      h.mode a = if h₀.Lacks a then h₀.mode a ||| 0o700 else h₀.mode a) :
    ∀ a ∈ src.above, h₀.disk.kindAt a = some .dir →
      ((guardsOf h₀ rest).foldl dropped h).mode a = h₀.mode a := by
  induction rest generalizing done h with
  | nil =>
    rw [List.append_nil] at hsplit
    rw [hsplit]
    exact hdone
  | cons a rest ih =>
    have hnext : src.above = (done ++ [a]) ++ rest := by simp [hsplit]
    have hmem : a ∈ src.above := by simp [hsplit]
    obtain ⟨hfresh, hfresh'⟩ := not_mem_of_split hsplit
    have hsplitg : guardsOf h₀ (a :: rest) = guardsOf h₀ [a] ++ guardsOf h₀ rest :=
      guardsOf_append h₀ [a] rest
    rw [hsplitg, List.foldl_append]
    by_cases hk : h₀.disk.kindAt a = some .dir
    · rw [guardsOf_dir hk]
      by_cases hlacks : h₀.Lacks a
      · rw [if_pos hlacks]
        -- the directories above have their modes again, and these let it be searched for
        have hs : h.searchable a = true := by
          unfold Host.searchable
          rw [List.all_eq_true]
          intro b hb
          have hb' := Loc.mem_above.mp hb
          have hbdir : h₀.disk.kindAt b = some .dir := Disk.dir_above (by simp [hk]) hb'.1 hb'.2
          rw [above_split hsplit] at hb
          rw [hdone b hb hbdir]
          exact hclosed b (by simp [hsplit, hb]) a hmem hb'.1 hb'.2 hlacks
        have haroot : a.root = some () := by rw [(Loc.mem_above.mp hmem).1.1, hroot]
        have hstep : ([⟨a, some (h₀.mode a)⟩] : List StoreDirModeGuard).foldl dropped h =
            ({ h with chmods := h.chmods ++ [a] } : Host).setMode a (h₀.mode a) := by
          show dropped h _ = _
          rw [dropped_some haroot (hdir a hmem hk), if_pos hs]
        rw [hstep]
        refine ih hnext (fun b hb hbk => ?_) (fun b hb hbk => ?_) (fun b hb hbk => ?_)
        · rw [Host.kindAt_setMode]
          exact hdir b hb hbk
        · by_cases hba : b = a
          · rw [hba]
            refine Host.mode_setMode ?_ hlacks.entry
            show h.disk.kindAt a ≠ none
            rw [hdir a hmem hk]
            exact Option.some_ne_none _
          · rw [Host.mode_setMode_ne hba]
            exact hdone b ((List.mem_append.mp hb).resolve_right (by simpa using hba)) hbk
        · have hba : b ≠ a := fun heq => hfresh' (heq ▸ hb)
          rw [Host.mode_setMode_ne hba]
          exact hrest b (List.mem_cons_of_mem _ hb) hbk
      · rw [if_neg hlacks]
        refine ih hnext hdir (fun b hb hbk => ?_) fun b hb => hrest b (List.mem_cons_of_mem _ hb)
        rcases List.mem_append.mp hb with hb | hb
        · exact hdone b hb hbk
        · rw [List.mem_singleton.mp hb]
          have hmode := hrest a (List.mem_cons_self ..) hk
          rw [if_neg hlacks] at hmode
          exact hmode
    · have hnone : ∀ c ∈ [a], h₀.disk.kindAt c ≠ some .dir := by simpa using hk
      rw [guardsOf_none hnone]
      refine ih hnext hdir (fun b hb hbk => ?_) fun b hb => hrest b (List.mem_cons_of_mem _ hb)
      rcases List.mem_append.mp hb with hb | hb
      · exact hdone b hb hbk
      · rw [List.mem_singleton.mp hb] at hbk
        exact absurd hbk hk

/-- **The guards give every mode back** exactly when none of them has to reach below a directory that is
closed again by then. -/
theorem drops_restore_iff (hh : Held h₀ h src) :
    (∀ a ∈ src.above, h₀.disk.kindAt a = some .dir →
      ((guardsOf h₀ src.above).foldl dropped h).mode a = h₀.mode a) ↔ NoneClosed h₀ src := by
  constructor
  · intro hback a ha c hc hac hne hlacks
    by_contra hclosed
    obtain ⟨done, rest, hsplit⟩ := List.append_of_mem hc
    have hadone : a ∈ done := by
      rw [← above_split hsplit]
      exact Loc.mem_above.mpr ⟨hac, hne⟩
    obtain ⟨hfresh, hfresh'⟩ := not_mem_of_split hsplit
    have hsub : ∀ x, x ∈ done ∨ x ∈ rest → x ∈ src.above := by
      rintro x (hx | hx) <;> simp [hsplit, hx]
    have hcdir : h₀.disk.kindAt c = some .dir := hlacks.1
    have hadir : h₀.disk.kindAt a = some .dir := Disk.dir_above (by simp [hcdir]) hac hne
    -- the host before the guard of the lower directory is dropped, and after
    obtain ⟨h₁, hh₁⟩ : ∃ h₁, (guardsOf h₀ done).foldl dropped h = h₁ := ⟨_, rfl⟩
    have hrun : (guardsOf h₀ src.above).foldl dropped h =
        (guardsOf h₀ rest).foldl dropped (dropped h₁ ⟨c, some (h₀.mode c)⟩) := by
      have hcons : guardsOf h₀ (c :: rest) = guardsOf h₀ [c] ++ guardsOf h₀ rest :=
        guardsOf_append h₀ [c] rest
      rw [hsplit, guardsOf_append, hcons, guardsOf_dir hcdir, if_pos hlacks, List.foldl_append,
        List.foldl_append, hh₁]
      rfl
    have hframe₁ := drops_frame (hh.guards fun x hx => hsub x (Or.inl hx))
    rw [hh₁] at hframe₁
    have hcroot : c.root = some () := by rw [(Loc.mem_above.mp hc).1.1, hh.root]
    have hcdir₁ : h₁.disk.kindAt c = some .dir := by rw [hframe₁.1, hh.dir c hc hcdir]
    have hstep := drop_frame (h := h₁) (g := ⟨c, some (h₀.mode c)⟩) hcroot hcdir₁
    have hguards : ∀ g ∈ guardsOf h₀ rest, g.path.root = some () ∧
        (dropped h₁ ⟨c, some (h₀.mode c)⟩).disk.kindAt g.path = some .dir := by
      intro g hg
      rw [hstep.1, hframe₁.1]
      exact hh.guards (fun x hx => hsub x (Or.inr hx)) g hg
    have hframe₂ := drops_frame hguards
    have hkeep : ∀ x, x ∉ rest → ∀ g ∈ guardsOf h₀ rest, g.path = x → g.originalMode = none := by
      rintro x hx g hg rfl
      exact absurd (mem_guardsOf.mp hg).1 hx
    have harest : a ∉ rest := by
      have hnodup := above_nodup src
      rw [hsplit, List.nodup_append] at hnodup
      exact fun hmem => hnodup.2.2 a hadone a (List.mem_cons_of_mem _ hmem) rfl
    -- the upper directory has its mode again, so the lower one cannot be reached
    have hamode : h₁.mode a = h₀.mode a := by
      have hfinal := hback a ha hadir
      rw [hrun, hframe₂.2 a (hkeep a harest), hstep.2 a fun hca => absurd hca.symm hne] at hfinal
      exact hfinal
    have hs : ¬ h₁.searchable c = true := by
      unfold Host.searchable
      rw [List.all_eq_true]
      intro hall
      have hbit := hall a (Loc.mem_above.mpr ⟨hac, hne⟩)
      rw [hamode] at hbit
      exact hclosed hbit
    have hcmode : h₁.mode c = h₀.mode c ||| 0o700 := by
      rw [hframe₁.2 c, hh.mode c hc hcdir, if_pos hlacks]
      rintro g hg rfl
      exact absurd (mem_guardsOf.mp hg).1 hfresh
    have hfinal := hback c hc hcdir
    rw [hrun, hframe₂.2 c (hkeep c hfresh'), dropped_some hcroot hcdir₁, if_neg hs] at hfinal
    exact ne_or_of_lacks hlacks.2 (hcmode.symm.trans hfinal)
  · intro hclosed
    have hdone : ∀ a ∈ ([] : List HostPath), h₀.disk.kindAt a = some .dir → h.mode a = h₀.mode a := by
      simp
    exact drops_restore hh.root hclosed rfl hh.dir hdone hh.mode

end Dropped

end BranchFs.Modes
