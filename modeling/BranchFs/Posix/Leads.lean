/-
# BranchFs.Posix.Leads -- ways to directories, and how far a recursion through them can go

`Leads` is path resolution as a relation: a way from a directory to a directory, with the links it may
still meet at the end. It is what `enter` computes (`enter_iff_leads`), it composes (`leads_append`), and
a name more costs a link or a level of a tree: `reach` bounds what can follow (`reach_lt`).

`below` is the recursion a program makes when it lists a directory, goes on below some of the names and
takes down the others. Whatever it goes on below, links included, it comes to an end, and it takes down
each way once (`mem_below`, `below_nodup`).
-/
import BranchFs.Posix.Calls
import Mathlib.Data.List.Dedup

namespace BranchFs.Posix

namespace Disk

variable {ρ ν : Type} [DecidableEq ρ] [DecidableEq ν]

/-- From the directory `cur`, with `k` links to spare, `cs` leads to the directory `t` with `j` links
to spare. -/
inductive Leads (d : Disk ρ ν) : Nat → Loc ρ ν → List (Comp ν) → Nat → Loc ρ ν → Prop
  | here {k cur} : Leads d k cur [] k cur
  | up {k cur rest j t} (h : Leads d k (d.up cur) rest j t) : Leads d k cur (.up :: rest) j t
  | enter {k cur n rest j t} (hway : d.wayAt (d.norm (cur.child n)) = some .dir)
      (h : Leads d k (d.norm (cur.child n)) rest j t) : Leads d k cur (.name n :: rest) j t
  | follow {k cur n rest j t} {tg : Link ν}
      (hway : d.wayAt (d.norm (cur.child n)) = some (.symlink tg))
      (h : Leads d k (if tg.absolute then d.norm ⟨none, []⟩ else cur) (tg.comps ++ rest) j t) :
      Leads d (k + 1) cur (.name n :: rest) j t

variable {d : Disk ρ ν} {k j : Nat} {cur t : Loc ρ ν} {cs : List (Comp ν)}

theorem Leads.le (h : d.Leads k cur cs j t) : j ≤ k := by
  induction h with
  | here => exact le_refl _
  | up _ ih => exact ih
  | enter _ _ ih => exact ih
  | follow _ _ ih => omega

/-- A way leads where `enter` says. -/
theorem Leads.enter_eq (h : d.Leads k cur cs j t) : d.enter k cur cs = .ok t := by
  induction h with
  | here => rw [Disk.enter_eq, enterFrom]
  | up _ ih =>
    rw [Disk.enter_eq, enterFrom, ← Disk.enter_eq]
    exact ih
  | enter hway _ ih =>
    rw [Disk.enter_eq, enterFrom]
    simp only [hway]
    rw [← Disk.enter_eq]
    exact ih
  | follow hway _ ih =>
    rw [Disk.enter_eq, enterFrom]
    simp only [hway]
    exact ih

/-- Two ways with the same components are one. -/
theorem Leads.unique {j' : Nat} {t' : Loc ρ ν} (h : d.Leads k cur cs j t)
    (h' : d.Leads k cur cs j' t') : j' = j ∧ t' = t := by
  induction h with
  | here =>
    cases h'
    exact ⟨rfl, rfl⟩
  | up _ ih =>
    cases h' with
    | up h' => exact ih h'
  | enter hway _ ih =>
    cases h' with
    | enter _ h' => exact ih h'
    | follow hway' _ =>
      rw [hway] at hway'
      cases hway'
  | follow hway _ ih =>
    cases h' with
    | enter hway' _ =>
      rw [hway] at hway'
      cases hway'
    | follow hway' h' =>
      rw [hway] at hway'
      cases hway'
      exact ih h'

theorem leads_of_enterFrom {f : Loc ρ ν → List (Comp ν) → Except Errno (Loc ρ ν)}
    (hf : ∀ cur cs, f cur cs = .ok t → ∃ i, i + 1 = k ∧ ∃ j, d.Leads i cur cs j t)
    (ht : d.wayAt t = some .dir) (cs : List (Comp ν)) :
    ∀ cur, d.enterFrom f cur cs = .ok t → ∃ j, d.Leads k cur cs j t := by
  induction cs with
  | nil =>
    intro cur h
    rw [enterFrom] at h
    cases h
    exact ⟨k, .here⟩
  | cons c rest ih =>
    intro cur h
    cases c with
    | up =>
      obtain ⟨j, hj⟩ := ih (d.up cur) (by rw [enterFrom] at h; exact h)
      exact ⟨j, .up hj⟩
    | name n =>
      rw [enterFrom] at h
      -- what is neither a directory nor a link is the end of the way, and no directory
      have hstop : ∀ e, d.wayAt (d.norm (cur.child n)) ≠ some .dir →
          (if rest.isEmpty then .ok (d.norm (cur.child n)) else .error e : Except Errno _) ≠ .ok t := by
        intro e hno hend
        split at hend
        · cases hend
          exact hno ht
        · cases hend
      cases hway : d.wayAt (d.norm (cur.child n)) with
      | none =>
        simp only [hway] at h
        exact absurd h (hstop _ (by simp [hway]))
      | some kind =>
        cases kind with
        | file data =>
          simp only [hway] at h
          exact absurd h (hstop _ (by simp [hway]))
        | dir =>
          simp only [hway] at h
          obtain ⟨j, hj⟩ := ih _ h
          exact ⟨j, .enter hway hj⟩
        | symlink tg =>
          simp only [hway] at h
          obtain ⟨i, rfl, j, hj⟩ := hf _ _ h
          exact ⟨j, .follow hway hj⟩

/-- **Every resolution that ends at a directory is a way.** -/
theorem enter_iff_leads (ht : d.wayAt t = some .dir) :
    d.enter k cur cs = .ok t ↔ ∃ j, d.Leads k cur cs j t := by
  constructor
  · intro h
    induction k generalizing cur cs with
    | zero => exact leads_of_enterFrom (fun _ _ h => by cases h) ht cs cur h
    | succ k ih => exact leads_of_enterFrom (fun cur cs h => ⟨k, rfl, ih h⟩) ht cs cur h
  · rintro ⟨j, h⟩
    exact h.enter_eq

/-- Ways compose. -/
theorem leads_append {ds : List (Comp ν)} :
    d.Leads k cur (cs ++ ds) j t ↔ ∃ i s, d.Leads k cur cs i s ∧ d.Leads i s ds j t := by
  constructor
  · intro h
    generalize hall : cs ++ ds = all at h
    induction h generalizing cs with
    | here =>
      obtain ⟨rfl, rfl⟩ := List.append_eq_nil_iff.mp hall
      exact ⟨_, _, .here, .here⟩
    | up h ih =>
      rcases List.append_eq_cons_iff.mp hall with ⟨rfl, rfl⟩ | ⟨rest, rfl, rfl⟩
      · exact ⟨_, _, .here, .up h⟩
      · obtain ⟨i, s, h₁, h₂⟩ := ih rfl
        exact ⟨i, s, .up h₁, h₂⟩
    | enter hway h ih =>
      rcases List.append_eq_cons_iff.mp hall with ⟨rfl, rfl⟩ | ⟨rest, rfl, rfl⟩
      · exact ⟨_, _, .here, .enter hway h⟩
      · obtain ⟨i, s, h₁, h₂⟩ := ih rfl
        exact ⟨i, s, .enter hway h₁, h₂⟩
    | follow hway h ih =>
      rcases List.append_eq_cons_iff.mp hall with ⟨rfl, rfl⟩ | ⟨rest, rfl, rfl⟩
      · exact ⟨_, _, .here, .follow hway h⟩
      · obtain ⟨i, s, h₁, h₂⟩ := ih (List.append_assoc ..)
        exact ⟨i, s, .follow hway h₁, h₂⟩
  · rintro ⟨i, s, h₁, h₂⟩
    induction h₁ with
    | here => exact h₂
    | up _ ih => exact .up (ih h₂)
    | enter hway _ ih => exact .enter hway (ih h₂)
    | follow hway _ ih =>
      refine .follow hway ?_
      have hassoc := ih h₂
      rw [List.append_assoc] at hassoc
      exact hassoc

/-! ## How far a way can go on -/

/-- The levels there can be below a place before a link: those of its tree, and outside the trees those
of a tree that hangs there as well. -/
def room (d : Disk ρ ν) (l : Loc ρ ν) : Nat :=
  match l.root with
  | some _ => d.height - l.path.length
  | none => d.height - l.path.length + d.height + 1

/-- The names that can follow one after the other where `i` links are to spare. -/
def reach (d : Disk ρ ν) (i : Nat) (l : Loc ρ ν) : Nat := i * (2 * (d.height + 1)) + d.room l

theorem room_lt (d : Disk ρ ν) (l : Loc ρ ν) : d.room l < 2 * (d.height + 1) := by
  unfold room
  split <;> omega

/-- A directory under a name has less room than the place it is a name of. -/
theorem room_child_lt {n : ν} (h : d.kindAt (d.norm (cur.child n)) = some .dir) :
    d.room (d.norm (cur.child n)) < d.room cur := by
  have hle := length_le_height (d := d) (l := d.norm (cur.child n)) (by simp [h])
  unfold norm at hle ⊢
  cases hr : cur.root with
  | some r =>
    simp only [Loc.child_root, hr, Loc.child_path, List.length_append, List.length_singleton] at hle
    simp only [Loc.child_root, hr, room, Loc.child_path, List.length_append, List.length_singleton]
    omega
  | none =>
    simp only [Loc.child_root, hr, Loc.child_path] at hle ⊢
    cases hm : d.layout.mountAt (cur.path ++ [n]) with
    | some r =>
      simp only [room, hr, List.length_nil]
      omega
    | none =>
      simp only [hm, Loc.child_path, List.length_append, List.length_singleton] at hle
      simp only [room, Loc.child_root, hr, Loc.child_path, List.length_append, List.length_singleton]
      omega

/-- **A name more costs a link or a level.** -/
theorem reach_lt {n : ν} (h : d.Leads k cur [.name n] j t) (ht : d.kindAt t = some .dir) :
    d.reach j t < d.reach k cur := by
  unfold reach
  cases h with
  | enter hway h =>
    cases h
    have := room_child_lt ht
    omega
  | @follow k _ _ _ _ _ _ hway h =>
    have hroom := d.room_lt t
    have hmul : j * (2 * (d.height + 1)) ≤ k * (2 * (d.height + 1)) := Nat.mul_le_mul_right _ h.le
    have hsucc : (k + 1) * (2 * (d.height + 1)) = k * (2 * (d.height + 1)) + 2 * (d.height + 1) :=
      Nat.succ_mul ..
    omega

/-! ## Below a place -/

/-- `fuel` is more than any sequence of names below `l` that leads from directory to directory. -/
def Deep (d : Disk ρ ν) (fuel : Nat) (l : Loc ρ ν) : Prop :=
  ∀ i r, d.Leads maxLinks ⟨l.root, []⟩ (l.path.map .name) i r → d.reach i r < fuel

theorem deep_max (d : Disk ρ ν) (l : Loc ρ ν) : d.Deep ((maxLinks + 1) * (2 * (d.height + 1))) l := by
  intro i r h
  have hroom := d.room_lt r
  have hmul : i * (2 * (d.height + 1)) ≤ maxLinks * (2 * (d.height + 1)) :=
    Nat.mul_le_mul_right _ h.le
  have hsucc : (maxLinks + 1) * (2 * (d.height + 1)) =
      maxLinks * (2 * (d.height + 1)) + 2 * (d.height + 1) := Nat.succ_mul ..
  unfold reach
  omega

theorem kindAt_of_isDir {l : Loc ρ ν} (h : d.isDir l = true) :
    ∃ r, d.realpathFollow l = .ok r ∧ d.kindAt r = some .dir := by
  unfold isDir stat at h
  cases hr : d.realpathFollow l with
  | error e => simp [hr, Except.toOption] at h
  | ok r =>
    cases hg : d.get r with
    | none => simp [hr, hg, Except.toOption] at h
    | some node =>
      simp only [hr, hg, Except.toOption, Option.any_some, Kind.isDir_iff] at h
      exact ⟨r, rfl, by rw [kindAt_of_get hg, h]⟩

theorem wayAt_of_dir {l : Loc ρ ν} (h : d.kindAt l = some .dir) : d.wayAt l = some .dir := by
  unfold wayAt
  split
  · rfl
  · exact h

/-- Below a name that leads to a directory one name less is to come. -/
theorem Deep.child {fuel : Nat} {l : Loc ρ ν} {n : ν} (h : d.Deep (fuel + 1) l)
    (hdir : d.isDir (l.child n) = true) : d.Deep fuel (l.child n) := by
  intro j t hleads
  obtain ⟨t', hfollow, hkind⟩ := kindAt_of_isDir hdir
  have hcomps : (l.child n).path.map Comp.name = l.path.map .name ++ [.name n] := by simp
  have ht : t' = t := by
    have heq : d.realpathFollow (l.child n) = .ok t := hleads.enter_eq
    rw [hfollow] at heq
    exact Except.ok.inj heq
  rw [hcomps, leads_append] at hleads
  obtain ⟨i, r, hfirst, hlast⟩ := hleads
  have hfirst : d.reach i r < fuel + 1 := h i r hfirst
  have hless := reach_lt hlast (by rw [← ht]; exact hkind)
  omega

/-- A directory that can be listed takes fuel. -/
theorem Deep.pos {fuel : Nat} {l : Loc ρ ν} {names : List ν} (h : d.Deep fuel l)
    (hnames : d.readDir l = .ok names) : 0 < fuel := by
  unfold readDir at hnames
  cases hr : d.realpathFollow l with
  | error e => simp [hr] at hnames
  | ok r =>
    have hway : d.wayAt r = some .dir := by
      simp only [hr] at hnames
      split at hnames
      · next hway => exact hway
      · cases hnames
      · cases hnames
    obtain ⟨i, hleads⟩ := (enter_iff_leads hway).mp hr
    have hreach : d.reach i r < fuel := h i r hleads
    omega

/-- The ways below `l` that a recursion takes down which goes on below what `descend` admits. -/
def below (d : Disk ρ ν) (descend : Loc ρ ν → Bool) : Nat → Loc ρ ν → List (List ν)
  | 0, _ => []
  | fuel + 1, l =>
    match d.readDir l with
    | .error _ => []
    | .ok names =>
      names.dedup.flatMap fun n =>
        if descend (l.child n) then (below d descend fuel (l.child n)).map (n :: ·) else [[n]]

theorem below_succ (descend : Loc ρ ν → Bool) (fuel : Nat) (l : Loc ρ ν) :
    d.below descend (fuel + 1) l =
      match d.readDir l with
      | .error _ => []
      | .ok names =>
        names.dedup.flatMap fun n =>
          if descend (l.child n) then (d.below descend fuel (l.child n)).map (n :: ·) else [[n]] := rfl

/-- A way that is taken down: there is something at its end, below which the recursion does not go on,
and it does below everything before. -/
structure Taken (d : Disk ρ ν) (descend : Loc ρ ν → Bool) (l : Loc ρ ν) (q : List ν) : Prop where
  ne_nil : q ≠ []
  exists_end : d.lexists (l.join q) = true
  stops : descend (l.join q) = false
  through : ∀ p, p <+: q → p ≠ [] → p ≠ q → descend (l.join p) = true

omit [DecidableEq ρ] [DecidableEq ν] in
theorem join_cons (l : Loc ρ ν) (n : ν) (q : List ν) : l.join (n :: q) = (l.child n).join q := by
  ext1 <;> simp

theorem taken_singleton {descend : Loc ρ ν → Bool} {l : Loc ρ ν} {n : ν} :
    d.Taken descend l [n] ↔ d.lexists (l.child n) = true ∧ descend (l.child n) = false := by
  have hjoin : l.join [n] = l.child n := rfl
  constructor
  · rintro ⟨-, hend, hstops, -⟩
    exact ⟨hjoin ▸ hend, hjoin ▸ hstops⟩
  · rintro ⟨hend, hstops⟩
    refine ⟨by simp, hjoin ▸ hend, hjoin ▸ hstops, fun p hp hne hlt => ?_⟩
    rcases List.prefix_cons_iff.mp hp with rfl | ⟨p', rfl, hp'⟩
    · exact absurd rfl hne
    · rw [List.prefix_nil.mp hp'] at hlt
      exact absurd rfl hlt

theorem taken_cons {descend : Loc ρ ν → Bool} {l : Loc ρ ν} {n : ν} {q : List ν} (hq : q ≠ []) :
    d.Taken descend l (n :: q) ↔ descend (l.child n) = true ∧ d.Taken descend (l.child n) q := by
  constructor
  · rintro ⟨-, hend, hstops, hthrough⟩
    rw [join_cons] at hend hstops
    refine ⟨hthrough [n] (by simp) (by simp) (by simp [hq.symm]), hq, hend, hstops, ?_⟩
    intro p hp hne hlt
    rw [← join_cons]
    exact hthrough (n :: p) (List.cons_prefix_cons.mpr ⟨rfl, hp⟩) (by simp) (by simp [hlt])
  · rintro ⟨hfirst, -, hend, hstops, hthrough⟩
    rw [← join_cons] at hend hstops
    refine ⟨by simp, hend, hstops, fun p hp hne hlt => ?_⟩
    rcases List.prefix_cons_iff.mp hp with rfl | ⟨p', rfl, hp'⟩
    · exact absurd rfl hne
    · by_cases hempty : p' = []
      · subst hempty
        exact hfirst
      · rw [join_cons]
        exact hthrough p' hp' hempty fun heq => hlt (by rw [heq])

theorem Leads.dir (h : d.Leads k cur cs j t) (hcur : d.wayAt cur = some .dir) :
    d.wayAt t = some .dir := by
  induction h with
  | here => exact hcur
  | up _ ih => exact ih (wayAt_up hcur)
  | enter hway _ ih => exact ih hway
  | follow _ _ ih =>
    refine ih ?_
    split
    · exact wayAt_norm (wayAt_empty d none)
    · exact hcur

theorem get_of_wayAt {l : Loc ρ ν} {tg : Link ν} (h : d.wayAt l = some (.symlink tg)) :
    d.get l ≠ none := by
  unfold wayAt at h
  split at h
  · cases h
  · rw [Ne, get_none_iff, h]
    exact Option.some_ne_none _

/-- What `is_dir` admits is there. -/
theorem lexists_of_isDir {l : Loc ρ ν} {n : ν} (h : d.isDir (l.child n) = true) :
    d.lexists (l.child n) = true := by
  obtain ⟨t, ht, hkind⟩ := kindAt_of_isDir h
  have hcomps : (l.child n).path.map Comp.name = l.path.map .name ++ [.name n] := by simp
  obtain ⟨j, hleads⟩ := (enter_iff_leads (wayAt_of_dir hkind)).mp ht
  rw [hcomps, leads_append] at hleads
  obtain ⟨i, r, hfirst, hlast⟩ := hleads
  have hpath : d.realpath (l.child n) = .ok (d.norm (r.child n)) :=
    realpath_child.mpr ⟨r, hfirst.enter_eq, hfirst.dir (wayAt_empty d _), rfl⟩
  have hget : d.get (d.norm (r.child n)) ≠ none := by
    cases hlast with
    | enter hway hend =>
      cases hend
      rw [Ne, get_none_iff, hkind]
      exact Option.some_ne_none _
    | follow hway _ => exact get_of_wayAt hway
  unfold lexists lstat
  rw [hpath]
  cases hnode : d.get (d.norm (r.child n)) with
  | none => exact absurd hnode hget
  | some node => simp [hnode, Except.toOption]

/-- **The recursion takes down exactly these ways, and comes to an end.** -/
theorem mem_below {descend : Loc ρ ν → Bool} (hdescend : ∀ l, descend l = true → d.isDir l = true)
    {fuel : Nat} {l : Loc ρ ν} (hdeep : d.Deep fuel l) (q : List ν) :
    q ∈ d.below descend fuel l ↔ d.Taken descend l q := by
  have hempty : ∀ {l : Loc ρ ν} {n : ν} {q : List ν}, d.Taken descend l (n :: q) →
      d.lexists (l.child n) = true := by
    intro l n q h
    by_cases hq : q = []
    · subst hq
      exact (taken_singleton.mp h).1
    · exact lexists_of_isDir (hdescend _ ((taken_cons hq).mp h).1)
  induction fuel generalizing l q with
  | zero =>
    -- without fuel no way leads to the place
    refine iff_of_false (by simp [below]) fun htaken => ?_
    obtain ⟨n, q, rfl⟩ := List.exists_cons_of_ne_nil htaken.ne_nil
    obtain ⟨names, hnames, -⟩ := mem_readDir.mp (hempty htaken)
    exact absurd (hdeep.pos hnames) (Nat.lt_irrefl 0)
  | succ fuel ih =>
    cases q with
    | nil =>
      refine iff_of_false (fun hmem => ?_) fun htaken => htaken.ne_nil rfl
      unfold below at hmem
      split at hmem
      · cases hmem
      · obtain ⟨n, -, hn⟩ := List.mem_flatMap.mp hmem
        split at hn
        · obtain ⟨q, -, hq⟩ := List.mem_map.mp hn
          cases hq
        · simp at hn
    | cons n q =>
      have hlists : n :: q ∈ d.below descend (fuel + 1) l ↔ d.lexists (l.child n) = true ∧
          n :: q ∈ if descend (l.child n) then (below d descend fuel (l.child n)).map (n :: ·)
            else [[n]] := by
        rw [mem_readDir, below_succ]
        cases d.readDir l with
        | error e => simp
        | ok names =>
          simp only [List.mem_flatMap, List.mem_dedup, Except.ok.injEq, exists_eq_left']
          constructor
          · rintro ⟨m, hm, hmem⟩
            have hhead : m = n := by
              split at hmem
              · obtain ⟨q', -, hq'⟩ := List.mem_map.mp hmem
                cases hq'
                rfl
              · cases List.mem_singleton.mp hmem
                rfl
            subst hhead
            exact ⟨hm, hmem⟩
          · rintro ⟨hm, hmem⟩
            exact ⟨n, hm, hmem⟩
      rw [hlists]
      cases hd : descend (l.child n) with
      | false =>
        rw [if_neg Bool.false_ne_true, List.mem_singleton]
        constructor
        · rintro ⟨hex, heq⟩
          cases heq
          exact taken_singleton.mpr ⟨hex, hd⟩
        · intro htaken
          have hq : q = [] := by
            by_contra hq
            rw [((taken_cons hq).mp htaken).1] at hd
            cases hd
          subst hq
          exact ⟨hempty htaken, rfl⟩
      | true =>
        have hdir := hdescend _ hd
        have hmem : n :: q ∈ (below d descend fuel (l.child n)).map (n :: ·) ↔
            d.Taken descend (l.child n) q :=
          (List.mem_map_of_injective List.cons_injective).trans (ih (hdeep.child hdir) q)
        rw [if_pos rfl, hmem]
        constructor
        · rintro ⟨-, htaken⟩
          exact (taken_cons htaken.ne_nil).mpr ⟨hd, htaken⟩
        · intro htaken
          have hq : q ≠ [] := by
            rintro rfl
            rw [(taken_singleton.mp htaken).2] at hd
            cases hd
          exact ⟨hempty htaken, ((taken_cons hq).mp htaken).2⟩

/-- No way is taken down twice. -/
theorem below_nodup (descend : Loc ρ ν → Bool) (fuel : Nat) (l : Loc ρ ν) :
    (d.below descend fuel l).Nodup := by
  induction fuel generalizing l with
  | zero => exact List.nodup_nil
  | succ fuel ih =>
    unfold below
    cases d.readDir l with
    | error e => exact List.nodup_nil
    | ok names =>
      have hhead : ∀ n q, (q ∈ if descend (l.child n) then
          (below d descend fuel (l.child n)).map (n :: ·) else [[n]]) → q.head? = some n := by
        intro n q hq
        split at hq
        · obtain ⟨q', -, rfl⟩ := List.mem_map.mp hq
          rfl
        · rw [List.mem_singleton.mp hq]
          rfl
      refine List.nodup_flatMap.mpr ⟨fun n _ => ?_, (List.nodup_dedup names).imp ?_⟩
      · split
        · exact (ih _).map fun _ _ h => (List.cons.inj h).2
        · exact List.nodup_singleton _
      · intro n m hne q hn hm
        have heq := (hhead n q hn).symm.trans (hhead m q hm)
        exact hne (Option.some.inj heq)

/-- More fuel than enough changes nothing. -/
theorem below_enough {descend : Loc ρ ν → Bool} (hdescend : ∀ l, descend l = true → d.isDir l = true)
    {fuel more : Nat} {l : Loc ρ ν} (hdeep : d.Deep fuel l) (hle : fuel ≤ more) :
    d.below descend more l = d.below descend fuel l := by
  induction fuel generalizing l more with
  | zero =>
    cases more with
    | zero => rfl
    | succ more =>
      rw [below_succ]
      cases hnames : d.readDir l with
      | error e => rfl
      | ok names => exact absurd (hdeep.pos hnames) (Nat.lt_irrefl 0)
  | succ fuel ih =>
    obtain ⟨more, rfl⟩ : ∃ more', more = more' + 1 := ⟨more - 1, by omega⟩
    rw [below_succ, below_succ]
    cases d.readDir l with
    | error e => rfl
    | ok names =>
      refine List.flatMap_congr fun n _ => ?_
      cases hd : descend (l.child n) with
      | false => rfl
      | true =>
        rw [if_pos rfl, if_pos rfl, ih (hdeep.child (hdescend _ hd)) (by omega)]

end Disk

end BranchFs.Posix
