/-
# BranchFs.Logic.Lineage -- records forked from older records

A lineage is a list of records with distinct keys, newest first: the last is the root, every other
names the key of the record it was forked from, which stands further down. So walking from a record
to its ancestors is structural recursion, and no cycle can be built. A record can be forked off,
changed in place, and pruned when nothing was forked from it.
-/
import Mathlib.Tactic.Common
import Mathlib.Data.List.Nodup

namespace BranchFs.Logic

variable {κ β α : Type}

/-- `bs` grew from one root by forking. -/
inductive Grown (key : β → κ) (up : β → Option κ) : List β → Prop
  | root {b : β} (h : up b = none) : Grown key up [b]
  | fork {b : β} {bs : List β} {k : κ} (h : Grown key up bs) (hup : up b = some k)
      (hk : k ∈ bs.map key) (fresh : key b ∉ bs.map key) : Grown key up (b :: bs)

section Grown

variable {key : β → κ} {up : β → Option κ} {bs : List β} {b : β} {k : κ}

theorem Grown.nodup (h : Grown key up bs) : (bs.map key).Nodup := by
  induction h with
  | root h => simp
  | fork h hup hk fresh ih => simpa using ⟨by simpa using fresh, ih⟩

/-- Whatever a record was forked from is there. -/
theorem Grown.up_mem (h : Grown key up bs) (hb : b ∈ bs) {p : κ} (hp : up b = some p) :
    p ∈ bs.map key := by
  induction h with
  | root h =>
    rw [List.mem_singleton] at hb
    rw [hb, h] at hp
    cases hp
  | fork h hup hk fresh ih =>
    rw [List.map_cons, List.mem_cons]
    right
    rcases List.mem_cons.mp hb with rfl | hb
    · rw [hup] at hp
      exact Option.some.inj hp ▸ hk
    · exact ih hb

/-- A record was not forked from itself. -/
theorem Grown.up_ne_key (h : Grown key up bs) (hb : b ∈ bs) : up b ≠ some (key b) := by
  induction h with
  | root h =>
    rw [List.mem_singleton] at hb
    rw [hb, h]
    simp
  | fork h hup hk fresh ih =>
    rcases List.mem_cons.mp hb with rfl | hb
    · intro heq
      rw [hup] at heq
      exact fresh (Option.some.inj heq ▸ hk)
    · exact ih hb

/-- A change in place that keeps keys and ancestry keeps the lineage. -/
theorem Grown.map (h : Grown key up bs) (f : β → β) (hkey : ∀ b, key (f b) = key b)
    (hup : ∀ b, up (f b) = up b) : Grown key up (bs.map f) := by
  have hkeys : ∀ cs : List β, (cs.map f).map key = cs.map key := by
    intro cs
    simp [hkey]
  induction h with
  | root h => exact Grown.root (by rw [hup]; exact h)
  | fork h hu hk fresh ih =>
    refine Grown.fork ih (by rw [hup]; exact hu) ?_ ?_
    · rw [hkeys]
      exact hk
    · rw [hkeys, hkey]
      exact fresh

/-- What holds at the root and is handed on by every fork holds of every record. -/
theorem Grown.ancestry (hg : Grown key up bs) {P : κ → Prop}
    (hroot : ∀ b ∈ bs, up b = none → P (key b))
    (habove : ∀ b ∈ bs, ∀ p, up b = some p → P p → P (key b)) : ∀ b ∈ bs, P (key b) := by
  induction hg with
  | root h =>
    intro b hb
    exact hroot b hb (by rw [List.mem_singleton.mp hb]; exact h)
  | fork hg hu hk fresh ih =>
    have ih' := ih (fun b hb => hroot b (List.mem_cons_of_mem _ hb))
      (fun b hb => habove b (List.mem_cons_of_mem _ hb))
    intro b hb
    rcases List.mem_cons.mp hb with rfl | hb
    · obtain ⟨c, hc, heq⟩ := List.mem_map.mp hk
      exact habove b (List.mem_cons_self ..) _ hu (heq ▸ ih' c hc)
    · exact ih' b hb

end Grown

/-- The record of a key. -/
def lookupKey [DecidableEq κ] (key : β → κ) (bs : List β) (k : κ) : Option β := bs.find? fun b => decide (key b = k)

section Lookup

variable [DecidableEq κ] {key : β → κ} {up : β → Option κ} {bs : List β} {b : β} {k : κ}

theorem key_of_lookupKey (h : lookupKey key bs k = some b) : key b = k := by
  simpa using List.find?_some h

theorem mem_of_lookupKey (h : lookupKey key bs k = some b) : b ∈ bs := List.mem_of_find?_eq_some h

theorem lookupKey_eq_none : lookupKey key bs k = none ↔ k ∉ bs.map key := by
  simp [lookupKey, List.find?_eq_none]

theorem lookupKey_isSome : (lookupKey key bs k).isSome = true ↔ k ∈ bs.map key := by
  rw [← not_iff_not, ← lookupKey_eq_none]
  simp

theorem lookupKey_cons_self (b : β) (bs : List β) : lookupKey key (b :: bs) (key b) = some b := by
  simp [lookupKey]

theorem lookupKey_cons_ne (h : key b ≠ k) : lookupKey key (b :: bs) k = lookupKey key bs k := by
  simp [lookupKey, h]

theorem lookupKey_of_mem (h : (bs.map key).Nodup) (hb : b ∈ bs) :
    lookupKey key bs (key b) = some b := by
  induction bs with
  | nil => cases hb
  | cons c cs ih =>
    rw [List.map_cons, List.nodup_cons] at h
    rcases List.mem_cons.mp hb with rfl | hb
    · exact lookupKey_cons_self b cs
    · rw [lookupKey_cons_ne]
      · exact ih h.2 hb
      · intro heq
        exact h.1 (heq ▸ List.mem_map_of_mem hb)

/-- Pruning a record nothing was forked from, other than the root, keeps the lineage. -/
theorem Grown.prune (h : Grown key up bs) (hleaf : ∀ b ∈ bs, up b ≠ some k)
    (hroot : ∀ b ∈ bs, key b = k → up b ≠ none) :
    Grown key up (bs.filter fun b => decide (key b ≠ k)) := by
  have keep : ∀ (cs : List β) (p : κ), p ≠ k → p ∈ cs.map key →
      p ∈ (cs.filter fun b => decide (key b ≠ k)).map key := by
    intro cs p hp hmem
    obtain ⟨c, hc, rfl⟩ := List.mem_map.mp hmem
    exact List.mem_map_of_mem (List.mem_filter.mpr ⟨hc, by simpa using hp⟩)
  induction h with
  | @root b h =>
    have hne : key b ≠ k := fun heq => hroot b (List.mem_singleton_self b) heq h
    simpa [hne] using Grown.root h
  | @fork b bs p h hup hk fresh ih =>
    have ih' := ih (fun c hc => hleaf c (List.mem_cons_of_mem b hc))
      (fun c hc => hroot c (List.mem_cons_of_mem b hc))
    by_cases hne : key b = k
    · simpa [hne] using ih'
    · have hp : p ≠ k := by
        rintro rfl
        exact hleaf b (List.mem_cons_self ..) hup
      rw [List.filter_cons_of_pos (by simpa using hne)]
      refine Grown.fork ih' hup (keep bs p hp hk) ?_
      intro hmem
      obtain ⟨c, hc, heq⟩ := List.mem_map.mp hmem
      exact fresh (heq ▸ List.mem_map_of_mem (List.mem_of_mem_filter hc))

theorem lookupKey_map {f : β → β} (hkey : ∀ b, key (f b) = key b) (bs : List β) (k : κ) :
    lookupKey key (bs.map f) k = (lookupKey key bs k).map f := by
  induction bs with
  | nil => rfl
  | cons b bs ih =>
    by_cases hb : key b = k
    · simp [lookupKey, hkey, hb]
    · rw [List.map_cons, lookupKey_cons_ne (by rw [hkey]; exact hb), lookupKey_cons_ne hb, ih]

theorem lookupKey_prune (bs : List β) (k j : κ) :
    lookupKey key (bs.filter fun b => decide (key b ≠ k)) j =
      if j = k then none else lookupKey key bs j := by
  induction bs with
  | nil => simp [lookupKey]
  | cons b bs ih =>
    by_cases hb : key b = k
    · rw [List.filter_cons_of_neg (by simp [hb]), ih]
      split
      · rfl
      · next hj => rw [lookupKey_cons_ne (by rw [hb]; exact fun h => hj h.symm)]
    · rw [List.filter_cons_of_pos (by simp [hb])]
      by_cases hj : key b = j
      · rw [← hj, lookupKey_cons_self, lookupKey_cons_self, if_neg hb]
      · rw [lookupKey_cons_ne hj, lookupKey_cons_ne hj, ih]

end Lookup

/-! ## Climbing to the root -/

/-- A value computed from a record and the value of the record it was forked from. -/
def climb [DecidableEq κ] (key : β → κ) (up : β → Option κ) (missing : α) (atRoot : β → α) (above : β → α → α) :
    List β → κ → α
  | [], _ => missing
  | b :: bs, k =>
    if key b = k then
      match up b with
      | none => atRoot b
      | some p => above b (climb key up missing atRoot above bs p)
    else climb key up missing atRoot above bs k

section Climb

variable [DecidableEq κ] {key : β → κ} {up : β → Option κ} {missing : α} {atRoot : β → α} {above : β → α → α}
  {bs : List β} {b : β} {k p : κ}

theorem climb_missing (h : k ∉ bs.map key) : climb key up missing atRoot above bs k = missing := by
  induction bs with
  | nil => rfl
  | cons b bs ih =>
    rw [List.map_cons, List.mem_cons, not_or] at h
    rw [climb, if_neg (fun heq => h.1 heq.symm), ih h.2]

/-- Newer records do not matter. -/
theorem climb_cons_ne (h : key b ≠ k) :
    climb key up missing atRoot above (b :: bs) k = climb key up missing atRoot above bs k := by
  rw [climb, if_neg h]

theorem climb_root (hg : Grown key up bs) (h : lookupKey key bs k = some b) (hup : up b = none) :
    climb key up missing atRoot above bs k = atRoot b := by
  induction hg with
  | root _ =>
    have hmem := mem_of_lookupKey h
    rw [List.mem_singleton] at hmem
    subst hmem
    rw [climb, if_pos (key_of_lookupKey h), hup]
  | @fork c cs q _ hu _ _ ih =>
    by_cases hc : key c = k
    · have hcb : c = b := by
        rw [← hc, lookupKey_cons_self] at h
        exact Option.some.inj h
      rw [hcb, hup] at hu
      cases hu
    · rw [climb_cons_ne hc]
      rw [lookupKey_cons_ne hc] at h
      exact ih h

/-- The value of a record, from that of the record it was forked from. -/
theorem climb_above (hg : Grown key up bs) (h : lookupKey key bs k = some b) (hup : up b = some p) :
    climb key up missing atRoot above bs k =
      above b (climb key up missing atRoot above bs p) := by
  induction hg with
  | root hr =>
    have hmem := mem_of_lookupKey h
    rw [List.mem_singleton] at hmem
    rw [hmem, hr] at hup
    cases hup
  | @fork c cs q hg hu hk fresh ih =>
    by_cases hc : key c = k
    · have hcb : c = b := by
        rw [← hc, lookupKey_cons_self] at h
        exact Option.some.inj h
      subst hcb
      have hq : q = p := by
        rw [hu] at hup
        exact Option.some.inj hup
      subst hq
      have hne : key c ≠ q := by
        rintro rfl
        exact fresh hk
      rw [climb, if_pos hc, hu, climb_cons_ne hne]
    · rw [lookupKey_cons_ne hc] at h
      have hp : p ∈ cs.map key := hg.up_mem (mem_of_lookupKey h) hup
      have hne : key c ≠ p := by
        rintro rfl
        exact fresh hp
      rw [climb_cons_ne hc, climb_cons_ne hne]
      exact ih h

/-- Climbing looks at a record and what stands below it in the list, nothing else. -/
theorem climb_congr {missing' : α} {atRoot' : β → α} {above' : β → α → α} (hm : missing = missing')
    (hr : ∀ b ∈ bs, atRoot b = atRoot' b) (ha : ∀ b ∈ bs, ∀ x, above b x = above' b x) (k : κ) :
    climb key up missing atRoot above bs k = climb key up missing' atRoot' above' bs k := by
  induction bs generalizing k with
  | nil => exact hm
  | cons b bs ih =>
    have ih' := ih (fun c hc => hr c (List.mem_cons_of_mem b hc))
      (fun c hc => ha c (List.mem_cons_of_mem b hc))
    simp only [climb]
    rw [ih' k]
    split
    · cases up b with
      | none => exact hr b (List.mem_cons_self ..)
      | some p =>
        simp only [ih' p]
        exact ha b (List.mem_cons_self ..) _
    · rfl

/-- Two climbs that agree step by step agree. -/
theorem climb_rel {α' : Type} {missing' : α'} {atRoot' : β → α'} {above' : β → α' → α'}
    {R : α → α' → Prop} (hm : R missing missing') (hr : ∀ b ∈ bs, R (atRoot b) (atRoot' b))
    (ha : ∀ b ∈ bs, ∀ x x', R x x' → R (above b x) (above' b x')) (k : κ) :
    R (climb key up missing atRoot above bs k) (climb key up missing' atRoot' above' bs k) := by
  induction bs generalizing k with
  | nil => exact hm
  | cons b bs ih =>
    have ih' := ih (fun c hc => hr c (List.mem_cons_of_mem b hc))
      (fun c hc => ha c (List.mem_cons_of_mem b hc))
    simp only [climb]
    split
    · cases up b with
      | none => exact hr b (List.mem_cons_self ..)
      | some p => exact ha b (List.mem_cons_self ..) _ _ (ih' p)
    · exact ih' k

/-- What every record adds to the climb keeps, the climb has. -/
theorem climb_of {P : α → Prop} (hm : P missing) (hr : ∀ b ∈ bs, P (atRoot b))
    (ha : ∀ b ∈ bs, ∀ x, P x → P (above b x)) (k : κ) : P (climb key up missing atRoot above bs k) := by
  induction bs generalizing k with
  | nil => exact hm
  | cons b bs ih =>
    have ih' := ih (fun c hc => hr c (List.mem_cons_of_mem b hc))
      (fun c hc => ha c (List.mem_cons_of_mem b hc))
    simp only [climb]
    split
    · cases up b with
      | none => exact hr b (List.mem_cons_self ..)
      | some p => exact ha b (List.mem_cons_self ..) _ (ih' p)
    · exact ih' k

end Climb

section Older

variable [DecidableEq κ] {key : β → κ} {up : β → Option κ} {bs : List β} {b c : β} {k p : κ}

/-- The records older than that of `k`. -/
def olderThan (key : β → κ) : List β → κ → List β
  | [], _ => []
  | b :: bs, k => if key b = k then bs else olderThan key bs k

theorem olderThan_suffix (bs : List β) (k : κ) : olderThan key bs k <:+ bs := by
  induction bs with
  | nil => exact List.suffix_refl _
  | cons b bs ih =>
    rw [olderThan]
    split
    · exact List.suffix_cons b bs
    · exact ih.trans (List.suffix_cons b bs)

theorem mem_of_mem_olderThan (h : c ∈ olderThan key bs k) : c ∈ bs :=
  (olderThan_suffix bs k).subset h

/-- The record itself is not among the older ones. -/
theorem key_ne_of_mem_olderThan (h : (bs.map key).Nodup) (hc : c ∈ olderThan key bs k) :
    key c ≠ k := by
  induction bs with
  | nil => cases hc
  | cons b bs ih =>
    rw [List.map_cons, List.nodup_cons] at h
    rw [olderThan] at hc
    split at hc
    · next hb =>
      intro heq
      exact h.1 (hb ▸ heq ▸ List.mem_map_of_mem hc)
    · exact ih h.2 hc

theorem olderThan_map {f : β → β} (hkey : ∀ b, key (f b) = key b)
    (hf : ∀ b, key b ≠ k → f b = b) (h : (bs.map key).Nodup) :
    olderThan key (bs.map f) k = olderThan key bs k := by
  induction bs with
  | nil => rfl
  | cons b bs ih =>
    rw [List.map_cons, List.nodup_cons] at h
    rw [List.map_cons, olderThan, olderThan, hkey, ih h.2]
    split
    · next hb =>
      -- nothing further down has this key, so nothing changes there
      conv_rhs => rw [← List.map_id bs]
      refine List.map_congr_left fun c hc => ?_
      refine hf c ?_
      rintro hck
      exact h.1 (hb ▸ hck ▸ List.mem_map_of_mem hc)
    · rfl

/-- What a record was forked from is older. -/
theorem up_mem_olderThan (hg : Grown key up bs) (h : lookupKey key bs k = some b)
    (hup : up b = some p) : p ∈ (olderThan key bs k).map key := by
  induction hg with
  | root hr =>
    have hmem := mem_of_lookupKey h
    rw [List.mem_singleton] at hmem
    rw [hmem, hr] at hup
    cases hup
  | @fork c cs q hg hu hk fresh ih =>
    rw [olderThan]
    by_cases hc : key c = k
    · have hcb : c = b := by
        rw [← hc, lookupKey_cons_self] at h
        exact Option.some.inj h
      rw [if_pos hc]
      rw [← hcb, hu] at hup
      exact Option.some.inj hup ▸ hk
    · rw [if_neg hc]
      rw [lookupKey_cons_ne hc] at h
      exact ih h

/-- What is older than an older record is older. -/
theorem olderThan_suffix_of_mem (h : (bs.map key).Nodup) (hp : p ∈ (olderThan key bs k).map key) :
    olderThan key bs p <:+ olderThan key bs k := by
  induction bs with
  | nil => exact List.suffix_refl _
  | cons b bs ih =>
    rw [List.map_cons, List.nodup_cons] at h
    have hbs : p ∈ bs.map key := by
      rw [olderThan] at hp
      split at hp
      · exact hp
      · exact List.map_subset key (olderThan_suffix bs k).subset hp
    have hne : key b ≠ p := by
      rintro rfl
      exact h.1 hbs
    rw [olderThan, if_neg hne, olderThan]
    split
    · exact olderThan_suffix bs p
    · next hb =>
      rw [olderThan, if_neg hb] at hp
      exact ih h.2 hp

/-- Taking a record out takes it out of the older ones. -/
theorem olderThan_filter (hne : k ≠ p) :
    olderThan key (bs.filter fun b => decide (key b ≠ p)) k =
      (olderThan key bs k).filter fun b => decide (key b ≠ p) := by
  induction bs with
  | nil => rfl
  | cons b bs ih =>
    by_cases hb : key b = p
    · rw [List.filter_cons_of_neg (by simpa using hb), ih, olderThan, if_neg]
      rintro hk
      exact hne (hk.symm.trans hb)
    · rw [List.filter_cons_of_pos (by simpa using hb), olderThan, olderThan, ih]
      split <;> rfl

/-- Mapping records by a map that keeps the keys maps the older ones. -/
theorem map_olderThan {f : β → β} (hkey : ∀ b, key (f b) = key b) :
    olderThan key (bs.map f) k = (olderThan key bs k).map f := by
  induction bs with
  | nil => rfl
  | cons b bs ih =>
    rw [List.map_cons, olderThan, olderThan, hkey, ih]
    split <;> rfl

/-- What a record was forked from stands among the older ones, and climbing from there needs no
others. -/
theorem climb_olderThan {missing : α} {atRoot : β → α} {above : β → α → α} (hg : Grown key up bs)
    (h : lookupKey key bs k = some b) (hup : up b = some p) :
    climb key up missing atRoot above bs p =
      climb key up missing atRoot above (olderThan key bs k) p := by
  induction hg with
  | root hr =>
    have hmem := mem_of_lookupKey h
    rw [List.mem_singleton] at hmem
    rw [hmem, hr] at hup
    cases hup
  | @fork c cs q hg hu hk fresh ih =>
    by_cases hc : key c = k
    · have hcb : c = b := by
        rw [← hc, lookupKey_cons_self] at h
        exact Option.some.inj h
      subst hcb
      have hne : key c ≠ p := by
        rintro rfl
        exact fresh (by rw [hu] at hup; exact Option.some.inj hup ▸ hk)
      rw [climb_cons_ne hne, olderThan, if_pos hc]
    · rw [lookupKey_cons_ne hc] at h
      have hne : key c ≠ p := by
        rintro rfl
        exact fresh (hg.up_mem (mem_of_lookupKey h) hup)
      rw [climb_cons_ne hne, olderThan, if_neg hc]
      exact ih h

end Older

end BranchFs.Logic
