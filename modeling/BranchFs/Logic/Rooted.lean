/-
# BranchFs.Logic.Rooted -- records that link up to one root

A map of records, each of which may name the key of another one above it. It is `Rooted` when the
root is there and links to nothing, every other record links to one that is there, and following the
links arrives at the root. Three changes keep that: a new record under one that is there, a record
taken out that nothing links to, and records changed in place.

Any finite rooted map is a lineage: its records can be listed so that each comes before the one it
links to (`Rooted.exists_grown`).
-/
import BranchFs.Logic.Lineage
import Mathlib.Data.List.MinMax

namespace BranchFs.Logic

variable {κ β : Type}

/-- Following the links from `k` arrives at `root` after `n` of them. -/
inductive Climbs (up : β → Option κ) (find : κ → Option β) (root : κ) : Nat → κ → Prop
  | root {b : β} (h : find root = some b) (hup : up b = none) : Climbs up find root 0 root
  | link {k p : κ} {b : β} {n : Nat} (h : find k = some b) (hup : up b = some p)
      (hp : Climbs up find root n p) : Climbs up find root (n + 1) k

/-- The records of the map link up to `root`. -/
structure Rooted (up : β → Option κ) (find : κ → Option β) (root : κ) : Prop where
  top : ∃ b, find root = some b ∧ up b = none
  parent : ∀ k b, find k = some b → k ≠ root → ∃ p, up b = some p ∧ find p ≠ none
  climbs : ∀ k, find k ≠ none → ∃ n, Climbs up find root n k

/-- One change of a map. -/
inductive MapStep (up : β → Option κ) (root : κ) (find find' : κ → Option β) : Prop
  | insert (k : κ) (b : β) (p : κ) (hfresh : find k = none) (hup : up b = some p)
      (hp : find p ≠ none) (hself : find' k = some b) (hother : ∀ j, j ≠ k → find' j = find j)
  | erase (k : κ) (hroot : k ≠ root) (hleaf : ∀ j b, find j = some b → up b ≠ some k)
      (hself : find' k = none) (hother : ∀ j, j ≠ k → find' j = find j)
  | inPlace (h : ∀ j, (find' j).map up = (find j).map up)

section

variable {up : β → Option κ} {find find' : κ → Option β} {root k : κ} {n : Nat}

theorem Climbs.found (h : Climbs up find root n k) : find k ≠ none := by
  cases h with
  | root h _ => simp [h]
  | link h _ _ => simp [h]

/-- The number of links is one of the key. -/
theorem Climbs.unique (h : Climbs up find root n k) {n' : Nat} (h' : Climbs up find root n' k) :
    n = n' := by
  induction h generalizing n' with
  | root h hup =>
    cases h' with
    | root _ _ => rfl
    | link h' hup' _ =>
      rw [h] at h'
      cases h'
      rw [hup] at hup'
      cases hup'
  | link h hup _ ih =>
    cases h' with
    | root h' hup' =>
      rw [h] at h'
      cases h'
      rw [hup] at hup'
      cases hup'
    | link h' hup' hp' =>
      rw [h] at h'
      cases h'
      rw [hup] at hup'
      cases hup'
      rw [ih hp']

/-- Links that are kept are followed as before. -/
theorem Climbs.mono (hkeep : ∀ j b, find j = some b → ∃ b', find' j = some b' ∧ up b' = up b)
    (h : Climbs up find root n k) : Climbs up find' root n k := by
  induction h with
  | root h hup =>
    obtain ⟨b', hb', hup'⟩ := hkeep _ _ h
    exact .root hb' (hup'.trans hup)
  | link h hup _ ih =>
    obtain ⟨b', hb', hup'⟩ := hkeep _ _ h
    exact .link hb' (hup'.trans hup) ih

/-- Below a record nothing links to, no way up leads through it. -/
theorem Climbs.erase {j : κ} (hleaf : ∀ i b, find i = some b → up b ≠ some j)
    (hother : ∀ i, i ≠ j → find' i = find i) (h : Climbs up find root n k) (hk : k ≠ j) :
    Climbs up find' root n k := by
  induction h with
  | root h hup => exact .root ((hother _ hk).trans h) hup
  | link h hup _ ih =>
    refine .link ((hother _ hk).trans h) hup (ih ?_)
    rintro rfl
    exact hleaf _ _ h hup

theorem Rooted.insert {b : β} {p : κ} (h : Rooted up find root) (hfresh : find k = none)
    (hup : up b = some p) (hp : find p ≠ none) (hself : find' k = some b)
    (hother : ∀ j, j ≠ k → find' j = find j) : Rooted up find' root := by
  have hkeep : ∀ j c, find j = some c → ∃ c', find' j = some c' ∧ up c' = up c := by
    intro j c hc
    have hne : j ≠ k := by
      rintro rfl
      rw [hfresh] at hc
      cases hc
    exact ⟨c, (hother j hne).trans hc, rfl⟩
  have hfound : ∀ j, find j ≠ none → find' j ≠ none := by
    intro j hj
    obtain ⟨c, hc⟩ := Option.ne_none_iff_exists'.mp hj
    obtain ⟨c', hc', -⟩ := hkeep j c hc
    simp [hc']
  refine ⟨?_, ?_, ?_⟩
  · obtain ⟨r, hr, hrup⟩ := h.top
    obtain ⟨r', hr', hrup'⟩ := hkeep _ _ hr
    exact ⟨r', hr', hrup'.trans hrup⟩
  · intro j c hc hne
    by_cases hj : j = k
    · subst hj
      rw [hself] at hc
      cases hc
      exact ⟨p, hup, hfound p hp⟩
    · rw [hother j hj] at hc
      obtain ⟨q, hq, hqf⟩ := h.parent j c hc hne
      exact ⟨q, hq, hfound q hqf⟩
  · intro j hj
    by_cases hjk : j = k
    · subst hjk
      obtain ⟨n, hn⟩ := h.climbs p hp
      exact ⟨n + 1, .link hself hup (hn.mono hkeep)⟩
    · rw [hother j hjk] at hj
      obtain ⟨n, hn⟩ := h.climbs j hj
      exact ⟨n, hn.mono hkeep⟩

theorem Rooted.erase (h : Rooted up find root) (hroot : k ≠ root)
    (hleaf : ∀ j b, find j = some b → up b ≠ some k) (hself : find' k = none)
    (hother : ∀ j, j ≠ k → find' j = find j) : Rooted up find' root := by
  refine ⟨?_, ?_, ?_⟩
  · obtain ⟨r, hr, hrup⟩ := h.top
    exact ⟨r, (hother root hroot.symm).trans hr, hrup⟩
  · intro j c hc hne
    have hjk : j ≠ k := by
      rintro rfl
      rw [hself] at hc
      cases hc
    rw [hother j hjk] at hc
    obtain ⟨q, hq, hqf⟩ := h.parent j c hc hne
    refine ⟨q, hq, ?_⟩
    rw [hother q]
    · exact hqf
    · rintro rfl
      exact hleaf j c hc hq
  · intro j hj
    have hjk : j ≠ k := by
      rintro rfl
      exact hj hself
    rw [hother j hjk] at hj
    obtain ⟨n, hn⟩ := h.climbs j hj
    exact ⟨n, hn.erase hleaf hother hjk⟩

theorem Rooted.inPlace (h : Rooted up find root) (hsame : ∀ j, (find' j).map up = (find j).map up) :
    Rooted up find' root := by
  have hkeep : ∀ j c, find j = some c → ∃ c', find' j = some c' ∧ up c' = up c := by
    intro j c hc
    have hj := hsame j
    rw [hc, Option.map_some, Option.map_eq_some_iff] at hj
    exact hj
  have hback : ∀ j c, find' j = some c → ∃ c', find j = some c' ∧ up c' = up c := by
    intro j c hc
    have hj := (hsame j).symm
    rw [hc, Option.map_some, Option.map_eq_some_iff] at hj
    exact hj
  refine ⟨?_, ?_, ?_⟩
  · obtain ⟨r, hr, hrup⟩ := h.top
    obtain ⟨r', hr', hrup'⟩ := hkeep _ _ hr
    exact ⟨r', hr', hrup'.trans hrup⟩
  · intro j c hc hne
    obtain ⟨c', hc', hup⟩ := hback j c hc
    obtain ⟨q, hq, hqf⟩ := h.parent j c' hc' hne
    refine ⟨q, hup ▸ hq, ?_⟩
    obtain ⟨d, hd⟩ := Option.ne_none_iff_exists'.mp hqf
    obtain ⟨d', hd', -⟩ := hkeep q d hd
    simp [hd']
  · intro j hj
    obtain ⟨c, hc⟩ := Option.ne_none_iff_exists'.mp hj
    obtain ⟨c', hc', -⟩ := hback j c hc
    obtain ⟨n, hn⟩ := h.climbs j (by simp [hc'])
    exact ⟨n, hn.mono hkeep⟩

/-- **Every change keeps the records linked to the root.** -/
theorem Rooted.step (h : Rooted up find root) (hstep : MapStep up root find find') :
    Rooted up find' root := by
  cases hstep with
  | insert k b p hfresh hup hp hself hother => exact h.insert hfresh hup hp hself hother
  | erase k hroot hleaf hself hother => exact h.erase hroot hleaf hself hother
  | inPlace hsame => exact h.inPlace hsame

/-- What is answered at the root, and at a record once it is answered above it, is answered
everywhere. -/
theorem Rooted.rec_up (h : Rooted up find root) {P : κ → Prop}
    (hroot : ∀ b, find root = some b → up b = none → P root)
    (hlink : ∀ k b p, find k = some b → up b = some p → P p → P k) (hk : find k ≠ none) : P k := by
  obtain ⟨n, hn⟩ := h.climbs k hk
  induction hn with
  | root hb hup => exact hroot _ hb hup
  | link hb hup hp ih => exact hlink _ _ _ hb hup (ih hp.found)

end

/-! ## Rooted maps and lineages -/

section

variable [DecidableEq κ] {key : β → κ} {up : β → Option κ} {bs cs : List β} {root : κ}

theorem lookupKey_perm (h : (bs.map key).Nodup) (hperm : cs.Perm bs) (k : κ) :
    lookupKey key cs k = lookupKey key bs k := by
  have hnodup : (cs.map key).Nodup := (hperm.map key).nodup_iff.mpr h
  cases hb : lookupKey key bs k with
  | none =>
    rw [lookupKey_eq_none] at hb ⊢
    rwa [(hperm.map key).mem_iff]
  | some b =>
    rw [← key_of_lookupKey hb]
    exact lookupKey_of_mem hnodup (hperm.mem_iff.mpr (mem_of_lookupKey hb))

/-- The records of a lineage with one root link up to it. -/
theorem Grown.rooted (hg : Grown key up bs) (hone : ∀ b ∈ bs, up b = none ↔ key b = root) :
    Rooted up (lookupKey key bs) root := by
  have hroot : ∃ b ∈ bs, up b = none := by
    induction hg with
    | root h => exact ⟨_, List.mem_singleton_self _, h⟩
    | fork _ _ _ _ ih =>
      obtain ⟨r, hr, hup⟩ := ih fun b hb => hone b (List.mem_cons_of_mem _ hb)
      exact ⟨r, List.mem_cons_of_mem _ hr, hup⟩
  obtain ⟨r, hr, hrup⟩ := hroot
  have hrkey := (hone r hr).mp hrup
  refine ⟨⟨r, hrkey ▸ lookupKey_of_mem hg.nodup hr, hrup⟩, ?_, ?_⟩
  · intro k b hb hne
    cases hup : up b with
    | none => exact absurd ((key_of_lookupKey hb).symm.trans ((hone b (mem_of_lookupKey hb)).mp hup)) hne
    | some p =>
      refine ⟨p, rfl, ?_⟩
      rw [Ne, lookupKey_eq_none, not_not]
      exact hg.up_mem (mem_of_lookupKey hb) hup
  · intro k hk
    obtain ⟨b, hb⟩ := Option.ne_none_iff_exists'.mp hk
    rw [← key_of_lookupKey hb]
    refine hg.ancestry (P := fun k => ∃ n, Climbs up (lookupKey key bs) root n k) ?_ ?_ b
      (mem_of_lookupKey hb)
    · intro c hc hup
      refine ⟨0, ?_⟩
      have hkey := (hone c hc).mp hup
      have hfind := lookupKey_of_mem hg.nodup hc
      rw [hkey] at hfind ⊢
      exact .root hfind hup
    · rintro c hc p hup ⟨n, hn⟩
      exact ⟨n + 1, .link (lookupKey_of_mem hg.nodup hc) hup hn⟩

/-- In a rooted map of more than one record there is one that is not the root and that nothing links
to: the one with the most links above it. -/
theorem Rooted.exists_leaf (hnodup : (bs.map key).Nodup) (h : Rooted up (lookupKey key bs) root)
    (htwo : 2 ≤ bs.length) : ∃ b ∈ bs, key b ≠ root ∧ ∀ c ∈ bs, up c ≠ some (key b) := by
  have hclimbs : ∀ b ∈ bs, ∃ n, Climbs up (lookupKey key bs) root n (key b) := by
    intro b hb
    exact h.climbs _ (by simp [lookupKey_of_mem hnodup hb])
  choose! depth hdepth using hclimbs
  obtain ⟨b, hb, hmax⟩ : ∃ b ∈ bs, ∀ c ∈ bs, depth c ≤ depth b := by
    have hne : bs ≠ [] := by
      rintro rfl
      simp at htwo
    obtain ⟨b, hb⟩ := Option.ne_none_iff_exists'.mp
      (fun hnone => hne (List.argmax_eq_none.mp hnone) : List.argmax depth bs ≠ none)
    exact ⟨b, List.argmax_mem hb, fun c hc => List.le_of_mem_argmax hc hb⟩
  have hleaf : ∀ c ∈ bs, up c ≠ some (key b) := by
    intro c hc hup
    have hlink := Climbs.link (lookupKey_of_mem hnodup hc) hup (hdepth b hb)
    have hcount := (hdepth c hc).unique hlink
    have := hmax c hc
    omega
  refine ⟨b, hb, ?_, hleaf⟩
  -- were `b` the root, every record would be
  rintro hbroot
  have hzero : depth b = 0 := by
    obtain ⟨r, hr, hrup⟩ := h.top
    exact (hbroot ▸ hdepth b hb).unique (.root hr hrup)
  have hall : ∀ c ∈ bs, key c = root := by
    intro c hc
    have hc0 : depth c = 0 := by
      have := hmax c hc
      omega
    have hcl := hdepth c hc
    rw [hc0] at hcl
    cases hcl
    rfl
  rcases bs with _ | ⟨c, _ | ⟨d, rest⟩⟩
  · exact absurd htwo (by simp)
  · exact absurd htwo (by simp)
  · rw [List.map_cons, List.map_cons, List.nodup_cons] at hnodup
    exact hnodup.1 (by simp [hall c (by simp), hall d (by simp)])

/-- **The records of a rooted map, listed so that each comes before the one it links to.** -/
theorem Rooted.exists_grown (hnodup : (bs.map key).Nodup)
    (h : Rooted up (lookupKey key bs) root) : ∃ cs, cs.Perm bs ∧ Grown key up cs := by
  classical
  induction hlen : bs.length generalizing bs with
  | zero =>
    obtain ⟨r, hr, -⟩ := h.top
    rw [List.length_eq_zero_iff.mp hlen] at hr
    cases hr
  | succ n ih =>
    rcases Nat.lt_or_ge bs.length 2 with hone | htwo
    · obtain ⟨b, rfl⟩ := List.length_eq_one_iff.mp (by omega : bs.length = 1)
      obtain ⟨r, hr, hup⟩ := h.top
      have hrb : r = b := List.mem_singleton.mp (mem_of_lookupKey hr)
      exact ⟨[b], List.Perm.refl _, .root (hrb ▸ hup)⟩
    · obtain ⟨b, hb, hroot, hleaf⟩ := h.exists_leaf hnodup htwo
      have hperm : bs.Perm (b :: bs.erase b) := List.perm_cons_erase hb
      have hnodup' : ((b :: bs.erase b).map key).Nodup := (hperm.map key).nodup_iff.mp hnodup
      have hfresh : key b ∉ (bs.erase b).map key := (List.nodup_cons.mp hnodup').1
      have hother : ∀ j, j ≠ key b → lookupKey key (bs.erase b) j = lookupKey key bs j := by
        intro j hj
        rw [← lookupKey_perm hnodup hperm.symm, lookupKey_cons_ne hj.symm]
      have hrest : Rooted up (lookupKey key (bs.erase b)) root :=
        h.erase hroot (fun j c hc => hleaf c (mem_of_lookupKey hc)) (lookupKey_eq_none.mpr hfresh)
          hother
      obtain ⟨cs, hcs, hg⟩ := ih (List.nodup_cons.mp hnodup').2 hrest (by
        have := hperm.length_eq
        rw [List.length_cons] at this
        omega)
      refine ⟨b :: cs, (hcs.cons b).trans hperm.symm, ?_⟩
      obtain ⟨p, hup, hp⟩ := h.parent (key b) b (lookupKey_of_mem hnodup hb) hroot
      have hpb : p ≠ key b := by
        rintro rfl
        exact hleaf b hb hup
      refine .fork hg hup ?_ ?_
      · rw [(hcs.map key).mem_iff, ← not_not (a := p ∈ _), ← lookupKey_eq_none, hother p hpb]
        exact hp
      · rw [(hcs.map key).mem_iff]
        exact hfresh

end

end BranchFs.Logic
