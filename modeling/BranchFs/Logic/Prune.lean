/-
# BranchFs.Logic.Prune -- removing emptied directories

A directory that lost its last entry is removed, then the one above it, and so on until one is still
in use. `climbed` is what one such climb removes; `prunable` is what a list of climbs removes, said
without them: the directories that hold nothing but directories on the way to where a climb began.
-/
import BranchFs.Logic.Overlay

namespace BranchFs.Logic

variable {ν ε : Type} (dir : ε)

/-- What a climb from `q` removes, while directories in `keep` stop it. -/
def Climbed (K : Shape ν ε) (keep : List ν → Prop) (q x : List ν) : Prop :=
  x ≠ [] ∧ x <+: q ∧ ∀ z, x <+: z → z <+: q →
    K z = some dir ∧ ¬ keep z ∧ ∀ y, z <+: y → K y ≠ none → y <+: q

/-- A directory with nothing at or below it but directories above the places of `Q`. -/
def Prunable (G : Shape ν ε) (keep : List ν → Prop) (Q : List (List ν)) (x : List ν) : Prop :=
  x ≠ [] ∧ G x ≠ none ∧ ∀ y, x <+: y → G y ≠ none →
    G y = some dir ∧ ¬ keep y ∧ ∃ q ∈ Q, y <+: q ∧ G q ≠ none

variable {dir}
variable {G K : Shape ν ε} {keep : List ν → Prop} {Q : List (List ν)} {q x : List ν}

theorem Prunable.mono {Q' : List (List ν)} (h : Prunable dir G keep Q x) (hQ : Q ⊆ Q') :
    Prunable dir G keep Q' x := by
  refine ⟨h.1, h.2.1, fun y hxy hy => ?_⟩
  obtain ⟨hd, hk, q, hq, hle⟩ := h.2.2 y hxy hy
  exact ⟨hd, hk, q, hQ hq, hle⟩

theorem Prunable.below {y : List ν} (h : Prunable dir G keep Q x) (hxy : x <+: y) (hy : G y ≠ none) :
    Prunable dir G keep Q y := by
  refine ⟨?_, hy, fun z hyz hz => h.2.2 z (hxy.trans hyz) hz⟩
  rintro rfl
  exact h.1 (List.prefix_nil.mp hxy)

theorem Prunable.pruned : Pruned dir G (Prunable dir G keep Q) where
  dir_of := fun h => (h.2.2 _ List.prefix_rfl h.2.1).1
  below := fun h hxy _ hy => h.below hxy hy

theorem not_prunable_nil : ¬ Prunable dir G keep [] x := by
  intro h
  obtain ⟨_, _, q, hq, _⟩ := h.2.2 x List.prefix_rfl h.2.1
  cases hq

/-- Nothing is climbed when the first step fails. -/
theorem not_climbed (h : q = [] ∨ K q ≠ some dir ∨ keep q ∨ ∃ y, q <+: y ∧ q ≠ y ∧ K y ≠ none) :
    ¬ Climbed dir K keep q x := by
  rintro ⟨hne, hxq, hall⟩
  obtain ⟨hd, hk, hbelow⟩ := hall q hxq List.prefix_rfl
  rcases h with rfl | h | h | ⟨y, hqy, hqne, hy⟩
  · exact hne (List.prefix_nil.mp hxq)
  · exact h hd
  · exact hk h
  · exact hqne (hqy.eq_of_length_le (hbelow y hqy hy).length_le)

theorem prefix_dropLast {a p : List ν} (h : a <+: p) (hne : a ≠ p) : a <+: p.dropLast := by
  obtain ⟨s, rfl⟩ := h
  have hs : s ≠ [] := by
    rintro rfl
    simp at hne
  rw [List.dropLast_append_of_ne_nil hs]
  exact List.prefix_append a _

/-- **One step of a climb.** An empty directory goes, and the climb goes on from the one above. -/
theorem climbed_iff {K' : Shape ν ε} (hne : q ≠ []) (hq : K q = some dir) (hkeep : ¬ keep q)
    (hempty : ∀ y, q <+: y → q ≠ y → K y = none)
    (hgone : ∀ y, q <+: y → K' y = none) (hrest : ∀ y, ¬ q <+: y → K' y = K y) :
    Climbed dir K keep q x ↔ x = q ∨ Climbed dir K' keep q.dropLast x := by
  have hparent : ¬ q <+: q.dropLast := by
    intro h
    have hlen := h.length_le
    rw [List.length_dropLast] at hlen
    have hpos := List.length_pos_of_ne_nil hne
    omega
  constructor
  · rintro ⟨hxne, hxq, hall⟩
    by_cases heq : x = q
    · exact Or.inl heq
    refine Or.inr ⟨hxne, prefix_dropLast hxq heq, ?_⟩
    intro z hxz hzq
    obtain ⟨hd, hk, hbelow⟩ := hall z hxz (hzq.trans (List.dropLast_prefix q))
    have hqz : ¬ q <+: z := fun h => hparent (h.trans hzq)
    refine ⟨by rw [hrest z hqz, hd], hk, ?_⟩
    intro y hzy hy
    have hqy : ¬ q <+: y := fun h => hy (hgone y h)
    rw [hrest y hqy] at hy
    exact prefix_dropLast (hbelow y hzy hy) fun heq => hqy (heq ▸ List.prefix_rfl)
  · rintro (rfl | ⟨hxne, hxq, hall⟩)
    · refine ⟨hne, List.prefix_rfl, ?_⟩
      intro z hxz hzx
      have hzx' : z = x := hzx.eq_of_length_le hxz.length_le
      subst hzx'
      refine ⟨hq, hkeep, ?_⟩
      intro y hzy hy
      by_cases heq : z = y
      · exact heq ▸ List.prefix_rfl
      · exact absurd (hempty y hzy heq) hy
    · refine ⟨hxne, hxq.trans (List.dropLast_prefix q), ?_⟩
      intro z hxz hzq
      by_cases heq : z = q
      · subst heq
        refine ⟨hq, hkeep, ?_⟩
        intro y hzy hy
        by_cases heq : z = y
        · exact heq ▸ List.prefix_rfl
        · exact absurd (hempty y hzy heq) hy
      · obtain ⟨hd, hk, hbelow⟩ := hall z hxz (prefix_dropLast hzq heq)
        have hqz : ¬ q <+: z := fun h => heq (hzq.eq_of_length_le h.length_le)
        rw [hrest z hqz] at hd
        refine ⟨hd, hk, ?_⟩
        intro y hzy hy
        by_cases hqy : q <+: y
        · by_cases hqe : q = y
          · exact hqe ▸ List.prefix_rfl
          · exact absurd (hempty y hqy hqe) hy
        · have hy' : K' y ≠ none := by rwa [hrest y hqy]
          exact (hbelow y hzy hy').trans (List.dropLast_prefix q)

/-- **One more climb** on a tree that earlier climbs have pruned. -/
theorem prunable_append (hG : ∀ {y a : List ν}, G y ≠ none → a <+: y → G a ≠ none) :
    Prunable dir G keep (Q ++ [q]) x ↔ Prunable dir G keep Q x ∨
      Climbed dir (prune G (Prunable dir G keep Q)) keep q x := by
  constructor
  · intro h
    by_cases hold : Prunable dir G keep Q x
    · exact Or.inl hold
    right
    -- some place at or below `x` lies above `q` alone
    obtain ⟨y, hxy, hy, honly⟩ : ∃ y, x <+: y ∧ G y ≠ none ∧ ∀ q' ∈ Q, y <+: q' → G q' = none := by
      by_contra hno
      push Not at hno
      refine hold ⟨h.1, h.2.1, fun y hxy hy => ?_⟩
      obtain ⟨hd, hk, _⟩ := h.2.2 y hxy hy
      obtain ⟨q', hq', hle, hGq'⟩ := hno y hxy hy
      exact ⟨hd, hk, q', hq', hle, hGq'⟩
    obtain ⟨_, _, q', hq', hyq', hGq'⟩ := h.2.2 y hxy hy
    have hqq : q' = q := by
      rcases List.mem_append.mp hq' with hq' | hq'
      · exact absurd (honly q' hq' hyq') hGq'
      · exact List.mem_singleton.mp hq'
    subst hqq
    refine ⟨h.1, hxy.trans hyq', ?_⟩
    intro z hxz hzq
    have hz : G z ≠ none := hG hGq' hzq
    obtain ⟨hd, hk, _⟩ := h.2.2 z hxz hz
    have hzold : ¬ Prunable dir G keep Q z := by
      intro hzold
      by_cases hyz : y <+: z
      · obtain ⟨_, _, p, hp, hzp, hGp⟩ := hzold.2.2 z List.prefix_rfl hz
        exact hGp (honly p hp (hyz.trans hzp))
      · have hzy : z <+: y := by
          rcases List.prefix_or_prefix_of_prefix hzq hyq' with h | h
          · exact h
          · exact absurd h hyz
        obtain ⟨_, _, p, hp, hyp, hGp⟩ := hzold.2.2 y hzy hy
        exact hGp (honly p hp hyp)
    refine ⟨by rw [prune_of_not hzold, hd], hk, ?_⟩
    intro w hzw hw
    by_contra hwq
    have hwold : ¬ Prunable dir G keep Q w := fun hp => hw (prune_of hp)
    rw [prune_of_not hwold] at hw
    refine hwold ⟨?_, hw, ?_⟩
    · rintro rfl
      exact hwq List.nil_prefix
    · intro v hwv hv
      obtain ⟨hd, hk, p, hp, hvp, hGp⟩ := h.2.2 v ((hxz.trans hzw).trans hwv) hv
      refine ⟨hd, hk, p, ?_, hvp, hGp⟩
      rcases List.mem_append.mp hp with hp | hp
      · exact hp
      · rw [List.mem_singleton] at hp
        subst hp
        exact absurd (hwv.trans hvp) hwq
  · rintro (h | ⟨hne, hxq, hall⟩)
    · exact h.mono (List.subset_append_left Q [q])
    · have hGz : ∀ z, x <+: z → z <+: q → G z = some dir ∧ ¬ keep z := by
        intro z hxz hzq
        obtain ⟨hd, hk, _⟩ := hall z hxz hzq
        by_cases hz : Prunable dir G keep Q z
        · rw [prune_of hz] at hd
          cases hd
        · rw [prune_of_not hz] at hd
          exact ⟨hd, hk⟩
      have hGq : G q ≠ none := by simp [(hGz q hxq List.prefix_rfl).1]
      refine ⟨hne, by simp [(hGz x List.prefix_rfl hxq).1], ?_⟩
      intro y hxy hy
      by_cases hold : Prunable dir G keep Q y
      · obtain ⟨hd, hk, p, hp, hle⟩ := hold.2.2 y List.prefix_rfl hy
        exact ⟨hd, hk, p, List.mem_append_left _ hp, hle⟩
      · have hyq : y <+: q := (hall x List.prefix_rfl hxq).2.2 y hxy (by rwa [prune_of_not hold])
        obtain ⟨hd, hk⟩ := hGz y hxy hyq
        exact ⟨hd, hk, q, by simp, hyq, hGq⟩

/-- Climbing once more prunes a tree that is pruned already. -/
theorem prune_climbed (hG : ∀ {y a : List ν}, G y ≠ none → a <+: y → G a ≠ none) :
    prune (prune G (Prunable dir G keep Q)) (Climbed dir (prune G (Prunable dir G keep Q)) keep q) =
      prune G (Prunable dir G keep (Q ++ [q])) := by
  funext x
  by_cases h : Prunable dir G keep (Q ++ [q]) x
  · rw [prune_of h]
    rcases (prunable_append hG).mp h with h | h
    · unfold prune
      simp only [if_pos h, ite_self]
    · exact prune_of h
  · rw [prune_of_not h, prune_of_not fun hc => h ((prunable_append hG).mpr (Or.inr hc)),
      prune_of_not fun hc => h ((prunable_append hG).mpr (Or.inl hc))]

/-- What is prunable depends on where there are directories and where there is nothing. -/
theorem prunable_congr {G' : Shape ν ε} (hdir : ∀ y, G y = some dir ↔ G' y = some dir)
    (hnone : ∀ y, G y = none ↔ G' y = none) :
    Prunable dir G keep Q x ↔ Prunable dir G' keep Q x := by
  unfold Prunable
  simp only [hdir, ne_eq, hnone]

end BranchFs.Logic
