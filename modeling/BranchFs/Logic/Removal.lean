/-
# BranchFs.Logic.Removal -- taking a subtree out of the delta of an overlay

A removal drops what the delta holds at a path and below, and the directories above that this empties.
Both only uncover what is underneath. `Emptied` are the directories that go; whether a walk notices
them going depends on what is uncovered in their place.
-/
import BranchFs.Logic.Aside
import BranchFs.Logic.Prune

namespace BranchFs.Logic

set_option linter.unusedSectionVars false

variable {ν ε : Type} [DecidableEq ν]

/-- The directories above `p` that go with what stands at `p`: they hold nothing else, and none of
`keep` is among them. -/
def Emptied (dir : ε) (δ : Shape ν ε) (keep : List ν → Prop) (p x : List ν) : Prop :=
  δ p ≠ none ∧ Climbed dir (dropped δ p) keep p.dropLast x

/-- The delta without `p` and what this empties. -/
noncomputable def removed (dir : ε) (δ : Shape ν ε) (keep : List ν → Prop) (p : List ν) : Shape ν ε :=
  prune (dropped δ p) (Emptied dir δ keep p)

variable {dir : ε} {δ I : Shape ν ε} {T T' : List ν → Prop} {keep : List ν → Prop} {p q x : List ν}

/-- What a walk shows at a place it shows nothing below. -/
theorem shown_of_none_above {K : Shape ν ε} (h : K p = none) (hpq : p <+: q) :
    shown dir K q = none := by
  by_cases heq : p = q
  · subst heq
    unfold shown
    split
    · exact h
    · rfl
  · exact shown_of_not hpq heq (by simp [h])

/-- Two trees with directories on the way to `p`, the same off it, show the same off it. -/
theorem shown_off {K K' : Shape ν ε}
    (hway : ∀ a, a <+: p → a ≠ p → K a = some dir ∧ K' a = some dir)
    (hoff : ∀ x, ¬ x <+: p → ¬ p <+: x → K' x = K x) (hq : ¬ p <+: q) :
    shown dir K' q = shown dir K q := by
  refine shown_congr fun a ha => ?_
  have hpa : ¬ p <+: a := fun h => hq (h.trans ha)
  by_cases hap : a <+: p
  · obtain ⟨hK, hK'⟩ := hway a hap fun heq => hpa (heq ▸ List.prefix_rfl)
    rw [hK, hK']
  · exact hoff a hap hpa

theorem not_prefix_dropLast (hp : p ≠ []) : ¬ p <+: p.dropLast := by
  intro h
  have hlen := h.length_le
  have hpos := List.length_pos_of_ne_nil hp
  rw [List.length_dropLast] at hlen
  omega

theorem Emptied.above (h : Emptied dir δ keep p x) : x <+: p :=
  h.2.2.1.trans (List.dropLast_prefix p)

theorem Emptied.not_below (hp : p ≠ []) (h : Emptied dir δ keep p x) : ¬ p <+: x :=
  fun hpx => not_prefix_dropLast hp (hpx.trans h.2.2.1)

/-- What goes is a directory of the delta. -/
theorem Emptied.was_dir (h : Emptied dir δ keep p x) : δ x = some dir := by
  obtain ⟨hd, _, _⟩ := h.2.2.2 x List.prefix_rfl h.2.2.1
  unfold dropped at hd
  split at hd
  · cases hd
  · exact hd

theorem Emptied.ne_nil (h : Emptied dir δ keep p x) : x ≠ [] := h.2.1

theorem removed_below (hpq : p <+: q) : removed dir δ keep p q = none := by
  unfold removed prune
  split
  · rfl
  · exact if_pos hpq

theorem removed_emptied (h : Emptied dir δ keep p x) : removed dir δ keep p x = none := prune_of h

theorem removed_else (hq : ¬ p <+: q) (h : ¬ Emptied dir δ keep p q) :
    removed dir δ keep p q = δ q := by
  unfold removed
  rw [prune_of_not h]
  exact if_neg hq

/-- Where nothing stands nothing is removed. -/
theorem removed_of_none (hδ : Closed dir δ) (h : δ p = none) : removed dir δ keep p = δ := by
  funext q
  by_cases hpq : p <+: q
  · rw [removed_below hpq]
    by_contra hq
    by_cases heq : p = q
    · exact hq (by rw [← heq, h])
    · rw [hδ.above (fun hn => hq hn.symm) hpq heq] at h
      cases h
  · exact removed_else hpq fun he => he.1 h

/-- Records elsewhere than above `p` do not matter. -/
theorem removed_congr {keep' : List ν → Prop} (h : ∀ z, z <+: p.dropLast → (keep' z ↔ keep z)) :
    removed dir δ keep' p = removed dir δ keep p := by
  have hiff : ∀ x, Emptied dir δ keep' p x ↔ Emptied dir δ keep p x := by
    intro x
    unfold Emptied Climbed
    refine and_congr_right fun _ => and_congr_right fun _ => and_congr_right fun _ => ?_
    refine forall₃_congr fun z _ hz => ?_
    rw [h z hz]
  exact congrArg (prune _) (funext fun x => propext (hiff x))

section Walks

variable (hT : ∀ t, ¬ p <+: t → (T' t ↔ T t))

include hT

theorem covers_off (hq : ¬ p <+: q) : Covers T' q ↔ Covers T q := by
  have hoff : ∀ {t}, t <+: q → ¬ p <+: t := fun ht hpt => hq (hpt.trans ht)
  constructor
  · rintro ⟨t, ht, htq⟩
    exact ⟨t, (hT t (hoff htq)).mp ht, htq⟩
  · rintro ⟨t, ht, htq⟩
    exact ⟨t, (hT t (hoff htq)).mpr ht, htq⟩

/-- Off the removed subtree the overlay is what it was, the emptied directories apart. -/
theorem overlay_removed_off (hq : ¬ p <+: q) (h : ¬ Emptied dir δ keep p q) :
    overlay (removed dir δ keep p) T' I q = overlay δ T I q := by
  have hcov := covers_off hT hq
  have hr := removed_else hq h
  cases hd : δ q with
  | some k => rw [overlay_of_some hd, overlay_of_some (hr.trans hd)]
  | none =>
    by_cases hc : Covers T q
    · rw [overlay_of_covered hd hc, overlay_of_covered (hr.trans hd) (hcov.mpr hc)]
    · rw [overlay_of_none hd hc, overlay_of_none (hr.trans hd) fun hc' => hc (hcov.mp hc')]

theorem overlay_removed_emptied (hp : p ≠ []) (h : Emptied dir δ keep p x) :
    overlay (removed dir δ keep p) T' I x = some dir ↔ ¬ Covers T x ∧ I x = some dir := by
  have hcov := covers_off hT (h.not_below hp)
  by_cases hc : Covers T x
  · rw [overlay_of_covered (removed_emptied h) (hcov.mpr hc)]
    simp [hc]
  · rw [overlay_of_none (removed_emptied h) fun hc' => hc (hcov.mp hc')]
    simp [hc]

/-- **When a removal is not noticed elsewhere**: exactly when each directory that goes is a directory
underneath, and not under a whiteout. -/
theorem shown_removed_off_iff (hδ : Closed dir δ) (hp : p ≠ []) :
    (∀ q, ¬ p <+: q →
      shown dir (overlay (removed dir δ keep p) T' I) q = shown dir (overlay δ T I) q) ↔
      ∀ x, Emptied dir δ keep p x → ¬ Covers T x ∧ I x = some dir := by
  constructor
  · intro hsame x hx
    have hnon : δ x ≠ none := by simp [hx.was_dir]
    have hbefore : shown dir (overlay δ T I) x = some dir := by
      rw [shown_of_dirs fun a ha hne => overlay_of_some (hδ.above hnon ha hne)]
      exact overlay_of_some hx.was_dir
    have hafter := hsame x (hx.not_below hp)
    rw [hbefore, shown_eq_some] at hafter
    exact (overlay_removed_emptied hT hp hx).mp hafter.2
  · intro hstay q hq
    refine shown_congr fun a ha => ?_
    have hpa : ¬ p <+: a := fun hpa => hq (hpa.trans ha)
    by_cases hx : Emptied dir δ keep p a
    · rw [(overlay_removed_emptied hT hp hx).mpr (hstay a hx), overlay_of_some hx.was_dir]
    · exact overlay_removed_off hT hpa hx

end Walks

/-- **When a removal lets the subtree underneath through**: exactly when no whiteout and no leaf stands
above it. -/
theorem shown_removed_below_iff {K : List ν → Prop} (hδ : Closed dir δ) (hp : p ≠ [])
    (hT : ∀ t, ¬ p <+: t → (T' t ↔ T t)) (hbelow : ∀ t, T' t → ¬ p <+: t)
    (hthere : shown dir I p ≠ none) :
    (∀ q, p <+: q → shown dir (overlay (removed dir δ K p) T' I) q = shown dir I q) ∧
      (∀ q, ¬ p <+: q →
        shown dir (overlay (removed dir δ K p) T' I) q = shown dir (overlay δ T I) q) ↔
      (∀ t, T t → t <+: p → t = p) ∧ ∀ f, Leaf dir δ f → f <+: p → f = p := by
  obtain ⟨k, hk⟩ := Option.ne_none_iff_exists'.mp hthere
  obtain ⟨hway, hIp⟩ := shown_eq_some.mp hk
  constructor
  · rintro ⟨hsame, hoff⟩
    have hshows := hsame p List.prefix_rfl
    rw [hk, shown_eq_some] at hshows
    refine ⟨fun t ht htp => ?_, fun f hf hfp => ?_⟩
    · by_contra hne
      have hnot : ¬ p <+: t := fun hpt => hne (htp.eq_of_length_le hpt.length_le)
      have hcov : Covers T' p := ⟨t, (hT t hnot).mpr ht, htp⟩
      rw [overlay_of_covered (removed_below List.prefix_rfl) hcov] at hshows
      cases hshows.2
    · by_contra hne
      have hnot : ¬ p <+: f := fun hpf => hne (hfp.eq_of_length_le hpf.length_le)
      obtain ⟨e, he, hed⟩ := hf
      have hkept : removed dir δ K p f = some e := by
        rw [removed_else hnot, he]
        intro hx
        rw [hx.was_dir] at he
        exact hed (Option.some.inj he).symm
      have hdir := hshows.1 f hfp hne
      rw [overlay_of_some hkept] at hdir
      exact hed (Option.some.inj hdir)
  · rintro ⟨hno, hleaf⟩
    -- no whiteout is left above `p`, at it or below
    have hfree : ∀ q, p <+: q → ¬ Covers T' q := by
      rintro q hpq ⟨t, ht, htq⟩
      have hnot := hbelow t ht
      rcases List.prefix_or_prefix_of_prefix htq hpq with htp | hpt
      · exact hnot ((hno t ((hT t hnot).mp ht) htp) ▸ List.prefix_rfl)
      · exact hnot hpt
    have habove : ∀ a, a <+: p → a ≠ p → ¬ Covers T a := by
      rintro a ha hne ⟨t, ht, hta⟩
      have htp := hno t ht (hta.trans ha)
      exact hne (ha.eq_of_length_le (htp ▸ hta.length_le))
    have hstay : ∀ x, Emptied dir δ K p x → ¬ Covers T x ∧ I x = some dir := by
      intro x hx
      have hne : x ≠ p := fun heq => hx.not_below hp (heq ▸ List.prefix_rfl)
      exact ⟨habove x hx.above hne, hway x hx.above hne⟩
    have hdir : ∀ a, a <+: p → a ≠ p → overlay (removed dir δ K p) T' I a = some dir := by
      intro a ha hne
      have hpa : ¬ p <+: a := fun hpa => hne (ha.eq_of_length_le hpa.length_le)
      by_cases hx : Emptied dir δ K p a
      · exact (overlay_removed_emptied hT hp hx).mpr (hstay a hx)
      rw [overlay_removed_off hT hpa hx]
      rcases shape_cases dir δ a with hl | hd | hn
      · exact absurd (hleaf a hl ha) hne
      · exact overlay_of_some hd
      · rw [overlay_of_none hn (habove a ha hne), hway a ha hne]
    refine ⟨fun q hpq => shown_congr fun a ha => ?_, (shown_removed_off_iff hT hδ hp).mpr hstay⟩
    -- above `p` both are directories, from `p` on both are what is underneath
    rcases List.prefix_or_prefix_of_prefix ha hpq with hap | hpa
    · by_cases heq : a = p
      · subst heq
        rw [overlay_of_none (removed_below List.prefix_rfl) (hfree a List.prefix_rfl)]
      · rw [hdir a hap heq, hway a hap heq]
    · rw [overlay_of_none (removed_below hpa) (hfree a hpa)]

end BranchFs.Logic
