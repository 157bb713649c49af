/-
# BranchFs.Logic.Moved -- a subtree of an overlay under another name

Moving a subtree of the delta moves nothing of what the delta lies over. At the new place the overlay
shows the old subtree exactly when, wherever the delta has no entry of its own, the same shows through at
both places (`shown_transplanted_iff`).
-/
import BranchFs.Logic.Overlay

namespace BranchFs.Logic

variable {ν ε : Type} {dir : ε} {δ δ' I : Shape ν ε} {T T' : List ν → Prop} {s t q : List ν}

open scoped Classical in
/-- What an overlay shows where its delta has nothing. -/
noncomputable def beneath (T : List ν → Prop) (I : Shape ν ε) : Shape ν ε := fun q =>
  if Covers T q then none else I q

theorem overlay_eq_or (δ : Shape ν ε) (T : List ν → Prop) (I : Shape ν ε) (q : List ν) :
    overlay δ T I q = (δ q).or (beneath T I q) := by
  unfold overlay
  cases δ q with
  | some k => rfl
  | none => rfl

/-- Only the whiteouts at the path and above it matter. -/
theorem beneath_congr (h : ∀ t, t <+: q → (T t ↔ T' t)) (I : Shape ν ε) :
    beneath T I q = beneath T' I q := by
  have hcov : Covers T q ↔ Covers T' q := by
    constructor
    · rintro ⟨t, ht, htq⟩
      exact ⟨t, (h t htq).mp ht, htq⟩
    · rintro ⟨t, ht, htq⟩
      exact ⟨t, (h t htq).mpr ht, htq⟩
  classical
  unfold beneath
  exact if_congr hcov rfl rfl

/-- Below directories a walk goes on as it does from a root. -/
theorem shown_append {K : Shape ν ε} (hway : ∀ a, a <+: s → a ≠ s → K a = some dir) (r : List ν) :
    shown dir K (s ++ r) = shown dir (fun q => K (s ++ q)) r := by
  have hiff : (∀ a, a <+: s ++ r → a ≠ s ++ r → K a = some dir) ↔
      ∀ a, a <+: r → a ≠ r → K (s ++ a) = some dir := by
    constructor
    · intro h a ha hne
      apply h (s ++ a) ((List.prefix_append_right_inj s).mpr ha)
      exact fun heq => hne (List.append_cancel_left heq)
    · intro h a ha hne
      rcases List.prefix_or_prefix_of_prefix ha (List.prefix_append s r) with has | ⟨c, rfl⟩
      · by_cases heq : a = s
        · subst heq
          rw [← List.append_nil a]
          apply h [] List.nil_prefix
          rintro rfl
          exact hne (List.append_nil a).symm
        · exact hway a has heq
      · apply h c ((List.prefix_append_right_inj s).mp ha)
        exact fun heq => hne (by rw [heq])
  classical
  unfold shown
  exact if_congr hiff rfl rfl

/-- The subtree of `δ` at `s` stands at `t` in `δ'`. What the overlay had at `s` itself the other one has
at `t`, and the ways to both lead through directories. -/
structure Transplanted (dir : ε) (δ δ' I : Shape ν ε) (T T' : List ν → Prop) (s t : List ν) : Prop where
  source : ∀ a, a <+: s → a ≠ s → overlay δ T I a = some dir
  target : ∀ a, a <+: t → a ≠ t → overlay δ' T' I a = some dir
  top : overlay δ' T' I t = overlay δ T I s
  below : ∀ r, r ≠ [] → δ' (t ++ r) = δ (s ++ r)

/-- **When a moved subtree is shown as it was**: exactly when the same shows through at both places,
wherever the way leads through directories to a path the delta does not have. -/
theorem shown_transplanted_iff (h : Transplanted dir δ δ' I T T' s t) :
    (∀ r, shown dir (overlay δ' T' I) (t ++ r) = shown dir (overlay δ T I) (s ++ r)) ↔
      ∀ r, r ≠ [] → (∀ a, a <+: r → a ≠ r → shown dir (overlay δ T I) (s ++ a) = some dir) →
        δ (s ++ r) = none → beneath T' I (t ++ r) = beneath T I (s ++ r) := by
  let K : Shape ν ε := fun r => overlay δ T I (s ++ r)
  let K' : Shape ν ε := fun r => overlay δ' T' I (t ++ r)
  have hold : ∀ r, shown dir (overlay δ T I) (s ++ r) = shown dir K r := shown_append h.source
  have hnew : ∀ r, shown dir (overlay δ' T' I) (t ++ r) = shown dir K' r := shown_append h.target
  have hsame : (∀ r, shown dir (overlay δ' T' I) (t ++ r) = shown dir (overlay δ T I) (s ++ r)) ↔
      shown dir K = shown dir K' := by
    rw [funext_iff]
    refine forall_congr' fun r => ?_
    rw [hold, hnew]
    exact eq_comm
  rw [hsame, shown_eq_iff]
  refine forall_congr' fun r => ?_
  have hway : (∀ a, a <+: r → a ≠ r → shown dir (overlay δ T I) (s ++ a) = some dir) ↔
      ∀ a, a <+: r → a ≠ r → K a = some dir := by
    refine Iff.trans ?_ shown_way_iff
    refine forall_congr' fun a => forall_congr' fun _ => forall_congr' fun _ => ?_
    rw [hold]
  rw [hway]
  -- at the root of the subtree both agree, below it an entry of the delta decides
  by_cases hr : r = []
  · subst hr
    refine iff_of_true (fun _ => ?_) fun hne => absurd rfl hne
    show overlay δ T I (s ++ []) = overlay δ' T' I (t ++ [])
    rw [List.append_nil, List.append_nil, h.top]
  · have hK : K r = (δ (s ++ r)).or (beneath T I (s ++ r)) := overlay_eq_or δ T I (s ++ r)
    have hK' : K' r = (δ (s ++ r)).or (beneath T' I (t ++ r)) := by
      rw [← h.below r hr]
      exact overlay_eq_or δ' T' I (t ++ r)
    rw [hK, hK']
    cases hδ : δ (s ++ r) with
    | some k => simp
    | none =>
      rw [Option.none_or, Option.none_or]
      exact ⟨fun heq _ hd _ => (heq hd).symm, fun heq hd => (heq hr hd rfl).symm⟩

end BranchFs.Logic
