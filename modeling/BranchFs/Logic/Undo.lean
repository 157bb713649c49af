/-
# BranchFs.Logic.Undo -- taking back a change that was prepared through side names

A change in two phases has moved entries to their trash names, made directories and put copies under
their temporary names, in any order, when it is given up. Taking it back drops the copies it knows of and
moves the trash back, oldest first, each entry as far as a rename goes: into a directory that is there,
over nothing, a leaf over a leaf, a directory over an empty one.

`Held` is what preparing keeps. From it, `undone_restores_iff`: everything is back, and nothing but new
directories is left, exactly when no entry went to the trash below a later one, no directory was made
where an entry had gone, other than in the place of a directory and with nothing further below, and no copy
is forgotten.
-/
import BranchFs.Logic.Aside

namespace BranchFs.Logic

set_option linter.unusedSectionVars false

variable {ν ε : Type} [DecidableEq ν] [DecidableEq ε]

/-! ## Side names that tell where an entry belongs -/

/-- Side names that no plain path has on its way. `home` is the path without its trash names. -/
structure Reserved (tmp trash home : List ν → List ν) (Plain : List ν → Prop) : Prop
    extends SideNames tmp trash where
  plain_mono : ∀ {a q}, Plain q → a <+: q → Plain a
  tmp_off : ∀ {p q}, tmp p <+: q → ¬ Plain q
  trash_off : ∀ {p q}, trash p <+: q → ¬ Plain q
  trash_inj : ∀ {p q}, p ≠ [] → q ≠ [] → trash p = trash q → p = q
  trash_append : ∀ a {r}, r ≠ [] → trash (a ++ r) = a ++ trash r
  home_plain : ∀ {q}, Plain q → home q = q
  home_trash : ∀ {t}, Plain t → t ≠ [] → ∀ r, home (trash t ++ r) = home (t ++ r)

section Places

variable {tmp trash home : List ν → List ν} {Plain : List ν → Prop}
variable (hres : Reserved tmp trash home Plain) {f p q t u x : List ν}
include hres

/-- A plain path at or above a trash name is at or above its directory. -/
theorem Reserved.le_trash (hq : Plain q) (h : q <+: trash t) : q <+: t.dropLast :=
  (le_sibling (hres.trash_dropLast t) h).resolve_left fun heq =>
    hres.trash_off List.prefix_rfl (heq ▸ hq)

/-- A plain path at or above a temporary name is at or above its directory. -/
theorem Reserved.le_tmp (hq : Plain q) (h : q <+: tmp f) : q <+: f.dropLast :=
  (le_sibling (hres.tmp_dropLast f) h).resolve_left fun heq =>
    hres.tmp_off List.prefix_rfl (heq ▸ hq)

/-- A trash name is above no trash name of a plain path but its own. -/
theorem Reserved.trash_le_trash (ht : t ≠ []) (hu : Plain u) (hne : u ≠ [])
    (h : trash t <+: trash u) : t = u := by
  rcases le_sibling (hres.trash_dropLast u) h with heq | hle
  · exact hres.trash_inj ht hne heq
  · exact absurd (hres.plain_mono hu (hle.trans (List.dropLast_prefix u))) (hres.trash_off List.prefix_rfl)

/-- A trash name is above no temporary name of a plain path. -/
theorem Reserved.not_trash_le_tmp (hf : Plain f) : ¬ trash t <+: tmp f := by
  intro h
  rcases le_sibling (hres.tmp_dropLast f) h with heq | hle
  · exact hres.tmp_ne_trash f t heq.symm
  · exact hres.trash_off hle (hres.plain_mono hf (List.dropLast_prefix f))

/-- A temporary name is above no trash name of a plain path. -/
theorem Reserved.not_tmp_le_trash (ht : Plain t) : ¬ tmp f <+: trash t := by
  intro h
  rcases le_sibling (hres.trash_dropLast t) h with heq | hle
  · exact hres.tmp_ne_trash f t heq
  · exact hres.tmp_off hle (hres.plain_mono ht (List.dropLast_prefix t))

/-- A temporary name is above no temporary name of a plain path but its own. -/
theorem Reserved.tmp_le_tmp (hp : p ≠ []) (hf : Plain f) (hne : f ≠ []) (h : tmp p <+: tmp f) :
    p = f := by
  rcases le_sibling (hres.tmp_dropLast f) h with heq | hle
  · exact hres.tmp_inj hp hne heq
  · exact absurd (hres.plain_mono hf (List.dropLast_prefix f)) (hres.tmp_off hle)

/-- What is below a trash name is not below another one's. -/
theorem Reserved.trash_meet (ht : Plain t) (htn : t ≠ []) (hu : Plain u) (hun : u ≠ [])
    (h : trash t <+: x) (h' : trash u <+: x) : t = u := by
  rcases List.prefix_or_prefix_of_prefix h h' with hle | hle
  · exact hres.trash_le_trash htn hu hun hle
  · exact (hres.trash_le_trash hun ht htn hle).symm

/-- What is below a temporary name is below no trash name. -/
theorem Reserved.tmp_trash_meet (hf : Plain f) (ht : Plain t) (h : tmp f <+: x) : ¬ trash t <+: x := by
  intro h'
  rcases List.prefix_or_prefix_of_prefix h h' with hle | hle
  · exact hres.not_tmp_le_trash ht hle
  · exact hres.not_trash_le_tmp hf hle

/-- A plain path above something in the trash is above the place the trash is in. -/
theorem Reserved.plain_trash_meet (hq : Plain q) (h : q <+: x) (h' : trash t <+: x) :
    q <+: t.dropLast := by
  rcases List.prefix_or_prefix_of_prefix h h' with hle | hle
  · exact hres.le_trash hq hle
  · exact absurd hq (hres.trash_off hle)

end Places

/-! ## Preparing -/

/-- The directories down to `g` are there. -/
def dirsTo (dir : ε) (G : Shape ν ε) (g : List ν) : Shape ν ε := fun x =>
  if x <+: g then some dir else G x

/-- A leaf stands at `l`. -/
def put (G : Shape ν ε) (l : List ν) (k : ε) : Shape ν ε := fun x => if x = l then some k else G x

/-- A leaf is planted in two steps. -/
theorem planted_eq_put (dir : ε) (G : Shape ν ε) (l : List ν) (k : ε) :
    planted dir G l k = put (dirsTo dir G l.dropLast) l k := by
  funext x
  rw [planted, put, dirsTo]
  by_cases hx : x = l
  · rw [if_pos hx, if_pos hx]
  · rw [if_neg hx, if_neg hx]
    refine if_congr ⟨fun h => ?_, fun h => h.trans (List.dropLast_prefix l)⟩ rfl rfl
    exact (le_sibling rfl h).resolve_left hx

section

variable (dir : ε) (tmp trash : List ν → List ν) (Plain : List ν → Prop)

/-- A tree that a change is prepared in, step by step: the entries in the trash, the directories made
and the copies, each oldest first. What was moved away was no place made for a copy. -/
inductive Prepared (G₀ : Shape ν ε) :
    Shape ν ε → List (List ν) → List (List ν) → List (List ν) → Prop
  | start : Prepared G₀ G₀ [] [] []
  | bin {G ds ms fs t} : Prepared G₀ G ds ms fs → Plain t → t ≠ [] → G t ≠ none →
      (∀ g ∈ ms, ¬ t <+: g) → Prepared G₀ (moved G t (trash t)) (ds ++ [t]) ms fs
  | dirs {G ds ms fs g} : Prepared G₀ G ds ms fs → Plain g →
      (∀ a, a <+: g → G a = none ∨ G a = some dir) →
      Prepared G₀ (dirsTo dir G g) ds (ms ++ [g]) fs
  | leaf {G ds ms fs f k} : Prepared G₀ G ds ms fs → Plain f → f ≠ [] → f.dropLast ∈ ms → k ≠ dir →
      Prepared G₀ (put G (tmp f) k) ds ms (fs ++ [f])

/-- Nothing went to the trash below what went there later. -/
def NoneBelowLater (ds : List (List ν)) : Prop := ds.Pairwise fun t u => ¬ u <+: t

end

/-- Something stands under a trash name and belongs at `t`. -/
def Stray (trash home : List ν → List ν) (G : Shape ν ε) (t : List ν) : Prop :=
  ∃ y, y ≠ [] ∧ G (trash y) ≠ none ∧ home y = t

/-- What preparing keeps. -/
structure Held (dir : ε) (tmp trash home : List ν → List ν) (Plain : List ν → Prop)
    (G₀ G : Shape ν ε) (ds ms fs : List (List ν)) : Prop where
  plain : ∀ q, Plain q → G q =
    if ∃ g ∈ ms, q <+: g then some dir else if ∃ t ∈ ds, t <+: q then none else G₀ q
  side : ∀ x, ¬ Plain x → G x ≠ none → (∃ f ∈ fs, x = tmp f) ∨ ∃ t ∈ ds, trash t <+: x
  binned : ∀ t ∈ ds, Plain t ∧ t ≠ [] ∧ G₀ t ≠ none
  made : ∀ g ∈ ms, Plain g ∧ ∀ a, a <+: g →
    (∃ t ∈ ds, t <+: a) ∨ G₀ a = none ∨ G₀ a = some dir
  copies : ∀ f ∈ fs, Plain f ∧ f ≠ [] ∧ f.dropLast ∈ ms ∧ G (tmp f) ≠ none
  order : ds.Pairwise fun t u => ¬ t <+: u
  stray : ∀ t ∈ ds, Stray trash home G t
  swept : ∀ u, Plain u → u ≠ [] → (∃ v ∈ ds, v <+: u.dropLast) → G (trash u) = none
  trashed : NoneBelowLater ds → ∀ t ∈ ds, ∀ r, G (trash t ++ r) = G₀ (t ++ r)

section Steps

variable {dir : ε} {tmp trash home : List ν → List ν} {Plain : List ν → Prop}
variable {G₀ G G' : Shape ν ε} {ds ms fs : List (List ν)} {f g t u x : List ν} {k : ε}
variable (hres : Reserved tmp trash home Plain)

theorem Held.start (hfree : ∀ x, G₀ x ≠ none → Plain x) :
    Held dir tmp trash home Plain G₀ G₀ [] [] [] where
  plain := by simp
  side := fun x hx hk => absurd (hfree x hk) hx
  binned := by simp
  made := by simp
  copies := by simp
  order := List.Pairwise.nil
  stray := by simp
  swept := by simp
  trashed := by simp

section Bin

variable (h : Held dir tmp trash home Plain G₀ G ds ms fs)
variable (ht : Plain t) (htn : t ≠ []) (hsome : G t ≠ none) (hms : ∀ g ∈ ms, ¬ t <+: g)
include h ht hsome hms

/-- What can be moved away was there from the start, and nothing at or above it was moved away. -/
theorem Held.bin_new : G₀ t ≠ none ∧ ∀ u ∈ ds, ¬ u <+: t := by
  have hk := h.plain t ht
  rw [if_neg fun hex => hex.elim fun g hg => hms g hg.1 hg.2] at hk
  by_cases hcov : ∃ u ∈ ds, u <+: t
  · rw [if_pos hcov] at hk
    exact absurd hk hsome
  · rw [if_neg hcov] at hk
    exact ⟨hk ▸ hsome, fun u hu hle => hcov ⟨u, hu, hle⟩⟩

include hres htn

/-- Nothing stands under its trash name yet. -/
theorem Held.trash_free (hx : trash t <+: x) : G x = none := by
  by_contra hk
  rcases h.side x (hres.trash_off hx) hk with ⟨f, hf, rfl⟩ | ⟨u, hu, hle⟩
  · exact hres.not_trash_le_tmp (h.copies f hf).1 hx
  · obtain ⟨hup, hun, -⟩ := h.binned u hu
    obtain rfl := hres.trash_meet ht htn hup hun hx hle
    exact (h.bin_new ht hsome hms).2 t hu List.prefix_rfl

/-- Nothing below it is under a side name, unless something below it went to the trash before. -/
theorem Held.below_plain (hx : t <+: x) (hplain : ¬ Plain x) (hk : G x ≠ none) :
    ∃ u ∈ ds, t <+: u ∧ trash u <+: x := by
  rcases h.side x hplain hk with ⟨f, hf, rfl⟩ | ⟨u, hu, hle⟩
  · exact absurd (hres.le_tmp ht hx) (hms _ (h.copies f hf).2.2.1)
  · exact ⟨u, hu, (hres.plain_trash_meet ht hx hle).trans (List.dropLast_prefix u), hle⟩

theorem Held.bin_plain {q : List ν} (hq : Plain q) : moved G t (trash t) q =
    if ∃ g ∈ ms, q <+: g then some dir else if ∃ u ∈ ds ++ [t], u <+: q then none else G₀ q := by
  have hcov : (∃ u ∈ ds ++ [t], u <+: q) ↔ (∃ u ∈ ds, u <+: q) ∨ t <+: q := by
    simp [or_and_right, exists_or]
  rw [moved, if_neg fun hle => hres.trash_off hle hq]
  by_cases htq : t <+: q
  · rw [if_pos htq, if_neg fun hex => hex.elim fun g hg => hms g hg.1 (htq.trans hg.2),
      if_pos (hcov.mpr (Or.inr htq))]
  · rw [if_neg htq, h.plain q hq]
    refine if_congr Iff.rfl rfl (if_congr ?_ rfl rfl)
    rw [hcov]
    exact (or_iff_left htq).symm

theorem Held.bin_side (hx : ¬ Plain x) (hk : moved G t (trash t) x ≠ none) :
    (∃ f ∈ fs, x = tmp f) ∨ ∃ u ∈ ds ++ [t], trash u <+: x := by
  by_cases hle : trash t <+: x
  · exact Or.inr ⟨t, by simp, hle⟩
  · rw [moved, if_neg hle] at hk
    split at hk
    · exact absurd rfl hk
    · rcases h.side x hx hk with hf | ⟨u, hu, hux⟩
      · exact Or.inl hf
      · exact Or.inr ⟨u, List.mem_append_left _ hu, hux⟩

theorem Held.bin_copy (hf : f ∈ fs) : moved G t (trash t) (tmp f) = G (tmp f) := by
  obtain ⟨hfp, -, hdir, -⟩ := h.copies f hf
  exact moved_of_not (fun hle => hms _ hdir (hres.le_tmp ht hle)) (hres.not_trash_le_tmp hfp)

/-- What is in the trash stays there, be it that the trash is moved. -/
theorem Held.bin_stray {v : List ν} (hv : Stray trash home G v) :
    Stray trash home (moved G t (trash t)) v := by
  obtain ⟨y, hy, hk, hhome⟩ := hv
  have hnot : ¬ trash t <+: trash y := fun hle => hk (h.trash_free hres ht htn hsome hms hle)
  by_cases hle : t <+: trash y
  · -- it goes along with the directory it is in
    obtain ⟨r, rfl⟩ := (hres.le_trash ht hle).trans (List.dropLast_prefix y)
    have hr : r ≠ [] := by
      rintro rfl
      rw [List.append_nil] at hle
      exact not_le_dropLast rfl htn (hres.le_trash ht hle)
    refine ⟨trash t ++ r, by simp [hres.trash_ne_nil], ?_, ?_⟩
    · rw [hres.trash_append _ hr, moved, if_pos (List.prefix_append _ _), List.drop_left,
        ← hres.trash_append t hr]
      exact hk
    · rw [hres.home_trash ht htn, hhome]
  · exact ⟨y, hy, by rwa [moved_of_not hle hnot], hhome⟩

theorem Held.bin_swept (hu : Plain u) (hun : u ≠ []) (hv : ∃ v ∈ ds ++ [t], v <+: u.dropLast) :
    moved G t (trash t) (trash u) = none := by
  obtain ⟨v, hv, hle⟩ := hv
  have hup : u.dropLast <+: trash u := by
    rw [← hres.trash_dropLast u]
    exact List.dropLast_prefix _
  by_cases htu : trash t <+: trash u
  · obtain rfl := hres.trash_le_trash htn hu hun htu
    rcases List.mem_append.mp hv with hv | hv
    · exact absurd (hle.trans (List.dropLast_prefix t)) ((h.bin_new ht hsome hms).2 v hv)
    · rw [List.mem_singleton] at hv
      exact absurd (hv ▸ hle) (not_le_dropLast rfl htn)
  · rw [moved, if_neg htu]
    split
    · rfl
    · next hnot =>
      rcases List.mem_append.mp hv with hv | hv
      · exact h.swept u hu hun ⟨v, hv, hle⟩
      · rw [List.mem_singleton] at hv
        exact absurd ((hv ▸ hle).trans hup) hnot

theorem Held.bin_trashed (hfree : ∀ x, G₀ x ≠ none → Plain x) (hlater : NoneBelowLater (ds ++ [t])) :
    ∀ u ∈ ds ++ [t], ∀ r, moved G t (trash t) (trash u ++ r) = G₀ (u ++ r) := by
  obtain ⟨hds, -, hcross⟩ := List.pairwise_append.mp hlater
  have hbelow : ∀ u ∈ ds, ¬ t <+: u := fun u hu => hcross u hu t (by simp)
  intro u hu r
  rcases List.mem_append.mp hu with hu | hu
  · obtain ⟨hup, hun, -⟩ := h.binned u hu
    rw [moved_of_not, h.trashed hds u hu r]
    · intro hle
      refine hbelow u hu ((hres.plain_trash_meet ht hle (List.prefix_append _ _)).trans ?_)
      exact List.dropLast_prefix u
    · intro hle
      obtain rfl := hres.trash_meet ht htn hup hun hle (List.prefix_append _ _)
      exact hbelow t hu List.prefix_rfl
  · obtain rfl := List.mem_singleton.mp hu
    rw [moved, if_pos (List.prefix_append _ _), List.drop_left]
    by_cases hplain : Plain (u ++ r)
    · rw [h.plain _ hplain, if_neg fun hex => hex.elim fun g hg =>
        hms g hg.1 ((List.prefix_append u r).trans hg.2), if_neg]
      rintro ⟨v, hv, hle⟩
      rcases List.prefix_or_prefix_of_prefix hle (List.prefix_append u r) with hvu | huv
      · exact (h.bin_new ht hsome hms).2 v hv hvu
      · exact hbelow v hv huv
    · have hnone : G₀ (u ++ r) = none := by
        by_contra hk
        exact hplain (hfree _ hk)
      rw [hnone]
      by_contra hk
      obtain ⟨v, hv, huv, -⟩ :=
        h.below_plain hres ht htn hsome hms (List.prefix_append u r) hplain hk
      exact hbelow v hv huv

/-- One entry more in the trash. -/
theorem Held.bin (hfree : ∀ x, G₀ x ≠ none → Plain x) :
    Held dir tmp trash home Plain G₀ (moved G t (trash t)) (ds ++ [t]) ms fs where
  plain := fun _ => h.bin_plain hres ht htn hsome hms
  side := fun _ => h.bin_side hres ht htn hsome hms
  binned := by
    intro u hu
    rcases List.mem_append.mp hu with hu | hu
    · exact h.binned u hu
    · obtain rfl := List.mem_singleton.mp hu
      exact ⟨ht, htn, (h.bin_new ht hsome hms).1⟩
  made := by
    intro g hg
    refine ⟨(h.made g hg).1, fun a ha => ((h.made g hg).2 a ha).imp_left ?_⟩
    rintro ⟨u, hu, hle⟩
    exact ⟨u, List.mem_append_left _ hu, hle⟩
  copies := by
    intro f hf
    obtain ⟨hfp, hfn, hdir, hk⟩ := h.copies f hf
    exact ⟨hfp, hfn, hdir, by rwa [h.bin_copy hres ht htn hsome hms hf]⟩
  order := List.pairwise_append.mpr ⟨h.order, List.pairwise_singleton _ _, fun u hu v hv => by
    rw [List.mem_singleton.mp hv]
    exact (h.bin_new ht hsome hms).2 u hu⟩
  stray := by
    intro u hu
    rcases List.mem_append.mp hu with hu | hu
    · exact h.bin_stray hres ht htn hsome hms (h.stray u hu)
    · obtain rfl := List.mem_singleton.mp hu
      exact ⟨u, htn, by rwa [moved_self], hres.home_plain ht⟩
  swept := fun _ => h.bin_swept hres ht htn hsome hms
  trashed := h.bin_trashed hres ht htn hsome hms hfree

end Bin

include hres

/-- Directories more. -/
theorem Held.dirs (h : Held dir tmp trash home Plain G₀ G ds ms fs) (hg : Plain g)
    (hway : ∀ a, a <+: g → G a = none ∨ G a = some dir) :
    Held dir tmp trash home Plain G₀ (dirsTo dir G g) ds (ms ++ [g]) fs := by
  have hoff : ∀ x, ¬ Plain x → dirsTo dir G g x = G x := fun x hx =>
    if_neg fun hle => hx (hres.plain_mono hg hle)
  have htrash : ∀ t r, dirsTo dir G g (trash t ++ r) = G (trash t ++ r) := fun t r =>
    hoff _ (hres.trash_off (List.prefix_append _ _))
  have hmem : ∀ q, (∃ g' ∈ ms ++ [g], q <+: g') ↔ (∃ g' ∈ ms, q <+: g') ∨ q <+: g := by
    intro q
    simp [or_and_right, exists_or]
  refine ⟨?_, ?_, h.binned, ?_, ?_, h.order, ?_, ?_, ?_⟩
  · intro q hq
    rw [dirsTo]
    by_cases hle : q <+: g
    · rw [if_pos hle, if_pos ((hmem q).mpr (Or.inr hle))]
    · rw [if_neg hle, h.plain q hq]
      refine if_congr ?_ rfl rfl
      rw [hmem]
      exact (or_iff_left hle).symm
  · intro x hx hk
    rw [hoff x hx] at hk
    exact h.side x hx hk
  · intro g' hg'
    rcases List.mem_append.mp hg' with hg' | hg'
    · exact h.made g' hg'
    · rw [List.mem_singleton.mp hg']
      refine ⟨hg, fun a ha => ?_⟩
      by_cases hm : ∃ m ∈ ms, a <+: m
      · obtain ⟨m, hm, hle⟩ := hm
        exact (h.made m hm).2 a hle
      · by_cases hcov : ∃ t ∈ ds, t <+: a
        · exact Or.inl hcov
        · have hk := h.plain a (hres.plain_mono hg ha)
          rw [if_neg hm, if_neg hcov] at hk
          rw [← hk]
          exact Or.inr (hway a ha)
  · intro f hf
    obtain ⟨hfp, hfn, hdir, hk⟩ := h.copies f hf
    exact ⟨hfp, hfn, List.mem_append_left _ hdir, by rwa [hoff _ (hres.tmp_off List.prefix_rfl)]⟩
  · intro t ht
    obtain ⟨y, hy, hk, hhome⟩ := h.stray t ht
    exact ⟨y, hy, by rwa [hoff _ (hres.trash_off List.prefix_rfl)], hhome⟩
  · intro u hu hun hv
    rw [hoff _ (hres.trash_off List.prefix_rfl)]
    exact h.swept u hu hun hv
  · intro hlater t ht r
    rw [htrash, h.trashed hlater t ht r]

/-- One copy more. -/
theorem Held.leaf (h : Held dir tmp trash home Plain G₀ G ds ms fs) (hf : Plain f) (hfn : f ≠ [])
    (hdir : f.dropLast ∈ ms) : Held dir tmp trash home Plain G₀ (put G (tmp f) k) ds ms (fs ++ [f]) := by
  have hoff : ∀ x, x ≠ tmp f → put G (tmp f) k x = G x := fun x hx => if_neg hx
  have htrash : ∀ t, Plain t → ∀ r, put G (tmp f) k (trash t ++ r) = G (trash t ++ r) := fun t ht r =>
    hoff _ fun heq => hres.tmp_trash_meet hf ht (heq ▸ List.prefix_rfl) (List.prefix_append _ r)
  refine ⟨?_, ?_, h.binned, h.made, ?_, h.order, ?_, ?_, ?_⟩
  · intro q hq
    rw [hoff _ fun heq => hres.tmp_off List.prefix_rfl (heq ▸ hq)]
    exact h.plain q hq
  · intro x hx hk
    by_cases heq : x = tmp f
    · exact Or.inl ⟨f, by simp, heq⟩
    · rw [hoff x heq] at hk
      exact (h.side x hx hk).imp_left fun hex =>
        hex.imp fun f' hf' => ⟨List.mem_append_left _ hf'.1, hf'.2⟩
  · intro f' hf'
    rcases List.mem_append.mp hf' with hf' | hf'
    · obtain ⟨hfp, hfn', hdir', hk⟩ := h.copies f' hf'
      refine ⟨hfp, hfn', hdir', ?_⟩
      unfold put
      split
      · simp
      · exact hk
    · rw [List.mem_singleton.mp hf']
      exact ⟨hf, hfn, hdir, by simp [put]⟩
  · intro t ht
    obtain ⟨y, hy, hk, hhome⟩ := h.stray t ht
    exact ⟨y, hy, by rwa [hoff _ fun heq => hres.tmp_ne_trash f y heq.symm], hhome⟩
  · intro u hu hun hv
    rw [hoff _ fun heq => hres.tmp_ne_trash f u heq.symm]
    exact h.swept u hu hun hv
  · intro hlater t ht r
    rw [htrash t (h.binned t ht).1, h.trashed hlater t ht r]

/-- **What preparing keeps**, over every prepared tree. -/
theorem Prepared.held (hfree : ∀ x, G₀ x ≠ none → Plain x)
    (h : Prepared dir tmp trash Plain G₀ G ds ms fs) : Held dir tmp trash home Plain G₀ G ds ms fs := by
  induction h with
  | start => exact Held.start hfree
  | bin _ ht htn hsome hms ih => exact ih.bin hres ht htn hsome hms hfree
  | dirs _ hg hway ih => exact ih.dirs hres hg hway
  | leaf _ hf hfn hdir _ ih => exact ih.leaf hres hf hfn hdir

end Steps

/-! ## Taking back -/

section

variable (dir : ε) (tmp trash : List ν → List ν)

/-- A rename takes what stands at `s` to `t`: the directory of `t` is there, a leaf goes over nothing or
another leaf, a directory over nothing or an empty one. -/
structure CanMove (G : Shape ν ε) (s t : List ν) : Prop where
  source : G s ≠ none
  parent : G t.dropLast = some dir
  ofDir : G s = some dir → G t = none ∨ G t = some dir
  ofLeaf : G s ≠ some dir → G t ≠ some dir
  empty : ∀ x, t <+: x → x ≠ t → G x = none

open scoped Classical in
/-- One entry back from the trash, where a rename goes. -/
noncomputable def putBack (G : Shape ν ε) (t : List ν) : Shape ν ε :=
  if CanMove dir G (trash t) t then moved G (trash t) t else G

/-- The entries of the trash put back, in the order of the list. -/
noncomputable def afterPutBack (G : Shape ν ε) (ds : List (List ν)) : Shape ν ε :=
  ds.foldl (putBack dir trash) G

/-- The copies under their temporary names dropped. -/
def afterDropped (G : Shape ν ε) (fs : List (List ν)) : Shape ν ε :=
  fs.foldl (fun G f => dropped G (tmp f)) G

/-- The tree after a change has been taken back: the copies known of dropped, the trash put back. -/
noncomputable def undone (G : Shape ν ε) (known ds : List (List ν)) : Shape ν ε :=
  afterPutBack dir trash (afterDropped tmp G known) ds

/-- Everything is where it was, and nothing else is there but directories with plain paths. -/
structure Restored (Plain : List ν → Prop) (G₀ G : Shape ν ε) : Prop where
  back : ∀ q, G₀ q ≠ none → G q = G₀ q
  new : ∀ x, G₀ x = none → G x = none ∨ (G x = some dir ∧ Plain x)

/-- A change that can be taken back: nothing went to the trash below what went there later, directories
were made in the place of an emptied directory at most, with nothing further below, and every copy is
known of. -/
structure Undoable (G₀ : Shape ν ε) (ds ms fs known : List (List ν)) : Prop where
  apart : NoneBelowLater ds
  remade : ∀ t ∈ ds, ∀ g ∈ ms, t <+: g → t = g ∧ G₀ t = some dir
  known : ∀ f ∈ fs, f ∈ known

end

section Undo

variable {dir : ε} {tmp trash home : List ν → List ν} {Plain : List ν → Prop}
variable {G₀ G : Shape ν ε} {ds ms fs us vs known : List (List ν)} {f g q t u x : List ν}

theorem afterDropped_eq (fs : List (List ν)) (G : Shape ν ε) (x : List ν) :
    afterDropped tmp G fs x = if ∃ f ∈ fs, tmp f <+: x then none else G x := by
  induction fs generalizing G with
  | nil => simp [afterDropped]
  | cons f fs ih =>
    show afterDropped tmp (dropped G (tmp f)) fs x = _
    rw [ih, dropped]
    by_cases hf : tmp f <+: x <;> by_cases hfs : ∃ f ∈ fs, tmp f <+: x <;> simp [hf, hfs]

theorem putBack_of_not (ht : ¬ t <+: x) (hs : ¬ trash t <+: x) : putBack dir trash G t x = G x := by
  rw [putBack]
  split
  · exact moved_of_not hs ht
  · rfl

/-- What is not at or below a place of the list, or of its trash, is left alone. -/
theorem afterPutBack_of_not (h : ∀ t ∈ ds, ¬ t <+: x ∧ ¬ trash t <+: x) (G : Shape ν ε) :
    afterPutBack dir trash G ds x = G x := by
  induction ds generalizing G with
  | nil => rfl
  | cons t ds ih =>
    show afterPutBack dir trash (putBack dir trash G t) ds x = G x
    obtain ⟨h1, h2⟩ := h t List.mem_cons_self
    rw [ih fun u hu => h u (List.mem_cons_of_mem t hu), putBack_of_not h1 h2]

/-- A relation that holds from every entry to those behind it. -/
theorem pairwise_of_splits {α : Type} {R : α → α → Prop} {l : List α}
    (h : ∀ as a bs, as ++ a :: bs = l → ∀ b ∈ bs, R a b) : l.Pairwise R := by
  induction l with
  | nil => exact List.Pairwise.nil
  | cons a l ih =>
    refine List.pairwise_cons.mpr ⟨h [] a l rfl, ih fun as b bs heq => h (a :: as) b bs ?_⟩
    rw [List.cons_append, heq]

theorem afterPutBack_append (G : Shape ν ε) (us vs : List (List ν)) :
    afterPutBack dir trash G (us ++ vs) = afterPutBack dir trash (afterPutBack dir trash G us) vs :=
  List.foldl_append

variable (hres : Reserved tmp trash home Plain)
include hres

/-- The tree without the copies, at places that are not temporary names. -/
theorem Reserved.afterDropped_plain (known : List (List ν)) (G : Shape ν ε) (hq : Plain q) :
    afterDropped tmp G known q = G q := by
  rw [afterDropped_eq, if_neg]
  rintro ⟨f, -, hle⟩
  exact hres.tmp_off hle hq

theorem Held.afterDropped_trash (h : Held dir tmp trash home Plain G₀ G ds ms fs)
    (hknown : ∀ f ∈ known, f ∈ fs) (ht : Plain t) (hx : trash t <+: x) :
    afterDropped tmp G known x = G x := by
  rw [afterDropped_eq, if_neg]
  rintro ⟨f, hf, hle⟩
  exact hres.tmp_trash_meet (h.copies f (hknown f hf)).1 ht hle hx

/-- No two entries in the trash come from one place, or from above each other. -/
theorem Held.eq_of_le (h : Held dir tmp trash home Plain G₀ G ds ms fs) (hlater : NoneBelowLater ds)
    (ht : t ∈ ds) (hu : u ∈ ds) (hle : t <+: u) : t = u := by
  have hforth : ds.Pairwise fun t u => t <+: u → t = u := h.order.imp fun hn hle => absurd hle hn
  have hback : ds.Pairwise fun t u => u <+: t → u = t := hlater.imp fun hn hle => absurd hle hn
  exact List.Pairwise.forall_of_forall_of_flip (fun _ _ _ => rfl) hforth hback ht hu hle

theorem Held.content (h : Held dir tmp trash home Plain G₀ G ds ms fs) (hlater : NoneBelowLater ds)
    (hknown : ∀ f ∈ known, f ∈ fs) (hu : u ∈ ds) (r : List ν) :
    afterDropped tmp G known (trash u ++ r) = G₀ (u ++ r) := by
  rw [h.afterDropped_trash hres hknown (h.binned u hu).1 (List.prefix_append _ _),
    h.trashed hlater u hu r]

/-! ### An entry and those before it -/

section Before

variable (h : Held dir tmp trash home Plain G₀ G ds ms fs) (hds : us ++ u :: vs = ds)
include h hds

theorem Held.mem_split : u ∈ ds := by simp [← hds]

theorem Held.mem_before {w : List ν} (hw : w ∈ us) : w ∈ ds := by
  rw [← hds]
  exact List.mem_append_left _ hw

theorem Held.not_above_later {w : List ν} (hw : w ∈ us) : ¬ w <+: u := by
  have horder := h.order
  rw [← hds, List.pairwise_append] at horder
  exact horder.2.2 w hw u List.mem_cons_self

theorem Held.ne_of_later {v : List ν} (hv : v ∈ vs) : v ≠ u := by
  rintro rfl
  have horder := h.order
  rw [← hds, List.pairwise_append, List.pairwise_cons] at horder
  exact horder.2.1.1 v hv List.prefix_rfl

/-- What is put back before is neither above the directory of the entry nor above its trash. -/
theorem Held.trash_kept (r : List ν) (A : Shape ν ε) (hnot : ∀ w ∈ us, ¬ w <+: u) :
    afterPutBack dir trash A us (trash u ++ r) = A (trash u ++ r) := by
  obtain ⟨hup, hun, -⟩ := h.binned u (h.mem_split hres hds)
  refine afterPutBack_of_not (fun w hw => ?_) A
  obtain ⟨hwp, hwn, -⟩ := h.binned w (h.mem_before hres hds hw)
  refine ⟨fun hle => hnot w hw ?_, fun hle => hnot w hw ?_⟩
  · exact (hres.plain_trash_meet hwp hle (List.prefix_append _ r)).trans (List.dropLast_prefix u)
  · rw [hres.trash_meet hwp hwn hup hun hle (List.prefix_append _ r)]

/-- Entries that stand apart do not meet below the place of one of them. -/
theorem Held.apart_below (hlater : NoneBelowLater ds) {w : List ν} (hw : w ∈ us) (hux : u <+: x) :
    ¬ w <+: x := by
  intro hwx
  have hnot := h.not_above_later hres hds hw
  rcases List.prefix_or_prefix_of_prefix hux hwx with hle | hle
  · rw [h.eq_of_le hres hlater (h.mem_split hres hds) (h.mem_before hres hds hw) hle] at hnot
    exact hnot List.prefix_rfl
  · exact hnot hle

end Before

section Undoable

variable (h : Held dir tmp trash home Plain G₀ G ds ms fs)
variable (hundo : Undoable dir G₀ ds ms fs known) (hknown : ∀ f ∈ known, f ∈ fs)
include h hundo

/-- The directory an entry of the trash came from is there. -/
theorem Held.dir_above (hclosed : Closed dir G₀) (hu : u ∈ ds) :
    afterDropped tmp G known u.dropLast = some dir := by
  obtain ⟨hup, hun, hsome⟩ := h.binned u hu
  have hplain := hres.plain_mono hup (List.dropLast_prefix u)
  rw [hres.afterDropped_plain known G hplain, h.plain _ hplain]
  by_cases hm : ∃ g ∈ ms, u.dropLast <+: g
  · rw [if_pos hm]
  · rw [if_neg hm, if_neg]
    · refine hclosed.above hsome (List.dropLast_prefix u) fun heq => ?_
      exact not_le_dropLast rfl hun (by rw [heq])
    · rintro ⟨t, ht, hle⟩
      obtain rfl := h.eq_of_le hres hundo.apart ht hu (hle.trans (List.dropLast_prefix u))
      exact not_le_dropLast rfl hun hle

/-- At its place is nothing, or a directory made there. -/
theorem Held.place_of_trashed (hu : u ∈ ds) : afterDropped tmp G known u = none ∨
    (afterDropped tmp G known u = some dir ∧ G₀ u = some dir) := by
  obtain ⟨hup, -, -⟩ := h.binned u hu
  rw [hres.afterDropped_plain known G hup, h.plain u hup]
  by_cases hm : ∃ g ∈ ms, u <+: g
  · rw [if_pos hm]
    obtain ⟨g, hg, hle⟩ := hm
    exact Or.inr ⟨rfl, (hundo.remade u hu g hg hle).2⟩
  · rw [if_neg hm, if_pos ⟨u, hu, List.prefix_rfl⟩]
    exact Or.inl rfl

/-- And nothing below. -/
theorem Held.below_trashed (hu : u ∈ ds) (hux : u <+: x) (hne : x ≠ u) :
    afterDropped tmp G known x = none := by
  obtain ⟨hup, hun, -⟩ := h.binned u hu
  by_cases hx : Plain x
  · rw [hres.afterDropped_plain known G hx, h.plain x hx, if_neg, if_pos ⟨u, hu, hux⟩]
    rintro ⟨g, hg, hle⟩
    obtain ⟨rfl, -⟩ := hundo.remade u hu g hg (hux.trans hle)
    exact hne (hle.eq_of_length_le hux.length_le)
  · rw [afterDropped_eq]
    split
    · rfl
    · next hdrop =>
      by_contra hk
      rcases h.side x hx hk with ⟨f, hf, rfl⟩ | ⟨t, ht, hle⟩
      · exact hdrop ⟨f, hundo.known f hf, List.prefix_rfl⟩
      · have hut := hres.plain_trash_meet hup hux hle
        obtain rfl := h.eq_of_le hres hundo.apart hu ht (hut.trans (List.dropLast_prefix t))
        exact not_le_dropLast rfl hun hut

include hknown

/-- **The trash is put back entry by entry.** -/
theorem Held.afterPutBack_eq (hclosed : Closed dir G₀) (hds : us ++ vs = ds) (x : List ν) :
    afterPutBack dir trash (afterDropped tmp G known) us x =
      if ∃ u ∈ us, u <+: x then G₀ x
      else if ∃ u ∈ us, trash u <+: x then none else afterDropped tmp G known x := by
  induction us using List.reverseRecOn generalizing vs x with
  | nil => simp [afterPutBack]
  | append_singleton us u ih =>
    have hsplit : us ++ u :: vs = ds := by rw [← hds, List.append_assoc, List.singleton_append]
    have hu := h.mem_split hres hsplit
    obtain ⟨hup, hun, hsome⟩ := h.binned u hu
    have hcross : ∀ w ∈ us, ∀ x, u <+: x → ¬ w <+: x := fun w hw x hux =>
      h.apart_below hres hsplit hundo.apart hw hux
    -- at its place, above it and under its trash name the steps before changed nothing
    have htrash : ∀ r, afterPutBack dir trash (afterDropped tmp G known) us (trash u ++ r) =
        G₀ (u ++ r) := fun r => by
      rw [h.trash_kept hres hsplit r _ fun w hw => hcross w hw u List.prefix_rfl,
        h.content hres hundo.apart hknown hu]
    have hsource : afterPutBack dir trash (afterDropped tmp G known) us (trash u) = G₀ u := by
      have := htrash []
      rwa [List.append_nil, List.append_nil] at this
    have hself : afterPutBack dir trash (afterDropped tmp G known) us u =
        afterDropped tmp G known u :=
      afterPutBack_of_not (fun w hw =>
        ⟨hcross w hw u List.prefix_rfl, fun hle => hres.trash_off hle hup⟩) _
    have hcan : CanMove dir (afterPutBack dir trash (afterDropped tmp G known) us) (trash u) u := by
      refine ⟨by rwa [hsource], ?_, ?_, ?_, ?_⟩
      · rw [afterPutBack_of_not fun w hw => ⟨?_, ?_⟩, h.dir_above hres hundo hclosed hu]
        · exact fun hle => hcross w hw u List.prefix_rfl (hle.trans (List.dropLast_prefix u))
        · exact fun hle => hres.trash_off hle (hres.plain_mono hup (List.dropLast_prefix u))
      · intro _
        rw [hself]
        exact (h.place_of_trashed hres hundo hu).imp_right And.left
      · intro hleaf
        rw [hself]
        rw [hsource] at hleaf
        rcases h.place_of_trashed hres hundo hu with hk | ⟨-, hk⟩
        · rw [hk]
          simp
        · exact absurd hk hleaf
      · intro x hux hne
        rw [ih hsplit, if_neg fun hex => hex.elim fun w hw => hcross w hw.1 x hux hw.2]
        split
        · rfl
        · exact h.below_trashed hres hundo hu hux hne
    rw [afterPutBack_append]
    show putBack dir trash _ u x = _
    rw [putBack, if_pos hcan]
    by_cases hux : u <+: x
    · obtain ⟨r, rfl⟩ := hux
      rw [moved, if_pos (List.prefix_append u r), List.drop_left, htrash,
        if_pos ⟨u, by simp, List.prefix_append u r⟩]
    · rw [moved, if_neg hux]
      by_cases htx : trash u <+: x
      · rw [if_pos htx, if_neg, if_pos ⟨u, by simp, htx⟩]
        rintro ⟨w, hw, hle⟩
        rcases List.mem_append.mp hw with hw | hw
        · have hwp := (h.binned w (h.mem_before hres hsplit hw)).1
          refine hcross w hw u List.prefix_rfl ?_
          exact (hres.plain_trash_meet hwp hle htx).trans (List.dropLast_prefix u)
        · exact hux (List.mem_singleton.mp hw ▸ hle)
      · rw [if_neg htx, ih hsplit]
        refine if_congr ?_ rfl (if_congr ?_ rfl rfl)
        · simp [or_and_right, exists_or, hux]
        · simp [or_and_right, exists_or, htx]

/-- **What can be taken back is restored.** -/
theorem Held.restored (hfree : ∀ x, G₀ x ≠ none → Plain x) (hclosed : Closed dir G₀) :
    Restored dir Plain G₀ (undone dir tmp trash G known ds) := by
  have hfinal := h.afterPutBack_eq hres hundo hknown hclosed (List.append_nil ds)
  have hplain : ∀ q, Plain q → (¬ ∃ u ∈ ds, u <+: q) → undone dir tmp trash G known ds q =
      if ∃ g ∈ ms, q <+: g then some dir else G₀ q := by
    intro q hq hcov
    rw [undone, hfinal, if_neg hcov, if_neg fun hex => hex.elim fun u hu => hres.trash_off hu.2 hq,
      hres.afterDropped_plain known G hq, h.plain q hq, if_neg hcov]
  refine ⟨fun q hsome => ?_, fun x hnone => ?_⟩
  · by_cases hcov : ∃ u ∈ ds, u <+: q
    · rw [undone, hfinal, if_pos hcov]
    · -- a directory made over what was there was made over a directory
      rw [hplain q (hfree q hsome) hcov]
      split
      · next hm =>
        obtain ⟨g, hg, hle⟩ := hm
        rcases (h.made g hg).2 q hle with hc | hk | hk
        · exact absurd hc hcov
        · exact absurd hk hsome
        · exact hk.symm
      · rfl
  · by_cases hcov : ∃ u ∈ ds, u <+: x
    · rw [undone, hfinal, if_pos hcov]
      exact Or.inl hnone
    · by_cases hx : Plain x
      · rw [hplain x hx hcov]
        split
        · exact Or.inr ⟨rfl, hx⟩
        · exact Or.inl hnone
      · left
        rw [undone, hfinal, if_neg hcov]
        split
        · rfl
        · next hno =>
          rw [afterDropped_eq]
          split
          · rfl
          · next hdrop =>
            by_contra hk
            rcases h.side x hx hk with ⟨f, hf, rfl⟩ | hu
            · exact hdrop ⟨f, hundo.known f hf, List.prefix_rfl⟩
            · exact hno hu

end Undoable

/-! ### What stays behind -/

/-- Something under a side name stays there, or moves along with the directory it is in. -/
theorem Reserved.stray_putBack {v : List ν} (hu : Plain u) (hun : u ≠ []) (hne : u ≠ v)
    (hv : Stray trash home G v) : Stray trash home (putBack dir trash G u) v := by
  rw [putBack]
  split
  case isFalse => exact hv
  case isTrue hcan =>
    obtain ⟨y, hy, hk, hhome⟩ := hv
    have hnot : ¬ u <+: trash y := fun hle =>
      hk (hcan.empty _ hle fun heq => hres.trash_off List.prefix_rfl (heq ▸ hu))
    by_cases hle : trash u <+: trash y
    · rcases le_sibling (hres.trash_dropLast y) hle with heq | hle'
      · -- its own name is not taken from it
        obtain rfl := hres.trash_inj hun hy heq
        exact absurd (hres.home_plain hu ▸ hhome) hne
      · obtain ⟨r, rfl⟩ := hle'.trans (List.dropLast_prefix y)
        have hr : r ≠ [] := by
          rintro rfl
          rw [List.append_nil] at hle'
          exact not_le_dropLast rfl (hres.trash_ne_nil u) hle'
        refine ⟨u ++ r, by simp [hun], ?_, ?_⟩
        · rw [hres.trash_append u hr, moved, if_pos (List.prefix_append _ _), List.drop_left,
            ← hres.trash_append _ hr]
          exact hk
        · rw [← hres.home_trash hu hun, hhome]
    · exact ⟨y, hy, by rwa [moved_of_not hle hnot], hhome⟩

theorem Reserved.stray_afterPutBack {v : List ν} (hus : ∀ u ∈ us, Plain u ∧ u ≠ [] ∧ u ≠ v)
    (hv : Stray trash home G v) : Stray trash home (afterPutBack dir trash G us) v := by
  induction us generalizing G with
  | nil => exact hv
  | cons u us ih =>
    obtain ⟨hu, hun, hne⟩ := hus u List.mem_cons_self
    exact ih (fun w hw => hus w (List.mem_cons_of_mem u hw)) (hres.stray_putBack hu hun hne hv)

/-- A temporary name stays where it is. -/
theorem Reserved.tmp_afterPutBack (hf : Plain f) (hus : ∀ u ∈ us, Plain u) (hk : G (tmp f) ≠ none) :
    afterPutBack dir trash G us (tmp f) ≠ none := by
  induction us generalizing G with
  | nil => exact hk
  | cons u us ih =>
    have hu := hus u List.mem_cons_self
    refine ih (fun w hw => hus w (List.mem_cons_of_mem u hw)) ?_
    rw [putBack]
    split
    case isFalse => exact hk
    case isTrue hcan =>
      rw [moved_of_not (hres.not_trash_le_tmp hf) fun hle => ?_]
      · exact hk
      · exact hk (hcan.empty _ hle fun heq => hres.tmp_off List.prefix_rfl (heq ▸ hu))

/-- Nothing comes back under a trash name whose place none of the entries put back is above. -/
theorem Reserved.afterPutBack_none (hus : ∀ u ∈ us, Plain u ∧ ¬ u <+: t) (hk : G (trash t) = none) :
    afterPutBack dir trash G us (trash t) = none := by
  induction us generalizing G with
  | nil => exact hk
  | cons u us ih =>
    obtain ⟨hu, hnot⟩ := hus u List.mem_cons_self
    refine ih (fun w hw => hus w (List.mem_cons_of_mem u hw)) ?_
    rw [putBack]
    split
    case isFalse => exact hk
    case isTrue =>
      rw [moved, if_neg fun hle => hnot ((hres.le_trash hu hle).trans (List.dropLast_prefix t))]
      split
      · rfl
      · exact hk

theorem Held.stray_afterDropped (h : Held dir tmp trash home Plain G₀ G ds ms fs)
    (hknown : ∀ f ∈ known, f ∈ fs) (hu : u ∈ ds) :
    Stray trash home (afterDropped tmp G known) u := by
  obtain ⟨y, hy, hk, hhome⟩ := h.stray u hu
  refine ⟨y, hy, ?_, hhome⟩
  rcases h.side _ (hres.trash_off List.prefix_rfl) hk with ⟨f, -, heq⟩ | ⟨t, ht, hle⟩
  · exact absurd heq.symm (hres.tmp_ne_trash f y)
  · rwa [h.afterDropped_trash hres hknown (h.binned t ht).1 hle]

section Needed

variable (h : Held dir tmp trash home Plain G₀ G ds ms fs) (hknown : ∀ f ∈ known, f ∈ fs)
variable (hfree : ∀ x, G₀ x ≠ none → Plain x)
variable (hrest : Restored dir Plain G₀ (undone dir tmp trash G known ds))
include h hknown hfree hrest

/-- Where everything is restored, every entry of the trash was put back. -/
theorem Held.put_back (hds : us ++ u :: vs = ds) :
    CanMove dir (afterPutBack dir trash (afterDropped tmp G known) us) (trash u) u := by
  by_contra hcan
  have hown : ∀ w ∈ ds, Plain w ∧ w ≠ [] := fun w hw => ⟨(h.binned w hw).1, (h.binned w hw).2.1⟩
  -- an entry that is not put back in its turn is put back in no other
  have hbefore : Stray trash home (afterPutBack dir trash (afterDropped tmp G known) us) u := by
    refine hres.stray_afterPutBack (fun w hw => ?_)
      (h.stray_afterDropped hres hknown (h.mem_split hres hds))
    obtain ⟨hwp, hwn⟩ := hown w (h.mem_before hres hds hw)
    exact ⟨hwp, hwn, fun heq => h.not_above_later hres hds hw (heq ▸ List.prefix_rfl)⟩
  obtain ⟨y, -, hk, -⟩ : Stray trash home (undone dir tmp trash G known ds) u := by
    rw [undone, ← hds, afterPutBack_append]
    show Stray trash home (afterPutBack dir trash (putBack dir trash _ u) vs) u
    rw [putBack, if_neg hcan]
    refine hres.stray_afterPutBack (fun v hv => ?_) hbefore
    obtain ⟨hvp, hvn⟩ := hown v (by simp [← hds, hv])
    exact ⟨hvp, hvn, h.ne_of_later hres hds hv⟩
  have hnone : G₀ (trash y) = none := by
    by_contra hsome
    exact hres.trash_off List.prefix_rfl (hfree _ hsome)
  rcases hrest.new _ hnone with hk' | ⟨-, hplain⟩
  · exact hk hk'
  · exact hres.trash_off List.prefix_rfl hplain

theorem Held.none_below_later : NoneBelowLater ds := by
  refine pairwise_of_splits fun us u vs hds v hv hle => ?_
  obtain ⟨hup, hun, -⟩ := h.binned u (h.mem_split hres hds)
  have hne := h.ne_of_later hres hds hv
  -- the later removal took the trash of the earlier one along
  have hgone : G (trash u) = none := by
    exact h.swept u hup hun ⟨v, by simp [← hds, hv], (le_sibling rfl hle).resolve_left hne⟩
  refine (h.put_back hres hknown hfree hrest hds).source (hres.afterPutBack_none (fun w hw => ?_) ?_)
  · exact ⟨(h.binned w (h.mem_before hres hds hw)).1, h.not_above_later hres hds hw⟩
  · rw [h.afterDropped_trash hres hknown hup List.prefix_rfl, hgone]

/-- A directory made where an entry was stands in the place of a directory, and nothing is below. -/
theorem Held.remade (ht : t ∈ ds) (hg : g ∈ ms) (hle : t <+: g) : t = g ∧ G₀ t = some dir := by
  have hlater := h.none_below_later hres hknown hfree hrest
  obtain ⟨us, vs, hds⟩ := List.append_of_mem ht
  have hcan := h.put_back hres hknown hfree hrest hds.symm
  obtain ⟨htp, htn, -⟩ := h.binned t ht
  have hcross : ∀ w ∈ us, ∀ x, t <+: x → ¬ w <+: x := fun w hw x htx =>
    h.apart_below hres hds.symm hlater hw htx
  -- the directories made are there when the turn of the entry comes
  have hdirs : ∀ x, t <+: x → x <+: g →
      afterPutBack dir trash (afterDropped tmp G known) us x = some dir := by
    intro x htx hxg
    have hx := hres.plain_mono (h.made g hg).1 hxg
    rw [afterPutBack_of_not fun w hw => ⟨hcross w hw x htx, fun hle => hres.trash_off hle hx⟩,
      hres.afterDropped_plain known G hx, h.plain x hx, if_pos ⟨g, hg, hxg⟩]
  have hsource : afterPutBack dir trash (afterDropped tmp G known) us (trash t) = G₀ t := by
    have htrash : afterPutBack dir trash (afterDropped tmp G known) us (trash t ++ []) = _ :=
      h.trash_kept hres hds.symm [] _ fun w hw => hcross w hw t List.prefix_rfl
    have hcontent := h.content hres hlater hknown ht []
    rw [List.append_nil] at htrash hcontent
    rw [htrash, hcontent, List.append_nil]
  refine ⟨?_, ?_⟩
  · by_contra hne
    have hnone := hcan.empty g hle fun heq => hne heq.symm
    rw [hdirs g hle List.prefix_rfl] at hnone
    cases hnone
  · by_contra hleaf
    exact hcan.ofLeaf (by rwa [hsource]) (hdirs t List.prefix_rfl hle)

theorem Held.all_known (hf : f ∈ fs) : f ∈ known := by
  by_contra hnot
  obtain ⟨hfp, hfn, -, hk⟩ := h.copies f hf
  -- no step of the taking back is about its temporary name
  have hleft : undone dir tmp trash G known ds (tmp f) ≠ none := by
    refine hres.tmp_afterPutBack hfp (fun u hu => (h.binned u hu).1) ?_
    rw [afterDropped_eq, if_neg]
    · exact hk
    · rintro ⟨f', hf', hle⟩
      obtain rfl := hres.tmp_le_tmp (h.copies f' (hknown f' hf')).2.1 hfp hfn hle
      exact hnot hf'
  have hnone : G₀ (tmp f) = none := by
    by_contra hsome
    exact hres.tmp_off List.prefix_rfl (hfree _ hsome)
  rcases hrest.new _ hnone with hk' | ⟨-, hplain⟩
  · exact hleft hk'
  · exact hres.tmp_off List.prefix_rfl hplain

end Needed

/-- **When a prepared change can be taken back**: exactly when nothing went to the trash below what went
there later, no directory was made where an entry had gone but in the place of a directory and with
nothing further below, and no copy is forgotten. -/
theorem undone_restores_iff (h : Held dir tmp trash home Plain G₀ G ds ms fs)
    (hknown : ∀ f ∈ known, f ∈ fs) (hfree : ∀ x, G₀ x ≠ none → Plain x) (hclosed : Closed dir G₀) :
    Restored dir Plain G₀ (undone dir tmp trash G known ds) ↔ Undoable dir G₀ ds ms fs known := by
  constructor
  · intro hrest
    exact ⟨h.none_below_later hres hknown hfree hrest,
      fun t ht g hg hle => h.remade hres hknown hfree hrest ht hg hle,
      fun f hf => h.all_known hres hknown hfree hrest hf⟩
  · exact fun hundo => h.restored hres hundo hknown hfree hclosed

end Undo

end BranchFs.Logic
