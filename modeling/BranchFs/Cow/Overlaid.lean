/-
# BranchFs.Cow.Overlaid -- a branch as an overlay, links followed

Where a walk through a branch has met only directories, the branch's own delta has only directories or
nothing on the way and is read where it stands. So a branch shows its delta and tombstones laid over
what it inherits, whatever links the layers below have. An operation of the branch leaves what it
inherits alone as long as these links do not lead into the branch's own store.
-/
import BranchFs.Cow.Shown
import BranchFs.Model.Flat
import BranchFs.Posix.Layout

namespace BranchFs

open BranchFs.Posix BranchFs.Logic

namespace Manager

/-- What a walk through what the branch inherits finds, its hide rules applied. -/
def inheritedView (m : Manager) (b : Branch) (p : RelPath) : Option Entry :=
  if ∀ a ∈ properPrefixes p, m.inheritedKind b a = some .dir then m.inheritedKind b p else none

theorem inheritedView_eq_shown (m : Manager) (b : Branch) :
    m.inheritedView b = shown .dir (m.inheritedKind b) := by
  funext p
  unfold inheritedView
  split
  · next h => exact (shown_of_dirs fun a ha hne => h a (mem_properPrefixes.mpr ⟨ha, hne⟩)).symm
  · next h =>
    push Not at h
    obtain ⟨a, ha, hnot⟩ := h
    exact (shown_of_not (mem_properPrefixes.mp ha).1 (mem_properPrefixes.mp ha).2 hnot).symm

variable {m : Manager} {name : String} {b : Branch}

/-- Below directories the branch shows, its delta is read where it stands. -/
theorem noLinkAbove_of_shown (hb : m.forest.get? name = some b) {q : RelPath}
    (hway : ∀ a, a <+: q → a ≠ q → m.kindOf name a = some .dir) :
    m.disk.NoLinkAbove (deltaPath name q) := by
  refine Disk.noLinkAbove_of fun x hx hne => ?_
  obtain ⟨a, ha, rfl⟩ := le_deltaPath.mp hx
  have haq : a ≠ q := deltaPath_ne.mp hne
  have hdirs : ∀ c, c <+: a → m.kindOf name c = some .dir :=
    fun c hc => hway c (hc.trans ha) fun heq => haq (ha.eq_of_length_le (heq ▸ hc.length_le))
  rcases (delta_of_shown hb hdirs a.length a rfl List.prefix_rfl).2 with hnone | hdir
  · exact Disk.linkAt_of_none hnone
  · exact Disk.linkAt_eq_false_of_kind hdir rfl

/-- **A branch shows its delta and tombstones laid over what it inherits.** -/
theorem view_eq_overlay (hb : m.forest.get? name = some b) :
    m.view name =
      shown .dir (overlay (deltaKind m.disk name) (Whiteout b) (m.inheritedKind b)) := by
  rw [view_eq_walk]
  refine shown_congr_of_dirs fun q hway => ?_
  have hlink := noLinkAbove_of_shown hb fun a ha hne => (hway a ha hne).1
  rw [kindOf_eq hb]
  unfold hasDelta
  by_cases hl : m.disk.lexists (deltaPath name q) = true
  · obtain ⟨k, hk⟩ := Option.ne_none_iff_exists'.mp ((Disk.lexists_eq rfl hlink).mp hl)
    rw [if_pos hl, Disk.lkind_eq rfl hlink, hk, overlay_of_some hk]
  · have hk : deltaKind m.disk name q = none := by
      by_contra hk
      exact hl ((Disk.lexists_eq rfl hlink).mpr hk)
    have hq : q ≠ [] := by
      rintro rfl
      rw [deltaKind, Disk.kindAt_root _ rfl] at hk
      cases hk
    rw [if_neg hl]
    by_cases hdel : b.isDeleted q = true
    · rw [if_pos hdel, overlay_of_covered hk ((covers_whiteout hq).mpr hdel)]
    · rw [if_neg hdel, overlay_of_none hk fun h => hdel ((covers_whiteout hq).mp h)]

/-- No link in the layers below the branch leads into the branch's own store: whatever stood there, the
layers would show the same. -/
def LayersApart (m : Manager) (name : String) : Prop :=
  ∀ d : Tree, SameOn (fun r => ¬ Own name r) m.disk d → SameLayout m.disk d →
    ∀ r ∈ m.layers name, ∀ p, d.lkind ⟨some r, p⟩ = m.disk.lkind ⟨some r, p⟩

/-- Layers without links show the same. -/
theorem layersApart_of_linkless (h : ∀ r ∈ m.layers name, ∀ p, m.disk.linkAt ⟨some r, p⟩ = false) :
    m.LayersApart name := by
  intro d hd _ r hr p
  have hkind : ∀ q, d.kindAt ⟨some r, q⟩ = m.disk.kindAt ⟨some r, q⟩ :=
    fun q => hd.kindAt (not_own_of_mem_layers hr)
  have hway : ∀ d' : Tree, (∀ q, d'.linkAt ⟨some r, q⟩ = false) → d'.NoLinkAbove ⟨some r, p⟩ := by
    intro d' hd'
    refine Disk.noLinkAbove_of fun x hx _ => ?_
    have hxr : x = ⟨some r, x.path⟩ := Loc.ext' hx.1 rfl
    rw [hxr]
    exact hd' x.path
  have hlink : ∀ q, d.linkAt ⟨some r, q⟩ = false := by
    intro q
    unfold Disk.linkAt
    rw [hkind]
    exact h r hr q
  rw [Disk.lkind_eq rfl (hway d hlink), Disk.lkind_eq rfl (hway m.disk (h r hr)), hkind]

variable {m' : Manager} {b' : Branch}

/-- **What a branch inherits is not its own doing.** -/
theorem inheritedKind_of_apart (hap : m.LayersApart name) (hF : m.forest.SameBut name m'.forest)
    (hb : m.forest.get? name = some b) (hb' : m'.forest.get? name = some b')
    (hd : SameOn (fun r => ¬ Own name r) m.disk m'.disk) (hl : SameLayout m.disk m'.disk) :
    m'.inheritedKind b' = m.inheritedKind b := by
  funext p
  have hkind := fun r hr => hap m'.disk hd hl r hr p
  have hsource : m'.inheritedForTouch b' p = m.inheritedForTouch b p := by
    refine inheritedForTouch_congr hF hb hb' fun r hr => ?_
    rw [Bool.eq_iff_iff, Disk.lexists_iff_lkind, Disk.lexists_iff_lkind, hkind r hr]
  unfold inheritedKind kindAtPath
  rw [hsource]
  cases hsrc : m.inheritedForTouch b p with
  | none => rfl
  | some l =>
    have hres : m.inheritedResolve b p = some l := by
      unfold inheritedForTouch at hsrc
      split at hsrc
      · cases hsrc
      · exact hsrc
    obtain ⟨r, hr, rfl⟩ := mem_layers_of_inherited hb hres
    exact hkind r hr

end Manager

end BranchFs
