/-
# BranchFs.Logic.Aside -- a tree changed through side names

A change of a tree in two phases puts everything under a side name first: an entry to be removed is
moved to the one, a copy is made under the other. Then the copies are moved to where they belong and
the removed entries are dropped. `changedAside` is the tree this leaves.

Nothing keeps the side names free. An entry that is no part of the change is lost when it stands at
one, and two parts of the change meet when one has the side name of the other. When neither happens, and
only then, the rest of the tree stays and the copies arrive.
-/
import BranchFs.Logic.Untouched

namespace BranchFs.Logic

set_option linter.unusedSectionVars false

variable {ν ε : Type} [DecidableEq ν] [DecidableEq ε]

/-! ## The steps -/

/-- The entry at `s` has been moved to `t`. -/
def moved (G : Shape ν ε) (s t : List ν) : Shape ν ε := fun x =>
  if t <+: x then G (s ++ x.drop t.length) else if s <+: x then none else G x

/-- What stood at `t` is gone. -/
def dropped (G : Shape ν ε) (t : List ν) : Shape ν ε := fun x =>
  if t <+: x then none else G x

/-- A leaf has been put at `t`, and the directories on the way. -/
def planted (dir : ε) (G : Shape ν ε) (t : List ν) (k : ε) : Shape ν ε := fun x =>
  if x = t then some k else if x <+: t then some dir else G x

/-- Two ways to name a place next to another: in its directory, under another name. -/
structure SideNames (tmp trash : List ν → List ν) : Prop where
  tmp_dropLast : ∀ p, (tmp p).dropLast = p.dropLast
  trash_dropLast : ∀ p, (trash p).dropLast = p.dropLast
  tmp_ne_nil : ∀ p, tmp p ≠ []
  trash_ne_nil : ∀ p, trash p ≠ []
  tmp_ne : ∀ p, tmp p ≠ p
  trash_ne : ∀ p, trash p ≠ p
  tmp_inj : ∀ {p q}, p ≠ [] → q ≠ [] → tmp p = tmp q → p = q
  tmp_ne_trash : ∀ p q, tmp p ≠ trash q

section

variable (dir : ε) (tmp trash : List ν → List ν) (k : List ν → ε)

/-- One entry to the trash, if there is one. -/
def binOne (G : Shape ν ε) (t : List ν) : Shape ν ε :=
  if G t = none then G else moved G t (trash t)

/-- The removals made. -/
def afterBins (G : Shape ν ε) (ts : List (List ν)) : Shape ν ε :=
  ts.foldl (binOne trash) G

/-- The removals that find something. -/
def bins : Shape ν ε → List (List ν) → List (List ν)
  | _, [] => []
  | G, t :: ts => (if G t = none then [] else [t]) ++ bins (binOne trash G t) ts

/-- A directory in the place of a copy goes to the trash. -/
def setAside (G : Shape ν ε) (f : List ν) : Shape ν ε :=
  if G f = some dir then moved G f (trash f) else G

/-- One copy under its side name. -/
def copyOne (G : Shape ν ε) (f : List ν) : Shape ν ε :=
  planted dir (setAside dir trash G f) (tmp f) (k f)

/-- The copies made. -/
def afterCopies (G : Shape ν ε) (fs : List (List ν)) : Shape ν ε :=
  fs.foldl (copyOne dir tmp trash k) G

/-- The copies that find a directory in their place. -/
def replaced : Shape ν ε → List (List ν) → List (List ν)
  | _, [] => []
  | G, f :: fs => (if G f = some dir then [f] else []) ++ replaced (copyOne dir tmp trash k G f) fs

/-- A copy can be made: no directory has its side name, and nothing else is in the way. -/
def CopyFits (G : Shape ν ε) (f : List ν) : Prop :=
  setAside dir trash G f (tmp f) ≠ some dir ∧
    ∀ a, a <+: f → a ≠ f → setAside dir trash G f a = none ∨ setAside dir trash G f a = some dir

/-- All the copies can be made. -/
def AllFit : Shape ν ε → List (List ν) → Prop
  | _, [] => True
  | G, f :: fs => CopyFits dir tmp trash G f ∧ AllFit (copyOne dir tmp trash k G f) fs

/-- The copies where they belong. -/
def afterMoves (G : Shape ν ε) (fs : List (List ν)) : Shape ν ε :=
  fs.foldl (fun G f => moved G (tmp f) f) G

/-- The trash dropped. -/
def afterDrops (G : Shape ν ε) (ds : List (List ν)) : Shape ν ε :=
  ds.foldl (fun G t => dropped G (trash t)) G

/-- The tree after the whole change. -/
def changedAside (G : Shape ν ε) (ts fs : List (List ν)) : Shape ν ε :=
  let G₁ := afterBins trash G ts
  afterDrops trash (afterMoves tmp (afterCopies dir tmp trash k G₁ fs) fs)
    (bins trash G ts ++ replaced dir tmp trash k G₁ fs)

/-- What a change consists of: copies of leaves that stand apart, and no side name on the way to any
place of the change. -/
structure ChangeSet (ts fs : List (List ν)) : Prop where
  ne_nil : ∀ f ∈ fs, f ≠ []
  nodup : fs.Nodup
  apart : ∀ {f g}, f ∈ fs → g ∈ fs → f <+: g → f = g
  leaf : ∀ f ∈ fs, k f ≠ dir
  tmp_below : ∀ f ∈ fs, ∀ g ∈ fs, tmp f <+: g → tmp f = g
  trash_below : ∀ t, t ∈ ts ∨ t ∈ fs → ∀ g ∈ fs, trash t <+: g → trash t = g

/-- The trash names a change uses. -/
def BinInUse (G : Shape ν ε) (ts fs : List (List ν)) (t : List ν) : Prop :=
  t ∈ bins trash G ts ∨ t ∈ fs ∧ afterBins trash G ts t = some dir

/-- A side name the change uses. -/
def SideInUse (G : Shape ν ε) (ts fs : List (List ν)) (s : List ν) : Prop :=
  (∃ f ∈ fs, s = tmp f) ∨ ∃ t, BinInUse dir trash G ts fs t ∧ s = trash t

/-- Each copy is made before what has its side name. -/
def InOrder (fs : List (List ν)) : Prop :=
  ∀ done f rest, fs = done ++ f :: rest → tmp f ∉ done

end

section

variable {dir : ε} {tmp trash : List ν → List ν} {k : List ν → ε}
variable {G : Shape ν ε} {ts fs : List (List ν)} {f g t x : List ν}

theorem moved_of_not (hs : ¬ f <+: x) (ht : ¬ t <+: x) : moved G f t x = G x := by
  rw [moved, if_neg ht, if_neg hs]

theorem moved_self : moved G f t t = G f := by
  rw [moved, if_pos List.prefix_rfl, List.drop_length, List.append_nil]

theorem moved_source (hs : f <+: x) (ht : ¬ t <+: x) : moved G f t x = none := by
  rw [moved, if_neg ht, if_pos hs]

theorem dropped_none (h : G x = none) : dropped G t x = none := by
  rw [dropped]
  split
  · rfl
  · exact h

/-! ## Side names -/

theorem length_of_sibling {s p : List ν} (hs : s.dropLast = p.dropLast) (hsn : s ≠ []) (hp : p ≠ []) :
    s.length = p.length := by
  have hd := congrArg List.length hs
  rw [List.length_dropLast, List.length_dropLast] at hd
  have h1 := List.length_pos_of_ne_nil hsn
  have h2 := List.length_pos_of_ne_nil hp
  omega

/-- Two places in one directory stand apart. -/
theorem not_le_sibling {s p : List ν} (hs : s.dropLast = p.dropLast) (hsn : s ≠ []) (hp : p ≠ [])
    (hne : s ≠ p) : ¬ s <+: p := fun h =>
  hne (h.eq_of_length (length_of_sibling hs hsn hp))

/-- A place is not above its directory. -/
theorem not_le_dropLast {s p : List ν} (hs : s.dropLast = p.dropLast) (hsn : s ≠ []) :
    ¬ s <+: p.dropLast := by
  intro h
  have hle := h.length_le
  rw [← hs, List.length_dropLast] at hle
  have hpos := List.length_pos_of_ne_nil hsn
  omega

/-- What is at or above a place in the directory of `p` is that place, or at or above the directory. -/
theorem le_sibling {s p : List ν} (hs : s.dropLast = p.dropLast) (h : x <+: s) :
    x = s ∨ x <+: p.dropLast := by
  obtain ⟨r, rfl⟩ := h
  by_cases hr : r = []
  · left
    rw [hr, List.append_nil]
  · right
    rw [← hs, List.dropLast_append_of_ne_nil hr]
    exact List.prefix_append x _

section Sides

variable (hside : SideNames tmp trash)
include hside

theorem SideNames.not_tmp_le_self (hf : f ≠ []) : ¬ tmp f <+: f :=
  not_le_sibling (hside.tmp_dropLast f) (hside.tmp_ne_nil f) hf (hside.tmp_ne f)

theorem SideNames.not_self_le_tmp (hf : f ≠ []) : ¬ f <+: tmp f :=
  not_le_sibling (hside.tmp_dropLast f).symm hf (hside.tmp_ne_nil f) (hside.tmp_ne f).symm

theorem SideNames.not_trash_le_self (ht : t ≠ []) : ¬ trash t <+: t :=
  not_le_sibling (hside.trash_dropLast t) (hside.trash_ne_nil t) ht (hside.trash_ne t)

variable (h : ChangeSet dir tmp trash k ts fs)
include h

/-- A copy at or above the side name of a copy has that name. -/
theorem ChangeSet.eq_tmp (hf : f ∈ fs) (hg : g ∈ fs) (hle : g <+: tmp f) : g = tmp f := by
  rcases le_sibling (hside.tmp_dropLast f) hle with heq | hle
  · exact heq
  · have hgf := h.apart hg hf (hle.trans (List.dropLast_prefix f))
    subst hgf
    exact absurd hle (not_le_dropLast rfl (h.ne_nil g hg))

theorem ChangeSet.not_tmp_le_tmp (hf : f ∈ fs) (hg : g ∈ fs) (hne : g ≠ f) :
    ¬ tmp g <+: tmp f := by
  intro hle
  rcases le_sibling (hside.tmp_dropLast f) hle with heq | hle
  · exact hne (hside.tmp_inj (h.ne_nil g hg) (h.ne_nil f hf) heq)
  · rw [h.tmp_below g hg f hf (hle.trans (List.dropLast_prefix f))] at hle
    exact not_le_dropLast rfl (h.ne_nil f hf) hle

theorem ChangeSet.not_trash_le_tmp (ht : t ∈ ts ∨ t ∈ fs) (hf : f ∈ fs) : ¬ trash t <+: tmp f := by
  intro hle
  rcases le_sibling (hside.tmp_dropLast f) hle with heq | hle
  · exact hside.tmp_ne_trash f t heq.symm
  · rw [h.trash_below t ht f hf (hle.trans (List.dropLast_prefix f))] at hle
    exact not_le_dropLast rfl (h.ne_nil f hf) hle

end Sides

/-! ## The removals -/

theorem binOne_eq (ht : ¬ t <+: x) (hs : G t ≠ none → ¬ trash t <+: x) : binOne trash G t x = G x := by
  rw [binOne]
  split
  · rfl
  · next hsome => exact moved_of_not ht (hs hsome)

/-- The removals leave alone what is neither removed nor under a trash name. -/
theorem afterBins_eq (ht : ∀ t ∈ ts, ¬ t <+: x) (hs : ∀ t ∈ bins trash G ts, ¬ trash t <+: x) :
    afterBins trash G ts x = G x := by
  induction ts generalizing G with
  | nil => rfl
  | cons t ts ih =>
    rw [bins] at hs
    show afterBins trash (binOne trash G t) ts x = G x
    rw [ih (fun u hu => ht u (List.mem_cons_of_mem _ hu))
      fun u hu => hs u (List.mem_append_right _ hu)]
    refine binOne_eq (ht t (List.mem_cons_self ..)) fun hsome => hs t ?_
    rw [if_neg hsome]
    simp

theorem mem_of_mem_bins (ht : t ∈ bins trash G ts) : t ∈ ts := by
  induction ts generalizing G with
  | nil => cases ht
  | cons u ts ih =>
    rw [bins, List.mem_append] at ht
    rcases ht with ht | ht
    · split at ht
      · cases ht
      · exact List.mem_singleton.mp ht ▸ List.mem_cons_self ..
    · exact List.mem_cons_of_mem _ (ih ht)

/-! ## The copies -/

theorem setAside_eq (hf : G f = some dir → ¬ f <+: x ∧ ¬ trash f <+: x) :
    setAside dir trash G f x = G x := by
  rw [setAside]
  split
  · next hdir => exact moved_of_not (hf hdir).1 (hf hdir).2
  · rfl

/-- What a copy leaves of the leaves elsewhere. -/
theorem copyOne_leaf {e : ε} (hfit : CopyFits dir tmp trash G f) (hside : SideNames tmp trash)
    (hne : f ≠ []) (hx : G x = some e) (he : e ≠ dir) (hf : f <+: x → f = x)
    (hs : G f = some dir → ¬ trash f <+: x) (htmp : x ≠ tmp f) :
    copyOne dir tmp trash k G f x = some e := by
  have hkeep : setAside dir trash G f x = some e := by
    rw [setAside_eq fun hdir => ⟨fun hle => ?_, hs hdir⟩, hx]
    have := hf hle
    subst this
    rw [hdir] at hx
    exact he (Option.some.inj hx).symm
  rw [copyOne, planted, if_neg htmp, if_neg, hkeep]
  intro hle
  -- on the way to a copy are directories only
  rcases le_sibling (hside.tmp_dropLast f) hle with heq | hle
  · exact htmp heq
  · have hxf : x ≠ f := fun heq => not_le_dropLast rfl hne (heq ▸ hle)
    rcases hfit.2 x (hle.trans (List.dropLast_prefix f)) hxf with hnone | hdir
    · rw [hkeep] at hnone
      cases hnone
    · rw [hkeep] at hdir
      exact he (Option.some.inj hdir)

theorem mem_of_mem_replaced (hf : f ∈ replaced dir tmp trash k G fs) : f ∈ fs := by
  induction fs generalizing G with
  | nil => cases hf
  | cons g fs ih =>
    rw [replaced, List.mem_append] at hf
    rcases hf with hf | hf
    · split at hf
      · exact List.mem_singleton.mp hf ▸ List.mem_cons_self ..
      · cases hf
    · exact List.mem_cons_of_mem _ (ih hf)

/-- The copies leave alone a leaf that is none of them, under no side name of them. -/
theorem afterCopies_leaf {e : ε} (hside : SideNames tmp trash) (hne : ∀ f ∈ fs, f ≠ [])
    (hfit : AllFit dir tmp trash k G fs) (hx : G x = some e) (he : e ≠ dir)
    (hf : ∀ f ∈ fs, f <+: x → f = x) (hs : ∀ f ∈ replaced dir tmp trash k G fs, ¬ trash f <+: x)
    (htmp : ∀ f ∈ fs, x ≠ tmp f) : afterCopies dir tmp trash k G fs x = some e := by
  induction fs generalizing G with
  | nil => exact hx
  | cons g fs ih =>
    rw [replaced] at hs
    refine ih (fun f hf' => hne f (List.mem_cons_of_mem _ hf')) hfit.2 ?_
      (fun f hf' => hf f (List.mem_cons_of_mem _ hf'))
      (fun f hf' => hs f (List.mem_append_right _ hf'))
      (fun f hf' => htmp f (List.mem_cons_of_mem _ hf'))
    refine copyOne_leaf hfit.1 hside (hne g (List.mem_cons_self ..)) hx he
      (hf g (List.mem_cons_self ..)) (fun hdir => hs g ?_) (htmp g (List.mem_cons_self ..))
    rw [if_pos hdir]
    simp

theorem ChangeSet.tail (h : ChangeSet dir tmp trash k ts (g :: fs)) :
    ChangeSet dir tmp trash k ts fs where
  ne_nil f hf := h.ne_nil f (List.mem_cons_of_mem _ hf)
  nodup := (List.nodup_cons.mp h.nodup).2
  apart hf hg := h.apart (List.mem_cons_of_mem _ hf) (List.mem_cons_of_mem _ hg)
  leaf f hf := h.leaf f (List.mem_cons_of_mem _ hf)
  tmp_below f hf g' hg := h.tmp_below f (List.mem_cons_of_mem _ hf) g' (List.mem_cons_of_mem _ hg)
  trash_below t ht g' hg := h.trash_below t (ht.imp_right (List.mem_cons_of_mem _)) g'
    (List.mem_cons_of_mem _ hg)

theorem ChangeSet.ne_head (h : ChangeSet dir tmp trash k ts (g :: fs)) (hf : f ∈ fs) : f ≠ g := by
  rintro rfl
  exact (List.nodup_cons.mp h.nodup).1 hf

/-- **Every copy is under its side name** once all are made. -/
theorem afterCopies_tmp (hside : SideNames tmp trash) (h : ChangeSet dir tmp trash k ts fs)
    (hfit : AllFit dir tmp trash k G fs) (hf : f ∈ fs) :
    afterCopies dir tmp trash k G fs (tmp f) = some (k f) := by
  induction fs generalizing G with
  | nil => cases hf
  | cons g fs ih =>
    rcases List.mem_cons.mp hf with rfl | hf'
    · show afterCopies dir tmp trash k (copyOne dir tmp trash k G f) fs (tmp f) = some (k f)
      refine afterCopies_leaf hside h.tail.ne_nil hfit.2 ?_ (h.leaf f hf) ?_ ?_ ?_
      · rw [copyOne, planted, if_pos rfl]
      · exact fun g hg hle => h.eq_tmp hside hf (List.mem_cons_of_mem _ hg) hle
      · intro g hg
        exact h.not_trash_le_tmp hside (Or.inr (List.mem_cons_of_mem _ (mem_of_mem_replaced hg))) hf
      · intro g hg heq
        exact h.ne_head hg (hside.tmp_inj (h.ne_nil f hf) (h.tail.ne_nil g hg) heq).symm
    · exact ih h.tail hfit.2 hf'

/-- A directory in the place of a copy stays until its turn comes. -/
theorem copyOne_dir (h : ChangeSet dir tmp trash k ts (g :: fs))
    (hfit : CopyFits dir tmp trash G g) (hf : f ∈ fs) (hdir : G f = some dir) :
    copyOne dir tmp trash k G g f = some dir := by
  have hgf : ¬ g <+: f := fun hle => h.ne_head hf
    (h.apart (List.mem_cons_self ..) (List.mem_cons_of_mem _ hf) hle).symm
  have haside : setAside dir trash G g f = some dir := by
    rw [setAside]
    split
    · next hg =>
      rw [moved, if_neg hgf]
      split
      · next hle =>
        -- the directory set aside has taken the place of this one
        rw [← h.trash_below g (Or.inr (List.mem_cons_self ..)) f (List.mem_cons_of_mem _ hf) hle,
          List.drop_length, List.append_nil, hg]
      · exact hdir
    · exact hdir
  rw [copyOne, planted, if_neg, haside]
  · split <;> rfl
  · rintro rfl
    exact hfit.1 haside

/-- Where a directory is when the copies start, one is set aside. -/
theorem mem_replaced_of_dir (h : ChangeSet dir tmp trash k ts fs)
    (hfit : AllFit dir tmp trash k G fs) (hf : f ∈ fs) (hdir : G f = some dir) :
    f ∈ replaced dir tmp trash k G fs := by
  induction fs generalizing G with
  | nil => cases hf
  | cons g fs ih =>
    rw [replaced, List.mem_append]
    rcases List.mem_cons.mp hf with rfl | hf'
    · left
      rw [if_pos hdir]
      simp
    · exact Or.inr (ih h.tail hfit.2 hf' (copyOne_dir h hfit.1 hf' hdir))

/-- A copy makes no directory in the place of another, unless it sets one aside there. -/
theorem dir_of_copyOne (hside : SideNames tmp trash) (h : ChangeSet dir tmp trash k ts (g :: fs))
    (hf : f ∈ fs) (hno : G g = some dir → trash g ≠ f)
    (hdir : copyOne dir tmp trash k G g f = some dir) : G f = some dir := by
  have hg := List.mem_cons_self (a := g) (l := fs)
  have hfc := List.mem_cons_of_mem g hf
  have hgf : ¬ g <+: f := fun hle => h.ne_head hf (h.apart hg hfc hle).symm
  rw [copyOne, planted] at hdir
  split at hdir
  · exact absurd (Option.some.inj hdir) (h.leaf g hg)
  · next htmp =>
    rw [if_neg, setAside_eq] at hdir
    · exact hdir
    · exact fun hdirg => ⟨hgf, fun hle => hno hdirg (h.trash_below g (Or.inr hg) f hfc hle)⟩
    · exact fun hle => htmp (h.eq_tmp hside hg hfc hle)

/-- No other directory is set aside, unless one is set aside in the place of a copy. -/
theorem dir_of_mem_replaced (hside : SideNames tmp trash) (h : ChangeSet dir tmp trash k ts fs)
    (hno : ∀ g ∈ fs, G g = some dir → trash g ∉ fs) (hf : f ∈ replaced dir tmp trash k G fs) :
    G f = some dir := by
  induction fs generalizing G with
  | nil => cases hf
  | cons g fs ih =>
    have hback : ∀ f ∈ fs, copyOne dir tmp trash k G g f = some dir → G f = some dir := by
      intro f hf
      refine dir_of_copyOne hside h hf fun hdir heq => ?_
      exact hno g (List.mem_cons_self ..) hdir (heq ▸ List.mem_cons_of_mem _ hf)
    rw [replaced, List.mem_append] at hf
    rcases hf with hf | hf
    · split at hf
      · next hdir => exact List.mem_singleton.mp hf ▸ hdir
      · cases hf
    · refine hback f (mem_of_mem_replaced hf) (ih h.tail ?_ hf)
      intro u hu hdir hmem
      exact hno u (List.mem_cons_of_mem _ hu) (hback u hu hdir) (List.mem_cons_of_mem _ hmem)

/-! ## The copies in place -/

theorem afterMoves_eq (hf : ∀ f ∈ fs, ¬ f <+: x) (htmp : ∀ f ∈ fs, ¬ tmp f <+: x) :
    afterMoves tmp G fs x = G x := by
  induction fs generalizing G with
  | nil => rfl
  | cons g fs ih =>
    show afterMoves tmp (moved G (tmp g) g) fs x = G x
    rw [ih (fun f hf' => hf f (List.mem_cons_of_mem _ hf'))
      fun f hf' => htmp f (List.mem_cons_of_mem _ hf')]
    exact moved_of_not (htmp g (List.mem_cons_self ..)) (hf g (List.mem_cons_self ..))

/-- Nothing comes where nothing is and no copy belongs. -/
theorem afterMoves_none (hf : ∀ f ∈ fs, ¬ f <+: x) (hx : G x = none) :
    afterMoves tmp G fs x = none := by
  induction fs generalizing G with
  | nil => exact hx
  | cons g fs ih =>
    refine ih (fun f hf' => hf f (List.mem_cons_of_mem _ hf')) ?_
    show moved G (tmp g) g x = none
    rw [moved, if_neg (hf g (List.mem_cons_self ..))]
    split
    · rfl
    · exact hx

/-- What stood at or below a side name is gone once its copy has moved. -/
theorem afterMoves_tmp {done rest : List (List ν)} (hf : ∀ g ∈ f :: rest, ¬ g <+: x)
    (hx : tmp f <+: x) : afterMoves tmp G (done ++ f :: rest) x = none := by
  have hsplit : afterMoves tmp G (done ++ f :: rest) =
      afterMoves tmp (moved (afterMoves tmp G done) (tmp f) f) rest := by
    unfold afterMoves
    rw [List.foldl_append, List.foldl_cons]
  rw [hsplit]
  refine afterMoves_none (fun g hg => hf g (List.mem_cons_of_mem _ hg)) ?_
  exact moved_source hx (hf f (List.mem_cons_self ..))

theorem InOrder.tail (h : InOrder tmp (g :: fs)) : InOrder tmp fs := by
  intro done f rest hsplit hmem
  exact h (g :: done) f rest (by rw [hsplit]; rfl) (List.mem_cons_of_mem _ hmem)

theorem InOrder.ne_head (h : InOrder tmp (g :: fs)) (hf : f ∈ fs) : tmp f ≠ g := by
  obtain ⟨done, rest, hsplit⟩ := List.append_of_mem hf
  intro heq
  exact h (g :: done) f rest (by rw [hsplit]; rfl) (heq ▸ List.mem_cons_self ..)

/-- **Every copy arrives** when each is moved before what has its side name. -/
theorem afterMoves_arrived (hside : SideNames tmp trash) (h : ChangeSet dir tmp trash k ts fs)
    (hord : InOrder tmp fs) (hG : ∀ f ∈ fs, G (tmp f) = some (k f)) (hf : f ∈ fs) :
    afterMoves tmp G fs f = some (k f) := by
  induction fs generalizing G with
  | nil => cases hf
  | cons g fs ih =>
    have hg := List.mem_cons_self (a := g) (l := fs)
    show afterMoves tmp (moved G (tmp g) g) fs f = some (k f)
    rcases List.mem_cons.mp hf with rfl | hf'
    · rw [afterMoves_eq, moved_self, hG f hf]
      · exact fun g hg' hle => h.ne_head hg' (h.apart (List.mem_cons_of_mem _ hg') hf hle)
      · intro g hg' hle
        exact hord.ne_head hg' (h.tmp_below g (List.mem_cons_of_mem _ hg') f hf hle)
    · refine ih h.tail hord.tail (fun u hu => ?_) hf'
      have huc := List.mem_cons_of_mem g hu
      rw [moved_of_not, hG u huc]
      · exact h.not_tmp_le_tmp hside huc hg (h.ne_head hu).symm
      · exact fun hle => hord.ne_head hu (h.eq_tmp hside huc hg hle).symm

/-! ## The trash dropped -/

theorem afterDrops_eq {ds : List (List ν)} (hs : ∀ t ∈ ds, ¬ trash t <+: x) :
    afterDrops trash G ds x = G x := by
  induction ds generalizing G with
  | nil => rfl
  | cons t ds ih =>
    show afterDrops trash (dropped G (trash t)) ds x = G x
    rw [ih fun u hu => hs u (List.mem_cons_of_mem _ hu), dropped,
      if_neg (hs t (List.mem_cons_self ..))]

theorem afterDrops_of_none {ds : List (List ν)} (hx : G x = none) :
    afterDrops trash G ds x = none := by
  induction ds generalizing G with
  | nil => exact hx
  | cons t ds ih => exact ih (dropped_none hx)

theorem afterDrops_none {ds : List (List ν)} (ht : t ∈ ds) (hx : trash t <+: x) :
    afterDrops trash G ds x = none := by
  induction ds generalizing G with
  | nil => cases ht
  | cons u ds ih =>
    rcases List.mem_cons.mp ht with rfl | ht
    · refine afterDrops_of_none (G := dropped G (trash t)) ?_
      rw [dropped, if_pos hx]
    · exact ih ht

/-! ## The whole change -/

/-- Neither removed nor at or below a copy. -/
def Unchanged (ts fs : List (List ν)) (x : List ν) : Prop :=
  (∀ t ∈ ts, ¬ t <+: x) ∧ ∀ f ∈ fs, ¬ f <+: x

theorem BinInUse.mem (ht : BinInUse dir trash G ts fs t) : t ∈ ts ∨ t ∈ fs :=
  ht.imp mem_of_mem_bins And.left

/-- **What a change through side names needs.** If the leaves it is not about keep their places and
something arrives in the place of every copy, then no such leaf stands at or below a side name in use,
no copy belongs where a trash name in use is, and each copy is made before what has its side name. -/
theorem sides_apart_of_kept (h : ChangeSet dir tmp trash k ts fs)
    (hfit : AllFit dir tmp trash k (afterBins trash G ts) fs)
    (hkept : ∀ x, Leaf dir G x → Unchanged ts fs x → changedAside dir tmp trash k G ts fs x ≠ none)
    (harrived : ∀ f ∈ fs, changedAside dir tmp trash k G ts fs f ≠ none) :
    (∀ x, Leaf dir G x → Unchanged ts fs x → ∀ s, SideInUse dir tmp trash G ts fs s → ¬ s <+: x) ∧
      (∀ t, BinInUse dir trash G ts fs t → trash t ∉ fs) ∧ InOrder tmp fs := by
  have hbin : ∀ t, BinInUse dir trash G ts fs t → t ∈ bins trash G ts ++
      replaced dir tmp trash k (afterBins trash G ts) fs := by
    rintro t (ht | ⟨ht, hdir⟩)
    · exact List.mem_append_left _ ht
    · exact List.mem_append_right _ (mem_replaced_of_dir h hfit ht hdir)
  refine ⟨?_, ?_, ?_⟩
  · intro x hx hun s hs hle
    apply hkept x hx hun
    rcases hs with ⟨f, hf, rfl⟩ | ⟨t, ht, rfl⟩
    · obtain ⟨done, rest, rfl⟩ := List.append_of_mem hf
      exact afterDrops_of_none (afterMoves_tmp
        (fun g hg => hun.2 g (List.mem_append_right _ hg)) hle)
    · exact afterDrops_none (hbin t ht) hle
  · intro t ht hmem
    exact harrived _ hmem (afterDrops_none (hbin t ht) List.prefix_rfl)
  · rintro done f rest rfl hmem
    have hmem' : tmp f ∈ done ++ f :: rest := List.mem_append_left _ hmem
    -- the name of the earlier copy is left empty when the later one moves
    apply harrived _ hmem'
    refine afterDrops_of_none (afterMoves_tmp (fun g hg hle => ?_) List.prefix_rfl)
    have heq := h.apart (List.mem_append_right _ hg) hmem' hle
    exact (List.nodup_append.mp h.nodup).2.2 _ hmem _ hg heq.symm

/-- **What a change through side names keeps**, when its side names are apart from everything else. -/
theorem kept_of_sides_apart (hside : SideNames tmp trash) (h : ChangeSet dir tmp trash k ts fs)
    (hfit : AllFit dir tmp trash k (afterBins trash G ts) fs)
    (hfree : ∀ x, Leaf dir G x → Unchanged ts fs x →
      ∀ s, SideInUse dir tmp trash G ts fs s → ¬ s <+: x)
    (hbins : ∀ t, BinInUse dir trash G ts fs t → trash t ∉ fs) (hord : InOrder tmp fs) :
    (∀ x e, G x = some e → e ≠ dir → Unchanged ts fs x →
        changedAside dir tmp trash k G ts fs x = some e) ∧
      ∀ f ∈ fs, changedAside dir tmp trash k G ts fs f = some (k f) := by
  have hdrop : ∀ t, t ∈ bins trash G ts ++ replaced dir tmp trash k (afterBins trash G ts) fs →
      BinInUse dir trash G ts fs t := by
    intro t ht
    rcases List.mem_append.mp ht with ht | ht
    · exact Or.inl ht
    · exact Or.inr ⟨mem_of_mem_replaced ht,
        dir_of_mem_replaced hside h (fun g hg hdir => hbins g (Or.inr ⟨hg, hdir⟩)) ht⟩
  constructor
  · intro x e hx he hun
    have hno := hfree x ⟨e, hx, he⟩ hun
    have hnot : ∀ f ∈ fs, ¬ tmp f <+: x := fun f hf => hno _ (Or.inl ⟨f, hf, rfl⟩)
    have htrash : ∀ t ∈ bins trash G ts ++ replaced dir tmp trash k (afterBins trash G ts) fs,
        ¬ trash t <+: x := fun t ht => hno _ (Or.inr ⟨t, hdrop t ht, rfl⟩)
    have h₁ : afterBins trash G ts x = some e := by
      rw [afterBins_eq hun.1 fun t ht => htrash t (List.mem_append_left _ ht), hx]
    show afterDrops trash _ _ x = some e
    rw [afterDrops_eq htrash, afterMoves_eq hun.2 hnot]
    refine afterCopies_leaf hside h.ne_nil hfit h₁ he (fun f hf hle => absurd hle (hun.2 f hf)) ?_ ?_
    · exact fun t ht => htrash t (List.mem_append_right _ ht)
    · rintro f hf rfl
      exact hnot f hf List.prefix_rfl
  · intro f hf
    show afterDrops trash _ _ f = some (k f)
    rw [afterDrops_eq]
    · exact afterMoves_arrived hside h hord (fun g hg => afterCopies_tmp hside h hfit hg) hf
    · intro t ht hle
      have huse := hdrop t ht
      exact hbins t huse (h.trash_below t huse.mem f hf hle ▸ hf)

end

end BranchFs.Logic
