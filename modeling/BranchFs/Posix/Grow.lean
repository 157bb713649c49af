/-
# BranchFs.Posix.Grow -- a disk that only gained entries

Resolution reads the entries on its way and nothing else, so an answer it gave stays right when
entries are added at free places and files are rewritten. `Grows` is that order, and `realpath`,
`lstat` and `stat` are monotone in it.
-/
import BranchFs.Posix.Outcome

namespace BranchFs.Posix

variable {ρ ν : Type}

/-- The same kind, or both files. -/
def SameShape (k k' : Kind ν) : Prop := k' = k ∨ (k.isFile = true ∧ k'.isFile = true)

theorem SameShape.refl (k : Kind ν) : SameShape k k := Or.inl rfl

theorem SameShape.trans {k k' k'' : Kind ν} (h : SameShape k k') (h' : SameShape k' k'') :
    SameShape k k'' := by
  rcases h with rfl | ⟨h1, h2⟩
  · exact h'
  · rcases h' with rfl | ⟨_, h4⟩
    · exact Or.inr ⟨h1, h2⟩
    · exact Or.inr ⟨h1, h4⟩

theorem SameShape.dir {k : Kind ν} (h : SameShape .dir k) : k = .dir := by
  rcases h with rfl | ⟨h, _⟩
  · rfl
  · cases h

theorem SameShape.symlink {t : Link ν} {k : Kind ν} (h : SameShape (.symlink t) k) :
    k = .symlink t := by
  rcases h with rfl | ⟨h, _⟩
  · rfl
  · cases h

variable [DecidableEq ρ] [DecidableEq ν]

/-- `d'` has every entry of `d`, up to the contents of files. -/
structure Grows (d d' : Disk ρ ν) : Prop where
  layout : d'.layout = d.layout
  keeps : ∀ x k, d.kindAt x = some k → ∃ k', d'.kindAt x = some k' ∧ SameShape k k'

namespace Grows

variable {d d' d'' : Disk ρ ν} {l r : Loc ρ ν}

theorem refl (d : Disk ρ ν) : Grows d d where
  layout := rfl
  keeps := fun _ k h => ⟨k, h, SameShape.refl k⟩

theorem trans (h : Grows d d') (h' : Grows d' d'') : Grows d d'' where
  layout := h'.layout.trans h.layout
  keeps := by
    intro x k hk
    obtain ⟨k', hk', hs⟩ := h.keeps x k hk
    obtain ⟨k'', hk'', hs'⟩ := h'.keeps x k' hk'
    exact ⟨k'', hk'', hs.trans hs'⟩

theorem of_add {k : Kind ν} {mode : Nat} (h : d.add l k mode = some d') : Grows d d' where
  layout := Disk.layout_add h
  keeps := by
    intro x k' hk
    refine ⟨k', ?_, SameShape.refl k'⟩
    rw [Disk.kindAt_add h, if_neg, hk]
    rintro rfl
    rw [Disk.free_of_add h] at hk
    cases hk

theorem of_putFile {data : Bytes} {mode : Option Nat} (h : d.putFile l data mode = .ok () d') :
    Grows d d' where
  layout := Disk.layout_putFile h
  keeps := by
    intro x k hk
    rw [Disk.kindAt_putFile h]
    split
    · next hx =>
      subst hx
      rcases Disk.free_or_file_of_putFile h with hf | hf
      · rw [hf] at hk
        cases hk
      · refine ⟨_, rfl, Or.inr ⟨?_, rfl⟩⟩
        simpa [Disk.fileAt, hk] using hf
    · exact ⟨k, hk, SameShape.refl k⟩

theorem of_madeDirs (h : Sys.MadeDirs l d d') (hfile : d.fileAbove l = false)
    (hlink : d.NoLinkAbove l) (hf : d.fileAt l = false) (hk : d.linkAt l = false) :
    Grows d d' where
  layout := h.layout
  keeps := by
    intro x k hx
    refine ⟨k, ?_, SameShape.refl k⟩
    rw [h.kind]
    split
    · next hle =>
      -- on the way to `l` there were only directories
      by_cases heq : x = l
      · subst heq
        rcases Disk.dir_or_none hf hk with hd | hn
        · rw [← hx, hd]
        · rw [hn] at hx
          cases hx
      · have hfx : d.fileAt x = false := by
          by_contra hc
          rw [Disk.fileAbove_iff.mpr ⟨x, hle, heq, by simpa using hc⟩] at hfile
          cases hfile
        rcases Disk.dir_or_none hfx (hlink.not_link hle heq) with hd | hn
        · rw [← hx, hd]
        · rw [hn] at hx
          cases hx
    · exact hx

/-! ## Resolution is monotone -/

theorem norm (h : Grows d d') (l : Loc ρ ν) : d'.norm l = d.norm l := by
  simp only [Disk.norm, h.layout]

theorem up (h : Grows d d') (l : Loc ρ ν) : d'.up l = d.up l := by
  simp only [Disk.up, h.norm, h.layout]

/-- What stands on a way stays there. -/
theorem wayAt (h : Grows d d') {k : Kind ν} (hk : d.wayAt l = some k) :
    ∃ k', d'.wayAt l = some k' ∧ SameShape k k' := by
  unfold Disk.wayAt at hk ⊢
  rw [h.layout]
  split at hk
  · next hhost => exact ⟨.dir, if_pos hhost, (Option.some.inj hk) ▸ SameShape.refl _⟩
  · next hhost =>
    rw [if_neg hhost]
    exact h.keeps l k hk

theorem walkFrom (h : Grows d d') {follow follow' : Loc ρ ν → List (Comp ν) → Except Errno (Loc ρ ν)}
    (hf : ∀ cur comps r, follow cur comps = .ok r → follow' cur comps = .ok r) :
    ∀ (comps : List (Comp ν)) (cur r : Loc ρ ν), d.walkFrom follow cur comps = .ok r →
      d'.walkFrom follow' cur comps = .ok r := by
  intro comps
  induction comps with
  | nil =>
    intro cur r hw
    simpa [Disk.walkFrom] using hw
  | cons c rest ih =>
    intro cur r hw
    cases c with
    | up =>
      rw [Disk.walkFrom] at hw ⊢
      rw [h.up]
      exact ih _ _ hw
    | name n =>
      rw [Disk.walkFrom] at hw ⊢
      simp only [h.norm] at hw ⊢
      by_cases hrest : rest.isEmpty = true
      · simpa only [hrest, if_true] using hw
      · simp only [hrest, Bool.false_eq_true, if_false] at hw ⊢
        cases hk : d.wayAt (d.norm (cur.child n)) with
        | none =>
          simp only [hk] at hw
          cases hw
        | some k =>
          obtain ⟨k', hk', hs⟩ := h.wayAt hk
          simp only [hk] at hw
          cases k with
          | dir =>
            rw [hs.dir] at hk'
            simp only [hk']
            exact ih _ _ hw
          | symlink t =>
            rw [hs.symlink] at hk'
            simp only [hk']
            exact hf _ _ _ hw
          | file b => cases hw

theorem walk (h : Grows d d') : ∀ (n : Nat) (cur : Loc ρ ν) (comps : List (Comp ν)) (r : Loc ρ ν),
    d.walk n cur comps = .ok r → d'.walk n cur comps = .ok r := by
  intro n
  induction n with
  | zero =>
    intro cur comps r hw
    refine h.walkFrom ?_ comps cur r hw
    intro cur comps r hf
    cases hf
  | succ n ih =>
    intro cur comps r hw
    exact h.walkFrom (fun cur comps r hf => ih cur comps r hf) comps cur r hw

theorem realpath (h : Grows d d') (hw : d.realpath l = .ok r) : d'.realpath l = .ok r :=
  h.walk _ _ _ _ hw

/-- An entry `lstat` found is found again. -/
theorem lkind (h : Grows d d') {k : Kind ν} (hk : d.lkind l = some k) :
    ∃ k', d'.lkind l = some k' ∧ SameShape k k' := by
  unfold Disk.lkind Disk.lstat at hk
  cases hr : d.realpath l with
  | error e => simp [hr, Except.toOption] at hk
  | ok r =>
    cases hg : d.get r with
    | none => simp [hr, hg, Except.toOption] at hk
    | some n =>
      have hn : n.kind = k := by simpa [hr, hg, Except.toOption] using hk
      obtain ⟨k', hk', hs⟩ := h.keeps r k (by rw [Disk.kindAt_of_get hg, hn])
      obtain ⟨n', hg', hn'⟩ := Disk.exists_get hk'
      refine ⟨k', ?_, hs⟩
      simp [Disk.lkind, Disk.lstat, h.realpath hr, hg', hn', Except.toOption]

theorem lexists (h : Grows d d') (hl : d.lexists l = true) : d'.lexists l = true := by
  rw [Disk.lexists_iff_lkind] at hl ⊢
  obtain ⟨k, hk⟩ := Option.ne_none_iff_exists'.mp hl
  obtain ⟨k', hk', _⟩ := h.lkind hk
  simp [hk']

end Grows

/-- An entry that is no link is read the same by `stat`. -/
theorem Disk.stat_of_lstat {d : Disk ρ ν} {l : Loc ρ ν} {n : Node ν} (h : d.lstat l = .ok n)
    (hn : n.kind.isSymlink = false) : d.stat l = .ok n := by
  unfold Disk.lstat at h
  unfold Disk.stat
  cases hr : d.realpath l with
  | error e => simp [hr] at h
  | ok r =>
    cases hg : d.get r with
    | none => simp [hr, hg] at h
    | some n' =>
      have heq : n' = n := by simpa [hr, hg] using h
      subst heq
      have hway : (d.wayAt r).any Kind.isSymlink = false := by
        unfold Disk.wayAt
        split
        · rfl
        · rw [Disk.kindAt_of_get hg]
          exact hn
      simp only [Disk.realpathFollow_of_realpath hr hway, hg]

end BranchFs.Posix
