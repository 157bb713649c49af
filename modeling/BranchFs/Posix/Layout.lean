/-
# BranchFs.Posix.Layout -- no call moves a mount

Entries come and go, but where the trees hang is fixed: every call leaves the layout of the disk as it
is, failed or not.
-/
import BranchFs.Posix.Outcome

namespace BranchFs.Posix

open BranchFs.Logic

variable {ρ ν α β : Type} [DecidableEq ρ] [DecidableEq ν]

/-- The trees hang where they hung. -/
def SameLayout (d d' : Disk ρ ν) : Prop := d'.layout = d.layout

theorem SameLayout.refl (d : Disk ρ ν) : SameLayout d d := rfl

theorem SameLayout.trans {d d' d'' : Disk ρ ν} (h : SameLayout d d') (h' : SameLayout d' d'') :
    SameLayout d d'' := Eq.trans h' h

namespace Disk

theorem layout_cut (d : Disk ρ ν) (l : Loc ρ ν) : (d.cut l).layout = d.layout := rfl

theorem layout_clear (d : Disk ρ ν) (t : Loc ρ ν) : (d.clear t).layout = d.layout := by
  unfold clear
  split <;> rfl

theorem layout_shift {d d' : Disk ρ ν} {s t : Loc ρ ν} (h : d.shift s t = some d') :
    d'.layout = d.layout := by
  unfold shift at h
  split at h
  · simp only [Option.some.injEq] at h
    rw [← h]
    exact d.layout_clear t
  · cases h

/-! ## What a path leads to -/

section Alike

variable {d d' : Disk ρ ν}

/-- Where the trees hang alike and have the same kinds of entries, a way goes the same. -/
theorem enterFrom_alike (hk : ∀ x, d'.kindAt x = d.kindAt x) (hl : SameLayout d d')
    (f : Loc ρ ν → List (Comp ν) → Except Errno (Loc ρ ν)) (cs : List (Comp ν)) :
    ∀ cur, d'.enterFrom f cur cs = d.enterFrom f cur cs := by
  have hnorm : ∀ l, d'.norm l = d.norm l := by
    intro l
    unfold norm
    rw [hl]
  have hway : ∀ l, d'.wayAt l = d.wayAt l := by
    intro l
    unfold wayAt
    rw [hl, hk]
  have hup : ∀ l, d'.up l = d.up l := by
    intro l
    unfold up
    simp only [hnorm, show d'.layout = d.layout from hl]
  induction cs with
  | nil => exact fun _ => rfl
  | cons c rest ih =>
    intro cur
    cases c with
    | up =>
      rw [enterFrom, enterFrom, hup]
      exact ih _
    | name n =>
      rw [enterFrom, enterFrom]
      simp only [hnorm, hway, ih]

theorem enter_alike (hk : ∀ x, d'.kindAt x = d.kindAt x) (hl : SameLayout d d') (k : Nat) :
    d'.enter k = d.enter k := by
  induction k with
  | zero =>
    funext cur cs
    exact enterFrom_alike hk hl _ cs cur
  | succ k ih =>
    funext cur cs
    unfold enter
    rw [ih]
    exact enterFrom_alike hk hl _ cs cur

/-- **Whether a path leads to something** is a matter of the kinds of entries. -/
theorem pathExists_alike (hk : ∀ x, d'.kindAt x = d.kindAt x) (hl : SameLayout d d') (l : Loc ρ ν) :
    d'.pathExists l = d.pathExists l := by
  have hget : ∀ x, (d'.get x).isSome = (d.get x).isSome := by
    intro x
    have hx := hk x
    unfold kindAt at hx
    cases hd : d.get x <;> cases hd' : d'.get x <;> simp_all
  have hreal : d'.realpathFollow l = d.realpathFollow l := by
    unfold realpathFollow
    rw [enter_alike hk hl]
  unfold pathExists stat
  rw [hreal]
  cases d.realpathFollow l with
  | error e => rfl
  | ok r =>
    have hr := hget r
    cases hd : d.get r <;> cases hd' : d'.get r <;> simp_all [Except.toOption]

end Alike

end Disk

namespace Sys

/-- No run of the call moves a mount. -/
abbrev Settled (x : Sys ρ ν α) : Prop := Keeps SameLayout x

/-- The run ends, failed or not, with the mounts where they were. -/
def Ends (x : Sys ρ ν α) (d : Disk ρ ν) : Prop :=
  (∃ e d', x d = .error e d' ∧ d'.layout = d.layout) ∨ ∃ a d', x d = .ok a d' ∧ d'.layout = d.layout

theorem settled_iff {x : Sys ρ ν α} : Settled x ↔ ∀ d, Ends x d := by
  constructor
  · intro h d
    have hd := h d
    unfold after at hd
    cases hx : x d with
    | ok a d' => exact Or.inr ⟨a, d', hx, by rwa [hx] at hd⟩
    | error e d' => exact Or.inl ⟨e, d', hx, by rwa [hx] at hd⟩
  · intro h d
    unfold after
    rcases h d with ⟨e, d', hx, hd⟩ | ⟨a, d', hx, hd⟩
    · rw [hx]
      exact hd
    · rw [hx]
      exact hd

theorem settled_bind {x : Sys ρ ν α} {f : α → Sys ρ ν β} (hx : Settled x) (hf : ∀ a, Settled (f a)) :
    Settled (x >>= f) := by
  have htrans : ∀ s t u : Disk ρ ν, SameLayout s t → SameLayout t u → SameLayout s u :=
    fun _ _ _ h h' => h.trans h'
  exact keeps_bind htrans hx hf

/-- What an action keeps at every place, it keeps at the place a path names. -/
theorem keeps_resolved {R : Disk ρ ν → Disk ρ ν → Prop} (hrefl : ∀ d, R d d) {l : Loc ρ ν}
    {act : Loc ρ ν → Sys ρ ν α} (h : ∀ r, Keeps R (act r)) : Keeps R (resolved l act) := by
  intro d
  have hact := fun r => h r d
  unfold after at hact ⊢
  unfold resolved
  cases d.realpath l with
  | error e => exact hrefl d
  | ok r => exact hact r

theorem keeps_followed {R : Disk ρ ν → Disk ρ ν → Prop} (hrefl : ∀ d, R d d) {l : Loc ρ ν}
    {act : Loc ρ ν → Sys ρ ν α} (h : ∀ r, Keeps R (act r)) : Keeps R (followed l act) := by
  intro d
  have hact := fun r => h r d
  unfold after at hact ⊢
  unfold followed
  cases d.realpathFollow l with
  | error e => exact hrefl d
  | ok r => exact hact r

theorem settled_resolved {l : Loc ρ ν} {act : Loc ρ ν → Sys ρ ν α} (h : ∀ r, Settled (act r)) :
    Settled (resolved l act) := keeps_resolved SameLayout.refl h

theorem settled_followed {l : Loc ρ ν} {act : Loc ρ ν → Sys ρ ν α} (h : ∀ r, Settled (act r)) :
    Settled (followed l act) := keeps_followed SameLayout.refl h

theorem settled_addAt (k : Kind ν) (mode : Nat) (r : Loc ρ ν) : Settled (addAt k mode r) := by
  intro d
  rcases after_addAt k mode r d with h | h
  · rw [h]
    exact SameLayout.refl d
  · exact Disk.layout_add h

theorem settled_mkdir (l : Loc ρ ν) (mode : Nat) : Settled (mkdir l mode) :=
  settled_resolved fun r => settled_addAt .dir mode r

theorem settled_symlink (target : Link ν) (l : Loc ρ ν) : Settled (symlink target l) :=
  settled_resolved fun r => settled_addAt (.symlink target) 0o777 r

/-- What every `mkdir` keeps, `create_dir_all` keeps. -/
theorem keeps_createDirAllUpTo {R : Disk ρ ν → Disk ρ ν → Prop}
    (htrans : ∀ s t u, R s t → R t u → R s u)
    (hmkdir : ∀ l : Loc ρ ν, Keeps R (mkdir l 0o755 : Sys ρ ν Unit)) :
    ∀ (n : Nat) (l : Loc ρ ν), Keeps R (createDirAllUpTo n l) := by
  intro n
  induction n with
  | zero =>
    intro l d
    have h := hmkdir l d
    unfold after at h ⊢
    unfold createDirAllUpTo
    cases hm : mkdir l 0o755 d with
    | ok a d₁ => simpa [hm] using h
    | error e d₁ =>
      simp only [hm] at h ⊢
      by_cases he : e = .ENOENT
      · simpa [he] using h
      · cases hd : d₁.isDir l <;> simpa [he, hd] using h
  | succ n ih =>
    intro l d
    have h := hmkdir l d
    unfold after at h ⊢
    unfold createDirAllUpTo
    cases hm : mkdir l 0o755 d with
    | ok a d₁ => simpa [hm] using h
    | error e d₁ =>
      simp only [hm] at h ⊢
      by_cases he : e = .ENOENT
      · have hup := ih l.parent d₁
        unfold after at hup
        simp only [he, if_true]
        cases hp : createDirAllUpTo n l.parent d₁ with
        | error e' d₂ =>
          simp only [hp] at hup ⊢
          exact htrans _ _ _ h hup
        | ok a d₂ =>
          simp only [hp] at hup ⊢
          have hlast := hmkdir l d₂
          unfold after at hlast
          have hto := htrans _ _ _ h hup
          cases hm' : mkdir l 0o755 d₂ with
          | ok a d₃ =>
            simp only [hm'] at hlast ⊢
            exact htrans _ _ _ hto hlast
          | error e' d₃ =>
            simp only [hm'] at hlast ⊢
            cases hd : d₃.isDir l <;> simpa [hd] using htrans _ _ _ hto hlast
      · cases hd : d₁.isDir l <;> simpa [he, hd] using h

theorem settled_createDirAllUpTo (n : Nat) (l : Loc ρ ν) : Settled (createDirAllUpTo n l) := by
  have htrans : ∀ s t u : Disk ρ ν, SameLayout s t → SameLayout t u → SameLayout s u :=
    fun _ _ _ h h' => h.trans h'
  exact keeps_createDirAllUpTo htrans (fun l => settled_mkdir l 0o755) n l

theorem settled_createDirAll (l : Loc ρ ν) : Settled (createDirAll l) := settled_createDirAllUpTo _ l

theorem settled_openWrite (l : Loc ρ ν) (create trunc : Bool) :
    Settled (openWrite l create trunc : Sys ρ ν (Handle ρ)) := by
  refine settled_followed fun r => settled_iff.mpr fun d => ?_
  unfold Ends openWriteAt
  split
  · split
    · exact Or.inl ⟨_, _, rfl, rfl⟩
    · exact Or.inl ⟨_, _, rfl, rfl⟩
    · exact Or.inr ⟨_, _, rfl, by split <;> rfl⟩
  · split
    · split
      · next ha => exact Or.inr ⟨_, _, rfl, Disk.layout_add ha⟩
      · exact Or.inl ⟨_, _, rfl, rfl⟩
    · exact Or.inl ⟨_, _, rfl, rfl⟩

theorem settled_pwrite (h : Handle ρ) (off : Nat) (data : Bytes) :
    Settled (pwrite h off data : Sys ρ ν Nat) := fun _ => rfl

theorem settled_setLen (h : Handle ρ) (len : Nat) : Settled (setLen h len : Sys ρ ν Unit) :=
  fun _ => rfl

theorem settled_putFileAt (data : Bytes) (mode : Option Nat) (r : Loc ρ ν) :
    Settled (putFileAt data mode r) := by
  refine settled_iff.mpr fun d => ?_
  unfold Ends putFileAt Disk.putFile
  split
  · exact Or.inr ⟨_, _, rfl, rfl⟩
  · exact Or.inl ⟨_, _, rfl, rfl⟩
  · exact Or.inl ⟨_, _, rfl, rfl⟩
  · split
    · next ha => exact Or.inr ⟨_, _, rfl, Disk.layout_add ha⟩
    · exact Or.inl ⟨_, _, rfl, rfl⟩

theorem settled_writeFile (l : Loc ρ ν) (data : Bytes) : Settled (writeFile l data) :=
  settled_followed fun r => settled_putFileAt data none r

theorem settled_copyFile (src dst : Loc ρ ν) : Settled (copyFile src dst) := by
  refine settled_iff.mpr fun d => ?_
  unfold Ends copyFile
  split
  · exact Or.inl ⟨_, _, rfl, rfl⟩
  · next n _ =>
    split
    · next b _ =>
      exact settled_iff.mp (settled_followed fun r => settled_putFileAt b (some n.mode) r) d
    · exact Or.inl ⟨_, _, rfl, rfl⟩

theorem settled_removeFile (l : Loc ρ ν) : Settled (removeFile l) := by
  refine settled_resolved fun r => settled_iff.mpr fun d => ?_
  unfold Ends removeFileAt
  split
  · exact Or.inl ⟨_, _, rfl, rfl⟩
  · exact Or.inl ⟨_, _, rfl, rfl⟩
  · exact Or.inr ⟨_, _, rfl, d.layout_cut r⟩

theorem settled_removeDir (l : Loc ρ ν) : Settled (removeDir l) := by
  refine settled_resolved fun r => settled_iff.mpr fun d => ?_
  unfold Ends removeDirAt
  split
  · exact Or.inl ⟨_, _, rfl, rfl⟩
  · split
    · exact Or.inl ⟨_, _, rfl, rfl⟩
    · split
      · exact Or.inr ⟨_, _, rfl, d.layout_cut r⟩
      · exact Or.inl ⟨_, _, rfl, rfl⟩
  · exact Or.inl ⟨_, _, rfl, rfl⟩

theorem settled_removeDirAll (l : Loc ρ ν) : Settled (removeDirAll l) := by
  refine settled_resolved fun r => settled_iff.mpr fun d => ?_
  unfold Ends removeDirAllAt
  split
  · exact Or.inl ⟨_, _, rfl, rfl⟩
  · exact Or.inl ⟨_, _, rfl, rfl⟩
  · split
    · exact Or.inl ⟨_, _, rfl, rfl⟩
    · exact Or.inr ⟨_, _, rfl, d.layout_cut r⟩

theorem settled_rename (s t : Loc ρ ν) : Settled (rename s t) := by
  refine settled_resolved fun rs => settled_resolved fun rt => settled_iff.mpr fun d => ?_
  rcases renameAt_cases rs rt d with ⟨e, h⟩ | ⟨_, h⟩ | ⟨d', _, _, _, _, hshift, h⟩
  · exact Or.inl ⟨e, d, h, rfl⟩
  · exact Or.inr ⟨_, d, h, rfl⟩
  · exact Or.inr ⟨_, d', h, Disk.layout_shift hshift⟩

theorem settled_setAttr (l : Loc ρ ν) (f : Node ν → Node ν) : Settled (setAttr l f) := by
  refine settled_followed fun r => settled_iff.mpr fun d => ?_
  unfold Ends setAttrAt
  split
  · exact Or.inl ⟨_, _, rfl, rfl⟩
  · exact Or.inr ⟨_, _, rfl, rfl⟩

end Sys

end BranchFs.Posix
