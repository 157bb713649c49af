/-
# BranchFs.Posix.Attr -- what the calls do to modes and owners

`Attr` is what `stat` reports of an entry apart from times and inode numbers: kind with contents or
target, mode, owner and group. Every call is described by the attributes it leaves at every place. An
open file is written to by its inode number, so writing one name leaves the others alone when no two
names of the tree share a number (`Numbered`).
-/
import BranchFs.Posix.Layout

namespace BranchFs.Posix

open BranchFs.Logic

variable {ρ ν : Type} [DecidableEq ρ] [DecidableEq ν]

structure Attr (ν : Type) where
  kind : Kind ν
  mode : Nat
  uid : Nat
  gid : Nat
  deriving DecidableEq, Repr

/-- What does not depend on when an entry was made. -/
def Node.attr (n : Node ν) : Attr ν := ⟨n.kind, n.mode, n.uid, n.gid⟩

/-- A directory as `create_dir_all` makes it. -/
def Attr.newDir : Attr ν := ⟨.dir, 0o755, 0, 0⟩

/-- A file after its contents were changed; one that was not there is made. -/
def Attr.written (f : Bytes → Bytes) : Option (Attr ν) → Attr ν
  | some ⟨.file b, mode, uid, gid⟩ => ⟨.file (f b), mode, uid, gid⟩
  | _ => ⟨.file (f []), 0o644, 0, 0⟩

namespace Disk

variable {d d' : Disk ρ ν} {l x : Loc ρ ν}

def attrAt (d : Disk ρ ν) (l : Loc ρ ν) : Option (Attr ν) := (d.get l).map Node.attr

theorem kindAt_eq_attr (d : Disk ρ ν) (l : Loc ρ ν) :
    d.kindAt l = (d.attrAt l).map Attr.kind := by
  unfold kindAt attrAt
  cases d.get l <;> rfl

theorem kindAt_of_attr {a : Attr ν} (h : d.attrAt l = some a) : d.kindAt l = some a.kind := by
  rw [kindAt_eq_attr, h]
  rfl

theorem attrAt_eq_none : d.attrAt l = none ↔ d.kindAt l = none := by
  unfold attrAt kindAt
  rw [Option.map_eq_none_iff, Option.map_eq_none_iff]

theorem exists_attr {k : Kind ν} (h : d.kindAt l = some k) :
    ∃ a : Attr ν, d.attrAt l = some a ∧ a.kind = k := by
  rw [kindAt_eq_attr] at h
  cases ha : d.attrAt l with
  | none => simp [ha] at h
  | some a => exact ⟨a, rfl, by simpa [ha] using h⟩

theorem attrAt_of_get {n : Node ν} (h : d.get l = some n) : d.attrAt l = some n.attr := by
  unfold attrAt
  rw [h]
  rfl

theorem attrAt_congr (h : d'.get x = d.get x) : d'.attrAt x = d.attrAt x := by
  unfold attrAt
  rw [h]

/-! ## Updates -/

/-- A change of times and inode numbers is no change of attributes. -/
theorem attrAt_modify (d : Disk ρ ν) (l : Loc ρ ν) {f : Node ν → Node ν}
    (hf : ∀ n, (f n).attr = n.attr) (x : Loc ρ ν) : (d.modify l f).attrAt x = d.attrAt x := by
  by_cases hx : x.path = []
  · unfold attrAt
    rw [get_root _ hx, get_root _ hx]
  · unfold attrAt modify
    rw [get_update d _ hx, Option.map_map]
    congr 1
    funext n
    by_cases hxl : x = l
    · have hk : (f n).kind = n.kind := congrArg Attr.kind (hf n)
      simp [guarded, hxl, hk, hf]
    · simp [guarded, hxl]

theorem attrAt_touchParent (d : Disk ρ ν) (l x : Loc ρ ν) :
    (d.touchParent l).attrAt x = d.attrAt x := by
  have hf : ∀ n : Node ν, Node.attr { n with mtime := d.clock } = n.attr := fun _ => rfl
  exact attrAt_modify d l.parent hf x

theorem attrAt_tick (d : Disk ρ ν) (x : Loc ρ ν) : d.tick.attrAt x = d.attrAt x := rfl

theorem attrAt_add {k : Kind ν} {mode : Nat} (h : d.add l k mode = some d') (x : Loc ρ ν) :
    d'.attrAt x = if x = l then some ⟨k, mode, 0, 0⟩ else d.attrAt x := by
  unfold add at h
  split at h
  · simp only [Option.some.injEq] at h
    rw [← h, attrAt_tick, attrAt_touchParent]
    unfold attrAt
    rw [get_insert]
    split <;> rfl
  · cases h

theorem attrAt_cut (d : Disk ρ ν) {l : Loc ρ ν} (hl : l.path ≠ []) (x : Loc ρ ν) :
    (d.cut l).attrAt x = if l ≤ x then none else d.attrAt x := by
  unfold cut
  rw [attrAt_tick, attrAt_touchParent]
  unfold attrAt
  rw [get_remove d l x hl]
  split <;> rfl

/-- A file written over keeps its owner, and its mode unless one is given. -/
def putAttr (d : Disk ρ ν) (l : Loc ρ ν) (data : Bytes) (mode : Option Nat) : Attr ν :=
  match d.attrAt l with
  | some a => ⟨.file data, mode.getD a.mode, a.uid, a.gid⟩
  | none => ⟨.file data, mode.getD 0o644, 0, 0⟩

theorem attrAt_putFile {data : Bytes} {mode : Option Nat} (h : d.putFile l data mode = .ok () d')
    (x : Loc ρ ν) : d'.attrAt x = if x = l then some (d.putAttr l data mode) else d.attrAt x := by
  unfold putFile at h
  cases hk : d.kindAt l with
  | none =>
    simp only [hk] at h
    cases ha : d.add l (.file data) (mode.getD 0o644) with
    | none => simp [ha] at h
    | some d₁ =>
      simp only [ha, EStateM.Result.ok.injEq, true_and] at h
      rw [← h, attrAt_add ha, putAttr, attrAt_eq_none.mpr hk]
  | some k =>
    cases k with
    | dir => simp [hk] at h
    | symlink t => simp [hk] at h
    | file b =>
      simp only [hk, EStateM.Result.ok.injEq, true_and] at h
      have hp : l.path ≠ [] := path_ne_nil_of_not_dir (d := d) (by simp [hk])
      obtain ⟨n, hn, hnk⟩ : ∃ n, d.get l = some n ∧ n.kind = .file b := by
        simpa [kindAt] using hk
      rw [← h, attrAt_tick, putAttr, attrAt_of_get hn]
      unfold attrAt
      rw [get_modify d l _ x hp]
      · by_cases hx : x = l
        · subst hx
          simp [hn, Node.attr]
        · simp [hx]
      · intro m hm
        rw [hn] at hm
        simp [← Option.some.inj hm, hnk, Kind.isDir]

theorem attrAt_shift {s t : Loc ρ ν} (h : d.shift s t = some d') (hts : ¬ t ≤ s) (x : Loc ρ ν) :
    d'.attrAt x =
      if t ≤ x then d.attrAt (Loc.rebase t s x) else if s ≤ x then none else d.attrAt x := by
  obtain ⟨_, htpath, hst⟩ := shift_paths h
  have hback : ¬ t ≤ Loc.rebase t s x := by
    intro hty
    rcases Loc.le_total_of_le (Loc.le_rebase t s x) hty with h' | h'
    · exact hst h'
    · exact hts h'
  unfold shift at h
  split at h
  · next hc =>
    simp only [Option.some.injEq] at h
    rw [← h, attrAt_tick, attrAt_touchParent, attrAt_touchParent]
    unfold attrAt
    rw [get_move]
    by_cases htx : t ≤ x
    · rw [if_pos htx, if_pos htx, get_clear d htpath hback]
    · rw [if_neg htx, if_neg htx]
      split
      · rfl
      · rw [get_clear d htpath htx]
  · cases h

/-! ## Open files -/

/-- The names of a tree have inode numbers of their own, all of them used up. -/
structure Numbered (d : Disk ρ ν) (R : Option ρ) : Prop where
  used : ∀ x n, x.root = R → x.path ≠ [] → d.get x = some n → n.id < d.clock
  apart : ∀ x y n n', x.root = R → y.root = R → x.path ≠ [] → y.path ≠ [] →
    d.get x = some n → d.get y = some n' → n.id = n'.id → x = y

/-- A change of a node that keeps its inode number. -/
theorem id_of_update {F : Loc ρ ν → Node ν → Node ν} (hF : ∀ k n, (F k n).id = n.id) {n' : Node ν}
    (hx : x.path ≠ []) (hg : (d.update F).get x = some n') : ∃ n, d.get x = some n ∧ n.id = n'.id := by
  rw [get_update d F hx] at hg
  obtain ⟨n, hn, hnn⟩ := Option.map_eq_some_iff.mp hg
  refine ⟨n, hn, ?_⟩
  rw [← hnn]
  unfold guarded
  split
  · exact (hF x n).symm
  · rfl

theorem id_of_touchParent {n' : Node ν} (hx : x.path ≠ []) (hg : (d.touchParent l).get x = some n') :
    ∃ n, d.get x = some n ∧ n.id = n'.id := by
  unfold touchParent modify at hg
  refine id_of_update (fun k n => ?_) hx hg
  show Node.id (if k = l.parent then { n with mtime := d.clock } else n) = n.id
  split <;> rfl

/-- An entry that was there keeps its inode number when another is made. -/
theorem id_of_add {k : Kind ν} {mode : Nat} (h : d.add l k mode = some d') {n' : Node ν} (hx : x ≠ l)
    (hp : x.path ≠ []) (hg : d'.get x = some n') : ∃ n, d.get x = some n ∧ n.id = n'.id := by
  unfold add at h
  split at h
  · simp only [Option.some.injEq] at h
    rw [← h, get_tick] at hg
    obtain ⟨n, hn, hid⟩ := id_of_touchParent hp hg
    rw [get_insert, if_neg hx] at hn
    exact ⟨n, hn, hid⟩
  · cases h

theorem clock_add {k : Kind ν} {mode : Nat} (h : d.add l k mode = some d') :
    d'.clock = d.clock + 1 := by
  unfold add at h
  split at h
  · simp only [Option.some.injEq] at h
    rw [← h]
    rfl
  · cases h

/-- The inode numbers that are used stay apart, in every tree where they were. -/
def NumbersStay (d d' : Disk ρ ν) : Prop := ∀ R, Numbered d R → Numbered d' R

theorem NumbersStay.refl (d : Disk ρ ν) : NumbersStay d d := fun _ h => h

theorem NumbersStay.trans {d'' : Disk ρ ν} (h : NumbersStay d d') (h' : NumbersStay d' d'') :
    NumbersStay d d'' := fun R hR => h' R (h R hR)

/-- Entries that keep their numbers stay apart. -/
theorem NumbersStay.of_ids (hc : d.clock ≤ d'.clock) (hid : ∀ x n', x.path ≠ [] →
    d'.get x = some n' → ∃ n, d.get x = some n ∧ n.id = n'.id) : NumbersStay d d' := by
  intro R h
  constructor
  · intro x n' hx hp hg
    obtain ⟨n, hn, hnn⟩ := hid x n' hp hg
    have hlt := h.used x n hx hp hn
    omega
  · intro x y n n' hx hy hxp hyp hgx hgy heq
    obtain ⟨k, hk, hkn⟩ := hid x n hxp hgx
    obtain ⟨k', hk', hkn'⟩ := hid y n' hyp hgy
    exact h.apart x y k k' hx hy hxp hyp hk hk' (by rw [hkn, hkn', heq])

/-- A new entry takes a number of its own. -/
theorem numbersStay_add {k : Kind ν} {mode : Nat} (h : d.add l k mode = some d') :
    NumbersStay d d' := by
  intro R hR
  have hclock := clock_add h
  have hself : d'.get l = some (d.newNode k mode) := get_add_self h
  have hold : ∀ x n', x ≠ l → x.root = R → x.path ≠ [] → d'.get x = some n' →
      n'.id < d.clock := by
    intro x n' hx hroot hp hg
    obtain ⟨n, hn, hid⟩ := id_of_add h hx hp hg
    rw [← hid]
    exact hR.used x n hroot hp hn
  have hnew : ∀ n', d'.get l = some n' → n'.id = d.clock := by
    intro n' hg
    rw [hself] at hg
    rw [← Option.some.inj hg]
    rfl
  constructor
  · intro x n' hx hp hg
    by_cases hxl : x = l
    · subst hxl
      rw [hnew n' hg]
      omega
    · have := hold x n' hxl hx hp hg
      omega
  · intro x y n n' hx hy hxp hyp hgx hgy heq
    by_cases hxl : x = l
    · by_cases hyl : y = l
      · rw [hxl, hyl]
      · have hlt := hold y n' hyl hy hyp hgy
        rw [hxl] at hgx
        rw [← heq, hnew n hgx] at hlt
        omega
    · by_cases hyl : y = l
      · have hlt := hold x n hxl hx hxp hgx
        rw [hyl] at hgy
        rw [heq, hnew n' hgy] at hlt
        omega
      · obtain ⟨k₁, hk₁, hid₁⟩ := id_of_add h hxl hxp hgx
        obtain ⟨k₂, hk₂, hid₂⟩ := id_of_add h hyl hyp hgy
        exact hR.apart x y k₁ k₂ hx hy hxp hyp hk₁ hk₂ (by rw [hid₁, hid₂, heq])

theorem numbersStay_putFile {data : Bytes} {mode : Option Nat} (h : d.putFile l data mode = .ok () d') :
    NumbersStay d d' := by
  unfold putFile at h
  split at h
  · simp only [EStateM.Result.ok.injEq, true_and] at h
    rw [← h]
    refine NumbersStay.of_ids (Nat.le_succ _) fun x n' hp hg => ?_
    rw [get_tick] at hg
    unfold modify at hg
    refine id_of_update (fun k n => ?_) hp hg
    split <;> rfl
  · cases h
  · cases h
  · split at h
    · next ha =>
      cases h
      exact numbersStay_add ha
    · cases h

/-- What is left when a subtree goes keeps its numbers. -/
theorem numbersStay_cut (d : Disk ρ ν) {l : Loc ρ ν} (hl : l.path ≠ []) : NumbersStay d (d.cut l) := by
  refine NumbersStay.of_ids (Nat.le_succ _) fun x n' hp hg => ?_
  unfold cut at hg
  rw [get_tick] at hg
  obtain ⟨n, hn, hid⟩ := id_of_touchParent hp hg
  rw [get_remove d l x hl] at hn
  split at hn
  · cases hn
  · exact ⟨n, hn, hid⟩

/-- Writing to the file at `l` writes to nothing else of its tree. -/
theorem attrAt_mapFile {n : Node ν} {b : Bytes} (hg : d.get l = some n) (hk : n.kind = .file b)
    (hl : l.path ≠ []) (hapart : ∀ x n', x.root = l.root → x.path ≠ [] → d.get x = some n' →
      n'.id = n.id → x = l) (f : Bytes → Bytes) (x : Loc ρ ν) :
    (d.mapFile ⟨l.root, n.id⟩ f).attrAt x =
      if x = l then some ⟨.file (f b), n.mode, n.uid, n.gid⟩ else d.attrAt x := by
  by_cases hx : x.path = []
  · have hne : x ≠ l := fun heq => hl (heq ▸ hx)
    rw [if_neg hne]
    unfold attrAt
    rw [get_root _ hx, get_root _ hx]
  show ((d.update _).get x).map Node.attr = _
  rw [get_update d _ hx]
  by_cases hxl : x = l
  · subst hxl
    rw [hg, if_pos rfl]
    simp [guarded, mapData, hk, Kind.isDir, Node.attr]
  · rw [if_neg hxl]
    unfold attrAt
    cases hgx : d.get x with
    | none => rfl
    | some n' =>
      have hno : ¬ (x.root = l.root ∧ n'.id = n.id) := fun h => hxl (hapart x n' h.1 hx hgx h.2)
      simp [guarded, hno]

end Disk

namespace Sys

open Disk

/-- Entries keep their attributes, and every new one is a plain directory. -/
def OnlyDirsAdded (d d' : Disk ρ ν) : Prop :=
  ∀ x, d'.attrAt x = d.attrAt x ∨ (d.attrAt x = none ∧ d'.attrAt x = some Attr.newDir)

theorem OnlyDirsAdded.trans {d d' d'' : Disk ρ ν} (h : OnlyDirsAdded d d')
    (h' : OnlyDirsAdded d' d'') : OnlyDirsAdded d d'' := by
  intro x
  rcases h x with h | ⟨hnone, hnew⟩
  · rcases h' x with h' | ⟨hnone', hnew'⟩
    · exact Or.inl (h'.trans h)
    · exact Or.inr ⟨h ▸ hnone', hnew'⟩
  · rcases h' x with h' | ⟨hnone', _⟩
    · exact Or.inr ⟨hnone, h'.trans hnew⟩
    · rw [hnew] at hnone'
      cases hnone'

theorem onlyDirsAdded_createDirAll (l : Loc ρ ν) :
    Keeps OnlyDirsAdded (createDirAll l : Sys ρ ν Unit) := by
  have htrans : ∀ s t u : Disk ρ ν, OnlyDirsAdded s t → OnlyDirsAdded t u → OnlyDirsAdded s u :=
    fun _ _ _ h h' => h.trans h'
  have hrefl : ∀ d : Disk ρ ν, OnlyDirsAdded d d := fun _ _ => Or.inl rfl
  refine keeps_createDirAllUpTo htrans (fun l => keeps_resolved hrefl fun r d => ?_) _ l
  rcases after_addAt .dir 0o755 r d with h | h
  · rw [h]
    exact hrefl d
  · intro x
    rw [attrAt_add h]
    by_cases hx : x = r
    · subst hx
      exact Or.inr ⟨attrAt_eq_none.mpr (free_of_add h), if_pos rfl⟩
    · exact Or.inl (if_neg hx)

/-- **`create_dir_all`** makes plain directories on the way and leaves the others their attributes. -/
theorem attrAt_createDirAll {d d' : Disk ρ ν} {l : Loc ρ ν} (hok : createDirAll l d = .ok () d')
    (hmade : MadeDirs l d d') (x : Loc ρ ν) :
    d'.attrAt x = if x ≤ l ∧ d.kindAt x = none then some Attr.newDir else d.attrAt x := by
  have h := (onlyDirsAdded_createDirAll l).ok hok x
  by_cases hx : x ≤ l ∧ d.kindAt x = none
  · rw [if_pos hx]
    rcases h with h | ⟨_, h⟩
    · have hkind := hmade.kind x
      rw [if_pos hx.1, kindAt_eq_attr, h, attrAt_eq_none.mpr hx.2] at hkind
      cases hkind
    · exact h
  · rw [if_neg hx]
    rcases h with h | ⟨hnone, hnew⟩
    · exact h
    · have hle : ¬ x ≤ l := fun hle => hx ⟨hle, attrAt_eq_none.mp hnone⟩
      have hkind := hmade.kind x
      rw [if_neg hle, attrAt_eq_none.mp hnone, ← attrAt_eq_none, hnew] at hkind
      cases hkind

theorem numbersStay_createDirAll (l : Loc ρ ν) :
    Keeps NumbersStay (createDirAll l : Sys ρ ν Unit) := by
  have htrans : ∀ s t u : Disk ρ ν, NumbersStay s t → NumbersStay t u → NumbersStay s u :=
    fun _ _ _ h h' => h.trans h'
  refine keeps_createDirAllUpTo htrans (fun l => keeps_resolved NumbersStay.refl fun r d => ?_) _ l
  rcases after_addAt .dir 0o755 r d with h | h
  · rw [h]
    exact NumbersStay.refl d
  · exact numbersStay_add h

theorem numbersStay_writeFile (l : Loc ρ ν) (data : Bytes) :
    Keeps NumbersStay (writeFile l data : Sys ρ ν Unit) := by
  refine keeps_followed NumbersStay.refl fun r d => ?_
  rcases after_putFileAt data none r d with h | h
  · rw [h]
    exact NumbersStay.refl d
  · exact numbersStay_putFile h

theorem numbersStay_symlink (t : Link ν) (l : Loc ρ ν) :
    Keeps NumbersStay (symlink t l : Sys ρ ν Unit) := by
  refine keeps_resolved NumbersStay.refl fun r d => ?_
  rcases after_addAt (.symlink t) 0o777 r d with h | h
  · rw [h]
    exact NumbersStay.refl d
  · exact numbersStay_add h

theorem numbersStay_copyFile (src dst : Loc ρ ν) :
    Keeps NumbersStay (copyFile src dst : Sys ρ ν Unit) := by
  intro d
  have hput : ∀ data mode, NumbersStay d (after (followed dst (putFileAt data mode)) d) := by
    intro data mode
    refine keeps_followed NumbersStay.refl (fun r d => ?_) d
    rcases after_putFileAt data mode r d with h | h
    · rw [h]
      exact NumbersStay.refl d
    · exact numbersStay_putFile h
  unfold after copyFile
  cases d.stat src with
  | error e => exact NumbersStay.refl d
  | ok n =>
    cases hk : n.kind with
    | dir =>
      simp only [hk]
      exact NumbersStay.refl d
    | symlink t =>
      simp only [hk]
      exact NumbersStay.refl d
    | file data =>
      simp only [hk]
      exact hput data (some n.mode)

theorem numbersStay_removeFile (l : Loc ρ ν) :
    Keeps NumbersStay (removeFile l : Sys ρ ν Unit) := by
  refine keeps_resolved NumbersStay.refl fun r d => ?_
  unfold after removeFileAt
  cases hk : d.kindAt r with
  | none => exact NumbersStay.refl d
  | some k =>
    cases k with
    | dir => exact NumbersStay.refl d
    | _ =>
      have hnot : d.kindAt r ≠ some .dir := by simp [hk]
      exact numbersStay_cut d (path_ne_nil_of_not_dir hnot)

/-- **Open and write**: the file at `l` gets the new contents, and is made if it was not there. -/
theorem openWrite_pwrite {d : Disk ρ ν} {l : Loc ρ ν} {r : ρ} (hr : l.root = some r)
    (hp : d.kindAt l.parent = some .dir) (hl : d.kindAt l = none ∨ d.fileAt l = true)
    (hnum : Numbered d l.root) (off : Nat) (data : Bytes) :
    ∃ h d₁ d₂, openWrite l true false d = .ok h d₁ ∧ pwrite h off data d₁ = .ok data.length d₂ ∧
      (∀ x, d₂.attrAt x =
        if x = l then some (Attr.written (splice · off data) (d.attrAt l)) else d.attrAt x) ∧
      SameOn (fun r => r ≠ l.root) d d₂ ∧ SameLayout d d₂ := by
  rw [openWrite, followed_of_dir hr hp (linkAt_of_free_or_file hl)]
  unfold openWriteAt
  rcases hl with hnone | hfile
  · have hg : d.get l = none := (get_none_iff d l).mpr hnone
    obtain ⟨d₁, hd₁⟩ := add_eq d (.file []) 0o644 hnone hp
    have hne : l.path ≠ [] := path_ne_nil_of_not_dir (d := d) (by simp [hnone])
    refine ⟨⟨l.root, d.clock⟩, d₁, _, by simp [hg, hd₁], rfl, fun x => ?_,
      (sameOn_add hd₁ (by simp)).trans (sameOn_mapFile d₁ _ _ (by simp)),
      show d₁.layout = d.layout from layout_add hd₁⟩
    have hself := get_add_self hd₁
    have hmap := attrAt_mapFile (n := d.newNode (.file []) 0o644) hself rfl hne ?_ (splice · off data) x
    · show (d₁.mapFile ⟨l.root, d.clock⟩ (splice · off data)).attrAt x = _
      rw [show d.clock = (d.newNode (.file []) 0o644).id from rfl, hmap, attrAt_add hd₁,
        attrAt_eq_none.mpr hnone]
      split
      · rfl
      · rfl
    · intro y n' hy hyp hgy hid
      by_contra hyl
      obtain ⟨n, hn, hnn⟩ := id_of_add hd₁ hyl hyp hgy
      have hlt := hnum.used y n hy hyp hn
      rw [hnn, hid] at hlt
      exact absurd hlt (Nat.lt_irrefl _)
  · obtain ⟨b, hb⟩ := fileAt_iff.mp hfile
    obtain ⟨n, hg, hn⟩ := exists_get hb
    have hne : l.path ≠ [] := path_ne_nil_of_not_dir (d := d) (by simp [hb])
    refine ⟨⟨l.root, n.id⟩, d, _, by simp [hg, hn], rfl, fun x => ?_,
      sameOn_mapFile d _ _ (by simp), rfl⟩
    show (d.mapFile ⟨l.root, n.id⟩ (splice · off data)).attrAt x = _
    rw [attrAt_mapFile hg hn hne]
    · rw [attrAt_of_get hg]
      simp only [Node.attr, hn, Attr.written]
    · exact fun y n' hy hyp hgy hid => hnum.apart y l n' n hy rfl hyp hne hgy hg hid

/-- What a change of attributes leaves of an entry that is no link. -/
theorem get_setAttr {d : Disk ρ ν} {l : Loc ρ ν} {r : ρ} {n : Node ν} (hr : l.root = some r)
    (hg : d.get l = some n) (hl : n.kind.isSymlink = false) (hne : l.path ≠ [])
    (f : Node ν → Node ν) :
    (after (setAttr l f) d).get l = some { f n with kind := n.kind, id := n.id } := by
  have hk : d.kindAt l = some n.kind := kindAt_of_get hg
  have hp : d.kindAt l.parent = some .dir := dir_parent (by simp [hk])
  have hlink : d.linkAt l = false := linkAt_eq_false_of_kind hk hl
  let g : Node ν → Node ν := fun n => { f n with kind := n.kind, id := n.id }
  have hrun : setAttr l f d = .ok () (d.modify l g).tick := by
    rw [setAttr, followed_of_dir hr hp hlink, setAttrAt, hk]
  unfold after
  rw [hrun]
  show (d.modify l g).get l = _
  rw [get_modify d l g l hne fun _ _ => rfl, if_pos rfl, hg]
  rfl

/-- A file opened for writing, neither made nor emptied. -/
theorem openWrite_file {d : Disk ρ ν} {l : Loc ρ ν} {r : ρ} {n : Node ν} {b : Bytes}
    (hr : l.root = some r) (hg : d.get l = some n) (hk : n.kind = .file b) :
    openWrite l false false d = .ok ⟨l.root, n.id⟩ d := by
  have hkind : d.kindAt l = some (.file b) := by rw [kindAt_of_get hg, hk]
  have hp : d.kindAt l.parent = some .dir := dir_parent (by simp [hkind])
  have hlink : d.linkAt l = false := linkAt_eq_false_of_kind hkind rfl
  rw [openWrite, followed_of_dir hr hp hlink]
  simp [openWriteAt, hg, hk]

/-- Nothing but a file is opened for writing unless it may be made. -/
theorem openWrite_refused {d : Disk ρ ν} {l : Loc ρ ν} {r : ρ} (hr : l.root = some r)
    (hp : d.kindAt l.parent = some .dir) (hk : d.kindAt l = none ∨ d.kindAt l = some .dir) :
    ∃ e, openWrite l false false d = .error e d := by
  have hlink : d.linkAt l = false := by
    rcases hk with hk | hk
    · exact linkAt_of_none hk
    · exact linkAt_eq_false_of_kind hk rfl
  rw [openWrite, followed_of_dir hr hp hlink, openWriteAt]
  rcases hk with hk | hk
  · refine ⟨.ENOENT, ?_⟩
    rw [(get_none_iff d l).mpr hk]
    rfl
  · obtain ⟨n, hn, hdir⟩ := exists_get hk
    refine ⟨.EISDIR, ?_⟩
    rw [hn]
    simp only [hdir]

/-- The contents an open file is given are found at its name. -/
theorem kindAt_mapFile_self {d : Disk ρ ν} {l : Loc ρ ν} {n : Node ν} {b : Bytes}
    (hg : d.get l = some n) (hk : n.kind = .file b) (hne : l.path ≠ []) (f : Bytes → Bytes) :
    (d.mapFile ⟨l.root, n.id⟩ f).kindAt l = some (.file (f b)) := by
  show ((d.update _).get l).map Node.kind = _
  rw [get_update d _ hne, hg]
  simp [guarded, mapData, hk, Kind.isDir]

end Sys

end BranchFs.Posix
