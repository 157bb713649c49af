/-
# BranchFs.Posix.Calls -- the system calls a user-space file system makes

Each call resolves its paths, checks what the kernel checks and applies one update of the disk.
Calls that follow a link at the last component (`open`, `chmod`, `chown`, `utimensat`, the two ends
of `fs::copy`) use `realpathFollow`, the others `realpath`. Permissions of the caller are not
checked: the daemon owns its stores.

Three kinds of lemma are given. `SameOn` frames: a call changes only the tree its path resolves
into. `NoNewLinks`: a call other than `symlink` and `rename` makes no link. And for locations no
link stands above, the outcome of the call and what `kindAt` reads afterwards.
-/
import BranchFs.Posix.Walk
import BranchFs.Logic.Effect

namespace BranchFs.Posix

open BranchFs.Logic

variable {ρ ν : Type} [DecidableEq ρ] [DecidableEq ν]

/-- A call may fail, and keeps what it had done before it failed. -/
abbrev Sys (ρ ν : Type) [DecidableEq ρ] [DecidableEq ν] := EStateM Errno (Disk ρ ν)

/-- The trees `P` picks hold the same nodes before and after. -/
def SameOn (P : Option ρ → Prop) (d d' : Disk ρ ν) : Prop :=
  ∀ l, P l.root → d'.get l = d.get l

def NoNewLinks (d d' : Disk ρ ν) : Prop := ∀ l, d'.linkAt l = true → d.linkAt l = true

theorem SameOn.refl (P : Option ρ → Prop) (d : Disk ρ ν) : SameOn P d d := fun _ _ => rfl

theorem SameOn.trans {P : Option ρ → Prop} {d d' d'' : Disk ρ ν} (h : SameOn P d d')
    (h' : SameOn P d' d'') : SameOn P d d'' := fun l hl => (h' l hl).trans (h l hl)

theorem SameOn.kindAt {P : Option ρ → Prop} {d d' : Disk ρ ν} (h : SameOn P d d') {l : Loc ρ ν}
    (hl : P l.root) : d'.kindAt l = d.kindAt l := by
  simp [Disk.kindAt, h l hl]

theorem SameOn.mono {P Q : Option ρ → Prop} {d d' : Disk ρ ν} (h : SameOn P d d')
    (hQ : ∀ r, Q r → P r) : SameOn Q d d' := fun l hl => h l (hQ _ hl)

theorem NoNewLinks.refl (d : Disk ρ ν) : NoNewLinks d d := fun _ h => h

theorem NoNewLinks.trans {d d' d'' : Disk ρ ν} (h : NoNewLinks d d') (h' : NoNewLinks d' d'') :
    NoNewLinks d d'' := fun l hl => h l (h' l hl)

theorem NoNewLinks.noLinkAbove {d d' : Disk ρ ν} (h : NoNewLinks d d') {l : Loc ρ ν}
    (hl : d.NoLinkAbove l) : d'.NoLinkAbove l := hl.of_le fun a _ _ ha => h a ha

theorem NoNewLinks.linkAt {d d' : Disk ρ ν} (h : NoNewLinks d d') {l : Loc ρ ν}
    (hl : d.linkAt l = false) : d'.linkAt l = false := by
  by_contra hc
  rw [h l (by simpa using hc)] at hl
  simp at hl

theorem noNewLinks_of_kindAt {d d' : Disk ρ ν}
    (h : ∀ l, d'.kindAt l = d.kindAt l ∨ (d'.kindAt l).any Kind.isSymlink = false) :
    NoNewLinks d d' := by
  intro l hl
  unfold Disk.linkAt at hl ⊢
  rcases h l with h | h
  · rwa [h] at hl
  · rw [h] at hl
    simp at hl

namespace Disk

/-! ## The updates the calls use -/

/-- A fresh node: stamped with the clock, named after it. -/
def newNode (d : Disk ρ ν) (k : Kind ν) (mode : Nat) : Node ν :=
  { kind := k, mode := mode, uid := 0, gid := 0, mtime := d.clock, id := d.clock }

/-- Create an entry at a free place. -/
def add (d : Disk ρ ν) (l : Loc ρ ν) (k : Kind ν) (mode : Nat) : Option (Disk ρ ν) :=
  if h : d.kindAt l = none ∧ d.kindAt l.parent = some .dir then
    some ((d.insert l (d.newNode k mode) h).touchParent l).tick
  else none

/-- Unlink the entry at `l` with everything below. -/
def cut (d : Disk ρ ν) (l : Loc ρ ν) : Disk ρ ν := ((d.remove l).touchParent l).tick

/-- Make `t` free. -/
def clear (d : Disk ρ ν) (t : Loc ρ ν) : Disk ρ ν := if d.kindAt t = none then d else d.remove t

/-- Unlink what is at `t` and move `s` there. -/
def shift (d : Disk ρ ν) (s t : Loc ρ ν) : Option (Disk ρ ν) :=
  if h : s.path ≠ [] ∧ ¬ s ≤ t ∧ (d.clear t).kindAt t = none ∧
      (d.clear t).kindAt t.parent = some .dir then
    some ((((d.clear t).move s t h).touchParent s).touchParent t).tick
  else none

/-- Write `data` over a file, or create it; an existing file keeps its mode unless one is given. -/
def putFile (d : Disk ρ ν) (l : Loc ρ ν) (data : Bytes) (mode : Option Nat) :
    EStateM.Result Errno (Disk ρ ν) Unit :=
  match d.kindAt l with
  | some (.file _) =>
    .ok () (d.modify l fun n =>
      { n with kind := .file data, mode := mode.getD n.mode, mtime := d.clock }).tick
  | some .dir => .error .EISDIR d
  | some (.symlink _) => .error .ELOOP d
  | none =>
    match d.add l (.file data) (mode.getD 0o644) with
    | some d' => .ok () d'
    | none => .error .ENOENT d

theorem add_eq (d : Disk ρ ν) {l : Loc ρ ν} (k : Kind ν) (mode : Nat) (hl : d.kindAt l = none)
    (hp : d.kindAt l.parent = some .dir) : ∃ d', d.add l k mode = some d' := by
  refine ⟨_, dif_pos ⟨hl, hp⟩⟩

section add

variable {d d' : Disk ρ ν} {l : Loc ρ ν} {k : Kind ν} {mode : Nat}

theorem kindAt_add (h : d.add l k mode = some d') (x : Loc ρ ν) :
    d'.kindAt x = if x = l then some k else d.kindAt x := by
  unfold add at h
  split at h
  · simp only [Option.some.injEq] at h
    rw [← h, kindAt_tick, kindAt_touchParent, kindAt_insert]
    rfl
  · cases h

theorem get_add (h : d.add l k mode = some d') {x : Loc ρ ν} (hx : x ≠ l) (hxp : x ≠ l.parent) :
    d'.get x = d.get x := by
  unfold add at h
  split at h
  · simp only [Option.some.injEq] at h
    rw [← h, get_tick, get_touchParent_ne _ hxp, get_insert, if_neg hx]
  · cases h

theorem layout_add (h : d.add l k mode = some d') : d'.layout = d.layout := by
  unfold add at h
  split at h
  · cases h
    rfl
  · cases h

theorem free_of_add (h : d.add l k mode = some d') : d.kindAt l = none := by
  unfold add at h
  split at h
  · next hc => exact hc.1
  · cases h

theorem path_ne_nil_of_add (h : d.add l k mode = some d') : l.path ≠ [] := by
  unfold add at h
  split at h
  · next hc =>
    intro hp
    simp [kindAt_root d hp] at hc
  · cases h

theorem get_add_self (h : d.add l k mode = some d') : d'.get l = some (d.newNode k mode) := by
  have hp : l.path ≠ [] := path_ne_nil_of_add h
  unfold add at h
  split at h
  · simp only [Option.some.injEq] at h
    rw [← h, get_tick, get_touchParent_ne _ (Loc.parent_ne hp).symm, get_insert, if_pos rfl]
  · cases h

theorem sameOn_add (h : d.add l k mode = some d') {P : Option ρ → Prop} (hP : ¬ P l.root) :
    SameOn P d d' := by
  intro x hx
  refine get_add h ?_ ?_
  · rintro rfl
    exact hP hx
  · rintro rfl
    exact hP hx

theorem noNewLinks_add (h : d.add l k mode = some d') (hk : k.isSymlink = false) :
    NoNewLinks d d' := by
  refine noNewLinks_of_kindAt fun x => ?_
  rw [kindAt_add h]
  split
  · right
    simp [hk]
  · exact Or.inl rfl

end add

theorem kindAt_cut (d : Disk ρ ν) {l : Loc ρ ν} (hl : l.path ≠ []) (x : Loc ρ ν) :
    (d.cut l).kindAt x = if l ≤ x then none else d.kindAt x := by
  unfold cut
  rw [kindAt_tick, kindAt_touchParent, kindAt_remove d l x hl]

theorem get_cut (d : Disk ρ ν) {l x : Loc ρ ν} (hl : l.path ≠ []) (hx : ¬ l ≤ x)
    (hxp : x ≠ l.parent) : (d.cut l).get x = d.get x := by
  unfold cut
  rw [get_tick, get_touchParent_ne _ hxp, get_remove d l x hl, if_neg hx]

theorem sameOn_cut (d : Disk ρ ν) {l : Loc ρ ν} (hl : l.path ≠ []) {P : Option ρ → Prop}
    (hP : ¬ P l.root) : SameOn P d (d.cut l) := by
  intro x hx
  refine get_cut d hl ?_ ?_
  · intro hle
    exact hP (Loc.root_eq_of_le hle ▸ hx)
  · rintro rfl
    exact hP hx

theorem noNewLinks_cut (d : Disk ρ ν) {l : Loc ρ ν} (hl : l.path ≠ []) :
    NoNewLinks d (d.cut l) := by
  refine noNewLinks_of_kindAt fun x => ?_
  rw [kindAt_cut d hl]
  split
  · right
    rfl
  · exact Or.inl rfl

theorem kindAt_clear (d : Disk ρ ν) {t : Loc ρ ν} (ht : t.path ≠ []) (x : Loc ρ ν) :
    (d.clear t).kindAt x = if t ≤ x then none else d.kindAt x := by
  unfold clear
  split
  · next h =>
    split
    · next hle => exact none_of_le h hle
    · rfl
  · exact kindAt_remove d t x ht

theorem get_clear (d : Disk ρ ν) {t x : Loc ρ ν} (ht : t.path ≠ []) (hx : ¬ t ≤ x) :
    (d.clear t).get x = d.get x := by
  unfold clear
  split
  · rfl
  · rw [get_remove d t x ht, if_neg hx]

section shift

variable {d d' : Disk ρ ν} {s t : Loc ρ ν}

theorem shift_eq (hs : s.path ≠ []) (hst : ¬ s ≤ t) (htp : d.kindAt t.parent = some .dir)
    (ht : t.path ≠ []) : ∃ d', d.shift s t = some d' := by
  have h1 : (d.clear t).kindAt t = none := by rw [kindAt_clear d ht, if_pos (le_refl t)]
  have h2 : (d.clear t).kindAt t.parent = some .dir := by
    rw [kindAt_clear d ht, if_neg, htp]
    intro hle
    exact Loc.parent_ne ht (le_antisymm (Loc.parent_le t) hle)
  exact ⟨_, dif_pos ⟨hs, hst, h1, h2⟩⟩

theorem shift_paths (h : d.shift s t = some d') : s.path ≠ [] ∧ t.path ≠ [] ∧ ¬ s ≤ t := by
  unfold shift at h
  split at h
  · next hc =>
    refine ⟨hc.1, ?_, hc.2.1⟩
    intro hp
    rw [kindAt_root _ hp] at hc
    simp at hc
  · cases h

theorem kindAt_shift (h : d.shift s t = some d') (hts : ¬ t ≤ s) (x : Loc ρ ν) :
    d'.kindAt x =
      if t ≤ x then d.kindAt (Loc.rebase t s x) else if s ≤ x then none else d.kindAt x := by
  obtain ⟨_, htpath, hst⟩ := shift_paths h
  -- clearing the old target is not seen below the source
  have hback : ¬ t ≤ Loc.rebase t s x := by
    intro hty
    rcases Loc.le_total_of_le (Loc.le_rebase t s x) hty with h' | h'
    · exact hst h'
    · exact hts h'
  unfold shift at h
  split at h
  · next hc =>
    simp only [Option.some.injEq] at h
    rw [← h, kindAt_tick, kindAt_touchParent, kindAt_touchParent, kindAt_move,
      kindAt_clear d htpath, if_neg hback, kindAt_clear d htpath]
    by_cases htx : t ≤ x
    · rw [if_pos htx, if_pos htx]
    · rw [if_neg htx, if_neg htx, if_neg htx]
  · cases h

theorem sameOn_shift (h : d.shift s t = some d') {P : Option ρ → Prop} (hPs : ¬ P s.root)
    (hPt : ¬ P t.root) : SameOn P d d' := by
  obtain ⟨_, htpath, _⟩ := shift_paths h
  unfold shift at h
  split at h
  · simp only [Option.some.injEq] at h
    intro x hx
    have h1 : x ≠ t.parent := by
      rintro rfl
      exact hPt hx
    have h2 : x ≠ s.parent := by
      rintro rfl
      exact hPs hx
    have h3 : ¬ t ≤ x := fun hle => hPt (Loc.root_eq_of_le hle ▸ hx)
    have h4 : ¬ s ≤ x := fun hle => hPs (Loc.root_eq_of_le hle ▸ hx)
    rw [← h, get_tick, get_touchParent_ne _ h1, get_touchParent_ne _ h2, get_move, if_neg h3,
      if_neg h4, get_clear d htpath h3]
  · cases h

end shift

section putFile

variable {d d' : Disk ρ ν} {l : Loc ρ ν} {data : Bytes} {mode : Option Nat}

theorem putFile_ok (d : Disk ρ ν) (data : Bytes) (mode : Option Nat)
    (hp : d.kindAt l.parent = some .dir) (hl : d.kindAt l = none ∨ d.fileAt l = true) :
    ∃ d', d.putFile l data mode = .ok () d' := by
  unfold putFile
  rcases hl with hl | hl
  · obtain ⟨d', hd'⟩ := add_eq d (.file data) (mode.getD 0o644) hl hp
    exact ⟨d', by simp only [hl, hd']⟩
  · unfold fileAt at hl
    cases hk : d.kindAt l with
    | none => simp [hk] at hl
    | some k =>
      cases k with
      | file b => exact ⟨_, rfl⟩
      | symlink t => simp [hk, Kind.isFile] at hl
      | dir => simp [hk, Kind.isFile] at hl

theorem kindAt_putFile (h : d.putFile l data mode = .ok () d') (x : Loc ρ ν) :
    d'.kindAt x = if x = l then some (.file data) else d.kindAt x := by
  unfold putFile at h
  cases hk : d.kindAt l with
  | none =>
    simp only [hk] at h
    cases ha : d.add l (.file data) (mode.getD 0o644) with
    | none => simp [ha] at h
    | some d₁ =>
      simp only [ha, EStateM.Result.ok.injEq, true_and] at h
      rw [← h]
      exact kindAt_add ha x
  | some k =>
    cases k with
    | dir => simp [hk] at h
    | symlink t => simp [hk] at h
    | file b =>
      simp only [hk, EStateM.Result.ok.injEq, true_and] at h
      have hp : l.path ≠ [] := path_ne_nil_of_not_dir (d := d) (by simp [hk])
      rw [← h, kindAt_tick]
      obtain ⟨n, hn, hnk⟩ : ∃ n, d.get l = some n ∧ n.kind = .file b := by
        simpa [kindAt] using hk
      unfold kindAt
      rw [get_modify d l _ x hp]
      · by_cases hx : x = l
        · subst hx
          simp [hn]
        · simp [hx]
      · intro m hm
        rw [hn] at hm
        simp [← Option.some.inj hm, hnk, Kind.isDir]

theorem layout_putFile (h : d.putFile l data mode = .ok () d') : d'.layout = d.layout := by
  unfold putFile at h
  split at h
  · cases h
    rfl
  · cases h
  · cases h
  · split at h
    · next ha =>
      cases h
      exact layout_add ha
    · cases h

/-- What a written file replaces was nothing or a file. -/
theorem free_or_file_of_putFile (h : d.putFile l data mode = .ok () d') :
    d.kindAt l = none ∨ d.fileAt l = true := by
  unfold putFile at h
  unfold fileAt
  split at h
  · next hk => exact Or.inr (by simp [hk, Kind.isFile])
  · cases h
  · cases h
  · next hk => exact Or.inl hk

theorem sameOn_putFile {P : Option ρ → Prop} (hP : ¬ P l.root) :
    SameOn P d (match d.putFile l data mode with | .ok _ d' => d' | .error _ d' => d') := by
  unfold putFile
  cases hk : d.kindAt l with
  | none =>
    simp only
    cases ha : d.add l (.file data) (mode.getD 0o644) with
    | none => exact SameOn.refl P d
    | some d₁ => exact sameOn_add ha hP
  | some k =>
    cases k with
    | dir => exact SameOn.refl P d
    | symlink t => exact SameOn.refl P d
    | file b =>
      intro x hx
      refine get_modify_ne d _ ?_
      rintro rfl
      exact hP hx

theorem noNewLinks_putFile (h : d.putFile l data mode = .ok () d') : NoNewLinks d d' := by
  refine noNewLinks_of_kindAt fun x => ?_
  rw [kindAt_putFile h]
  split
  · right
    rfl
  · exact Or.inl rfl

end putFile

/-! ## Open files -/

end Disk

/-- An open file: the tree it was opened in and the object it names there. -/
structure Handle (ρ : Type) where
  root : Option ρ
  id : Nat
  deriving DecidableEq, Repr

namespace Disk

/-- `f` on the contents of a file. -/
def mapData (f : Bytes → Bytes) (now : Nat) (n : Node ν) : Node ν :=
  match n.kind with
  | .file b => { n with kind := .file (f b), mtime := now }
  | _ => n

/-- Change the contents of the object an open file names, wherever it is called by now. -/
def mapFile (d : Disk ρ ν) (h : Handle ρ) (f : Bytes → Bytes) : Disk ρ ν :=
  { d.update fun k n => if k.root = h.root ∧ n.id = h.id then mapData f d.clock n else n with
    orphans := d.orphans.map fun o =>
      if o.1 = h.root ∧ o.2.id = h.id then (o.1, mapData f d.clock o.2) else o
    clock := d.clock + 1 }

/-- The contents of a node, if it is a file. -/
def contents (n : Node ν) : Option Bytes :=
  match n.kind with
  | .file b => some b
  | _ => none

/-- The contents an open file reads. -/
def fileOf (d : Disk ρ ν) (h : Handle ρ) : Option Bytes :=
  let named := d.entries.findSome? fun e =>
    if e.1.root = h.root ∧ e.2.id = h.id then contents e.2 else none
  named.or (d.orphans.findSome? fun o =>
    if o.1 = h.root ∧ o.2.id = h.id then contents o.2 else none)

theorem sameOn_mapFile (d : Disk ρ ν) (h : Handle ρ) (f : Bytes → Bytes) {P : Option ρ → Prop}
    (hP : ¬ P h.root) : SameOn P d (d.mapFile h f) := by
  intro x hx
  refine get_update_eq d _ (fun n => if_neg ?_)
  rintro ⟨hr, _⟩
  exact hP (hr ▸ hx)

/-- A change of file contents leaves links and directories as they are. -/
theorem kindAt_mapFile (d : Disk ρ ν) (h : Handle ρ) (f : Bytes → Bytes) (x : Loc ρ ν) :
    (d.mapFile h f).kindAt x = d.kindAt x ∨
      ∃ b b', d.kindAt x = some (.file b) ∧ (d.mapFile h f).kindAt x = some (.file b') := by
  have hget : (d.mapFile h f).get x = (d.update fun k n =>
      if k.root = h.root ∧ n.id = h.id then mapData f d.clock n else n).get x := rfl
  unfold kindAt
  rw [hget]
  by_cases hp : x.path = []
  · left
    rw [get_root _ hp, get_root _ hp]
  · rw [get_update d _ hp]
    cases hg : d.get x with
    | none => exact Or.inl rfl
    | some n =>
      by_cases hc : x.root = h.root ∧ n.id = h.id
      · cases hk : n.kind with
        | file b =>
          right
          exact ⟨b, f b, by simp [hk], by simp [guarded, hc, mapData, hk, Kind.isDir]⟩
        | symlink t => exact Or.inl (by simp [guarded, hc, mapData, hk])
        | dir => exact Or.inl (by simp [guarded, hc, mapData, hk])
      · left
        simp [guarded, hc]

theorem noNewLinks_mapFile (d : Disk ρ ν) (h : Handle ρ) (f : Bytes → Bytes) :
    NoNewLinks d (d.mapFile h f) := by
  refine noNewLinks_of_kindAt fun x => ?_
  rcases kindAt_mapFile d h f x with hk | ⟨b, b', _, hk⟩
  · exact Or.inl hk
  · right
    simp [hk, Kind.isSymlink]

/-- The names in a directory. -/
def children (d : Disk ρ ν) (l : Loc ρ ν) : List ν :=
  d.entries.filterMap fun e => if e.1.parent = l then e.1.path.getLast? else none

theorem mem_children {d : Disk ρ ν} {l : Loc ρ ν} {n : ν} :
    n ∈ d.children l ↔ d.kindAt (l.child n) ≠ none := by
  have hp : (l.child n).path ≠ [] := by simp
  simp only [children, List.mem_filterMap]
  constructor
  · rintro ⟨e, he, hn⟩
    have hne := (d.closed e he).1
    split at hn
    · next hpar =>
      have hlast : e.1.path.getLast hne = n := by
        rw [List.getLast?_eq_getLast_of_ne_nil hne] at hn
        exact Option.some.inj hn
      have heq : e.1 = l.child n := by
        rw [← hpar, ← hlast, Loc.child_parent]
      have := lookup_ne_none he
      rw [heq] at this
      simpa [kindAt, get, hp] using this
    · cases hn
  · intro hk
    obtain ⟨m, hm⟩ : ∃ m, d.entries.lookup (l.child n) = some m := by
      cases hl : d.entries.lookup (l.child n) with
      | none => simp [kindAt, get, hl] at hk
      | some m => exact ⟨m, rfl⟩
    exact ⟨_, mem_of_lookup hm, by simp⟩

/-- A name stands once in its directory. -/
theorem children_nodup (d : Disk ρ ν) (l : Loc ρ ν) : (d.children l).Nodup := by
  have main : ∀ es : List (Loc ρ ν × Node ν), (es.map (·.1)).Nodup → (∀ e ∈ es, e.1.path ≠ []) →
      (es.filterMap fun e => if e.1.parent = l then e.1.path.getLast? else none).Nodup := by
    intro es
    induction es with
    | nil => simp
    | cons e es ih =>
      intro hes hne
      rw [List.map_cons, List.nodup_cons] at hes
      have ih' := ih hes.2 fun e' he' => hne e' (List.mem_cons_of_mem _ he')
      rw [List.filterMap_cons]
      split
      · exact ih'
      · next n hn =>
        refine List.nodup_cons.mpr ⟨?_, ih'⟩
        intro hmem
        obtain ⟨e', he', hn'⟩ := List.mem_filterMap.mp hmem
        -- two entries of one directory with one last name are one entry
        have hloc : ∀ x : Loc ρ ν, x.path ≠ [] →
            (if x.parent = l then x.path.getLast? else none) = some n → x = l.child n := by
          intro x hx hxn
          split at hxn
          · next hpar =>
            have hlast : x.path.getLast hx = n := by
              rw [List.getLast?_eq_getLast_of_ne_nil hx] at hxn
              exact Option.some.inj hxn
            rw [← hpar, ← hlast, Loc.child_parent]
          · cases hxn
        have h1 := hloc e.1 (hne e (List.mem_cons_self ..)) hn
        have h2 := hloc e'.1 (hne e' (List.mem_cons_of_mem _ he')) hn'
        exact hes.1 (List.mem_map.mpr ⟨e', he', by rw [h1, h2]⟩)
  exact main d.entries d.unique fun e he => (d.closed e he).1

end Disk

namespace Disk

/-- The trees that hang in a directory of the host. -/
def mountsAt (d : Disk ρ ν) (l : Loc ρ ν) : List ν :=
  match l.root with
  | some _ => []
  | none => d.layout.mountsIn l.path

/-- `fs::read_dir`: the names in the directory a path leads to. -/
def readDir (d : Disk ρ ν) (l : Loc ρ ν) : Except Errno (List ν) :=
  match d.realpathFollow l with
  | .error e => .error e
  | .ok r =>
    match d.wayAt r with
    | some .dir => .ok (d.children r ++ d.mountsAt r)
    | some _ => .error .ENOTDIR
    | none => .error .ENOENT

/-- Inside a named tree a listing is what the table has there. -/
theorem readDir_of_follow {d : Disk ρ ν} {l t : Loc ρ ν} {r : ρ} (hr : t.root = some r)
    (h : d.realpathFollow l = .ok t) (ht : d.kindAt t = some .dir) :
    d.readDir l = .ok (d.children t) := by
  simp only [readDir, h, wayAt_of_root hr, ht, mountsAt, hr, List.append_nil]

/-- The entries of a directory and the trees that hang there are what a name of it leads to. -/
theorem get_norm_child {d : Disk ρ ν} {l : Loc ρ ν} {n : ν} :
    d.get (d.norm (l.child n)) ≠ none ↔ n ∈ d.children l ++ d.mountsAt l := by
  have hchild : n ∈ d.children l ↔ d.get (l.child n) ≠ none := by
    rw [mem_children, Ne, Ne, get_none_iff]
  rw [List.mem_append, hchild]
  unfold norm mountsAt
  cases hr : l.root with
  | some r => simp [hr]
  | none =>
    have hmount := d.layout.mem_mountsIn l.path n
    cases hm : d.layout.mountAt (l.path ++ [n]) with
    | none => simp [hr, hm, hmount]
    | some r => simp [hr, hm, hmount, get_root]

/-- **A listing has the names that are there**, whichever links lead to the directory. -/
theorem mem_readDir {d : Disk ρ ν} {l : Loc ρ ν} {n : ν} :
    d.lexists (l.child n) = true ↔ ∃ names, d.readDir l = .ok names ∧ n ∈ names := by
  have hlstat : d.lexists (l.child n) = true ↔
      ∃ t, d.realpath (l.child n) = .ok t ∧ d.get t ≠ none := by
    unfold lexists lstat
    cases d.realpath (l.child n) with
    | error e => simp [Except.toOption]
    | ok t => cases hg : d.get t <;> simp [hg, Except.toOption]
  rw [hlstat]
  unfold readDir
  simp only [realpath_child]
  constructor
  · rintro ⟨t, ⟨r, hr, hway, rfl⟩, hget⟩
    exact ⟨_, by simp only [hr, hway], get_norm_child.mp hget⟩
  · rintro ⟨names, hnames, hn⟩
    cases hr : d.realpathFollow l with
    | error e => simp [hr] at hnames
    | ok r =>
      simp only [hr] at hnames
      split at hnames
      · next hway =>
        cases hnames
        exact ⟨_, ⟨r, rfl, hway, rfl⟩, get_norm_child.mpr hn⟩
      · cases hnames
      · cases hnames

end Disk

/-- `data` written at `off`, the gap filled with zeros. -/
def splice (old : Bytes) (off : Nat) (data : Bytes) : Bytes :=
  old.take off ++ List.replicate (off - old.length) 0 ++ data ++ old.drop (off + data.length)

/-- Truncate or extend with zeros. -/
def resize (old : Bytes) (len : Nat) : Bytes :=
  old.take len ++ List.replicate (len - old.length) 0

/-! ## The calls -/

namespace Sys

open Disk

variable {α : Type}

/-- Act on the place a path names, its last component not followed. -/
def resolved (l : Loc ρ ν) (act : Loc ρ ν → Sys ρ ν α) : Sys ρ ν α := fun d =>
  match d.realpath l with
  | .error e => .error e d
  | .ok r => act r d

/-- Act on the place a path leads to. -/
def followed (l : Loc ρ ν) (act : Loc ρ ν → Sys ρ ν α) : Sys ρ ν α := fun d =>
  match d.realpathFollow l with
  | .error e => .error e d
  | .ok r => act r d

/-- Create an entry where there is none. -/
def addAt (k : Kind ν) (mode : Nat) (r : Loc ρ ν) : Sys ρ ν Unit := fun d =>
  match d.kindAt r with
  | some _ => .error .EEXIST d
  | none =>
    match d.add r k mode with
    | some d' => .ok () d'
    | none => .error .ENOENT d

/-- `mkdir`. -/
def mkdir (l : Loc ρ ν) (mode : Nat) : Sys ρ ν Unit := resolved l (addAt .dir mode)

/-- `symlink`. -/
def symlink (target : Link ν) (l : Loc ρ ν) : Sys ρ ν Unit :=
  resolved l (addAt (.symlink target) 0o777)

/-- `fs::create_dir_all`: try the directory itself, on ENOENT its parent first. -/
def createDirAllUpTo : Nat → Loc ρ ν → Sys ρ ν Unit
  | n, l => fun d =>
    match mkdir l 0o755 d with
    | .ok _ d' => .ok () d'
    | .error e d' =>
      if e = .ENOENT then
        match n with
        | 0 => .error e d'
        | n + 1 =>
          match createDirAllUpTo n l.parent d' with
          | .error e d'' => .error e d''
          | .ok _ d'' =>
            match mkdir l 0o755 d'' with
            | .ok _ d₃ => .ok () d₃
            | .error e d₃ => if d₃.isDir l then .ok () d₃ else .error e d₃
      else if d'.isDir l then .ok () d'
      else .error e d'

def createDirAll (l : Loc ρ ν) : Sys ρ ν Unit := createDirAllUpTo l.path.length l

def openWriteAt (create trunc : Bool) (r : Loc ρ ν) : Sys ρ ν (Handle ρ) := fun d =>
  match d.get r with
  | some n =>
    match n.kind with
    | .dir => .error .EISDIR d
    | .symlink _ => .error .ELOOP d
    | .file _ => .ok ⟨r.root, n.id⟩ (if trunc then d.mapFile ⟨r.root, n.id⟩ fun _ => [] else d)
  | none =>
    if create then
      match d.add r (.file []) 0o644 with
      | some d' => .ok ⟨r.root, d.clock⟩ d'
      | none => .error .ENOENT d
    else .error .ENOENT d

/-- `open` for writing, with `O_CREAT` and `O_TRUNC` as asked. -/
def openWrite (l : Loc ρ ν) (create trunc : Bool) : Sys ρ ν (Handle ρ) :=
  followed l (openWriteAt create trunc)

/-- `File::open`; a directory can be opened too. -/
def openRead (l : Loc ρ ν) : Sys ρ ν (Handle ρ) := followed l fun r d =>
  match d.get r with
  | some n => .ok ⟨r.root, n.id⟩ d
  | none => .error .ENOENT d

/-- `pwrite` through an open file. -/
def pwrite (h : Handle ρ) (off : Nat) (data : Bytes) : Sys ρ ν Nat := fun d =>
  .ok data.length (d.mapFile h fun old => splice old off data)

/-- `ftruncate` through an open file. -/
def setLen (h : Handle ρ) (len : Nat) : Sys ρ ν Unit := fun d =>
  .ok () (d.mapFile h fun old => resize old len)

def putFileAt (data : Bytes) (mode : Option Nat) (r : Loc ρ ν) : Sys ρ ν Unit := fun d =>
  d.putFile r data mode

/-- `fs::write`. -/
def writeFile (l : Loc ρ ν) (data : Bytes) : Sys ρ ν Unit := followed l (putFileAt data none)

/-- `fs::read`. -/
def readFile (l : Loc ρ ν) : Sys ρ ν Bytes := fun d =>
  match d.stat l with
  | .error e => .error e d
  | .ok n =>
    match n.kind with
    | .file b => .ok b d
    | _ => .error .EISDIR d

/-- `fs::copy`: contents and mode, to wherever the destination leads. -/
def copyFile (src dst : Loc ρ ν) : Sys ρ ν Unit := fun d =>
  match d.stat src with
  | .error e => .error e d
  | .ok n =>
    match n.kind with
    | .file data => followed dst (putFileAt data (some n.mode)) d
    | _ => .error .EINVAL d

/-- `readlink`. -/
def readLink (l : Loc ρ ν) : Sys ρ ν (Link ν) := fun d =>
  match d.lstat l with
  | .error e => .error e d
  | .ok n =>
    match n.kind with
    | .symlink t => .ok t d
    | _ => .error .EINVAL d

def removeFileAt (r : Loc ρ ν) : Sys ρ ν Unit := fun d =>
  match d.kindAt r with
  | none => .error .ENOENT d
  | some .dir => .error .EISDIR d
  | some _ => .ok () (d.cut r)

/-- `unlink`. -/
def removeFile (l : Loc ρ ν) : Sys ρ ν Unit := resolved l removeFileAt

def removeDirAt (r : Loc ρ ν) : Sys ρ ν Unit := fun d =>
  match d.kindAt r with
  | none => .error .ENOENT d
  | some .dir =>
    if r.path = [] then .error .EBUSY d
    else if d.children r = [] then .ok () (d.cut r)
    else .error .ENOTEMPTY d
  | some _ => .error .ENOTDIR d

/-- `rmdir`. -/
def removeDir (l : Loc ρ ν) : Sys ρ ν Unit := resolved l removeDirAt

def removeDirAllAt (r : Loc ρ ν) : Sys ρ ν Unit := fun d =>
  match d.kindAt r with
  | none => .error .ENOENT d
  | some (.file _) => .error .ENOTDIR d
  | some _ => if r.path = [] then .error .EBUSY d else .ok () (d.cut r)

/-- `fs::remove_dir_all`: the tree below, or the link itself. -/
def removeDirAll (l : Loc ρ ν) : Sys ρ ν Unit := resolved l removeDirAllAt

def renameAt (s t : Loc ρ ν) : Sys ρ ν Unit := fun d =>
  match d.kindAt s with
  | none => .error .ENOENT d
  | some k =>
    if s = t then .ok () d
    else if s.path = [] ∨ t.path = [] then .error .EBUSY d
    else if s ≤ t then .error .EINVAL d
    else if k.isDir = true ∧ (d.kindAt t).any (fun k' => !k'.isDir) = true then .error .ENOTDIR d
    else if k.isDir = false ∧ d.kindAt t = some .dir then .error .EISDIR d
    else if d.children t ≠ [] then .error .ENOTEMPTY d
    else
      match d.shift s t with
      | some d' => .ok () d'
      | none => .error .ENOENT d

/-- `rename`. -/
def rename (s t : Loc ρ ν) : Sys ρ ν Unit := resolved s fun rs => resolved t (renameAt rs)

def setAttrAt (f : Node ν → Node ν) (r : Loc ρ ν) : Sys ρ ν Unit := fun d =>
  match d.kindAt r with
  | none => .error .ENOENT d
  | some _ => .ok () (d.modify r fun n => { f n with kind := n.kind, id := n.id }).tick

/-- A change of attributes at the place the path leads to. -/
def setAttr (l : Loc ρ ν) (f : Node ν → Node ν) : Sys ρ ν Unit := followed l (setAttrAt f)

/-- `chmod`. -/
def setPermissions (l : Loc ρ ν) (mode : Nat) : Sys ρ ν Unit :=
  setAttr l fun n => { n with mode := mode }

/-- `chown`, with either owner left alone when absent. -/
def chown (l : Loc ρ ν) (uid gid : Option Nat) : Sys ρ ν Unit :=
  setAttr l fun n => { n with uid := uid.getD n.uid, gid := gid.getD n.gid }

/-- `utimensat` for the modification time. -/
def utimens (l : Loc ρ ν) (mtime : Option Nat) : Sys ρ ν Unit :=
  setAttr l fun n => { n with mtime := mtime.getD n.mtime }

end Sys

end BranchFs.Posix
