/-
# BranchFs.Mount.Paging -- a directory read in pages while it changes

`readdir` rebuilds the listing at every call and takes the offset for a position in it. A name that
stays visible is returned once as long as no change between two calls carries it over the cursor;
removing an entry that was returned already carries the first entry of the next page over it.
-/
import BranchFs.Mount.Listing

namespace BranchFs

open BranchFs.Posix BranchFs.Logic

/-! ## Pages of a list -/

/-- A page has of an element what the longer beginning has more than the shorter one. -/
theorem count_page {α : Type} [DecidableEq α] (l : List α) (a : α) (offset room : Nat) :
    (l.take offset).count a + ((l.drop offset).take room).count a =
      (l.take (offset + ((l.drop offset).take room).length)).count a := by
  have hpage : (l.drop offset).take ((l.drop offset).take room).length =
      (l.drop offset).take room := by
    rw [List.length_take]
    rcases Nat.le_total room (l.drop offset).length with hle | hle
    · rw [Nat.min_eq_left hle]
    · rw [Nat.min_eq_right hle, List.take_length, List.take_of_length_le hle]
  rw [List.take_add, List.count_append, hpage]

/-! ## Where the names stand in a listing -/

/-- The names the tree shows in a directory, as they are listed. -/
def Mount.namesIn (s : Mount) (path : RelPath) : List String :=
  (s.manager.collected (s.dirOf path).1 (s.dirOf path).2).insertionSort (· ≤ ·)

/-- The beginning of a listing: the names of the daemon come after it. -/
def Mount.listed (s : Mount) (path : RelPath) : List String := "." :: ".." :: s.namesIn path

/-- The daemon adds an entry of this name to the listing of the directory. -/
def Mount.Adds (s : Mount) (path : RelPath) (name : String) : Prop :=
  match classifyPath path with
  | .rootPath [] => s.exposeControl = true ∧ (name = ctlFile ∨ (stripAt name).isSome = true)
  | .branchDir _ => s.exposeControl = true ∧ name = ctlFile
  | _ => False

theorem mem_namesIn {s : Mount} {path : RelPath} {name : String} :
    name ∈ s.namesIn path ↔ s.inTree path name ≠ none := by
  unfold Mount.namesIn Mount.inTree
  rw [(List.perm_insertionSort _ _).mem_iff, Manager.mem_collected, resolveForBranch_eq,
    Option.isSome_iff_ne_none]

theorem namesIn_nodup (s : Mount) (path : RelPath) : (s.namesIn path).Nodup :=
  (List.perm_insertionSort _ _).nodup_iff.mpr (Manager.collected_nodup _ _ _)

theorem Mount.Recalls.namesIn {s t : Mount} (h : s.Recalls t) (path : RelPath) :
    t.namesIn path = s.namesIn path := by
  unfold Mount.namesIn
  rw [h.dirOf, h.manager]

theorem Mount.Recalls.listed {s t : Mount} (h : s.Recalls t) (path : RelPath) :
    t.listed path = s.listed path := by
  unfold Mount.listed
  rw [h.namesIn]

section

variable {s t : Mount} {branch : String} {rel inode path : RelPath} {ino : Nat}
  {entries : List DirEntry}

/-- The candidates that resolve are listed in their order. -/
theorem listNames_names (names : List String) :
    ∀ {s t : Mount} {entries : List DirEntry}, listNames branch rel inode names s = .ok entries t →
      entries.map DirEntry.name =
        names.filter fun n => (s.resolveForBranch branch (rel ++ [n])).isSome := by
  induction names with
  | nil =>
    intro s t entries h
    cases h
    rfl
  | cons name rest ih =>
    intro s t entries h
    unfold listNames at h
    rw [bind_ok (rfl : (get : MountReq Mount) s = .ok s s)] at h
    rw [List.filter_cons]
    cases hl : s.resolveForBranch branch (rel ++ [name]) with
    | none =>
      simp only [hl] at h
      simpa using ih h
    | some l =>
      simp only [hl] at h
      obtain ⟨i, s₁, hino, h⟩ := bind_eq_ok h
      obtain ⟨more, s₂, hrest, h⟩ := bind_eq_ok h
      cases h
      have hrec := ((settles_inodeFor _ _).answered _ _ _ hino).1
      have hmore := ih hrest
      simp only [hrec.resolveForBranch] at hmore
      simpa using hmore

theorem collectReaddirEntries_names (hvalid : s.manager.isBranchValid branch = true)
    (h : collectReaddirEntries branch rel ino inode s = .ok entries t) :
    entries.map DirEntry.name =
      "." :: ".." :: (s.manager.collected branch rel).insertionSort (· ≤ ·) := by
  have hnames : s.manager.collectDirNames branch rel = .ok (s.manager.collected branch rel) := by
    unfold Manager.collectDirNames
    obtain ⟨b, hb⟩ := Option.isSome_iff_exists.mp hvalid
    rw [hb]
  unfold collectReaddirEntries at h
  rw [bind_ok (rfl : (get : MountReq Mount) s = .ok s s)] at h
  simp only [hnames] at h
  obtain ⟨found, s₁, hfound, h⟩ := bind_eq_ok h
  cases h
  -- every candidate was collected, so it resolves
  have hall : ∀ n ∈ (s.manager.collected branch rel).insertionSort (· ≤ ·),
      (s.resolveForBranch branch (rel ++ [n])).isSome = true := by
    intro n hn
    rw [resolveForBranch_eq]
    exact Manager.mem_collected.mp ((List.perm_insertionSort _ _).mem_iff.mp hn)
  rw [List.map_append, listNames_names _ hfound, List.filter_eq_self.mpr hall]
  rfl

theorem failWhenStale_ok (h : failWhenStale s = .ok () t) : s.live = true ∧ s.Recalls t := by
  refine ⟨?_, (settles_failWhenStale.answered _ _ _ h).1⟩
  cases hlive : s.live with
  | true => rfl
  | false =>
    obtain ⟨u, herror, -⟩ := failWhenStale_gone hlive
    rw [herror] at h
    cases h

theorem needBranch_valid (h : needBranch branch s = .ok () t) :
    s.manager.isBranchValid branch = true ∧ t = s := by
  unfold needBranch at h
  split at h
  · next hvalid =>
    cases h
    exact ⟨hvalid, rfl⟩
  · cases h

theorem listBranches_names (branches : List String) :
    ∀ {s t : Mount} {entries : List DirEntry}, listBranches branches s = .ok entries t →
      ∀ n ∈ entries.map DirEntry.name, (stripAt n).isSome = true := by
  induction branches with
  | nil =>
    intro s t entries h n hn
    cases h
    simp at hn
  | cons branch rest ih =>
    intro s t entries h n hn
    unfold listBranches at h
    split at h
    · exact ih h n hn
    · obtain ⟨i, s₁, -, h⟩ := bind_eq_ok h
      obtain ⟨more, s₂, hrest, h⟩ := bind_eq_ok h
      cases h
      rw [List.map_cons, List.mem_cons] at hn
      rcases hn with rfl | hn
      · rw [stripAt_atName]
        rfl
      · exact ih hrest n hn

theorem listBranchDir_names (hclass : classifyPath path = .branchDir branch)
    (h : listBranchDir branch ino s = .ok entries t) :
    ∃ extra, entries.map DirEntry.name = s.listed path ++ extra ∧ ∀ n ∈ extra, s.Adds path n := by
  unfold listBranchDir at h
  obtain ⟨_, s₁, hneed, hrest⟩ := bind_eq_ok h
  obtain ⟨hvalid, rfl⟩ := needBranch_valid hneed
  rw [bind_ok (rfl : (get : MountReq Mount) s₁ = .ok s₁ s₁)] at hrest
  obtain ⟨found, s₂, hfound, hdone⟩ := bind_eq_ok hrest
  have hlisted : s₁.listed path = found.map DirEntry.name := by
    rw [collectReaddirEntries_names hvalid hfound]
    simp only [Mount.listed, Mount.namesIn, Mount.dirOf, hclass]
  split at hdone
  · next hexp =>
    obtain ⟨ctl, s₃, -, hdone⟩ := bind_eq_ok hdone
    cases hdone
    refine ⟨[ctlFile], by rw [hlisted, List.map_append]; rfl, fun n hn => ?_⟩
    unfold Mount.Adds
    rw [hclass]
    exact ⟨hexp, List.mem_singleton.mp hn⟩
  · cases hdone
    exact ⟨[], by rw [hlisted, List.append_nil], by simp⟩

theorem listInBranch_names (hclass : classifyPath path = .branchPath branch rel)
    (h : listInBranch branch rel ino s = .ok entries t) :
    entries.map DirEntry.name = s.listed path := by
  unfold listInBranch at h
  obtain ⟨_, s₁, hneed, hrest⟩ := bind_eq_ok h
  obtain ⟨hvalid, rfl⟩ := needBranch_valid hneed
  rw [collectReaddirEntries_names hvalid hrest]
  simp only [Mount.listed, Mount.namesIn, Mount.dirOf, hclass]

theorem listInRoot_names (hclass : classifyPath path = .rootPath rel)
    (h : listInRoot rel ino s = .ok entries t) : entries.map DirEntry.name = s.listed path := by
  unfold listInRoot at h
  obtain ⟨_, s₁, hstale, h⟩ := bind_eq_ok h
  obtain ⟨hlive, hrec₁⟩ := failWhenStale_ok hstale
  rw [bind_ok (rfl : (get : MountReq Mount) s₁ = .ok s₁ s₁)] at h
  obtain ⟨found, s₂, hfound, h⟩ := bind_eq_ok h
  obtain ⟨_, s₃, -, h⟩ := bind_eq_ok h
  cases h
  rw [collectReaddirEntries_names (hrec₁.live.trans hlive) hfound, ← hrec₁.listed]
  simp only [Mount.listed, Mount.namesIn, Mount.dirOf, hclass]

theorem listRoot_names {order : MapOrder} (hclass : classifyPath path = .rootPath [])
    (h : listRoot order ino s = .ok entries t) :
    ∃ extra, entries.map DirEntry.name = s.listed path ++ extra ∧ ∀ n ∈ extra, s.Adds path n := by
  unfold listRoot at h
  obtain ⟨_, s₁, hstale, h⟩ := bind_eq_ok h
  obtain ⟨hlive, hrec₁⟩ := failWhenStale_ok hstale
  rw [bind_ok (rfl : (get : MountReq Mount) s₁ = .ok s₁ s₁)] at h
  obtain ⟨found, s₂, hfound, h⟩ := bind_eq_ok h
  have hlisted : s.listed path = found.map DirEntry.name := by
    rw [collectReaddirEntries_names (hrec₁.live.trans hlive) hfound, ← hrec₁.listed]
    simp only [Mount.listed, Mount.namesIn, Mount.dirOf, hclass]
  dsimp only at h
  split at h
  · next hexp =>
    rw [hrec₁.exposeControl] at hexp
    obtain ⟨dirs, s₃, hdirs, h⟩ := bind_eq_ok h
    obtain ⟨virtual, s₄, hvirtual, hrest⟩ := bind_eq_ok h
    obtain ⟨_, s₅, -, hdone⟩ := bind_eq_ok hrest
    cases hvirtual
    cases hdone
    refine ⟨ctlFile :: dirs.map DirEntry.name, by rw [hlisted, List.map_append]; rfl,
      fun n hn => ?_⟩
    unfold Mount.Adds
    rw [hclass]
    exact ⟨hexp, (List.mem_cons.mp hn).imp id (listBranches_names _ hdirs n)⟩
  · obtain ⟨virtual, s₄, hvirtual, hrest⟩ := bind_eq_ok h
    obtain ⟨_, s₅, -, hdone⟩ := bind_eq_ok hrest
    cases hvirtual
    cases hdone
    exact ⟨[], by rw [hlisted, List.append_nil, List.append_nil], by simp⟩

/-- **What a listing is**: the dots, the names of the tree in order, then the daemon's. -/
theorem listAt_names {order : MapOrder} (h : listAt order path ino s = .ok entries t) :
    ∃ extra, entries.map DirEntry.name = s.listed path ++ extra ∧ ∀ n ∈ extra, s.Adds path n := by
  have hnone : entries.map DirEntry.name = s.listed path →
      ∃ extra, entries.map DirEntry.name = s.listed path ++ extra ∧
        ∀ n ∈ extra, s.Adds path n := fun heq => ⟨[], by rw [heq, List.append_nil], by simp⟩
  unfold listAt at h
  cases hclass : classifyPath path with
  | branchDir branch =>
    rw [hclass] at h
    exact listBranchDir_names hclass h
  | branchPath branch rel =>
    rw [hclass] at h
    exact hnone (listInBranch_names hclass h)
  | branchCtl branch =>
    rw [hclass] at h
    cases h
  | rootPath rel =>
    rw [hclass] at h
    cases rel with
    | nil => exact listRoot_names hclass h
    | cons n rest => exact hnone (listInRoot_names hclass h)

end

/-! ## Reading in pages -/

/-- A reading that is under way: the last offset returned, and what was returned. -/
structure Paging where
  mount : Mount
  offset : Nat
  returned : List DirEntry

/-- What happens up to the next call, and the call. -/
structure Round where
  edits : List Op
  order : MapOrder
  room : Nat

/-- The mount after the manager has run operations of other requests. -/
def Mount.edited (s : Mount) (edits : List Op) : Mount :=
  { s with manager := run BranchFs.step s.manager edits }

/-- The next call, which continues at the last offset returned. -/
def Paging.next (ino : Nat) (p : Paging) (r : Round) : Paging :=
  match readdir r.order ino p.offset r.room (p.mount.edited r.edits) with
  | .ok page t => ⟨t, p.offset + page.length, p.returned ++ page⟩
  | .error _ t => ⟨t, p.offset, p.returned⟩

/-- A reading that begins. -/
def Paging.start (s : Mount) : Paging := ⟨s, 0, []⟩

/-- The name is visible in the directory up to the next call, whenever one looks. -/
def ShownUntil (path : RelPath) (name : String) (p : Paging) (r : Round) : Prop :=
  ∀ done, done <+: r.edits → (p.mount.edited done).inTree path name ≠ none

/-- The edits up to the next call carry no visible name over the cursor: of the names that are there
before and after, the same ones stand before the last offset returned. -/
def CursorKept (path : RelPath) (p : Paging) (r : Round) : Prop :=
  ∀ name, p.mount.inTree path name ≠ none → (p.mount.edited r.edits).inTree path name ≠ none →
    (name ∈ (p.mount.listed path).take p.offset ↔
      name ∈ ((p.mount.edited r.edits).listed path).take p.offset)

section

variable {s t : Mount} {path : RelPath} {ino : Nat} {name : String} {p : Paging} {r : Round}

theorem getPath_edited (s : Mount) (edits : List Op) (ino : Nat) :
    (s.edited edits).inodes.getPath ino = s.inodes.getPath ino := rfl

theorem count_listed (hdot : name ≠ "." ∧ name ≠ "..") (hshown : s.inTree path name ≠ none) :
    (s.listed path).count name = 1 := by
  unfold Mount.listed
  rw [List.count_cons_of_ne (Ne.symm hdot.1), List.count_cons_of_ne (Ne.symm hdot.2)]
  exact List.count_eq_one_of_mem (namesIn_nodup s path) (mem_namesIn.mpr hshown)

/-- How often the name stands in the beginning of the listing. -/
def Mount.seen (s : Mount) (path : RelPath) (name : String) (offset : Nat) : Nat :=
  ((s.listed path).take offset).count name

theorem seen_eq (hdot : name ≠ "." ∧ name ≠ "..") (hshown : s.inTree path name ≠ none)
    (offset : Nat) :
    s.seen path name offset = if name ∈ (s.listed path).take offset then 1 else 0 := by
  have hle : s.seen path name offset ≤ 1 := by
    rw [← count_listed hdot hshown]
    exact (List.take_sublist _ _).count_le _
  unfold Mount.seen at hle ⊢
  split
  · next hmem =>
    have := List.count_pos_iff.mpr hmem
    omega
  · next hmem => exact List.count_eq_zero_of_not_mem hmem

/-- One call: what it adds to the names returned is what the cursor passes. -/
theorem readdir_counts (hpath : s.inodes.getPath ino = some path) (hadds : ¬ s.Adds path name)
    {order : MapOrder} {offset room : Nat} {page : List DirEntry}
    (h : readdir order ino offset room s = .ok page t) :
    s.seen path name offset + (page.map DirEntry.name).count name =
      s.seen path name (offset + page.length) ∧
      (page = [] → 0 < room → s.seen path name offset = (s.listed path).count name) := by
  obtain ⟨entries, s', hlist, hdone⟩ := bind_eq_ok h
  rw [listDir_eq hpath] at hlist
  cases hdone
  obtain ⟨extra, hnames, hextra⟩ := listAt_names hlist
  have hout : name ∉ extra := fun hn => hadds (hextra name hn)
  -- the daemon's entries do not count
  have hseen : ∀ k, s.seen path name k = ((entries.map DirEntry.name).take k).count name := by
    intro k
    rw [hnames, List.take_append, List.count_append,
      List.count_eq_zero_of_not_mem fun hn => hout (List.mem_of_mem_take hn)]
    rfl
  have hpage : ((entries.drop offset).take room).map DirEntry.name =
      ((entries.map DirEntry.name).drop offset).take room := by
    rw [List.map_take, List.map_drop]
  constructor
  · rw [hseen, hseen, ← List.length_map (f := DirEntry.name), hpage]
    exact count_page _ _ _ _
  · intro hnil hroom
    have hlong : entries.length ≤ offset := by
      rcases List.take_eq_nil_iff.mp hnil with hzero | hdrop
      · omega
      · exact List.drop_eq_nil_iff.mp hdrop
    rw [hseen, List.take_of_length_le (by simpa using hlong), hnames, List.count_append,
      List.count_eq_zero_of_not_mem hout]
    rfl

/-- What holds between two calls of a name that stays visible: it was returned as often as it stands
before the cursor. -/
structure Accounts (path : RelPath) (ino : Nat) (name : String) (p : Paging) : Prop where
  known : p.mount.inodes.getPath ino = some path
  adds : ¬ p.mount.Adds path name
  count : (p.returned.map DirEntry.name).count name = p.mount.seen path name p.offset

theorem Mount.Recalls.adds (h : s.Recalls t) : t.Adds path = s.Adds path := by
  funext n
  unfold Mount.Adds
  rw [h.exposeControl]

theorem Mount.Recalls.seen (h : s.Recalls t) (offset : Nat) :
    t.seen path name offset = s.seen path name offset := by
  unfold Mount.seen
  rw [h.listed]

theorem settles_readdir (order : MapOrder) (hpath : s.inodes.getPath ino = some path)
    {offset room : Nat} {page : List DirEntry} (h : readdir order ino offset room s = .ok page t) :
    s.Recalls t := by
  obtain ⟨entries, s', hlist, hdone⟩ := bind_eq_ok h
  rw [listDir_eq hpath] at hlist
  cases hdone
  exact ((settles_listAt order path ino).answered _ _ _ hlist).1

theorem readdir_failed (order : MapOrder) (hpath : s.inodes.getPath ino = some path)
    {offset room : Nat} {e : Errno} (h : readdir order ino offset room s = .error e t) :
    s.Recalls t := by
  cases hlist : listAt order path ino s with
  | ok entries s' =>
    rw [readdir_of_ok _ _ hpath hlist] at h
    cases h
  | error e' s' =>
    rw [readdir_of_error hpath hlist] at h
    cases h
    exact (settles_listAt order path ino).failed _ _ _ hlist

/-- **One round keeps the account.** -/
theorem Accounts.next (hdot : name ≠ "." ∧ name ≠ "..") (h : Accounts path ino name p)
    (hshown : ShownUntil path name p r) (hkept : CursorKept path p r) :
    Accounts path ino name (p.next ino r) := by
  have hbefore : p.mount.inTree path name ≠ none := hshown [] List.nil_prefix
  have hafter : (p.mount.edited r.edits).inTree path name ≠ none :=
    hshown r.edits (List.prefix_refl _)
  have hpath : (p.mount.edited r.edits).inodes.getPath ino = some path := h.known
  -- the edits leave the name on its side of the cursor
  have hside : (p.mount.edited r.edits).seen path name p.offset =
      p.mount.seen path name p.offset := by
    rw [seen_eq hdot hafter, seen_eq hdot hbefore]
    exact if_congr (hkept name hbefore hafter).symm rfl rfl
  unfold Paging.next
  cases hread : readdir r.order ino p.offset r.room (p.mount.edited r.edits) with
  | ok page t =>
    have hrec := settles_readdir r.order hpath hread
    refine ⟨hrec.getPath hpath, ?_, ?_⟩
    · show ¬ t.Adds path name
      rw [hrec.adds]
      exact h.adds
    · show ((p.returned ++ page).map DirEntry.name).count name = t.seen path name _
      rw [hrec.seen, ← (readdir_counts hpath h.adds hread).1, hside, ← h.count, List.map_append,
        List.count_append]
  | error e t =>
    have hrec := readdir_failed r.order hpath hread
    refine ⟨hrec.getPath hpath, ?_, ?_⟩
    · show ¬ t.Adds path name
      rw [hrec.adds]
      exact h.adds
    · show (p.returned.map DirEntry.name).count name = t.seen path name _
      rw [hrec.seen, hside, h.count]

end

/-- **A reading whose cursor is kept is complete**: every name that stays visible has been returned
exactly once when a call returns no entries, whatever the sizes of the pages. Left out are names of
which the daemon adds an entry of its own. -/
theorem paged_readdir_complete {s : Mount} {ino : Nat} {path : RelPath}
    (hpath : s.inodes.getPath ino = some path) (rounds : List Round)
    (hkept : Along (Paging.next ino) (CursorKept path) (Paging.start s) rounds)
    {p : Paging} (hp : p = run (Paging.next ino) (Paging.start s) rounds)
    {order : MapOrder} {room : Nat} {t : Mount} (hroom : 0 < room)
    (hend : readdir order ino p.offset room p.mount = .ok [] t) {name : String}
    (hdot : name ≠ "." ∧ name ≠ "..") (hadds : ¬ s.Adds path name)
    (hshown : Along (Paging.next ino) (ShownUntil path name) (Paging.start s) rounds)
    (hlast : p.mount.inTree path name ≠ none) :
    (p.returned.map DirEntry.name).count name = 1 := by
  have hrun : ∀ (rounds : List Round) (q : Paging), Accounts path ino name q →
      Along (Paging.next ino) (CursorKept path) q rounds →
      Along (Paging.next ino) (ShownUntil path name) q rounds →
      Accounts path ino name (run (Paging.next ino) q rounds) := by
    intro rounds
    induction rounds with
    | nil => exact fun q hq _ _ => hq
    | cons r rounds ih =>
      intro q hq hk hs
      rw [run_cons]
      exact ih _ (hq.next hdot hs.1 hk.1) hk.2 hs.2
  have hstart : Accounts path ino name (Paging.start s) := ⟨hpath, hadds, rfl⟩
  have hacc := hrun rounds _ hstart hkept hshown
  rw [← hp] at hacc
  rw [hacc.count, (readdir_counts hacc.known hacc.adds hend).2 rfl hroom]
  exact count_listed hdot hlast

/-! ## A name the cursor passes over -/

/-- An entry made or removed in the directory. -/
def DirEdit (branch : String) (rel : RelPath) (op : Op) : Prop :=
  (∃ name mode, op = .file branch (.create rel name mode)) ∨
    ∃ name, op = .file branch (.unlink rel name)

/-- Every reading in pages returns every name that stays visible exactly once. -/
def PagedReaddirComplete : Prop :=
  ∀ s : Mount, s.Reachable → ∀ ino path, s.inodes.getPath ino = some path → ∀ rounds : List Round,
    (∀ r ∈ rounds, ∀ op ∈ r.edits, DirEdit (s.dirOf path).1 (s.dirOf path).2 op) →
    ∀ p, p = run (Paging.next ino) (Paging.start s) rounds → ∀ order room t, 0 < room →
    readdir order ino p.offset room p.mount = .ok [] t → ∀ name, name ≠ "." ∧ name ≠ ".." →
    Along (Paging.next ino) (ShownUntil path name) (Paging.start s) rounds →
    p.mount.inTree path name ≠ none → (p.returned.map DirEntry.name).count name = 1

instance (path : RelPath) (name : String) (p : Paging) (r : Round) :
    Decidable (ShownUntil path name p r) :=
  decidable_of_iff (∀ done ∈ r.edits.inits, name ∈ (p.mount.edited done).namesIn path) (by
    simp only [List.mem_inits, mem_namesIn]
    rfl)

instance (path : RelPath) (p : Paging) (r : Round) : Decidable (CursorKept path p r) :=
  decidable_of_iff (∀ name ∈ p.mount.namesIn path, name ∈ (p.mount.edited r.edits).namesIn path →
    (name ∈ (p.mount.listed path).take p.offset ↔
      name ∈ ((p.mount.edited r.edits).listed path).take p.offset)) (by
    simp only [mem_namesIn]
    rfl)

/-- A mount of `main` over a base directory with the files `a` and `b`. -/
def twoFiles : Mount :=
  Mount.new (run step (Manager.init FreshStore.bare)
    [.host (.write ["a"] []), .host (.write ["b"] [])]) "/mnt" false

theorem twoFiles_reachable : twoFiles.Reachable := ⟨_, _, _, [], ⟨_, _, rfl⟩, rfl⟩

/-- A page with the first file, and a call after one of the files is removed. -/
def removing (name : String) : List Round :=
  [⟨[], asListed, 3⟩, ⟨[.file "main" (.unlink [] name)], asListed, 1⟩]

/-- The reading, up to the last of its calls. -/
def afterRemoving (name : String) : Paging :=
  run (Paging.next rootIno) (Paging.start twoFiles) (removing name)

/-- `a` is removed once it was returned: `b` moves over the cursor and is never returned. Removing
`b` leaves the cursor where it is. -/
theorem removing_run :
    (twoFiles.inodes.getPath rootIno = some [] ∧ twoFiles.dirOf [] = ("main", [])) ∧
    (Along (Paging.next rootIno) (ShownUntil [] "b") (Paging.start twoFiles) (removing "a") ∧
      replyOf (readdir asListed rootIno (afterRemoving "a").offset 1) (afterRemoving "a").mount =
        some [] ∧
      "b" ∈ (afterRemoving "a").mount.namesIn [] ∧
      (afterRemoving "a").returned.map DirEntry.name = [".", "..", "a"]) ∧
    (Along (Paging.next rootIno) (CursorKept []) (Paging.start twoFiles) (removing "b") ∧
      Along (Paging.next rootIno) (ShownUntil [] "a") (Paging.start twoFiles) (removing "b") ∧
      replyOf (readdir asListed rootIno (afterRemoving "b").offset 1) (afterRemoving "b").mount =
        some [] ∧
      "a" ∈ (afterRemoving "b").mount.namesIn []) := by
  decide +kernel

/-- An entry removed behind the cursor hides another one. -/
theorem not_pagedReaddirComplete : ¬ PagedReaddirComplete := by
  intro h
  obtain ⟨⟨hpath, hdir⟩, ⟨hshown, hend, hlast, hnames⟩, -⟩ := removing_run
  have hedits : ∀ r ∈ removing "a", ∀ op ∈ r.edits,
      DirEdit (twoFiles.dirOf []).1 (twoFiles.dirOf []).2 op := by
    rw [hdir]
    simp [removing, DirEdit]
  have hcount := h _ twoFiles_reachable _ _ hpath _ hedits _ rfl _ 1 _ (by omega)
    (ok_of_replyOf hend) "b" (by decide) hshown (mem_namesIn.mp hlast)
  have hzero : ((afterRemoving "a").returned.map DirEntry.name).count "b" = 0 := by
    rw [hnames]
    decide
  exact absurd (hzero.symm.trans hcount) (by omega)

/-- An entry removed ahead of the cursor hides none. -/
theorem paged_readdir_complete_ahead :
    ((afterRemoving "b").returned.map DirEntry.name).count "a" = 1 := by
  obtain ⟨⟨hpath, -⟩, -, hkept, hshown, hend, hlast⟩ := removing_run
  refine paged_readdir_complete hpath _ hkept rfl (by omega) (ok_of_replyOf hend) (by decide) ?_
    hshown (mem_namesIn.mp hlast)
  exact fun hadds => absurd hadds.1 (by decide)

end BranchFs
