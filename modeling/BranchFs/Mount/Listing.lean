/-
# BranchFs.Mount.Listing -- listing and lookup agree

Every name a directory lists is a name `lookup` answers there, with the same number and type, and
every name `lookup` answers is listed, once. Left out are the names that are kept for the daemon: the
control file and the `@` names, where a tree shows an entry of that name, where the branch that the
directory belongs to is gone, and `@main`, which is answered and never listed.
-/
import BranchFs.Forest.Recursion
import BranchFs.Model.View
import BranchFs.Mount.Finalize

namespace BranchFs

open BranchFs.Posix BranchFs.Logic

/-! ## Requests that settle -/

/-- What a state of the mount still has in a later one, when it was only read in between. -/
structure Mount.Recalls (s s' : Mount) : Prop where
  manager : s'.manager = s.manager
  mountpoint : s'.mountpoint = s.mountpoint
  exposeControl : s'.exposeControl = s.exposeControl
  epoch : s.currentEpoch = s.manager.epoch → s'.currentEpoch = s.manager.epoch
  inode : ∀ path ino, s.inodes.getIno path = some ino → s'.inodes.getIno path = some ino
  control : ∀ branch ino, s.branchCtlInodes.lookup branch = some ino →
    s'.branchCtlInodes.lookup branch = some ino

namespace Mount.Recalls

variable {s t u : Mount}

theorem refl (s : Mount) : s.Recalls s := ⟨rfl, rfl, rfl, id, fun _ _ h => h, fun _ _ h => h⟩

theorem trans (h : s.Recalls t) (h' : t.Recalls u) : s.Recalls u where
  manager := h'.manager.trans h.manager
  mountpoint := h'.mountpoint.trans h.mountpoint
  exposeControl := h'.exposeControl.trans h.exposeControl
  epoch := fun he => by
    rw [← h.manager]
    exact h'.epoch (by rw [h.manager]; exact h.epoch he)
  inode := fun path ino hi => h'.inode path ino (h.inode path ino hi)
  control := fun branch ino hi => h'.control branch ino (h.control branch ino hi)

theorem branchName (h : s.Recalls t) : t.branchName = s.branchName := by
  unfold Mount.branchName
  rw [h.manager, h.mountpoint]

theorem resolveForBranch (h : s.Recalls t) (branch : String) (p : RelPath) :
    t.resolveForBranch branch p = s.resolveForBranch branch p := by
  unfold Mount.resolveForBranch
  rw [h.manager]

theorem getPath (h : s.Recalls t) {ino : Nat} {path : RelPath}
    (hpath : s.inodes.getPath ino = some path) : t.inodes.getPath ino = some path :=
  InodeManager.getPath_iff_getIno.mpr (h.inode path ino (InodeManager.getPath_iff_getIno.mp hpath))

end Mount.Recalls

/-- Once it has answered, the request answers the same from then on and changes nothing any more. -/
structure Settles {α : Type} (x : MountReq α) : Prop where
  answered : ∀ s a s', x s = .ok a s' → s.Recalls s' ∧ ∀ t, s'.Recalls t → x t = .ok a t
  failed : ∀ s e s', x s = .error e s' → s.Recalls s'

namespace Settles

variable {α β : Type}

theorem pure (a : α) : Settles (Pure.pure a : MountReq α) where
  answered := by
    intro s b s' h
    cases h
    exact ⟨Mount.Recalls.refl s, fun t _ => rfl⟩
  failed := by
    intro s e s' h
    cases h

theorem throw (e : Errno) : Settles (MonadExcept.throw e : MountReq α) where
  answered := by
    intro s a s' h
    cases h
  failed := by
    intro s e' s' h
    cases h
    exact Mount.Recalls.refl s

theorem bind {x : MountReq α} {f : α → MountReq β} (hx : Settles x) (hf : ∀ a, Settles (f a)) :
    Settles (x >>= f) where
  answered := by
    intro s b s' h
    obtain ⟨a, t, hxs, hft⟩ := bind_eq_ok h
    obtain ⟨hst, hagain⟩ := hx.answered s a t hxs
    obtain ⟨hts, hagain'⟩ := (hf a).answered t b s' hft
    refine ⟨hst.trans hts, fun u hu => ?_⟩
    rw [bind_ok (hagain u (hts.trans hu))]
    exact hagain' u hu
  failed := by
    intro s e s' h
    cases hxs : x s with
    | ok a t =>
      rw [bind_ok hxs] at h
      exact (hx.answered s a t hxs).1.trans ((hf a).failed t e s' h)
    | error e' t =>
      rw [bind_error hxs] at h
      cases h
      exact hx.failed s _ _ hxs

/-- A request that goes on with what the state says of the trees, the mount and its branch. -/
theorem get_bind {f : Mount → MountReq β} (hf : ∀ s, Settles (f s))
    (hcongr : ∀ s t, s.Recalls t → f t = f s) : Settles (get >>= f) where
  answered := by
    intro s b s' h
    have h : f s s = .ok b s' := h
    obtain ⟨hss, hagain⟩ := (hf s).answered s b s' h
    refine ⟨hss, fun u hu => ?_⟩
    show f u u = .ok b u
    rw [hcongr s u (hss.trans hu)]
    exact hagain u hu
  failed := fun s e s' h => (hf s).failed s e s' h

theorem failIf (c : Prop) [Decidable c] (e : Errno) : Settles (Logic.failIf c e : MountReq Unit) := by
  unfold Logic.failIf when
  split
  · exact throw e
  · exact pure _

end Settles

/-- The branch the mount shows is there. -/
def Mount.live (s : Mount) : Bool := s.manager.isBranchValid s.branchName

theorem Mount.Recalls.live {s t : Mount} (h : s.Recalls t) : t.live = s.live := by
  unfold Mount.live
  rw [h.branchName, h.manager]

theorem isStale_of_epoch {s : Mount} (h : s.currentEpoch = s.manager.epoch) :
    isStale s = .ok (!s.live) s := by
  unfold isStale
  rw [← h]
  rfl

theorem settles_failWhenStale : Settles failWhenStale := by
  refine Settles.bind ⟨?_, ?_⟩ fun stale => Settles.failIf _ _
  · intro s stale s' h
    cases h
    refine ⟨⟨rfl, rfl, rfl, fun _ => rfl, fun _ _ h => h, fun _ _ h => h⟩, fun t ht => ?_⟩
    have hepoch : t.currentEpoch = t.manager.epoch := by
      rw [ht.manager]
      exact ht.epoch rfl
    rw [isStale_of_epoch hepoch, ht.live]
    rfl
  · intro s e s' h
    cases h

theorem settles_needBranch (branch : String) : Settles (needBranch branch) where
  answered := by
    intro s a s' h
    unfold needBranch at h
    split at h
    · next hvalid =>
      cases h
      refine ⟨Mount.Recalls.refl s, fun t ht => ?_⟩
      rw [needBranch, ht.manager, if_pos hvalid]
    · cases h
  failed := by
    intro s e s' h
    unfold needBranch at h
    split at h
    · cases h
    · cases h
      exact Mount.Recalls.refl s

theorem settles_inodeFor (path : RelPath) (isDir : Bool) : Settles (inodeFor path isDir) where
  answered := by
    intro s ino s' h
    cases h
    refine ⟨⟨rfl, rfl, rfl, id, fun q i hq => InodeManager.getIno_getOrCreate_of_some hq,
      fun _ _ h => h⟩, fun t ht => ?_⟩
    have hknown := ht.inode path _ (InodeManager.getIno_getOrCreate s.inodes path isDir)
    unfold inodeFor
    rw [InodeManager.getOrCreate_of_some hknown]
    rfl
  failed := by
    intro s e s' h
    cases h

theorem settles_ctlInodeFor (branch : String) : Settles (ctlInodeFor branch) where
  answered := by
    intro s ino s' h
    have hknown : s.Recalls s' ∧ s'.branchCtlInodes.lookup branch = some ino := by
      unfold ctlInodeFor at h
      split at h
      · next hi =>
        cases h
        exact ⟨Mount.Recalls.refl s, hi⟩
      · next hnone =>
        cases h
        refine ⟨⟨rfl, rfl, rfl, id, fun _ _ h => h, fun b i hb => ?_⟩, by simp⟩
        have hne : b ≠ branch := by
          rintro rfl
          rw [hnone] at hb
          cases hb
        have hbeq : (b == branch) = false := by simpa using hne
        simpa [List.lookup_cons, hbeq] using hb
    refine ⟨hknown.1, fun t ht => ?_⟩
    unfold ctlInodeFor
    rw [ht.control branch ino hknown.2]
  failed := by
    intro s e s' h
    unfold ctlInodeFor at h
    split at h <;> cases h

theorem settles_listNames (branch : String) (rel inode : RelPath) (names : List String) :
    Settles (listNames branch rel inode names) := by
  induction names with
  | nil => exact Settles.pure _
  | cons name rest ih =>
    refine Settles.get_bind (fun s => ?_) fun s t h => ?_
    · cases s.resolveForBranch branch (rel ++ [name]) with
      | none => exact ih
      | some l => exact Settles.bind (settles_inodeFor _ _) fun _ => Settles.bind ih fun _ => Settles.pure _
    · rw [h.resolveForBranch, h.manager]

theorem settles_collectReaddirEntries (branch : String) (rel : RelPath) (ino : Nat)
    (inode : RelPath) : Settles (collectReaddirEntries branch rel ino inode) := by
  refine Settles.get_bind (fun s => ?_) fun s t h => by rw [h.manager]
  dsimp only
  split
  · exact Settles.pure _
  · exact Settles.bind (settles_listNames _ _ _ _) fun _ => Settles.pure _

theorem settles_listBranches (branches : List String) : Settles (listBranches branches) := by
  induction branches with
  | nil => exact Settles.pure _
  | cons branch rest ih =>
    unfold listBranches
    split
    · exact ih
    · exact Settles.bind (settles_inodeFor _ _) fun _ => Settles.bind ih fun _ => Settles.pure _

theorem settles_listRoot (order : MapOrder) (ino : Nat) : Settles (listRoot order ino) := by
  refine Settles.bind settles_failWhenStale fun _ => Settles.get_bind (fun s => ?_) fun s t h => ?_
  · refine Settles.bind (settles_collectReaddirEntries _ _ _ _) fun entries => ?_
    have hdone : ∀ virtual, Settles (do failWhenStale; pure (entries ++ virtual)) :=
      fun virtual => Settles.bind settles_failWhenStale fun _ => Settles.pure _
    dsimp only
    split
    · exact Settles.bind (settles_listBranches _) fun dirs =>
        Settles.bind (Settles.pure _) hdone
    · exact Settles.bind (Settles.pure _) hdone
  · rw [h.branchName, h.exposeControl, h.manager]

theorem settles_listInRoot (rel : RelPath) (ino : Nat) : Settles (listInRoot rel ino) := by
  refine Settles.bind settles_failWhenStale fun _ => Settles.get_bind (fun s => ?_) fun s t h => ?_
  · exact Settles.bind (settles_collectReaddirEntries _ _ _ _) fun entries =>
      Settles.bind settles_failWhenStale fun _ => Settles.pure _
  · rw [h.branchName]

theorem settles_listBranchDir (branch : String) (ino : Nat) :
    Settles (listBranchDir branch ino) := by
  refine Settles.bind (settles_needBranch _) fun _ => Settles.get_bind (fun s => ?_) fun s t h => ?_
  · refine Settles.bind (settles_collectReaddirEntries _ _ _ _) fun entries => ?_
    split
    · exact Settles.bind (settles_ctlInodeFor _) fun ctl => Settles.pure _
    · exact Settles.pure _
  · rw [h.exposeControl]

/-- What `readdir` does once it has the path of the directory. -/
def listAt (order : MapOrder) (path : RelPath) (ino : Nat) : MountReq (List DirEntry) :=
  match classifyPath path with
  | .branchDir branch => listBranchDir branch ino
  | .branchPath branch rel => listInBranch branch rel ino
  | .rootPath [] => listRoot order ino
  | .rootPath rel => listInRoot rel ino
  | .branchCtl _ => throw .ENOTDIR

theorem settles_listAt (order : MapOrder) (path : RelPath) (ino : Nat) :
    Settles (listAt order path ino) := by
  unfold listAt
  split
  · exact settles_listBranchDir _ _
  · exact Settles.bind (settles_needBranch _) fun _ => settles_collectReaddirEntries _ _ _ _
  · exact settles_listRoot _ _
  · exact settles_listInRoot _ _
  · exact Settles.throw _

theorem listDir_eq {order : MapOrder} {s : Mount} {ino : Nat} {path : RelPath}
    (h : s.inodes.getPath ino = some path) : listDir order ino s = listAt order path ino s := by
  have hpath : inodePath ino s = .ok path s := by
    unfold inodePath
    rw [h]
  unfold listDir
  rw [bind_ok (rfl : (get : MountReq Mount) s = .ok s s)]
  simp only [h, reduceCtorEq, false_and, if_false]
  rw [bind_ok hpath]
  rfl

/-! ## A complete reading -/

/-- The replies to a reading of the directory from `offset` on, page after page until one is empty. A
request that fails ends it with nothing more. -/
inductive ReadAll (order : MapOrder) (ino : Nat) :
    Nat → Mount → List DirEntry → Mount → Prop
  | done {offset room : Nat} {s s' : Mount} (hroom : 0 < room)
      (h : readdir order ino offset room s = .ok [] s') : ReadAll order ino offset s [] s'
  | page {offset room : Nat} {s t s' : Mount} {page rest : List DirEntry}
      (h : readdir order ino offset room s = .ok page t)
      (hrest : ReadAll order ino (offset + page.length) t rest s') :
      ReadAll order ino offset s (page ++ rest) s'
  | failed {offset room : Nat} {s s' : Mount} {e : Errno}
      (h : readdir order ino offset room s = .error e s') : ReadAll order ino offset s [] s'

section

variable {order : MapOrder} {ino : Nat} {path : RelPath} {s s' : Mount}

theorem readdir_of_ok (offset room : Nat) {entries : List DirEntry}
    (hpath : s.inodes.getPath ino = some path) (h : listAt order path ino s = .ok entries s') :
    readdir order ino offset room s = .ok ((entries.drop offset).take room) s' := by
  unfold readdir
  rw [bind_ok (listDir_eq hpath ▸ h)]
  rfl

theorem readdir_of_error {offset room : Nat} {e : Errno}
    (hpath : s.inodes.getPath ino = some path) (h : listAt order path ino s = .error e s') :
    readdir order ino offset room s = .error e s' := by
  unfold readdir
  rw [bind_error (listDir_eq hpath ▸ h)]

/-- The pages of a reading are the listing, cut up. -/
theorem readAll_of_ok {entries : List DirEntry} :
    ∀ {offset : Nat} {t u : Mount} {rest : List DirEntry}, ReadAll order ino offset t rest u →
      t.inodes.getPath ino = some path → listAt order path ino t = .ok entries s' →
      rest = entries.drop offset ∧ u = s' := by
  intro offset t u rest hread
  induction hread with
  | done hroom h =>
    intro hpath hlist
    rw [readdir_of_ok _ _ hpath hlist] at h
    obtain ⟨hnil, rfl⟩ := EStateM.Result.ok.inj h
    rcases List.take_eq_nil_iff.mp hnil with hzero | hdrop
    · omega
    · exact ⟨hdrop.symm, rfl⟩
  | @page offset room t t' u page rest h hrest ih =>
    intro hpath hlist
    rw [readdir_of_ok _ _ hpath hlist] at h
    cases h
    obtain ⟨hrec, hagain⟩ := (settles_listAt order path ino).answered _ _ _ hlist
    obtain ⟨hrest', hu⟩ := ih (hrec.getPath hpath) (hagain _ (Mount.Recalls.refl _))
    refine ⟨?_, hu⟩
    rw [hrest', ← List.drop_drop]
    have htake : ∀ l : List DirEntry, l.take room ++ l.drop (l.take room).length = l := by
      intro l
      rw [List.length_take]
      rcases Nat.le_total room l.length with hle | hle
      · rw [Nat.min_eq_left hle, List.take_append_drop]
      · rw [Nat.min_eq_right hle, List.drop_length, List.append_nil, List.take_of_length_le hle]
    exact htake _
  | failed h =>
    intro hpath hlist
    rw [readdir_of_ok _ _ hpath hlist] at h
    cases h

theorem readAll_of_error {e : Errno} {offset : Nat} {rest : List DirEntry} {u : Mount}
    (hread : ReadAll order ino offset s rest u) (hpath : s.inodes.getPath ino = some path)
    (hlist : listAt order path ino s = .error e s') : rest = [] ∧ u = s' := by
  cases hread with
  | done hroom h =>
    rw [readdir_of_error hpath hlist] at h
    cases h
  | page h hrest =>
    rw [readdir_of_error hpath hlist] at h
    cases h
  | failed h =>
    rw [readdir_of_error hpath hlist] at h
    cases h
    exact ⟨rfl, rfl⟩

end

/-! ## What a listing has of the tree -/

theorem resolveForBranch_eq (s : Mount) (branch : String) (p : RelPath) :
    s.resolveForBranch branch p = s.manager.resolved branch p := by
  unfold Mount.resolveForBranch Manager.resolvePath
  cases h : s.manager.forest.get? branch with
  | none => simp [Except.toOption, Manager.resolved_of_missing h]
  | some b => simp [Except.toOption]

theorem settles_replyEntry (branch : String) (rel inode : RelPath) :
    Settles (replyEntry branch rel inode) := by
  refine Settles.get_bind (fun s => ?_) fun s t h => by rw [h.resolveForBranch, h.manager]
  split
  · exact Settles.throw _
  · refine Settles.bind (settles_inodeFor _ _) fun ino => ?_
    split
    · exact Settles.pure _
    · exact Settles.throw _

theorem listedKind_isDir (d : Tree) (l : Place) :
    (listedKind d l == .directory) = (d.lkind l).any Kind.isDir := by
  unfold listedKind
  cases d.lkind l with
  | none => rfl
  | some k => cases k <;> rfl

/-- Both ways of telling the type of an entry that is there agree. -/
theorem attrKind_eq {d : Tree} {l : Place} (h : d.lkind l ≠ none) :
    Mount.attrKind d l = some (listedKind d l) := by
  unfold Mount.attrKind listedKind
  cases hk : d.lkind l with
  | none => exact absurd hk h
  | some k => cases k <;> rfl

section

variable {s s' t : Mount} {branch : String} {rel inode : RelPath} {ino : Nat}

/-- The reply for a path that resolves, once its number is known. -/
theorem replyEntry_known {path : RelPath} {l : Place}
    (hl : s.resolveForBranch branch rel = some l)
    (hino : inodeFor path (listedKind s.manager.disk l == .directory) s = .ok ino s) :
    replyEntry branch rel path s = .ok (ino, listedKind s.manager.disk l) s := by
  have hthere : s.manager.disk.lkind l ≠ none :=
    Manager.resolved_lkind (by rw [← resolveForBranch_eq]; exact hl)
  unfold replyEntry
  rw [bind_ok (rfl : (get : MountReq Mount) s = .ok s s)]
  simp only [hl]
  rw [← listedKind_isDir, bind_ok hino, attrKind_eq hthere]
  rfl

theorem resolves_of_replyEntry {path : RelPath} {r : Nat × FileType}
    (h : replyEntry branch rel path s = .ok r s') : s.resolveForBranch branch rel ≠ none := by
  intro hnone
  unfold replyEntry at h
  rw [bind_ok (rfl : (get : MountReq Mount) s = .ok s s)] at h
  simp only [hnone] at h
  cases h

/-- The entries have every name once that the tree shows in the directory, and `lookup` answers them. -/
structure Lists (t : Mount) (branch : String) (rel inode : RelPath) (entries : List DirEntry) :
    Prop where
  nodup : (entries.map DirEntry.name).Nodup
  all : ∀ n l, t.resolveForBranch branch (rel ++ [n]) = some l → n ∈ entries.map DirEntry.name
  answered : ∀ e ∈ entries,
    replyEntry branch (rel ++ [e.name]) (inode ++ [e.name]) t = .ok (e.ino, e.kind) t

theorem Lists.recalls {entries : List DirEntry} (h : Lists t branch rel inode entries)
    {u : Mount} (hu : t.Recalls u) : Lists u branch rel inode entries where
  nodup := h.nodup
  all := by
    intro n l hl
    rw [hu.resolveForBranch] at hl
    exact h.all n l hl
  answered := fun e he =>
    ((settles_replyEntry _ _ _).answered _ _ _ (h.answered e he)).2 u hu

/-- A listed name resolves. -/
theorem Lists.shown {entries : List DirEntry} (h : Lists t branch rel inode entries) {n : String}
    (hn : n ∈ entries.map DirEntry.name) : t.resolveForBranch branch (rel ++ [n]) ≠ none := by
  obtain ⟨e, he, rfl⟩ := List.mem_map.mp hn
  exact resolves_of_replyEntry (h.answered e he)

/-- The loop over the candidates: by induction, each candidate that resolves gets its number, which
the later passes leave. -/
theorem listNames_ok (branch : String) (rel inode : RelPath) (names : List String) :
    ∀ s : Mount, ∃ entries s',
    listNames branch rel inode names s = .ok entries s' ∧
      (entries.map DirEntry.name).Sublist names ∧
      (∀ n ∈ names, s'.resolveForBranch branch (rel ++ [n]) ≠ none →
        n ∈ entries.map DirEntry.name) ∧
      ∀ e ∈ entries,
        replyEntry branch (rel ++ [e.name]) (inode ++ [e.name]) s' = .ok (e.ino, e.kind) s' := by
  induction names with
  | nil => exact fun s => ⟨[], s, rfl, by simp, by simp, by simp⟩
  | cons name rest ih =>
    intro s
    cases hl : s.resolveForBranch branch (rel ++ [name]) with
    | none =>
      obtain ⟨entries, s', hrest, hsub, hall, hans⟩ := ih s
      refine ⟨entries, s', ?_, hsub.cons _, fun n hn hres => ?_, hans⟩
      · unfold listNames
        rw [bind_ok (rfl : (get : MountReq Mount) s = .ok s s)]
        simp only [hl]
        exact hrest
      · have hrec := ((settles_listNames _ _ _ _).answered _ _ _ hrest).1
        rcases List.mem_cons.mp hn with rfl | hn
        · rw [hrec.resolveForBranch, hl] at hres
          exact absurd rfl hres
        · exact hall n hn hres
    | some l =>
      obtain ⟨ino, s₁, hino⟩ : ∃ ino s₁, inodeFor (inode ++ [name])
          (listedKind s.manager.disk l == .directory) s = .ok ino s₁ := ⟨_, _, rfl⟩
      obtain ⟨hrec₁, hagain⟩ := (settles_inodeFor _ _).answered _ _ _ hino
      obtain ⟨entries, s', hrest, hsub, hall, hans⟩ := ih s₁
      have hrec := ((settles_listNames _ _ _ _).answered _ _ _ hrest).1
      refine ⟨⟨ino, listedKind s.manager.disk l, name⟩ :: entries, s', ?_, hsub.cons_cons _,
        fun n hn hres => ?_, fun e he => ?_⟩
      · unfold listNames
        rw [bind_ok (rfl : (get : MountReq Mount) s = .ok s s)]
        simp only [hl]
        rw [bind_ok hino, bind_ok hrest]
        rfl
      · rw [List.map_cons, List.mem_cons]
        rcases List.mem_cons.mp hn with rfl | hn
        · exact Or.inl rfl
        · exact Or.inr (hall n hn hres)
      · rcases List.mem_cons.mp he with rfl | he
        · have hdisk := (hrec₁.trans hrec).manager
          have hreply := replyEntry_known (s := s') (l := l)
            (by rw [(hrec₁.trans hrec).resolveForBranch]; exact hl)
            (by rw [hdisk]; exact hagain s' hrec)
          rw [hdisk] at hreply
          exact hreply
        · exact hans e he

/-- The entries `.` and `..`. -/
def dots (ino : Nat) : List DirEntry := [⟨ino, .directory, "."⟩, ⟨ino, .directory, ".."⟩]

theorem collectReaddirEntries_ok (rel inode : RelPath) (ino : Nat)
    (hvalid : s.manager.isBranchValid branch = true) :
    ∃ entries s', collectReaddirEntries branch rel ino inode s = .ok (dots ino ++ entries) s' ∧
      Lists s' branch rel inode entries := by
  obtain ⟨entries, s', hlist, hsub, hall, hans⟩ := listNames_ok branch rel inode
    ((s.manager.collected branch rel).insertionSort (· ≤ ·)) s
  have hrec := ((settles_listNames _ _ _ _).answered _ _ _ hlist).1
  refine ⟨entries, s', ?_, ?_, fun n l hl => ?_, hans⟩
  · have hnames : s.manager.collectDirNames branch rel = .ok (s.manager.collected branch rel) := by
      unfold Manager.collectDirNames
      obtain ⟨b, hb⟩ := Option.isSome_iff_exists.mp hvalid
      rw [hb]
    unfold collectReaddirEntries
    rw [bind_ok (rfl : (get : MountReq Mount) s = .ok s s)]
    simp only [hnames]
    rw [bind_ok hlist]
    rfl
  · exact hsub.nodup ((List.perm_insertionSort _ _).nodup_iff.mpr (Manager.collected_nodup _ _ _))
  · refine hall n ?_ (by simp [hl])
    rw [(List.perm_insertionSort _ _).mem_iff]
    rw [hrec.resolveForBranch, resolveForBranch_eq] at hl
    exact Manager.mem_collected.mpr (by rw [hl]; rfl)

end

/-! ## Agreement at a name -/

/-- `lookup` replies the entry. -/
def Mount.Answers (s : Mount) (ino : Nat) (name : String) (i : Nat) (kind : FileType) : Prop :=
  ∃ s', lookup ino name s = .ok (i, kind) s'

/-- The name is listed at most once, and as what `lookup` answers. -/
def AgreesAt (s : Mount) (ino : Nat) (entries : List DirEntry) (name : String) : Prop :=
  (entries.map DirEntry.name).count name ≤ 1 ∧
    ∀ i kind, s.Answers ino name i kind ↔ ⟨i, kind, name⟩ ∈ entries

section

variable {s t : Mount} {branch name : String} {rel inode : RelPath} {ino : Nat}
  {entries extra : List DirEntry}

theorem agreesAt_of (hcount : (entries.map DirEntry.name).count name ≤ 1)
    (hanswered : ∀ e ∈ entries, e.name = name → ∃ t', lookup ino name t = .ok (e.ino, e.kind) t')
    (hlisted : ∀ r t', lookup ino name t = .ok r t' → name ∈ entries.map DirEntry.name) :
    AgreesAt t ino entries name := by
  refine ⟨hcount, fun i kind => ⟨?_, fun he => hanswered _ he rfl⟩⟩
  rintro ⟨t', hans⟩
  obtain ⟨e, he, hname⟩ := List.mem_map.mp (hlisted _ _ hans)
  obtain ⟨t'', hans'⟩ := hanswered e he hname
  rw [hans] at hans'
  cases hans'
  subst hname
  exact he

/-- Where the directory cannot be read, `lookup` must not answer. -/
theorem agreesAt_nil (h : ∀ r t', lookup ino name t ≠ .ok r t') : AgreesAt t ino [] name :=
  agreesAt_of (by simp) (by simp) fun r t' hans => absurd hans (h r t')

theorem not_mem_dots (hdot : name ≠ "." ∧ name ≠ "..") (ino : Nat) :
    name ∉ (dots ino).map DirEntry.name := by
  simp [dots, hdot.1, hdot.2]

/-- A name that `lookup` looks for in the tree. -/
theorem agreesAt_tree (extra : List DirEntry) (h : Lists t branch rel inode entries)
    (hdot : name ≠ "." ∧ name ≠ "..")
    (hextra : name ∉ extra.map DirEntry.name)
    (hlookup : lookup ino name t = replyEntry branch (rel ++ [name]) (inode ++ [name]) t) :
    AgreesAt t ino (dots ino ++ entries ++ extra) name := by
  have hdots := not_mem_dots hdot ino
  apply agreesAt_of
  · rw [List.map_append, List.map_append, List.count_append, List.count_append,
      List.count_eq_zero_of_not_mem hdots, List.count_eq_zero_of_not_mem hextra]
    simpa using List.nodup_iff_count_le_one.mp h.nodup name
  · intro e he hname
    rcases List.mem_append.mp he with he | he
    · rcases List.mem_append.mp he with he | he
      · exact absurd (List.mem_map.mpr ⟨e, he, hname⟩) hdots
      · subst hname
        exact ⟨t, hlookup.trans (h.answered e he)⟩
    · exact absurd (List.mem_map.mpr ⟨e, he, hname⟩) hextra
  · intro r t' hans
    rw [hlookup] at hans
    obtain ⟨l, hl⟩ := Option.ne_none_iff_exists'.mp (resolves_of_replyEntry hans)
    rw [List.map_append, List.map_append]
    exact List.mem_append_left _ (List.mem_append_right _ (h.all name l hl))

/-- A name that the tree does not show. -/
theorem agreesAt_virtual (extra : List DirEntry) (h : Lists t branch rel inode entries)
    (hdot : name ≠ "." ∧ name ≠ "..")
    (hnone : t.resolveForBranch branch (rel ++ [name]) = none) (hextra : AgreesAt t ino extra name) :
    AgreesAt t ino (dots ino ++ entries ++ extra) name := by
  have hdots := not_mem_dots hdot ino
  have htree : name ∉ entries.map DirEntry.name := fun hn => h.shown hn hnone
  refine ⟨?_, fun i kind => (hextra.2 i kind).trans ?_⟩
  · rw [List.map_append, List.map_append, List.count_append, List.count_append,
      List.count_eq_zero_of_not_mem hdots, List.count_eq_zero_of_not_mem htree]
    simpa using hextra.1
  · refine ⟨fun he => List.mem_append_right _ he, fun he => ?_⟩
    rcases List.mem_append.mp he with he | he
    · rcases List.mem_append.mp he with he | he
      · exact absurd (List.mem_map.mpr ⟨_, he, rfl⟩) hdots
      · exact absurd (List.mem_map.mpr ⟨_, he, rfl⟩) htree
    · exact he

end

/-! ## Which names are kept for the daemon -/

/-- The branch a directory belongs to, and its path there. -/
def Mount.dirOf (s : Mount) (path : RelPath) : String × RelPath :=
  match classifyPath path with
  | .branchDir branch => (branch, [])
  | .branchPath branch rel => (branch, rel)
  | .branchCtl _ => (s.branchName, path)
  | .rootPath rel => (s.branchName, rel)

/-- What the tree of the directory resolves the name to. -/
def Mount.inTree (s : Mount) (path : RelPath) (name : String) : Option Place :=
  s.resolveForBranch (s.dirOf path).1 ((s.dirOf path).2 ++ [name])

/-- The branch of the directory is there. -/
def Mount.hasBranch (s : Mount) (path : RelPath) : Bool :=
  s.manager.isBranchValid (s.dirOf path).1

/-- The name is one of the daemon's in the directory, and the tree has an entry of that name, or the
branch of the directory is gone, or the name is `@main` in the mount root. -/
def Mount.Clashes (s : Mount) (path : RelPath) (name : String) : Prop :=
  match classifyPath path with
  | .rootPath [] => s.exposeControl = true ∧ (name = ctlFile ∨ (stripAt name).isSome = true) ∧
      (s.inTree path name ≠ none ∨ s.hasBranch path = false ∨ name = atName "main")
  | .rootPath _ => False
  | .branchDir _ => (s.exposeControl = true ∧ name = ctlFile ∧
      (s.inTree path name ≠ none ∨ s.hasBranch path = false)) ∨
      ((stripAt name).isSome = true ∧ s.inTree path name ≠ none)
  | .branchPath _ _ => (stripAt name).isSome = true ∧ s.inTree path name ≠ none
  | .branchCtl _ => s.inTree path name ≠ none

theorem Mount.Recalls.dirOf {s t : Mount} (h : s.Recalls t) (path : RelPath) :
    t.dirOf path = s.dirOf path := by
  unfold Mount.dirOf
  rw [h.branchName]

theorem Mount.Recalls.inTree {s t : Mount} (h : s.Recalls t) (path : RelPath) (name : String) :
    t.inTree path name = s.inTree path name := by
  unfold Mount.inTree
  rw [h.dirOf, h.resolveForBranch]

theorem stripAt_atName (branch : String) : stripAt (atName branch) = some branch := by
  simp [stripAt, atName]

theorem atName_of_stripAt {name branch : String} (h : stripAt name = some branch) :
    name = atName branch := by
  unfold stripAt at h
  split at h
  · next rest hname =>
    cases h
    apply String.toList_injective
    simp [atName, hname]
  · cases h

theorem atName_ne_ctlFile (branch : String) : atName branch ≠ ctlFile := by
  intro h
  have := congrArg stripAt h
  rw [stripAt_atName, show stripAt ctlFile = none by decide] at this
  cases this

theorem classifyPath_rootPath {path rel : RelPath} (h : classifyPath path = .rootPath rel) :
    path = rel := by
  unfold classifyPath at h
  split at h
  · cases h
    rfl
  · split at h
    · cases h
      rfl
    · split at h
      · cases h
      · split at h <;> cases h

theorem ne_nil_of_classifyPath {path : RelPath} (h : ∀ rel, classifyPath path ≠ .rootPath rel) :
    path ≠ [] := by
  rintro rfl
  exact h [] rfl

/-! ## The contexts -/

section

variable {s s' t : Mount} {branch name : String} {path rel : RelPath} {ino : Nat}

/-- A live mount takes the check, and takes it from then on. -/
theorem failWhenStale_live (h : s.live = true) : ∃ t, failWhenStale s = .ok () t ∧ s.Recalls t ∧
    ∀ u, t.Recalls u → failWhenStale u = .ok () u := by
  have hok : failWhenStale s = .ok () { s with currentEpoch := s.manager.epoch } := by
    unfold failWhenStale
    rw [bind_ok (rfl : isStale s = .ok _ _)]
    exact failIf_ok (by simpa [Mount.live] using h) _ _
  exact ⟨_, hok, settles_failWhenStale.answered _ _ _ hok⟩

theorem failWhenStale_gone (h : s.live = false) :
    ∃ t, failWhenStale s = .error .ESTALE t ∧ s.Recalls t := by
  have herror : failWhenStale s = .error .ESTALE { s with currentEpoch := s.manager.epoch } := by
    unfold failWhenStale
    rw [bind_ok (rfl : isStale s = .ok _ _)]
    exact failIf_error (by simpa [Mount.live] using h) _ _
  exact ⟨_, herror, settles_failWhenStale.failed _ _ _ herror⟩

theorem needBranch_ok (h : s.manager.isBranchValid branch = true) : needBranch branch s = .ok () s :=
  if_pos h

theorem needBranch_error (h : s.manager.isBranchValid branch = false) :
    needBranch branch s = .error .ENOENT s := if_neg (by simp [h])

/-- `lookup` in the directory of a known path. -/
theorem lookup_eq (hpath : s.inodes.getPath ino = some path) : lookup ino name s =
    if path = [] then lookupAtRoot name s
    else
      match classifyPath path with
      | .branchDir branch => lookupInBranch branch [] name s
      | .branchPath branch rel => lookupInBranch branch rel name s
      | _ => lookupInRoot path name s := by
  have hino : inodePath ino s = .ok path s := by
    unfold inodePath
    rw [hpath]
  unfold lookup
  rw [bind_ok hino]
  split
  · rfl
  · cases classifyPath path <;> rfl

theorem lookupInRoot_live (h : failWhenStale s = .ok () s) : lookupInRoot path name s =
    replyEntry s.branchName (path ++ [name]) (path ++ [name]) s := by
  unfold lookupInRoot
  rw [bind_ok h]
  rfl

theorem lookupInRoot_gone (h : s.live = false) (r : Nat × FileType) (t : Mount) :
    lookupInRoot path name s ≠ .ok r t := by
  obtain ⟨u, herror, -⟩ := failWhenStale_gone h
  unfold lookupInRoot
  rw [bind_error herror]
  exact fun heq => by cases heq

theorem lookupInBranch_valid (hctl : ¬ (s.exposeControl = true ∧ rel = [] ∧ name = ctlFile))
    (hat : stripAt name = none) (h : s.manager.isBranchValid branch = true) :
    lookupInBranch branch rel name s =
      replyEntry branch (rel ++ [name]) (atName branch :: rel ++ [name]) s := by
  unfold lookupInBranch
  rw [bind_ok (rfl : (get : MountReq Mount) s = .ok s s)]
  simp only [hctl, if_false, hat, Option.isSome_none, Bool.false_eq_true]
  rw [bind_ok (needBranch_ok h)]

/-- No name of the daemon is answered below a branch, and none at all when it is gone. -/
theorem lookupInBranch_none (hctl : ¬ (s.exposeControl = true ∧ rel = [] ∧ name = ctlFile))
    (h : (stripAt name).isSome = true ∨ s.manager.isBranchValid branch = false)
    (r : Nat × FileType) : lookupInBranch branch rel name s ≠ .ok r t := by
  unfold lookupInBranch
  rw [bind_ok (rfl : (get : MountReq Mount) s = .ok s s)]
  simp only [hctl, if_false]
  split
  · exact fun heq => by cases heq
  · next hat =>
    rw [bind_error (needBranch_error (h.resolve_left hat))]
    exact fun heq => by cases heq

/-- The names the agreement is about: not kept for the daemon. -/
structure Plain (s : Mount) (path : RelPath) (name : String) : Prop where
  dot : name ≠ "." ∧ name ≠ ".."
  clash : ¬ s.Clashes path name

/-- However the listing ends, it agrees with `lookup` in the state it leaves. -/
def ListingFits (order : MapOrder) (path : RelPath) (ino : Nat) (s : Mount) : Prop :=
  (∃ entries t, listAt order path ino s = .ok entries t ∧
    ∀ name, Plain s path name → AgreesAt t ino entries name) ∨
  ∃ e t, listAt order path ino s = .error e t ∧ ∀ name, Plain s path name → AgreesAt t ino [] name

/-- A directory of the mount's own branch, other than the root. -/
theorem listInRoot_fits {order : MapOrder} (hne : rel ≠ []) (hclass : classifyPath rel = .rootPath rel)
    (hpath : s.inodes.getPath ino = some rel) : ListingFits order rel ino s := by
  have hlook : ∀ t : Mount, s.Recalls t → ∀ name, lookup ino name t = lookupInRoot rel name t := by
    intro t ht name
    rw [lookup_eq (ht.getPath hpath), if_neg hne, hclass]
  have hlist : listAt order rel ino = listInRoot rel ino := by
    unfold listAt
    rw [hclass]
    cases rel with
    | nil => exact absurd rfl hne
    | cons n rest => rfl
  unfold ListingFits
  rw [hlist]
  cases hlive : s.live with
  | false =>
    right
    obtain ⟨t, hfail, hrec⟩ := failWhenStale_gone hlive
    refine ⟨.ESTALE, t, ?_, fun name _ => agreesAt_nil fun r t' => ?_⟩
    · unfold listInRoot
      rw [bind_error hfail]
    · rw [hlook t hrec]
      exact lookupInRoot_gone (hrec.live.trans hlive) r t'
  | true =>
    left
    obtain ⟨s₁, hfresh, hrec₁, hagain⟩ := failWhenStale_live hlive
    obtain ⟨entries, t, hnames, hlists⟩ := collectReaddirEntries_ok (s := s₁)
      rel rel ino (hrec₁.live.trans hlive)
    have hrec₂ := ((settles_collectReaddirEntries _ _ _ _).answered _ _ _ hnames).1
    have hrec := hrec₁.trans hrec₂
    refine ⟨dots ino ++ entries, t, ?_, fun name hplain => ?_⟩
    · unfold listInRoot
      rw [bind_ok hfresh, bind_ok (rfl : (get : MountReq Mount) s₁ = .ok s₁ s₁), bind_ok hnames,
        bind_ok (hagain t hrec₂)]
      rfl
    · have hlookup : lookup ino name t =
          replyEntry s₁.branchName (rel ++ [name]) (rel ++ [name]) t := by
        rw [hlook t hrec, lookupInRoot_live (hagain t hrec₂), hrec₂.branchName]
      simpa using agreesAt_tree [] hlists hplain.dot (by simp) hlookup

/-- A directory below the directory of a branch. -/
theorem listInBranch_fits {order : MapOrder} (hclass : classifyPath path = .branchPath branch rel)
    (hcons : path = atName branch :: rel) (hrel : rel ≠ [])
    (hpath : s.inodes.getPath ino = some path) : ListingFits order path ino s := by
  have hlook : ∀ t : Mount, s.Recalls t → ∀ name,
      lookup ino name t = lookupInBranch branch rel name t := by
    intro t ht name
    rw [lookup_eq (ht.getPath hpath), if_neg (by rw [hcons]; simp), hclass]
  have hlist : listAt order path ino = listInBranch branch rel ino := by
    unfold listAt
    rw [hclass]
  have hdir : s.dirOf path = (branch, rel) := by
    unfold Mount.dirOf
    rw [hclass]
  have hctl : ∀ (t : Mount) (name : String),
      ¬ (t.exposeControl = true ∧ rel = [] ∧ name = ctlFile) := fun t name h => hrel h.2.1
  unfold ListingFits
  rw [hlist]
  cases hvalid : s.manager.isBranchValid branch with
  | false =>
    right
    refine ⟨.ENOENT, s, ?_, fun name _ => agreesAt_nil fun r t' => ?_⟩
    · unfold listInBranch
      rw [bind_error (needBranch_error hvalid)]
    · rw [hlook s (.refl s)]
      exact lookupInBranch_none (hctl s name) (Or.inr hvalid) r
  | true =>
    left
    obtain ⟨entries, t, hnames, hlists⟩ := collectReaddirEntries_ok rel
      (atName branch :: rel) ino hvalid
    have hrec := ((settles_collectReaddirEntries _ _ _ _).answered _ _ _ hnames).1
    have hvalid' : t.manager.isBranchValid branch = true := by rw [hrec.manager, hvalid]
    refine ⟨dots ino ++ entries, t, ?_, fun name hplain => ?_⟩
    · unfold listInBranch
      rw [bind_ok (needBranch_ok hvalid)]
      exact hnames
    · cases hat : stripAt name with
      | none =>
        have hlookup := (hlook t hrec name).trans (lookupInBranch_valid (hctl t name) hat hvalid')
        simpa using agreesAt_tree [] hlists hplain.dot (by simp) hlookup
      | some b =>
        -- a name with an `@` is refused, so the tree must not show it
        have hnone : s.inTree path name = none := by
          by_contra hsome
          refine hplain.clash ?_
          unfold Mount.Clashes
          rw [hclass]
          exact ⟨by simp [hat], hsome⟩
        have hnone' : t.resolveForBranch branch (rel ++ [name]) = none := by
          rw [hrec.resolveForBranch]
          simpa [Mount.inTree, hdir] using hnone
        simpa using agreesAt_virtual [] hlists hplain.dot hnone'
          (agreesAt_nil fun r t' => by
            rw [hlook t hrec]
            exact lookupInBranch_none (hctl t name) (Or.inl (by simp [hat])) r)

/-- The directory of a branch. -/
theorem listBranchDir_fits {order : MapOrder} (hclass : classifyPath path = .branchDir branch)
    (hcons : path = [atName branch]) (hpath : s.inodes.getPath ino = some path) :
    ListingFits order path ino s := by
  have hlook : ∀ t : Mount, s.Recalls t → ∀ name,
      lookup ino name t = lookupInBranch branch [] name t := by
    intro t ht name
    rw [lookup_eq (ht.getPath hpath), if_neg (by rw [hcons]; simp), hclass]
  have hlist : listAt order path ino = listBranchDir branch ino := by
    unfold listAt
    rw [hclass]
  have hdir : s.dirOf path = (branch, []) := by
    unfold Mount.dirOf
    rw [hclass]
  have hclash : ∀ name, s.Clashes path name ↔ (s.exposeControl = true ∧ name = ctlFile ∧
      (s.inTree path name ≠ none ∨ s.hasBranch path = false)) ∨
      ((stripAt name).isSome = true ∧ s.inTree path name ≠ none) := by
    intro name
    unfold Mount.Clashes
    rw [hclass]
  unfold ListingFits
  rw [hlist]
  cases hvalid : s.manager.isBranchValid branch with
  | false =>
    right
    refine ⟨.ENOENT, s, ?_, fun name hplain => agreesAt_nil fun r t' => ?_⟩
    · unfold listBranchDir
      rw [bind_error (needBranch_error hvalid)]
    · rw [hlook s (.refl s)]
      refine lookupInBranch_none (fun hctl => hplain.clash ?_) (Or.inr hvalid) r
      exact (hclash name).mpr (Or.inl ⟨hctl.1, hctl.2.2, Or.inr (by simp [Mount.hasBranch, hdir,
        hvalid])⟩)
  | true =>
    left
    obtain ⟨entries, s₁, hnames, hlists₁⟩ := collectReaddirEntries_ok []
      [atName branch] ino hvalid
    have hrec₁ := ((settles_collectReaddirEntries _ _ _ _).answered _ _ _ hnames).1
    -- the control file comes last, when there is one
    obtain ⟨extra, t, hextra, hrec₂, hctl⟩ : ∃ extra t,
        listBranchDir branch ino s = .ok (dots ino ++ entries ++ extra) t ∧ s₁.Recalls t ∧
        ((s.exposeControl = true ∧ ∃ ctl, extra = [⟨ctl, .regularFile, ctlFile⟩] ∧
          ctlInodeFor branch t = .ok ctl t) ∨ s.exposeControl = false ∧ extra = []) := by
      unfold listBranchDir
      rw [bind_ok (needBranch_ok hvalid), bind_ok (rfl : (get : MountReq Mount) s = .ok s s),
        bind_ok hnames]
      cases hexp : s.exposeControl with
      | false => exact ⟨[], s₁, by simp [Pure.pure, EStateM.pure], .refl s₁, Or.inr ⟨rfl, rfl⟩⟩
      | true =>
        obtain ⟨ctl, t, hc⟩ : ∃ ctl t, ctlInodeFor branch s₁ = .ok ctl t := by
          unfold ctlInodeFor
          split <;> exact ⟨_, _, rfl⟩
        obtain ⟨hrec, hagain⟩ := (settles_ctlInodeFor branch).answered _ _ _ hc
        refine ⟨_, t, ?_, hrec, Or.inl ⟨rfl, ctl, rfl, hagain t (.refl t)⟩⟩
        simp only [if_true]
        rw [bind_ok hc]
        rfl
    have hrec := hrec₁.trans hrec₂
    have hlists := hlists₁.recalls hrec₂
    have hvalid' : t.manager.isBranchValid branch = true := by rw [hrec.manager, hvalid]
    refine ⟨_, t, hextra, fun name hplain => ?_⟩
    have hnone' : s.inTree path name = none → t.resolveForBranch branch ([] ++ [name]) = none := by
      intro hnone
      rw [hrec.resolveForBranch]
      simpa [Mount.inTree, hdir] using hnone
    by_cases hname : s.exposeControl = true ∧ name = ctlFile
    · -- the control file itself
      obtain ⟨hexp, rfl⟩ := hname
      obtain ⟨ctl, rfl, hc⟩ : ∃ ctl, extra = [⟨ctl, .regularFile, ctlFile⟩] ∧
          ctlInodeFor branch t = .ok ctl t := by
        rcases hctl with ⟨-, h⟩ | ⟨h, -⟩
        · exact h
        · rw [hexp] at h
          cases h
      have hnone : s.inTree path ctlFile = none := by
        by_contra hsome
        exact hplain.clash ((hclash _).mpr (Or.inl ⟨hexp, rfl, Or.inl hsome⟩))
      refine agreesAt_virtual _ hlists hplain.dot (hnone' hnone) ?_
      have hlookup : lookup ino ctlFile t = .ok (ctl, .regularFile) t := by
        rw [hlook t hrec]
        unfold lookupInBranch
        rw [bind_ok (rfl : (get : MountReq Mount) t = .ok t t), hrec.exposeControl]
        simp only [hexp, and_self, if_true]
        rw [bind_ok hc]
        rfl
      refine agreesAt_of (by simp) (fun e he _ => ?_) fun r t' _ => by simp
      rw [List.mem_singleton.mp he]
      exact ⟨t, hlookup⟩
    · have hno : ¬ (t.exposeControl = true ∧ ([] : RelPath) = [] ∧ name = ctlFile) := by
        rintro ⟨hexp, -, rfl⟩
        exact hname ⟨hrec.exposeControl ▸ hexp, rfl⟩
      have hout : name ∉ extra.map DirEntry.name := by
        rcases hctl with ⟨hexp, ctl, rfl, -⟩ | ⟨-, rfl⟩
        · simp only [List.map_cons, List.map_nil, List.mem_singleton]
          exact fun heq => hname ⟨hexp, heq⟩
        · simp
      cases hat : stripAt name with
      | none =>
        exact agreesAt_tree _ hlists hplain.dot hout
          ((hlook t hrec name).trans (lookupInBranch_valid hno hat hvalid'))
      | some b =>
        have hnone : s.inTree path name = none := by
          by_contra hsome
          exact hplain.clash ((hclash _).mpr (Or.inr ⟨by simp [hat], hsome⟩))
        refine agreesAt_virtual _ hlists hplain.dot (hnone' hnone) ?_
        refine agreesAt_of (by rw [List.count_eq_zero_of_not_mem hout]; exact Nat.zero_le 1)
          (fun e he hn => absurd (List.mem_map.mpr ⟨e, he, hn⟩) hout) fun r t' hans => ?_
        rw [hlook t hrec] at hans
        exact absurd hans (lookupInBranch_none hno (Or.inl (by simp [hat])) r)

/-- The control file of a branch is no directory to `readdir`; below it `lookup` finds what the mount's
own branch has there. -/
theorem branchCtl_fits {order : MapOrder} (hclass : classifyPath path = .branchCtl branch)
    (hcons : path ≠ []) (hpath : s.inodes.getPath ino = some path) :
    ListingFits order path ino s := by
  right
  refine ⟨.ENOTDIR, s, ?_, fun name hplain => agreesAt_nil fun r t' hans => ?_⟩
  · unfold listAt
    rw [hclass]
    rfl
  · rw [lookup_eq hpath, if_neg hcons, hclass] at hans
    have hans : lookupInRoot path name s = .ok r t' := hans
    cases hlive : s.live with
    | false => exact lookupInRoot_gone hlive r t' hans
    | true =>
      obtain ⟨s₁, hfresh, hrec, -⟩ := failWhenStale_live hlive
      unfold lookupInRoot at hans
      rw [bind_ok hfresh, bind_ok (rfl : (get : MountReq Mount) s₁ = .ok s₁ s₁)] at hans
      have hsome := resolves_of_replyEntry hans
      apply hplain.clash
      unfold Mount.Clashes
      rw [hclass]
      show s.inTree path name ≠ none
      unfold Mount.inTree Mount.dirOf
      rw [hclass, ← hrec.branchName, ← hrec.resolveForBranch]
      exact hsome

/-! ### The mount root -/

theorem lookupAtRoot_plain
    (h : ¬ (s.exposeControl = true ∧ (name = ctlFile ∨ (stripAt name).isSome = true))) :
    lookupAtRoot name s = lookupInRoot [] name s := by
  unfold lookupAtRoot
  rw [bind_ok (rfl : (get : MountReq Mount) s = .ok s s)]
  rw [if_neg fun hctl => h ⟨hctl.1, Or.inl hctl.2⟩]
  cases hexp : s.exposeControl with
  | false => rfl
  | true =>
    cases hat : stripAt name with
    | none => rfl
    | some b => exact absurd ⟨hexp, Or.inr (by simp [hat])⟩ h

theorem lookupAtRoot_ctl (hexp : s.exposeControl = true) :
    lookupAtRoot ctlFile s = .ok (ctlIno, .regularFile) s := by
  unfold lookupAtRoot
  rw [bind_ok (rfl : (get : MountReq Mount) s = .ok s s), if_pos ⟨hexp, rfl⟩]
  rfl

theorem lookupAtRoot_at (hexp : s.exposeControl = true) (branch : String) :
    lookupAtRoot (atName branch) s =
      (do
        needBranch branch
        let ino ← inodeFor [atName branch] true
        pure (ino, FileType.directory)) s := by
  unfold lookupAtRoot
  rw [bind_ok (rfl : (get : MountReq Mount) s = .ok s s),
    if_neg fun hctl => atName_ne_ctlFile branch hctl.2]
  simp only [hexp, if_true, stripAt_atName]

/-- The virtual directories that are listed. -/
theorem listBranches_ok (branches : List String) : ∀ s : Mount, ∃ dirs t,
    listBranches branches s = .ok dirs t ∧
      dirs.map DirEntry.name = (branches.filter (· ≠ "main")).map atName ∧
      ∀ e ∈ dirs, e.kind = .directory ∧ inodeFor [e.name] true t = .ok e.ino t := by
  induction branches with
  | nil => exact fun s => ⟨[], s, rfl, rfl, by simp⟩
  | cons branch rest ih =>
    intro s
    unfold listBranches
    by_cases hmain : branch = "main"
    · obtain ⟨dirs, t, hlist, hnames, hdirs⟩ := ih s
      exact ⟨dirs, t, by rw [if_pos hmain]; exact hlist, by simp [hmain, hnames], hdirs⟩
    · obtain ⟨ino, s₁, hino⟩ : ∃ ino s₁, inodeFor [atName branch] true s = .ok ino s₁ :=
        ⟨_, _, rfl⟩
      obtain ⟨dirs, t, hlist, hnames, hdirs⟩ := ih s₁
      have hrec := ((settles_listBranches rest).answered _ _ _ hlist).1
      refine ⟨⟨ino, .directory, atName branch⟩ :: dirs, t, ?_, by simp [hmain, hnames], ?_⟩
      · rw [if_neg hmain, bind_ok hino, bind_ok hlist]
        rfl
      · intro e he
        rcases List.mem_cons.mp he with rfl | he
        · exact ⟨rfl, ((settles_inodeFor _ _).answered _ _ _ hino).2 t hrec⟩
        · exact hdirs e he

theorem isBranchValid_iff {m : Manager} {branch : String} :
    m.isBranchValid branch = true ↔ branch ∈ m.forest.list.map Branch.name := by
  unfold Manager.isBranchValid
  rw [Option.isSome_iff_ne_none, Ne, Forest.get?_eq_none, not_not]

/-- The virtual directories of the mount root: every branch but `main`, with the number `lookup`
answers. -/
structure VirtualDirs (s : Mount) (dirs : List DirEntry) : Prop where
  names : (dirs.map DirEntry.name).Perm
    (((s.manager.forest.list.map Branch.name).filter (· ≠ "main")).map atName)
  answered : ∀ e ∈ dirs, e.kind = .directory ∧ inodeFor [e.name] true s = .ok e.ino s

/-- The entry of the control file in the mount root. -/
def ctlEntry : DirEntry := ⟨ctlIno, .regularFile, ctlFile⟩

theorem VirtualDirs.mem_at {dirs : List DirEntry} (h : VirtualDirs s dirs) :
    atName branch ∈ dirs.map DirEntry.name ↔
      s.manager.isBranchValid branch = true ∧ branch ≠ "main" := by
  rw [h.names.mem_iff, isBranchValid_iff]
  constructor
  · intro hmem
    obtain ⟨b, hb, heq⟩ := List.mem_map.mp hmem
    rw [← atName_injective heq]
    simpa using List.mem_filter.mp hb
  · rintro ⟨hmem, hmain⟩
    exact List.mem_map_of_mem (List.mem_filter.mpr ⟨hmem, by simpa using hmain⟩)

theorem VirtualDirs.exists_atName {dirs : List DirEntry} (h : VirtualDirs s dirs)
    (hname : name ∈ dirs.map DirEntry.name) : ∃ b, name = atName b := by
  rw [h.names.mem_iff] at hname
  obtain ⟨b, -, hb⟩ := List.mem_map.mp hname
  exact ⟨b, hb.symm⟩

/-- The control file and the virtual directories have different names. -/
theorem VirtualDirs.nodup {dirs : List DirEntry} (h : VirtualDirs s dirs) :
    ((ctlEntry :: dirs).map DirEntry.name).Nodup := by
  rw [List.map_cons, List.nodup_cons]
  refine ⟨fun hmem => ?_, ?_⟩
  · obtain ⟨b, hb⟩ := h.exists_atName hmem
    exact atName_ne_ctlFile b hb.symm
  · rw [h.names.nodup_iff]
    exact (s.manager.forest.grown.nodup.filter _).map fun b c => atName_injective

/-- At the names kept for the daemon, other than `@main`, the virtual entries are what `lookup`
answers. -/
theorem VirtualDirs.agreesAt {dirs : List DirEntry} (h : VirtualDirs s dirs)
    (hexp : s.exposeControl = true) (hlook : lookup ino name s = lookupAtRoot name s)
    (hname : name = ctlFile ∨ (stripAt name).isSome = true) (hmain : name ≠ atName "main") :
    AgreesAt s ino (ctlEntry :: dirs) name := by
  refine agreesAt_of (List.nodup_iff_count_le_one.mp h.nodup name) ?_ ?_
  · intro e he hen
    refine ⟨s, ?_⟩
    rw [hlook]
    rcases List.mem_cons.mp he with rfl | he
    · rw [← hen]
      exact lookupAtRoot_ctl hexp
    · have hmem := List.mem_map.mpr ⟨e, he, hen⟩
      obtain ⟨b, rfl⟩ := h.exists_atName hmem
      obtain ⟨hkind, hino⟩ := h.answered e he
      rw [lookupAtRoot_at hexp, bind_ok (needBranch_ok (h.mem_at.mp hmem).1), ← hen, bind_ok hino,
        hkind]
      rfl
  · intro r t' hans
    rw [hlook] at hans
    rw [List.map_cons, List.mem_cons]
    rcases hname with rfl | hat
    · exact Or.inl rfl
    · obtain ⟨b, hb⟩ := Option.isSome_iff_exists.mp hat
      obtain rfl := atName_of_stripAt hb
      rw [lookupAtRoot_at hexp] at hans
      cases hvalid : s.manager.isBranchValid b with
      | false =>
        rw [bind_error (needBranch_error hvalid)] at hans
        cases hans
      | true => exact Or.inr (h.mem_at.mpr ⟨hvalid, fun heq => hmain (by rw [heq])⟩)

/-- What the mount root lists when its branch is there. -/
theorem listRoot_ok (order : MapOrder) (ino : Nat) (hlive : s.live = true) : ∃ entries extra t,
    listRoot order ino s = .ok (dots ino ++ entries ++ extra) t ∧ s.Recalls t ∧
      Lists t s.branchName [] [] entries ∧ failWhenStale t = .ok () t ∧
      (if s.exposeControl then ∃ dirs, extra = ctlEntry :: dirs ∧ VirtualDirs t dirs
        else extra = []) := by
  obtain ⟨s₁, hfresh, hrec₁, hagain⟩ := failWhenStale_live hlive
  obtain ⟨entries, s₂, hnames, hlists⟩ := collectReaddirEntries_ok (s := s₁)
    [] [] ino (hrec₁.live.trans hlive)
  have hrec₂ := ((settles_collectReaddirEntries _ _ _ _).answered _ _ _ hnames).1
  rw [hrec₁.branchName] at hlists
  unfold listRoot
  rw [bind_ok hfresh, bind_ok (rfl : (get : MountReq Mount) s₁ = .ok s₁ s₁), bind_ok hnames,
    ← hrec₁.exposeControl]
  cases hexp : s₁.exposeControl with
  | false =>
    refine ⟨entries, [], s₂, ?_, hrec₁.trans hrec₂, hlists, hagain s₂ hrec₂, by simp⟩
    simp only [Bool.false_eq_true, if_false]
    show (failWhenStale >>= fun _ => pure (dots ino ++ entries ++ [])) s₂ = _
    rw [bind_ok (hagain s₂ hrec₂)]
    rfl
  | true =>
    obtain ⟨dirs, t, hdirs, hdirnames, hanswered⟩ :=
      listBranches_ok (order.iter (s₁.manager.forest.list.map Branch.name)) s₂
    have hrec₃ := ((settles_listBranches _).answered _ _ _ hdirs).1
    refine ⟨entries, ctlEntry :: dirs, t, ?_, (hrec₁.trans hrec₂).trans hrec₃,
      hlists.recalls hrec₃, hagain t (hrec₂.trans hrec₃), ?_⟩
    · simp only [if_true]
      rw [bind_ok hdirs]
      show (failWhenStale >>= fun _ => pure (dots ino ++ entries ++ ctlEntry :: dirs)) t = _
      rw [bind_ok (hagain t (hrec₂.trans hrec₃))]
      rfl
    · simp only [if_true]
      refine ⟨dirs, rfl, ?_, hanswered⟩
      rw [hdirnames, (hrec₂.trans hrec₃).manager]
      exact ((order.perm _).filter _).map _

/-- The mount root. -/
theorem listRoot_fits {order : MapOrder} (hpath : s.inodes.getPath ino = some []) :
    ListingFits order [] ino s := by
  have hlook : ∀ t : Mount, s.Recalls t → ∀ name, lookup ino name t = lookupAtRoot name t := by
    intro t ht name
    rw [lookup_eq (ht.getPath hpath), if_pos rfl]
  have hclash : ∀ name, s.Clashes [] name ↔ s.exposeControl = true ∧
      (name = ctlFile ∨ (stripAt name).isSome = true) ∧
      (s.inTree [] name ≠ none ∨ s.hasBranch [] = false ∨ name = atName "main") :=
    fun name => Iff.rfl
  unfold ListingFits
  rw [show listAt order [] ino = listRoot order ino from rfl]
  cases hlive : s.live with
  | false =>
    right
    obtain ⟨t, hfail, hrec⟩ := failWhenStale_gone hlive
    refine ⟨.ESTALE, t, ?_, fun name hplain => agreesAt_nil fun r t' => ?_⟩
    · unfold listRoot
      rw [bind_error hfail]
    · rw [hlook t hrec, lookupAtRoot_plain]
      · exact lookupInRoot_gone (hrec.live.trans hlive) r t'
      · rintro ⟨hexp, hname⟩
        exact hplain.clash ((hclash name).mpr ⟨hrec.exposeControl ▸ hexp, hname,
          Or.inr (Or.inl hlive)⟩)
  | true =>
    left
    obtain ⟨entries, extra, t, hlist, hrec, hlists, hagain, hextra⟩ := listRoot_ok order ino hlive
    refine ⟨_, t, hlist, fun name hplain => ?_⟩
    by_cases hname : s.exposeControl = true ∧ (name = ctlFile ∨ (stripAt name).isSome = true)
    · -- one of the daemon's names, which the tree does not show
      rw [if_pos hname.1] at hextra
      obtain ⟨dirs, rfl, hdirs⟩ := hextra
      have hfree : s.inTree [] name = none ∧ name ≠ atName "main" := by
        constructor
        · by_contra hsome
          exact hplain.clash ((hclash name).mpr ⟨hname.1, hname.2, Or.inl hsome⟩)
        · exact fun heq => hplain.clash ((hclash name).mpr ⟨hname.1, hname.2, Or.inr (Or.inr heq)⟩)
      refine agreesAt_virtual _ hlists hplain.dot ?_ (hdirs.agreesAt (hrec.exposeControl ▸ hname.1)
        (hlook t hrec name) hname.2 hfree.2)
      rw [hrec.resolveForBranch]
      exact hfree.1
    · have hout : name ∉ extra.map DirEntry.name := by
        split at hextra
        · next hexp =>
          obtain ⟨dirs, rfl, hdirs⟩ := hextra
          rw [List.map_cons, List.mem_cons, not_or]
          refine ⟨fun heq => hname ⟨hexp, Or.inl heq⟩, fun hmem => hname ⟨hexp, Or.inr ?_⟩⟩
          obtain ⟨b, rfl⟩ := hdirs.exists_atName hmem
          simp [stripAt_atName]
        · rw [hextra]
          simp
      refine agreesAt_tree _ hlists hplain.dot hout ?_
      rw [hlook t hrec, lookupAtRoot_plain (by rw [hrec.exposeControl]; exact hname),
        lookupInRoot_live hagain, hrec.branchName]

end

/-! ## Every directory -/

theorem classifyPath_cons (n : String) (rest : RelPath) : classifyPath (n :: rest) =
    match stripAt n with
    | none => .rootPath (n :: rest)
    | some branch =>
      if rest = [] then .branchDir branch
      else if rest = [ctlFile] then .branchCtl branch
      else .branchPath branch rest := rfl

/-- A directory of any context. -/
theorem listing_fits (order : MapOrder) {s : Mount} {ino : Nat} {path : RelPath}
    (hpath : s.inodes.getPath ino = some path) : ListingFits order path ino s := by
  match path with
  | [] => exact listRoot_fits hpath
  | n :: rest =>
    cases hat : stripAt n with
    | none =>
      exact listInRoot_fits (by simp) (by rw [classifyPath_cons, hat]) hpath
    | some branch =>
      obtain rfl := atName_of_stripAt hat
      have hclass := classifyPath_cons (atName branch) rest
      rw [hat] at hclass
      by_cases hnil : rest = []
      · subst hnil
        exact listBranchDir_fits hclass rfl hpath
      · by_cases hctl : rest = [ctlFile]
        · subst hctl
          exact branchCtl_fits hclass (by simp) hpath
        · simp only [hnil, hctl, if_false] at hclass
          exact listInBranch_fits hclass rfl hnil hpath

/-- Where the branch of a directory is gone the listing fails. -/
theorem listAt_gone (order : MapOrder) {s : Mount} (ino : Nat) (path : RelPath)
    (h : s.hasBranch path = false) : ∃ e t, listAt order path ino s = .error e t := by
  have hroot : (∃ rel, classifyPath path = .rootPath rel) →
      ∃ t, failWhenStale s = .error .ESTALE t := by
    rintro ⟨rel, hrel⟩
    have hlive : s.live = false := by
      unfold Mount.hasBranch Mount.dirOf at h
      rw [hrel] at h
      exact h
    obtain ⟨t, hfail, -⟩ := failWhenStale_gone hlive
    exact ⟨t, hfail⟩
  unfold Mount.hasBranch Mount.dirOf at h
  unfold listAt
  cases hclass : classifyPath path with
  | branchDir branch =>
    rw [hclass] at h
    exact ⟨.ENOENT, s, bind_error (needBranch_error h)⟩
  | branchPath branch rel =>
    rw [hclass] at h
    exact ⟨.ENOENT, s, bind_error (needBranch_error h)⟩
  | branchCtl branch => exact ⟨.ENOTDIR, s, rfl⟩
  | rootPath rel =>
    obtain ⟨t, hfail⟩ := hroot ⟨rel, hclass⟩
    cases rel with
    | nil => exact ⟨.ESTALE, t, bind_error hfail⟩
    | cons n rest => exact ⟨.ESTALE, t, bind_error hfail⟩

/-- `@main` is answered in a root with control files, and not listed there. -/
theorem main_answered_not_listed {order : MapOrder} {s t : Mount} {ino : Nat}
    {entries : List DirEntry} (hpath : s.inodes.getPath ino = some [])
    (hexp : s.exposeControl = true) (htree : s.inTree [] (atName "main") = none)
    (hread : ReadAll order ino 0 s entries t) :
    (∃ i, t.Answers ino (atName "main") i .directory) ∧
      atName "main" ∉ entries.map DirEntry.name := by
  have hmain : ∀ u : Mount, u.manager.isBranchValid "main" = true := by
    intro u
    obtain ⟨b, hb, -⟩ := u.manager.forest.rooted.top
    unfold Manager.isBranchValid
    rw [hb]
    rfl
  have hanswer : ∀ u : Mount, s.Recalls u → ∃ i, u.Answers ino (atName "main") i .directory := by
    intro u hu
    obtain ⟨i, v, hino⟩ : ∃ i v, inodeFor [atName "main"] true u = .ok i v := ⟨_, _, rfl⟩
    refine ⟨i, v, ?_⟩
    rw [lookup_eq (hu.getPath hpath), if_pos rfl, lookupAtRoot_at (hu.exposeControl.trans hexp),
      bind_ok (needBranch_ok (hmain u)), bind_ok hino]
    rfl
  cases hlive : s.live with
  | false =>
    obtain ⟨e, u, hlist⟩ := listAt_gone order (s := s) ino [] hlive
    obtain ⟨rfl, rfl⟩ := readAll_of_error hread hpath hlist
    exact ⟨hanswer _ ((settles_listAt order [] ino).failed _ _ _ hlist), by simp⟩
  | true =>
    obtain ⟨tree, extra, u, hlist, hrec, hlists, -, hextra⟩ := listRoot_ok order ino hlive
    obtain ⟨rfl, rfl⟩ := readAll_of_ok hread hpath hlist
    refine ⟨hanswer _ hrec, ?_⟩
    rw [if_pos hexp] at hextra
    obtain ⟨dirs, rfl, hdirs⟩ := hextra
    rw [List.drop_zero, List.map_append, List.map_append, List.mem_append, List.mem_append]
    rintro ((hdot | htree') | hvirtual)
    · exact not_mem_dots (by decide) ino hdot
    · refine hlists.shown htree' ?_
      rw [hrec.resolveForBranch]
      exact htree
    · rw [List.map_cons, List.mem_cons] at hvirtual
      rcases hvirtual with hctl | hdir
      · exact atName_ne_ctlFile "main" hctl
      · exact (hdirs.mem_at.mp hdir).2 rfl

/-- **Listing and lookup agree** in every directory: what a complete reading lists is, name by name,
what `lookup` answers, each name once, with the same number and type. That is said of every name but
the daemon's own where a tree shows an entry of that name. Of those: the directory of a branch that is
gone lists nothing, and `@main` is answered and not listed. -/
theorem listing_agrees {order : MapOrder} {s t : Mount} {ino : Nat} {path : RelPath}
    {entries : List DirEntry} (hpath : s.inodes.getPath ino = some path)
    (hread : ReadAll order ino 0 s entries t) :
    (∀ name, Plain s path name → AgreesAt t ino entries name) ∧
      (s.hasBranch path = false → entries = []) ∧
      (path = [] → s.exposeControl = true → s.inTree [] (atName "main") = none →
        (∃ i, t.Answers ino (atName "main") i .directory) ∧
          atName "main" ∉ entries.map DirEntry.name) := by
  refine ⟨fun name hplain => ?_, fun hgone => ?_, ?_⟩
  · rcases listing_fits order hpath with ⟨listed, u, hlist, h⟩ | ⟨e, u, hlist, h⟩
    · obtain ⟨rfl, rfl⟩ := readAll_of_ok hread hpath hlist
      exact h name hplain
    · obtain ⟨rfl, rfl⟩ := readAll_of_error hread hpath hlist
      exact h name hplain
  · obtain ⟨e, u, hlist⟩ := listAt_gone order ino path hgone
    exact (readAll_of_error hread hpath hlist).1
  · rintro rfl hexp htree
    exact main_answered_not_listed hpath hexp htree hread

/-! ## Names of the daemon in a tree -/

/-- Listing and lookup agree at every name in every directory of every mount. -/
def ListingAgrees : Prop :=
  ∀ s : Mount, s.Reachable → ∀ ino info, s.inodes.getInfo ino = some info → info.isDir = true →
    ∀ order entries t, ReadAll order ino 0 s entries t →
      ∀ name, name ≠ "." ∧ name ≠ ".." → AgreesAt t ino entries name

/-- A listing can be read as a whole. -/
theorem readAll_of_listAt {order : MapOrder} {s t : Mount} {ino : Nat} {path : RelPath}
    {entries : List DirEntry} (hpath : s.inodes.getPath ino = some path)
    (hlist : listAt order path ino s = .ok entries t) : ReadAll order ino 0 s entries t := by
  obtain ⟨hrec, hagain⟩ := (settles_listAt order path ino).answered _ _ _ hlist
  have hfirst := readdir_of_ok 0 entries.length hpath hlist
  have hlast := readdir_of_ok (0 + entries.length) 1 (hrec.getPath hpath)
    (hagain t (.refl t))
  rw [List.drop_zero, List.take_length] at hfirst
  rw [Nat.zero_add, List.drop_length] at hlast
  have h := ReadAll.page hfirst (.done (Nat.zero_lt_one) (by rw [Nat.zero_add]; exact hlast))
  rwa [List.append_nil] at h

/-- The reply of a request that succeeds. -/
def replyOf {α : Type} (x : MountReq α) (s : Mount) : Option α :=
  match x s with
  | .ok a _ => some a
  | .error _ _ => none

theorem ok_of_replyOf {α : Type} {x : MountReq α} {s : Mount} {a : α} (h : replyOf x s = some a) :
    x s = .ok a (after x s) := by
  unfold replyOf at h
  unfold after
  cases hx : x s with
  | ok b t =>
    rw [hx] at h
    cases h
    rfl
  | error e t =>
    rw [hx] at h
    cases h

/-- The map as it is listed. -/
def asListed : MapOrder := ⟨id, fun l => .refl l⟩

/-- A mount with control files over a base directory with a directory `@types` and a branch `b`; `@b`
has been looked up. -/
def scopedTypes : Mount :=
  run Mount.step (Mount.new (run step (Manager.init FreshStore.bare)
    [.host (.mkdir ["@types"]), .create "b" "main" .lazy []]) "/mnt" true)
    [.lookup rootIno "@b"]

theorem scopedTypes_reachable : scopedTypes.Reachable := ⟨_, _, _, _, ⟨_, _, rfl⟩, rfl⟩

/-- The root lists `@types`, which it does not answer, and does not list `@main`, which it answers;
`/@b` lists `@types`, which it does not answer. Both agree on the control file. -/
theorem scopedTypes_run :
    (replyOf (listAt asListed [] rootIno) scopedTypes = some [⟨1, .directory, "."⟩,
        ⟨1, .directory, ".."⟩, ⟨3, .directory, "@types"⟩, ctlEntry, ⟨2, .directory, "@b"⟩] ∧
      replyOf (lookup rootIno "@main") (after (listAt asListed [] rootIno) scopedTypes) =
        some (4, .directory) ∧
      replyOf (lookup rootIno "@types") (after (listAt asListed [] rootIno) scopedTypes) = none) ∧
    (scopedTypes.inodes.getInfo rootIno = some InodeManager.rootInfo ∧
      scopedTypes.inodes.getInfo 2 = some ⟨2, ["@b"], true⟩) ∧
    (replyOf (listAt asListed ["@b"] 2) scopedTypes).map (·.map DirEntry.name) =
        some [".", "..", "@types", ctlFile] ∧
      replyOf (lookup 2 "@types") (after (listAt asListed ["@b"] 2) scopedTypes) = none ∧
      (scopedTypes.inTree ["@b"] ctlFile = none ∧ scopedTypes.hasBranch ["@b"] = true) := by
  decide +kernel

/-- The root answers `@main` and does not list it; the directory of a branch lists `@types` and does
not answer it. -/
theorem not_listingAgrees : ¬ ListingAgrees ∧ ∃ entries t, ReadAll asListed 2 0 scopedTypes entries t ∧
    ¬ AgreesAt t 2 entries "@types" := by
  obtain ⟨⟨hlist, hmain, -⟩, ⟨hroot, hb⟩, hlistb, htypes, -⟩ := scopedTypes_run
  refine ⟨fun h => ?_, ?_⟩
  · have hpath : scopedTypes.inodes.getPath rootIno = some [] := by
      unfold InodeManager.getPath
      rw [hroot]
      rfl
    have hagree := h _ scopedTypes_reachable rootIno _ hroot rfl _ _ _
      (readAll_of_listAt hpath (ok_of_replyOf hlist)) "@main" (by decide)
    have hlisted := (hagree.2 4 .directory).mp ⟨_, ok_of_replyOf hmain⟩
    exact absurd hlisted (by decide)
  · obtain ⟨entries, hentries, hnames⟩ := Option.map_eq_some_iff.mp hlistb
    have hpath : scopedTypes.inodes.getPath 2 = some ["@b"] := by
      unfold InodeManager.getPath
      rw [hb]
      rfl
    refine ⟨entries, _, readAll_of_listAt hpath (ok_of_replyOf hentries), fun hagree => ?_⟩
    have hmem : "@types" ∈ entries.map DirEntry.name := by
      rw [hnames]
      decide
    obtain ⟨e, he, hname⟩ := List.mem_map.mp hmem
    obtain ⟨u, hans⟩ := (hagree.2 e.ino e.kind).mpr (by rw [← hname]; exact he)
    unfold replyOf at htypes
    rw [hans] at htypes
    cases htypes

/-- The control file of `b` is listed and answered alike. -/
theorem listing_agrees_ctl : ∃ entries t, ReadAll asListed 2 0 scopedTypes entries t ∧
    AgreesAt t 2 entries ctlFile := by
  obtain ⟨-, ⟨-, hb⟩, hlistb, -, htree, hbranch⟩ := scopedTypes_run
  obtain ⟨entries, hentries, -⟩ := Option.map_eq_some_iff.mp hlistb
  have hpath : scopedTypes.inodes.getPath 2 = some ["@b"] := by
    unfold InodeManager.getPath
    rw [hb]
    rfl
  have hread := readAll_of_listAt hpath (ok_of_replyOf hentries)
  refine ⟨entries, _, hread, (listing_agrees hpath hread).1 ctlFile ⟨by decide, ?_⟩⟩
  rintro (⟨-, -, h | h⟩ | ⟨h, -⟩)
  · exact h htree
  · rw [hbranch] at h
    cases h
  · exact absurd h (by decide)

end BranchFs
