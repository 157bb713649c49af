/-
# BranchFs.Mount.Notify -- which mounts are told of a change

A commit, an abort and a revert tell the kernel that branches have changed: a commit into `main` all
mounts, a commit into another branch the mounts of the two branches, an abort and a revert those of the
one branch. A lazy branch over the changed one shows the change as well, at any depth, and is not told.
Nothing is missed exactly where no mount that is not told reads a path through to the changed branch at
which that branch's layers come to something else.
-/
import BranchFs.Cow.Revert
import BranchFs.Isolate.Snapshot
import BranchFs.Isolate.Until
import BranchFs.Merge.Merged
import BranchFs.Model.Daemon
import BranchFs.Model.Through

namespace BranchFs

open BranchFs.Posix BranchFs.Logic

/-- The operations that tell mounts of a change, once they have gone through. -/
inductive Notifying where
  | commit (order : HashOrder) (name : String)
  | abort (name : String)
  | revertPath (name : String) (p : RelPath)

namespace Notifying

/-- The operation, with the notifiers it invalidates. -/
def run : Notifying → DaemonReq (List NotifierKey)
  | commit order name => do
    let outcome ← askManager (commitWithReport order name)
    let d ← get
    if outcome.parent = "main" then pure d.invalidateAllMounts
    else pure (d.invalidateBranches [name, outcome.parent])
  | abort name => do
    let _ ← askManager (BranchFs.abort name)
    let d ← get
    pure (d.invalidateBranches [name])
  | revertPath name p => do
    askManager (revertPathInBranch name p)
    let d ← get
    pure (d.invalidateBranches [name])

end Notifying

/-- Every registered notifier whose branch is still there and shows something else is told. -/
def TellsChanged (d d' : Daemon) (told : List NotifierKey) : Prop :=
  ∀ key ∈ d.registered, d'.manager.isBranchValid key.1 = true →
    (∃ q, d'.manager.view key.1 q ≠ d.manager.view key.1 q) → key ∈ told

/-- No branch of a registered notifier but the listed ones reads a path through to `branch` where that
would come to `after` instead of what its layers have. -/
def LeavesUnseen (d : Daemon) (listed : List String) (branch : String)
    (after : RelPath → Option Entry) : Prop :=
  ∀ key ∈ d.registered, key.1 ∉ listed → d.manager.isBranchValid key.1 = true → ∀ q,
    (∀ a, a <+: q → a ≠ q → d.manager.view key.1 a = some .dir) →
      d.manager.ReadsThrough branch q key.1 → after q = d.manager.flat branch q

/-- The layers of the parent after the commit of `b`. -/
noncomputable def flatCommitted (m : Manager) (b parent : Branch) : RelPath → Option Entry :=
  committedOverlay .dir (mergedDelta m b parent) (deltaKind m.disk parent.name) (m.flatInherited parent)
    (· ∈ b.tombstones) (Whiteout parent) (EmptiedDir m b.name b parent)

/-- The layers of a branch after a revert of `p`. -/
noncomputable def flatReverted (m : Manager) (b : Branch) (p : RelPath) : RelPath → Option Entry :=
  overlay (deltaWithout m b p) (fun t => Whiteout b t ∧ ¬ p <+: t) (m.flatInherited b)

namespace Notifying

/-- The change is seen by none but the mounts that are told. -/
def Unseen (d : Daemon) : Notifying → Prop
  | commit _ name => ∀ b parent, d.manager.forest.get? name = some b → b.parent = some parent.name →
      d.manager.forest.get? parent.name = some parent → parent.name ≠ "main" →
        LeavesUnseen d [name, parent.name] parent.name (flatCommitted d.manager b parent)
  | abort _ => True
  | revertPath name p => ∀ b, d.manager.forest.get? name = some b →
      LeavesUnseen d [name] name (flatReverted d.manager b p)

/-- A session that is committed into another branch is plain, and its merged texts are kept apart. -/
def Ready (m : Manager) : Notifying → Prop
  | commit _ name => ∀ b parent, m.forest.get? name = some b → b.parent = some parent.name →
      m.forest.get? parent.name = some parent → parent.name ≠ "main" →
        PlainSession m name b parent ∧ KeysApart m b
  | _ => True

end Notifying

/-! ## What the operations change -/

section

variable {m m' : Manager} {name : String} {b parent : Branch} {p : RelPath} {K : RelPath → Option Entry}

/-- A commit into another branch changes that branch. -/
theorem IntoParent.changesOnly (h : IntoParent m name b parent K m') :
    m.ChangesOnly m' parent.name := by
  obtain ⟨ts, f, hfinal, -, -⟩ := h.record
  have hthere : ∀ n, m'.forest.get? n ≠ none → n ≠ name := by
    rintro n hn rfl
    rw [hfinal.get?, if_pos rfl] at hn
    exact hn rfl
  have howner : ∀ n, m'.forest.get? n ≠ none → ∀ R : Root, R.owner = some n →
      ofBranch name (some R) = false := by
    intro n hn R hR
    simp only [ofBranch, Option.bind_some, hR, beq_eq_false_iff_ne, ne_eq, Option.some.injEq]
    exact hthere n hn
  refine ⟨?_, ?_, ?_, ?_⟩
  · intro n c hne hc
    have hn := hthere n (by simp [hc])
    rw [hfinal.get?, if_neg hn] at hc
    obtain ⟨c', hc', rfl⟩ := Option.map_eq_some_iff.mp hc
    have hname : c'.name ≠ parent.name := by
      rw [Forest.name_of_get? hc']
      exact hne
    rw [hc', Forest.modifyAt, if_neg hname]
  · intro n hne hn q
    refine h.same.kindAt ⟨?_, howner n hn (.files n) rfl⟩
    simpa [deltaPath] using hne
  · intro n hn q
    exact h.same.kindAt ⟨by simp [inheritedPath], howner n hn (.inherited n) rfl⟩
  · intro q
    exact h.same.kindAt ⟨by simp [basePath], rfl⟩

/-- A revert changes its branch. -/
theorem TakenOut.changesOnly {b' : Branch} (h : TakenOut m m' name b b' p) : m.ChangesOnly m' name := by
  refine ⟨?_, ?_, ?_, ?_⟩
  · intro n c hne hc
    rwa [h.forest.get?_ne hne] at hc
  · intro n hne _ q
    exact h.same.kindAt (by simp [deltaPath, Own, hne])
  · intro n _ q
    exact h.same.kindAt (by simp [inheritedPath, Own])
  · intro q
    exact h.same.kindAt (by simp [basePath, Own])

/-- An abort leaves what is left as it was. -/
theorem abort_changesOnly {up : String} (hok : abort name m = .ok up m') :
    m.ChangesOnly m' name ∧ m'.forest.get? name = none := by
  unfold abort at hok
  obtain ⟨⟨b, parent⟩, m₁, hfinal, hrest⟩ := bind_eq_ok hok
  obtain ⟨rfl, hne, hb, hleaf, -⟩ := finalizable_eq_ok hfinal
  obtain ⟨_, m₂, hremove, hup⟩ := bind_eq_ok hrest
  cases hup
  unfold removeBranch at hremove
  rw [dif_pos ⟨hleaf, hne⟩] at hremove
  cases hremove
  have hkind : ∀ x : Place, ofBranch name x.root = false →
      (m₁.disk.purge (ofBranch name)).kindAt x = m₁.disk.kindAt x := fun x hx =>
    (sameOn_purge (d := m₁.disk) (P := ofBranch name)).kindAt hx
  have hthere : ∀ n, (m₁.forest.remove name ⟨hleaf, hne⟩).get? n ≠ none → n ≠ name := by
    rintro n hn rfl
    rw [Forest.get?_remove, if_pos rfl] at hn
    exact hn rfl
  refine ⟨⟨?_, ?_, ?_, ?_⟩, ?_⟩
  · intro n c hn hc
    have hc' : (m₁.forest.remove name ⟨hleaf, hne⟩).get? n = some c := hc
    rwa [Forest.get?_remove, if_neg hn] at hc'
  · intro n hn _ q
    exact hkind _ (by simp [deltaPath, ofBranch, Root.owner, hn])
  · intro n hn q
    exact hkind _ (by simp [inheritedPath, ofBranch, Root.owner, hthere n hn])
  · intro q
    exact hkind _ rfl
  · show (m₁.forest.remove name ⟨hleaf, hne⟩).get? name = none
    rw [Forest.get?_remove, if_pos rfl]

/-- **The layers of a branch after a revert.** -/
theorem TakenOut.flat {b' : Branch} (h : TakenOut m m' name b b' p) (hb : m.forest.get? name = some b)
    (hts : ∀ t ∈ b'.tombstones, ¬ p <+: t) : m'.flat name = flatReverted m b p := by
  have hwhite : Whiteout b' = fun t => Whiteout b t ∧ ¬ p <+: t := by
    funext t
    refine propext ⟨fun ht => ⟨?_, hts t ht.1⟩, fun ht => ?_⟩
    · exact (h.whiteouts t (hts t ht.1)).mp ht
    · exact (h.whiteouts t ht.2).mpr ht.1
  have hsettings : SameSettings b b' := by
    obtain ⟨c, hc, hs, -⟩ := (h.forest.get? name).1 b hb
    rw [h.branch] at hc
    cases hc
    exact hs
  have hinh : m'.flatInherited b' = m.flatInherited b := by
    funext q
    refine Manager.flatInherited_congr m' hb h.branch
      ⟨hsettings.name, hsettings.parent, hsettings.inheritance, hsettings.hidePaths⟩ h.forest.older ?_
    exact fun r hr => h.same.kindAt (not_own_of_mem_layers hr)
  rw [Manager.flat_eq_overlay h.branch, h.delta, hwhite, hinh]
  rfl

/-- What a revert leaves of the delta has no links, where nothing had. -/
theorem TakenOut.noLink {b' : Branch} (h : TakenOut m m' name b b' p)
    (hb : m.forest.get? name = some b) (hlink : ∀ l, m.disk.linkAt l = false) (q : RelPath) :
    m'.disk.linkAt (deltaPath name q) = false := by
  have hkind : m'.disk.kindAt (deltaPath name q) = deltaWithout m b p q := congrFun h.delta q
  obtain rfl := Forest.name_of_get? hb
  unfold Disk.linkAt
  rw [hkind, deltaWithout]
  by_cases hpq : p <+: q
  · rw [removed_below hpq]
    rfl
  by_cases hgone : Emptied .dir (deltaKind m.disk b.name) (HasRecord b) p q
  · rw [removed_emptied hgone]
    rfl
  · rw [removed_else hpq hgone]
    exact hlink (deltaPath b.name q)

/-- Merged texts are files. -/
theorem mergedDelta_noLink (hlink : ∀ l, m.disk.linkAt l = false) (q : RelPath) :
    (mergedDelta m b parent q).any Kind.isSymlink = false := by
  unfold mergedDelta
  split
  · cases (mergedBytes m b q).toOption.join <;> rfl
  · exact hlink (deltaPath b.name q)

/-- Nor does a commit bring links into the parent's delta. -/
theorem IntoParent.noLink (h : IntoParent m name b parent (mergedDelta m b parent) m')
    (hlink : ∀ l, m.disk.linkAt l = false) (q : RelPath) :
    m'.disk.linkAt (deltaPath parent.name q) = false := by
  have hkind : m'.disk.kindAt (deltaPath parent.name q) =
      prune (grafted m b parent (mergedDelta m b parent)) (EmptiedDir m name b parent) q :=
    congrFun h.delta q
  unfold Disk.linkAt
  rw [hkind]
  by_cases hpruned : EmptiedDir m name b parent q
  · rw [prune_of hpruned]
    rfl
  rw [prune_of_not hpruned, grafted]
  by_cases hl : Leaf .dir (mergedDelta m b parent) q
  · rw [graft_of_leaf hl]
    exact mergedDelta_noLink hlink q
  by_cases hup : ∃ f, Leaf .dir (mergedDelta m b parent) f ∧ f <+: q
  · obtain ⟨f, hf, hfq⟩ := hup
    rw [graft_of_leaf_above hl hf hfq]
    rfl
  rcases graft_cases (K := deltaKind m.disk parent.name) (T := (· ∈ b.tombstones)) hup with
    ⟨-, hg⟩ | ⟨-, -, hg⟩ | ⟨-, -, hg⟩
  · rw [hg]
    rfl
  · rw [hg]
    rfl
  · rw [hg]
    exact hlink (deltaPath parent.name q)

end

/-! ## What is told -/

section

variable {d d' : Daemon} {told : List NotifierKey} {listed : List String} {branch : String}
variable {after : RelPath → Option Entry}

theorem askManager_eq_ok {α : Type} {x : Mgr α} {a : α} (h : askManager x d = .ok a d') :
    ∃ m', x d.manager = .ok a m' ∧ d' = { d with manager := m' } := by
  unfold askManager at h
  cases hx : x d.manager with
  | ok a' m' =>
    rw [hx] at h
    injection h with ha hd
    exact ⟨m', by rw [ha], hd.symm⟩
  | error e m' =>
    rw [hx] at h
    cases h

/-- An operation tells the notifiers of the listed branches. -/
theorem mem_invalidateBranches {key : NotifierKey} (hkey : key ∈ d.registered) :
    key ∈ d.invalidateBranches listed ↔ key.1 ∈ listed := by
  unfold Daemon.invalidateBranches
  rw [List.mem_filter, List.contains_iff_mem]
  exact ⟨fun h => h.2, fun h => ⟨hkey, h⟩⟩

theorem there_iff {m : Manager} {name : String} :
    m.isBranchValid name = true ↔ m.forest.get? name ≠ none := by
  unfold Manager.isBranchValid
  exact Option.isSome_iff_ne_none

/-- When the view of a mount that is not told changes. -/
theorem view_changes_iff (hc : d.manager.ChangesOnly d'.manager branch)
    (hlink : ∀ l, d.manager.disk.linkAt l = false)
    (hbranch : d'.manager.forest.get? branch ≠ none →
      ∀ q, d'.manager.disk.linkAt (deltaPath branch q) = false)
    {name : String} (hne : name ≠ branch) (hthere : d'.manager.forest.get? name ≠ none) :
    (∃ q, d'.manager.view name q ≠ d.manager.view name q) ↔
      ∃ q, (∀ a, a <+: q → a ≠ q → d.manager.view name a = some .dir) ∧
        d.manager.ReadsThrough branch q name ∧ d'.manager.flat branch q ≠ d.manager.flat branch q := by
  obtain ⟨c, hget'⟩ := Option.ne_none_iff_exists'.mp hthere
  have hget := hc.record name c hne hget'
  exact hc.view_ne_iff hget hthere (fun _ _ _ _ => hlink _) (hc.noLink hlink hbranch hthere)

/-- **Telling the listed branches is enough** exactly when no other mount sees the change. -/
theorem tells_listed_iff (hc : d.manager.ChangesOnly d'.manager branch)
    (hlink : ∀ l, d.manager.disk.linkAt l = false)
    (hbranch : ∀ q, d'.manager.disk.linkAt (deltaPath branch q) = false)
    (hnotifiers : d'.registered = d.registered) (hlisted : branch ∈ listed)
    (hstays : ∀ n, n ∉ listed → d.manager.isBranchValid n = true → d'.manager.isBranchValid n = true)
    (hflat : d'.manager.flat branch = after) :
    TellsChanged d d' (d'.invalidateBranches listed) ↔ LeavesUnseen d listed branch after := by
  have hother : ∀ {n : String}, n ∉ listed → n ≠ branch := by
    rintro n hnot rfl
    exact hnot hlisted
  have hchanges : ∀ {n : String}, n ∉ listed → d'.manager.isBranchValid n = true → _ :=
    fun {n} hnot hvalid => view_changes_iff hc hlink (fun _ => hbranch) (hother hnot) (there_iff.mp hvalid)
  constructor
  · intro h key hkey hnot hvalid q hway hthrough
    by_contra hne
    rw [← hflat] at hne
    have hvalid' := hstays key.1 hnot hvalid
    have htold := h key hkey hvalid' ((hchanges hnot hvalid').mpr ⟨q, hway, hthrough, hne⟩)
    exact hnot ((mem_invalidateBranches (hnotifiers ▸ hkey)).mp htold)
  · intro h key hkey hvalid' hdiffer
    rw [mem_invalidateBranches (hnotifiers ▸ hkey)]
    by_contra hnot
    obtain ⟨q, hway, hthrough, hne⟩ := (hchanges hnot hvalid').mp hdiffer
    have hvalid : d.manager.isBranchValid key.1 = true := by
      obtain ⟨c, hc'⟩ := Option.ne_none_iff_exists'.mp (there_iff.mp hvalid')
      have hget := hc.record key.1 c (hother hnot) hc'
      exact there_iff.mpr (by simp [hget])
    exact hne (by rw [hflat]; exact h key hkey hnot hvalid q hway hthrough)

/-- An abort is seen by no mount of another branch. -/
theorem tells_of_gone (hc : d.manager.ChangesOnly d'.manager branch)
    (hlink : ∀ l, d.manager.disk.linkAt l = false) (hgone : d'.manager.forest.get? branch = none) :
    TellsChanged d d' told := by
  intro key hkey hvalid hdiffer
  have hthere := there_iff.mp hvalid
  have hne : key.1 ≠ branch := fun heq => hthere (heq ▸ hgone)
  obtain ⟨q, -, hthrough, -⟩ :=
    (view_changes_iff hc hlink (fun h => absurd hgone h) hne hthere).mp hdiffer
  exact absurd hgone ((hthrough.after hc hthere).there hthere)

/-- A commit that goes through has a branch and a parent, and reports the parent. -/
theorem parent_of_commit {m m' : Manager} {name : String} {order : HashOrder} {o : CommitOutcome}
    (hok : commitWithReport order name m = .ok o m') :
    ∃ b parent, m.forest.get? name = some b ∧ b.parent = some parent.name ∧
      m.forest.get? parent.name = some parent ∧ o.parent = parent.name := by
  unfold commitWithReport at hok
  obtain ⟨⟨b, parent⟩, m₁, hfinal, hrest⟩ := bind_eq_ok hok
  obtain ⟨-, -, hb, -, up, hup, hparent⟩ := finalizable_eq_ok hfinal
  obtain rfl := Forest.name_of_get? hparent
  refine ⟨b, parent, hb, hup, hparent, ?_⟩
  obtain ⟨_, m₂, -, hrest⟩ := bind_eq_ok hrest
  obtain ⟨_, m₃, -, hrest⟩ := bind_eq_ok hrest
  obtain ⟨_, m₄, -, hrest⟩ := bind_eq_ok hrest
  cases hrest
  rfl

/-- A revert that goes through has a branch. -/
theorem branch_of_revert {m m' : Manager} {name : String} {p : RelPath}
    (hok : revertPathInBranch name p m = .ok () m') : ∃ b, m.forest.get? name = some b := by
  unfold revertPathInBranch at hok
  obtain ⟨_, m₁, hfail, hrest⟩ := bind_eq_ok hok
  have hsame : m₁ = m := (failIf_eq_ok hfail).2
  obtain ⟨b, m₂, hwritable, -⟩ := bind_eq_ok hrest
  unfold writableBranch at hwritable
  rw [hsame] at hwritable
  split at hwritable
  · next c hc => exact ⟨c, hc⟩
  · cases hwritable

/-- **When every changed view is told**: exactly when no mount that is not told reads a path through to
the changed branch where its layers come to something else. -/
theorem tellsChanged_iff {op : Notifying} (hlinkless : Linkless d.manager.disk)
    (hready : op.Ready d.manager) (hok : op.run d = .ok told d') :
    TellsChanged d d' told ↔ op.Unseen d := by
  have hlink := hlinkless.linkAt
  cases op with
  | commit order name =>
    obtain ⟨outcome, d₁, hcommit, hrest⟩ := bind_eq_ok hok
    obtain ⟨m', hrun, rfl⟩ := askManager_eq_ok hcommit
    obtain ⟨b, parent, hb, hup, hparent, hreported⟩ := parent_of_commit hrun
    have htold : (if outcome.parent = "main" then
        (pure (Daemon.invalidateAllMounts { d with manager := m' }) : DaemonReq (List NotifierKey))
        else pure (Daemon.invalidateBranches [name, outcome.parent] { d with manager := m' }))
          { d with manager := m' } = .ok told d' := hrest
    -- the branch and its parent are determined
    have hthe : ∀ c up, d.manager.forest.get? name = some c → c.parent = some up.name →
        d.manager.forest.get? up.name = some up → c = b ∧ up = parent := by
      intro c up hc hcup hupget
      obtain rfl : c = b := Option.some.inj (hc.symm.trans hb)
      have hname : up.name = parent.name := Option.some.inj (hcup.symm.trans hup)
      rw [hname, hparent] at hupget
      exact ⟨rfl, (Option.some.inj hupget).symm⟩
    by_cases hmain : parent.name = "main"
    · rw [if_pos (hreported.trans hmain)] at htold
      cases htold
      refine iff_of_true (fun key hkey _ _ => hkey) fun c up hc hcup hupget hne => ?_
      obtain ⟨-, rfl⟩ := hthe c up hc hcup hupget
      exact absurd hmain hne
    · rw [if_neg (by rw [hreported]; exact hmain), hreported] at htold
      cases htold
      obtain ⟨hplain, hkeys⟩ := hready b parent hb hup hparent hmain
      have hsession := hplain.session
      obtain ⟨hcommitted, hinto⟩ := hsession.intoParent hmain hkeys hrun
      have hbname := Forest.name_of_get? hb
      have hflat : m'.flat parent.name = flatCommitted d.manager b parent := by
        rw [hsession.flat_parent_after hcommitted hinto, flatCommitted, hbname]
      have hstays : ∀ n, n ∉ [name, parent.name] → d.manager.isBranchValid n = true →
          m'.isBranchValid n = true := by
        intro n hn hvalid
        obtain ⟨ts, f, hfinal, -, -⟩ := hinto.record
        have hne : n ≠ name := fun heq => hn (by simp [heq])
        unfold Manager.isBranchValid at hvalid ⊢
        rw [hfinal.get?, if_neg hne, Option.isSome_map]
        exact hvalid
      have hiff : TellsChanged d { d with manager := m' } _ ↔
          LeavesUnseen d [name, parent.name] parent.name _ :=
        tells_listed_iff hinto.changesOnly hlink (hinto.noLink hlink) rfl (by simp) hstays hflat
      rw [hiff]
      constructor
      · intro h c up hc hcup hupget _
        obtain ⟨rfl, rfl⟩ := hthe c up hc hcup hupget
        exact h
      · exact fun h => h b parent hb hup hparent hmain
  | abort name =>
    obtain ⟨up, d₁, habort, hrest⟩ := bind_eq_ok hok
    obtain ⟨m', hrun, rfl⟩ := askManager_eq_ok habort
    cases hrest
    obtain ⟨hc, hgone⟩ := abort_changesOnly hrun
    exact iff_of_true (tells_of_gone hc hlink hgone) trivial
  | revertPath name p =>
    obtain ⟨_, d₁, hrevert, hrest⟩ := bind_eq_ok hok
    obtain ⟨m', hrun, rfl⟩ := askManager_eq_ok hrevert
    cases hrest
    obtain ⟨b, hb⟩ := branch_of_revert hrun
    have hway : d.manager.disk.NoLinkAbove (deltaPath name p) :=
      Disk.noLinkAbove_of fun x _ _ => hlink x
    obtain ⟨-, b', hout, hts, -⟩ := revertPathInBranch_ok hb hway hrun
    have hstays : ∀ n, n ∉ [name] → d.manager.isBranchValid n = true → m'.isBranchValid n = true := by
      intro n hn hvalid
      unfold Manager.isBranchValid at hvalid ⊢
      rwa [hout.forest.get?_ne (by simpa using hn)]
    have hiff : TellsChanged d { d with manager := m' } _ ↔ LeavesUnseen d [name] name _ :=
      tells_listed_iff hout.changesOnly hlink (hout.noLink hb hlink) rfl (by simp) hstays
        (hout.flat hb hts)
    rw [hiff]
    constructor
    · intro h c hc
      obtain rfl : c = b := Option.some.inj (hc.symm.trans hb)
      exact h
    · exact fun h => h b hb

end

/-- Every commit, abort and revert that goes through tells the mounts whose view it changes. -/
def EveryChangeTold : Prop :=
  ∀ (store : FreshStore) ops (d d' : Daemon) (op : Notifying) told,
    d.manager = run step (Manager.init store) ops → op.run d = .ok told d' → TellsChanged d d' told

/-- Two lazy branches over one, and a file in the first of them. -/
def siblingOps : List Op :=
  [.create "p" "main" .lazy [], .create "a" "p" .lazy [], .create "b" "p" .lazy [],
    .file "a" (.create [] "f" 0o644)]

/-- The second branch is mounted. -/
def siblingMounted : Daemon where
  manager := run step (Manager.init .bare) siblingOps
  notifiers := [(("b", "/mnt"), 1)]
  mounts := [("/mnt", 1)]
  shutdown := false

/-- The commit of the first branch shows its file in the second, and tells nobody. -/
theorem siblingMounted_run :
    (Linkless siblingMounted.manager.disk ∧
      PlainSession siblingMounted.manager "a" (siblingMounted.manager.recordOf "a")
        (siblingMounted.manager.recordOf "p")) ∧
    deltaFiles siblingMounted.manager "a" = [["f"]] ∧
    resultOf (Notifying.run (.commit .listed "a")) siblingMounted = some [] ∧
    siblingMounted.manager.view "b" ["f"] = none ∧
    (after (Notifying.run (.commit .listed "a")) siblingMounted).manager.isBranchValid "b" = true ∧
    (after (Notifying.run (.commit .listed "a")) siblingMounted).manager.view "b" ["f"] =
      some (.file []) := by
  decide +kernel

theorem not_everyChangeTold : ¬ EveryChangeTold := by
  intro h
  obtain ⟨-, -, hrun, hbefore, hvalid, hafter⟩ := siblingMounted_run
  have htold := h .bare siblingOps siblingMounted _ (.commit .listed "a") [] rfl (ok_of_resultOf hrun)
  have hmem : ("b", "/mnt") ∈ ([] : List NotifierKey) :=
    htold ("b", "/mnt") (by decide) hvalid ⟨["f"], by rw [hafter, hbefore]; simp⟩
  cases hmem

theorem siblingMounted_told :
    TellsChanged siblingMounted (after (Notifying.run (.commit .listed "a")) siblingMounted) [] ↔
      Notifying.Unseen siblingMounted (.commit .listed "a") := by
  obtain ⟨⟨hlink, hplain⟩, hfiles, hrun, -⟩ := siblingMounted_run
  refine tellsChanged_iff hlink ?_ (ok_of_resultOf hrun)
  intro b parent hb hup hparent _
  obtain ⟨⟨hb', -, hup', hparent', -⟩, -⟩ := hplain
  obtain rfl : b = siblingMounted.manager.recordOf "a" := Option.some.inj (hb.symm.trans hb')
  have hname : parent.name = (siblingMounted.manager.recordOf "p").name :=
    Option.some.inj (hup.symm.trans hup')
  rw [hname] at hparent
  obtain rfl : parent = siblingMounted.manager.recordOf "p" := Option.some.inj (hparent.symm.trans hparent')
  refine ⟨siblingMounted_run.1.2, keysApart_of_files ?_⟩
  rw [Forest.name_of_get? hb', hfiles]
  intro p hp q hq _
  rw [List.mem_singleton.mp hp, List.mem_singleton.mp hq]

end BranchFs
