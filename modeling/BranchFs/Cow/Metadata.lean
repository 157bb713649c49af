/-
# BranchFs.Cow.Metadata -- modes and owners under copy-on-write

Copy-on-write makes the directories on the way to a path in the delta, and from then on these are the
directories the branch shows. They have the mode and owner `create_dir_all` gives, whatever the inherited
ones had. The copy of a file keeps the mode of its source, but not the owner.
-/
import BranchFs.Cow.Write

namespace BranchFs

open BranchFs.Posix BranchFs.Logic

/-- Mode, owner and group. -/
structure Perms where
  mode : Nat
  uid : Nat
  gid : Nat
  deriving DecidableEq, Repr

/-- What `create_dir_all` gives a directory. -/
def Perms.newDir : Perms := ⟨0o755, 0, 0⟩

def Perms.ofNode (n : Node String) : Perms := ⟨n.mode, n.uid, n.gid⟩

def Perms.ofAttr (a : Attr String) : Perms := ⟨a.mode, a.uid, a.gid⟩

namespace Manager

/-- The mode and owner a walk through a mount of the branch finds. -/
def perms (m : Manager) (branch : String) (p : RelPath) : Option Perms :=
  if ∀ a ∈ properPrefixes p, m.kindOf branch a = some .dir then
    (m.resolved branch p).bind fun l => (m.disk.lstat l).toOption.map Perms.ofNode
  else none

/-- The mode and owner of what the delta holds at `q`, or else of what is inherited there. -/
def permsAt (m : Manager) (b : Branch) (q : RelPath) : Option Perms :=
  match m.disk.attrAt (deltaPath b.name q) with
  | some a => some (Perms.ofAttr a)
  | none => if b.isDeleted q then none else (m.inheritedNode b q).map Perms.ofNode

variable {m m' : Manager} {name : String} {b b' : Branch} {p q : RelPath}

/-- Modes and owners are shown where entries are. -/
theorem perms_eq_none : m.perms name q = none ↔ m.view name q = none := by
  unfold perms view
  by_cases hway : ∀ a ∈ properPrefixes q, m.kindOf name a = some .dir
  · rw [if_pos hway, if_pos hway]
    unfold kindOf kindAtPath
    cases m.resolved name q with
    | none => simp
    | some l =>
      simp only [Option.bind_some, Option.map_eq_none_iff, Disk.lkind]
  · rw [if_neg hway, if_neg hway]
    exact iff_of_true rfl rfl

/-- **Modes and owners come from the delta where it has the path, and from below otherwise.** -/
theorem perms_eq (hb : m.forest.get? name = some b) (hv : m.view name q ≠ none) :
    m.perms name q = m.permsAt b q := by
  have hname := Forest.name_of_get? hb
  have hway : ∀ a ∈ properPrefixes q, m.kindOf name a = some .dir := by
    by_contra hno
    exact hv (if_neg hno)
  have hlink := noLinkAbove_of_shown hb fun a ha hne => hway a (mem_properPrefixes.mpr ⟨ha, hne⟩)
  unfold perms permsAt
  rw [if_pos hway, resolved_eq hb, hname]
  by_cases hd : hasDelta m.disk name q = true
  · have hkind := (Disk.lexists_eq rfl hlink).mp hd
    obtain ⟨k, hk⟩ := Option.ne_none_iff_exists'.mp hkind
    obtain ⟨x, hx, _⟩ := Disk.exists_get hk
    have hl := Disk.lstat_toOption (l := deltaPath name q) rfl hlink
    rw [if_pos hd, Option.bind_some, hl, hx, Disk.attrAt_of_get hx]
    rfl
  · have hnone : m.disk.attrAt (deltaPath name q) = none := by
      rw [Disk.attrAt_eq_none]
      by_contra hk
      exact hd ((Disk.lexists_eq rfl hlink).mpr hk)
    rw [if_neg hd, hnone]
    dsimp only
    by_cases hdel : b.isDeleted q = true
    · rw [if_pos hdel, if_pos hdel]
      rfl
    · rw [if_neg hdel, if_neg hdel]
      unfold inheritedNode inheritedForTouch
      by_cases hhid : b.isHidden q = true
      · rw [if_pos hhid]
        rfl
      · rw [if_neg hhid]
        cases m.inheritedResolve b q <;> rfl

/-- A path that is shown and not in the delta has the mode and owner of what is inherited. -/
theorem perms_of_inherited (hb : m.forest.get? name = some b) (hk : deltaKind m.disk name q = none)
    (hv : m.view name q ≠ none) :
    ∃ node, m.inheritedNode b q = some node ∧ m.perms name q = some (Perms.ofNode node) := by
  have hname := Forest.name_of_get? hb
  have hthere : m.perms name q ≠ none := fun hnone => hv (perms_eq_none.mp hnone)
  rw [perms_eq hb hv] at hthere ⊢
  unfold permsAt at hthere ⊢
  rw [hname, Disk.attrAt_eq_none.mpr hk] at hthere ⊢
  dsimp only at hthere ⊢
  by_cases hdel : b.isDeleted q = true
  · rw [if_pos hdel] at hthere
    exact absurd rfl hthere
  · rw [if_neg hdel] at hthere ⊢
    cases hnode : m.inheritedNode b q with
    | none =>
      rw [hnode] at hthere
      exact absurd rfl hthere
    | some node => exact ⟨node, rfl, rfl⟩

/-- What a branch inherits is read the same after an operation of its own. -/
theorem inheritedNode_of_unseen (hun : m.LayersUnseen name) (hF : m.forest.SameBut name m'.forest)
    (hb : m.forest.get? name = some b) (hb' : m'.forest.get? name = some b')
    (hd : SameOn (fun r => ¬ Own name r) m.disk m'.disk) (hl : SameLayout m.disk m'.disk)
    (p : RelPath) : m'.inheritedNode b' p = m.inheritedNode b p := by
  have hread := fun r hr => hun m'.disk hd hl r hr p
  have hsource : m'.inheritedForTouch b' p = m.inheritedForTouch b p := by
    refine inheritedForTouch_congr hF hb hb' fun r hr => ?_
    unfold Disk.lexists
    rw [hread r hr]
  unfold inheritedNode
  rw [hsource]
  cases hsrc : m.inheritedForTouch b p with
  | none => rfl
  | some l =>
    have hres : m.inheritedResolve b p = some l := by
      unfold inheritedForTouch at hsrc
      split at hsrc
      · cases hsrc
      · exact hsrc
    obtain ⟨r, hr, rfl⟩ := mem_layers_of_inherited hb hres
    exact hread r hr

end Manager

section Placed

variable {m m' : Manager} {name : String} {b : Branch} {dir q : RelPath} {n : String}
  {a : Option (Attr String)}

/-- The view of every other path keeps its mode and owner, and a file at the path keeps its own. -/
structure KeepsPerms (m m' : Manager) (name : String) (p : RelPath) : Prop where
  others : ∀ q, q ≠ p → m'.perms name q = m.perms name q
  self : ∀ c, m.view name p = some (.file c) → m'.perms name p = m.perms name p

/-- Mode and owner of every inherited directory that is made in the delta on the way to `dir` are the
ones it is made with. -/
def PlainDirs (m : Manager) (b : Branch) (dir : RelPath) : Prop :=
  ∀ x, x <+: dir → deltaKind m.disk b.name x = none → ∀ node, m.inheritedNode b x = some node →
    Perms.ofNode node = Perms.newDir

/-- A file that is copied up belongs to the daemon. -/
def DaemonsFile (m : Manager) (b : Branch) (p : RelPath) : Prop :=
  deltaKind m.disk b.name p = none → ∀ c, m.view b.name p = some (.file c) →
    ∀ node, m.inheritedNode b p = some node → node.uid = 0 ∧ node.gid = 0

theorem Placed.permsAt {b' : Branch} (h : Placed m m' name b (dir ++ [n]) a)
    (hin : NameIn m name b dir) (hb' : m'.forest.get? name = some b')
    (hts : b'.tombstones = b.tombstones.filter (· ≠ dir ++ [n])) (hq : ¬ dir ++ [n] <+: q) :
    m'.permsAt b' q =
      if q <+: dir ∧ deltaKind m.disk name q = none then some Perms.newDir else m.permsAt b q := by
  have hne : q ≠ dir ++ [n] := fun heq => hq (heq ▸ List.prefix_rfl)
  have hname := Forest.name_of_get? hin.branch
  have hname' := Forest.name_of_get? hb'
  have hpre : q <+: dir ++ [n] ↔ q <+: dir :=
    ⟨fun hp => prefix_of_mem_dir hp hne, fun hp => hp.trans (List.prefix_append dir [n])⟩
  unfold Manager.permsAt
  rw [hname', hname, h.attr, if_neg hne]
  by_cases hc : q <+: dir ∧ deltaKind m.disk name q = none
  · rw [if_pos hc, if_pos ⟨hpre.mpr hc.1, hc.2⟩]
    rfl
  · rw [if_neg hc, if_neg fun h' => hc ⟨hpre.mp h'.1, h'.2⟩]
    cases hat : m.disk.attrAt (deltaPath name q) with
    | some x => rfl
    | none =>
      have hnil : q ≠ [] := by
        rintro rfl
        rw [Disk.attrAt_eq_none, Disk.kindAt_root _ rfl] at hat
        cases hat
      have hdel : b'.isDeleted q = b.isDeleted q := by
        rw [Bool.eq_iff_iff, ← covers_whiteout hnil, ← covers_whiteout hnil]
        exact covers_off (fun t ht => Placed.whiteouts hts ht) hq
      dsimp only
      rw [hdel, Manager.inheritedNode_of_unseen hin.unseen h.forest hin.branch hb' h.same h.mounts]

/-- **Off the path, modes and owners stay** exactly when the directories made on the way are plain. -/
theorem Placed.perms_off_iff (h : Placed m m' name b (dir ++ [n]) a) (hin : NameIn m name b dir) :
    (∀ q, ¬ dir ++ [n] <+: q → m'.perms name q = m.perms name q) ↔ PlainDirs m b dir := by
  have hname := Forest.name_of_get? hin.branch
  obtain ⟨b', hb', hts⟩ := h.branch
  have hnot : ∀ x, x <+: dir → ¬ dir ++ [n] <+: x := by
    intro x hx hp
    have hlen := (hp.trans hx).length_le
    rw [List.length_append, List.length_singleton] at hlen
    omega
  have hview : ∀ x, x <+: dir → m.view name x ≠ none := by
    intro x hx
    rw [Manager.view_eq_kindOf fun c hc _ =>
      Manager.kindOf_of_view_dir hin.shown c (hc.trans hx), Manager.kindOf_of_view_dir hin.shown x hx]
    simp
  have hperms : ∀ q, ¬ dir ++ [n] <+: q → m.view name q ≠ none →
      m'.perms name q = if q <+: dir ∧ deltaKind m.disk name q = none then some Perms.newDir
        else m.perms name q := by
    intro q hq hv
    have hv' : m'.view name q ≠ none := by rwa [h.view_off hin hq]
    rw [Manager.perms_eq hb' hv', Manager.perms_eq hin.branch hv, h.permsAt hin hb' hts hq]
  constructor
  · intro hkept x hx hk node hnode
    rw [hname] at hk
    have hx' := hkept x (hnot x hx)
    obtain ⟨node', hnode', hold⟩ := Manager.perms_of_inherited hin.branch hk (hview x hx)
    obtain rfl : node' = node := Option.some.inj (hnode'.symm.trans hnode)
    rw [hperms x (hnot x hx) (hview x hx), if_pos ⟨hx, hk⟩, hold] at hx'
    exact (Option.some.inj hx').symm
  · intro hplain q hq
    by_cases hv : m.view name q = none
    · rw [Manager.perms_eq_none.mpr hv, Manager.perms_eq_none, h.view_off hin hq, hv]
    · rw [hperms q hq hv]
      split
      · next hc =>
        obtain ⟨node, hnode, hold⟩ := Manager.perms_of_inherited hin.branch hc.2 hv
        rw [hold, hplain q hc.1 (by rw [hname]; exact hc.2) node hnode]
      · rfl

/-- Below the path, what is shown before and after is the same entry with the same mode and owner. -/
theorem Placed.same_below (h : Placed m m' name b (dir ++ [n]) a) (hin : NameIn m name b dir)
    (hq : dir ++ [n] <+: q) (hne : q ≠ dir ++ [n]) (hv : m.view name q ≠ none)
    (hv' : m'.view name q ≠ none) :
    m'.view name q = m.view name q ∧ m'.perms name q = m.perms name q := by
  have hname := Forest.name_of_get? hin.branch
  obtain ⟨b', hb', hts⟩ := h.branch
  have hnot : ¬ q <+: dir ++ [n] := fun hp => hne (hp.eq_of_length_le hq.length_le)
  have hattr : m'.disk.attrAt (deltaPath name q) = m.disk.attrAt (deltaPath name q) := by
    rw [h.attr, if_neg hne, if_neg fun hc => hnot hc.1]
  have hdelta : deltaKind m'.disk name q = deltaKind m.disk name q := by
    rw [h.delta, if_neg hne, if_neg fun hc => hnot hc.1]
  obtain ⟨e, he⟩ := Option.ne_none_iff_exists'.mp hv
  obtain ⟨e', he'⟩ := Option.ne_none_iff_exists'.mp hv'
  cases hk : deltaKind m.disk name q with
  | some k =>
    obtain ⟨x, hx, _⟩ := Disk.exists_attr (show m.disk.kindAt (deltaPath name q) = some k from hk)
    constructor
    · rw [view_of_delta hin.branch hk, view_of_delta hb' (hdelta.trans hk)]
    · rw [Manager.perms_eq hb' hv', Manager.perms_eq hin.branch hv]
      unfold Manager.permsAt
      rw [hname, Forest.name_of_get? hb', hattr, hx]
  | none =>
    obtain ⟨node, hnode, hperms⟩ := Manager.perms_of_inherited hin.branch hk hv
    obtain ⟨node', hnode', hperms'⟩ := Manager.perms_of_inherited hb' (hdelta.trans hk) hv'
    rw [Manager.inheritedNode_of_unseen hin.unseen h.forest hin.branch hb' h.same h.mounts, hnode]
      at hnode'
    obtain rfl : node = node' := Option.some.inj hnode'
    refine ⟨?_, hperms'.trans hperms.symm⟩
    obtain ⟨b'', _, hview⟩ := h.view hin
    have hshown : ∀ {D : RelPath → Option Entry} {T : RelPath → Prop} {x : Entry}, D q = none →
        Logic.shown .dir (overlay D T (m.inheritedKind b)) q = some x →
          m.inheritedKind b q = some x := by
      intro D T x hD hx
      rcases overlay_eq_some (shown_eq_some.mp hx).2 with hd | hi
      · rw [hD] at hd
        cases hd
      · exact hi
    rw [he, he']
    rw [Manager.view_eq_overlay hin.branch] at he
    rw [hview] at he'
    rw [← hshown hk he, ← hshown (hdelta.trans hk) he']

/-- Below the path modes and owners stay exactly when the same paths are shown. -/
theorem Placed.perms_below_iff (h : Placed m m' name b (dir ++ [n]) a) (hin : NameIn m name b dir) :
    (∀ q, dir ++ [n] <+: q → q ≠ dir ++ [n] → m'.perms name q = m.perms name q) ↔
      ∀ q, dir ++ [n] <+: q → q ≠ dir ++ [n] → m'.view name q = m.view name q := by
  refine forall₃_congr fun q hq hne => ?_
  by_cases hv : m.view name q = none
  · rw [Manager.perms_eq_none.mpr hv, hv, Manager.perms_eq_none]
  · by_cases hv' : m'.view name q = none
    · rw [Manager.perms_eq_none.mpr hv', hv']
      have hp : m.perms name q ≠ none := fun hnone => hv (Manager.perms_eq_none.mp hnone)
      exact iff_of_false (Ne.symm hp) (Ne.symm hv)
    · obtain ⟨hsame, hperms⟩ := h.same_below hin hq hne hv hv'
      exact iff_of_true hperms hsame

/-- What copy-on-write brings up of an inherited file that is shown. -/
theorem upAttr_of_inherited {p : RelPath} (hb : m.forest.get? name = some b)
    (hk : deltaKind m.disk name p = none) {c : Bytes} (hc : m.view name p = some (.file c)) :
    ∃ node, m.inheritedNode b p = some node ∧ m.perms name p = some (Perms.ofNode node) ∧
      m.upAttr b p = some ⟨.file c, node.mode, 0, 0⟩ := by
  obtain ⟨node, hnode, hperms⟩ := Manager.perms_of_inherited hb hk (by simp [hc])
  obtain ⟨u, hu, hkind⟩ := upAttr_of_file hb hc
  refine ⟨node, hnode, hperms, ?_⟩
  rw [hu]
  unfold Manager.upAttr copyAttr at hu
  rw [Forest.name_of_get? hb, Disk.attrAt_eq_none.mpr hk, Option.none_or, hnode, Option.bind_some] at hu
  split at hu
  · cases hu
  · cases hu
    cases hkind
  · cases hu
    injection hkind with hkind
    rw [hkind]

/-- At the path a file keeps its mode and owner exactly when it was in the delta or is the daemon's. -/
theorem Placed.perms_self_iff (h : Placed m m' name b (dir ++ [n]) a) (hin : NameIn m name b dir)
    (ha : ∀ c, m.view name (dir ++ [n]) = some (.file c) → ∃ x u, a = some x ∧
      m.upAttr b (dir ++ [n]) = some u ∧ Perms.ofAttr x = Perms.ofAttr u) :
    (∀ c, m.view name (dir ++ [n]) = some (.file c) →
      m'.perms name (dir ++ [n]) = m.perms name (dir ++ [n])) ↔ DaemonsFile m b (dir ++ [n]) := by
  have hname := Forest.name_of_get? hin.branch
  obtain ⟨b', hb', _⟩ := h.branch
  have hafter : ∀ c, m.view name (dir ++ [n]) = some (.file c) → ∃ u,
      m.upAttr b (dir ++ [n]) = some u ∧ m'.perms name (dir ++ [n]) = some (Perms.ofAttr u) := by
    intro c hc
    obtain ⟨x, u, rfl, hu, hxu⟩ := ha c hc
    refine ⟨u, hu, ?_⟩
    rw [Manager.perms_eq hb' (by rw [h.view_self]; simp), ← hxu]
    unfold Manager.permsAt
    rw [Forest.name_of_get? hb', h.attr, if_pos rfl]
  unfold DaemonsFile
  rw [hname]
  constructor
  · intro hkept hk c hc node hnode
    obtain ⟨u, hu, hperms⟩ := hafter c hc
    obtain ⟨node', hnode', hold, hup⟩ := upAttr_of_inherited hin.branch hk hc
    obtain rfl : node' = node := Option.some.inj (hnode'.symm.trans hnode)
    rw [hup, Option.some.injEq] at hu
    rw [hkept c hc, hold, ← hu] at hperms
    injection Option.some.inj hperms with _ huid hgid
    exact ⟨huid, hgid⟩
  · intro hdaemon c hc
    obtain ⟨u, hu, hperms⟩ := hafter c hc
    rw [hperms]
    by_cases hk : deltaKind m.disk name (dir ++ [n]) = none
    · obtain ⟨node, hnode, hold, hup⟩ := upAttr_of_inherited hin.branch hk hc
      obtain ⟨huid, hgid⟩ := hdaemon hk c hc node hnode
      rw [hup, Option.some.injEq] at hu
      rw [hold, ← hu]
      unfold Perms.ofNode Perms.ofAttr
      rw [huid, hgid]
    · obtain ⟨x, hx⟩ : ∃ x, m.disk.attrAt (deltaPath name (dir ++ [n])) = some x :=
        Option.ne_none_iff_exists'.mp fun hnone => hk (Disk.attrAt_eq_none.mp hnone)
      unfold Manager.upAttr at hu
      rw [hname, hx, Option.some_or, Option.some.injEq] at hu
      rw [Manager.perms_eq hin.branch (by simp [hc]), ← hu]
      unfold Manager.permsAt
      rw [hname, hx]

/-- The three parts together. -/
theorem Placed.keepsPerms_iff (h : Placed m m' name b (dir ++ [n]) a) (hin : NameIn m name b dir)
    (ha : ∀ c, m.view name (dir ++ [n]) = some (.file c) → ∃ x u, a = some x ∧
      m.upAttr b (dir ++ [n]) = some u ∧ Perms.ofAttr x = Perms.ofAttr u) :
    KeepsPerms m m' name (dir ++ [n]) ↔
      PlainDirs m b dir ∧ DaemonsFile m b (dir ++ [n]) ∧
        ∀ q, dir ++ [n] <+: q → q ≠ dir ++ [n] → m'.view name q = m.view name q := by
  rw [← h.perms_off_iff hin, ← h.perms_self_iff hin ha, ← h.perms_below_iff hin]
  constructor
  · intro hk
    refine ⟨fun q hq => hk.others q fun heq => hq (heq ▸ List.prefix_rfl), hk.self, fun q _ hne => ?_⟩
    exact hk.others q hne
  · rintro ⟨hoff, hself, hbelow⟩
    refine ⟨fun q hne => ?_, hself⟩
    by_cases hq : dir ++ [n] <+: q
    · exact hbelow q hq hne
    · exact hoff q hq

/-! ## The two operations -/

/-- A write does not open a directory of the delta. -/
theorem write_onto_dir (hin : NameIn m name b dir)
    (hk : deltaKind m.disk name (dir ++ [n]) = some .dir) {off : Int} {data : Bytes} {k : Nat} :
    writeDataToBranch name (dir ++ [n]) off data m ≠ .ok k m' := by
  intro hok
  have hchecked := writeChecked_of_ok hok
  unfold writeChecked at hchecked
  obtain ⟨_, m₀, hw, hrest⟩ := bind_eq_ok hchecked
  rw [writableBranch_idle hw, readDisk_bind, if_pos (hin.lexists.mpr (by simp [hk]))] at hrest
  unfold writeInPlace at hrest
  let m₁ : Manager := { m with forest := m.forest.modify name (Branch.removeTombstone (dir ++ [n])) }
  rw [bind_ok (show modifyBranch name (Branch.removeTombstone (dir ++ [n])) m = .ok () m₁ from rfl),
    readDisk_bind] at hrest
  obtain ⟨_, m₂, hcheck, hrest₂⟩ := bind_eq_ok hrest
  rw [when_idle (fun _ => quotaCheck_idle) hcheck] at hrest₂
  obtain ⟨x, hx, hxk⟩ := Disk.exists_get (show m.disk.kindAt (deltaPath name (dir ++ [n])) = _ from hk)
  have hopen : Posix.Sys.openWrite (deltaPath name (dir ++ [n])) true false m₁.disk =
      .error .EISDIR m₁.disk := by
    rw [Posix.Sys.openWrite, Sys.followed_of_dir (d := m.disk) (r := .files name) rfl
      (Disk.dir_parent (by simp [show m.disk.kindAt _ = _ from hk]))
      (Disk.linkAt_eq_false_of_kind hk rfl)]
    unfold Posix.Sys.openWriteAt
    simp only [hx, hxk]
    rfl
  rw [bind_error (show onDisk (writeDataToFile (deltaPath name (dir ++ [n])) off.toNat data) m₁ =
    .error (.io .EISDIR) m₁ from onDisk_error (by rw [writeDataToFile, bind_error hopen]))] at hrest₂
  cases hrest₂

/-- **Modes and owners under a write.** -/
theorem write_keepsPerms_iff (hin : NameIn m name b dir)
    (hlink : ∀ u, m.upAttr b (dir ++ [n]) = some u → u.kind.isSymlink = false)
    {off : Int} {data : Bytes} {k : Nat}
    (hok : writeDataToBranch name (dir ++ [n]) off data m = .ok k m') :
    KeepsPerms m m' name (dir ++ [n]) ↔
      PlainDirs m b dir ∧ DaemonsFile m b (dir ++ [n]) ∧
        ∀ q, dir ++ [n] <+: q → q ≠ dir ++ [n] → m.view name q = none := by
  have hplain : ∀ u, m.upAttr b (dir ++ [n]) = some u → u.kind.isFile = true := by
    intro u hu
    have hno := hlink u hu
    cases hk : u.kind with
    | file c => rfl
    | symlink t => simp [hk, Kind.isSymlink] at hno
    | dir =>
      exfalso
      unfold Manager.upAttr copyAttr at hu
      rw [Forest.name_of_get? hin.branch] at hu
      rcases Option.or_eq_some_iff.mp hu with hd | ⟨_, hi⟩
      · refine write_onto_dir hin (show deltaKind m.disk name (dir ++ [n]) = some .dir from ?_) hok
        rw [deltaKind, Disk.kindAt_of_attr hd, hk]
      · obtain ⟨node, _, hnode⟩ := Option.bind_eq_some_iff.mp hi
        split at hnode
        · cases hnode
        · cases hnode
          cases hk
        · cases hnode
          cases hk
  obtain ⟨_, hp⟩ := write_placed hin hplain hok
  rw [hp.keepsPerms_iff hin fun c hc => ?_]
  · refine and_congr_right fun _ => and_congr_right fun _ => forall₃_congr fun q hq hne => ?_
    have hself : m'.view name (dir ++ [n]) ≠ some .dir := by
      rw [hp.view_self]
      unfold Attr.written
      split <;> simp
    rw [view_below_of_not_dir hself hq hne]
    exact eq_comm
  · obtain ⟨u, hu, hkind⟩ := upAttr_of_file hin.branch hc
    refine ⟨_, u, rfl, hu, ?_⟩
    rw [hu]
    obtain ⟨kind, mode, uid, gid⟩ := u
    obtain rfl : kind = .file c := hkind
    rfl

/-- What the branch would show without its tombstone at `p`. -/
noncomputable def Manager.viewRevived (m : Manager) (b : Branch) (p : RelPath) :
    RelPath → Option Entry :=
  Logic.shown .dir
    (overlay (deltaKind m.disk b.name) (Whiteout (b.removeTombstone p)) (m.inheritedKind b))

theorem viewRevived_of_no_tombstone {p : RelPath} (hb : m.forest.get? name = some b)
    (hp : p ∉ b.tombstones) : m.viewRevived b p = m.view name := by
  have hts : b.removeTombstone p = b := by
    unfold Branch.removeTombstone
    rw [List.filter_eq_self.mpr]
    intro t ht
    have hne : t ≠ p := fun heq => hp (heq ▸ ht)
    simpa using hne
  unfold Manager.viewRevived
  rw [hts, Forest.name_of_get? hb, Manager.view_eq_overlay hb]

theorem kind_of_copyAttr {node : Node String} {u : Attr String} (h : copyAttr node = some u) :
    u.kind = node.kind ∧ u.kind ≠ .dir := by
  unfold copyAttr at h
  split at h
  · cases h
  · next hk =>
    cases h
    exact ⟨hk.symm, by simp⟩
  · next hk =>
    cases h
    exact ⟨hk.symm, by simp⟩

/-- The delta holds at the path what it held there, a copy apart. -/
theorem upAttr_cases (hb : m.forest.get? name = some b) (p : RelPath) :
    (m.upAttr b p).map Attr.kind = deltaKind m.disk name p ∨
      deltaKind m.disk name p = none ∧ ∃ u, m.upAttr b p = some u ∧ u.kind ≠ .dir ∧
        m.inheritedKind b p = some u.kind := by
  unfold Manager.upAttr
  rw [Forest.name_of_get? hb]
  cases hat : m.disk.attrAt (deltaPath name p) with
  | some x =>
    left
    rw [Option.some_or, deltaKind, Disk.kindAt_of_attr hat]
    rfl
  | none =>
    have hk : deltaKind m.disk name p = none := Disk.attrAt_eq_none.mp hat
    rw [Option.none_or, hk]
    cases hc : (m.inheritedNode b p).bind copyAttr with
    | none => exact Or.inl rfl
    | some u =>
      obtain ⟨node, hnode, hcopy⟩ := Option.bind_eq_some_iff.mp hc
      obtain ⟨hkind, hdir⟩ := kind_of_copyAttr hcopy
      refine Or.inr ⟨rfl, u, rfl, hdir, ?_⟩
      rw [Manager.inheritedKind_eq, hnode, hkind]
      rfl

/-- **Copy-on-write takes the tombstone of the path away**, and below the path this is all. -/
theorem Placed.view_below (h : Placed m m' name b (dir ++ [n]) (m.upAttr b (dir ++ [n])))
    (hin : NameIn m name b dir) (hq : dir ++ [n] <+: q) (hne : q ≠ dir ++ [n]) :
    m'.view name q = m.viewRevived b (dir ++ [n]) q := by
  have hname := Forest.name_of_get? hin.branch
  obtain ⟨b', hts, hview⟩ := h.view hin
  have hwhite : Whiteout b' = Whiteout (b.removeTombstone (dir ++ [n])) := by
    funext t
    unfold Whiteout
    rw [hts]
    rfl
  rw [hview, hwhite]
  unfold Manager.viewRevived
  rw [hname]
  rcases upAttr_cases hin.branch (dir ++ [n]) with hsame | ⟨hk, u, hu, hdir, hinh⟩
  · -- the delta is the same at the path and below, and there are directories above
    have hdirs : ∀ x, x <+: dir →
        overlay (deltaKind m.disk name) (Whiteout b) (m.inheritedKind b) x = some .dir := by
      have hshown := hin.shown
      rw [Manager.view_eq_overlay hin.branch, shown_eq_some] at hshown
      intro x hx
      by_cases hxd : x = dir
      · rw [hxd]
        exact hshown.2
      · exact hshown.1 x hx hxd
    refine shown_congr fun x hx => ?_
    by_cases hxp : x <+: dir ++ [n]
    · by_cases hxe : x = dir ++ [n]
      · subst hxe
        have hd : deltaKind m'.disk name (dir ++ [n]) = deltaKind m.disk name (dir ++ [n]) := by
          rw [h.delta, if_pos rfl, hsame]
        unfold overlay
        rw [hd]
      · have hxd := prefix_of_mem_dir hxp hxe
        have hk' : deltaKind m'.disk name x = some .dir := by
          rw [h.delta, if_neg hxe]
          rcases hin.way hxd with hk | hk
          · rw [if_pos ⟨hxp, hk⟩]
          · rw [if_neg (by simp [hk]), hk]
        rw [overlay_of_some hk']
        have hold := hdirs x hxd
        cases hk : deltaKind m.disk name x with
        | some k =>
          rw [overlay_of_some hk] at hold
          rw [overlay_of_some hk, hold]
        | none =>
          have hcov : ¬ Covers (Whiteout b) x := by
            intro hc
            rw [overlay_of_covered hk hc] at hold
            cases hold
          rw [overlay_of_none hk hcov] at hold
          rw [overlay_of_none hk, hold]
          rintro ⟨t, ⟨ht, htn⟩, htx⟩
          exact hcov ⟨t, ⟨List.mem_of_mem_filter ht, htn⟩, htx⟩
    · have hd : deltaKind m'.disk name x = deltaKind m.disk name x := by
        have hxe : x ≠ dir ++ [n] := fun heq => hxp (heq ▸ List.prefix_rfl)
        rw [h.delta, if_neg hxe, if_neg fun hc => hxp hc.1]
      unfold overlay
      rw [hd]
  · -- a file or link is there now, and the tombstone was all that hid it
    have hafter : deltaKind m'.disk name (dir ++ [n]) = some u.kind := by
      rw [h.delta, if_pos rfl, hu]
      rfl
    rw [shown_of_not hq (Ne.symm hne), shown_of_not hq (Ne.symm hne)]
    · intro hd
      rcases overlay_eq_some hd with hd | hd
      · rw [hk] at hd
        cases hd
      · rw [hinh] at hd
        exact hdir (Option.some.inj hd)
    · rw [overlay_of_some hafter]
      simpa using hdir

/-- **Modes and owners under copy-on-write alone.** -/
theorem ensureDelta_keepsPerms_iff (hin : NameIn m name b dir) {l : Place}
    (hok : ensureDeltaPathForWrite name (dir ++ [n]) m = .ok l m') :
    KeepsPerms m m' name (dir ++ [n]) ↔
      PlainDirs m b dir ∧ DaemonsFile m b (dir ++ [n]) ∧
        ∀ q, dir ++ [n] <+: q → q ≠ dir ++ [n] →
          m.viewRevived b (dir ++ [n]) q = m.view name q := by
  have hp := ensureDelta_placed hin hok
  rw [hp.keepsPerms_iff hin fun c hc => ?_]
  · refine and_congr_right fun _ => and_congr_right fun _ => forall₃_congr fun q hq hne => ?_
    rw [hp.view_below hin hq hne]
  · obtain ⟨u, hu, _⟩ := upAttr_of_file hin.branch hc
    exact ⟨u, u, hu, hu, rfl⟩

/-- **When a write and copy-on-write keep every mode and owner**: exactly when the inherited directories
made on the way are plain ones, an inherited file at the path is the daemon's, and the operation neither
hides nor reveals anything below the path. -/
theorem perms_kept_iff (hin : NameIn m name b dir) :
    (∀ off data k m', (∀ u, m.upAttr b (dir ++ [n]) = some u → u.kind.isSymlink = false) →
      writeDataToBranch name (dir ++ [n]) off data m = .ok k m' →
      (KeepsPerms m m' name (dir ++ [n]) ↔
        PlainDirs m b dir ∧ DaemonsFile m b (dir ++ [n]) ∧
          ∀ q, dir ++ [n] <+: q → q ≠ dir ++ [n] → m.view name q = none)) ∧
    (∀ l m', ensureDeltaPathForWrite name (dir ++ [n]) m = .ok l m' →
      (KeepsPerms m m' name (dir ++ [n]) ↔
        PlainDirs m b dir ∧ DaemonsFile m b (dir ++ [n]) ∧
          ∀ q, dir ++ [n] <+: q → q ≠ dir ++ [n] →
            m.viewRevived b (dir ++ [n]) q = m.view name q)) :=
  ⟨fun _ _ _ _ hlink hok => write_keepsPerms_iff hin hlink hok,
    fun _ _ hok => ensureDelta_keepsPerms_iff hin hok⟩

end Placed

/-- Every write and every copy-on-write that returns Ok keeps every mode and owner. -/
def CowKeepsPerms : Prop :=
  ∀ (store : FreshStore) ops name b dir n m', let m := run step (Manager.init store) ops
    m.forest.get? name = some b → m.view name dir = some .dir →
    ((∃ off data k, writeDataToBranch name (dir ++ [n]) off data m = .ok k m') ∨
      ∃ l, ensureDeltaPathForWrite name (dir ++ [n]) m = .ok l m') →
    KeepsPerms m m' name (dir ++ [n])

/-- A directory only its owner may enter, in the parent of the branch. -/
def privateDirOps : List Op :=
  [.create "a" "main" .lazy [], .file "a" (.mkdir [] "d" 0o700),
    .file "a" (.create ["d"] "f" 0o644), .create "b" "a" .lazy []]

def privateDir : Manager := run step (Manager.init .bare) privateDirOps

theorem privateDir_run :
    privateDir.forest.get? "b" = some (privateDir.recordOf "b") ∧
      privateDir.view "b" ["d"] = some .dir ∧
      resultOf (writeDataToBranch "b" ["d", "f"] 0 [120]) privateDir = some 1 ∧
      privateDir.perms "b" ["d"] = some ⟨0o700, 0, 0⟩ ∧
      (after (writeDataToBranch "b" ["d", "f"] 0 [120]) privateDir).perms "b" ["d"] =
        some ⟨0o755, 0, 0⟩ := by
  decide +kernel

/-- A write to the file opens the directory to everyone. -/
theorem not_cowKeepsPerms : ¬ CowKeepsPerms := by
  intro h
  obtain ⟨hb, hdir, hok, hbefore, hafter⟩ := privateDir_run
  have hkeeps : KeepsPerms privateDir (after (writeDataToBranch "b" ["d", "f"] 0 [120]) privateDir)
      "b" ["d", "f"] :=
    h .bare privateDirOps "b" _ ["d"] "f" _ hb hdir (Or.inl ⟨0, [120], 1, ok_of_resultOf hok⟩)
  have hothers := hkeeps.others ["d"] (by decide)
  rw [hbefore, hafter] at hothers
  exact absurd hothers (by decide)

theorem inheritedText_perms :
    (inheritedText.recordOf "b").tombstones = [] ∧
      inheritedText.upAttr (inheritedText.recordOf "b") ["f"] = some ⟨.file [97, 98, 99], 0o644, 0, 0⟩ ∧
      (inheritedText.inheritedNode (inheritedText.recordOf "b") ["f"]).all
        (fun node => node.uid == 0 && node.gid == 0) = true ∧
      (resultOf (ensureDeltaPathForWrite "b" ["f"]) inheritedText).isSome = true := by
  decide +kernel

/-- A write to an inherited file of the root directory, and its copy-on-write, keep every mode. -/
theorem inheritedText_keepsPerms :
    KeepsPerms inheritedText (after (writeDataToBranch "b" ["f"] 1 [120]) inheritedText) "b" ["f"] ∧
      KeepsPerms inheritedText (after (ensureDeltaPathForWrite "b" ["f"]) inheritedText) "b" ["f"] := by
  obtain ⟨hb, hdir, hv, hown, hlinks, hok⟩ := inheritedText_run
  obtain ⟨hts, hup, hdaemon, hens⟩ := inheritedText_perms
  have hin : NameIn inheritedText "b" (inheritedText.recordOf "b") [] :=
    nameIn_of_untouched hb hdir hown hlinks
  have hdirs : PlainDirs inheritedText (inheritedText.recordOf "b") [] := by
    intro x hx hk
    obtain rfl := List.prefix_nil.mp hx
    rw [deltaKind, Disk.kindAt_root _ rfl] at hk
    cases hk
  have hfile : DaemonsFile inheritedText (inheritedText.recordOf "b") ([] ++ ["f"]) := by
    intro _ c _ node hnode
    have hnode' : inheritedText.inheritedNode (inheritedText.recordOf "b") ["f"] = some node := hnode
    rw [hnode'] at hdaemon
    simpa using hdaemon
  have hnotdir : inheritedText.view "b" ["f"] ≠ some .dir := by
    rw [hv]
    simp
  have hbelow : ∀ q, [] ++ ["f"] <+: q → q ≠ [] ++ ["f"] → inheritedText.view "b" q = none :=
    fun q hq hne => view_below_of_not_dir hnotdir hq hne
  obtain ⟨l, hl⟩ := Option.isSome_iff_exists.mp hens
  have hkept := perms_kept_iff (n := "f") hin
  refine ⟨(hkept.1 1 [120] 1 _ (fun u hu => ?_) (ok_of_resultOf hok)).mpr ⟨hdirs, hfile, hbelow⟩,
    (hkept.2 l _ (ok_of_resultOf hl)).mpr ⟨hdirs, hfile, fun q _ _ => ?_⟩⟩
  · have hu' : inheritedText.upAttr (inheritedText.recordOf "b") ["f"] = some u := hu
    rw [hup] at hu'
    rw [← Option.some.inj hu']
    rfl
  · rw [viewRevived_of_no_tombstone hb (by rw [hts]; simp)]

end BranchFs
