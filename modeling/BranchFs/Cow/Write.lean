/-
# BranchFs.Cow.Write -- a write through a branch against a plain file write

`write_data_to_branch` looks up what it copies apart from what is visible: the source of the copy is what
the branch inherits at the path, its tombstones aside. Where the path is visible the two agree, and the
write puts the data into the bytes the file had. Where the branch has deleted the path, the bytes of the
deleted file come back around the data, and a deleted link is followed.
-/
import BranchFs.Cow.Create
import BranchFs.Cow.Placed

namespace BranchFs

open BranchFs.Posix BranchFs.Logic

/-! ## What is shown after the entry is placed -/

section Placed

variable {m m' : Manager} {name : String} {b : Branch} {dir q : RelPath} {n : String}
  {a : Option (Attr String)}

theorem Placed.whiteouts {b' : Branch} {p : RelPath}
    (hts : b'.tombstones = b.tombstones.filter (· ≠ p)) {t : RelPath} (ht : ¬ p <+: t) :
    Whiteout b' t ↔ Whiteout b t := by
  have hne : t ≠ p := fun heq => ht (heq ▸ List.prefix_rfl)
  unfold Whiteout
  rw [hts, List.mem_filter]
  simp [hne]

theorem Placed.delta {p : RelPath} (h : Placed m m' name b p a) (q : RelPath) :
    deltaKind m'.disk name q =
      if q = p then a.map Attr.kind
      else if q <+: p ∧ deltaKind m.disk name q = none then some .dir
      else deltaKind m.disk name q := by
  unfold deltaKind
  rw [Disk.kindAt_eq_attr, h.attr q, Disk.kindAt_eq_attr m.disk]
  split
  · rfl
  · have hiff : (q <+: p ∧ deltaKind m.disk name q = none) ↔
        (q <+: p ∧ Option.map Attr.kind (m.disk.attrAt (deltaPath name q)) = none) := by
      rw [← Disk.kindAt_eq_attr]
      rfl
    by_cases hc : q <+: p ∧ deltaKind m.disk name q = none
    · rw [if_pos hc, if_pos (hiff.mp hc)]
      rfl
    · rw [if_neg hc, if_neg fun h => hc (hiff.mpr h)]

/-- The branch after the operation, as an overlay. -/
theorem Placed.view (h : Placed m m' name b (dir ++ [n]) a) (hin : NameIn m name b dir) :
    ∃ b', b'.tombstones = b.tombstones.filter (· ≠ dir ++ [n]) ∧ m'.view name =
      Logic.shown .dir (overlay (deltaKind m'.disk name) (Whiteout b') (m.inheritedKind b)) := by
  obtain ⟨b', hb', hts⟩ := h.branch
  refine ⟨b', hts, ?_⟩
  rw [Manager.view_eq_overlay hb', Manager.inheritedKind_of_apart hin.unseen.apart h.forest hin.branch
    hb' h.same h.mounts]

/-- **Elsewhere than below the path everything is shown as before.** -/
theorem Placed.view_off (h : Placed m m' name b (dir ++ [n]) a) (hin : NameIn m name b dir)
    (hq : ¬ dir ++ [n] <+: q) : m'.view name q = m.view name q := by
  obtain ⟨b', hts, hview⟩ := h.view hin
  have hdirs : ∀ x, x <+: dir →
      overlay (deltaKind m.disk name) (Whiteout b) (m.inheritedKind b) x = some .dir := by
    have hshown := hin.shown
    rw [Manager.view_eq_overlay hin.branch, shown_eq_some] at hshown
    intro x hx
    by_cases hxd : x = dir
    · rw [hxd]
      exact hshown.2
    · exact hshown.1 x hx hxd
  rw [hview, Manager.view_eq_overlay hin.branch]
  refine shown_off (p := dir ++ [n]) (fun x hx hne => ?_) (fun x hx hpx => ?_) hq
  · have hxd := prefix_of_mem_dir hx hne
    refine ⟨hdirs x hxd, overlay_of_some ?_⟩
    rw [h.delta, if_neg hne]
    rcases hin.way hxd with hk | hk
    · rw [if_pos ⟨hx, hk⟩]
    · rw [if_neg (by simp [hk]), hk]
  · have hne : x ≠ dir ++ [n] := fun heq => hx (heq ▸ List.prefix_rfl)
    have hd : deltaKind m'.disk name x = deltaKind m.disk name x := by
      rw [h.delta, if_neg hne, if_neg fun hc => hx hc.1]
    have hcov : Covers (Whiteout b') x ↔ Covers (Whiteout b) x :=
      covers_off (fun t ht => Placed.whiteouts hts ht) hpx
    cases hk : deltaKind m.disk name x with
    | some k => rw [overlay_of_some (hd.trans hk), overlay_of_some hk]
    | none =>
      by_cases hc : Covers (Whiteout b) x
      · rw [overlay_of_covered (hd.trans hk) (hcov.mpr hc), overlay_of_covered hk hc]
      · rw [overlay_of_none (hd.trans hk) fun hc' => hc (hcov.mp hc'), overlay_of_none hk hc]

/-- What is shown at the path is what the delta has there now. -/
theorem Placed.view_self {x : Attr String} (h : Placed m m' name b (dir ++ [n]) (some x)) :
    m'.view name (dir ++ [n]) = some x.kind := by
  obtain ⟨b', hb', _⟩ := h.branch
  refine view_of_delta hb' ?_
  show deltaKind m'.disk name (dir ++ [n]) = _
  rw [h.delta, if_pos rfl]
  rfl

end Placed

/-! ## A plain file write -/

/-- The view holds at `p` the bytes there were with the data spliced in, and is otherwise unchanged. -/
structure WrittenPlain (m m' : Manager) (name : String) (p : RelPath) (prev : Bytes) (off : Nat)
    (data : Bytes) : Prop where
  written : m'.view name p = some (.file (splice prev off data))
  kept : ∀ q, q ≠ p → m'.view name q = m.view name q

/-- What is inherited at the path does not show through a write to a path that is not visible: it is a
directory, or a file of which no byte is left. -/
def NoneLeft (off : Nat) (data : Bytes) : Entry → Prop
  | .dir => True
  | .file c => splice c off data = splice [] off data
  | .symlink _ => False

instance (off : Nat) (data : Bytes) (k : Entry) : Decidable (NoneLeft off data k) := by
  cases k
  · exact inferInstanceAs (Decidable (splice _ off data = splice [] off data))
  · exact inferInstanceAs (Decidable False)
  · exact inferInstanceAs (Decidable True)

section Write

variable {m m' : Manager} {name : String} {b : Branch} {dir p q : RelPath} {n : String}

/-- Nothing is shown below what is not shown as a directory. -/
theorem view_below_of_not_dir (hp : m.view name p ≠ some .dir) (hpq : p <+: q) (hne : q ≠ p) :
    m.view name q = none := by
  by_cases hway : ∀ a, a <+: q → a ≠ q → m.kindOf name a = some .dir
  · refine absurd ?_ hp
    rw [Manager.view_eq_kindOf fun a ha hap => hway a (ha.trans hpq) fun heq => ?_]
    · exact hway p hpq (Ne.symm hne)
    · exact hap (ha.eq_of_length_le (heq ▸ hpq.length_le))
  · push Not at hway
    obtain ⟨a, ha, haq, hk⟩ := hway
    exact Manager.view_eq_none ha haq hk

/-- Through a write the delta path of a link stays the link. -/
theorem writeInPlace_keeps_link {t : Target} {off k : Nat} {data : Bytes}
    (hb : m.forest.get? name = some b)
    (hk : m.disk.kindAt (deltaPath name p) = some (.symlink t))
    (hok : writeInPlace name p off data m = .ok k m') :
    m'.view name p = some (.symlink t) := by
  let m₁ : Manager := { m with forest := m.forest.modify name (Branch.removeTombstone p) }
  have hb₁ : m₁.forest.get? name = some (b.removeTombstone p) := Forest.get?_modify_self hb rfl rfl
  unfold writeInPlace at hok
  rw [bind_ok (show modifyBranch name (Branch.removeTombstone p) m = .ok () m₁ from rfl),
    readDisk_bind] at hok
  obtain ⟨_, m₂, hcheck, hrest⟩ := bind_eq_ok hok
  rw [when_idle (fun _ => quotaCheck_idle) hcheck] at hrest
  obtain ⟨written, m₃, hdata, hrest₂⟩ := bind_eq_ok hrest
  obtain ⟨d, hd, rfl⟩ : ∃ d, writeDataToFile (deltaPath name p) off data m₁.disk = .ok written d ∧
      { m₁ with disk := d } = m₃ := by
    unfold onDisk at hdata
    split at hdata
    · next hx =>
      cases hdata
      exact ⟨_, hx, rfl⟩
    · cases hdata
  obtain ⟨h, d₁, hopen, hwrite⟩ := bind_eq_ok hd
  have hstay := Posix.Sys.openWrite_keeps_link (l := deltaPath name p) true false hk
  unfold after at hstay
  rw [show m.disk = m₁.disk from rfl, hopen] at hstay
  have hkind : d.kindAt (deltaPath name p) = some (.symlink t) := by
    cases hwrite
    rcases Disk.kindAt_mapFile d₁ h (splice · off data) (deltaPath name p) with heq | ⟨c, _, hc, _⟩
    · exact heq.trans hstay
    · rw [hstay] at hc
      cases hc
  rw [readDisk_bind] at hrest₂
  obtain ⟨_, m₄, hadd, hlast⟩ := bind_eq_ok hrest₂
  have hm₄ : m₄.forest = m₁.forest ∧ m₄.disk = d := by
    unfold when at hadd
    split at hadd
    · cases hadd
      exact ⟨rfl, rfl⟩
    · cases hadd
      exact ⟨rfl, rfl⟩
  cases hlast
  refine view_of_delta (b := b.removeTombstone p) ?_ ?_
  · rw [hm₄.1]
    exact hb₁
  · rw [hm₄.2]
    exact hkind

/-- **A deleted link comes back** when the path is written to. -/
theorem write_of_link (h : NameIn m name b dir) {t : Target} {off : Int} {data : Bytes} {k : Nat}
    (hfree : deltaKind m.disk name (dir ++ [n]) = none)
    (hlink : m.inheritedKind b (dir ++ [n]) = some (.symlink t))
    (hok : writeDataToBranch name (dir ++ [n]) off data m = .ok k m') :
    m'.view name (dir ++ [n]) = some (.symlink t) := by
  obtain ⟨m₁, ht, _, hcase⟩ := writeFirst_of_ok h hfree (writeChecked_of_ok hok)
  obtain ⟨b₁, hb₁, _, _⟩ := ht.get? h.branch
  have hplace : FreePlace m₁.disk (deltaPath name (dir ++ [n])) :=
    (h.free hfree).of_same fun x hx => ht.delta hx
  rw [Manager.inheritedKind_eq, Option.map_eq_some_iff] at hlink
  obtain ⟨node₀, hnode₀, hkind⟩ := hlink
  rcases hcase with ⟨hnone, _⟩ | ⟨src, node, hnode, hread, hrun⟩
  · rw [hnone] at hnode₀
    cases hnode₀
  obtain rfl : node = node₀ := Option.some.inj (hnode.symm.trans hnode₀)
  unfold writeFirstNode at hrun
  rw [if_neg (by simp [hkind, Kind.isFile]), when_true (by simp [hkind, Kind.isSymlink])] at hrun
  obtain ⟨_, m₂, hup, hplain⟩ := bind_eq_ok hrun
  obtain ⟨d, hd, hent⟩ := copyEntry_entered hplace hread (by simp [hkind])
  rw [copyUpNode] at hup
  obtain ⟨_, m₃, hcheck, hcopy⟩ := bind_eq_ok hup
  rw [quotaCheck_idle hcheck, bind_ok (onDisk_ok hd)] at hcopy
  cases hcopy
  have hcopied : d.kindAt (deltaPath name (dir ++ [n])) = some (.symlink t) := by
    rw [Disk.kindAt_eq_attr, hent.attr _ rfl, if_pos rfl, copyAttr, hkind]
    rfl
  let m₄ : Manager := { m₁ with disk := d, quota := m₁.quota.add (metaLen node) }
  have hpar : m₄.disk.kindAt (deltaPath name (dir ++ [n])).parent = some .dir :=
    Disk.dir_parent (by rw [show m₄.disk = d from rfl, hcopied]; simp)
  rw [writeFirstPlain, bind_ok (show onDisk (Io.ensureParentDirs (deltaPath name (dir ++ [n]))) m₄ =
    .ok () m₄ from onDisk_ok (Sys.createDirAll_of_dir rfl hpar))] at hplain
  exact writeInPlace_keeps_link (m := m₄) hb₁ hcopied hplain

/-- What copy-on-write brings up of a visible file is that file. -/
theorem upAttr_of_file (hb : m.forest.get? name = some b) {c : Bytes}
    (hv : m.view name p = some (.file c)) : ∃ a, m.upAttr b p = some a ∧ a.kind = .file c := by
  have hname := Forest.name_of_get? hb
  rw [Manager.view_eq_overlay hb, shown_eq_some] at hv
  have hov := hv.2
  unfold Manager.upAttr
  rw [hname]
  cases hk : deltaKind m.disk name p with
  | some k =>
    obtain ⟨a, ha, hak⟩ := Disk.exists_attr hk
    rw [overlay_of_some hk] at hov
    refine ⟨a, by rw [ha, Option.some_or], ?_⟩
    rw [hak]
    exact Option.some.inj hov
  | none =>
    by_cases hc : Covers (Whiteout b) p
    · rw [overlay_of_covered hk hc] at hov
      cases hov
    · rw [overlay_of_none hk hc, Manager.inheritedKind_eq, Option.map_eq_some_iff] at hov
      obtain ⟨node, hnode, hkind⟩ := hov
      refine ⟨⟨.file c, node.mode, 0, 0⟩, ?_, rfl⟩
      rw [Disk.attrAt_eq_none.mpr hk, Option.none_or, hnode, Option.bind_some, copyAttr, hkind]

/-- **When a write is a plain file write**: where the path is visible, and otherwise exactly when
nothing of what is inherited there is left in the file. -/
theorem written_iff (h : NameIn m name b dir) {prev : Bytes} {off : Int} {data : Bytes} {k : Nat}
    (hv : m.view name (dir ++ [n]) = some (.file prev) ∨
      (m.view name (dir ++ [n]) = none ∧ prev = []))
    (hok : writeDataToBranch name (dir ++ [n]) off data m = .ok k m') :
    WrittenPlain m m' name (dir ++ [n]) prev off.toNat data ↔
      (m.view name (dir ++ [n]) = none → ∀ e, m.inheritedKind b (dir ++ [n]) = some e →
        NoneLeft off.toNat data e) := by
  have hnotdir : m.view name (dir ++ [n]) ≠ some .dir := by
    rcases hv with hv | ⟨hv, _⟩ <;> simp [hv]
  -- a file that comes up is the one the data goes into
  have plain : ∀ c, (∀ a, m.upAttr b (dir ++ [n]) = some a → a.kind = .file c) →
      (m.upAttr b (dir ++ [n]) = none → c = []) →
      (WrittenPlain m m' name (dir ++ [n]) prev off.toNat data ↔
        splice c off.toNat data = splice prev off.toNat data) := by
    intro c hfile hnone
    obtain ⟨_, hp⟩ := write_placed h (fun a ha => by simp [hfile a ha, Kind.isFile]) hok
    have hkind : (Attr.written (splice · off.toNat data) (m.upAttr b (dir ++ [n]))).kind =
        .file (splice c off.toNat data) := by
      cases hup : m.upAttr b (dir ++ [n]) with
      | none =>
        rw [hnone hup]
        rfl
      | some a =>
        obtain ⟨kind, mode, uid, gid⟩ := a
        obtain rfl : kind = .file c := hfile _ hup
        rfl
    have hself : m'.view name (dir ++ [n]) = some (.file (splice c off.toNat data)) := by
      rw [hp.view_self, hkind]
    constructor
    · intro hw
      have := hw.written
      rw [hself] at this
      injection this with this
      injection this
    · intro heq
      refine ⟨by rw [hself, heq], fun q hq => ?_⟩
      by_cases hpq : dir ++ [n] <+: q
      · rw [view_below_of_not_dir hnotdir hpq hq, view_below_of_not_dir (by simp [hself]) hpq hq]
      · exact hp.view_off h hpq
  rcases hv with hv | ⟨hv, rfl⟩
  · obtain ⟨a, ha, hak⟩ := upAttr_of_file h.branch hv
    refine iff_of_true ((plain prev (fun a' ha' => ?_) fun hnone => ?_).mpr rfl)
      fun hnone => ?_
    · rw [ha] at ha'
      rw [← Option.some.inj ha', hak]
    · rw [ha] at hnone
      cases hnone
    · rw [hv] at hnone
      cases hnone
  · have hfree : deltaKind m.disk name (dir ++ [n]) = none := by
      by_contra hk
      obtain ⟨e, he⟩ := Option.ne_none_iff_exists'.mp hk
      rw [view_of_delta h.branch he] at hv
      cases hv
    have hup : m.upAttr b (dir ++ [n]) = (m.inheritedNode b (dir ++ [n])).bind copyAttr := by
      unfold Manager.upAttr
      rw [Forest.name_of_get? h.branch, Disk.attrAt_eq_none.mpr hfree, Option.none_or]
    have hcond : (m.view name (dir ++ [n]) = none → ∀ e, m.inheritedKind b (dir ++ [n]) = some e →
        NoneLeft off.toNat data e) ↔
        ∀ e, m.inheritedKind b (dir ++ [n]) = some e → NoneLeft off.toNat data e :=
      ⟨fun hall => hall hv, fun hall _ => hall⟩
    rw [hcond]
    cases hnode : m.inheritedNode b (dir ++ [n]) with
    | none =>
      have hnone : m.upAttr b (dir ++ [n]) = none := by
        rw [hup, hnode]
        rfl
      refine iff_of_true ((plain [] (fun a ha => ?_) fun _ => rfl).mpr rfl) fun e he => ?_
      · rw [hnone] at ha
        cases ha
      · rw [Manager.inheritedKind_eq, hnode] at he
        cases he
    | some node =>
      have hkind : m.inheritedKind b (dir ++ [n]) = some node.kind := by
        rw [Manager.inheritedKind_eq, hnode]
        rfl
      have hone : (∀ e, m.inheritedKind b (dir ++ [n]) = some e → NoneLeft off.toNat data e) ↔
          NoneLeft off.toNat data node.kind := by
        rw [hkind]
        simp
      rw [hone]
      rw [hnode, Option.bind_some, copyAttr] at hup
      cases hk : node.kind with
      | dir =>
        rw [hk] at hup
        refine iff_of_true ((plain [] (fun a ha => ?_) fun _ => rfl).mpr rfl) trivial
        rw [hup] at ha
        cases ha
      | symlink t =>
        refine iff_of_false (fun hw => ?_) id
        have hback := write_of_link h hfree (hkind.trans (by rw [hk])) hok
        rw [hw.written] at hback
        cases hback
      | file c =>
        rw [hk] at hup
        refine plain c (fun a ha => ?_) fun hnone => ?_
        · rw [hup] at ha
          rw [← Option.some.inj ha]
        · rw [hup] at hnone
          cases hnone

end Write

/-- Every write that returns Ok is a plain file write. -/
def WritesArePlain : Prop :=
  ∀ (store : FreshStore) ops name b dir n prev off data m',
    let m := run step (Manager.init store) ops
    m.forest.get? name = some b → b.isWritable = true → m.view name dir = some .dir →
    (m.view name (dir ++ [n]) = some (.file prev) ∨
      (m.view name (dir ++ [n]) = none ∧ prev = [])) →
    0 ≤ off → writeDataToBranch name (dir ++ [n]) off data m = .ok data.length m' →
    WrittenPlain m m' name (dir ++ [n]) prev off.toNat data

/-- A file of the base that the branch deletes. -/
def deletedTextOps : List Op :=
  [.host (.write ["f"] [97, 98, 99]), .create "b" "main" .lazy [], .file "b" (.unlink [] "f")]

def deletedText : Manager := run step (Manager.init .bare) deletedTextOps

theorem deletedText_run :
    deletedText.forest.get? "b" = some (deletedText.recordOf "b") ∧
      (deletedText.recordOf "b").isWritable = true ∧ deletedText.view "b" [] = some .dir ∧
      deletedText.view "b" ["f"] = none ∧
      resultOf (writeDataToBranch "b" ["f"] 0 [120]) deletedText = some 1 ∧
      (after (writeDataToBranch "b" ["f"] 0 [120]) deletedText).view "b" ["f"] =
        some (.file [120, 98, 99]) := by
  decide +kernel

/-- Two of the deleted bytes are back. -/
theorem not_writesArePlain : ¬ WritesArePlain := by
  intro h
  obtain ⟨hb, hw, hdir, hv, hok, hafter⟩ := deletedText_run
  have hplain : WrittenPlain deletedText (after (writeDataToBranch "b" ["f"] 0 [120]) deletedText)
      "b" ["f"] [] 0 [120] :=
    h .bare deletedTextOps "b" _ [] "f" [] 0 [120] _ hb hw hdir (Or.inr ⟨hv, rfl⟩) (by decide)
      (ok_of_resultOf hok)
  have hwritten := hplain.written
  rw [hafter] at hwritten
  exact absurd hwritten (by decide)

/-- A tree without entries has no inode twice. -/
theorem numbered_of_empty {d : Tree} {R : Option Root} (h : ∀ e ∈ d.entries, e.1.root ≠ R) :
    Disk.Numbered d R := by
  have hnone : ∀ x : Place, x.root = R → x.path ≠ [] → d.get x = none := by
    intro x hx hp
    unfold Disk.get
    rw [if_neg hp]
    cases hl : d.entries.lookup x with
    | none => rfl
    | some k => exact absurd hx (h _ (mem_of_lookup hl))
  constructor
  · intro x n hx hp hg
    rw [hnone x hx hp] at hg
    cases hg
  · intro x y n n' hx _ hp _ hg _ _
    rw [hnone x hx hp] at hg
    cases hg

/-- A branch that has changed nothing yet, over a base directory without links. -/
theorem nameIn_of_untouched {m : Manager} {name : String} {b : Branch} {dir : RelPath}
    (hb : m.forest.get? name = some b) (hdir : m.view name dir = some .dir)
    (hown : ∀ e ∈ m.disk.entries, ¬ Own name e.1.root)
    (hlinks : ∀ e ∈ m.disk.entries, e.2.kind.isSymlink = false) : NameIn m name b dir where
  branch := hb
  shown := hdir
  capture := canCapture_of_empty fun e he hr => hown e he (hr ▸ own_touchContent name)
  unseen := layersUnseen_of_linkless fun _ _ _ => linkAt_of_entries hlinks _
  numbered := fun _ hR => numbered_of_empty fun e he hr => hown e he (hr ▸ hR)
  staging := by
    unfold Disk.kindAt Disk.get stagingPath
    rw [if_neg (by simp)]
    cases hl : m.disk.entries.lookup ⟨some (.staging name), ["cow.tmp"]⟩ with
    | none => rfl
    | some k => exact absurd (Or.inr (Or.inl rfl)) (hown _ (mem_of_lookup hl))

/-- A file of the base that the branch inherits. -/
def inheritedText : Manager :=
  run step (Manager.init .bare) [.host (.write ["f"] [97, 98, 99]), .create "b" "main" .lazy []]

theorem inheritedText_run :
    inheritedText.forest.get? "b" = some (inheritedText.recordOf "b") ∧
      inheritedText.view "b" [] = some .dir ∧
      inheritedText.view "b" ["f"] = some (.file [97, 98, 99]) ∧
      (∀ e ∈ inheritedText.disk.entries, ¬ Own "b" e.1.root) ∧
      (∀ e ∈ inheritedText.disk.entries, e.2.kind.isSymlink = false) ∧
      resultOf (writeDataToBranch "b" ["f"] 1 [120]) inheritedText = some 1 := by
  decide +kernel

theorem inheritedText_written :
    WrittenPlain inheritedText (after (writeDataToBranch "b" ["f"] 1 [120]) inheritedText) "b" ["f"]
      [97, 98, 99] 1 [120] := by
  obtain ⟨hb, hdir, hv, hown, hlinks, hok⟩ := inheritedText_run
  have hwrite : writeDataToBranch "b" ([] ++ ["f"]) 1 [120] inheritedText =
      .ok 1 (after (writeDataToBranch "b" ["f"] 1 [120]) inheritedText) := ok_of_resultOf hok
  refine (written_iff (nameIn_of_untouched hb hdir hown hlinks) (Or.inl hv) hwrite).mpr
    fun hnone => ?_
  have hseen : inheritedText.view "b" ["f"] = none := hnone
  rw [hv] at hseen
  cases hseen

end BranchFs
