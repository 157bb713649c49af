/-
# BranchFs.Merge.Preserve -- does the parent show what the session showed?

After the commit of a lazy branch without hide rules its parent should show, at every path without a
merged text, the file or link the branch showed before. For a parent that is `main` this fails where
a tombstone of `main` itself covers a committed file, and where `main` shows a file at a directory of
the session; for another parent it fails at empty directories of the session, and where a directory
pruned from the parent's delta had hidden something. Everywhere else it holds.
-/
import BranchFs.Merge.Success

namespace BranchFs

open BranchFs.Posix BranchFs.Logic

/-- After the commit the parent shows the files and links the branch showed, merged texts apart. -/
def KeepsSession (m : Manager) (name parent : String) (order : HashOrder) : Prop :=
  ∀ o m', commitWithReport order name m = .ok o m' →
    ∀ p, PlainPath p → p ∉ o.autoMerges.map CommitAutoMerge.path →
      leaf .dir (m'.view parent p) = leaf .dir (m.view name p)

section

variable {m m' : Manager} {name : String} {b parent : Branch} {K : RelPath → Option Entry}
variable {auto : List CommitAutoMerge} {order : HashOrder}

/-- A graft holds nothing where neither the tree nor the delta does. -/
theorem graft_none {G δ : RelPath → Option Entry} {T : RelPath → Prop} {q : RelPath}
    (hδ : Closed .dir δ) (hG : G q = none) (hq : δ q = none) : graft .dir G T δ q = none := by
  have hl : ¬ Leaf .dir δ q := fun hl => hl.ne_none hq
  by_cases hup : ∃ f, Leaf .dir δ f ∧ f <+: q
  · obtain ⟨f, hf, hfq⟩ := hup
    exact graft_of_leaf_above hl hf hfq
  · rcases graft_cases (K := G) (T := T) hup with ⟨⟨f, hf, hqf⟩, _⟩ | ⟨_, _, hg⟩ | ⟨_, _, hg⟩
    · exact absurd (hδ.above hf.ne_none hqf fun heq => hl (heq ▸ hf)) (by rw [hq]; simp)
    · exact hg
    · exact hg.trans hG

/-- Nothing is shown in the place of a side name. -/
theorem leaf_shown_of_none {G : RelPath → Option Entry} {q : RelPath} (h : G q = none) :
    leaf .dir (shown .dir G q) = none := leaf_shown_eq_none (by rw [h, leaf_none])

theorem overlay_none {δ I : RelPath → Option Entry} {T : RelPath → Prop} {q : RelPath}
    (hδ : δ q = none) (hI : I q = none) : overlay δ T I q = none := by
  by_contra hne
  obtain ⟨k, hk⟩ := Option.ne_none_iff_exists'.mp hne
  rcases overlay_eq_some hk with h | h
  · rw [hδ] at h
    cases h
  · rw [hI] at h
    cases h

/-- The merged texts apart, the session shows the same with them as without. -/
theorem Committed.shape (hc : Committed m name auto K) (q : RelPath) :
    (K q = deltaKind m.disk name q) ∨ Leaf .dir K q ∧ Leaf .dir (deltaKind m.disk name) q := by
  rcases shape_cases .dir (deltaKind m.disk name) q with hl | hd | hn
  · exact Or.inr ⟨(hc.leaf q).mpr hl, hl⟩
  · exact Or.inl (((hc.dir q).mpr hd).trans hd.symm)
  · refine Or.inl ?_
    rcases shape_cases .dir K q with hl | hd | hn'
    · exact absurd hn ((hc.leaf q).mp hl).ne_none
    · have := (hc.dir q).mp hd
      rw [hn] at this
      cases this
    · rw [hn', hn]

theorem leaf_shown_committed (hc : Committed m name auto K) {T : RelPath → Prop}
    {I : RelPath → Option Entry} {q : RelPath} (hq : q ∉ auto.map CommitAutoMerge.path) :
    leaf .dir (shown .dir (overlay K T I) q) =
      leaf .dir (shown .dir (overlay (deltaKind m.disk name) T I) q) := by
  have hdir : ∀ a, overlay K T I a = some .dir ↔
      overlay (deltaKind m.disk name) T I a = some .dir := by
    intro a
    rcases hc.shape a with heq | ⟨⟨k, hk, hkd⟩, ⟨k', hk', hkd'⟩⟩
    · unfold overlay
      rw [heq]
    · rw [overlay_of_some hk, overlay_of_some hk']
      exact iff_of_false (fun h => hkd (Option.some.inj h)) fun h => hkd' (Option.some.inj h)
  refine leaf_shown_eq ?_ ?_ ?_
  · unfold overlay
    rw [hc.eq q hq]
  · exact fun a _ _ h hnot => absurd ((hdir a).mpr h) hnot
  · exact fun a _ _ h hnot => absurd ((hdir a).mp h) hnot

/-- A layer, the session's own delta and what the parent shows hold nothing at a side name. -/
theorem Session.none_at_side (h : Session m name b parent) {q : RelPath} (hq : ¬ PlainPath q) :
    deltaKind m.disk name q = none ∧ deltaKind m.disk parent.name q = none ∧
      m.flatInherited parent q = none := by
  refine ⟨h.clean _ (Or.inl rfl) q hq, ?_, ?_⟩
  · exact h.clean _ (Or.inr (Manager.parent_files_mem_layers h.branch h.up)) q hq
  · by_contra hne
    obtain ⟨r, hr, hk⟩ := Manager.flatInherited_mem_layers h.record hne
    exact hk (h.clean r (Or.inr (Manager.layers_parent_subset h.branch h.up r hr)) q hq)

theorem Committed.none_at_side (h : Session m name b parent) (hc : Committed m name auto K)
    {q : RelPath} (hq : ¬ PlainPath q) : K q = none := by
  rcases hc.shape q with heq | ⟨_, hl⟩
  · rw [heq, (h.none_at_side hq).1]
  · exact absurd (h.committable.file q hl) hq

/-! ## A parent that is `main` -/

/-- What a text was merged with is no tombstone of `main`, unless `main` has tombstones above its own
files. -/
theorem Session.not_covered_of_merged (h : Session m name b parent) (hmain : parent.name = "main")
    (hc : Committed m name auto K) (hlazy : b.inheritance = .lazy) (hhide : b.hidePaths = [])
    (hown : ∀ f, deltaKind m.disk "main" f ≠ none → ¬ Covers (Whiteout parent) f)
    {q : RelPath} (hq : q ∈ auto.map CommitAutoMerge.path) :
    Leaf .dir K q ∧ ¬ Covers (Whiteout parent) q := by
  obtain ⟨hleaf, d, hsame, hinh⟩ := hc.mergedOver q hq
  refine ⟨(hc.leaf q).mpr hleaf, ?_⟩
  have hst := h.committable.straight q (Or.inr hleaf)
  have hkind : ∀ r ∈ m.layers name, ∀ x : Place, x.root = some r → d.kindAt x = m.disk.kindAt x := by
    intro r hr x hx
    refine hsame.kindAt ?_
    rw [hx]
    rintro ⟨rfl⟩
    simp [Manager.layers] at hr
  have hflat : { m with disk := d }.flatInherited b q ≠ none := by
    have hkinds := hinh b h.branch
    rw [ne_eq, ← Manager.inheritedKind_eq_none,
      Manager.inheritedKind_eq_flat (m := { m with disk := d }) h.branch] at hkinds
    · exact hkinds
    · intro r hr
      refine (hst r hr).of_le fun x hx _ hl => ?_
      unfold Disk.linkAt at hl ⊢
      rwa [hkind r hr x hx.1] at hl
  have hsameFlat : { m with disk := d }.flatInherited b q = m.flatInherited b q :=
    Manager.flatInherited_congr { m with disk := d } h.branch h.branch ⟨rfl, rfl, rfl, rfl⟩ rfl
      fun r hr => hkind r hr _ rfl
  rw [hsameFlat, Manager.flatInherited_lazy h.up hlazy hhide, hmain, h.flat_main hmain] at hflat
  intro hcov
  refine hflat (overlay_of_covered ?_ hcov)
  by_contra hne
  exact hown q hne hcov

/-- No tombstone of `main` covers a file of the session, and `main` shows no file where the session
has a directory it has not deleted first. -/
def ApartFromMain (m : Manager) (name : String) (b main : Branch) : Prop :=
  (∀ f, Leaf .dir (deltaKind m.disk name) f → ¬ Covers (Whiteout main) f) ∧
    NoLeafUnder .dir (m.flat main.name) (· ∈ b.tombstones) (deltaKind m.disk name)

/-- **When a commit into `main` keeps the session.** It does when the session is apart from `main`;
and as long as the tombstones of `main` cover nothing in its own delta, only then. -/
theorem keeps_session_main_iff (h : Session m name b parent) (hmain : parent.name = "main")
    (hlazy : b.inheritance = .lazy) (hhide : b.hidePaths = []) (order : HashOrder) :
    ((Commits m name b (destination parent.name) order → ApartFromMain m name b parent) →
      KeepsSession m name parent.name order) ∧
    ((∀ f, deltaKind m.disk "main" f ≠ none → ¬ Covers (Whiteout parent) f) →
      (KeepsSession m name parent.name order ↔
        (Commits m name b (destination parent.name) order → ApartFromMain m name b parent))) := by
  -- the views of both sides, as walks through overlays
  have hbefore : ∀ p, m.view name p = shown .dir (overlay (deltaKind m.disk name)
      (· ∈ b.tombstones) (m.flat parent.name)) p := by
    intro p
    rw [h.view_lazy hlazy hhide, h.whiteouts]
  have hflat : m.flat parent.name = overlay (deltaKind m.disk "main") (Whiteout parent)
      (baseKind m.disk) := by
    rw [← h.flat_main hmain, hmain]
  have hshape : ∀ {auto K}, Committed m name auto K →
      (NoLeafUnder .dir (m.flat parent.name) (· ∈ b.tombstones) K ↔
        NoLeafUnder .dir (m.flat parent.name) (· ∈ b.tombstones) (deltaKind m.disk name)) :=
    fun hc => forall_congr' fun g => by rw [hc.dir]
  have hforward : (Commits m name b (destination parent.name) order →
      ApartFromMain m name b parent) → KeepsSession m name parent.name order := by
    intro hcond o m' hok p _ hp
    rcases h.commit_main hmain order with ⟨hgo, o', m'', K, hrun, hc, hi⟩ | ⟨_, e, m'', herror⟩
    swap
    · rw [hok] at herror
      cases herror
    rw [hok] at hrun
    cases hrun
    obtain ⟨hcover, hleaf⟩ := hcond hgo
    rw [hbefore, hflat, hmain, h.view_main_after hmain hc hi, ← leaf_shown_committed hc hp]
    refine shown_after_base hc.closed (deltaKind_closed _ _) (baseKind_closed _) hi.delta ?_ ?_ p
    · exact fun f hf => hcover f ((hc.leaf f).mp hf)
    · rw [← hflat]
      exact (hshape hc).mpr hleaf
  refine ⟨hforward, fun hown => ⟨?_, hforward⟩⟩
  intro hkeeps hgo
  rcases h.commit_main hmain order with ⟨_, o, m', K, hok, hc, hi⟩ | ⟨hstop, _⟩
  swap
  · exact absurd hgo hstop
  have hshown : ∀ q, q ∉ o.autoMerges.map CommitAutoMerge.path →
      leaf .dir (shown .dir (overlay (deltaKind m'.disk "main") (Whiteout parent)
        (graft .dir (baseKind m.disk) (· ∈ b.tombstones) K)) q) =
      leaf .dir (shown .dir (overlay K (· ∈ b.tombstones) (overlay (deltaKind m.disk "main")
        (Whiteout parent) (baseKind m.disk))) q) := by
    intro q hq
    by_cases hplain : PlainPath q
    · have heq := hkeeps o m' hok q hplain hq
      rw [hbefore, hflat, hmain, h.view_main_after hmain hc hi, ← leaf_shown_committed hc hq] at heq
      exact heq
    · obtain ⟨hδ, hP, _⟩ := h.none_at_side hplain
      have hK := hc.none_at_side h hplain
      have hbase : baseKind m.disk q = none :=
        h.clean _ (Or.inr (m.base_mem_layers name)) q hplain
      rw [hmain] at hP
      rw [leaf_shown_of_none (overlay_none hK (overlay_none hP hbase)), leaf_shown_of_none]
      refine overlay_none ?_ (graft_none hc.closed hbase hK)
      by_cases hgone : Covers (· ∈ b.tombstones) q ∨ ∃ f, Leaf .dir K f ∧ f <+: q
      · exact (hi.delta q).1 hgone
      · push Not at hgone
        rw [(hi.delta q).2 hgone.1 fun ⟨f, hf, hfq⟩ => hgone.2 f hf hfq, hP]
  have hconditions := conditions_of_shown_base hc.closed (deltaKind_closed m.disk "main")
    (baseKind_closed m.disk) hi.delta (h.unblocked hmain hc hgo)
    (fun q hq => h.not_covered_of_merged hmain hc hlazy hhide hown hq) hshown
  refine ⟨fun f hf => hconditions.1 f ((hc.leaf f).mpr hf), (hshape hc).mp ?_⟩
  rw [hflat]
  exact hconditions.2

/-! ## A parent that is another branch -/

/-- **When a nested commit keeps the session**: exactly when the parent shows no file where the session
has an empty directory, and no directory that is pruned had hidden a file. -/
theorem keeps_session_nested_iff (h : Session m name b parent) (hmain : parent.name ≠ "main")
    (hlazy : b.inheritance = .lazy) (hhide : b.hidePaths = []) (order : HashOrder) :
    KeepsSession m name parent.name order ↔
      (Commits m name b (destination parent.name) order →
        NoLeafUnderEmpty .dir (m.flat parent.name) (· ∈ b.tombstones) (deltaKind m.disk name) ∧
          NoLeafUncovered .dir (m.flatInherited parent) (Whiteout parent)
            (EmptiedDir m name b parent)) := by
  have hbefore : ∀ p, m.view name p = shown .dir (overlay (deltaKind m.disk name)
      (· ∈ b.tombstones) (m.flat parent.name)) p := by
    intro p
    rw [h.view_lazy hlazy hhide, h.whiteouts]
  have hshape : ∀ {auto K}, Committed m name auto K →
      (NoLeafUnderEmpty .dir (m.flat parent.name) (· ∈ b.tombstones) K ↔
        NoLeafUnderEmpty .dir (m.flat parent.name) (· ∈ b.tombstones) (deltaKind m.disk name)) := by
    intro auto K hc
    refine forall_congr' fun g => ?_
    rw [hc.dir, funext fun f => propext (hc.leaf f)]
  constructor
  · intro hkeeps hgo
    rcases h.commit_nested hmain order with ⟨_, o, m', K, hok, hc, hi⟩ | ⟨hstop, _⟩
    swap
    · exact absurd hgo hstop
    have hconditions := conditions_of_shown_nested hc.closed
      (deltaKind_closed m.disk parent.name) hc.pruned h.sealed (W := Whiteout parent)
      (T := (· ∈ b.tombstones)) (D := EmptiedDir m name b parent) ?_
    · rw [← h.flat_parent, hshape hc] at hconditions
      exact hconditions
    · intro q hq
      have hauto : q ∉ o.autoMerges.map CommitAutoMerge.path :=
        fun hmem => hq ((hc.leaf q).mpr (hc.mergedOver q hmem).1)
      by_cases hplain : PlainPath q
      · have heq := hkeeps o m' hok q hplain hauto
        rw [hbefore, h.view_parent_after hc hi, ← leaf_shown_committed hc hauto, h.flat_parent] at heq
        exact heq
      · obtain ⟨_, hP, hI⟩ := h.none_at_side hplain
        have hK := hc.none_at_side h hplain
        rw [leaf_shown_of_none (overlay_none hK (overlay_none hP hI)), leaf_shown_of_none]
        refine overlay_none ?_ hI
        unfold prune
        rw [graft_none hc.closed hP hK]
        exact ite_self none
  · intro hcond o m' hok p _ hp
    rcases h.commit_nested hmain order with ⟨hgo, o', m'', K, hrun, hc, hi⟩ | ⟨_, e, m'', herror⟩
    swap
    · rw [hok] at herror
      cases herror
    rw [hok] at hrun
    cases hrun
    obtain ⟨hempty, huncovered⟩ := hcond hgo
    rw [hbefore, h.view_parent_after hc hi, ← leaf_shown_committed hc hp, h.flat_parent]
    refine shown_after_nested hc.closed (deltaKind_closed _ _) hc.pruned h.sealed ?_ huncovered p
    rw [← h.flat_parent]
    exact (hshape hc).mpr hempty

end

/-! ## Sessions that are lost -/

/-- Every commit into `main` keeps its session. -/
def MainKeepsSessions : Prop :=
  ∀ m, Reachable m → ∀ name b, m.forest.get? name = some b → m.forest.isLeaf name = true →
    b.parent = some "main" → b.inheritance = .lazy → b.hidePaths = [] →
      ∀ order, KeepsSession m name "main" order

/-- Every commit into another branch keeps its session. -/
def ParentsKeepSessions : Prop :=
  ∀ m, Reachable m → ∀ name b parent, m.forest.get? name = some b → m.forest.isLeaf name = true →
    b.parent = some parent → parent ≠ "main" → b.inheritance = .lazy → b.hidePaths = [] →
      ∀ order, KeepsSession m name parent order

/-- A branch that made a file at a name `main` had deleted. -/
def madeOverTombstone : Manager :=
  run step (Manager.init .bare)
    [.host (.write ["f"] [120]), .file "main" (.unlink [] "f"), .create "b" "main" .lazy [],
      .file "b" (.create [] "f" 0o644)]

/-- A branch that renamed an empty directory over a file. -/
def emptyDirOverFile : Manager :=
  run step (Manager.init .bare)
    [.host (.write ["d"] [120]), .create "p" "main" .lazy [], .create "c" "p" .lazy [],
      .file "c" (.mkdir [] "g" 0o755), .file "c" (.unlink [] "d"),
      .file "c" (.rename [] "g" [] "d" false)]

/-- The tombstone of `main` hides the file that was committed. -/
theorem madeOverTombstone_run :
    PlainSession madeOverTombstone "b" (madeOverTombstone.recordOf "b")
        (madeOverTombstone.recordOf "main") ∧
      (madeOverTombstone.recordOf "main").name = "main" ∧
      (madeOverTombstone.recordOf "b").inheritance = .lazy ∧
      (madeOverTombstone.recordOf "b").hidePaths = [] ∧
      (outcomeOf madeOverTombstone "b").map CommitOutcome.autoMerges = some [] ∧
      madeOverTombstone.view "b" ["f"] = some (.file []) ∧
      (after (commitWithReport .listed "b") madeOverTombstone).view "main" ["f"] = none := by
  decide +kernel

/-- The parent still shows the file the directory has replaced. -/
theorem emptyDirOverFile_run :
    PlainSession emptyDirOverFile "c" (emptyDirOverFile.recordOf "c")
        (emptyDirOverFile.recordOf "p") ∧
      (emptyDirOverFile.recordOf "p").name = "p" ∧
      (emptyDirOverFile.recordOf "c").inheritance = .lazy ∧
      (emptyDirOverFile.recordOf "c").hidePaths = [] ∧
      (outcomeOf emptyDirOverFile "c").map CommitOutcome.autoMerges = some [] ∧
      emptyDirOverFile.view "c" ["d"] = some .dir ∧
      (after (commitWithReport .listed "c") emptyDirOverFile).view "p" ["d"] = some (.file [120]) := by
  decide +kernel

theorem madeOverTombstone_lost : ¬ KeepsSession madeOverTombstone "b" "main" .listed := by
  intro h
  obtain ⟨_, _, _, _, houtcome, hbefore, hafter⟩ := madeOverTombstone_run
  obtain ⟨o, hok, hauto⟩ := ok_of_outcome madeOverTombstone "b" houtcome
  have heq := h o _ hok ["f"] (by decide) (by rw [hauto]; simp)
  rw [hafter, hbefore, leaf_none, leaf_of_ne (by simp)] at heq
  cases heq

theorem emptyDirOverFile_lost : ¬ KeepsSession emptyDirOverFile "c" "p" .listed := by
  intro h
  obtain ⟨_, _, _, _, houtcome, hbefore, hafter⟩ := emptyDirOverFile_run
  obtain ⟨o, hok, hauto⟩ := ok_of_outcome emptyDirOverFile "c" houtcome
  have heq := h o _ hok ["d"] (by decide) (by rw [hauto]; simp)
  rw [hafter, hbefore, leaf_dir, leaf_of_ne (by simp)] at heq
  cases heq

theorem not_mainKeepsSessions : ¬ MainKeepsSessions := by
  intro h
  obtain ⟨hplain, hname, hlazy, hhide, _⟩ := madeOverTombstone_run
  have hs := hplain.session
  exact madeOverTombstone_lost (h madeOverTombstone ⟨.bare, _, rfl⟩ "b" _ hs.branch hs.leaf
    (hname ▸ hs.up) hlazy hhide .listed)

theorem not_parentsKeepSessions : ¬ ParentsKeepSessions := by
  intro h
  obtain ⟨hplain, hname, hlazy, hhide, _⟩ := emptyDirOverFile_run
  have hs := hplain.session
  exact emptyDirOverFile_lost (h emptyDirOverFile ⟨.bare, _, rfl⟩ "c" _ "p" hs.branch hs.leaf
    (hname ▸ hs.up) (by decide) hlazy hhide .listed)

/-- The lost file is one that a tombstone of `main` covers. -/
theorem madeOverTombstone_not_apart :
    ¬ (Commits madeOverTombstone "b" (madeOverTombstone.recordOf "b")
        (destination (madeOverTombstone.recordOf "main").name) .listed →
      ApartFromMain madeOverTombstone "b" (madeOverTombstone.recordOf "b")
        (madeOverTombstone.recordOf "main")) := by
  intro happart
  obtain ⟨hplain, hname, hlazy, hhide, _⟩ := madeOverTombstone_run
  have hkeeps := (keeps_session_main_iff hplain.session hname hlazy hhide .listed).1 happart
  rw [hname] at hkeeps
  exact madeOverTombstone_lost hkeeps

/-- The directory that replaced the file is empty, or a pruned one uncovers a file. -/
theorem emptyDirOverFile_not_kept :
    ¬ (Commits emptyDirOverFile "c" (emptyDirOverFile.recordOf "c")
        (destination (emptyDirOverFile.recordOf "p").name) .listed →
      NoLeafUnderEmpty .dir (emptyDirOverFile.flat (emptyDirOverFile.recordOf "p").name)
          (· ∈ (emptyDirOverFile.recordOf "c").tombstones) (deltaKind emptyDirOverFile.disk "c") ∧
        NoLeafUncovered .dir (emptyDirOverFile.flatInherited (emptyDirOverFile.recordOf "p"))
          (Whiteout (emptyDirOverFile.recordOf "p"))
          (EmptiedDir emptyDirOverFile "c" (emptyDirOverFile.recordOf "c")
            (emptyDirOverFile.recordOf "p"))) := by
  intro hcond
  obtain ⟨hplain, hname, hlazy, hhide, _⟩ := emptyDirOverFile_run
  have hkeeps := (keeps_session_nested_iff hplain.session (by rw [hname]; decide) hlazy hhide
    .listed).mpr hcond
  rw [hname] at hkeeps
  exact emptyDirOverFile_lost hkeeps

end BranchFs
