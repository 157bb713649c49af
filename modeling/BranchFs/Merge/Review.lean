/-
# BranchFs.Merge.Review -- what was reviewed is what changes

The status of a branch lists its files and tombstones, each once. A commit should change what the
parent shows at or below those paths only. Into `main` it does; into another branch it does unless a
directory of the session takes the place of a file of the parent, or a pruned directory uncovers one.

Hidden paths are the case where the session did not see what it changed: a file of the parent at a
hidden path survives exactly when the commit leaves its path untouched.
-/
import BranchFs.Merge.Preserve
import Mathlib.Data.List.Count
import Mathlib.Data.List.Dedup

namespace BranchFs

open BranchFs.Posix BranchFs.Logic

/-- Whatever changes is at or below an entry of the review. -/
def Announced (diff : List DiffEntry) (before after : RelPath → Option Entry) : Prop :=
  ∀ q, leaf .dir (after q) ≠ leaf .dir (before q) → ∃ e ∈ diff, e.path <+: q

/-- How often a review lists a path with an operation. -/
def timesListed (diff : List DiffEntry) (op : DiffOp) (p : RelPath) : Nat :=
  (diff.map fun e => (e.op, e.path)).count (op, p)

/-- The review of a branch is complete, and lists what the branch holds once. -/
def ReviewComplete (m : Manager) (name parent : String) (order order' : HashOrder) : Prop :=
  ∀ s o m', branchStatus m order name = .ok s → commitWithReport order' name m = .ok o m' →
    Announced s.diff (m.view parent) (m'.view parent) ∧
    (parent = "main" → Announced s.diff (baseKind m.disk) (baseKind m'.disk)) ∧
    (∀ f, Leaf .dir (deltaKind m.disk name) f → timesListed s.diff .delta f = 1) ∧
    ∀ t ∈ (m.recordOf name).tombstones, timesListed s.diff .delete t = 1

section

variable {m m' : Manager} {name : String} {b parent : Branch} {K : RelPath → Option Entry}
variable {auto : List CommitAutoMerge} {s : BranchStatus} {order order' : HashOrder}

theorem Manager.recordOf_eq (h : m.forest.get? name = some b) : m.recordOf name = b := by
  unfold Manager.recordOf
  rw [h, Option.getD_some]

/-- The review lists the files and the tombstones. -/
theorem status_diff (hb : m.forest.get? name = some b) (hs : branchStatus m order name = .ok s) :
    s.diff.Perm ((walkFiles m.disk name).map (entryOf m.disk) ++ b.tombstones.dedup.map deleteEntry) := by
  obtain ⟨s', hs', hperm⟩ := branchStatus_diff order hb
  rw [hs] at hs'
  cases hs'
  exact hperm

/-- No entry of the review is at or above an untouched path, and only those. -/
theorem listed_iff (hb : m.forest.get? name = some b) (hs : branchStatus m order name = .ok s)
    (q : RelPath) : (∃ e ∈ s.diff, e.path <+: q) ↔
      ¬ Untouched .dir (deltaKind m.disk name) (· ∈ b.tombstones) q := by
  have hmem : ∀ e, e ∈ s.diff ↔ (∃ f ∈ walkFiles m.disk name, entryOf m.disk f = e) ∨
      ∃ t ∈ b.tombstones, deleteEntry t = e := by
    intro e
    rw [(status_diff hb hs).mem_iff, List.mem_append, List.mem_map, List.mem_map]
    simp only [List.mem_dedup]
  constructor
  · rintro ⟨e, he, hle⟩ hu
    rcases (hmem e).mp he with ⟨f, hf, rfl⟩ | ⟨t, ht, rfl⟩
    · exact hu.notBelow ⟨f.1, (mem_walkFiles.mp hf).2, hle⟩
    · exact hu.notDeleted ⟨t, ht, hle⟩
  · intro hu
    by_contra hno
    push Not at hno
    refine hu ⟨?_, ?_⟩
    · rintro ⟨t, ht, hle⟩
      exact hno _ ((hmem _).mpr (Or.inr ⟨t, ht, rfl⟩)) hle
    · rintro ⟨f, hf, hle⟩
      have hfile : (f, deltaPath name f) ∈ walkFiles m.disk name := mem_walkFiles.mpr ⟨rfl, hf⟩
      exact hno _ ((hmem _).mpr (Or.inl ⟨_, hfile, rfl⟩)) hle

/-- Each file and each tombstone is listed once. -/
theorem listed_once (hb : m.forest.get? name = some b) (hs : branchStatus m order name = .ok s) :
    (∀ f, Leaf .dir (deltaKind m.disk name) f → timesListed s.diff .delta f = 1) ∧
      ∀ t ∈ b.tombstones, timesListed s.diff .delete t = 1 := by
  have hcount : ∀ op p, timesListed s.diff op p =
      ((walkFiles m.disk name).map fun f => (DiffOp.delta, f.1)).count (op, p) +
        (b.tombstones.dedup.map fun t => (DiffOp.delete, t)).count (op, p) := by
    intro op p
    have hperm := (status_diff hb hs).map fun e => (e.op, e.path)
    unfold timesListed
    rw [hperm.count_eq, List.map_append, List.count_append, List.map_map, List.map_map]
    rfl
  have hinj : ∀ op : DiffOp, Function.Injective fun p : RelPath => (op, p) :=
    fun op p q heq => (Prod.mk.injEq ..  ▸ heq : _ ∧ _).2
  have hother : ∀ (op op' : DiffOp) (p : RelPath) (ps : List RelPath), op ≠ op' →
      (ps.map fun p => (op', p)).count (op, p) = 0 := by
    intro op op' p ps hne
    refine List.count_eq_zero.mpr fun hmem => ?_
    obtain ⟨_, _, heq⟩ := List.mem_map.mp hmem
    exact hne (congrArg Prod.fst heq).symm
  have hwalk : ((walkFiles m.disk name).map fun f => (DiffOp.delta, f.1)) =
      ((walkFiles m.disk name).map Prod.fst).map fun p => (DiffOp.delta, p) := by
    rw [List.map_map]
    rfl
  constructor
  · intro f hf
    rw [hcount, hother .delta .delete f _ (by decide), hwalk,
      List.count_map_of_injective _ _ (hinj .delta),
      List.count_eq_one_of_mem (walkFiles_antichain m.disk name).nodup (mem_walkFiles_fst.mpr hf)]
  · intro t ht
    rw [hcount, hwalk, hother .delete .delta t _ (by decide),
      List.count_map_of_injective _ _ (hinj .delete),
      List.count_eq_one_of_mem (List.nodup_dedup _) (List.mem_dedup.mpr ht)]

/-- What the session touches does not depend on merged texts. -/
theorem Committed.untouched (hc : Committed m name auto K) {T : RelPath → Prop} {q : RelPath} :
    Untouched .dir K T q ↔ Untouched .dir (deltaKind m.disk name) T q := by
  constructor
  · exact fun hu => ⟨hu.notDeleted, fun ⟨f, hf, hle⟩ => hu.notBelow ⟨f, (hc.leaf f).mpr hf, hle⟩⟩
  · exact fun hu => ⟨hu.notDeleted, fun ⟨f, hf, hle⟩ => hu.notBelow ⟨f, (hc.leaf f).mp hf, hle⟩⟩

/-- A commit into `main` leaves untouched paths of the base directory alone. -/
theorem base_untouched (h : Session m name b parent) (hmain : parent.name = "main")
    (hc : Committed m name auto K) (hi : IntoBase m name b K m')
    (hok : Unblocked .dir (baseKind m.disk) (· ∈ b.tombstones) K) {q : RelPath}
    (hu : Untouched .dir K (· ∈ b.tombstones) q) :
    leaf .dir (baseKind m'.disk q) = leaf .dir (baseKind m.disk q) := by
  rw [h.base_after hmain hc hi]
  rcases graft_cases (K := baseKind m.disk) (T := (· ∈ b.tombstones)) hu.notBelow with
    ⟨⟨f, hf, hqf⟩, hg⟩ | ⟨_, hT, _⟩ | ⟨_, _, hg⟩
  · have hway := hok f q hf hqf (fun heq => hu.notBelow ⟨f, hf, heq ▸ List.prefix_rfl⟩) hu.notDeleted
    rw [hg, leaf_dir, leaf_eq_none.mpr hway]
  · exact absurd hT hu.notDeleted
  · rw [hg]

/-- What `main` shows before and after a commit. -/
theorem Session.views_main (h : Session m name b parent) (hmain : parent.name = "main")
    (hc : Committed m name auto K) (hi : IntoBase m name b K m') :
    (∀ q, m.view parent.name q = shown .dir (overlay (deltaKind m.disk "main") (Whiteout parent)
      (baseKind m.disk)) q) ∧
    ∀ q, m'.view parent.name q = shown .dir (overlay (deltaKind m'.disk "main") (Whiteout parent)
      (graft .dir (baseKind m.disk) (· ∈ b.tombstones) K)) q := by
  constructor
  · intro q
    rw [h.view_parent q, hmain, h.flat_main hmain]
  · intro q
    rw [hmain, h.view_main_after hmain hc hi]

/-- **When the review is complete**: always for a commit into `main`; for a commit into another branch
exactly when no directory above a file of the session takes the place of a file of the parent, and no
pruned directory uncovers one. -/
theorem review_complete_iff (h : Session m name b parent) (order order' : HashOrder) :
    ReviewComplete m name parent.name order order' ↔
      (parent.name ≠ "main" → Commits m name b (destination parent.name) order' →
        NoLeafOver .dir (m.flat parent.name) (· ∈ b.tombstones) (deltaKind m.disk name) ∧
          NoLeafUncovered .dir (m.flatInherited parent) (Whiteout parent)
            (EmptiedDir m name b parent)) := by
  have hover : ∀ {auto K}, Committed m name auto K →
      (NoLeafOver .dir (m.flat parent.name) (· ∈ b.tombstones) K ↔
        NoLeafOver .dir (m.flat parent.name) (· ∈ b.tombstones) (deltaKind m.disk name)) := by
    intro auto K hc
    unfold NoLeafOver
    rw [funext fun f => propext (hc.leaf f)]
  have hrecord := Manager.recordOf_eq h.branch
  constructor
  · intro hreview hmain hgo
    rcases h.commit_nested hmain order' with ⟨_, o, m', K, hok, hc, hi⟩ | ⟨hstop, _⟩
    swap
    · exact absurd hgo hstop
    obtain ⟨s, hs, _⟩ := branchStatus_diff order h.branch
    have hannounced := (hreview s o m' hs hok).1
    rw [← hover hc, h.flat_parent]
    refine (untouched_nested_iff hc.closed (deltaKind_closed m.disk parent.name) hc.pruned h.sealed).mp ?_
    intro q hu
    by_contra hne
    rw [← h.view_parent_after hc hi, ← h.flat_parent, ← h.view_parent] at hne
    exact (listed_iff h.branch hs q).mp (hannounced q hne) (hc.untouched.mp hu)
  · intro hcond s o m' hs hok
    obtain ⟨honce, hdeleted⟩ := listed_once h.branch hs
    by_cases hmain : parent.name = "main"
    · rcases h.commit_main hmain order' with ⟨hgo, o', m'', K, hrun, hc, hi⟩ | ⟨_, e, m'', herror⟩
      swap
      · rw [hok] at herror
        cases herror
      rw [hok] at hrun
      cases hrun
      have hopen := h.unblocked hmain hc hgo
      obtain ⟨hbefore, hafter⟩ := h.views_main hmain hc hi
      refine ⟨fun q hne => ?_, fun _ q hne => ?_, honce, by rw [hrecord]; exact hdeleted⟩
      · refine (listed_iff h.branch hs q).mpr fun hu => hne ?_
        rw [hbefore, hafter]
        exact leaf_shown_untouched_base (deltaKind_closed _ _) (baseKind_closed _) hi.delta hopen
          (hc.untouched.mpr hu)
      · refine (listed_iff h.branch hs q).mpr fun hu => hne ?_
        exact base_untouched h hmain hc hi hopen (hc.untouched.mpr hu)
    · rcases h.commit_nested hmain order' with ⟨hgo, o', m'', K, hrun, hc, hi⟩ | ⟨_, e, m'', herror⟩
      swap
      · rw [hok] at herror
        cases herror
      rw [hok] at hrun
      cases hrun
      refine ⟨fun q hne => ?_, fun heq => absurd heq hmain, honce, by rw [hrecord]; exact hdeleted⟩
      refine (listed_iff h.branch hs q).mpr fun hu => hne ?_
      rw [h.view_parent_after hc hi, h.view_parent, h.flat_parent]
      have hconditions := hcond hmain hgo
      rw [← hover hc, h.flat_parent] at hconditions
      exact (untouched_nested_iff hc.closed (deltaKind_closed m.disk parent.name) hc.pruned
        h.sealed).mpr hconditions q (hc.untouched.mpr hu)

/-! ## Hidden paths -/

/-- At a hidden path the session has made nothing, nor at a hidden path above. -/
def HiddenAndBare (m : Manager) (name : String) (b : Branch) (q : RelPath) : Prop :=
  b.isHidden q = true ∧ ∀ a, a <+: q → b.isHidden a = true → deltaKind m.disk name a = none

/-- The commit keeps every file and link of the parent at the hidden paths the session left bare. -/
def KeepsHidden (m : Manager) (name parent : String) (b : Branch) (order : HashOrder) : Prop :=
  ∀ o m', commitWithReport order name m = .ok o m' → ∀ q, HiddenAndBare m name b q →
    (∀ k, leaf .dir (m.view parent q) = some k → leaf .dir (m'.view parent q) = some k) ∧
    (parent = "main" → ∀ k, leaf .dir (baseKind m.disk q) = some k →
      leaf .dir (baseKind m'.disk q) = some k)

/-- A file or link of the parent, or of the base directory where the parent is `main`. -/
def HeldByParent (m : Manager) (parent : String) (q : RelPath) : Prop :=
  leaf .dir (m.view parent q) ≠ none ∨ parent = "main" ∧ leaf .dir (baseKind m.disk q) ≠ none

/-- No directory pruned above the path uncovers a leaf. -/
def UncoveredNowhere (m : Manager) (name : String) (b parent : Branch) (q : RelPath) : Prop :=
  ∀ a, a <+: q → EmptiedDir m name b parent a → leaf .dir (m.flatInherited parent a) = none

/-- A path the parent shows a file at, in a commit into the parent's delta. -/
theorem leaf_kept_nested_iff (h : Session m name b parent) (hc : Committed m name auto K)
    (hi : IntoParent m name b parent K m') {q : RelPath} (hq : deltaKind m.disk name q = none) {k : Entry}
    (hk : leaf .dir (m.view parent.name q) = some k) :
    leaf .dir (m'.view parent.name q) = some k ↔
      Untouched .dir (deltaKind m.disk name) (· ∈ b.tombstones) q ∧
        UncoveredNowhere m name b parent q := by
  have hKq : K q = none := by
    rcases hc.shape q with heq | ⟨_, hl⟩
    · exact heq.trans hq
    · exact absurd hq hl.ne_none
  rw [h.view_parent, h.flat_parent] at hk
  rw [h.view_parent_after hc hi, ← hc.untouched]
  obtain ⟨hshown, hkd⟩ := leaf_eq_some.mp hk
  obtain ⟨hway, hself⟩ := shown_eq_some.mp hshown
  have hnotDir : ∀ x, deltaKind m.disk parent.name x = some .dir → x ≠ q := by
    rintro x hx rfl
    rw [overlay_of_some hx] at hself
    exact hkd (Option.some.inj hself).symm
  constructor
  · intro hafter
    have hu : Untouched .dir K (· ∈ b.tombstones) q := by
      by_contra hu
      rw [leaf_shown_touched_nested hc.closed hc.pruned h.sealed hKq hu] at hafter
      cases hafter
    refine ⟨hu, fun a ha hDa => ?_⟩
    by_contra hIa
    have hne : a ≠ q := hnotDir a (hc.pruned.was_dir hDa).2
    have hPq : deltaKind m.disk parent.name q = none := by
      by_contra hPq
      have hdown : ¬ ∃ f, Leaf .dir K f ∧ q <+: f :=
        fun ⟨f, hf, hqf⟩ => (hc.pruned.no_leaf hDa hf).2 (ha.trans hqf)
      have hg := graft_of_apart (K := deltaKind m.disk parent.name) hu.notBelow hdown hu.notDeleted
      have hDq := hc.pruned.below hDa ha hne (by rw [hg]; exact hPq)
      exact hnotDir q (hc.pruned.was_dir hDq).2 rfl
    have hcq : ¬ Covers (Whiteout parent) a := by
      intro hcov
      rw [overlay_of_covered hPq (hcov.mono ha)] at hself
      cases hself
    rw [leaf_shown_uncovered hc.pruned ha hne hDa hcq hIa] at hafter
    cases hafter
  · rintro ⟨hu, huncovered⟩
    rw [leaf_shown_untouched_nested (deltaKind_closed m.disk parent.name) hc.pruned h.sealed ?_
      (fun a ha hDa _ => huncovered a ha hDa) hu]
    · exact hk
    · rintro a ha ⟨f, hf, haf⟩
      by_cases heq : a = q
      · subst heq
        have hdir := hc.closed.dir_above hf haf fun heq => hf.ne_none (heq ▸ hKq)
        rw [hKq] at hdir
        cases hdir
      · rw [hway a ha heq, leaf_dir]

/-- The same in a commit into `main`, for the base directory too. -/
theorem leaf_kept_main_iff (h : Session m name b parent) (hmain : parent.name = "main")
    (hc : Committed m name auto K) (hi : IntoBase m name b K m')
    (hok : Unblocked .dir (baseKind m.disk) (· ∈ b.tombstones) K) {q : RelPath}
    (hq : deltaKind m.disk name q = none) {k : Entry} :
    (leaf .dir (m.view parent.name q) = some k →
      (leaf .dir (m'.view parent.name q) = some k ↔
        Untouched .dir (deltaKind m.disk name) (· ∈ b.tombstones) q)) ∧
    (leaf .dir (baseKind m.disk q) = some k →
      (leaf .dir (baseKind m'.disk q) = some k ↔
        Untouched .dir (deltaKind m.disk name) (· ∈ b.tombstones) q)) := by
  have hKq : K q = none := by
    rcases hc.shape q with heq | ⟨_, hl⟩
    · exact heq.trans hq
    · exact absurd hq hl.ne_none
  obtain ⟨hbefore, hafter⟩ := h.views_main hmain hc hi
  rw [hbefore, hafter, ← hc.untouched]
  constructor
  · intro hk
    constructor
    · intro hkept
      by_contra hu
      rw [leaf_shown_touched_base hi.delta hc.closed hKq hu] at hkept
      cases hkept
    · intro hu
      rw [leaf_shown_untouched_base (deltaKind_closed _ _) (baseKind_closed _) hi.delta hok hu]
      exact hk
  · intro hk
    constructor
    · intro hkept
      by_contra hu
      rw [h.base_after hmain hc hi, graft_touched hc.closed hKq hu, leaf_none] at hkept
      cases hkept
    · intro hu
      rw [base_untouched h hmain hc hi hok hu]
      exact hk

/-- **When hidden files survive a commit**: exactly when no tombstone of the session covers one and no
file of the session stands above one; and, where the parent is another branch, no directory pruned
above it uncovers a file. -/
theorem keeps_hidden_iff (h : Session m name b parent) (order : HashOrder) :
    KeepsHidden m name parent.name b order ↔
      (Commits m name b (destination parent.name) order →
        ∀ q, HiddenAndBare m name b q → HeldByParent m parent.name q →
          Untouched .dir (deltaKind m.disk name) (· ∈ b.tombstones) q ∧
            (parent.name ≠ "main" → UncoveredNowhere m name b parent q)) := by
  have hbare : ∀ {q}, HiddenAndBare m name b q → deltaKind m.disk name q = none :=
    fun hq => hq.2 _ List.prefix_rfl hq.1
  by_cases hmain : parent.name = "main"
  · rcases h.commit_main hmain order with ⟨hgo, o, m', K, hok, hc, hi⟩ | ⟨hstop, e, m', herror⟩
    · have hiff := fun {q} (hq : HiddenAndBare m name b q) (k : Entry) =>
        leaf_kept_main_iff h hmain hc hi (h.unblocked hmain hc hgo) (hbare hq) (k := k)
      constructor
      · intro hkeeps _ q hq hheld
        refine ⟨?_, fun hne => absurd hmain hne⟩
        obtain ⟨hview, hbase⟩ := hkeeps o m' hok q hq
        rcases hheld with hheld | ⟨_, hheld⟩
        · obtain ⟨k, hk⟩ := Option.ne_none_iff_exists'.mp hheld
          exact ((hiff hq k).1 hk).mp (hview k hk)
        · obtain ⟨k, hk⟩ := Option.ne_none_iff_exists'.mp hheld
          exact ((hiff hq k).2 hk).mp (hbase hmain k hk)
      · intro hcond o' m'' hok' q hq
        rw [hok] at hok'
        cases hok'
        refine ⟨fun k hk => ?_, fun _ k hk => ?_⟩
        · have hheld : HeldByParent m parent.name q := Or.inl (by rw [hk]; simp)
          exact ((hiff hq k).1 hk).mpr (hcond hgo q hq hheld).1
        · have hheld : HeldByParent m parent.name q := Or.inr ⟨hmain, by rw [hk]; simp⟩
          exact ((hiff hq k).2 hk).mpr (hcond hgo q hq hheld).1
    · refine iff_of_true ?_ fun hgo => absurd hgo hstop
      intro o m'' hok
      rw [herror] at hok
      cases hok
  · rcases h.commit_nested hmain order with ⟨hgo, o, m', K, hok, hc, hi⟩ | ⟨hstop, e, m', herror⟩
    · constructor
      · intro hkeeps _ q hq hheld
        obtain ⟨k, hk⟩ := Option.ne_none_iff_exists'.mp
          (hheld.resolve_right fun hbase => hmain hbase.1)
        have hboth := (leaf_kept_nested_iff h hc hi (hbare hq) hk).mp ((hkeeps o m' hok q hq).1 k hk)
        exact ⟨hboth.1, fun _ => hboth.2⟩
      · intro hcond o' m'' hok' q hq
        rw [hok] at hok'
        cases hok'
        refine ⟨fun k hk => ?_, fun heq => absurd heq hmain⟩
        have hboth := hcond hgo q hq (Or.inl (by rw [hk]; simp))
        exact (leaf_kept_nested_iff h hc hi (hbare hq) hk).mpr ⟨hboth.1, hboth.2 hmain⟩
    · refine iff_of_true ?_ fun hgo => absurd hgo hstop
      intro o m'' hok
      rw [herror] at hok
      cases hok

end

/-! ## Changes nobody reviewed -/

/-- No reserved name is in use. -/
def NoSideNames (m : Manager) : Prop := ∀ e ∈ m.disk.entries, PlainPath e.1.path

/-- Every review is complete. -/
def ReviewsComplete : Prop :=
  ∀ m, Reachable m → NoSideNames m → ∀ name b parent, m.forest.get? name = some b →
    m.forest.isLeaf name = true → b.parent = some parent →
      ∀ order order', ReviewComplete m name parent order order'

/-- Every commit of a branch with hide rules keeps the hidden files. -/
def HiddenFilesSurvive : Prop :=
  ∀ m, Reachable m → ∀ name b parent, m.forest.get? name = some b → m.forest.isLeaf name = true →
    b.parent = some parent → ∀ order, KeepsHidden m name parent b order

/-- A branch of a branch that renamed a directory with a file over a file. -/
def dirOverFile : Manager :=
  run step (Manager.init .bare)
    [.host (.write ["d"] [120]), .create "p" "main" .lazy [], .create "c" "p" .lazy [],
      .file "c" (.mkdir [] "g" 0o755), .file "c" (.create ["g"] "x" 0o644),
      .file "c" (.unlink [] "d"), .file "c" (.rename [] "g" [] "d" false)]

/-- A branch that removed a directory in which it could see nothing. -/
def removedHidden : Manager :=
  run step (Manager.init .bare)
    [.host (.mkdir ["d"]), .host (.write ["d", "secret"] [120]),
      .create "b" "main" .lazy ["/d/secret"], .file "b" (.rmdir [] "d")]

/-- The review names the file below the new directory, and the parent loses the file in its place. -/
theorem dirOverFile_run :
    PlainSession dirOverFile "c" (dirOverFile.recordOf "c") (dirOverFile.recordOf "p") ∧
      (dirOverFile.recordOf "p").name = "p" ∧
      (outcomeOf dirOverFile "c").map CommitOutcome.autoMerges = some [] ∧
      dirOverFile.view "p" ["d"] = some (.file [120]) ∧
      (after (commitWithReport .listed "c") dirOverFile).view "p" ["d"] = some .dir ∧
      (walkFiles dirOverFile.disk "c").map (entryOf dirOverFile.disk) ++
        (dirOverFile.recordOf "c").tombstones.dedup.map deleteEntry =
        [⟨.delta, ["d", "x"], .file, 0⟩] := by
  decide +kernel

theorem dirOverFile_unannounced : ¬ ReviewComplete dirOverFile "c" "p" .listed .listed := by
  intro h
  obtain ⟨hplain, _, houtcome, hbefore, hafter, hlisted⟩ := dirOverFile_run
  obtain ⟨o, hok, _⟩ := ok_of_outcome dirOverFile "c" houtcome
  obtain ⟨s, hs, hperm⟩ := branchStatus_diff .listed hplain.session.branch
  obtain ⟨e, he, hle⟩ := (h s o _ hs hok).1 ["d"] (by
    rw [hafter, hbefore, leaf_dir, leaf_of_ne (by simp)]
    simp)
  rw [hlisted] at hperm
  have hmem := hperm.mem_iff.mp he
  rw [List.mem_singleton] at hmem
  subst hmem
  exact absurd hle (by decide)

theorem not_reviewsComplete : ¬ ReviewsComplete := by
  intro h
  obtain ⟨hplain, hname, _⟩ := dirOverFile_run
  have hs := hplain.session
  have hside : NoSideNames dirOverFile := fun e he => (hplain.2.1 e he).2.1
  exact dirOverFile_unannounced (h dirOverFile ⟨.bare, _, rfl⟩ hside "c" _ "p" hs.branch hs.leaf
    (hname ▸ hs.up) .listed .listed)

/-- The directory the parent gets stands in the place of one of its files. -/
theorem dirOverFile_over :
    ¬ ((dirOverFile.recordOf "p").name ≠ "main" →
      Commits dirOverFile "c" (dirOverFile.recordOf "c")
        (destination (dirOverFile.recordOf "p").name) .listed →
      NoLeafOver .dir (dirOverFile.flat (dirOverFile.recordOf "p").name)
          (· ∈ (dirOverFile.recordOf "c").tombstones) (deltaKind dirOverFile.disk "c") ∧
        NoLeafUncovered .dir (dirOverFile.flatInherited (dirOverFile.recordOf "p"))
          (Whiteout (dirOverFile.recordOf "p"))
          (EmptiedDir dirOverFile "c" (dirOverFile.recordOf "c") (dirOverFile.recordOf "p"))) := by
  intro hcond
  obtain ⟨hplain, hname, _⟩ := dirOverFile_run
  have hreview := (review_complete_iff hplain.session .listed .listed).mpr hcond
  rw [hname] at hreview
  exact dirOverFile_unannounced hreview

/-- The directory goes with the file in it. -/
theorem removedHidden_run :
    PlainSession removedHidden "b" (removedHidden.recordOf "b") (removedHidden.recordOf "main") ∧
      (removedHidden.recordOf "main").name = "main" ∧
      (outcomeOf removedHidden "b").map CommitOutcome.autoMerges = some [] ∧
      (removedHidden.recordOf "b").isHidden ["d", "secret"] = true ∧
      (∀ a ∈ (["d", "secret"] : RelPath).inits,
        (removedHidden.recordOf "b").isHidden a = true → deltaKind removedHidden.disk "b" a = none) ∧
      baseKind removedHidden.disk ["d", "secret"] = some (.file [120]) ∧
      baseKind (after (commitWithReport .listed "b") removedHidden).disk ["d", "secret"] = none := by
  decide +kernel

theorem removedHidden_lost :
    ¬ KeepsHidden removedHidden "b" "main" (removedHidden.recordOf "b") .listed := by
  intro h
  obtain ⟨_, _, houtcome, hhidden, hbare, hbefore, hafter⟩ := removedHidden_run
  obtain ⟨o, hok, _⟩ := ok_of_outcome removedHidden "b" houtcome
  have hq : HiddenAndBare removedHidden "b" (removedHidden.recordOf "b") ["d", "secret"] :=
    ⟨hhidden, fun a ha hh => hbare a ((List.mem_inits a _).mpr ha) hh⟩
  have hkept := (h o _ hok _ hq).2 rfl (.file [120]) (by rw [hbefore, leaf_of_ne (by simp)])
  rw [hafter, leaf_none] at hkept
  cases hkept

theorem not_hiddenFilesSurvive : ¬ HiddenFilesSurvive := by
  intro h
  obtain ⟨hplain, hname, _⟩ := removedHidden_run
  have hs := hplain.session
  exact removedHidden_lost (h removedHidden ⟨.bare, _, rfl⟩ "b" _ "main" hs.branch hs.leaf
    (hname ▸ hs.up) .listed)

/-- The file that is lost lies below a tombstone of the session. -/
theorem removedHidden_touched :
    ¬ (Commits removedHidden "b" (removedHidden.recordOf "b")
        (destination (removedHidden.recordOf "main").name) .listed →
      ∀ q, HiddenAndBare removedHidden "b" (removedHidden.recordOf "b") q →
        HeldByParent removedHidden (removedHidden.recordOf "main").name q →
        Untouched .dir (deltaKind removedHidden.disk "b")
            (· ∈ (removedHidden.recordOf "b").tombstones) q ∧
          ((removedHidden.recordOf "main").name ≠ "main" →
            UncoveredNowhere removedHidden "b" (removedHidden.recordOf "b")
              (removedHidden.recordOf "main") q)) := by
  intro hcond
  obtain ⟨hplain, hname, _⟩ := removedHidden_run
  have hkeeps := (keeps_hidden_iff hplain.session .listed).mpr hcond
  rw [hname] at hkeeps
  exact removedHidden_lost hkeeps

end BranchFs
