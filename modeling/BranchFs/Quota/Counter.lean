/-
# BranchFs.Quota.Counter -- the machine's arithmetic on the counter

The counter is signed, what is added to it and compared with it is unsigned, and the casts go both ways.
Within its range every operation is the one on the integers: an addition as long as the sum stays below
2^63, a subtraction of no more than is there, and a test whose sum does not wrap.
-/
import BranchFs.Logic.Meter
import BranchFs.Model.Manager
import Mathlib.Algebra.GroupWithZero.Nat

namespace BranchFs

open BranchFs.Logic

namespace StorageQuota

variable {q q' : StorageQuota}

/-- The counter as an integer. -/
def used (q : StorageQuota) : Int := q.usedBytes.toInt

/-- `additional` more bytes are too many. -/
def Exceeded (q : StorageQuota) (additional : UInt64) : Prop :=
  ∃ max, q.maxBytes = some max ∧ (max.toNat : Int) < q.used + additional.toNat

theorem toInt_toInt64 {n : UInt64} (h : n.toNat < 2 ^ 63) : n.toInt64.toInt = n.toNat := by
  show n.toBitVec.toInt = n.toNat
  rw [BitVec.toInt_eq_toNat_of_lt (by rw [UInt64.toNat_toBitVec]; omega)]
  rfl

theorem toNat_toUInt64 (h : 0 ≤ q.used) : (q.usedBytes.toUInt64.toNat : Int) = q.used := by
  have htop : q.used < 2 ^ 63 := q.usedBytes.toInt_lt
  show (q.usedBytes.toBitVec.toNat : Int) = q.usedBytes.toBitVec.toInt
  have heq : q.usedBytes.toBitVec.toInt = q.used := rfl
  rw [BitVec.toInt_eq_toNat_bmod, Int.bmod_def] at heq ⊢
  have hlt := q.usedBytes.toBitVec.isLt
  split at heq <;> split <;> omega

theorem used_add {n : UInt64} (h : 0 ≤ q.used) (hn : q.used + n.toNat < 2 ^ 63) :
    (q.add n).used = q.used + n.toNat := by
  show (q.usedBytes + n.toInt64).toInt = _
  have hcast : n.toInt64.toInt = n.toNat := toInt_toInt64 (by omega)
  rw [Int64.toInt_add, hcast]
  show (q.used + n.toNat).bmod (2 ^ 64) = q.used + n.toNat
  rw [Int.bmod_eq_of_le (by omega) (by omega)]

theorem used_sub {n : UInt64} (hn : (n.toNat : Int) ≤ q.used) :
    (q.sub n).used = q.used - n.toNat := by
  have htop : q.used < 2 ^ 63 := q.usedBytes.toInt_lt
  show (q.usedBytes - n.toInt64).toInt = _
  have hcast : n.toInt64.toInt = n.toNat := toInt_toInt64 (by omega)
  rw [Int64.toInt_sub, hcast]
  show (q.used - n.toNat).bmod (2 ^ 64) = q.used - n.toNat
  rw [Int.bmod_eq_of_le (by omega) (by omega)]

/-- **When the test is the one on the integers**: without a limit, while the sum does not wrap, or when
what is left of the wrapped sum is over the limit still. -/
theorem check_exact_iff (h : 0 ≤ q.used) (additional : UInt64) :
    (q.check additional = false ↔ q.Exceeded additional) ↔
      q.maxBytes = none ∨ q.used + additional.toNat < 2 ^ 64 ∨
        ∃ max, q.maxBytes = some max ∧ (max.toNat : Int) + 2 ^ 64 < q.used + additional.toNat := by
  have hcast := toNat_toUInt64 h
  have hadd := additional.toNat_lt
  unfold Exceeded check
  cases hmax : q.maxBytes with
  | none => simp
  | some max =>
    have hsum : (q.usedBytes.toUInt64 + additional).toNat =
        (q.usedBytes.toUInt64.toNat + additional.toNat) % 2 ^ 64 := UInt64.toNat_add _ _
    have hlt : q.usedBytes.toUInt64.toNat < 2 ^ 64 := UInt64.toNat_lt _
    have hmaxlt := max.toNat_lt
    simp only [Bool.not_eq_false', decide_eq_true_eq, gt_iff_lt, UInt64.lt_iff_toNat_lt, hsum,
      Option.some.injEq, exists_eq_left', reduceCtorEq, false_or]
    omega

end StorageQuota

/-! ## Charges -/

/-- The counter has been added to, by no more than `a` in all. -/
def Charged (a : Nat) (q q' : StorageQuota) : Prop :=
  ∃ ns : List UInt64, q' = ns.foldl StorageQuota.add q ∧ (ns.map UInt64.toNat).sum ≤ a

theorem Charged.refl (q : StorageQuota) : Charged 0 q q := ⟨[], rfl, le_refl 0⟩

theorem Charged.one (q : StorageQuota) {n : UInt64} {a : Nat} (h : n.toNat ≤ a) :
    Charged a q (q.add n) := ⟨[n], rfl, by simpa using h⟩

theorem Charged.trans {a b : Nat} {q q' q'' : StorageQuota} (h : Charged a q q')
    (h' : Charged b q' q'') : Charged (a + b) q q'' := by
  obtain ⟨ns, rfl, hns⟩ := h
  obtain ⟨ms, rfl, hms⟩ := h'
  refine ⟨ns ++ ms, by rw [List.foldl_append], ?_⟩
  rw [List.map_append, List.sum_append]
  omega

theorem Charged.mono {a b : Nat} {q q' : StorageQuota} (hab : a ≤ b) (h : Charged a q q') :
    Charged b q q' := by
  obtain ⟨ns, rfl, hns⟩ := h
  exact ⟨ns, rfl, hns.trans hab⟩

/-- **Charges that fit are exact**: the counter grows by their sum. -/
theorem Charged.exact {a : Nat} {q q' : StorageQuota} (h : Charged a q q') (h0 : 0 ≤ q.used)
    (hfits : q.used + a < 2 ^ 63) :
    ∃ added : Nat, added ≤ a ∧ q'.used = q.used + added ∧ q'.maxBytes = q.maxBytes := by
  obtain ⟨ns, rfl, hns⟩ := h
  have main : ∀ (ns : List UInt64) (q : StorageQuota), 0 ≤ q.used →
      q.used + ((ns.map UInt64.toNat).sum : Nat) < 2 ^ 63 →
      (ns.foldl StorageQuota.add q).used = q.used + ((ns.map UInt64.toNat).sum : Nat) ∧
        (ns.foldl StorageQuota.add q).maxBytes = q.maxBytes := by
    intro ns
    induction ns with
    | nil =>
      intro q _ _
      simp
    | cons n ns ih =>
      intro q h0 hfits
      rw [List.map_cons, List.sum_cons, Int.natCast_add] at hfits ⊢
      have hn : (q.add n).used = q.used + n.toNat := StorageQuota.used_add h0 (by omega)
      obtain ⟨hused, hmax⟩ := ih (q.add n) (by omega) (by omega)
      refine ⟨?_, hmax⟩
      rw [List.foldl_cons, hused, hn]
      omega
  obtain ⟨hused, hmax⟩ := main ns q h0 (by omega)
  exact ⟨_, hns, hused, hmax⟩

/-- The charges between two states. -/
def charges : Meter Manager where
  spent a m m' := Charged a m.quota m'.quota
  refl m := Charged.refl m.quota
  trans := Charged.trans
  mono := Charged.mono

end BranchFs
