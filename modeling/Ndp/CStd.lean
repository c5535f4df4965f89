import Mathlib.Tactic.Common

/-! What is used of the arithmetic and the conversions of C: an `int` taken for a 64-bit unsigned number keeps its
value modulo `2 ^ 64`, so the negative ones come out as the largest. -/
namespace Ndp.C

def intMax : Nat := 2147483647

/-- `k++` on an `int`: undefined at the greatest one. -/
def incr (k : Int) : Option Int := if k < intMax then some (k + 1) else none

/-- An `int` where a `uint64_t` or a `size_t` is asked for. -/
def widen (x : Int32) : UInt64 := x.toInt64.toUInt64

@[simp] theorem widen_signed (x : Int32) : (widen x).toInt64.toInt = x.toInt := by
  rw [widen,Int64.toInt64_toUInt64,Int32.toInt_toInt64]

theorem widen_toNat (x : Int32) : ((widen x).toNat : Int) = if 0 ≤ x.toInt then x.toInt else UInt64.size + x.toInt := by
  have signed := widen_signed x
  have bound := (widen x).toNat_lt
  have value : (widen x).toInt64.toInt =
      if 2 * (widen x).toNat < 2 ^ 64 then ((widen x).toNat : Int) else (widen x).toNat - (2 ^ 64 : Nat) :=
    BitVec.toInt_eq_toNat_cond (widen x).toBitVec
  rw [signed] at value
  unfold UInt64.size
  split at value <;> split <;> omega

theorem widen_eq_ofInt (x : Int32) : widen x = UInt64.ofInt x.toInt := by
  have value := widen_toNat x
  have low := x.le_toInt
  have high := x.toInt_lt
  rw [UInt64.ofInt,← UInt64.toNat_inj,UInt64.toNat_ofNat']
  unfold UInt64.size at value
  split at value <;> omega

/-- Numbers of one sign stay in order, and the negative ones come last. -/
theorem widen_lt_iff (x y : Int32) :
    widen x < widen y ↔ if (0 ≤ x.toInt ↔ 0 ≤ y.toInt) then x.toInt < y.toInt else 0 ≤ x.toInt := by
  have first := widen_toNat x
  have second := widen_toNat y
  have low := x.le_toInt
  have high := x.toInt_lt
  have below := y.le_toInt
  have above := y.toInt_lt
  rw [UInt64.lt_iff_toNat_lt]
  unfold UInt64.size at first second
  split at first <;> split at second <;> split <;> omega

theorem ofInt_sub (a b : Int) : UInt64.ofInt (a - b) = UInt64.ofInt a - UInt64.ofInt b := by
  rw [Int.sub_eq_add_neg,UInt64.ofInt_add,UInt64.ofInt_neg,UInt64.sub_eq_add_neg]

end Ndp.C
