import Mathlib.Algebra.Group.Nat.Defs
import Mathlib.Tactic.Common

/-! What the code relies on from Rust's standard library, on a 64-bit target. Panics
are outcomes of their own, so that a result can say that none of them occurs. -/
namespace Ndp

inductive Panic where
  | explicit (message : String)
  | unwrapNone
  | unwrapErr
  | expectNone (message : String)
  | advancePastEnd
  | indexOutOfBounds
  | capacityOverflow
  | arithmeticOverflow
  deriving DecidableEq, Repr

/-- `std::io::Error`: one the operating system reported, or a reader that ran dry. -/
inductive IoError where
  | os (code : Int)
  | unexpectedEof
  deriving DecidableEq, Repr

inductive SocketAddr where
  | v4 (ip : BitVec 32) (port : UInt16)
  | v6 (ip : BitVec 128) (port : UInt16) (flowinfo scopeId : UInt32)
  deriving DecidableEq, Repr

theorem except_bind_ok_iff {ε α β : Type} {x : Except ε α} {f : α → Except ε β} {b : β} :
    (x >>= f) = .ok b ↔ ∃ a, x = .ok a ∧ f a = .ok b := by
  cases x <;> simp [bind,Except.bind]

/-- Addition on `u64` and `usize`: an overflow panics where the build checks for it and
wraps around where it does not. -/
def addU64 (checks : Bool) (a b : UInt64) : Except Panic UInt64 :=
  if checks ∧ 2 ^ 64 ≤ a.toNat + b.toNat then .error .arithmeticOverflow else .ok (a + b)

def mulU64 (checks : Bool) (a b : UInt64) : Except Panic UInt64 :=
  if checks ∧ 2 ^ 64 ≤ a.toNat * b.toNat then .error .arithmeticOverflow else .ok (a * b)

theorem addU64_fits (checks : Bool) (a b : UInt64) (fits : a.toNat + b.toNat < 2 ^ 64) :
    ∃ sum, addU64 checks a b = .ok sum ∧ sum.toNat = a.toNat + b.toNat := by
  refine ⟨a + b,?_,?_⟩
  · rw [addU64,if_neg (by omega)]
  · rw [UInt64.toNat_add,Nat.mod_eq_of_lt fits]

theorem mulU64_ok {checks : Bool} {a b product : UInt64} (multiplied : mulU64 checks a b = .ok product) :
    product = a * b := by
  unfold mulU64 at multiplied
  split at multiplied
  · contradiction
  · exact (Except.ok.inj multiplied).symm

def addI64 (checks : Bool) (a b : Int64) : Except Panic Int64 :=
  if checks ∧ (a.toInt + b.toInt < Int64.minValue.toInt ∨ Int64.maxValue.toInt < a.toInt + b.toInt) then
    .error .arithmeticOverflow
  else .ok (a + b)

/-- `RangeInclusive<u32>`; the last value is told apart by a flag, so no counter has to pass it. -/
structure RangeInclusive where
  start : UInt32
  stop : UInt32
  exhausted : Bool
  deriving DecidableEq, Repr

namespace RangeInclusive

def next (range : RangeInclusive) : Option (UInt32 × RangeInclusive) :=
  if range.exhausted ∨ ¬range.start ≤ range.stop then none
  else if range.start < range.stop then some (range.start, { range with start := range.start + 1 })
  else some (range.start, { range with exhausted := true })

/-- How many values are still to come. -/
def remaining (range : RangeInclusive) : Nat :=
  if range.exhausted then 0 else range.stop.toNat + 1 - range.start.toNat

theorem next_none {range : RangeInclusive} (h : range.next = none) : range.remaining = 0 := by
  unfold next at h
  split at h
  · rename_i ended
    rw [UInt32.le_iff_toNat_le] at ended
    unfold remaining
    obtain flag | past := ended
    · rw [if_pos flag]
    · split <;> omega
  · split at h <;> cases h

theorem next_some {range range' : RangeInclusive} {value : UInt32} (h : range.next = some (value, range')) :
    range'.remaining + 1 = range.remaining := by
  unfold next at h
  split at h
  · cases h
  · rename_i more
    rw [not_or,not_not,UInt32.le_iff_toNat_le] at more
    split at h
    · rename_i before
      rw [UInt32.lt_iff_toNat_lt] at before
      have bound := range.stop.toNat_lt
      have up : (range.start + 1).toNat = range.start.toNat + 1 := by
        rw [UInt32.toNat_add]
        exact Nat.mod_eq_of_lt (by simp only [UInt32.reduceToNat]; omega)
      cases h
      simp only [remaining,more.1,up]
      simp only [Bool.false_eq_true,↓reduceIte]
      omega
    · rename_i last
      rw [UInt32.lt_iff_toNat_lt] at last
      cases h
      simp only [remaining,more.1]
      simp only [Bool.false_eq_true,↓reduceIte]
      omega

end RangeInclusive

/-- `isize::MAX`, the most bytes a `Vec<u8>` may hold. -/
def isizeMax : Nat := 2 ^ 63 - 1

end Ndp
