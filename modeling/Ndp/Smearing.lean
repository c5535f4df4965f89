import Mathlib.Algebra.Group.Nat.Defs
import Mathlib.Data.Nat.Size
import Mathlib.Order.Bounds.Basic

/-! Spreading the bits of a number downwards, by shifts of twice the distance each time. Once the
distance is as large as the number is long, the highest bit has filled every place below it. -/
namespace Smearing

variable {m v i : Nat}

/-- Each bit of `m` stands in `v` at its own place and at the next `i - 1` places below. -/
def Smears (m v i : Nat) : Prop := ∀ j, v.testBit j = true ↔ ∃ d < i, m.testBit (j + d) = true

theorem Smears.start (m : Nat) : Smears m m 1 := by
  intro j
  constructor
  · intro set
    exact ⟨0,Nat.one_pos,set⟩
  · rintro ⟨d,near,set⟩
    obtain rfl : d = 0 := by omega
    exact set

theorem Smears.double (smears : Smears m v i) : Smears m (v ||| v >>> i) (i * 2) := by
  intro j
  rw [Nat.testBit_or,Bool.or_eq_true,Nat.testBit_shiftRight,smears j,smears (i + j)]
  constructor
  · rintro (⟨d,near,set⟩ | ⟨d,near,set⟩)
    · exact ⟨d,by omega,set⟩
    · refine ⟨i + d,by omega,?_⟩
      rwa [show j + (i + d) = i + j + d by omega]
  · rintro ⟨d,near,set⟩
    by_cases first : d < i
    · exact .inl ⟨d,first,set⟩
    · refine .inr ⟨d - i,by omega,?_⟩
      rwa [show i + j + (d - i) = j + d by omega]

theorem Smears.filled (smears : Smears m v i) (within : m < 2 ^ i) : v = 2 ^ m.size - 1 := by
  apply Nat.eq_of_testBit_eq
  intro j
  rw [Nat.testBit_two_pow_sub_one,Bool.eq_iff_iff,decide_eq_true_iff,Nat.lt_size,smears j]
  constructor
  · rintro ⟨d,-,set⟩
    calc 2 ^ j ≤ 2 ^ (j + d) := Nat.pow_le_pow_right (by decide) (Nat.le_add_right j d)
      _ ≤ m := Nat.ge_two_pow_of_testBit set
  · intro reaches
    obtain ⟨k,above,set⟩ := Nat.exists_ge_and_testBit_of_ge_two_pow reaches
    have below : 2 ^ k < 2 ^ i := (Nat.ge_two_pow_of_testBit set).trans_lt within
    have near : k < i := (Nat.pow_lt_pow_iff_right (by decide)).mp below
    refine ⟨k - j,by omega,?_⟩
    rwa [Nat.add_sub_cancel' above]

theorem isLeast_pow_size {n : Nat} (positive : 0 < n) :
    IsLeast {p | (∃ k, p = 2 ^ k) ∧ n ≤ p} (2 ^ (n - 1).size) := by
  have past : n - 1 < 2 ^ (n - 1).size := Nat.lt_size_self (n - 1)
  refine ⟨⟨⟨_,rfl⟩,by omega⟩,?_⟩
  rintro _ ⟨⟨k,rfl⟩,reaches⟩
  have short : (n - 1).size ≤ k := Nat.size_le.mpr (by omega)
  exact Nat.pow_le_pow_right (by decide) short

end Smearing
