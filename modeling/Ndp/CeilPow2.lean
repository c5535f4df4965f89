import Ndp.Seekbuf
import Ndp.Smearing

/-! What `ceil_pow2` computes, at any width, and what a buffer gains when it is regrown to it. Zero
and what has no power of two of its width above it both come out as zero. -/
namespace Ndp.Cpp

open Looping Smearing

theorem smearBody_next {s s' : SmearState w} (h : smearBody s = .next s') :
    s'.v = s.v ||| s.v >>> s.i ∧ s'.i = s.i * 2 := by
  unfold smearBody at h
  split at h
  · cases h
    exact ⟨rfl,rfl⟩
  · contradiction

theorem smearBody_ret {s : SmearState w} {r : BitVec w} (h : smearBody s = .ret r) : w ≤ s.i ∧ s.v = r := by
  unfold smearBody at h
  split at h
  · contradiction
  · rename_i wide
    exact ⟨Nat.not_lt.mp wide,Flow.ret.inj h⟩

theorem smear_filled (v : BitVec w) : (run (smearVariant w) ⟨v, 1, by decide⟩).toNat = 2 ^ v.toNat.size - 1 := by
  refine run_invariant (smearVariant w) (fun s => Smears v.toNat s.v.toNat s.i)
    (fun r => r.toNat = 2 ^ v.toNat.size - 1) ?_ ?_ _ (Smears.start v.toNat)
  · intro s s' smears h
    obtain ⟨shifted,doubled⟩ := smearBody_next h
    rw [shifted,doubled,BitVec.toNat_or,BitVec.toNat_ushiftRight]
    exact smears.double
  · intro s r smears h
    obtain ⟨wide,rfl⟩ := smearBody_ret h
    apply smears.filled
    calc v.toNat < 2 ^ w := v.isLt
      _ ≤ 2 ^ s.i := Nat.pow_le_pow_right (by decide) wide

theorem ceilPow2_toNat (v : BitVec w) : (ceilPow2 v).toNat = 2 ^ (v - 1).toNat.size % 2 ^ w := by
  have one : (1 : BitVec w).toNat = 1 % 2 ^ w := BitVec.toNat_ofNat 1 w
  rw [ceilPow2,BitVec.toNat_add,smear_filled,one,Nat.add_mod_mod,Nat.sub_add_cancel (Nat.two_pow_pos _)]

theorem pred_toNat {v : BitVec w} (positive : 1 ≤ v.toNat) : (v - 1).toNat = v.toNat - 1 := by
  have one : (1 : BitVec w).toNat = 1 := by
    have bound := v.isLt
    exact (BitVec.toNat_ofNat 1 w).trans (Nat.mod_eq_of_lt (by omega))
  have le : (1 : BitVec w) ≤ v := BitVec.le_def.mpr (one.symm ▸ positive)
  rw [BitVec.toNat_sub_of_le le,one]

theorem ceilPow2_inside {v : BitVec w} (positive : 1 ≤ v.toNat) (half : v.toNat ≤ 2 ^ (w - 1)) :
    (ceilPow2 v).toNat = 2 ^ (v.toNat - 1).size := by
  have wide : w ≠ 0 := by
    rintro rfl
    have bound := v.isLt
    omega
  have short : (v.toNat - 1).size ≤ w - 1 := Nat.size_le.mpr (by omega)
  rw [ceilPow2_toNat,pred_toNat positive]
  exact Nat.mod_eq_of_lt (Nat.pow_lt_pow_right (by decide) (by omega))

theorem ceilPow2_outside {v : BitVec w} (out : v.toNat = 0 ∨ 2 ^ (w - 1) < v.toNat) : ceilPow2 v = 0 := by
  have long : w ≤ (v - 1).toNat.size := by
    rcases Nat.eq_zero_or_pos w with zero | wide
    · omega
    · have half : 2 ^ (w - 1) ≤ (v - 1).toNat := by
        rcases out with zero | large
        · have double : 2 ^ (w - 1) * 2 = 2 ^ w := Nat.two_pow_pred_mul_two wide
          have below := Nat.two_pow_pos (w - 1)
          have last : (v - 1).toNat = 2 ^ w - 1 := by
            obtain rfl : v = 0#w := BitVec.eq_of_toNat_eq zero
            exact (congrArg BitVec.toNat (BitVec.zero_sub 1#w)).trans (by
              rw [BitVec.neg_one_eq_allOnes,BitVec.toNat_allOnes])
          omega
        · rw [pred_toNat (Nat.one_le_of_lt large)]
          exact Nat.le_pred_of_lt large
      have last := Nat.lt_size.mpr half
      omega
  apply BitVec.eq_of_toNat_eq
  rw [ceilPow2_toNat]
  exact Nat.mod_eq_zero_of_dvd (Nat.pow_dvd_pow 2 long)

/-- The least power of two from a number on where the width has one, and zero elsewhere. -/
theorem ceilPow2_least (v : BitVec w) :
    (1 ≤ v.toNat ∧ v.toNat ≤ 2 ^ (w - 1) → IsLeast {p | (∃ k, p = 2 ^ k) ∧ v.toNat ≤ p} (ceilPow2 v).toNat) ∧
    (v.toNat = 0 ∨ 2 ^ (w - 1) < v.toNat → ceilPow2 v = 0) := by
  refine ⟨?_,ceilPow2_outside⟩
  rintro ⟨positive,half⟩
  rw [ceilPow2_inside positive half]
  exact isLeast_pow_size positive

theorem ceilPow2_least_seventeen :
    (1 ≤ (17#64).toNat ∧ (17#64).toNat ≤ 2 ^ (64 - 1)) ∧
    IsLeast {p | (∃ k, p = 2 ^ k) ∧ (17#64).toNat ≤ p} (ceilPow2 17#64).toNat :=
  ⟨by decide,(ceilPow2_least 17#64).1 (by decide)⟩

namespace Seekbuf

variable (fresh : Nat → UInt8) (b : Seekbuf)

theorem regrow_ignored (out : (b.capacityTarget + b.pos).toNat = 0 ∨ 2 ^ 63 < (b.capacityTarget + b.pos).toNat) :
    b.regrow fresh = .returned b := by
  have target : ceilPow2 (b.capacityTarget + b.pos).toBitVec = 0 := ceilPow2_outside out
  rw [regrow]
  simp only [target]
  exact dif_pos (Nat.zero_le _)

theorem rounded_toNat (positive : 0 < (b.capacityTarget + b.pos).toNat) (half : (b.capacityTarget + b.pos).toNat ≤ 2 ^ 63) :
    (ceilPow2 (b.capacityTarget + b.pos).toBitVec).toNat = 2 ^ ((b.capacityTarget + b.pos).toNat - 1).size :=
  ceilPow2_inside positive half

/-- The number comes to `2 ^ 63` when rounded, which is more than a vector holds. -/
theorem regrow_refused (large : 2 ^ 62 < (b.capacityTarget + b.pos).toNat)
    (half : (b.capacityTarget + b.pos).toNat ≤ 2 ^ 63) : b.regrow fresh = .exited "vector::reserve" := by
  have target := rounded_toNat b (Nat.zero_lt_of_lt large) half
  have size : ((b.capacityTarget + b.pos).toNat - 1).size = 63 := by
    have long : 62 < ((b.capacityTarget + b.pos).toNat - 1).size := Nat.lt_size.mpr (by omega)
    have short : ((b.capacityTarget + b.pos).toNat - 1).size ≤ 63 := Nat.size_le.mpr (by omega)
    omega
  rw [size] at target
  have full := b.allocated
  rw [regrow]
  simp only [target]
  rw [dif_neg (by omega),dif_neg (by decide)]

theorem regrow_reserves (positive : 0 < (b.capacityTarget + b.pos).toNat)
    (small : (b.capacityTarget + b.pos).toNat ≤ 2 ^ 62) :
    ∃ b', b.regrow fresh = .returned b' ∧
      b'.storage.length = max b.storage.length (2 ^ ((b.capacityTarget + b.pos).toNat - 1).size) ∧
      b'.storage.take b.length = b.storage.take b.length ∧ b'.length = b.length ∧ b'.pos = b.pos := by
  have target := rounded_toNat b positive (small.trans (by decide))
  have short : ((b.capacityTarget + b.pos).toNat - 1).size ≤ 62 := Nat.size_le.mpr (by omega)
  have below : 2 ^ ((b.capacityTarget + b.pos).toNat - 1).size < 2 ^ 63 := Nat.pow_lt_pow_right (by decide) (by omega)
  have within := b.within
  rw [regrow]
  simp only [target]
  split
  · rename_i roomy
    exact ⟨b,rfl,(Nat.max_eq_left roomy).symm,rfl,rfl,rfl⟩
  · refine ⟨_,rfl,?_,?_,rfl,rfl⟩
    · simp only [List.length_append,List.length_take,List.length_map,List.length_range]
      omega
    · simp [Nat.min_eq_left within]

theorem regrow_new_fits_iff {capacity : UInt64} (allocated : capacity.toNat < 2 ^ 63) (positive : 0 < capacity.toNat)
    (small : capacity.toNat ≤ 2 ^ 62) {count : Nat} :
    ∃ b, (new capacity allocated).regrow fresh = .returned b ∧
      (b.Fits count ↔ capacity.toNat + count ≤ 2 ^ (capacity.toNat - 1).size) := by
  have asked : (new capacity allocated).capacityTarget + (new capacity allocated).pos = capacity := UInt64.add_zero _
  obtain ⟨b,grown,room,-,length,pos⟩ := regrow_reserves fresh (new capacity allocated) (by rwa [asked]) (by rwa [asked])
  rw [asked] at room
  have reaches : capacity.toNat ≤ 2 ^ (capacity.toNat - 1).size := (isLeast_pow_size positive).1.2
  have stored : (new capacity allocated).storage.length = capacity.toNat := List.length_replicate
  have held : (new capacity allocated).length = capacity.toNat := rfl
  have start : (new capacity allocated).pos = 0 := rfl
  rw [stored,Nat.max_eq_right reaches] at room
  rw [start] at pos
  have bound := b.allocated
  rw [room] at bound
  have left : b.remaining.toNat = 2 ^ (capacity.toNat - 1).size - capacity.toNat := by
    have word : (UInt64.ofNat (2 ^ (capacity.toNat - 1).size)).toNat = 2 ^ (capacity.toNat - 1).size :=
      UInt64.toNat_ofNat_of_lt' (bound.trans (by decide))
    have le : capacity ≤ UInt64.ofNat (2 ^ (capacity.toNat - 1).size) := by rwa [UInt64.le_iff_toNat_le,word]
    rw [remaining,size,room,length,held,pos,UInt64.sub_zero,UInt64.ofNat_toNat,UInt64.toNat_sub_of_le _ _ le,word]
  refine ⟨b,grown,?_⟩
  rw [Fits,left,room,pos,UInt64.toNat_zero]
  omega

end Seekbuf

end Ndp.Cpp
