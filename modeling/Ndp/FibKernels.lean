import Ndp.FibKernel
import Ndp.RustStd

/-! The kernel of the Rust client beside that of the C++ programs. The Rust loop runs over an
inclusive range and ends for every argument; the additions are those of signed words. -/
namespace Ndp

open Looping

structure FibLoop where
  range : RangeInclusive
  n1 : Int64
  n2 : Int64
  deriving DecidableEq, Repr

def fibLoopBody (checks : Bool) (s : FibLoop) : Flow FibLoop (Except Panic Int64) :=
  match s.range.next with
  | none => .ret (.ok s.n2)
  | some (_, range) =>
    match addI64 checks s.n1 s.n2 with
    | .ok sum => .next ⟨range, s.n2, sum⟩
    | .error panic => .ret (.error panic)

theorem fibLoopBody_next {checks : Bool} {s s' : FibLoop} (h : fibLoopBody checks s = .next s') :
    ∃ value, s.range.next = some (value, s'.range) ∧ addI64 checks s.n1 s.n2 = .ok s'.n2 ∧ s'.n1 = s.n2 := by
  unfold fibLoopBody at h
  split at h
  · cases h
  · rename_i value range more
    split at h
    · rename_i sum added
      cases h
      exact ⟨value,more,added,rfl⟩
    · cases h

def fibLoopVariant (checks : Bool) : Variant (fibLoopBody checks) where
  measure s := s.range.remaining
  decreases s s' h := by
    obtain ⟨value,more,-⟩ := fibLoopBody_next h
    have fewer := RangeInclusive.next_some more
    omega

def fibKernel (checks : Bool) (n : UInt32) : Except Panic Int64 :=
  run (fibLoopVariant checks) ⟨⟨0, n, false⟩, -1, 1⟩

/-- After `k` rounds of the loop the words are those the unsigned loop has then, and `n + 1 - k` rounds
are left. -/
structure FibLoopAt (n : UInt32) (s : FibLoop) (k : Nat) : Prop where
  words : Cpp.FibAt k ⟨UInt32.ofNat k, s.n1.toUInt64, s.n2.toUInt64⟩
  rounds : k + s.range.remaining = n.toNat + 1

theorem fibLoopAt_step {n : UInt32} {s s' : FibLoop} {k : Nat} (at_k : FibLoopAt n s k)
    (h : fibLoopBody false s = .next s') : FibLoopAt n s' (k + 1) := by
  obtain ⟨value,more,added,shifted⟩ := fibLoopBody_next h
  have sum : s'.n2 = s.n1 + s.n2 := by simpa [addI64] using added.symm
  have fewer := RangeInclusive.next_some more
  have rounds := at_k.rounds
  refine ⟨?_,by omega⟩
  have step := Cpp.fibAt_step at_k.words
  rw [shifted,sum,Int64.toUInt64_add,UInt32.ofNat_add]
  exact step

theorem fibKernel_wraps (n : UInt32) :
    ∃ result, fibKernel false n = .ok result ∧ result.toUInt64 = UInt64.ofNat (Nat.fib n.toNat) := by
  refine run_invariant (fibLoopVariant false) (fun s => ∃ k, FibLoopAt n s k)
    (fun r => ∃ result, r = .ok result ∧ result.toUInt64 = UInt64.ofNat (Nat.fib n.toNat)) ?_ ?_ _ ?_
  · rintro s s' ⟨k,at_k⟩ h
    exact ⟨k + 1,fibLoopAt_step at_k h⟩
  · rintro s r ⟨k,at_k⟩ h
    unfold fibLoopBody at h
    split at h
    · rename_i done
      cases h
      have rounds := at_k.rounds
      have current := at_k.words.current
      rw [RangeInclusive.next_none done] at rounds
      obtain rfl : k = n.toNat + 1 := rounds
      exact ⟨s.n2,rfl,by simpa using current⟩
    · simp [addI64] at h
  · exact ⟨0,Cpp.fibAt_start,by simp [RangeInclusive.remaining]⟩

/-- Both kernels return, and return the same word, which is that of the Fibonacci number. -/
def KernelsAgree (n : UInt32) : Prop :=
  ∃ result, fibKernel false n = .ok result ∧ Cpp.fibKernel n = .returned result.toUInt64 ∧
    result.toUInt64 = UInt64.ofNat (Nat.fib n.toNat)

theorem kernels_agree_iff (n : UInt32) : KernelsAgree n ↔ n ≠ 0xffffffff := by
  have greatest : n ≠ 0xffffffff ↔ n.toNat + 1 < 2 ^ 32 := by
    rw [ne_eq,← UInt32.toNat_inj]
    have bound := n.toNat_lt
    simp only [UInt32.reduceToNat]
    omega
  rw [greatest]
  constructor
  · rintro ⟨result,-,returns,-⟩
    by_contra large
    have bound := n.toNat_lt
    rw [Cpp.fibKernel_greatest n (by omega)] at returns
    cases returns
  · intro small
    obtain ⟨result,returns,word⟩ := fibKernel_wraps n
    exact ⟨result,returns,word ▸ Cpp.fibKernel_returns n small,word⟩

/-- At the greatest argument the C++ counter starts over from zero and never passes it. -/
theorem kernels_differ_greatest :
    Cpp.fibKernel 0xffffffff = .diverges ∧ ∃ result, fibKernel false 0xffffffff = .ok result := by
  refine ⟨Cpp.fibKernel_greatest _ (by decide),?_⟩
  obtain ⟨result,returns,-⟩ := fibKernel_wraps 0xffffffff
  exact ⟨result,returns⟩

end Ndp
