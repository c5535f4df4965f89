import Mathlib.Data.Nat.Fib.Basic
import Ndp.CppStd

/-! `fib_kernel`, the one function that is called remotely. Its counter is 32 bits wide and
compared with `<=`, so for the greatest argument the loop never ends. -/
namespace Ndp.Cpp

open Looping

structure FibState where
  i : UInt32
  n1 : UInt64
  n2 : UInt64
  deriving DecidableEq, Repr

def fibStart : FibState := ⟨0, -1, 1⟩

def fibBody (n : UInt32) (s : FibState) : Flow FibState UInt64 :=
  if s.i ≤ n then .next ⟨s.i + 1, s.n2, s.n1 + s.n2⟩ else .ret s.n2

/-- A counter of 32 bits leaves the loop within this many iterations or not at all. -/
def fibKernel (n : UInt32) : Outcome UInt64 :=
  match iterate (fibBody n) (2 ^ 32) fibStart with
  | some result => .returned result
  | none => .diverges

/-- Before iteration `k` the variables hold two neighbours of the sequence. -/
structure FibAt (k : Nat) (s : FibState) : Prop where
  counter : s.i = UInt32.ofNat k
  current : s.n2 = UInt64.ofNat (if k = 0 then 1 else Nat.fib (k - 1))
  next : s.n1 + s.n2 = UInt64.ofNat (Nat.fib k)

theorem fibAt_start : FibAt 0 fibStart := ⟨rfl,rfl,by decide⟩

theorem fibAt_step {k : Nat} {s : FibState} (at_k : FibAt k s) :
    FibAt (k + 1) ⟨s.i + 1, s.n2, s.n1 + s.n2⟩ := by
  refine ⟨?_,?_,?_⟩
  · simp only [at_k.counter,UInt32.ofNat_add]
    rfl
  · simpa using at_k.next
  · rw [at_k.next,at_k.current]
    cases k with
    | zero => rfl
    | succ k =>
      simp only [Nat.add_sub_cancel,Nat.succ_ne_zero,↓reduceIte,Nat.fib_add_two,UInt64.ofNat_add]

theorem fibBody_of_le {n : UInt32} {s : FibState} (le : s.i ≤ n) :
    fibBody n s = .next ⟨s.i + 1, s.n2, s.n1 + s.n2⟩ := if_pos le

theorem iterate_fib (n : UInt32) (small : n.toNat + 1 < 2 ^ 32) (fuel k : Nat) (s : FibState)
    (at_k : FibAt k s) (below : k ≤ n.toNat + 1) (enough : n.toNat + 1 < k + fuel) :
    iterate (fibBody n) fuel s = some (UInt64.ofNat (Nat.fib n.toNat)) := by
  induction fuel generalizing k s with
  | zero => omega
  | succ fuel ih =>
    have counter : s.i.toNat = k := by
      rw [at_k.counter,UInt32.toNat_ofNat_of_lt' (by simp only [UInt32.size]; omega)]
    by_cases last : k = n.toNat + 1
    · have past : ¬s.i ≤ n := by rw [UInt32.le_iff_toNat_le]; omega
      have current := at_k.current
      subst last
      simp only [iterate,fibBody,past,↓reduceIte]
      simpa using current
    · have go : s.i ≤ n := by rw [UInt32.le_iff_toNat_le]; omega
      simp only [iterate,fibBody_of_le go]
      exact ih (k + 1) _ (fibAt_step at_k) (by omega) (by omega)

theorem fibKernel_returns (n : UInt32) (small : n.toNat + 1 < 2 ^ 32) :
    fibKernel n = .returned (UInt64.ofNat (Nat.fib n.toNat)) := by
  unfold fibKernel
  rw [iterate_fib n small _ 0 _ fibAt_start (by omega) (by omega)]

/-- At the greatest argument no number of iterations is enough. -/
theorem iterate_fib_greatest (n : UInt32) (greatest : n.toNat + 1 = 2 ^ 32) (fuel : Nat) (s : FibState) :
    iterate (fibBody n) fuel s = none := by
  induction fuel generalizing s with
  | zero => rfl
  | succ fuel ih =>
    have go : s.i ≤ n := by
      have := s.i.toNat_lt
      rw [UInt32.le_iff_toNat_le]
      omega
    simp only [iterate,fibBody_of_le go]
    exact ih _

theorem fibKernel_greatest (n : UInt32) (greatest : n.toNat + 1 = 2 ^ 32) : fibKernel n = .diverges := by
  unfold fibKernel
  rw [iterate_fib_greatest n greatest]

/-- The budget in the definition cuts nothing off: a call that is said to diverge does so
on every budget. -/
theorem fibKernel_diverges_iff (n : UInt32) :
    fibKernel n = .diverges ↔ ∀ fuel, iterate (fibBody n) fuel fibStart = none := by
  have bound := n.toNat_lt
  constructor
  · intro h fuel
    by_cases small : n.toNat + 1 < 2 ^ 32
    · rw [fibKernel_returns n small] at h
      contradiction
    · exact iterate_fib_greatest n (by omega) fuel fibStart
  · intro h
    unfold fibKernel
    rw [h]

end Ndp.Cpp
