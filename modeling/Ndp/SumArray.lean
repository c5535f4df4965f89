import Ndp.CStd
import Ndp.Cells
import Ndp.Looping

/-! The kernels of the summing benchmark, and the sum kept up to date by differences. Elements are
signed words and the accumulators unsigned ones of twice their width. -/
namespace Ndp.SumArray

open C Cells Looping

structure Sweep (σ : Type) where
  i : Nat
  acc : σ

/-- `for(int i = 0; i < len; i++)`: undefined where the body is, and where the counter would pass the
greatest `int`. -/
def sweepBody (visit : Nat → σ → Option σ) (len : UInt64) (s : Sweep σ) : Flow (Sweep σ) (Option σ) :=
  if s.i < len.toNat then
    match visit s.i s.acc with
    | some acc => if s.i < intMax then .next ⟨s.i + 1, acc⟩ else .ret none
    | none => .ret none
  else .ret (some s.acc)

def sweepVariant (visit : Nat → σ → Option σ) (len : UInt64) : Variant (sweepBody visit len) where
  measure s := len.toNat - s.i
  decreases s s' h := by
    unfold sweepBody at h
    split at h
    · split at h
      · split at h
        · cases h
          simp only
          omega
        · contradiction
      · contradiction
    · contradiction

def sweep (visit : Nat → σ → Option σ) (len : UInt64) (acc : σ) : Option σ := run (sweepVariant visit len) ⟨0, acc⟩

/-- The loop of the kernels: one element after the other goes into the accumulator. -/
def accumulate (step : UInt64 → Int32 → UInt64) (acc : UInt64) (arr : Memory Int32) (len : UInt64) : Option UInt64 :=
  sweep (fun i acc => do
    let x ← arr i
    return step acc x) len acc

def initArray (rand : Nat → Nat) (arr : Memory Int32) (len : UInt64) : Option (Memory Int32) :=
  sweep (fun i arr => write arr i (Int32.ofNat (rand i % 100))) len arr

def naiveSum : Memory Int32 → UInt64 → Option UInt64 := accumulate (fun sum x => sum + widen x) 0

/-- The comparison is one of unsigned words. -/
def naiveMin : Memory Int32 → UInt64 → Option UInt64 :=
  accumulate (fun min x => if widen x < min then widen x else min) 2147483647

/-- As above. -/
def naiveMax : Memory Int32 → UInt64 → Option UInt64 :=
  accumulate (fun max x => if widen x > max then widen x else max) 0

/-- The difference returned, and the array. -/
def swapingNaiveSum (arr : Memory Int32) (swapIdx value : Int32) : Option (UInt64 × Memory Int32) := do
  let old ← arr swapIdx.toInt
  let arr ← write arr swapIdx.toInt value
  return (widen old - widen value, arr)

section Sweeping

variable {visit : Nat → σ → Option σ} {len : UInt64} {i : Nat} {acc acc' : σ}

theorem sweep_done (done : len.toNat ≤ i) : run (sweepVariant visit len) ⟨i, acc⟩ = some acc := by
  apply run_ret
  rw [sweepBody,if_neg (Nat.not_lt.mpr done)]

theorem sweep_round (more : i < len.toNat) (small : len.toNat ≤ intMax) (visited : visit i acc = some acc') :
    run (sweepVariant visit len) ⟨i, acc⟩ = run (sweepVariant visit len) ⟨i + 1, acc'⟩ := by
  apply run_next
  rw [sweepBody,if_pos more,visited]
  exact if_pos (Nat.lt_of_lt_of_le more small)

end Sweeping

theorem accumulate_from (step : UInt64 → Int32 → UInt64) {arr : Memory Int32} {len : UInt64} (small : len.toNat ≤ intMax)
    {i : Nat} {xs : List Int32} (holds : Holds arr i xs) (ends : i + xs.length = len.toNat) (acc : UInt64) :
    run (sweepVariant (fun i acc => do
      let x ← arr (i : Int)
      return step acc x) len) ⟨i, acc⟩ = some (xs.foldl step acc) := by
  induction xs generalizing i acc with
  | nil => exact sweep_done (Nat.le_of_eq ends.symm)
  | cons x xs ih =>
    rw [List.length_cons] at ends
    have visited : (do
        let x ← arr (i : Int)
        return step acc x) = some (step acc x) := by simp [holds.1]
    rw [sweep_round (by omega) small visited]
    exact ih (by exact_mod_cast holds.2) (by omega) (step acc x)

theorem length_toNat {xs : List Int32} (small : xs.length ≤ intMax) : (UInt64.ofNat xs.length).toNat = xs.length :=
  UInt64.toNat_ofNat_of_lt' (Nat.lt_of_le_of_lt small (by decide))

theorem accumulate_ofList (step : UInt64 → Int32 → UInt64) (acc : UInt64) {xs : List Int32} (small : xs.length ≤ intMax) :
    accumulate step acc (ofList xs) (UInt64.ofNat xs.length) = some (xs.foldl step acc) := by
  have length := length_toNat small
  exact accumulate_from step (by rwa [length]) (holds_ofList xs) (by rw [Nat.zero_add,length]) acc

/-- The sum meant. -/
def total (xs : List Int32) : Int := (xs.map Int32.toInt).foldr (· + ·) 0

theorem foldl_sum (xs : List Int32) (acc : Int) :
    xs.foldl (fun sum x => sum + widen x) (UInt64.ofInt acc) = UInt64.ofInt (acc + total xs) := by
  induction xs generalizing acc with
  | nil => rw [List.foldl_nil,total,List.map_nil,List.foldr_nil,Int.add_zero]
  | cons x xs ih =>
    rw [List.foldl_cons,widen_eq_ofInt,← UInt64.ofInt_add,ih,total,total,List.map_cons,List.foldr_cons,Int.add_assoc]

theorem foldl_total (xs : List Int32) : xs.foldl (fun sum x => sum + widen x) 0 = UInt64.ofInt (total xs) := by
  have sum := foldl_sum xs 0
  rwa [Int.zero_add] at sum

theorem naiveSum_ofList {xs : List Int32} (small : xs.length ≤ intMax) :
    naiveSum (ofList xs) (UInt64.ofNat xs.length) = some (UInt64.ofInt (total xs)) := by
  rw [naiveSum,accumulate_ofList _ _ small,foldl_total]

theorem total_set {xs : List Int32} {i : Nat} (inside : i < xs.length) (x : Int32) :
    total (xs.set i x) = total xs - (xs[i].toInt - x.toInt) := by
  induction xs generalizing i with
  | nil => simp at inside
  | cons y ys ih =>
    cases i with
    | zero =>
      simp only [total,List.set_cons_zero,List.map_cons,List.foldr_cons,List.getElem_cons_zero]
      omega
    | succ i =>
      have rest := ih (Nat.lt_of_succ_lt_succ inside)
      simp only [total,List.set_cons_succ,List.map_cons,List.foldr_cons,List.getElem_cons_succ] at rest ⊢
      omega

/-- One call of `swaping_naive_sum`. -/
structure Swap where
  swapIdx : Int32
  value : Int32
  deriving DecidableEq, Repr

def Swap.Within (len : Nat) (call : Swap) : Prop := 0 ≤ call.swapIdx.toInt ∧ call.swapIdx.toInt < len

instance (len : Nat) (call : Swap) : Decidable (call.Within len) := inferInstanceAs (Decidable (_ ∧ _))

/-- The differences returned by calls one after the other, and the array. -/
def swaps (arr : Memory Int32) : List Swap → Option (List UInt64 × Memory Int32)
  | [] => some ([], arr)
  | call :: calls => do
    let (diff, arr) ← swapingNaiveSum arr call.swapIdx call.value
    let (diffs, arr) ← swaps arr calls
    return (diff :: diffs, arr)

def Swap.apply (xs : List Int32) (call : Swap) : List Int32 := xs.set call.swapIdx.toInt.toNat call.value

theorem swapingNaiveSum_stores {arr arr' : Memory Int32} {swapIdx value : Int32} {diff : UInt64}
    (returned : swapingNaiveSum arr swapIdx value = some (diff, arr')) :
    arr' = Function.update arr swapIdx.toInt (some value) := by
  simp only [swapingNaiveSum,write,Option.bind_eq_bind,Option.bind_eq_some_iff,Option.ite_none_right_eq_some] at returned
  obtain ⟨old,-,stored,⟨-,stores⟩,result⟩ := returned
  cases result
  exact (Option.some.inj stores).symm

theorem swapingNaiveSum_ofList {xs : List Int32} {call : Swap} (within : call.Within xs.length) :
    ∃ diff, swapingNaiveSum (ofList xs) call.swapIdx call.value = some (diff, ofList (call.apply xs)) ∧
      UInt64.ofInt (total xs) - diff = UInt64.ofInt (total (call.apply xs)) := by
  obtain ⟨low,high⟩ := within
  have inside : call.swapIdx.toInt.toNat < xs.length := by omega
  have index : ((call.swapIdx.toInt.toNat : Nat) : Int) = call.swapIdx.toInt := Int.toNat_of_nonneg low
  have read := (holds_ofList xs).get inside
  have stored := write_ofList xs inside call.value
  rw [index,Int.zero_add] at read
  rw [index] at stored
  refine ⟨widen xs[call.swapIdx.toInt.toNat] - widen call.value,?_,?_⟩
  · simp [swapingNaiveSum,read,stored,Swap.apply]
  · rw [widen_eq_ofInt,widen_eq_ofInt,← ofInt_sub,← ofInt_sub,Swap.apply,total_set inside]

theorem swaps_ofList (xs : List Int32) (calls : List Swap) (within : ∀ call ∈ calls, call.Within xs.length) :
    ∃ diffs ys, swaps (ofList xs) calls = some (diffs, ofList ys) ∧ ys.length = xs.length ∧
      UInt64.ofInt (total xs) - diffs.foldr (· + ·) 0 = UInt64.ofInt (total ys) := by
  induction calls generalizing xs with
  | nil => exact ⟨[],xs,rfl,rfl,UInt64.sub_zero _⟩
  | cons call calls ih =>
    have length : (call.apply xs).length = xs.length := List.length_set
    obtain ⟨diff,swapped,once⟩ := swapingNaiveSum_ofList (within call List.mem_cons_self)
    obtain ⟨diffs,ys,rest,same,sum⟩ := ih (call.apply xs) fun next later =>
      length ▸ within next (List.mem_cons_of_mem _ later)
    refine ⟨diff :: diffs,ys,?_,same.trans length,?_⟩
    · simp [swaps,swapped,rest]
    · rw [List.foldr_cons,← sum,← once]
      grind

/-- The first sum less all the differences is the sum of the array the calls leave, and each call stores
one element. -/
theorem incremental_sum_agrees {xs : List Int32} (small : xs.length ≤ intMax) (calls : List Swap)
    (within : ∀ call ∈ calls, call.Within xs.length) :
    ∃ diffs ys first last, swaps (ofList xs) calls = some (diffs, ofList ys) ∧ ys.length = xs.length ∧
      naiveSum (ofList xs) (UInt64.ofNat xs.length) = some first ∧
      naiveSum (ofList ys) (UInt64.ofNat xs.length) = some last ∧
      first - diffs.foldr (· + ·) 0 = last ∧ last = UInt64.ofInt (total ys) ∧
      ∀ front call back, calls = front ++ call :: back →
        ∃ diffs arr diff, swaps (ofList xs) front = some (diffs, arr) ∧
          swapingNaiveSum arr call.swapIdx call.value =
            some (diff, Function.update arr call.swapIdx.toInt (some call.value)) := by
  obtain ⟨diffs,ys,swapped,same,sum⟩ := swaps_ofList xs calls within
  have last := naiveSum_ofList (same ▸ small)
  rw [same] at last
  refine ⟨diffs,ys,_,_,swapped,same,naiveSum_ofList small,last,sum,rfl,?_⟩
  rintro front call back rfl
  obtain ⟨diffs,zs,before,length,-⟩ := swaps_ofList xs front fun next member =>
    within next (List.mem_append_left _ member)
  have inside : call.Within zs.length := by
    rw [length]
    exact within call (List.mem_append_right _ List.mem_cons_self)
  obtain ⟨diff,once,-⟩ := swapingNaiveSum_ofList inside
  exact ⟨diffs,ofList zs,diff,before,swapingNaiveSum_stores once ▸ once⟩

theorem incremental_sum_agrees_mixed :
    (∀ call ∈ [Swap.mk 1 9, Swap.mk 0 (-8)], call.Within 3) ∧
    ∃ diffs ys first, swaps (ofList [5, -3, 7]) [⟨1, 9⟩, ⟨0, -8⟩] = some (diffs, ofList ys) ∧
      naiveSum (ofList [5, -3, 7]) 3 = some first ∧ naiveSum (ofList ys) 3 = some (first - diffs.foldr (· + ·) 0) := by
  have within : ∀ call ∈ [Swap.mk 1 9, Swap.mk 0 (-8)], call.Within ([5, -3, 7] : List Int32).length := by decide
  obtain ⟨diffs,ys,first,_,swapped,-,before,after,rfl,-⟩ := incremental_sum_agrees (by decide) _ within
  exact ⟨within,diffs,ys,first,swapped,before,after⟩

end Ndp.SumArray
