import Ndp.SortAlgo

/-! `main` of the sorting benchmark: one kernel behind a function pointer, called with the last
index of the array each time an element has been replaced. -/
namespace Ndp.SortAlgo

open C Cells

abbrev Kernel := Memory Int32 → Int → Int → Option (Memory Int32)

/-- `f`, which stays null for any other text. -/
def kernelNamed : Option String → Option Kernel
  | some "merge" => some mergeSort
  | some "bubble" => some bubbleSort
  | _ => none

/-- `len - 1` passed for an `int`. -/
def intArg (len : Nat) : Int := (UInt64.ofNat len - 1).toUInt32.toInt32.toInt

/-- The two numbers entered. -/
structure Edit where
  idx : Int32
  newVal : Int32
  deriving DecidableEq, Repr

/-- The arrays printed after the calls. -/
def printed (f : Kernel) (len : Nat) (arr : Memory Int32) : List Edit → Option (List (Memory Int32))
  | [] => do
    let arr ← f arr 0 (intArg len)
    return [arr]
  | edit :: edits => do
    let arr ← f arr 0 (intArg len)
    let edited ← write arr edit.idx.toInt edit.newVal
    let rest ← printed f len edited edits
    return arr :: rest

/-- A call through the null pointer faults. -/
def main (name : Option String) (len : Nat) (arr : Memory Int32) (edits : List Edit) :
    Option (List (Memory Int32)) := do
  let f ← kernelNamed name
  printed f len arr edits

def Edit.Within (len : Nat) (edit : Edit) : Prop := 0 ≤ edit.idx.toInt ∧ edit.idx.toInt < len

instance (len : Nat) (edit : Edit) : Decidable (edit.Within len) := inferInstanceAs (Decidable (_ ∧ _))

def Edit.apply (edit : Edit) (xs : List Int32) : List Int32 := xs.set edit.idx.toInt.toNat edit.newVal

/-- Every printed array is the sorted permutation of the one before the call. -/
def allSorted (xs : List Int32) : List Edit → List (List Int32)
  | [] => [sorted xs]
  | edit :: edits => sorted xs :: allSorted (edit.apply (sorted xs)) edits

/-- The elements from some index on are in order, and not below any before them. -/
def InOrderFrom (k : Nat) (xs : List Int32) : Prop :=
  (xs.drop k).Pairwise (· ≤ ·) ∧ ∀ a ∈ xs.take k, ∀ b ∈ xs.drop k, a ≤ b

instance (k : Nat) (xs : List Int32) : Decidable (InOrderFrom k xs) :=
  have (a : Int32) := List.decidableBAll (fun b => a ≤ b) (xs.drop k)
  have := List.decidableBAll (fun a => ∀ b ∈ xs.drop k, a ≤ b) (xs.take k)
  inferInstanceAs (Decidable (_ ∧ _))

/-- Each call finds the elements from some index on in place. -/
def TailsInOrder (k : Nat) (xs : List Int32) : List Edit → Prop
  | [] => InOrderFrom k xs
  | edit :: edits => InOrderFrom k xs ∧ TailsInOrder k (edit.apply (sorted xs)) edits

instance decidableTailsInOrder (k : Nat) (xs : List Int32) : (edits : List Edit) → Decidable (TailsInOrder k xs edits)
  | [] => inferInstanceAs (Decidable (InOrderFrom k xs))
  | edit :: edits =>
    have := decidableTailsInOrder k (edit.apply (sorted xs)) edits
    inferInstanceAs (Decidable (_ ∧ _))

def sortedFirst (k : Nat) (xs : List Int32) : List Int32 := sorted (xs.take k) ++ xs.drop k

theorem sortedFirst_eq_iff (k : Nat) (xs : List Int32) : sortedFirst k xs = sorted xs ↔ InOrderFrom k xs := by
  have perm : (sortedFirst k xs).Perm xs := by
    have whole := (sorted_perm (xs.take k)).append_right (xs.drop k)
    rwa [List.take_append_drop] at whole
  have ordered : (sortedFirst k xs).Pairwise (· ≤ ·) ↔ InOrderFrom k xs := by
    rw [sortedFirst,List.pairwise_append]
    simp only [sorted_pairwise,true_and,(sorted_perm (xs.take k)).mem_iff,InOrderFrom]
  rw [← ordered]
  exact ⟨fun same => same ▸ sorted_pairwise xs,fun h => eq_sorted h perm⟩

theorem InOrderFrom.succ {k : Nat} {xs : List Int32} (tail : InOrderFrom k xs) : InOrderFrom (k + 1) xs := by
  obtain ⟨ordered,above⟩ := tail
  by_cases more : k < xs.length
  · rw [List.drop_eq_getElem_cons more,List.pairwise_cons] at ordered
    refine ⟨ordered.2,?_⟩
    intro a ha b hb
    rw [List.take_succ_eq_append_getElem more,List.mem_append] at ha
    rcases ha with before | last
    · exact above a before b (by rw [List.drop_eq_getElem_cons more]; exact List.mem_cons_of_mem _ hb)
    · rw [List.mem_singleton.mp last]
      exact ordered.1 b hb
  · simp [InOrderFrom,List.drop_eq_nil_of_le (Nat.le_succ_of_le (Nat.not_lt.mp more))]

theorem toInt_toInt32 (x : UInt32) :
    x.toInt32.toInt = if 2 * x.toNat < 2 ^ 32 then (x.toNat : Int) else x.toNat - (2 ^ 32 : Nat) :=
  BitVec.toInt_eq_toNat_cond x.toBitVec

theorem intArg_lt (len : Nat) : intArg len + 1 ≤ len := by
  rw [intArg,toInt_toInt32,UInt64.toNat_toUInt32,UInt64.toNat_sub]
  simp only [UInt64.toNat_ofNat',UInt64.reduceToNat]
  split <;> omega

theorem intArg_le (len : Nat) : intArg len ≤ intMax := by
  rw [intArg,toInt_toInt32,UInt64.toNat_toUInt32,UInt64.toNat_sub,intMax]
  simp only [UInt64.toNat_ofNat',UInt64.reduceToNat]
  split <;> omega

theorem intArg_of_le {len : Nat} (nonempty : 0 < len) (int : len ≤ intMax) : intArg len = len - 1 := by
  rw [intMax] at int
  rw [intArg,toInt_toInt32,UInt64.toNat_toUInt32,UInt64.toNat_sub]
  simp only [UInt64.toNat_ofNat',UInt64.reduceToNat]
  split <;> omega

theorem put_sorted (xs : List Int32) {k : Nat} (inside : k ≤ xs.length) :
    put (ofList xs) 0 (sorted (xs.take k)) = ofList (sortedFirst k xs) := by
  have length : (sorted (xs.take k)).length = k := by simp; omega
  rw [put_ofList _ _ (by omega),length,sortedFirst]

theorem holds_take (xs : List Int32) (k : Nat) : Holds (ofList xs) 0 (xs.take k) := by
  have whole := holds_ofList xs
  rw [← List.take_append_drop k xs,holds_append,List.take_append_drop] at whole
  exact whole.1

theorem mergeSort_ofList (xs : List Int32) {r : Int} (inside : r + 1 ≤ xs.length) (int : r ≤ intMax) :
    mergeSort (ofList xs) 0 r = if r = intMax then none else some (ofList (sortedFirst (r + 1).toNat xs)) := by
  rw [← put_sorted xs (by omega)]
  by_cases natural : 0 ≤ r + 1
  · have positive : (0 < r ∧ r = intMax) ↔ r = intMax := by
      rw [intMax]
      omega
    have sorts := mergeSort_holds (holds_take xs (r + 1).toNat) (show r + 1 = _ by rw [List.length_take]; omega) int
    simpa only [positive] using sorts
  · have empty : (r + 1).toNat = 0 := by omega
    rw [mergeSort,if_neg (by omega),if_neg (by rw [intMax]; omega),empty]
    rfl

theorem bubbleSort_ofList (xs : List Int32) {len : Int} (inside : len ≤ xs.length) (place_holder : Int) :
    bubbleSort (ofList xs) place_holder len = some (ofList (sortedFirst len.toNat xs)) := by
  rw [← put_sorted xs (by omega)]
  by_cases natural : 0 ≤ len
  · have count : len = (xs.take len.toNat).length := by rw [List.length_take]; omega
    have call := bubbleSort_holds (holds_take xs len.toNat) place_holder
    rwa [← count] at call
  · have empty : len.toNat = 0 := by omega
    rw [bubbleSort,forUp_done _ (by omega),empty]
    rfl

theorem TailsInOrder.succ {k : Nat} {xs : List Int32} {edits : List Edit} (tails : TailsInOrder k xs edits) :
    TailsInOrder (k + 1) xs edits := by
  induction edits generalizing xs with
  | nil => exact InOrderFrom.succ tails
  | cons edit edits ih => exact ⟨tails.1.succ,ih tails.2⟩

theorem printed_iff {f : Kernel} {len k : Nat}
    (sorts : ∀ ys : List Int32, ys.length = len → f (ofList ys) 0 (intArg len) = some (ofList (sortedFirst k ys)))
    (xs : List Int32) (length : xs.length = len) (edits : List Edit) (within : ∀ edit ∈ edits, edit.Within len) :
    printed f len (ofList xs) edits = some ((allSorted xs edits).map ofList) ↔ TailsInOrder k xs edits := by
  induction edits generalizing xs with
  | nil =>
    rw [TailsInOrder,← sortedFirst_eq_iff]
    simp [printed,sorts xs length,allSorted]
  | cons edit edits ih =>
    rw [TailsInOrder,← sortedFirst_eq_iff]
    by_cases tail : sortedFirst k xs = sorted xs
    · have inside : edit.idx.toInt.toNat < (sorted xs).length := by
        have := within edit List.mem_cons_self
        simp only [Edit.Within] at this
        rw [sorted_length]
        omega
      have edited : write (ofList (sorted xs)) edit.idx.toInt edit.newVal = some (ofList (edit.apply (sorted xs))) := by
        have write := write_ofList (sorted xs) inside edit.newVal
        rwa [Int.toNat_of_nonneg (within edit List.mem_cons_self).1] at write
      have rest := ih (edit.apply (sorted xs)) (by simp [Edit.apply,length]) fun e he => within e (List.mem_cons_of_mem _ he)
      rw [← rest]
      simp [printed,sorts xs length,tail,edited,allSorted,Option.bind_eq_some_iff]
    · simp [printed,sorts xs length,tail,allSorted,Option.bind_eq_some_iff]

theorem merge_session_iff (xs : List Int32) (edits : List Edit) (within : ∀ edit ∈ edits, edit.Within xs.length) :
    main (some "merge") xs.length (ofList xs) edits = some ((allSorted xs edits).map ofList) ↔
      intArg xs.length ≠ intMax ∧ TailsInOrder (intArg xs.length + 1).toNat xs edits := by
  by_cases greatest : intArg xs.length = intMax
  · have undefined : main (some "merge") xs.length (ofList xs) edits = none := by
      have call := mergeSort_ofList xs (intArg_lt xs.length) (intArg_le xs.length)
      rw [if_pos greatest] at call
      cases edits <;> simp [main,kernelNamed,printed,call]
    simp [undefined,greatest]
  · simp only [ne_eq,greatest,not_false_eq_true,true_and]
    refine printed_iff (fun ys length => ?_) xs rfl edits within
    rw [mergeSort_ofList ys (length ▸ intArg_lt xs.length) (intArg_le xs.length),if_neg greatest]

theorem bubble_session_iff (xs : List Int32) (edits : List Edit) (within : ∀ edit ∈ edits, edit.Within xs.length) :
    main (some "bubble") xs.length (ofList xs) edits = some ((allSorted xs edits).map ofList) ↔
      TailsInOrder (intArg xs.length).toNat xs edits := by
  have below := intArg_lt xs.length
  exact printed_iff (fun ys length => bubbleSort_ofList ys (by omega) 0) xs rfl edits within

theorem merge_session (xs : List Int32) (edits : List Edit) (within : ∀ edit ∈ edits, edit.Within xs.length)
    (int : xs.length ≤ intMax) :
    main (some "merge") xs.length (ofList xs) edits = some ((allSorted xs edits).map ofList) := by
  rw [merge_session_iff xs edits within]
  have all : xs.length ≤ (intArg xs.length + 1).toNat := by
    rcases Nat.eq_zero_or_pos xs.length with empty | nonempty
    · omega
    · rw [intArg_of_le nonempty int]
      omega
  have below := intArg_lt xs.length
  refine ⟨by omega,?_⟩
  generalize (intArg xs.length + 1).toNat = k at all
  clear int below within
  induction edits generalizing xs with
  | nil => simp [TailsInOrder,InOrderFrom,List.drop_eq_nil_of_le all]
  | cons edit edits ih =>
    refine ⟨by simp [InOrderFrom,List.drop_eq_nil_of_le all],ih _ ?_⟩
    simpa [Edit.apply] using all

theorem last_greatest_iff {xs : List Int32} (nonempty : xs ≠ []) (int : xs.length ≤ intMax) :
    InOrderFrom (intArg xs.length).toNat xs ↔ ∀ x ∈ xs, x ≤ xs.getLast nonempty := by
  have positive := List.length_pos_iff.mpr nonempty
  have index : (intArg xs.length).toNat = xs.length - 1 := by
    rw [intArg_of_le positive int]
    omega
  have tail : xs.drop (xs.length - 1) = [xs.getLast nonempty] := by
    rw [List.getLast_eq_getElem,List.drop_eq_getElem_cons (by omega),List.drop_eq_nil_of_le (by omega)]
  have whole : xs.dropLast ++ [xs.getLast nonempty] = xs := List.dropLast_append_getLast nonempty
  rw [InOrderFrom,index,tail,← List.dropLast_eq_take]
  constructor
  · rintro ⟨-,above⟩ x hx
    rw [← whole] at hx
    rcases List.mem_append.mp hx with before | last
    · exact above x before _ List.mem_cons_self
    · exact (List.mem_singleton.mp last).le
  · intro most
    refine ⟨List.pairwise_singleton _ _,?_⟩
    intro a ha b hb
    rw [List.mem_singleton.mp hb]
    exact most a (List.dropLast_subset xs ha)

/-- The kernels both print the sorted arrays exactly if `len - 1`, as an `int`, is not the greatest one and each
call finds the elements from there on where they belong. -/
theorem kernels_interchangeable_iff (xs : List Int32) (edits : List Edit)
    (within : ∀ edit ∈ edits, edit.Within xs.length) :
    (main (some "merge") xs.length (ofList xs) edits = some ((allSorted xs edits).map ofList) ∧
      main (some "bubble") xs.length (ofList xs) edits = some ((allSorted xs edits).map ofList)) ↔
    (intArg xs.length ≠ intMax ∧ TailsInOrder (intArg xs.length).toNat xs edits) := by
  rw [merge_session_iff xs edits within,bubble_session_iff xs edits within]
  refine ⟨fun ⟨⟨below,_⟩,tails⟩ => ⟨below,tails⟩,fun ⟨below,tails⟩ => ⟨⟨below,?_⟩,tails⟩⟩
  rcases Int.lt_or_le (intArg xs.length) 0 with negative | natural
  · have same : (intArg xs.length + 1).toNat = (intArg xs.length).toNat := by omega
    rwa [same]
  · have next : (intArg xs.length + 1).toNat = (intArg xs.length).toNat + 1 := by omega
    rw [next]
    exact tails.succ

theorem kernels_interchangeable_three :
    (∀ edit ∈ [Edit.mk 0 0, Edit.mk 1 3], edit.Within 3) ∧
    main (some "merge") 3 (ofList [2, 1, 3]) [⟨0, 0⟩, ⟨1, 3⟩] =
      main (some "bubble") 3 (ofList [2, 1, 3]) [⟨0, 0⟩, ⟨1, 3⟩] := by
  have within : ∀ edit ∈ [Edit.mk 0 0, Edit.mk 1 3], edit.Within 3 := by decide
  have tails : TailsInOrder 2 [2, 1, 3] [⟨0, 0⟩, ⟨1, 3⟩] := by decide
  have both := (kernels_interchangeable_iff [2, 1, 3] _ within).mpr ⟨by decide,tails⟩
  exact ⟨within,both.1.trans both.2.symm⟩

/-- Two elements the wrong way round: `bubbleSort` is told there is one. -/
theorem kernels_differ :
    main (some "merge") 2 (ofList [2, 1]) [] = some [ofList [1, 2]] ∧
    main (some "bubble") 2 (ofList [2, 1]) [] = some [ofList [2, 1]] ∧
    (ofList [2, 1] : Memory Int32) ≠ ofList [1, 2] := by
  have merged : mergeSort (ofList [2, 1]) 0 (intArg 2) = some (ofList [1, 2]) :=
    mergeSort_ofList [2, 1] (by decide) (by decide)
  have bubbled : bubbleSort (ofList [2, 1]) 0 (intArg 2) = some (ofList [2, 1]) := bubbleSort_ofList [2, 1] (by decide) 0
  refine ⟨?_,?_,by simp⟩
  · simp [main,kernelNamed,printed,merged]
  · simp [main,kernelNamed,printed,bubbled]

end Ndp.SortAlgo
