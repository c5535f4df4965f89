import Mathlib.Algebra.Group.Nat.Defs
import Mathlib.Data.List.Sort
import Mathlib.Order.MinMax
import Ndp.CStd
import Ndp.Cells
import Ndp.Looping

/-! The two sorting kernels of the array benchmark. Both work on the caller's array in place;
they read their last parameter differently, one as the last index and one as a length. Of all
indices only `k` comes to `r + 1`, which is no `int` if `r` is the greatest one. -/
namespace Ndp.SortAlgo

open C Cells Looping

instance int32LinearOrder : LinearOrder Int32 where
  le_refl _ := Int32.le_refl _
  le_trans _ _ _ := Int32.le_trans
  le_antisymm _ _ := Int32.le_antisymm
  le_total := Int32.le_total
  lt_iff_le_not_ge a b := by rw [Int32.not_le]; exact ⟨fun h => ⟨Int32.le_of_lt h,h⟩,And.right⟩
  toDecidableLE := inferInstance

structure MergeState where
  i : Nat
  j : Nat
  k : Int
  arr : Memory Int32

/-- `arr[k] = x` and `k++`. -/
def store (arr : Memory Int32) (k : Int) (x : Int32) : Option (Memory Int32 × Int) := do
  let arr ← write arr k x
  let k ← incr k
  return (arr, k)

/-- The loop that takes from both halves. -/
def mergeBody (L R : List Int32) (s : MergeState) : Flow MergeState (Option MergeState) :=
  if both : s.i < L.length ∧ s.j < R.length then
    if L[s.i] ≤ R[s.j] then
      match store s.arr s.k L[s.i] with
      | some (arr, k) => .next { s with arr := arr, i := s.i + 1, k := k }
      | none => .ret none
    else
      match store s.arr s.k R[s.j] with
      | some (arr, k) => .next { s with arr := arr, j := s.j + 1, k := k }
      | none => .ret none
  else .ret (some s)

def mergeVariant (L R : List Int32) : Variant (mergeBody L R) where
  measure s := (L.length - s.i) + (R.length - s.j)
  decreases s s' h := by
    unfold mergeBody at h
    split at h
    · split at h <;> split at h <;> cases h <;> simp only <;> omega
    · contradiction

structure DrainState where
  i : Nat
  k : Int
  arr : Memory Int32

/-- The loop that takes what one half has left. -/
def drainBody (L : List Int32) (s : DrainState) : Flow DrainState (Option DrainState) :=
  if more : s.i < L.length then
    match store s.arr s.k L[s.i] with
    | some (arr, k) => .next ⟨s.i + 1, k, arr⟩
    | none => .ret none
  else .ret (some s)

def drainVariant (L : List Int32) : Variant (drainBody L) where
  measure s := L.length - s.i
  decreases s s' h := by
    unfold drainBody at h
    split at h
    · split at h <;> cases h
      simp only
      omega
    · contradiction

/-- The three loops that write back. -/
def writeBack (L R : List Int32) (s : MergeState) : Option (Memory Int32) := do
  let s ← run (mergeVariant L R) s
  let left ← run (drainVariant L) ⟨s.i, s.k, s.arr⟩
  let right ← run (drainVariant R) ⟨s.j, left.k, left.arr⟩
  return right.arr

def merge (arr : Memory Int32) (l m r : Int) : Option (Memory Int32) := do
  let n1 := m - l + 1
  let n2 := r - m
  let L ← load arr l n1.toNat
  let R ← load arr (m + 1) n2.toNat
  writeBack L R ⟨0, 0, l, arr⟩

theorem middle_between {l r : Int} (more : l < r) : l ≤ l + (r - l).tdiv 2 ∧ l + (r - l).tdiv 2 < r := by
  rw [Int.tdiv_eq_ediv_of_nonneg (by omega)]
  omega

def mergeSort (arr : Memory Int32) (l r : Int) : Option (Memory Int32) :=
  if l < r then do
    let m := l + (r - l).tdiv 2
    let arr ← mergeSort arr l m
    let arr ← mergeSort arr (m + 1) r
    merge arr l m r
  else some arr
termination_by (r - l).toNat
decreasing_by
  all_goals
    have := middle_between ‹l < r›
    omega

def bubbleStep (j : Int) (arr : Memory Int32) : Option (Memory Int32) := do
  let here ← arr j
  let next ← arr (j + 1)
  if here > next then
    let arr ← write arr j next
    write arr (j + 1) here
  else return arr

/-- The second parameter is not looked at, the third is a number of elements. -/
def bubbleSort (arr : Memory Int32) (_place_holder len : Int) : Option (Memory Int32) :=
  forUp (fun i arr => forUp bubbleStep 0 (len - i - 1) arr) 0 len arr

def sorted (xs : List Int32) : List Int32 := xs.insertionSort (· ≤ ·)

theorem sorted_pairwise (xs : List Int32) : (sorted xs).Pairwise (· ≤ ·) := List.pairwise_insertionSort _ xs

theorem sorted_perm (xs : List Int32) : (sorted xs).Perm xs := List.perm_insertionSort _ xs

@[simp] theorem sorted_length (xs : List Int32) : (sorted xs).length = xs.length := (sorted_perm xs).length_eq

theorem eq_sorted {xs ys : List Int32} (ordered : ys.Pairwise (· ≤ ·)) (perm : ys.Perm xs) : ys = sorted xs :=
  List.Perm.eq_of_pairwise' ordered (sorted_pairwise xs) (perm.trans (sorted_perm xs).symm)

theorem sorted_append (xs ys : List Int32) :
    (sorted xs).merge (sorted ys) (fun a b => decide (a ≤ b)) = sorted (xs ++ ys) := by
  apply eq_sorted ((sorted_pairwise xs).merge (sorted_pairwise ys))
  exact (List.merge_perm_append _).trans ((sorted_perm xs).append (sorted_perm ys))

theorem sorted_concat {xs : List Int32} {top : Int32} (most : ∀ x ∈ xs, x ≤ top) :
    sorted xs ++ [top] = sorted (xs ++ [top]) := by
  apply eq_sorted _ ((sorted_perm xs).append_right _)
  rw [List.pairwise_append]
  refine ⟨sorted_pairwise xs,List.pairwise_singleton _ _,?_⟩
  intro x hx y hy
  rw [List.mem_singleton.mp hy]
  exact most x ((sorted_perm xs).mem_iff.mp hx)

section Merge

variable {L R : List Int32} {arr : Memory Int32} {k : Int} {room : List Int32}

theorem store_holds {z : Int32} (holds : Holds arr k (z :: room)) (x : Int32) :
    store arr k x = if k < intMax then some (Function.update arr k (some x), k + 1) else none := by
  unfold store incr
  rw [write_holds holds]
  split <;> rfl

theorem drain_holds {i : Nat} (int : k ≤ intMax) (holds : Holds arr k room) (enough : room.length = L.length - i) :
    ∃ i', run (drainVariant L) ⟨i, k, arr⟩ =
      if k + room.length ≤ intMax then some ⟨i', k + (L.drop i).length, put arr k (L.drop i)⟩ else none := by
  induction room generalizing i k arr with
  | nil =>
    have done : L.length ≤ i := by simp at enough; omega
    refine ⟨i,?_⟩
    have leaves : drainBody L ⟨i, k, arr⟩ = .ret (some ⟨i, k, arr⟩) := dif_neg (by simpa using done)
    rw [run_ret _ leaves,List.drop_eq_nil_of_le done,if_pos (by simpa using int)]
    simp [put]
  | cons z room ih =>
    have more : i < L.length := by simp at enough; omega
    have stored := store_holds holds L[i]
    rw [List.length_cons,Int.natCast_succ]
    by_cases below : k < intMax
    · rw [if_pos below] at stored
      have steps : drainBody L ⟨i, k, arr⟩ = .next ⟨i + 1, k + 1, Function.update arr k (some L[i])⟩ := by
        simp [drainBody,more,stored]
      have fewer : room.length = L.length - (i + 1) := by simp at enough; omega
      obtain ⟨i',rest⟩ := ih (show k + 1 ≤ intMax by omega) (holds.rest L[i]) fewer
      have ends : k + 1 + (L.drop (i + 1)).length = k + (L.drop i).length := by
        rw [List.drop_eq_getElem_cons more,List.length_cons]
        omega
      refine ⟨i',?_⟩
      rw [run_next _ steps,rest,ends,List.drop_eq_getElem_cons more,← Int.add_assoc,Int.add_right_comm]
      rfl
    · rw [if_neg below] at stored
      have leaves : drainBody L ⟨i, k, arr⟩ = .ret none := by simp [drainBody,more,stored]
      exact ⟨i,by rw [run_ret _ leaves,if_neg (by omega)]⟩

theorem writeBack_next {s s' : MergeState} (steps : mergeBody L R s = .next s') : writeBack L R s = writeBack L R s' := by
  unfold writeBack
  rw [run_next _ steps]

theorem writeBack_drains {i j : Nat} (int : k ≤ intMax) (holds : Holds arr k room)
    (enough : room.length = (L.length - i) + (R.length - j)) (used : ¬(i < L.length ∧ j < R.length)) :
    writeBack L R ⟨i, j, k, arr⟩ =
      if k + room.length ≤ intMax then some (put arr k (L.drop i ++ R.drop j)) else none := by
  have leaves : mergeBody L R ⟨i, j, k, arr⟩ = .ret (some ⟨i, j, k, arr⟩) := dif_neg used
  rw [← List.take_append_drop (L.length - i) room,holds_append] at holds
  obtain ⟨front,back⟩ := holds
  have few : (room.take (L.length - i)).length = L.length - i := by simp; omega
  have others : (room.drop (L.length - i)).length = R.length - j := by simp; omega
  obtain ⟨i',left⟩ := drain_holds int front few
  have behind : Holds (put arr k (L.drop i)) (k + (L.drop i).length) (room.drop (L.length - i)) := by
    rw [few] at back
    rw [List.length_drop]
    exact back.put (by rw [List.length_drop])
  unfold writeBack
  rw [run_ret _ leaves]
  simp only [Option.bind_eq_bind,Option.bind_some,left,few]
  by_cases fits : k + (L.length - i : Nat) ≤ intMax
  · obtain ⟨j',right⟩ := drain_holds (by rwa [List.length_drop]) behind others
    rw [List.length_drop,others] at right
    have count : k + (L.length - i : Nat) + (R.length - j : Nat) = k + room.length := by omega
    rw [if_pos fits]
    simp only [Option.bind_some,List.length_drop,right,count]
    split
    · rw [put_append,List.length_drop]
      rfl
    · rfl
  · rw [if_neg fits,if_neg (by omega)]
    rfl

theorem writeBack_holds {i j : Nat} (int : k ≤ intMax) (holds : Holds arr k room)
    (enough : room.length = (L.length - i) + (R.length - j)) :
    writeBack L R ⟨i, j, k, arr⟩ =
      if k + room.length ≤ intMax then some (put arr k ((L.drop i).merge (R.drop j) fun a b => decide (a ≤ b)))
      else none := by
  induction room generalizing i j k arr with
  | nil =>
    have done : L.length ≤ i ∧ R.length ≤ j := by simp at enough; omega
    rw [writeBack_drains int holds enough (by omega),List.drop_eq_nil_of_le done.1,List.drop_eq_nil_of_le done.2]
    simp
  | cons z room ih =>
    have count : room.length + 1 = (L.length - i) + (R.length - j) := enough
    by_cases both : i < L.length ∧ j < R.length
    · have left := List.drop_eq_getElem_cons both.1
      have right := List.drop_eq_getElem_cons both.2
      have room' : k + ((z :: room).length : Int) = k + 1 + room.length := by simp; omega
      rw [left,right,List.cons_merge_cons,room']
      by_cases below : k < intMax
      · by_cases first : L[i] ≤ R[j]
        · have stored := store_holds holds L[i]
          rw [if_pos below] at stored
          have steps : mergeBody L R ⟨i, j, k, arr⟩ = .next ⟨i + 1, j, k + 1, Function.update arr k (some L[i])⟩ := by
            simp [mergeBody,both,first,stored]
          rw [writeBack_next steps,ih (show k + 1 ≤ intMax by omega) (holds.rest L[i]) (by omega),right]
          simp [first,put]
        · have stored := store_holds holds R[j]
          rw [if_pos below] at stored
          have steps : mergeBody L R ⟨i, j, k, arr⟩ = .next ⟨i, j + 1, k + 1, Function.update arr k (some R[j])⟩ := by
            simp [mergeBody,both,first,stored]
          rw [writeBack_next steps,ih (show k + 1 ≤ intMax by omega) (holds.rest R[j]) (by omega),left]
          simp [first,put]
      · have stored (x : Int32) : store arr k x = none := (store_holds holds x).trans (if_neg below)
        have leaves : mergeBody L R ⟨i, j, k, arr⟩ = .ret none := by simp [mergeBody,both,stored]
        rw [if_neg (by omega),writeBack,run_ret _ leaves]
        rfl
    · rw [writeBack_drains int holds enough both]
      obtain short | short : L.length ≤ i ∨ R.length ≤ j := by omega
      · simp [List.drop_eq_nil_of_le short]
      · simp [List.drop_eq_nil_of_le short]

theorem merge_holds {l m r : Int} (left : Holds arr l L) (right : Holds arr (m + 1) R)
    (middle : m + 1 = l + L.length) (last : r = m + R.length) (int : l ≤ intMax) :
    merge arr l m r = if r < intMax then some (put arr l (L.merge R fun a b => decide (a ≤ b))) else none := by
  have n1 : (m - l + 1).toNat = L.length := by omega
  have n2 : (r - m).toNat = R.length := by omega
  have room : Holds arr l (L ++ R) := holds_append.mpr ⟨left,middle ▸ right⟩
  have written := writeBack_holds (L := L) (R := R) (i := 0) (j := 0) int room (by simp)
  have ends : l + ((L ++ R).length : Int) ≤ intMax ↔ r < intMax := by
    rw [List.length_append]
    omega
  simp only [merge,n1,n2,load_holds left,load_holds right,Option.bind_eq_bind,Option.bind_some]
  simpa only [ends,List.drop_zero] using written

end Merge

/-- `mergeSort` sorts the cells from `l` to `r` and needs no other, but for the greatest `r`, where it is
undefined unless there is nothing to sort. -/
theorem mergeSort_holds {arr : Memory Int32} {l r : Int} {xs : List Int32} (holds : Holds arr l xs)
    (last : r + 1 = l + xs.length) (int : r ≤ intMax) :
    mergeSort arr l r = if l < r ∧ r = intMax then none else some (put arr l (sorted xs)) := by
  induction hn : xs.length using Nat.strongRecOn generalizing arr l r xs with
  | ind n ih =>
    subst hn
    unfold mergeSort
    by_cases more : l < r
    · have between := middle_between more
      generalize l + (r - l).tdiv 2 = m at between
      obtain ⟨front,back,rfl,half⟩ : ∃ front back, xs = front ++ back ∧ m + 1 = l + (front.length : Int) := by
        refine ⟨xs.take (m + 1 - l).toNat,xs.drop (m + 1 - l).toNat,(List.take_append_drop _ xs).symm,?_⟩
        rw [List.length_take]
        omega
      rw [List.length_append] at last ih
      rw [holds_append,← half] at holds
      have kept : Holds (put arr l (sorted front)) (m + 1) back := holds.2.put (by rw [sorted_length]; omega)
      have first : mergeSort arr l m = some (put arr l (sorted front)) :=
        (ih front.length (by omega) holds.1 half (by omega) rfl).trans (if_neg (by omega))
      have second := ih back.length (by omega) kept (show r + 1 = m + 1 + (back.length : Int) by omega) int rfl
      have behind : put (put arr l (sorted front)) (m + 1) (sorted back) = put arr l (sorted front ++ sorted back) := by
        rw [put_append,sorted_length,← half]
      rw [behind] at second
      have both := holds_append.mp (holds_put arr l (sorted front ++ sorted back))
      rw [sorted_length,← half] at both
      have merged := merge_holds both.1 both.2 (show m + 1 = _ by simpa using half) (show r = _ by simp; omega) (by omega)
      simp only [if_pos more,first,Option.bind_eq_bind,Option.bind_some]
      by_cases greatest : r = intMax
      · rw [if_pos ⟨more,greatest⟩,second]
        split
        · rfl
        · rw [Option.bind_some,merged,if_neg (by omega)]
      · rw [if_neg (by omega),second,if_neg (by omega),Option.bind_some,merged,if_pos (by omega),put_put _ _ (by simp),
          sorted_append]
    · have ordered : xs.Pairwise (· ≤ ·) := by
        match xs with
        | [] => exact List.Pairwise.nil
        | [x] => exact List.pairwise_singleton _ x
        | _ :: _ :: _ => simp at last; omega
      rw [if_neg more,if_neg (by omega),← eq_sorted ordered (List.Perm.refl xs),put_self holds]

theorem exists_stretch {xs : List Int32} {l r : Int} (low : 0 ≤ l) (le : l ≤ r + 1) (high : r + 1 ≤ xs.length) :
    ∃ front old back, xs = front ++ old ++ back ∧ l = (front.length : Int) ∧ r + 1 = ((front ++ old).length : Int) := by
  have before : xs.take l.toNat = (xs.take (r + 1).toNat).take l.toNat := by
    rw [List.take_take,Nat.min_eq_left (by omega)]
  refine ⟨xs.take l.toNat,(xs.take (r + 1).toNat).drop l.toNat,xs.drop (r + 1).toNat,?_,?_,?_⟩
  · rw [before,List.take_append_drop,List.take_append_drop]
  · rw [List.length_take]
    omega
  · rw [before,List.take_append_drop,List.length_take]
    omega

section Slice

variable {xs : List Int32} {l r : Int} (low : 0 ≤ l) (le : l ≤ r + 1) (high : r + 1 ≤ xs.length)

include low le high

theorem slice_length : r + 1 = l + ((xs.take (r + 1).toNat).drop l.toNat).length := by
  rw [List.length_drop,List.length_take]
  omega

theorem mergeSort_slice (int : r ≤ intMax) : mergeSort (ofList xs) l r =
    if l < r ∧ r = intMax then none
    else some (ofList (xs.take l.toNat ++ sorted ((xs.take (r + 1).toNat).drop l.toNat) ++ xs.drop (r + 1).toNat)) := by
  obtain ⟨front,old,back,rfl,first,last⟩ := exists_stretch low le high
  have before : (front ++ old ++ back).take l.toNat = front := by
    rw [first,Int.toNat_natCast,List.append_assoc,List.take_left]
  have behind : (front ++ old ++ back).drop (r + 1).toNat = back := by rw [last,Int.toNat_natCast,List.drop_left]
  have slice : ((front ++ old ++ back).take (r + 1).toNat).drop l.toNat = old := by
    rw [last,first,Int.toNat_natCast,Int.toNat_natCast,List.take_left,List.drop_left]
  have ends := slice_length low le high
  have holds := holds_ofList (front ++ old ++ back)
  rw [holds_append,holds_append,Int.zero_add,← first] at holds
  rw [slice] at ends
  rw [before,behind,slice,mergeSort_holds holds.1.2 ends int,← put_ofList_middle _ _ _ (sorted_length old),← first]

end Slice

/-- Sorting in place, in an array and with no cell but those from `l` to `r`, whatever these hold: not if there
is more than one of them and the last index is the greatest `int`. -/
theorem mergeSort_in_place_iff (xs : List Int32) (l r : Int) (low : 0 ≤ l) (le : l ≤ r + 1) (high : r + 1 ≤ xs.length)
    (int : r ≤ intMax) :
    (∃ ys, ys.Pairwise (· ≤ ·) ∧ ys.Perm ((xs.take (r + 1).toNat).drop l.toNat) ∧
      mergeSort (ofList xs) l r = some (ofList (xs.take l.toNat ++ ys ++ xs.drop (r + 1).toNat)) ∧
      mergeSort (put (fun _ => none) l ((xs.take (r + 1).toNat).drop l.toNat)) l r = some (put (fun _ => none) l ys)) ↔
    (r < intMax ∨ r ≤ l) := by
  have whole := mergeSort_slice low le high int
  have alone := mergeSort_holds (holds_put (fun _ => none) l ((xs.take (r + 1).toNat).drop l.toNat))
    (slice_length low le high) int
  constructor
  · rintro ⟨ys,-,-,sorts,-⟩
    by_contra greatest
    rw [whole,if_pos (by omega)] at sorts
    cases sorts
  · intro fits
    rw [if_neg (by omega)] at whole alone
    refine ⟨_,sorted_pairwise _,sorted_perm _,whole,?_⟩
    rw [alone,put_put _ _ (by rw [sorted_length])]

/-- The two middle elements of four. -/
theorem mergeSort_in_place_middle :
    ∃ ys, ys.Pairwise (· ≤ ·) ∧ ys.Perm [9, 3] ∧
      mergeSort (ofList [5, 9, 3, 1]) 1 2 = some (ofList ([5] ++ ys ++ [1])) := by
  have sorts := mergeSort_in_place_iff [5, 9, 3, 1] 1 2 (by decide) (by decide) (by decide) (by decide)
  obtain ⟨ys,ordered,perm,sorts,-⟩ := sorts.mpr (.inl (by decide))
  exact ⟨ys,ordered,perm,sorts⟩

theorem mergeSort_overflows :
    (2147483647 : Int) + 1 ≤ (List.replicate 2147483648 (7 : Int32)).length ∧
    mergeSort (ofList (List.replicate 2147483648 7)) 2147483646 2147483647 = none := by
  have high : (2147483647 : Int) + 1 ≤ (List.replicate 2147483648 (7 : Int32)).length := by
    rw [List.length_replicate]
    decide
  refine ⟨high,?_⟩
  rw [mergeSort_slice (by decide) (by decide) high (by decide),if_pos (by decide)]

theorem bubbleStep_holds {arr : Memory Int32} {j : Int} {a b : Int32} {xs : List Int32}
    (holds : Holds arr j (a :: b :: xs)) : bubbleStep j arr = some (put arr j [min a b, max a b]) := by
  by_cases greater : a > b
  · have second : write (Function.update arr j (some b)) (j + 1) a = some (put arr j [b, a]) :=
      write_holds (holds.rest b) a
    rw [min_eq_right greater.le,max_eq_left greater.le]
    simp [bubbleStep,holds.1,holds.2.1,greater,write_holds holds,second]
  · rw [min_eq_left (not_lt.mp greater),max_eq_right (not_lt.mp greater)]
    have same : put arr j [a, b] = arr := put_self ⟨holds.1,holds.2.1,trivial⟩
    simp [bubbleStep,holds.1,holds.2.1,greater,same]

theorem pass_holds {arr : Memory Int32} {j : Int} {a : Int32} {xs : List Int32} (holds : Holds arr j (a :: xs)) :
    ∃ us top, forUp bubbleStep j (j + xs.length) arr = some (put arr j (us ++ [top])) ∧
      (us ++ [top]).Perm (a :: xs) ∧ ∀ u ∈ us, u ≤ top := by
  induction xs generalizing arr j a with
  | nil =>
    refine ⟨[],a,?_,List.Perm.refl _,by simp⟩
    rw [forUp_done _ (by simp),List.nil_append,put_self holds]
  | cons b xs ih =>
    have stored := bubbleStep_holds holds
    have carried : Holds (put arr j [min a b, max a b]) (j + 1) (max a b :: xs) := by
      have pair := holds_put arr j [min a b, max a b]
      have behind : Holds (put arr j [min a b, max a b]) (j + 1 + 1) xs := holds.2.2.put (by simp; omega)
      exact ⟨pair.2.1,behind⟩
    obtain ⟨us,top,rest,perm,most⟩ := ih carried
    refine ⟨min a b :: us,top,?_,?_,?_⟩
    · have stop : j + ((b :: xs).length : Int) = j + 1 + xs.length := by simp; omega
      rw [stop,forUp_round _ (by omega),stored]
      have covered : put (put arr j [min a b, max a b]) (j + 1) (us ++ [top]) = put arr j (min a b :: us ++ [top]) :=
        put_put (Function.update arr j (some (min a b))) (j + 1) (by simp)
      rw [← covered]
      exact rest
    · have pair : [min a b, max a b].Perm [a, b] := by
        rcases le_total a b with le | le
        · rw [min_eq_left le,max_eq_right le]
        · rw [min_eq_right le,max_eq_left le]
          exact List.Perm.swap a b []
      exact (perm.cons (min a b)).trans (pair.append_right xs)
    · intro u hu
      rcases List.mem_cons.mp hu with rfl | hu
      · have among : max a b ∈ us ++ [top] := perm.mem_iff.mpr List.mem_cons_self
        rcases List.mem_append.mp among with before | last
        · exact min_le_max.trans (most _ before)
        · exact min_le_max.trans_eq (List.mem_singleton.mp last)
      · exact most u hu

theorem sorted_congr {xs ys : List Int32} (perm : xs.Perm ys) : sorted xs = sorted ys :=
  eq_sorted (sorted_pairwise xs) ((sorted_perm xs).trans perm)

theorem rounds_hold {arr : Memory Int32} {ys zs : List Int32} {len : Int} (holds : Holds arr 0 (ys ++ zs))
    (count : len = ys.length + zs.length) :
    forUp (fun i arr => forUp bubbleStep 0 (len - i - 1) arr) zs.length len arr = some (put arr 0 (sorted ys ++ zs)) := by
  induction hn : ys.length generalizing arr ys zs with
  | zero =>
    obtain rfl := List.eq_nil_of_length_eq_zero hn
    rw [forUp_done _ (by simp [count])]
    exact congrArg some (put_self holds).symm
  | succ n ih =>
    obtain ⟨y,ys,rfl⟩ := List.exists_cons_of_length_eq_add_one hn
    obtain ⟨front,back⟩ := holds_append.mp holds
    obtain ⟨us,top,pass,perm,most⟩ := pass_holds front
    have length : us.length = ys.length := by simpa using perm.length_eq
    have next : Holds (put arr 0 (us ++ [top])) 0 (us ++ top :: zs) := by
      rw [List.append_cons us top zs,holds_append]
      refine ⟨holds_put _ _ _,?_⟩
      rw [perm.length_eq]
      exact back.put (by rw [perm.length_eq])
    have rest := ih next (by simp at count ⊢; omega) (by simp at hn; omega)
    have stop : len - (zs.length : Int) - 1 = 0 + ys.length := by simp at count; omega
    have growth : sorted us ++ top :: zs = sorted (y :: ys) ++ zs := by
      rw [List.append_cons,sorted_concat most,sorted_congr perm]
    rw [put_put _ _ (by simp),growth] at rest
    rw [forUp_round _ (by simp at count; omega),stop,pass,← rest]
    rfl

theorem bubbleSort_holds {arr : Memory Int32} {xs : List Int32} (holds : Holds arr 0 xs) (place_holder : Int) :
    bubbleSort arr place_holder xs.length = some (put arr 0 (sorted xs)) := by
  have all : Holds arr 0 (xs ++ []) := by simpa using holds
  have rounds := rounds_hold all (show (xs.length : Int) = _ by simp)
  rw [List.append_nil] at rounds
  exact rounds

end Ndp.SortAlgo
