import Mathlib.Data.List.Sort
import Mathlib.Logic.Function.Iterate
import Mathlib.Order.MinMax

/-! Lists in order, told by how many of their elements lie below each threshold. To replace one element
and put the list in order again moves each of these numbers by one at most. Done over and over at one
index it comes to an end, which the numbers show threshold by threshold. -/
namespace Thresholds

variable {α : Type} [LinearOrder α]

def below (x : α) (xs : List α) : Nat := xs.countP (· < x)

theorem getElem_lt_iff {xs : List α} (ordered : xs.Pairwise (· ≤ ·)) (x : α) {j : Nat} (inside : j < xs.length) :
    xs[j] < x ↔ j < below x xs := by
  induction xs generalizing j with
  | nil => exact absurd inside (Nat.not_lt_zero j)
  | cons a xs ih =>
    obtain ⟨least,ordered⟩ := List.pairwise_cons.mp ordered
    by_cases first : a < x
    · have more : below x (a :: xs) = below x xs + 1 := by simp [below,first]
      cases j with
      | zero => simpa [more] using first
      | succ j =>
        rw [List.getElem_cons_succ,ih ordered (Nat.lt_of_succ_lt_succ inside),more]
        omega
    · have above : ∀ b ∈ a :: xs, ¬b < x := by
        intro b member
        rcases List.mem_cons.mp member with rfl | later
        · exact first
        · exact not_lt.mpr ((not_lt.mp first).trans (least b later))
      have zero : below x (a :: xs) = 0 := List.countP_eq_zero.mpr (by simpa using above)
      simp [zero,above _ (List.getElem_mem inside)]

/-- The list with an element replaced, in order again. -/
def replaced (i : Nat) (v : α) (xs : List α) : List α := (xs.set i v).insertionSort (· ≤ ·)

section Replaced

variable {xs : List α} {i : Nat} (v : α)

@[simp] theorem replaced_length : (replaced i v xs).length = xs.length := by simp [replaced]

theorem replaced_ordered : (replaced i v xs).Pairwise (· ≤ ·) := List.pairwise_insertionSort _ _

theorem below_replaced (ordered : xs.Pairwise (· ≤ ·)) (inside : i < xs.length) (x : α) :
    below x (replaced i v xs) =
      if v < x then (if i < below x xs then below x xs else below x xs + 1)
      else (if i < below x xs then below x xs - 1 else below x xs) := by
  have count : below x (replaced i v xs) = below x (xs.set i v) := (List.perm_insertionSort _ _).countP_eq _
  have old := getElem_lt_iff ordered x inside
  have exchanged : below x (xs.set i v) = below x xs - (if i < below x xs then 1 else 0) + if v < x then 1 else 0 := by
    rw [below,List.countP_set inside]
    simp only [decide_eq_true_eq,old]
    rfl
  rw [count,exchanged]
  split_ifs <;> omega

end Replaced

section Iterated

variable {xs : List α} {i : Nat} (v : α)

theorem iterate_length (n : Nat) : ((replaced i v)^[n] xs).length = xs.length := by
  induction n with
  | zero => rfl
  | succ n ih => rw [Function.iterate_succ_apply',replaced_length,ih]

theorem iterate_ordered (ordered : xs.Pairwise (· ≤ ·)) (n : Nat) : ((replaced i v)^[n] xs).Pairwise (· ≤ ·) := by
  cases n with
  | zero => exact ordered
  | succ n =>
    rw [Function.iterate_succ_apply']
    exact replaced_ordered v

theorem below_iterate (ordered : xs.Pairwise (· ≤ ·)) (inside : i < xs.length) (x : α) (n : Nat) :
    below x ((replaced i v)^[n] xs) =
      if v < x then (if i < below x xs then below x xs else min (i + 1) (below x xs + n))
      else (if i < below x xs then max i (below x xs - n) else below x xs) := by
  induction n with
  | zero => split_ifs <;> simp <;> omega
  | succ n ih =>
    rw [Function.iterate_succ_apply',below_replaced v (iterate_ordered v ordered n) (by rwa [iterate_length]),ih]
    split_ifs <;> omega

/-- Before the index nothing above the value is left, behind it nothing below. -/
def settled (i : Nat) (v : α) (xs : List α) : List α :=
  xs.mapIdx fun j x => if j < i then min x v else if j = i then v else max x v

theorem settled_lt_iff (ordered : xs.Pairwise (· ≤ ·)) (x : α) {j : Nat} (here : j < (settled i v xs).length) :
    (settled i v xs)[j] < x ↔ if v < x then j < max (i + 1) (below x xs) else j < min i (below x xs) := by
  have inside : j < xs.length := by simpa [settled] using here
  have old := getElem_lt_iff ordered x inside
  simp only [settled,List.getElem_mapIdx]
  split_ifs with before small same small small <;> grind

/-- As many rounds as there are elements are enough, and more change nothing. -/
theorem iterate_settled (ordered : xs.Pairwise (· ≤ ·)) (inside : i < xs.length) {n : Nat} (enough : xs.length ≤ n) :
    (replaced i v)^[n] xs = settled i v xs := by
  apply List.ext_getElem (by simp [iterate_length,settled])
  intro j here there
  have same : ∀ x, ((replaced i v)^[n] xs)[j] < x ↔ (settled i v xs)[j] < x := by
    intro x
    have most : below x xs ≤ xs.length := List.countP_le_length
    rw [getElem_lt_iff (iterate_ordered v ordered n) x here,settled_lt_iff v ordered x there,
      below_iterate v ordered inside x n]
    split_ifs <;> omega
  exact eq_of_forall_gt_iff same

end Iterated

end Thresholds
