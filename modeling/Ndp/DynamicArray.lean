import Mathlib.Data.List.Induction
import Mathlib.Tactic.IntervalCases
import Ndp.CStd
import Ndp.Cells

/-! The growable array. It is doubled by the call that finds it full, not by the one that fills it, and
reading asks the question of adding: whether there is room for one more. -/
namespace Ndp.DynamicArray

open C Cells

inductive Undefined where
  | overflow
  | outside
  deriving DecidableEq, Repr

/-- A number computed for an `int`. What one that does not fit becomes is left open. -/
def int (x : Int) : Except Undefined Int32 :=
  if -2147483648 ≤ x ∧ x ≤ 2147483647 then .ok (Int32.ofInt x) else .error .overflow

structure ArrayData where
  pointer : Memory Int32
  counter : Int32
  size : Int32

def initArray : ArrayData := ⟨block 1000 fun _ => 0, 0, 1000⟩

/-- The cells there were before are kept; what the others hold is left to `fresh`. -/
def realloc (fresh : Int → Int32) (pointer : Memory Int32) (bytes : UInt64) : Memory Int32 :=
  block (bytes.toNat / 4 : Nat) fun a => (pointer a).getD (fresh a)

section Calls

variable (fresh : Int32 → Int → Int32)

def resizeArray (array : ArrayData) : Except Undefined ArrayData := do
  let newSize ← int (widen array.size * 4 * 2).toNat
  let size ← int (array.size.toInt * 2)
  return { array with pointer := realloc (fresh newSize) array.pointer (widen newSize), size := size }

def addElement (array : ArrayData) (number : Int32) : Except Undefined ArrayData := do
  let array ← if array.counter ≥ array.size then resizeArray fresh array else pure array
  match write array.pointer array.counter.toInt number with
  | none => .error .outside
  | some pointer =>
    let counter ← int (array.counter.toInt + 1)
    return { array with pointer := pointer, counter := counter }

def getElement (array : ArrayData) (index : Int32) : Except Undefined Int32 :=
  if array.counter ≥ array.size then .ok (-1)
  else
    match array.pointer index.toInt with
    | none => .error .outside
    | some data => .ok data

/-- One call after the other. -/
def addAll (array : ArrayData) (numbers : List Int32) : Except Undefined ArrayData :=
  numbers.foldlM (addElement fresh) array

/-- The loop of `main`: the elements printed. -/
def printed (array : ArrayData) (i : Nat) : List Int32 → Except Undefined (List Int32)
  | [] => .ok []
  | number :: numbers => do
    let array ← addElement fresh array number
    let element ← getElement array (Int32.ofNat i)
    let rest ← printed array (i + 1) numbers
    return element :: rest

def main (rand : Nat → Nat) : Except Undefined (List Int32) :=
  printed fresh initArray 0 ((List.range 5000).map fun i => Int32.ofNat (rand i % 50000))

end Calls

theorem int_fits {x : Int} (low : -2147483648 ≤ x) (high : x ≤ intMax) : ∃ y, int x = .ok y ∧ y.toInt = x := by
  have upper : x ≤ 2147483647 := high
  refine ⟨Int32.ofInt x,if_pos ⟨low,upper⟩,?_⟩
  exact Int32.toInt_ofInt_of_le low (by omega)

theorem int_overflow {x : Int} (high : intMax < x) : int x = .error .overflow := by
  have upper : 2147483647 < x := high
  exact if_neg (by omega)

/-- The array has so many cells and starts with these numbers. -/
structure Stores (array : ArrayData) (numbers : List Int32) (n : Nat) : Prop where
  size : array.size.toInt = n
  counter : array.counter.toInt = numbers.length
  room : numbers.length ≤ n
  cells : ∃ f, array.pointer = block n f
  holds : Holds array.pointer 0 numbers

section Steps

variable {array : ArrayData} {numbers : List Int32} {n : Nat}

theorem initArray_stores : Stores initArray [] 1000 := ⟨rfl,rfl,Nat.zero_le _,⟨_,rfl⟩,trivial⟩

theorem Stores.full_iff (stores : Stores array numbers n) : array.counter ≥ array.size ↔ numbers.length = n := by
  have room := stores.room
  rw [ge_iff_le,Int32.le_iff_toInt_le,stores.size,stores.counter]
  omega

theorem Stores.asked (stores : Stores array numbers n) : (widen array.size * 4 * 2).toNat = 8 * n := by
  have bound := array.size.toInt_lt
  have size := widen_toNat array.size
  rw [stores.size] at bound size
  rw [if_pos (by omega)] at size
  rw [UInt64.toNat_mul,UInt64.toNat_mul]
  simp only [UInt64.reduceToNat]
  omega

theorem Stores.cell (stores : Stores array numbers n) {i : Nat} (inside : i < numbers.length) :
    array.pointer i = some numbers[i] := by
  have held := stores.holds.get inside
  rwa [Int.zero_add] at held

variable (fresh : Int32 → Int → Int32)

theorem Stores.kept (stores : Stores array numbers n) (fresh : Int → Int32) {bytes : UInt64}
    (room : numbers.length ≤ bytes.toNat / 4) : Holds (realloc fresh array.pointer bytes) 0 numbers := by
  apply holds_of_get
  intro i inside
  rw [Int.zero_add,realloc,block_inside (by omega),stores.cell inside,Option.getD_some]

theorem Stores.resize (stores : Stores array numbers n) (fits : 8 * n ≤ intMax) :
    ∃ array', resizeArray fresh array = .ok array' ∧ Stores array' numbers (2 * n) := by
  obtain ⟨newSize,bytes,asked⟩ := int_fits (x := (widen array.size * 4 * 2).toNat) (by omega) (by rw [stores.asked]; omega)
  obtain ⟨size,doubled,twice⟩ := int_fits (x := array.size.toInt * 2) (by rw [stores.size]; omega) (by rw [stores.size]; omega)
  rw [stores.asked] at asked
  rw [stores.size] at twice
  have room := stores.room
  have cells : (widen newSize).toNat / 4 = 2 * n := by
    have given := widen_toNat newSize
    rw [asked,if_pos (by omega)] at given
    omega
  refine ⟨_,by simp only [resizeArray,bytes,doubled]; rfl,?_⟩
  exact ⟨by rw [twice]; omega,stores.counter,by omega,⟨_,by rw [realloc,cells]⟩,stores.kept _ (by rw [cells]; omega)⟩

theorem Stores.resize_overflow (stores : Stores array numbers n) (large : intMax < 8 * n) :
    resizeArray fresh array = .error .overflow := by
  have bytes : int (widen array.size * 4 * 2).toNat = .error .overflow := int_overflow (by rw [stores.asked]; omega)
  rw [resizeArray,bytes]
  rfl

theorem Stores.store (stores : Stores array numbers n) (room : numbers.length < n) (bound : n ≤ intMax) (number : Int32) :
    ∃ pointer counter, write array.pointer array.counter.toInt number = some pointer ∧
      int (array.counter.toInt + 1) = .ok counter ∧
      Stores { array with pointer := pointer, counter := counter } (numbers ++ [number]) n := by
  obtain ⟨f,cells⟩ := stores.cells
  have inside : (0 : Int) ≤ numbers.length ∧ (numbers.length : Int) < n := by omega
  obtain ⟨counter,counted,next⟩ := int_fits (x := array.counter.toInt + 1) (by rw [stores.counter]; omega)
    (by rw [stores.counter]; omega)
  rw [stores.counter] at next
  have written : write array.pointer array.counter.toInt number =
      some (Function.update array.pointer numbers.length (some number)) := by
    rw [stores.counter,cells,write_block inside,update_block inside]
  refine ⟨_,counter,written,counted,stores.size,?_,?_,?_,?_⟩
  · rw [next,List.length_append,List.length_singleton,Int.natCast_succ]
  · rw [List.length_append,List.length_singleton]
    exact room
  · exact ⟨_,by rw [cells,update_block inside]⟩
  · refine holds_append.mpr ⟨stores.holds.update_behind (by omega) _,?_,trivial⟩
    rw [Int.zero_add]
    exact Function.update_self _ _ _

theorem Stores.add (stores : Stores array numbers n) (room : numbers.length < n) (bound : n ≤ intMax) (number : Int32) :
    ∃ array', addElement fresh array number = .ok array' ∧ Stores array' (numbers ++ [number]) n := by
  obtain ⟨pointer,counter,written,counted,stored⟩ := stores.store room bound number
  have spare : ¬array.counter ≥ array.size := by
    rw [stores.full_iff]
    omega
  refine ⟨_,?_,stored⟩
  rw [addElement,if_neg spare]
  simp only [pure_bind,written,counted]
  rfl

theorem Stores.add_full (stores : Stores array numbers n) (full : numbers.length = n) (positive : 0 < n)
    (fits : 8 * n ≤ intMax) (number : Int32) :
    ∃ array', addElement fresh array number = .ok array' ∧ Stores array' (numbers ++ [number]) (2 * n) := by
  obtain ⟨grown,resized,stores'⟩ := stores.resize fresh fits
  obtain ⟨pointer,counter,written,counted,stored⟩ := stores'.store (by omega) (by omega) number
  refine ⟨_,?_,stored⟩
  rw [addElement,if_pos (stores.full_iff.mpr full),resized]
  simp only [bind,Except.bind,written,counted]
  rfl

theorem Stores.add_overflow (stores : Stores array numbers n) (full : numbers.length = n) (large : intMax < 8 * n)
    (number : Int32) : addElement fresh array number = .error .overflow := by
  rw [addElement,if_pos (stores.full_iff.mpr full),stores.resize_overflow fresh large]
  rfl

theorem Stores.get_full (stores : Stores array numbers n) (full : numbers.length = n) (index : Int32) :
    getElement array index = .ok (-1) := if_pos (stores.full_iff.mpr full)

theorem Stores.get (stores : Stores array numbers n) (room : numbers.length < n) (bound : n ≤ intMax) {i : Nat}
    (inside : i < numbers.length) : getElement array (Int32.ofNat i) = .ok numbers[i] := by
  have spare : ¬array.counter ≥ array.size := by
    rw [stores.full_iff]
    omega
  have index : (Int32.ofNat i).toInt = i := Int32.toInt_ofNat_of_lt (by unfold intMax at bound; omega)
  rw [getElement,if_neg spare,index,stores.cell inside]

end Steps

/-- The numbers fill an array of some size that comes up. -/
def Full (n : Nat) : Prop := ∃ k, n = 1000 * 2 ^ k

/-- The array after calls with these numbers: no larger than the last of them needed. -/
structure Reached (array : ArrayData) (numbers : List Int32) (k : Nat) : Prop where
  stores : Stores array numbers (1000 * 2 ^ k)
  lazy : ∀ j < k, 1000 * 2 ^ j < numbers.length

section Runs

variable {array : ArrayData} {numbers : List Int32} {k : Nat}

theorem Reached.full_iff (reached : Reached array numbers k) : numbers.length = 1000 * 2 ^ k ↔ Full numbers.length := by
  refine ⟨fun full => ⟨k,full⟩,?_⟩
  rintro ⟨j,full⟩
  have room := reached.stores.room
  rcases Nat.lt_trichotomy j k with less | rfl | more
  · have := reached.lazy j less
    omega
  · exact full
  · have larger : 2 ^ k < 2 ^ j := Nat.pow_lt_pow_right (by decide) more
    omega

theorem Reached.doublings (reached : Reached array numbers k) (small : numbers.length ≤ 1000 * 2 ^ 19) : k ≤ 19 := by
  by_contra many
  have := reached.lazy 19 (by omega)
  omega

theorem Reached.bound (reached : Reached array numbers k) (small : numbers.length ≤ 1000 * 2 ^ 19) :
    1000 * 2 ^ k ≤ intMax := by
  have few : 2 ^ k ≤ 2 ^ 19 := Nat.pow_le_pow_right (by decide) (reached.doublings small)
  unfold intMax
  omega

variable (fresh : Int32 → Int → Int32)

theorem Reached.add (reached : Reached array numbers k) (small : numbers.length < 1000 * 2 ^ 19) (number : Int32) :
    ∃ array' k', addElement fresh array number = .ok array' ∧ Reached array' (numbers ++ [number]) k' := by
  have length : (numbers ++ [number]).length = numbers.length + 1 := List.length_append
  rcases Nat.lt_or_eq_of_le reached.stores.room with room | full
  · obtain ⟨array',added,stores⟩ := reached.stores.add fresh room (reached.bound (Nat.le_of_lt small)) number
    refine ⟨array',k,added,stores,?_⟩
    intro j less
    have := reached.lazy j less
    omega
  · have few : k < 19 := by
      rw [full] at small
      exact (Nat.pow_lt_pow_iff_right (by decide)).mp (Nat.lt_of_mul_lt_mul_left small)
    have half : 2 ^ k ≤ 2 ^ 18 := Nat.pow_le_pow_right (by decide) (Nat.le_of_lt_succ few)
    have positive := Nat.two_pow_pos k
    obtain ⟨array',added,stores⟩ := reached.stores.add_full fresh full (by omega) (by unfold intMax; omega) number
    have double : 2 * (1000 * 2 ^ k) = 1000 * 2 ^ (k + 1) := by
      rw [Nat.pow_succ]
      omega
    rw [double] at stores
    refine ⟨array',k + 1,added,stores,?_⟩
    intro j less
    have least : 2 ^ j ≤ 2 ^ k := Nat.pow_le_pow_right (by decide) (Nat.le_of_lt_succ less)
    omega

theorem addAll_append (array : ArrayData) (numbers more : List Int32) :
    addAll fresh array (numbers ++ more) = addAll fresh array numbers >>= fun array => addAll fresh array more :=
  List.foldlM_append

theorem addAll_reached (numbers : List Int32) (small : numbers.length ≤ 1000 * 2 ^ 19) :
    ∃ array k, addAll fresh initArray numbers = .ok array ∧ Reached array numbers k := by
  induction numbers using List.reverseRecOn with
  | nil => exact ⟨initArray,0,rfl,initArray_stores,fun j less => absurd less (Nat.not_lt_zero j)⟩
  | append_singleton numbers number ih =>
    rw [List.length_append,List.length_singleton] at small
    obtain ⟨array,k,added,reached⟩ := ih (by omega)
    obtain ⟨array',k',once,reached'⟩ := reached.add fresh (by omega) number
    refine ⟨array',k',?_,reached'⟩
    rw [addAll_append,added]
    exact (bind_pure (addElement fresh array number)).trans once

/-- One more call and the number of bytes asked for is none that an `int` holds. -/
theorem addAll_overflow (numbers : List Int32) (large : 1000 * 2 ^ 19 < numbers.length) :
    addAll fresh initArray numbers = .error .overflow := by
  obtain ⟨front,number,back,rfl,length⟩ : ∃ front number back, numbers = front ++ number :: back ∧
      front.length = 1000 * 2 ^ 19 := by
    refine ⟨numbers.take (1000 * 2 ^ 19),numbers[1000 * 2 ^ 19],numbers.drop (1000 * 2 ^ 19 + 1),?_,?_⟩
    · rw [← List.drop_eq_getElem_cons large,List.take_append_drop]
    · exact List.length_take_of_le (Nat.le_of_lt large)
  obtain ⟨array,k,added,reached⟩ := addAll_reached fresh front (Nat.le_of_eq length)
  have full : front.length = 1000 * 2 ^ k := reached.full_iff.mpr ⟨19,length⟩
  have overflow := reached.stores.add_overflow fresh full (by rw [← full,length]; decide) number
  rw [addAll_append,added]
  show addElement fresh array number >>= _ = _
  rw [overflow]
  rfl

theorem addAll_overflow_iff (numbers : List Int32) :
    addAll fresh initArray numbers = .error .overflow ↔ 1000 * 2 ^ 19 < numbers.length := by
  refine ⟨fun overflow => ?_,addAll_overflow fresh numbers⟩
  by_contra small
  obtain ⟨array,k,added,-⟩ := addAll_reached fresh numbers (Nat.le_of_not_lt small)
  rw [added] at overflow
  cases overflow

/-- Every element is read back as it was passed. -/
def ReadsBack (array : ArrayData) (numbers : List Int32) : Prop :=
  ∀ i (inside : i < numbers.length), getElement array (Int32.ofNat i) = .ok numbers[i]

theorem Reached.readsBack_iff (reached : Reached array numbers k) (small : numbers.length ≤ 1000 * 2 ^ 19) :
    ReadsBack array numbers ↔ (Full numbers.length → ∀ number ∈ numbers, number = -1) := by
  rw [← reached.full_iff]
  constructor
  · intro back full number member
    obtain ⟨i,inside,rfl⟩ := List.getElem_of_mem member
    have answer := back i inside
    rw [reached.stores.get_full full] at answer
    exact (Except.ok.inj answer).symm
  · intro filled i inside
    rcases Nat.lt_or_eq_of_le reached.stores.room with room | full
    · exact reached.stores.get room (reached.bound small) inside
    · rw [reached.stores.get_full full,filled full _ (List.getElem_mem inside)]

/-- The counter, the room and the stores are right after any calls. The elements are read back after every
one unless a call that fills the array leaves something else than `-1` in it. -/
theorem array_sequence_iff (numbers : List Int32) (fits : addAll fresh initArray numbers ≠ .error .overflow) :
    (∀ calls, calls <+: numbers → ∃ array, addAll fresh initArray calls = .ok array ∧
      array.counter.toInt = calls.length ∧ array.counter ≤ array.size) ∧
    ((∀ calls array, calls <+: numbers → addAll fresh initArray calls = .ok array → ReadsBack array calls) ↔
      ∀ k, 1000 * 2 ^ k ≤ numbers.length → ∀ number ∈ numbers.take (1000 * 2 ^ k), number = -1) := by
  have small : numbers.length ≤ 1000 * 2 ^ 19 := Nat.le_of_not_lt (mt (addAll_overflow fresh numbers) fits)
  have run : ∀ calls, calls <+: numbers → ∃ array k, addAll fresh initArray calls = .ok array ∧ Reached array calls k :=
    fun calls before => addAll_reached fresh calls (Nat.le_trans before.length_le small)
  constructor
  · intro calls before
    obtain ⟨array,k,added,reached⟩ := run calls before
    have room := reached.stores.room
    refine ⟨array,added,reached.stores.counter,?_⟩
    rw [Int32.le_iff_toInt_le,reached.stores.size,reached.stores.counter]
    omega
  · constructor
    · intro back k within
      have before := List.take_prefix (1000 * 2 ^ k) numbers
      have length : (numbers.take (1000 * 2 ^ k)).length = 1000 * 2 ^ k := List.length_take_of_le within
      obtain ⟨array,_,added,reached⟩ := run _ before
      exact (reached.readsBack_iff (Nat.le_trans before.length_le small)).mp (back _ array before added) ⟨k,length⟩
    · intro filled calls array before added
      obtain ⟨_,_,added',reached⟩ := run calls before
      obtain rfl := Except.ok.inj (added.symm.trans added')
      refine (reached.readsBack_iff (Nat.le_trans before.length_le small)).mpr ?_
      rintro ⟨k,length⟩
      have same : numbers.take (1000 * 2 ^ k) = calls := by rw [← length,← List.prefix_iff_eq_take.mp before]
      exact same ▸ filled k (length ▸ before.length_le)

end Runs

theorem array_sequence_two :
    addAll (fun _ _ => 0) initArray [5, -1] ≠ .error .overflow ∧
    ∀ calls array, calls <+: [5, -1] → addAll (fun _ _ => 0) initArray calls = .ok array → ReadsBack array calls := by
  have fits : addAll (fun _ _ => 0) initArray [5, -1] ≠ .error .overflow :=
    mt (addAll_overflow_iff _ _).mp (by decide)
  refine ⟨fits,(array_sequence_iff _ _ fits).2.mpr ?_⟩
  intro k within
  have positive := Nat.two_pow_pos k
  simp only [List.length_cons,List.length_nil] at within
  omega

/-- A thousand calls fill the array, and every element reads as `-1`. -/
theorem array_sequence_thousand :
    ∃ array, addAll (fun _ _ => 0) initArray (List.replicate 1000 7) = .ok array ∧
      ∀ index, getElement array index = .ok (-1) := by
  have length : (List.replicate 1000 (7 : Int32)).length = 1000 := List.length_replicate
  obtain ⟨array,k,added,reached⟩ := addAll_reached (fun _ _ => 0) (List.replicate 1000 7) (by rw [length]; decide)
  exact ⟨array,added,reached.stores.get_full (reached.full_iff.mpr ⟨0,length⟩)⟩

section Program

variable (fresh : Int32 → Int → Int32)

theorem printed_lines {array : ArrayData} {numbers : List Int32} {k : Nat} (reached : Reached array numbers k)
    (more : List Int32) (small : numbers.length + more.length ≤ 1000 * 2 ^ 19) :
    ∃ lines, printed fresh array numbers.length more = .ok lines ∧ lines.length = more.length ∧
      ∀ j (h : j < lines.length) (h' : j < more.length),
        (Full (numbers.length + j + 1) → lines[j] = -1) ∧ (¬Full (numbers.length + j + 1) → lines[j] = more[j]) := by
  induction more generalizing array numbers k with
  | nil => exact ⟨[],rfl,rfl,fun j h => absurd h (Nat.not_lt_zero j)⟩
  | cons number more ih =>
    rw [List.length_cons] at small
    obtain ⟨array',k',added,reached'⟩ := reached.add fresh (by omega) number
    have length : (numbers ++ [number]).length = numbers.length + 1 := List.length_append
    obtain ⟨rest,later,count,lines⟩ := ih reached' (by omega)
    rw [length] at later lines
    obtain ⟨element,read,filled,kept⟩ : ∃ element, getElement array' (Int32.ofNat numbers.length) = .ok element ∧
        (Full (numbers.length + 1) → element = -1) ∧ (¬Full (numbers.length + 1) → element = number) := by
      rcases Nat.lt_or_eq_of_le reached'.stores.room with room | full
      · refine ⟨_,reached'.stores.get room (reached'.bound (by omega)) (by omega),?_,fun _ => by simp⟩
        intro full
        rw [← length,← reached'.full_iff] at full
        omega
      · refine ⟨-1,reached'.stores.get_full full _,fun _ => rfl,?_⟩
        intro spare
        rw [reached'.full_iff,length] at full
        exact absurd full spare
    refine ⟨element :: rest,?_,by rw [List.length_cons,List.length_cons,count],?_⟩
    · simp only [printed,added,read,later,bind,Except.bind]
      rfl
    · intro j h h'
      cases j with
      | zero => exact ⟨filled,kept⟩
      | succ j =>
        have shifted : numbers.length + (j + 1) + 1 = numbers.length + 1 + j + 1 := by omega
        rw [shifted]
        exact lines j (Nat.lt_of_succ_lt_succ h) (Nat.lt_of_succ_lt_succ h')

/-- Three of the five thousand numbers are printed as `-1`, the others as they were drawn. -/
theorem main_lines (rand : Nat → Nat) :
    ∃ lines, main fresh rand = .ok lines ∧ lines.length = 5000 ∧ ∀ j (h : j < lines.length),
      lines[j] = if j = 999 ∨ j = 1999 ∨ j = 3999 then -1 else Int32.ofNat (rand j % 50000) := by
  have start : Reached initArray [] 0 := ⟨initArray_stores,fun j less => absurd less (Nat.not_lt_zero j)⟩
  have drawn : ((List.range 5000).map fun i => Int32.ofNat (rand i % 50000)).length = 5000 := by
    rw [List.length_map,List.length_range]
  obtain ⟨lines,prints,count,each⟩ := printed_lines fresh start ((List.range 5000).map fun i => Int32.ofNat (rand i % 50000))
    (by rw [drawn]; decide)
  rw [drawn] at count
  refine ⟨lines,prints,count,?_⟩
  intro j h
  obtain ⟨filled,kept⟩ := each j h (by omega)
  have sizes : Full (0 + j + 1) ↔ j = 999 ∨ j = 1999 ∨ j = 3999 := by
    constructor
    · rintro ⟨k,full⟩
      have few : k < 3 := by
        by_contra many
        have large : 2 ^ 3 ≤ 2 ^ k := Nat.pow_le_pow_right (by decide) (Nat.le_of_not_lt many)
        omega
      interval_cases k <;> omega
    · rintro (rfl | rfl | rfl)
      · exact ⟨0,rfl⟩
      · exact ⟨1,rfl⟩
      · exact ⟨2,rfl⟩
  split
  · rename_i full
    exact filled (sizes.mpr full)
  · rename_i spare
    rw [kept (mt sizes.mp spare)]
    simp

end Program

end Ndp.DynamicArray
