import Mathlib.Data.List.Basic
import Mathlib.Data.List.Range

/-! A flat memory of cells, and sequences seen through it. Writing is told cell by cell, so
that a write reaching past the end of a sequence needs no case of its own. -/
namespace ByteMemory

variable {α : Type}

/-- What cell `i` holds after `values` have been put at `start`. -/
def overlay (start : Nat) (values : List α) (i : Nat) (old : α) : α :=
  if start ≤ i then values[i - start]?.getD old else old

/-- Two ranges without a common cell; an empty range has none. -/
def Apart (a n b m : Nat) : Prop := n = 0 ∨ m = 0 ∨ a + n ≤ b ∨ b + m ≤ a

instance (a n b m : Nat) : Decidable (Apart a n b m) := inferInstanceAs (Decidable (_ ∨ _))

theorem Apart.symm {a n b m : Nat} (apart : Apart a n b m) : Apart b m a n := by
  unfold Apart at *
  omega

theorem Apart.shrink {a n b m a' n' : Nat} (apart : Apart a n b m) (low : a ≤ a')
    (high : a' + n' ≤ a + n) : Apart a' n' b m := by
  unfold Apart at *
  omega

theorem overlay_inside {start i : Nat} {values : List α} {old : α} (low : start ≤ i)
    (high : i < start + values.length) : overlay start values i old = values[i - start] := by
  simp [overlay,low,List.getElem?_eq_getElem (show i - start < values.length by omega)]

theorem overlay_outside {start i : Nat} {values : List α} {old : α}
    (outside : i < start ∨ start + values.length ≤ i) : overlay start values i old = old := by
  unfold overlay
  split
  · rw [List.getElem?_eq_none (by omega)]
    rfl
  · rfl

@[simp] theorem overlay_shift (base start i : Nat) (values : List α) (old : α) :
    overlay (base + start) values (base + i) old = overlay start values i old := by
  simp [overlay,Nat.add_sub_add_left]

theorem overlay_comm {a b : Nat} {xs ys : List α} (apart : Apart a xs.length b ys.length) (i : Nat) (old : α) :
    overlay a xs i (overlay b ys i old) = overlay b ys i (overlay a xs i old) := by
  by_cases inside : a ≤ i ∧ i < a + xs.length
  · have outside : i < b ∨ b + ys.length ≤ i := by unfold Apart at apart; omega
    rw [overlay_outside outside,overlay_outside outside]
  · have outside : i < a ∨ a + xs.length ≤ i := by omega
    rw [overlay_outside outside,overlay_outside outside]

theorem overlay_again {xs ys : List α} (same : xs.length = ys.length) (start i : Nat) (old : α) :
    overlay start ys i (overlay start xs i old) = overlay start ys i old := by
  by_cases inside : start ≤ i ∧ i < start + ys.length
  · rw [overlay_inside inside.1 inside.2,overlay_inside inside.1 inside.2]
  · have outside : i < start ∨ start + xs.length ≤ i := by omega
    rw [overlay_outside outside]

/-- Put values into a sequence from an offset on. What does not fit is dropped. -/
def splice (page : List α) (offset : Nat) (values : List α) : List α := page.mapIdx (overlay offset values)

def slice (page : List α) (offset len : Nat) : List α := (page.drop offset).take len

@[simp] theorem splice_length (page : List α) (offset : Nat) (values : List α) :
    (splice page offset values).length = page.length := by simp [splice]

theorem getElem?_splice (page : List α) (offset : Nat) (values : List α) (i : Nat) :
    (splice page offset values)[i]? = page[i]?.map (overlay offset values i) := by simp [splice]

theorem splice_again (page : List α) {xs ys : List α} (same : xs.length = ys.length) (offset : Nat) :
    splice (splice page offset xs) offset ys = splice page offset ys := by
  apply List.ext_getElem?
  intro i
  simp only [getElem?_splice,Option.map_map,Function.comp_def,overlay_again same]

theorem slice_length {page : List α} {offset len : Nat} (inside : offset + len ≤ page.length) :
    (slice page offset len).length = len := by
  simp only [slice,List.length_take,List.length_drop]
  omega

theorem getElem?_slice {page : List α} {offset len i : Nat} (inside : i < len) :
    (slice page offset len)[i]? = page[offset + i]? := by
  simp [slice,inside]

theorem getElem?_slice_beyond (page : List α) (offset : Nat) {len i : Nat} (beyond : ¬i < len) :
    (slice page offset len)[i]? = none := by
  apply List.getElem?_eq_none
  simp only [slice,List.length_take]
  omega

theorem splice_comm (page : List α) {a b : Nat} {xs ys : List α} (apart : Apart a xs.length b ys.length) :
    splice (splice page a xs) b ys = splice (splice page b ys) a xs := by
  apply List.ext_getElem?
  intro i
  simp only [getElem?_splice,Option.map_map]
  congr 1
  funext old
  exact (overlay_comm apart i old).symm

theorem slice_splice_apart (page : List α) {a offset len : Nat} {xs : List α}
    (apart : Apart a xs.length offset len) : slice (splice page a xs) offset len = slice page offset len := by
  apply List.ext_getElem?
  intro i
  by_cases inside : i < len
  · rw [getElem?_slice inside,getElem?_slice inside,getElem?_splice]
    have outside : offset + i < a ∨ a + xs.length ≤ offset + i := by unfold Apart at apart; omega
    have same : overlay a xs (offset + i) = id := funext fun old => overlay_outside outside
    simp [same]
  · rw [getElem?_slice_beyond _ _ inside,getElem?_slice_beyond _ _ inside]

theorem slice_splice_same {page xs : List α} {offset : Nat} (fits : offset + xs.length ≤ page.length) :
    slice (splice page offset xs) offset xs.length = xs := by
  apply List.ext_getElem?
  intro i
  by_cases inside : i < xs.length
  · rw [getElem?_slice inside,getElem?_splice,List.getElem?_eq_getElem (by omega),
      List.getElem?_eq_getElem inside,Option.map_some,overlay_inside (by omega) (by omega)]
    simp
  · rw [getElem?_slice_beyond _ _ inside,List.getElem?_eq_none (by omega)]

theorem take_splice {page xs : List α} {offset : Nat} (fits : offset + xs.length ≤ page.length) :
    (splice page offset xs).take (offset + xs.length) = page.take offset ++ xs := by
  have front : slice (splice page offset xs) 0 offset = slice page 0 offset :=
    slice_splice_apart page (by unfold Apart; omega)
  have back := slice_splice_same fits
  simp only [slice,List.drop_zero] at front back
  rw [List.take_add,front,back]

theorem splice_clip (page values : List α) (offset : Nat) :
    splice page (min offset page.length)
      (values.take (min values.length (page.length - min offset page.length))) = splice page offset values := by
  apply List.ext_getElem?
  intro i
  rw [getElem?_splice,getElem?_splice]
  by_cases inside : i < page.length
  · rw [List.getElem?_eq_getElem inside,Option.map_some,Option.map_some]
    congr 1
    by_cases covered : offset ≤ i ∧ i < offset + values.length
    · have start : min offset page.length = offset := by omega
      rw [overlay_inside covered.1 covered.2,start,overlay_inside covered.1 (by rw [List.length_take]; omega),
        List.getElem_take]
    · rw [overlay_outside (by rw [List.length_take]; omega),overlay_outside (by omega)]
  · rw [List.getElem?_eq_none (by omega)]
    rfl

abbrev Memory (α : Type) := Nat → α

def load (mem : Memory α) (addr len : Nat) : List α := (List.range len).map fun i => mem (addr + i)

def store (mem : Memory α) (addr : Nat) (values : List α) : Memory α := fun a => overlay addr values a (mem a)

@[simp] theorem load_length (mem : Memory α) (addr len : Nat) : (load mem addr len).length = len := by
  simp [load]

theorem getElem?_load (mem : Memory α) {addr len i : Nat} (inside : i < len) :
    (load mem addr len)[i]? = some (mem (addr + i)) := by simp [load,inside]

theorem getElem?_load_beyond (mem : Memory α) (addr : Nat) {len i : Nat} (beyond : ¬i < len) :
    (load mem addr len)[i]? = none := List.getElem?_eq_none (by simpa using beyond)

theorem load_store (mem : Memory α) (addr len offset : Nat) (values : List α) :
    load (store mem (addr + offset) values) addr len = splice (load mem addr len) offset values := by
  apply List.ext_getElem?
  intro i
  by_cases inside : i < len
  · simp only [getElem?_splice,getElem?_load _ inside,store,overlay_shift,Option.map_some]
  · rw [getElem?_splice,getElem?_load_beyond _ _ inside,getElem?_load_beyond _ _ inside,Option.map_none]

theorem load_store_apart (mem : Memory α) {addr b len : Nat} {values : List α}
    (apart : Apart addr values.length b len) : load (store mem addr values) b len = load mem b len := by
  apply List.ext_getElem?
  intro i
  by_cases inside : i < len
  · rw [getElem?_load _ inside,getElem?_load _ inside,store,overlay_outside]
    unfold Apart at apart
    omega
  · rw [getElem?_load_beyond _ _ inside,getElem?_load_beyond _ _ inside]

theorem load_store_same (mem : Memory α) (addr : Nat) (values : List α) :
    load (store mem addr values) addr values.length = values := by
  apply List.ext_getElem?
  intro i
  by_cases inside : i < values.length
  · rw [getElem?_load _ inside,List.getElem?_eq_getElem inside,store,overlay_inside (by omega) (by omega)]
    simp
  · rw [getElem?_load_beyond _ _ inside,List.getElem?_eq_none (by omega)]

theorem slice_load (mem : Memory α) {addr len offset n : Nat} (inside : offset + n ≤ len) :
    slice (load mem addr len) offset n = load mem (addr + offset) n := by
  apply List.ext_getElem?
  intro i
  by_cases small : i < n
  · rw [getElem?_slice small,getElem?_load _ small,getElem?_load _ (by omega),Nat.add_assoc]
  · rw [getElem?_slice_beyond _ _ small,getElem?_load_beyond _ _ small]

end ByteMemory
