import Mathlib.Logic.Function.Basic
import Mathlib.Tactic.Common

/-! Memory of which only some cells may be touched: an access to any other cell faults. What
a program does on the cells of one array is then also a statement about which it uses. -/
namespace Cells

variable {α σ : Type}

/-- The cells that may be touched, and what they hold. -/
abbrev Memory (α : Type) := Int → Option α

def write (c : Memory α) (a : Int) (x : α) : Option (Memory α) :=
  if (c a).isSome then some (Function.update c a (some x)) else none

/-- Read so many cells, in order. -/
def load (c : Memory α) (start : Int) : Nat → Option (List α)
  | 0 => some []
  | n + 1 => do
    let x ← c start
    let rest ← load c (start + 1) n
    return x :: rest

def Holds (c : Memory α) (start : Int) : List α → Prop
  | [] => True
  | x :: xs => c start = some x ∧ Holds c (start + 1) xs

/-- Make cells hold a sequence, whether they could be touched before or not. -/
def put (c : Memory α) (start : Int) : List α → Memory α
  | [] => c
  | x :: xs => put (Function.update c start (some x)) (start + 1) xs

/-- An array, and no other cell. -/
def ofList (xs : List α) : Memory α := put (fun _ => none) 0 xs

/-- So many cells from the first on, and no other. -/
def block (n : Int) (f : Int → α) : Memory α := fun a => if 0 ≤ a ∧ a < n then some (f a) else none

theorem holds_append {c : Memory α} {start : Int} {xs ys : List α} :
    Holds c start (xs ++ ys) ↔ Holds c start xs ∧ Holds c (start + xs.length) ys := by
  induction xs generalizing start with
  | nil => simp [Holds]
  | cons x xs ih =>
    have ends : start + 1 + (xs.length : Int) = start + ((x :: xs).length : Int) := by
      rw [List.length_cons]
      omega
    simp [Holds,ih,ends,and_assoc]

theorem Holds.get {c : Memory α} {start : Int} {xs : List α} (holds : Holds c start xs) {i : Nat} (h : i < xs.length) :
    c (start + i) = some xs[i] := by
  induction xs generalizing start i with
  | nil => simp at h
  | cons x xs ih =>
    cases i with
    | zero => simpa using holds.1
    | succ i =>
      have next := ih holds.2 (Nat.lt_of_succ_lt_succ h)
      rwa [Int.natCast_succ,Int.add_comm (i : Int) 1,← Int.add_assoc]

theorem holds_of_get {c : Memory α} {start : Int} {xs : List α}
    (get : ∀ i (h : i < xs.length), c (start + (i : Nat)) = some xs[i]) : Holds c start xs := by
  induction xs generalizing start with
  | nil => trivial
  | cons x xs ih =>
    refine ⟨by simpa using get 0 (Nat.succ_pos _),ih fun i h => ?_⟩
    have next := get (i + 1) (Nat.succ_lt_succ h)
    rwa [Int.natCast_succ,Int.add_comm (i : Int) 1,← Int.add_assoc] at next

theorem load_holds {c : Memory α} {start : Int} {xs : List α} (holds : Holds c start xs) :
    load c start xs.length = some xs := by
  induction xs generalizing start with
  | nil => rfl
  | cons x xs ih => simp [load,holds.1,ih holds.2]

theorem write_holds {c : Memory α} {start : Int} {y : α} {ys : List α} (holds : Holds c start (y :: ys)) (x : α) :
    write c start x = some (Function.update c start (some x)) := by
  simp [write,holds.1]

theorem Holds.update {c : Memory α} {start a : Int} {xs : List α} (holds : Holds c start xs) (before : a < start)
    (x : Option α) : Holds (Function.update c a x) start xs := by
  induction xs generalizing start with
  | nil => trivial
  | cons y ys ih =>
    refine ⟨?_,ih holds.2 (by omega)⟩
    rw [Function.update_of_ne (by omega)]
    exact holds.1

theorem Holds.update_behind {c : Memory α} {start a : Int} {xs : List α} (holds : Holds c start xs)
    (behind : start + xs.length ≤ a) (x : Option α) : Holds (Function.update c a x) start xs := by
  induction xs generalizing start with
  | nil => trivial
  | cons y ys ih =>
    rw [List.length_cons,Int.natCast_succ] at behind
    refine ⟨?_,ih holds.2 (by omega)⟩
    rw [Function.update_of_ne (by omega)]
    exact holds.1

theorem Holds.rest {c : Memory α} {start : Int} {y : α} {ys : List α} (holds : Holds c start (y :: ys)) (x : α) :
    Holds (Function.update c start (some x)) (start + 1) ys :=
  holds.2.update (Int.lt_succ start) (some x)

theorem put_apply (c : Memory α) (start a : Int) (xs : List α) :
    put c start xs a = if start ≤ a ∧ a < start + xs.length then xs[(a - start).toNat]? else c a := by
  induction xs generalizing c start with
  | nil =>
    have : ¬(start ≤ a ∧ a < start + (([] : List α).length : Int)) := by simp
    rw [if_neg this]
    rfl
  | cons x xs ih =>
    rw [put,ih]
    by_cases here : a = start
    · subst here
      rw [if_neg (by omega),if_pos (by rw [List.length_cons]; omega),Function.update_self]
      simp
    · rw [Function.update_of_ne here]
      by_cases inside : start + 1 ≤ a ∧ a < start + 1 + xs.length
      · have index : (a - start).toNat = (a - (start + 1)).toNat + 1 := by omega
        rw [if_pos inside,if_pos (by rw [List.length_cons]; omega),index,List.getElem?_cons_succ]
      · rw [if_neg inside,if_neg (by rw [List.length_cons]; omega)]

theorem put_append (c : Memory α) (start : Int) (xs ys : List α) :
    put c start (xs ++ ys) = put (put c start xs) (start + xs.length) ys := by
  induction xs generalizing c start with
  | nil => simp [put]
  | cons x xs ih =>
    have ends : start + 1 + (xs.length : Int) = start + ((x :: xs).length : Int) := by
      rw [List.length_cons]
      omega
    rw [List.cons_append,put,ih,ends]
    rfl

theorem put_put (c : Memory α) (start : Int) {xs ys : List α} (covered : xs.length ≤ ys.length) :
    put (put c start xs) start ys = put c start ys := by
  funext a
  rw [put_apply,put_apply,put_apply]
  split
  · rfl
  · rw [if_neg (by omega)]

theorem holds_put (c : Memory α) (start : Int) (xs : List α) : Holds (put c start xs) start xs := by
  induction xs generalizing c start with
  | nil => trivial
  | cons x xs ih =>
    refine ⟨?_,ih _ _⟩
    rw [put,put_apply,if_neg (by omega),Function.update_self]

theorem Holds.put {c : Memory α} {start behind : Int} {xs ys : List α} (holds : Holds c behind ys)
    (apart : start + xs.length ≤ behind) : Holds (put c start xs) behind ys := by
  induction xs generalizing c start with
  | nil => exact holds
  | cons x xs ih =>
    rw [List.length_cons,Int.natCast_succ] at apart
    exact ih (holds.update (by omega) _) (by omega)

theorem put_self {c : Memory α} {start : Int} {xs : List α} (holds : Holds c start xs) : put c start xs = c := by
  induction xs generalizing start with
  | nil => rfl
  | cons x xs ih =>
    rw [put,← holds.1,Function.update_eq_self]
    exact ih holds.2

theorem holds_ofList (xs : List α) : Holds (ofList xs) 0 xs := holds_put _ 0 xs

theorem ofList_apply (xs : List α) (a : Int) : ofList xs a = if 0 ≤ a then xs[a.toNat]? else none := by
  rw [ofList,put_apply]
  by_cases low : 0 ≤ a
  · rw [if_pos low]
    split
    · simp
    · rw [List.getElem?_eq_none (by omega)]
  · rw [if_neg low,if_neg (by omega)]

@[simp] theorem ofList_inj {xs ys : List α} : ofList xs = ofList ys ↔ xs = ys := by
  refine ⟨fun same => List.ext_getElem? fun i => ?_,fun same => same ▸ rfl⟩
  simpa [ofList_apply] using congrFun same i

theorem put_ofList (xs ys : List α) (front : ys.length ≤ xs.length) :
    put (ofList xs) 0 ys = ofList (ys ++ xs.drop ys.length) := by
  have whole := holds_ofList xs
  rw [← List.take_append_drop ys.length xs,holds_append,List.take_append_drop,List.length_take,
    Nat.min_eq_left front] at whole
  have kept : Holds (put (ofList xs) 0 ys) (0 + ys.length) (xs.drop ys.length) := whole.2.put (Int.le_refl _)
  rw [← put_self kept,← put_append]
  exact put_put _ 0 (by rw [List.length_append,List.length_drop]; omega)

theorem put_ofList_middle (front old back : List α) {ys : List α} (same : ys.length = old.length) :
    put (ofList (front ++ old ++ back)) front.length ys = ofList (front ++ ys ++ back) := by
  have whole := holds_ofList (front ++ old ++ back)
  rw [holds_append,holds_append,Int.zero_add,Int.zero_add,List.length_append,← same] at whole
  have kept : Holds (put (ofList (front ++ old ++ back)) front.length ys) (front ++ ys).length back := by
    rw [List.length_append]
    exact whole.2.put (Int.le_of_eq (Int.natCast_add _ _).symm)
  have covered : put (ofList (front ++ old ++ back)) 0 (front ++ ys ++ back) = ofList (front ++ ys ++ back) :=
    put_put _ 0 (by simp [same])
  rw [put_append,put_append,put_self whole.1.1,Int.zero_add,Int.zero_add,put_self kept] at covered
  exact covered

theorem write_ofList (xs : List α) {i : Nat} (h : i < xs.length) (x : α) :
    write (ofList xs) i x = some (ofList (xs.set i x)) := by
  have mapped : (ofList xs i).isSome := by simp [ofList_apply,h]
  rw [write,if_pos mapped]
  congr 1
  funext a
  by_cases here : a = i
  · subst here
    simp [ofList_apply,h]
  · rw [Function.update_of_ne here,ofList_apply,ofList_apply]
    split
    · rw [List.getElem?_set_ne (by omega)]
    · rfl

section Block
variable {n a : Int} {f g : Int → α}

theorem block_inside (h : 0 ≤ a ∧ a < n) (f : Int → α) : block n f a = some (f a) := if_pos h

theorem block_outside (h : ¬(0 ≤ a ∧ a < n)) (f : Int → α) : block n f a = none := if_neg h

theorem block_congr (same : ∀ a, 0 ≤ a → a < n → f a = g a) : block n f = block n g := by
  funext a
  by_cases h : 0 ≤ a ∧ a < n
  · rw [block_inside h,block_inside h,same a h.1 h.2]
  · rw [block_outside h,block_outside h]

theorem update_block (h : 0 ≤ a ∧ a < n) (f : Int → α) (x : α) :
    Function.update (block n f) a (some x) = block n (Function.update f a x) := by
  funext b
  by_cases here : b = a
  · subst here
    rw [Function.update_self,block_inside h,Function.update_self]
  · rw [Function.update_of_ne here,block,block,Function.update_of_ne here]

theorem write_block (h : 0 ≤ a ∧ a < n) (f : Int → α) (x : α) :
    write (block n f) a x = some (block n (Function.update f a x)) := by
  have mapped : (block n f a).isSome := by rw [block_inside h]; rfl
  rw [write,if_pos mapped,update_block h]

theorem block_ofList (n : Nat) (f : Int → α) : block n f = ofList ((List.range n).map fun (i : Nat) => f i) := by
  funext a
  rw [ofList_apply]
  by_cases inside : 0 ≤ a ∧ a < n
  · have index : a.toNat < n := by omega
    rw [block_inside inside,if_pos inside.1]
    simp [index,Int.toNat_of_nonneg inside.1]
  · rw [block_outside inside]
    split
    · rw [List.getElem?_eq_none]
      simp only [List.length_map,List.length_range]
      omega
    · rfl

end Block

/-- So many rounds, the counter going up from its first value. -/
def countUp (body : Int → σ → Option σ) (i : Int) : Nat → σ → Option σ
  | 0, s => some s
  | n + 1, s => do
    let s ← body i s
    countUp body (i + 1) n s

/-- A loop `for (i = start; i < stop; i++)` whose body leaves the counter alone. -/
def forUp (body : Int → σ → Option σ) (start stop : Int) (s : σ) : Option σ :=
  countUp body start (stop - start).toNat s

theorem forUp_done (body : Int → σ → Option σ) {start stop : Int} (done : stop ≤ start) (s : σ) :
    forUp body start stop s = some s := by
  have empty : (stop - start).toNat = 0 := by omega
  rw [forUp,empty,countUp]

theorem forUp_round (body : Int → σ → Option σ) {start stop : Int} (more : start < stop) (s : σ) :
    forUp body start stop s = body start s >>= forUp body (start + 1) stop := by
  have rounds : (stop - start).toNat = (stop - (start + 1)).toNat + 1 := by omega
  rw [forUp,rounds,countUp]
  rfl

end Cells
