import Mathlib.Order.Bounds.Basic
import Ndp.SumArray

/-! `main` of the summing benchmark: one kernel behind a function pointer, called again each time an
element has been replaced; and which arrays the two kernels for the extremes are right about. -/
namespace Ndp.SumArray

open C Cells Looping

abbrev Kernel := Memory Int32 → UInt64 → Option UInt64

/-- The sum returned is never assigned. -/
def smarterSum : Kernel := fun _ _ => none

/-- `f`, which is left unassigned if no text is given. -/
def kernelNamed : Option String → Except String (Option Kernel)
  | none => .ok none
  | some "sum" => .ok (some naiveSum)
  | some "max" => .ok (some naiveMax)
  | some "min" => .ok (some naiveMin)
  | some "smarter sum" => .ok (some smarterSum)
  | some name => .error ("Unknown function type: " ++ name ++ "\n")

/-- The two numbers entered. -/
structure Edit where
  idx : Int32
  newVal : Int32
  deriving DecidableEq, Repr

/-- `array[idx % len] = new_val`: the remainder is one of unsigned words. -/
def replace (len : UInt64) (arr : Memory Int32) (edit : Edit) : Option (Memory Int32) :=
  if len = 0 then none else write arr (widen edit.idx % len).toNat edit.newVal

/-- The initial result and the recomputed ones. -/
def recomputed (f : Kernel) (len : UInt64) (arr : Memory Int32) : List Edit → Option (List UInt64)
  | [] => do
    let result ← f arr len
    return [result]
  | edit :: edits => do
    let result ← f arr len
    let arr ← replace len arr edit
    let rest ← recomputed f len arr edits
    return result :: rest

/-- The results printed, or the text with which the program ends. -/
def main (rand : Nat → Nat) (fresh : Int → Int32) (len : UInt64) (name : Option String) (edits : List Edit) :
    Option (Except String (List UInt64)) := do
  let arr ← initArray rand (block len.toNat fresh) len
  match kernelNamed name with
  | .error message => return .error message
  | .ok f =>
    let f ← f
    let results ← recomputed f len arr edits
    return .ok results

def replaceAll (len : UInt64) (arr : Memory Int32) (edits : List Edit) : Option (Memory Int32) :=
  edits.foldlM (replace len) arr

def Edit.apply (xs : List Int32) (edit : Edit) : List Int32 := xs.set ((widen edit.idx).toNat % xs.length) edit.newVal

@[simp] theorem apply_length (xs : List Int32) (edit : Edit) : (Edit.apply xs edit).length = xs.length := List.length_set

@[simp] theorem edited_length (xs : List Int32) (edits : List Edit) : (edits.foldl Edit.apply xs).length = xs.length := by
  induction edits generalizing xs with
  | nil => rfl
  | cons edit edits ih => rw [List.foldl_cons,ih,apply_length]

section Session

variable {xs : List Int32} (nonempty : 0 < xs.length) (small : xs.length ≤ intMax)

include nonempty small

theorem replace_ofList (edit : Edit) :
    replace (UInt64.ofNat xs.length) (ofList xs) edit = some (ofList (edit.apply xs)) := by
  have length := length_toNat small
  have positive : UInt64.ofNat xs.length ≠ 0 := by
    intro zero
    rw [zero,UInt64.toNat_zero] at length
    omega
  rw [replace,if_neg positive,UInt64.toNat_mod,length]
  exact write_ofList xs (Nat.mod_lt _ nonempty) edit.newVal

theorem replaceAll_ofList (edits : List Edit) :
    replaceAll (UInt64.ofNat xs.length) (ofList xs) edits = some (ofList (edits.foldl Edit.apply xs)) := by
  induction edits generalizing xs with
  | nil => rfl
  | cons edit edits ih =>
    have rest := @ih (edit.apply xs) (by simpa using nonempty) (by simpa using small)
    rw [apply_length] at rest
    rw [replaceAll,List.foldlM_cons,replace_ofList nonempty small]
    exact rest

theorem recomputed_ofList (step : UInt64 → Int32 → UInt64) (acc : UInt64) (edits : List Edit) :
    recomputed (accumulate step acc) (UInt64.ofNat xs.length) (ofList xs) edits =
      some (edits.inits.map fun done => (done.foldl Edit.apply xs).foldl step acc) := by
  induction edits generalizing xs with
  | nil => simp [recomputed,accumulate_ofList step acc small]
  | cons edit edits ih =>
    have rest := @ih (edit.apply xs) (by simpa using nonempty) (by simpa using small)
    rw [apply_length] at rest
    simp [recomputed,accumulate_ofList step acc small,replace_ofList nonempty small,rest]

end Session

theorem foldl_best {α β : Type} (better : β → β → Prop) [DecidableRel better] (asymm : ∀ {a b}, better a b → ¬better b a)
    (trans : ∀ {a b c}, ¬better a b → ¬better b c → ¬better a c) (f : α → β) (xs : List α) (start : α) :
    ∃ y, xs.foldl (fun kept x => if better (f x) kept then f x else kept) (f start) = f y ∧
      y ∈ start :: xs ∧ ∀ x ∈ start :: xs, ¬better (f x) (f y) := by
  induction xs generalizing start with
  | nil => exact ⟨start,rfl,List.mem_cons_self,List.forall_mem_singleton.mpr fun h => asymm h h⟩
  | cons x xs ih =>
    rw [List.foldl_cons]
    by_cases taken : better (f x) (f start)
    · rw [if_pos taken]
      obtain ⟨y,kept,among,best⟩ := ih x
      refine ⟨y,kept,List.mem_cons_of_mem _ among,List.forall_mem_cons.mpr ⟨?_,best⟩⟩
      exact trans (asymm taken) (best x List.mem_cons_self)
    · rw [if_neg taken]
      obtain ⟨y,kept,among,best⟩ := ih start
      obtain ⟨first,rest⟩ := List.forall_mem_cons.mp best
      refine ⟨y,kept,?_,List.forall_mem_cons.mpr ⟨first,List.forall_mem_cons.mpr ⟨trans taken first,rest⟩⟩⟩
      rcases List.mem_cons.mp among with rfl | later
      · exact List.mem_cons_self
      · exact List.mem_cons_of_mem _ (List.mem_cons_of_mem _ later)

/-- The elements as numbers. -/
def values (xs : List Int32) : Set Int := {a | ∃ x ∈ xs, x.toInt = a}

section Extremes

variable {xs : List Int32}

theorem naiveMin_ofList (small : xs.length ≤ intMax) :
    ∃ y, naiveMin (ofList xs) (UInt64.ofNat xs.length) = some (widen y) ∧
      y ∈ 2147483647 :: xs ∧ ∀ x ∈ 2147483647 :: xs, ¬widen x < widen y := by
  obtain ⟨y,kept,best⟩ := foldl_best (· < ·) (fun h => UInt64.not_lt.mpr (UInt64.le_of_lt h))
    (fun first second => by rw [UInt64.not_lt] at *; exact UInt64.le_trans second first) widen xs 2147483647
  refine ⟨y,?_,best⟩
  rw [naiveMin,accumulate_ofList _ _ small,← kept]
  rfl

theorem naiveMax_ofList (small : xs.length ≤ intMax) :
    ∃ y, naiveMax (ofList xs) (UInt64.ofNat xs.length) = some (widen y) ∧
      y ∈ 0 :: xs ∧ ∀ x ∈ 0 :: xs, ¬widen x > widen y := by
  obtain ⟨y,kept,best⟩ := foldl_best (· > ·) (fun h => UInt64.not_lt.mpr (UInt64.le_of_lt h))
    (fun first second => by rw [gt_iff_lt,UInt64.not_lt] at *; exact UInt64.le_trans first second) widen xs 0
  refine ⟨y,?_,best⟩
  rw [naiveMax,accumulate_ofList _ _ small,← kept]
  rfl

/-- The least element is found exactly if none is negative: those count as greater than every other. -/
theorem naiveMin_least_iff (nonempty : 0 < xs.length) (small : xs.length ≤ intMax) :
    (∃ r, naiveMin (ofList xs) (UInt64.ofNat xs.length) = some r ∧ IsLeast (values xs) r.toInt64.toInt) ↔
      ∀ x ∈ xs, 0 ≤ x.toInt := by
  obtain ⟨y,returned,among,best⟩ := naiveMin_ofList small
  have start := best 2147483647 List.mem_cons_self
  have most : (2147483647 : Int32).toInt = 2147483647 := rfl
  rw [widen_lt_iff,most] at start
  constructor
  · rintro ⟨r,same,-,least⟩ x member
    obtain rfl : widen y = r := Option.some.inj (returned.symm.trans same)
    have above := least ⟨x,member,rfl⟩
    rw [widen_signed] at above
    split at start <;> omega
  · intro natural
    have least : ∀ x ∈ xs, y.toInt ≤ x.toInt := by
      intro x member
      have least := best x (List.mem_cons_of_mem _ member)
      have positive := natural x member
      rw [widen_lt_iff] at least
      split at least <;> split at start <;> omega
    refine ⟨widen y,returned,?_,?_⟩
    · rw [widen_signed]
      rcases List.mem_cons.mp among with rfl | member
      · have member := List.getElem_mem nonempty
        have bound := xs[0].toInt_lt
        have above := least xs[0] member
        exact ⟨xs[0],member,by omega⟩
      · exact ⟨y,member,rfl⟩
    · rintro _ ⟨x,member,rfl⟩
      rw [widen_signed]
      exact least x member

/-- The greatest element is found exactly if all elements are of one sign. -/
theorem naiveMax_greatest_iff (nonempty : 0 < xs.length) (small : xs.length ≤ intMax) :
    (∃ r, naiveMax (ofList xs) (UInt64.ofNat xs.length) = some r ∧ IsGreatest (values xs) r.toInt64.toInt) ↔
      (∀ x ∈ xs, 0 ≤ x.toInt) ∨ ∀ x ∈ xs, x.toInt < 0 := by
  obtain ⟨y,returned,among,best⟩ := naiveMax_ofList small
  constructor
  · rintro ⟨r,same,-,greatest⟩
    obtain rfl : widen y = r := Option.some.inj (returned.symm.trans same)
    rw [widen_signed] at greatest
    by_contra mixed
    push Not at mixed
    obtain ⟨⟨x,member,negative⟩,z,another,natural⟩ := mixed
    have below := greatest ⟨z,another,rfl⟩
    have above := best x (List.mem_cons_of_mem _ member)
    rw [gt_iff_lt,widen_lt_iff] at above
    split at above <;> omega
  · intro sign
    have alike : ∀ x ∈ xs, (0 ≤ y.toInt ↔ 0 ≤ x.toInt) := by
      rcases sign with natural | negative
      · have positive : 0 ≤ y.toInt := by
          rcases List.mem_cons.mp among with rfl | member
          · exact Int.le_refl 0
          · exact natural y member
        intro x member
        exact iff_of_true positive (natural x member)
      · intro x member
        have above := best x (List.mem_cons_of_mem _ member)
        have below := negative x member
        rw [gt_iff_lt,widen_lt_iff] at above
        split at above <;> omega
    have greatest : ∀ x ∈ xs, x.toInt ≤ y.toInt := by
      intro x member
      have above := best x (List.mem_cons_of_mem _ member)
      rw [gt_iff_lt,widen_lt_iff,if_pos (alike x member)] at above
      omega
    refine ⟨widen y,returned,?_,?_⟩
    · rw [widen_signed]
      rcases List.mem_cons.mp among with rfl | member
      · have member := List.getElem_mem nonempty
        have positive := (alike xs[0] member).mp (Int.le_refl 0)
        exact ⟨xs[0],member,Int.le_antisymm (greatest xs[0] member) positive⟩
      · exact ⟨y,member,rfl⟩
    · rintro _ ⟨x,member,rfl⟩
      rw [widen_signed]
      exact greatest x member

end Extremes

/-- After any edits the kernels find the extremes exactly of arrays without negative elements, and
`naive_max` also of arrays that have no other. -/
theorem naive_extremes_iff {xs : List Int32} (nonempty : xs ≠ []) (small : xs.length ≤ intMax) (edits : List Edit) :
    ∃ ys, replaceAll (UInt64.ofNat xs.length) (ofList xs) edits = some (ofList ys) ∧ ys.length = xs.length ∧
      ((∃ r, naiveMin (ofList ys) (UInt64.ofNat xs.length) = some r ∧ IsLeast (values ys) r.toInt64.toInt) ↔
        ∀ y ∈ ys, 0 ≤ y.toInt) ∧
      ((∃ r, naiveMax (ofList ys) (UInt64.ofNat xs.length) = some r ∧ IsGreatest (values ys) r.toInt64.toInt) ↔
        (∀ y ∈ ys, 0 ≤ y.toInt) ∨ ∀ y ∈ ys, y.toInt < 0) := by
  have positive := List.length_pos_iff.mpr nonempty
  have length := edited_length xs edits
  have least := naiveMin_least_iff (length ▸ positive) (length ▸ small)
  have greatest := naiveMax_greatest_iff (length ▸ positive) (length ▸ small)
  rw [length] at least greatest
  exact ⟨_,replaceAll_ofList positive small edits,length,least,greatest⟩

theorem naive_extremes_two :
    ∃ ys, replaceAll 2 (ofList [4, 2]) [⟨-1, 7⟩] = some (ofList ys) ∧
      ∃ r, naiveMin (ofList ys) 2 = some r ∧ IsLeast (values ys) r.toInt64.toInt := by
  obtain ⟨ys,replaced,-,least,-⟩ := naive_extremes_iff (List.cons_ne_nil 4 [2]) (by decide) [⟨-1, 7⟩]
  obtain rfl : [4, 7] = ys := by
    rw [replaceAll_ofList (by decide) (by decide)] at replaced
    exact ofList_inj.mp (Option.some.inj replaced)
  have natural : ∀ y ∈ [4, 7], 0 ≤ Int32.toInt y :=
    List.forall_mem_cons.mpr ⟨by decide,List.forall_mem_singleton.mpr (by decide)⟩
  exact ⟨[4, 7],replaced,least.mpr natural⟩

/-- An array as `init_array` leaves it, and one number entered. -/
theorem naive_extremes_mixed :
    replaceAll 2 (ofList [3, 5]) [⟨0, -1⟩] = some (ofList [-1, 5]) ∧
    naiveMin (ofList [-1, 5]) 2 = some 5 ∧ naiveMax (ofList [-1, 5]) 2 = some 0xffffffffffffffff ∧
    IsLeast (values [-1, 5]) (-1) ∧ IsGreatest (values [-1, 5]) 5 := by
  have edited := @replaceAll_ofList [3, 5] (by decide) (by decide) [⟨0, -1⟩]
  have least := @accumulate_ofList (fun min x => if widen x < min then widen x else min) 2147483647 [-1, 5] (by decide)
  have greatest := @accumulate_ofList (fun max x => if widen x > max then widen x else max) 0 [-1, 5] (by decide)
  have elements : values [-1, 5] = {-1, 5} := by
    ext a
    simp [values,eq_comm]
  rw [elements]
  exact ⟨edited,least,greatest,by simp [IsLeast,lowerBounds],by simp [IsGreatest,upperBounds]⟩

/-- What `init_array` fills an array with. -/
def drawn (rand : Nat → Nat) (len : Nat) : List Int32 := (List.range len).map fun i => Int32.ofNat (rand i % 100)

@[simp] theorem drawn_length (rand : Nat → Nat) (len : Nat) : (drawn rand len).length = len := by simp [drawn]

theorem initArray_from (rand : Nat → Nat) {len : UInt64} (small : len.toNat ≤ intMax) {i : Nat} (f : Int → Int32) :
    run (sweepVariant (fun i arr => write arr i (Int32.ofNat (rand i % 100))) len) ⟨i, block len.toNat f⟩ =
      some (block len.toNat fun a => if i ≤ a then Int32.ofNat (rand a.toNat % 100) else f a) := by
  induction rounds : len.toNat - i generalizing i f with
  | zero =>
    rw [sweep_done (by omega)]
    congr 1
    apply block_congr
    intro a low high
    rw [if_neg (by omega)]
  | succ rounds' ih =>
    have inside : (0 : Int) ≤ i ∧ (i : Int) < len.toNat := by omega
    rw [sweep_round (by omega) small (write_block inside f _),ih _ (by omega)]
    congr 1
    apply block_congr
    intro a low high
    by_cases here : a = i
    · subst here
      rw [if_neg (by omega),if_pos (Int.le_refl _),Function.update_self,Int.toNat_natCast]
    · rw [Function.update_of_ne here]
      by_cases later : (i : Int) ≤ a
      · rw [if_pos later,if_pos (by omega)]
      · rw [if_neg later,if_neg (by omega)]

theorem initArray_drawn (rand : Nat → Nat) {len : UInt64} (small : len.toNat ≤ intMax) (fresh : Int → Int32) :
    initArray rand (block len.toNat fresh) len = some (ofList (drawn rand len.toNat)) := by
  rw [initArray,sweep,initArray_from rand small]
  congr 1
  rw [block_ofList,drawn]
  simp

/-- No element is negative. -/
def Natural (xs : List Int32) : Prop := ∀ x ∈ xs, 0 ≤ x.toInt

theorem drawn_natural (rand : Nat → Nat) (len : Nat) : Natural (drawn rand len) := by
  intro x member
  obtain ⟨i,-,rfl⟩ := List.mem_map.mp member
  have small : rand i % 100 < 2 ^ 31 := Nat.lt_trans (Nat.mod_lt _ (by decide)) (by decide)
  rw [Int32.toInt_ofNat_of_lt small]
  exact Int.natCast_nonneg _

theorem Natural.apply {xs : List Int32} (natural : Natural xs) {edit : Edit} (entered : 0 ≤ edit.newVal.toInt) :
    Natural (edit.apply xs) := by
  intro x member
  rcases List.mem_or_eq_of_mem_set member with kept | rfl
  · exact natural x kept
  · exact entered

theorem Natural.edited {xs : List Int32} (natural : Natural xs) {edits : List Edit}
    (entered : ∀ edit ∈ edits, 0 ≤ edit.newVal.toInt) : Natural (edits.foldl Edit.apply xs) := by
  induction edits generalizing xs with
  | nil => exact natural
  | cons edit edits ih =>
    exact ih (natural.apply (entered edit List.mem_cons_self)) fun next later => entered next (List.mem_cons_of_mem _ later)

theorem Natural.extremes {xs : List Int32} (natural : Natural xs) (nonempty : 0 < xs.length)
    (small : xs.length ≤ intMax) :
    IsLeast (values xs) (xs.foldl (fun min x => if widen x < min then widen x else min) 2147483647).toInt64.toInt ∧
    IsGreatest (values xs) (xs.foldl (fun max x => if widen x > max then widen x else max) 0).toInt64.toInt := by
  obtain ⟨r,lower,least⟩ := (naiveMin_least_iff nonempty small).mpr natural
  obtain ⟨r',upper,greatest⟩ := (naiveMax_greatest_iff nonempty small).mpr (.inl natural)
  rw [naiveMin,accumulate_ofList _ _ small] at lower
  rw [naiveMax,accumulate_ofList _ _ small] at upper
  rw [Option.some.inj lower,Option.some.inj upper]
  exact ⟨least,greatest⟩

section Program

variable (rand : Nat → Nat) (fresh : Int → Int32) {len : UInt64}

theorem main_recomputes (nonempty : 0 < len.toNat) (small : len.toNat ≤ intMax) {name : Option String}
    {step : UInt64 → Int32 → UInt64} {acc : UInt64} (known : kernelNamed name = .ok (some (accumulate step acc)))
    (edits : List Edit) :
    main rand fresh len name edits =
      some (.ok (edits.inits.map fun done => (done.foldl Edit.apply (drawn rand len.toNat)).foldl step acc)) := by
  have results := @recomputed_ofList (drawn rand len.toNat) (by simpa using nonempty) (by simpa using small) step acc edits
  rw [drawn_length,UInt64.ofNat_toNat] at results
  simp [main,initArray_drawn rand small,known,results]

theorem main_sums (nonempty : 0 < len.toNat) (small : len.toNat ≤ intMax) (edits : List Edit) :
    main rand fresh len (some "sum") edits =
      some (.ok (edits.inits.map fun done => UInt64.ofInt (total (done.foldl Edit.apply (drawn rand len.toNat))))) := by
  rw [main_recomputes rand fresh nonempty small rfl]
  simp only [foldl_total]

theorem main_extremes (nonempty : 0 < len.toNat) (small : len.toNat ≤ intMax) (edits : List Edit)
    (entered : ∀ edit ∈ edits, 0 ≤ edit.newVal.toInt) :
    ∃ least greatest : List Edit → UInt64,
      main rand fresh len (some "min") edits = some (.ok (edits.inits.map least)) ∧
      main rand fresh len (some "max") edits = some (.ok (edits.inits.map greatest)) ∧
      ∀ done, done <+: edits →
        IsLeast (values (done.foldl Edit.apply (drawn rand len.toNat))) (least done).toInt64.toInt ∧
        IsGreatest (values (done.foldl Edit.apply (drawn rand len.toNat))) (greatest done).toInt64.toInt := by
  refine ⟨_,_,main_recomputes rand fresh nonempty small rfl edits,main_recomputes rand fresh nonempty small rfl edits,?_⟩
  intro done before
  have natural : Natural (done.foldl Edit.apply (drawn rand len.toNat)) :=
    (drawn_natural rand len.toNat).edited fun edit member => entered edit (before.subset member)
  exact natural.extremes (by simpa using nonempty) (by simpa using small)

end Program

end Ndp.SumArray
