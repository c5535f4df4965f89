import Ndp.Scanning
import Ndp.SortMain
import Ndp.Thresholds

/-! The sorting benchmark at its prompt. The result of `scanf` is not looked at and the loop has no end, so
when nothing more can be read the last edit is made over and over, in the array as it has been sorted since. -/
namespace Ndp.SortAlgo

open C Cells

structure Session where
  arr : Memory Int32
  entered : Entered
  input : List Token
  out : List (Memory Int32)

/-- The body of the loop. A variable without a value and an index outside the array are undefined. -/
def turn (f : Kernel) (len : Nat) (s : Session) : Option Session := do
  let (_, entered, input) := scanTwo s.entered s.input
  let idx ← entered.idx
  let newVal ← entered.newVal
  let edited ← write s.arr idx.toInt newVal
  let arr ← f edited 0 (intArg len)
  return ⟨arr, entered, input, s.out ++ [arr]⟩

def turns (f : Kernel) (len : Nat) (s : Session) : Nat → Option Session
  | 0 => some s
  | n + 1 => do
    let s ← turns f len s n
    turn f len s

/-- `main` on what is typed, after so many rounds of its loop. -/
def session (name : Option String) (len : Nat) (arr : Memory Int32) (input : List Token) (rounds : Nat) : Option Session := do
  let f ← kernelNamed name
  let arr ← f arr 0 (intArg len)
  turns f len ⟨arr, ⟨none, none⟩, input, [arr]⟩ rounds

def edit? : Entered → Option Edit
  | ⟨some idx, some newVal⟩ => some ⟨idx, newVal⟩
  | _ => none

/-- The variables and the input before a round. -/
def scanned (input : List Token) (n : Nat) : Entered × List Token := scan^[n] (⟨none, none⟩, input)

/-- What a round stores, if the variables have values by then. -/
def entry (input : List Token) (n : Nat) : Option Edit := edit? (scanned input (n + 1)).1

/-- The elements after so many rounds, with a kernel that sorts the first of them only. -/
def held (k : Nat) (xs : List Int32) (input : List Token) : Nat → List Int32
  | 0 => sortedFirst k xs
  | n + 1 =>
    match entry input n with
    | some edit => sortedFirst k (edit.apply (held k xs input n))
    | none => held k xs input n

/-- Where an edit made over and over leads. -/
def Edit.settled (edit : Edit) (k : Nat) (xs : List Int32) : List Int32 :=
  if edit.idx.toInt.toNat < k then Thresholds.settled edit.idx.toInt.toNat edit.newVal (xs.take k) ++ xs.drop k
  else edit.apply xs

section Again

variable {k : Nat} {xs : List Int32} (edit : Edit)

theorem sortedFirst_length (k : Nat) (xs : List Int32) : (sortedFirst k xs).length = xs.length := by
  simp [sortedFirst]
  omega

theorem take_sortedFirst (inside : k ≤ xs.length) : (sortedFirst k xs).take k = sorted (xs.take k) := by
  rw [sortedFirst]
  exact List.take_left' (by simpa using inside)

theorem sortedFirst_apply (xs : List Int32) (early : edit.idx.toInt.toNat < k) :
    sortedFirst k (edit.apply xs) = Thresholds.replaced edit.idx.toInt.toNat edit.newVal (xs.take k) ++ xs.drop k := by
  rw [sortedFirst,Edit.apply,List.take_set,List.drop_set_of_lt early]
  rfl

theorem iterate_early (inside : k ≤ xs.length) (early : edit.idx.toInt.toNat < k) (n : Nat) :
    (fun ys => sortedFirst k (edit.apply ys))^[n] xs =
      (Thresholds.replaced edit.idx.toInt.toNat edit.newVal)^[n] (xs.take k) ++ xs.drop k := by
  induction n with
  | zero => simp
  | succ n ih =>
    have length : ((Thresholds.replaced edit.idx.toInt.toNat edit.newVal)^[n] (xs.take k)).length = k := by
      rw [Thresholds.iterate_length,List.length_take_of_le inside]
    rw [Function.iterate_succ_apply',ih,sortedFirst_apply edit _ early,List.take_left' length,
      List.drop_left' length,Function.iterate_succ_apply']

theorem iterate_late (inOrder : (xs.take k).Pairwise (· ≤ ·)) (late : k ≤ edit.idx.toInt.toNat) (n : Nat) :
    (fun ys => sortedFirst k (edit.apply ys))^[n + 1] xs = edit.apply xs := by
  have once : sortedFirst k (edit.apply xs) = edit.apply xs := by
    have kept : (edit.apply xs).take k = xs.take k := by rw [Edit.apply,List.take_set_of_le late]
    rw [sortedFirst,kept,← eq_sorted inOrder (.refl _),← kept,List.take_append_drop]
  induction n with
  | zero => exact once
  | succ n ih =>
    have twice : edit.apply (edit.apply xs) = edit.apply xs := List.set_set _
    rw [Function.iterate_succ_apply',ih,twice,once]

theorem iterate_settles (inside : k ≤ xs.length) (inOrder : (xs.take k).Pairwise (· ≤ ·)) (within : edit.Within xs.length)
    {n : Nat} (enough : xs.length ≤ n) : (fun ys => sortedFirst k (edit.apply ys))^[n] xs = edit.settled k xs := by
  obtain ⟨low,high⟩ := within
  by_cases early : edit.idx.toInt.toNat < k
  · rw [iterate_early edit inside early,Edit.settled,if_pos early,
      Thresholds.iterate_settled edit.newVal inOrder (by rwa [List.length_take_of_le inside])
        (by rw [List.length_take_of_le inside]; omega)]
  · obtain ⟨m,rfl⟩ : ∃ m, n = m + 1 := ⟨n - 1,by omega⟩
    rw [iterate_late edit inOrder (Nat.le_of_not_lt early),Edit.settled,if_neg early]

end Again

theorem held_length (k : Nat) (xs : List Int32) (input : List Token) (n : Nat) :
    (held k xs input n).length = xs.length := by
  induction n with
  | zero => exact sortedFirst_length k xs
  | succ n ih =>
    rw [held]
    split
    · rw [sortedFirst_length,Edit.apply,List.length_set,ih]
    · exact ih

theorem held_inOrder {k : Nat} {xs : List Int32} (inside : k ≤ xs.length) (input : List Token) (n : Nat) :
    ((held k xs input n).take k).Pairwise (· ≤ ·) := by
  induction n with
  | zero =>
    rw [held,take_sortedFirst inside]
    exact sorted_pairwise _
  | succ n ih =>
    rw [held]
    split
    · rw [take_sortedFirst (by rwa [Edit.apply,List.length_set,held_length])]
      exact sorted_pairwise _
    · exact ih

theorem entry_stays (input : List Token) (n : Nat) : entry input (input.length + n) = entry input input.length := by
  simp only [entry,scanned,Nat.add_assoc,scans_stay (⟨none,none⟩,input)]

theorem held_again (k : Nat) (xs : List Int32) {input : List Token} {edit : Edit} (last : entry input input.length = some edit)
    (n : Nat) : held k xs input (input.length + n) =
      (fun ys => sortedFirst k (edit.apply ys))^[n] (held k xs input input.length) := by
  induction n with
  | zero => rfl
  | succ n ih => rw [← Nat.add_assoc,held,entry_stays,last,ih,Function.iterate_succ_apply']

theorem edit?_eq_some {entered : Entered} {edit : Edit} (read : edit? entered = some edit) :
    entered = ⟨some edit.idx, some edit.newVal⟩ := by
  obtain ⟨_ | idx,_ | newVal⟩ := entered <;> cases read
  rfl

theorem turn_outside (f : Kernel) (xs : List Int32) (entered : Entered) (input : List Token) (out : List (Memory Int32))
    (bad : ∀ edit, edit? (scan (entered, input)).1 = some edit → ¬edit.Within xs.length) :
    turn f xs.length ⟨ofList xs, entered, input, out⟩ = none := by
  rcases call : scanTwo entered input with ⟨ret,entered',rest⟩
  simp only [scan,call] at bad
  obtain ⟨_ | idx,_ | newVal⟩ := entered'
  · simp [turn,call]
  · simp [turn,call]
  · simp [turn,call]
  · have outside : ofList xs idx.toInt = none := by
      rw [ofList_apply]
      split
      next low =>
        have high : ¬idx.toInt < xs.length := fun high => bad ⟨idx,newVal⟩ rfl ⟨low,high⟩
        exact List.getElem?_eq_none (by omega)
      · rfl
    simp [turn,call,write,outside]

/-- A round with a value in both variables and an index within the array. -/
def Defined (len : Nat) (input : List Token) (n : Nat) : Prop := ∃ edit, entry input n = some edit ∧ edit.Within len

section Rounds

variable {f : Kernel} {k : Nat} {xs : List Int32} (sorts : ∀ ys : List Int32, ys.length = xs.length →
  f (ofList ys) 0 (intArg xs.length) = some (ofList (sortedFirst k ys)))

include sorts

theorem turn_within {ys : List Int32} (length : ys.length = xs.length) (entered : Entered) (input : List Token)
    (out : List (Memory Int32)) {edit : Edit} (read : edit? (scan (entered, input)).1 = some edit)
    (within : edit.Within xs.length) :
    turn f xs.length ⟨ofList ys, entered, input, out⟩ =
      some ⟨ofList (sortedFirst k (edit.apply ys)), (scan (entered, input)).1, (scan (entered, input)).2,
        out ++ [ofList (sortedFirst k (edit.apply ys))]⟩ := by
  obtain ⟨low,high⟩ := within
  have assigned := edit?_eq_some read
  have stored : write (ofList ys) edit.idx.toInt edit.newVal = some (ofList (edit.apply ys)) := by
    have write := write_ofList ys (show edit.idx.toInt.toNat < ys.length by omega) edit.newVal
    rwa [Int.toNat_of_nonneg low] at write
  have ordered := sorts (edit.apply ys) (by rw [Edit.apply,List.length_set,length])
  rcases call : scanTwo entered input with ⟨ret,entered',rest⟩
  simp only [scan,call] at assigned ⊢
  subst assigned
  simp [turn,call,stored,ordered]

theorem turns_held (input : List Token) (n : Nat) (defined : ∀ m < n, Defined xs.length input m) :
    turns f xs.length ⟨ofList (sortedFirst k xs), ⟨none, none⟩, input, [ofList (sortedFirst k xs)]⟩ n =
      some ⟨ofList (held k xs input n), (scanned input n).1, (scanned input n).2,
        (List.range (n + 1)).map fun m => ofList (held k xs input m)⟩ := by
  induction n with
  | zero => rfl
  | succ n ih =>
    obtain ⟨edit,read,within⟩ := defined n (Nat.lt_succ_self n)
    have next : scan (scanned input n) = scanned input (n + 1) := (Function.iterate_succ_apply' scan n _).symm
    have round := turn_within sorts (held_length k xs input n) (scanned input n).1 (scanned input n).2
      ((List.range (n + 1)).map fun m => ofList (held k xs input m)) (by rw [Prod.mk.eta,next]; exact read) within
    rw [turns,ih fun m before => defined m (Nat.lt_succ_of_lt before)]
    rw [Prod.mk.eta,next] at round
    have printed : held k xs input (n + 1) = sortedFirst k (edit.apply (held k xs input n)) := by simp only [held,read]
    rw [@List.range_succ (n + 1),List.map_append,List.map_singleton,printed]
    exact round

theorem turns_defined_iff (input : List Token) (n : Nat) :
    turns f xs.length ⟨ofList (sortedFirst k xs), ⟨none, none⟩, input, [ofList (sortedFirst k xs)]⟩ n ≠ none ↔
      ∀ m < n, Defined xs.length input m := by
  refine ⟨fun returns => ?_,fun defined => by simp [turns_held sorts input n defined]⟩
  induction n with
  | zero => exact fun m before => absurd before (Nat.not_lt_zero m)
  | succ n ih =>
    have earlier := ih fun undefined => returns (by rw [turns,undefined]; rfl)
    refine fun m before => (Nat.lt_succ_iff_lt_or_eq.mp before).elim (earlier m) ?_
    rintro rfl
    by_contra bad
    have next : scan (scanned input m) = scanned input (m + 1) := (Function.iterate_succ_apply' scan m _).symm
    have round := turn_outside f (held k xs input m) (scanned input m).1 (scanned input m).2
      ((List.range (m + 1)).map fun m => ofList (held k xs input m))
    rw [Prod.mk.eta,next,held_length] at round
    refine returns ?_
    rw [turns,turns_held sorts input m earlier]
    exact round fun edit read within => bad ⟨edit,read,within⟩

end Rounds

/-- How many elements a kernel sorts of an array whose length is an `int`: `bubbleSort` all but the last. -/
inductive Sorts : Option String → Nat → Nat → Prop where
  | merge (len : Nat) : Sorts (some "merge") len len
  | bubble (len : Nat) : Sorts (some "bubble") len (len - 1)

theorem Sorts.kernel {name : Option String} {len k : Nat} (known : Sorts name len k) (int : len ≤ intMax) :
    k ≤ len ∧ ∃ f, kernelNamed name = some f ∧
      ∀ ys : List Int32, ys.length = len → f (ofList ys) 0 (intArg len) = some (ofList (sortedFirst k ys)) := by
  have below := intArg_lt len
  have last : (intArg len + 1).toNat = len ∧ (intArg len).toNat = len - 1 := by
    rcases Nat.eq_zero_or_pos len with empty | nonempty
    · omega
    · rw [intArg_of_le nonempty int]
      omega
  cases known with
  | merge =>
    refine ⟨Nat.le_refl _,_,rfl,fun ys length => ?_⟩
    rw [mergeSort_ofList ys (by omega) (intArg_le len),if_neg (by omega),last.1]
  | bubble =>
    refine ⟨Nat.sub_le _ _,_,rfl,fun ys length => ?_⟩
    rw [bubbleSort_ofList ys (by omega) 0,last.2]

/-- For an array whose length is an `int`, whatever is typed, the session is defined for as long as both numbers
have been read once and the indices lie within the array. If that is so for good it never ends, and the array
comes to rest: from the round on where nothing more can be read, and as many rounds as it has elements, what is
printed is the array of that round with nothing above the last value left before the last index and nothing below
it behind. -/
theorem session_settles (name : Option String) (xs : List Int32) (k : Nat) (known : Sorts name xs.length k)
    (int : xs.length ≤ intMax) (input : List Token) :
    (∀ n, session name xs.length (ofList xs) input n ≠ none ↔ ∀ m < n, Defined xs.length input m) ∧
    ((∀ n, session name xs.length (ofList xs) input n ≠ none) → ∃ edit, entry input input.length = some edit ∧
      ∀ n, xs.length ≤ n → ∃ s, session name xs.length (ofList xs) input (input.length + n) = some s ∧
        s.out.getLast? = some (ofList (edit.settled k (held k xs input input.length)))) := by
  obtain ⟨inside,f,found,sorts⟩ := known.kernel int
  have begins : ∀ n, session name xs.length (ofList xs) input n =
      turns f xs.length ⟨ofList (sortedFirst k xs), ⟨none, none⟩, input, [ofList (sortedFirst k xs)]⟩ n := by
    intro n
    simp [session,found,sorts xs rfl]
  simp only [begins]
  refine ⟨turns_defined_iff sorts input,fun always => ?_⟩
  have defined : ∀ m, Defined xs.length input m := fun m =>
    (turns_defined_iff sorts input (m + 1)).mp (always (m + 1)) m (Nat.lt_succ_self m)
  obtain ⟨edit,last,within⟩ := defined input.length
  refine ⟨edit,last,fun n enough => ⟨_,turns_held sorts input _ fun m _ => defined m,?_⟩⟩
  have length := held_length k xs input input.length
  rw [List.range_succ,List.map_append,List.map_singleton,List.getLast?_concat,held_again k xs last,
    iterate_settles edit (by rwa [length]) (held_inOrder inside input _) (by rwa [length]) (by rwa [length])]

/-- Three elements, one edit, and the end of the input: the least two become the value. -/
theorem session_settles_three :
    (∀ m, Defined 3 [.number 0, .number 4] m) ∧ ∀ n, 3 ≤ n →
      ∃ s, session (some "merge") 3 (ofList [5, 1, 3]) [.number 0, .number 4] (2 + n) = some s ∧
        s.out.getLast? = some (ofList [4, 4, 5]) := by
  have course := session_settles (some "merge") [5, 1, 3] 3 (.merge 3) (by decide) [.number 0, .number 4]
  have defined : ∀ m, Defined 3 [.number 0, .number 4] m := by
    intro m
    refine ⟨⟨0,4⟩,?_,by decide⟩
    have rest : scanned [.number 0, .number 4] (m + 1) = (⟨some 0, some 4⟩, []) := by
      rw [scanned,Function.iterate_succ_apply]
      exact Function.iterate_fixed rfl m
    rw [entry,rest]
    rfl
  obtain ⟨edit,last,rests⟩ := course.2 fun n => (course.1 n).mpr fun m _ => defined m
  obtain rfl : edit = ⟨0,4⟩ := (Option.some.inj last).symm
  have array : Edit.settled ⟨0,4⟩ 3 (held 3 [5, 1, 3] [.number 0, .number 4] 2) = [4, 4, 5] := by decide
  refine ⟨defined,fun n enough => ?_⟩
  have settled := rests n enough
  rwa [show [Token.number 0, .number 4].length = 2 from rfl,array] at settled

end Ndp.SortAlgo
