import Ndp.Scanning
import Ndp.SumMain

/-! The summing benchmark at its prompt. The loop goes on for every result of `scanf` but zero, so it ends
where no index can be read, after one more round with the numbers it had, and at the end of the input it goes
on for good. Before the first two numbers are read there are none to go on with. -/
namespace Ndp.SumArray

open C Cells Looping

structure Session where
  arr : Memory Int32
  entered : Entered
  input : List Token
  out : List UInt64

/-- The element replaced and the result recomputed. A variable without a value is undefined. -/
def edited (f : Kernel) (len : UInt64) (arr : Memory Int32) (entered : Entered) : Option (Memory Int32 × UInt64) := do
  let idx ← entered.idx
  let newVal ← entered.newVal
  let arr ← replace len arr ⟨idx, newVal⟩
  let result ← f arr len
  return (arr, result)

/-- The body of the loop, which leaves it with the results printed. -/
def sessionBody (f : Kernel) (len : UInt64) (s : Session) : Flow Session (Option (List UInt64)) :=
  let (ret, entered, input) := scanTwo s.entered s.input
  match edited f len s.arr entered with
  | none => .ret none
  | some (arr, result) =>
    if ret ≠ 0 then .next ⟨arr, entered, input, s.out ++ [result]⟩ else .ret (some (s.out ++ [result]))

def session (rand : Nat → Nat) (fresh : Int → Int32) (len : UInt64) (f : Kernel) (input : List Token) (rounds : Nat) :
    Option (Option (List UInt64)) :=
  match (do
    let arr ← initArray rand (block len.toNat fresh) len
    let result ← f arr len
    return (arr, result)) with
  | none => some none
  | some (arr, result) => iterate (sessionBody f len) rounds ⟨arr, ⟨none, none⟩, input, [result]⟩

/-- The edits made from some point on, with the last one made before, to the end of the loop or of the input. -/
def made (last : Edit) : List Token → List Edit
  | [] => []
  | .junk :: _ => [last]
  | .sign :: _ => [last]
  | [.number idx] => [⟨idx, last.newVal⟩]
  | .number idx :: .junk :: _ => [⟨idx, last.newVal⟩, ⟨idx, last.newVal⟩]
  | .number idx :: .sign :: rest => ⟨idx, last.newVal⟩ :: made ⟨idx, last.newVal⟩ rest
  | .number idx :: .number newVal :: rest => ⟨idx, newVal⟩ :: made ⟨idx, newVal⟩ rest

/-- A letter comes, or a sign in place of an index; a sign in place of a value is passed. -/
def Stops : List Token → Prop
  | [] => False
  | .junk :: _ => True
  | .sign :: _ => True
  | [.number _] => False
  | .number _ :: .junk :: _ => True
  | .number _ :: .sign :: rest => Stops rest
  | .number _ :: .number _ :: rest => Stops rest

instance decidableStops : (input : List Token) → Decidable (Stops input)
  | [] => inferInstanceAs (Decidable False)
  | .junk :: _ => inferInstanceAs (Decidable True)
  | .sign :: _ => inferInstanceAs (Decidable True)
  | [.number _] => inferInstanceAs (Decidable False)
  | .number _ :: .junk :: _ => inferInstanceAs (Decidable True)
  | .number _ :: .sign :: rest => decidableStops rest
  | .number _ :: .number _ :: rest => decidableStops rest

def Edit.entered (edit : Edit) : Entered := ⟨some edit.idx, some edit.newVal⟩

theorem scanTwo_clean (last : Edit) {input : List Token} (clean : ¬Stops input) :
    ∃ ret edit rest, scanTwo last.entered input = (ret, Edit.entered edit, rest) ∧ ret ≠ 0 ∧ ¬Stops rest := by
  match input with
  | [] => exact ⟨-1,last,[],rfl,by decide,id⟩
  | .junk :: rest => exact absurd trivial clean
  | .sign :: rest => exact absurd trivial clean
  | [.number idx] => exact ⟨1,⟨idx,last.newVal⟩,[],rfl,by decide,id⟩
  | .number idx :: .junk :: rest => exact absurd trivial clean
  | .number idx :: .sign :: rest => exact ⟨1,⟨idx,last.newVal⟩,rest,rfl,by decide,clean⟩
  | .number idx :: .number newVal :: rest => exact ⟨2,⟨idx,newVal⟩,rest,rfl,by decide,clean⟩

def results (step : UInt64 → Int32 → UInt64) (acc : UInt64) (xs : List Int32) : List Edit → List UInt64
  | [] => []
  | edit :: edits => (edit.apply xs).foldl step acc :: results step acc (edit.apply xs) edits

theorem inits_results (step : UInt64 → Int32 → UInt64) (acc : UInt64) (xs : List Int32) (edits : List Edit) :
    (edits.inits.map fun done => (done.foldl Edit.apply xs).foldl step acc) =
      xs.foldl step acc :: results step acc xs edits := by
  induction edits generalizing xs with
  | nil => rfl
  | cons edit edits ih =>
    rw [results,← ih,List.inits,List.map_cons,List.map_map]
    rfl

section Rounds

variable {xs : List Int32} (nonempty : 0 < xs.length) (small : xs.length ≤ intMax) (step : UInt64 → Int32 → UInt64) (acc : UInt64)

include nonempty small

theorem sessionBody_round (entered : Entered) (input rest : List Token) (out : List UInt64) (ret : Int) (edit : Edit)
    (scanned : scanTwo entered input = (ret, edit.entered, rest)) :
    sessionBody (accumulate step acc) (UInt64.ofNat xs.length) ⟨ofList xs, entered, input, out⟩ =
      if ret ≠ 0 then .next ⟨ofList (edit.apply xs), edit.entered, rest, out ++ [(edit.apply xs).foldl step acc]⟩
      else .ret (some (out ++ [(edit.apply xs).foldl step acc])) := by
  have stored := replace_ofList nonempty small edit
  have result := @accumulate_ofList step acc (edit.apply xs) (by simpa using small)
  rw [apply_length] at result
  simp [sessionBody,scanned,edited,Edit.entered,stored,result]

theorem iterate_round {entered : Entered} {input rest : List Token} {ret : Int} {edit : Edit}
    (scanned : scanTwo entered input = (ret, edit.entered, rest)) (more : ret ≠ 0) (out : List UInt64) (rounds : Nat) :
    iterate (sessionBody (accumulate step acc) (UInt64.ofNat xs.length)) (rounds + 1) ⟨ofList xs, entered, input, out⟩ =
      iterate (sessionBody (accumulate step acc) (UInt64.ofNat xs.length)) rounds
        ⟨ofList (edit.apply xs), edit.entered, rest, out ++ [(edit.apply xs).foldl step acc]⟩ := by
  have round := sessionBody_round nonempty small step acc entered input rest out ret edit scanned
  rw [if_pos more] at round
  simp only [iterate,round]

theorem session_goes_on (last : Edit) {input : List Token} (clean : ¬Stops input) (out : List UInt64) (rounds : Nat) :
    iterate (sessionBody (accumulate step acc) (UInt64.ofNat xs.length)) rounds ⟨ofList xs, last.entered, input, out⟩ = none := by
  induction rounds generalizing xs last input out with
  | zero => rfl
  | succ rounds ih =>
    obtain ⟨ret,edit,rest,scanned,more,clean'⟩ := scanTwo_clean last clean
    have later := @ih (edit.apply xs) (by simpa using nonempty) (by simpa using small) edit rest clean'
    rw [apply_length] at later
    rw [iterate_round nonempty small step acc scanned more]
    exact later _

theorem session_ends_later {last edit : Edit} {input rest : List Token} {ret : Int}
    (scanned : scanTwo last.entered input = (ret, edit.entered, rest)) (more : ret ≠ 0) (out : List UInt64)
    (later : ∀ {ys : List Int32}, 0 < ys.length → ys.length ≤ intMax → ∀ out, ∃ rounds,
      iterate (sessionBody (accumulate step acc) (UInt64.ofNat ys.length)) rounds ⟨ofList ys, edit.entered, rest, out⟩ =
        some (some (out ++ results step acc ys (made edit rest)))) :
    ∃ rounds, iterate (sessionBody (accumulate step acc) (UInt64.ofNat xs.length)) rounds
        ⟨ofList xs, last.entered, input, out⟩ = some (some (out ++ results step acc xs (edit :: made edit rest))) := by
  obtain ⟨rounds,ended⟩ := @later (edit.apply xs) (by simpa using nonempty) (by simpa using small)
    (out ++ [(edit.apply xs).foldl step acc])
  rw [apply_length] at ended
  refine ⟨rounds + 1,?_⟩
  rw [iterate_round nonempty small step acc scanned more,ended,results,List.append_assoc,List.singleton_append]

theorem session_ends (last : Edit) {input : List Token} (stops : Stops input) (out : List UInt64) :
    ∃ rounds, iterate (sessionBody (accumulate step acc) (UInt64.ofNat xs.length)) rounds
        ⟨ofList xs, last.entered, input, out⟩ = some (some (out ++ results step acc xs (made last input))) := by
  fun_induction made last input generalizing xs out with
  | case1 last => exact absurd stops id
  | case2 last rest =>
    have round := sessionBody_round nonempty small step acc last.entered (.junk :: rest) _ out 0 last rfl
    exact ⟨1,by simp [iterate,round,results]⟩
  | case3 last rest =>
    have round := sessionBody_round nonempty small step acc last.entered (.sign :: rest) _ out 0 last rfl
    exact ⟨1,by simp [iterate,round,results]⟩
  | case4 last idx => exact absurd stops id
  | case5 last idx rest =>
    have first := sessionBody_round nonempty small step acc last.entered (.number idx :: .junk :: rest) _ out 1
      ⟨idx,last.newVal⟩ rfl
    have second := @sessionBody_round (Edit.apply xs ⟨idx,last.newVal⟩) (by simpa using nonempty) (by simpa using small) step acc
      (Edit.entered ⟨idx,last.newVal⟩) (.junk :: rest) _ (out ++ [(Edit.apply xs ⟨idx,last.newVal⟩).foldl step acc]) 0
      ⟨idx,last.newVal⟩ rfl
    rw [apply_length] at second
    exact ⟨2,by simp [iterate,first,second,results]⟩
  | case6 last idx rest ih =>
    have scanned : scanTwo last.entered (.number idx :: .sign :: rest) = (1, Edit.entered ⟨idx, last.newVal⟩, rest) := rfl
    exact session_ends_later nonempty small step acc scanned (by decide) out (ih · · stops)
  | case7 last idx newVal rest ih =>
    have scanned : scanTwo last.entered (.number idx :: .number newVal :: rest) = (2, Edit.entered ⟨idx, newVal⟩, rest) := rfl
    exact session_ends_later nonempty small step acc scanned (by decide) out (ih · · stops)

end Rounds

/-- Whatever is typed, the session has one of three courses. If it begins with two numbers, it ends exactly if
what follows stops it, having printed what `main` prints for the edits made until then, the last one repeated;
with nothing to stop it it never ends. If it does not begin so, it is undefined. -/
theorem session_course (rand : Nat → Nat) (fresh : Int → Int32) (len : UInt64) (nonempty : 0 < len.toNat)
    (small : len.toNat ≤ intMax) (name : Option String) (step : UInt64 → Int32 → UInt64) (acc : UInt64)
    (known : kernelNamed name = .ok (some (accumulate step acc))) (input : List Token) :
    (∃ idx newVal rest, input = .number idx :: .number newVal :: rest ∧
      ((Stops rest ∧ ∃ rounds out, session rand fresh len (accumulate step acc) input rounds = some (some out) ∧
          main rand fresh len name (⟨idx, newVal⟩ :: made ⟨idx, newVal⟩ rest) = some (.ok out)) ∨
        (¬Stops rest ∧ ∀ rounds, session rand fresh len (accumulate step acc) input rounds = none))) ∨
    ((∀ idx newVal rest, input ≠ .number idx :: .number newVal :: rest) ∧
      session rand fresh len (accumulate step acc) input 1 = some none) := by
  have nonempty' : 0 < (drawn rand len.toNat).length := by rwa [drawn_length]
  have small' : (drawn rand len.toNat).length ≤ intMax := by rwa [drawn_length]
  have length : UInt64.ofNat (drawn rand len.toNat).length = len := by rw [drawn_length,UInt64.ofNat_toNat]
  have result := accumulate_ofList step acc small'
  rw [length] at result
  have begins : ∀ rounds, session rand fresh len (accumulate step acc) input rounds =
      iterate (sessionBody (accumulate step acc) len) rounds
        ⟨ofList (drawn rand len.toNat), ⟨none, none⟩, input, [(drawn rand len.toNat).foldl step acc]⟩ := by
    intro rounds
    simp [session,initArray_drawn rand small,result]
  match input with
  | .number idx :: .number newVal :: rest =>
    refine .inl ⟨idx,newVal,rest,rfl,?_⟩
    have nonempty'' : 0 < (Edit.apply (drawn rand len.toNat) ⟨idx,newVal⟩).length := by rwa [apply_length]
    have small'' : (Edit.apply (drawn rand len.toNat) ⟨idx,newVal⟩).length ≤ intMax := by rwa [apply_length]
    have length' : UInt64.ofNat (Edit.apply (drawn rand len.toNat) ⟨idx,newVal⟩).length = len := by rw [apply_length,length]
    have scanned : scanTwo ⟨none, none⟩ (.number idx :: .number newVal :: rest) = (2, Edit.entered ⟨idx, newVal⟩, rest) := rfl
    have first := iterate_round nonempty' small' step acc scanned (by decide) [(drawn rand len.toNat).foldl step acc]
    rw [length] at first
    by_cases stops : Stops rest
    · obtain ⟨rounds,ended⟩ := session_ends nonempty'' small'' step acc ⟨idx,newVal⟩ stops
        ([(drawn rand len.toNat).foldl step acc] ++ [(Edit.apply (drawn rand len.toNat) ⟨idx,newVal⟩).foldl step acc])
      rw [length',← first,← begins] at ended
      refine .inl ⟨stops,rounds + 1,_,ended,?_⟩
      rw [main_recomputes rand fresh nonempty small known,inits_results]
      rfl
    · refine .inr ⟨stops,fun rounds => ?_⟩
      rw [begins]
      cases rounds with
      | zero => rfl
      | succ rounds =>
        have later := session_goes_on nonempty'' small'' step acc ⟨idx,newVal⟩ stops
        rw [length'] at later
        rw [first,later]
  | [] => exact .inr ⟨by simp,by rw [begins]; rfl⟩
  | .junk :: rest => exact .inr ⟨by simp,by rw [begins]; rfl⟩
  | .sign :: rest => exact .inr ⟨by simp,by rw [begins]; rfl⟩
  | [.number idx] => exact .inr ⟨by simp,by rw [begins]; rfl⟩
  | .number idx :: .junk :: rest => exact .inr ⟨by simp,by rw [begins]; rfl⟩
  | .number idx :: .sign :: rest => exact .inr ⟨by simp,by rw [begins]; rfl⟩

/-- Two elements, one edit, a value left out, and then a letter. -/
theorem session_course_letter :
    ∃ rounds out, session (fun _ => 3) (fun _ => 0) 2 naiveSum [.number 0, .number 5, .number 1, .sign, .junk] rounds =
        some (some out) ∧
      main (fun _ => 3) (fun _ => 0) 2 (some "sum") [⟨0, 5⟩, ⟨1, 5⟩, ⟨1, 5⟩] = some (.ok out) := by
  rcases session_course (fun _ => 3) (fun _ => 0) 2 (by decide) (by decide) (some "sum") _ _ rfl
    [.number 0, .number 5, .number 1, .sign, .junk] with ⟨idx,newVal,rest,same,course⟩ | ⟨other,_⟩
  · cases same
    rcases course with ⟨_,ended⟩ | ⟨clean,_⟩
    · exact ended
    · exact absurd trivial clean
  · exact absurd rfl (other 0 5 [.number 1, .sign, .junk])

end Ndp.SumArray
