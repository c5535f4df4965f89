import Mathlib.Logic.Function.Iterate
import Mathlib.Tactic.Common

/-! The call of `scanf` by which the array benchmarks read an index and a value. Of what is no number only a
sign is taken from the input, and a variable nothing is read for stays as it is. -/
namespace Ndp.C

/-- What is typed, blanks left out: an `int`, a sign with no digit behind it, or something no number begins with. -/
inductive Token where
  | number (value : Int32)
  | sign
  | junk
  deriving DecidableEq, Repr

/-- `idx` and `new_val`, which are not initialised. -/
structure Entered where
  idx : Option Int32
  newVal : Option Int32
  deriving DecidableEq, Repr

/-- `scanf("%d %d", &idx, &new_val)`: the result, the variables, and what is left of the input. -/
def scanTwo (entered : Entered) : List Token → Int × Entered × List Token
  | [] => (-1, entered, [])
  | .junk :: rest => (0, entered, .junk :: rest)
  | .sign :: rest => (0, entered, rest)
  | [.number idx] => (1, { entered with idx := some idx }, [])
  | .number idx :: .junk :: rest => (1, { entered with idx := some idx }, .junk :: rest)
  | .number idx :: .sign :: rest => (1, { entered with idx := some idx }, rest)
  | .number idx :: .number newVal :: rest => (2, ⟨some idx, some newVal⟩, rest)

/-- What a call leaves for the next one. -/
def scan (s : Entered × List Token) : Entered × List Token := (scanTwo s.1 s.2).2

theorem scan_shortens (s : Entered × List Token) : scan s = s ∨ (scan s).2.length < s.2.length := by
  obtain ⟨entered,input⟩ := s
  match input with
  | [] => exact .inl rfl
  | .junk :: rest => exact .inl rfl
  | .sign :: rest => exact .inr (Nat.lt_succ_self rest.length)
  | [.number idx] => exact .inr (by simp [scan,scanTwo])
  | .number idx :: .junk :: rest => exact .inr (by simp [scan,scanTwo])
  | .number idx :: .sign :: rest => exact .inr (Nat.lt_succ_of_lt (Nat.lt_succ_self rest.length))
  | .number idx :: .number newVal :: rest => exact .inr (Nat.lt_succ_of_lt (Nat.lt_succ_self rest.length))

theorem scans_stop_or (s : Entered × List Token) (n : Nat) :
    scan (scan^[n] s) = scan^[n] s ∨ (scan^[n] s).2.length + n ≤ s.2.length := by
  induction n with
  | zero => exact .inr (Nat.le_refl _)
  | succ n ih =>
    rw [Function.iterate_succ_apply']
    rcases ih with stopped | shorter
    · exact .inl (by rw [stopped,stopped])
    · rcases scan_shortens (scan^[n] s) with same | less
      · exact .inl (by rw [same,same])
      · exact .inr (by omega)

theorem scans_stop (s : Entered × List Token) : scan (scan^[s.2.length] s) = scan^[s.2.length] s := by
  rcases scans_stop_or s s.2.length with stopped | shorter
  · exact stopped
  · have used : (scan^[s.2.length] s).2 = [] := List.eq_nil_of_length_eq_zero (by omega)
    rw [scan,used]
    exact Prod.ext rfl used.symm

theorem scans_stay (s : Entered × List Token) (n : Nat) : scan^[s.2.length + n] s = scan^[s.2.length] s := by
  rw [Nat.add_comm,Function.iterate_add_apply]
  exact Function.iterate_fixed (scans_stop s) n

end Ndp.C
