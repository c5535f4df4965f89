import Ndp.Looping

/-! How calls into the C++ code end. `PANIC` prints its message and leaves the process; an
access outside its object is undefined, and nothing is said of what would follow it. -/
namespace Ndp.Cpp

inductive Outcome (α : Type) where
  | returned (value : α)
  | exited (message : String)
  | outOfBounds (index : Nat)
  | diverges
  deriving DecidableEq, Repr

namespace Outcome

def bind (x : Outcome α) (f : α → Outcome β) : Outcome β :=
  match x with
  | returned value => f value
  | exited message => exited message
  | outOfBounds index => outOfBounds index
  | diverges => diverges

instance : Monad Outcome where
  pure := returned
  bind := bind

@[simp] theorem returned_bind (value : α) (f : α → Outcome β) : (returned value >>= f) = f value := rfl

@[simp] theorem exited_bind (message : String) (f : α → Outcome β) :
    (exited message >>= f) = exited message := rfl

@[simp] theorem outOfBounds_bind (index : Nat) (f : α → Outcome β) :
    (outOfBounds index >>= f) = outOfBounds index := rfl

@[simp] theorem diverges_bind (f : α → Outcome β) : (diverges >>= f) = diverges := rfl

@[simp] theorem pure_eq (value : α) : (pure value : Outcome α) = returned value := rfl

theorem bind_returned_iff {x : Outcome α} {f : α → Outcome β} {b : β} :
    (x >>= f) = returned b ↔ ∃ a, x = returned a ∧ f a = returned b := by
  cases x <;> simp

end Outcome

/-- `PANIC_IF_NULL`: the macro quotes its own parameter. -/
def nullMessage : String := "`#_VAR#` cannot be null"

/-- Element access without a bounds check, as `std::vector::operator[]`. -/
def vectorAt (xs : List α) (index : Nat) : Outcome α :=
  match xs[index]? with
  | some x => .returned x
  | none => .outOfBounds index

def vectorPut (xs : List α) (index : Nat) (value : α) : Outcome (List α) :=
  if index < xs.length then .returned (xs.set index value) else .outOfBounds index

end Ndp.Cpp
