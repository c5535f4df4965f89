import Mathlib.Data.List.Induction

/-! A cell that takes its value from the first use and keeps it until it is cleared. Later
uses see the value of the first one, whatever they ask for themselves. -/
namespace Latch

variable {α β : Type}

inductive Op (α : Type) where
  | use (arg : α)
  | clear
  deriving DecidableEq, Repr

def step (f : α → β) (cell : Option β) : Op α → Option β
  | .use arg => some (cell.getD (f arg))
  | .clear => none

def after (f : α → β) (cell : Option β) (ops : List (Op α)) : Option β := ops.foldl (step f) cell

/-- What was asked for since the last clear, the oldest first. -/
def sinceClear (ops : List (Op α)) : List α :=
  ops.foldl (fun used op => match op with
    | .use arg => used ++ [arg]
    | .clear => []) []

@[simp] theorem sinceClear_use (ops : List (Op α)) (arg : α) :
    sinceClear (ops ++ [.use arg]) = sinceClear ops ++ [arg] := by
  simp [sinceClear]

@[simp] theorem sinceClear_clear (ops : List (Op α)) : sinceClear (ops ++ [.clear]) = [] := by
  simp [sinceClear]

theorem use_mem_of_sinceClear {ops : List (Op α)} {arg : α} (used : arg ∈ sinceClear ops) : .use arg ∈ ops := by
  induction ops using List.reverseRecOn with
  | nil => simp [sinceClear] at used
  | append_singleton ops op ih =>
    cases op with
    | clear => simp at used
    | use other =>
      rw [sinceClear_use,List.mem_append,List.mem_singleton] at used
      rcases used with earlier | rfl
      · exact List.mem_append_left _ (ih earlier)
      · simp

theorem foldl_step (f : α → β) (ops : List (Op α)) (used : List α) :
    ops.foldl (step f) (used.head?.map f) =
      (ops.foldl (fun used op => match op with
        | .use arg => used ++ [arg]
        | .clear => []) used).head?.map f := by
  induction ops generalizing used with
  | nil => rfl
  | cons op rest ih =>
    rw [List.foldl_cons,List.foldl_cons,← ih]
    congr 1
    cases op with
    | clear => rfl
    | use arg => cases used <;> rfl

theorem after_eq (f : α → β) (ops : List (Op α)) : after f none ops = (sinceClear ops).head?.map f :=
  foldl_step f ops []

theorem answer_eq (f : α → β) (ops : List (Op α)) (arg : α) :
    ∃ first, (sinceClear (ops ++ [.use arg])).head? = some first ∧
      (after f none ops).getD (f arg) = f first := by
  rw [after_eq,sinceClear_use]
  cases sinceClear ops with
  | nil => exact ⟨arg,rfl,rfl⟩
  | cons first rest => exact ⟨first,rfl,rfl⟩

end Latch
