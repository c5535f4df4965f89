import Mathlib.Data.List.Induction
import Mathlib.Tactic.Common

/-! Machines that take one input at a time and give something out at some of them. What a
run has taken in and what it has given out are kept beside its state, so that an invariant
can speak of all three. -/
namespace Tracing

variable {σ ι ο : Type} (step : σ → ι → σ) (emit : σ → ι → List ο)

def after (s : σ) (inputs : List ι) : σ := inputs.foldl step s

/-- All that is given out on the way, in order. -/
def trace : σ → List ι → List ο
  | _, [] => []
  | s, input :: rest => emit s input ++ trace (step s input) rest

@[simp] theorem after_nil (s : σ) : after step s [] = s := rfl

@[simp] theorem after_cons (s : σ) (input : ι) (rest : List ι) :
    after step s (input :: rest) = after step (step s input) rest := rfl

theorem after_append (s : σ) (first second : List ι) :
    after step s (first ++ second) = after step (after step s first) second := by
  simp [after]

theorem trace_append (s : σ) (first second : List ι) :
    trace step emit s (first ++ second) =
      trace step emit s first ++ trace step emit (after step s first) second := by
  induction first generalizing s with
  | nil => rfl
  | cons input rest ih => simp [trace,ih]

/-- The invariant rule: what holds at the start and is kept by one more input holds of every
run, of its inputs and outputs as of its state. -/
theorem history_invariant {start : σ} (property : List ι → List ο → σ → Prop) (initial : property [] [] start)
    (kept : ∀ inputs input, property inputs (trace step emit start inputs) (after step start inputs) →
      property (inputs ++ [input]) (trace step emit start inputs ++ emit (after step start inputs) input)
        (step (after step start inputs) input)) (inputs : List ι) :
    property inputs (trace step emit start inputs) (after step start inputs) := by
  induction inputs using List.reverseRecOn with
  | nil => exact initial
  | append_singleton inputs input ih =>
    rw [trace_append,after_append]
    simpa [trace] using kept inputs input ih

end Tracing
