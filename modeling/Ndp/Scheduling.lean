import Ndp.Tracing

/-! Parties that take turns in any order. A turn of a party that has nothing to do changes
nothing, any other turn lowers the work that is left; rounds in which every party has its turn
then bring all of them to rest. -/
namespace Scheduling

open Tracing

/-- Turns out of which work gets less. A turn says whose it is; `Good` is kept by every turn. -/
structure Wears {σ τ ι : Type} (step : σ → τ → σ) (who : τ → ι) (Idle : σ → ι → Prop) (Good : σ → Prop)
    (work : σ → Nat) : Prop where
  kept : ∀ s t, Good s → Good (step s t)
  idle : ∀ s t, Good s → Idle s (who t) → step s t = s
  busy : ∀ s t, Good s → ¬Idle s (who t) → work (step s t) < work s

namespace Wears

variable {σ τ ι : Type} {step : σ → τ → σ} {who : τ → ι} {Idle : σ → ι → Prop} {Good : σ → Prop} {work : σ → Nat}

theorem of_advances (idle : ∀ s t, Idle s (who t) → step s t = s)
    (busy : ∀ s t, Good s → ¬Idle s (who t) → Good (step s t) ∧ work (step s t) < work s) :
    Wears step who Idle Good work where
  kept s t good := by
    by_cases still : Idle s (who t)
    · rwa [idle s t still]
    · exact (busy s t good still).1
  idle s t _ still := idle s t still
  busy s t good moves := (busy s t good moves).2

theorem good_after (wears : Wears step who Idle Good work) {s : σ} (good : Good s) (turns : List τ) :
    Good (after step s turns) := by
  induction turns generalizing s with
  | nil => exact good
  | cons t turns ih => exact ih (wears.kept s t good)

theorem turns_lower (wears : Wears step who Idle Good work) {s : σ} (good : Good s) (turns : List τ) :
    work (after step s turns) < work s ∨ (after step s turns = s ∧ ∀ t ∈ turns, Idle s (who t)) := by
  induction turns generalizing s with
  | nil => exact .inr ⟨rfl,by simp⟩
  | cons t turns ih =>
    rw [after_cons]
    by_cases idle : Idle s (who t)
    · rw [wears.idle s t good idle]
      exact (ih good).imp_right fun rest => ⟨rest.1,by simpa using ⟨idle,rest.2⟩⟩
    · have lower := wears.busy s t good idle
      left
      rcases ih (wears.kept s t good) with less | ⟨same,_⟩
      · omega
      · rw [same]
        exact lower

theorem rest_stays (wears : Wears step who Idle Good work) {s : σ} (good : Good s) (rest : ∀ i, Idle s i) (turns : List τ) :
    after step s turns = s := by
  induction turns with
  | nil => rfl
  | cons t turns ih => rw [after_cons,wears.idle s t good (rest (who t)),ih]

/-- Every party that may have work left has a turn in every round. -/
def Fair (who : τ → ι) (party : ι → Prop) (rounds : List (List τ)) : Prop :=
  ∀ round ∈ rounds, ∀ i, party i → ∃ t ∈ round, who t = i

/-- More fair rounds than there is work bring everyone to rest. -/
theorem rounds_rest (wears : Wears step who Idle Good work) (party : ι → Prop)
    (others : ∀ s i, Good s → ¬party i → Idle s i) {rounds : List (List τ)} (fair : Fair who party rounds) {s : σ}
    (good : Good s) (enough : work s < rounds.length) (i : ι) : Idle (after step s rounds.flatten) i := by
  induction rounds generalizing s with
  | nil => simp at enough
  | cons round rounds ih =>
    rw [List.length_cons] at enough
    rw [List.flatten_cons,after_append]
    rcases wears.turns_lower good round with less | ⟨same,idle⟩
    · exact ih (fun round member => fair round (by simp [member])) (wears.good_after good round) (by omega)
    · have rest : ∀ i, Idle s i := by
        intro i
        by_cases may : party i
        · obtain ⟨t,member,rfl⟩ := fair round (by simp) i may
          exact idle t member
        · exact others s i good may
      rw [same,wears.rest_stays good rest]
      exact rest i

end Wears

end Scheduling
