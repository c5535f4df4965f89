import Mathlib.Data.Nat.Init
import Mathlib.Tactic.Common

/-! Loops whose body either goes round again or leaves with a result. Fuel bounds
the number of iterations only; a variant shows that enough fuel always exists. -/
namespace Looping

/-- What one iteration of a loop body does. -/
inductive Flow (σ ρ : Type) where
  | next (state : σ)
  | ret (result : ρ)

variable {σ ρ : Type} {body : σ → Flow σ ρ}

def iterate (body : σ → Flow σ ρ) : Nat → σ → Option ρ
  | 0, _ => none
  | fuel + 1, s =>
    match body s with
    | .next s' => iterate body fuel s'
    | .ret r => some r

/-- States standing at the head of some iteration of a loop entered at the first one. -/
inductive Visits (body : σ → Flow σ ρ) : σ → σ → Prop where
  | here : Visits body s s
  | step : body s = .next s' → Visits body s' t → Visits body s t

/-- A natural measure that every further iteration lowers. -/
structure Variant (body : σ → Flow σ ρ) where
  measure : σ → Nat
  decreases : ∀ s s', body s = .next s' → measure s' < measure s

theorem iterate_isSome (v : Variant body) (fuel : Nat) (s : σ) (enough : v.measure s < fuel) :
    (iterate body fuel s).isSome := by
  induction fuel generalizing s with
  | zero => omega
  | succ fuel ih =>
    simp only [iterate]
    cases h : body s with
    | next s' =>
      have lower := v.decreases s s' h
      exact ih s' (by omega)
    | ret r => rfl

/-- The result of a loop with a variant, without a budget. -/
def run (v : Variant body) (s : σ) : ρ :=
  (iterate body (v.measure s + 1) s).get (iterate_isSome v _ s (Nat.lt_succ_self _))

theorem iterate_mono (fuel more : Nat) (s : σ) (r : ρ) (h : iterate body fuel s = some r)
    (le : fuel ≤ more) : iterate body more s = some r := by
  induction fuel generalizing more s with
  | zero => simp [iterate] at h
  | succ fuel ih =>
    obtain ⟨more, rfl⟩ : ∃ m, more = m + 1 := ⟨more - 1, by omega⟩
    simp only [iterate] at h ⊢
    cases hb : body s with
    | next s' =>
      simp only [hb] at h
      exact ih more s' h (by omega)
    | ret r' => simpa only [hb] using h

theorem iterate_run (v : Variant body) (s : σ) :
    iterate body (v.measure s + 1) s = some (run v s) := by
  simp [run]

/-- The fuelled and the total reading of a loop agree on every sufficient budget. -/
theorem iterate_eq_run (v : Variant body) (fuel : Nat) (s : σ) (enough : v.measure s < fuel) :
    iterate body fuel s = some (run v s) :=
  iterate_mono _ fuel s _ (iterate_run v s) enough

theorem run_ret (v : Variant body) {s : σ} {r : ρ} (h : body s = .ret r) : run v s = r := by
  have key := iterate_run v s
  simp only [iterate,h,Option.some.injEq] at key
  exact key.symm

theorem run_next (v : Variant body) {s s' : σ} (h : body s = .next s') : run v s = run v s' := by
  have lower := v.decreases s s' h
  have key := iterate_run v s
  simp only [iterate,h] at key
  rw [iterate_eq_run v _ s' lower] at key
  exact (Option.some.inj key).symm

theorem run_induction (v : Variant body) (motive : σ → Prop)
    (ret : ∀ s r, body s = .ret r → motive s)
    (next : ∀ s s', body s = .next s' → motive s' → motive s) (s : σ) : motive s := by
  induction hm : v.measure s using Nat.strongRecOn generalizing s with
  | ind m ih =>
    cases hb : body s with
    | ret r => exact ret s r hb
    | next s' => exact next s s' hb (ih _ (hm ▸ v.decreases s s' hb) s' rfl)

theorem Visits.invariant (property : σ → Prop)
    (preserved : ∀ s s', property s → body s = .next s' → property s')
    (path : Visits body s t) (initial : property s) : property t := by
  induction path with
  | here => exact initial
  | step h _ ih => exact ih (preserved _ _ initial h)

theorem Visits.run_eq (v : Variant body) (path : Visits body s t) : run v s = run v t := by
  induction path with
  | here => rfl
  | step h _ ih => rw [run_next v h,ih]

theorem run_visits (v : Variant body) (s : σ) : ∃ t, Visits body s t ∧ body t = .ret (run v s) := by
  induction s using run_induction v with
  | ret s r h => exact ⟨s,.here,by rw [run_ret v h,h]⟩
  | next s s' h ih =>
    obtain ⟨t,path,leaves⟩ := ih
    exact ⟨t,.step h path,by rw [run_next v h,leaves]⟩

/-- The invariant rule: what the loop head keeps, every way out turns into the postcondition. -/
theorem run_invariant (v : Variant body) (property : σ → Prop) (post : ρ → Prop)
    (preserved : ∀ s s', property s → body s = .next s' → property s')
    (leaves : ∀ s r, property s → body s = .ret r → post r) (s : σ) (initial : property s) :
    post (run v s) := by
  revert initial
  induction s using run_induction v with
  | ret s r h =>
    intro initial
    rw [run_ret v h]
    exact leaves s r initial h
  | next s s' h ih =>
    intro initial
    rw [run_next v h]
    exact ih (preserved s s' initial h)

end Looping
