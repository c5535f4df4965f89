import Mathlib.Data.List.Basic

/-! Runs of a machine whose events belong to owners. Two orders of the same events that
agree on each owner's own sequence are two interleavings; where events of different owners
commute, no owner can tell them apart. -/
namespace Interleaving

variable {σ ε ρ κ : Type} [DecidableEq κ] (step : σ → ε → σ × ρ) (owner : ε → κ)

def run (s : σ) (events : List ε) : σ := events.foldl (fun s e => (step s e).1) s

/-- What one owner's events gave, in order. -/
def outputs (who : κ) : σ → List ε → List ρ
  | _, [] => []
  | s, e :: rest =>
    if owner e = who then (step s e).2 :: outputs who (step s e).1 rest else outputs who (step s e).1 rest

/-- Neither event sees the other: the state does not depend on their order, nor does what
either of them gives. -/
def Commute (s : σ) (x y : ε) : Prop :=
  (step (step s x).1 y).1 = (step (step s y).1 x).1 ∧
  (step (step s x).1 y).2 = (step s y).2 ∧ (step (step s y).1 x).2 = (step s x).2

def SameOwnOrder (xs ys : List ε) : Prop :=
  ∀ who, xs.filter (fun e => owner e = who) = ys.filter (fun e => owner e = who)

variable {step : σ → ε → σ × ρ} {owner : ε → κ}

theorem SameOwnOrder.mem {xs ys : List ε} (same : SameOwnOrder owner xs ys) {e : ε} (member : e ∈ ys) : e ∈ xs := by
  have own : e ∈ ys.filter (fun e' => owner e' = owner e) := List.mem_filter.mpr ⟨member,by simp⟩
  rw [← same] at own
  exact (List.mem_filter.mp own).1

theorem SameOwnOrder.pull {x : ε} {xs ys : List ε} (same : SameOwnOrder owner (x :: xs) ys) :
    ∃ front back, ys = front ++ x :: back ∧ (∀ y ∈ front, owner y ≠ owner x) ∧
      SameOwnOrder owner xs (front ++ back) := by
  have first := same (owner x)
  rw [List.filter_cons_of_pos (by simp)] at first
  obtain ⟨front,back,rfl,others,_,rest⟩ := List.filter_eq_cons_iff.mp first.symm
  have foreign : ∀ y ∈ front, owner y ≠ owner x := fun y member => by simpa using others y member
  refine ⟨front,back,rfl,foreign,?_⟩
  intro who
  by_cases own : owner x = who
  · subst own
    have absent : front.filter (fun e => owner e = owner x) = [] := by
      simpa [List.filter_eq_nil_iff] using foreign
    rw [List.filter_append,absent,List.nil_append,rest]
  · have whole := same who
    rw [List.filter_cons_of_neg (by simpa using own),List.filter_append,
      List.filter_cons_of_neg (by simpa using own)] at whole
    rw [List.filter_append,whole]

section Invariant

variable (keeps : σ → Prop) (allowed : ε → Prop)
  (preserved : ∀ s e, keeps s → allowed e → keeps (step s e).1)

include preserved

theorem run_pull (x : ε) (front back : List ε) (s : σ) (holds : keeps s)
    (legals : ∀ y ∈ front, allowed y) (foreign : ∀ y ∈ front, owner y ≠ owner x)
    (commute : ∀ s y, keeps s → y ∈ front → Commute step s y x) :
    run step s (front ++ x :: back) = run step s (x :: (front ++ back)) ∧
    ∀ who, outputs step owner who s (front ++ x :: back) = outputs step owner who s (x :: (front ++ back)) := by
  induction front generalizing s with
  | nil => exact ⟨rfl,fun _ => rfl⟩
  | cons y front ih =>
    obtain ⟨state,outX,outY⟩ := commute s y holds (by simp)
    obtain ⟨sameRun,sameOut⟩ := ih (step s y).1 (preserved s y holds (legals y (by simp)))
      (fun z member => legals z (List.mem_cons_of_mem _ member))
      (fun z member => foreign z (List.mem_cons_of_mem _ member))
      (fun s z holds member => commute s z holds (List.mem_cons_of_mem _ member))
    constructor
    · simp only [run,List.cons_append,List.foldl_cons] at sameRun ⊢
      rw [sameRun,state]
    · intro who
      have other := foreign y (by simp)
      rw [List.cons_append,outputs,sameOut who]
      simp only [List.cons_append,outputs,state,outX,outY]
      by_cases own : owner y = who
      · have notX : ¬owner x = who := fun same => other (own.trans same.symm)
        simp [own,notX]
      · simp [own]

/-- Interleavings of commuting sequences cannot be told apart. -/
theorem same_outcome {xs ys : List ε} (same : SameOwnOrder owner xs ys) (legal : ∀ x ∈ xs, allowed x)
    (commute : ∀ s x y, keeps s → x ∈ xs → y ∈ xs → owner x ≠ owner y → Commute step s x y)
    (s : σ) (holds : keeps s) :
    run step s xs = run step s ys ∧
    ∀ who, outputs step owner who s xs = outputs step owner who s ys := by
  induction xs generalizing s ys with
  | nil =>
    cases ys with
    | nil => exact ⟨rfl,fun _ => rfl⟩
    | cons y ys => exact absurd (same.mem (List.mem_cons_self)) List.not_mem_nil
  | cons x xs ih =>
    have members : ∀ y ∈ ys, y ∈ x :: xs := fun y member => same.mem member
    obtain ⟨front,back,rfl,foreign,rest⟩ := same.pull
    have inFront : ∀ y ∈ front, y ∈ x :: xs := fun y member => members y (List.mem_append_left _ member)
    obtain ⟨pulledRun,pulledOut⟩ := run_pull keeps allowed preserved x front back s holds
      (fun y member => legal y (inFront y member)) foreign
      (fun s y holds member => commute s y x holds (inFront y member) (by simp) (foreign y member))
    obtain ⟨sameRun,sameOut⟩ := ih rest (fun y member => legal y (List.mem_cons_of_mem _ member))
      (fun s y z holds hy hz => commute s y z holds (List.mem_cons_of_mem _ hy) (List.mem_cons_of_mem _ hz))
      (step s x).1 (preserved s x holds (legal x (by simp)))
    constructor
    · rw [pulledRun]
      exact sameRun
    · intro who
      rw [pulledOut who,outputs,outputs,sameOut who]

end Invariant

end Interleaving
