import Mathlib.Data.List.Nodup
import Mathlib.Order.Lattice.Nat
import Mathlib.Tactic.Common

/-! Search from a root in levels, over an arbitrary relation: the vertices dealt with, in the
order they were taken, and behind them those found and still waiting. -/
namespace LevelSearch

variable {α : Type}

/-- A walk of so many edges. -/
inductive Walk (edge : α → α → Prop) (root : α) : Nat → α → Prop where
  | stay : Walk edge root 0 root
  | onward : Walk edge root n u → edge u v → Walk edge root (n + 1) v

def Reachable (edge : α → α → Prop) (root v : α) : Prop := ∃ n, Walk edge root n v

/-- The fewest edges of a walk from the root; what it is for other vertices does not matter. -/
noncomputable def hops (edge : α → α → Prop) (root v : α) : Nat := sInf {n | Walk edge root n v}

variable {edge : α → α → Prop} {root : α}

theorem Walk.hops_le {n : Nat} {v : α} (walk : Walk edge root n v) : hops edge root v ≤ n :=
  Nat.sInf_le walk

theorem Reachable.shortest {v : α} (reach : Reachable edge root v) : Walk edge root (hops edge root v) v :=
  Nat.sInf_mem reach

theorem Reachable.onward {u v : α} (reach : Reachable edge root u) (h : edge u v) : Reachable edge root v :=
  reach.imp' Nat.succ fun _ walk => walk.onward h

section Fresh
variable [DecidableEq α]

/-- Of a list, what was not seen before, each vertex where it first stands. -/
def fresh (seen : List α) : List α → List α
  | [] => []
  | v :: vs => if v ∈ seen then fresh seen vs else v :: fresh (seen ++ [v]) vs

theorem mem_fresh {seen vs : List α} {v : α} : v ∈ fresh seen vs ↔ v ∈ vs ∧ v ∉ seen := by
  induction vs generalizing seen with
  | nil => simp [fresh]
  | cons u vs ih =>
    by_cases known : u ∈ seen
    · rw [fresh,if_pos known,ih]
      grind
    · rw [fresh,if_neg known,List.mem_cons,ih]
      grind

theorem fresh_cons (seen : List α) (v : α) (vs : List α) :
    fresh seen (v :: vs) = fresh seen [v] ++ fresh (seen ++ fresh seen [v]) vs := by
  by_cases known : v ∈ seen <;> simp [fresh,known]

theorem nodup_append_fresh {seen : List α} (nodup : seen.Nodup) (vs : List α) : (seen ++ fresh seen vs).Nodup := by
  induction vs generalizing seen with
  | nil => simpa [fresh] using nodup
  | cons u vs ih =>
    by_cases known : u ∈ seen
    · rw [fresh,if_pos known]
      exact ih nodup
    · rw [fresh,if_neg known,List.append_cons]
      exact ih (List.concat_eq_append ▸ nodup.concat known)

end Fresh

/-- Where a search stands: nothing is found twice, what is found is found in the order of the levels,
what waits spans one level at most, and the neighbours of what is done are found. -/
structure Search (edge : α → α → Prop) (root : α) (done waiting : List α) : Prop where
  nodup : (done ++ waiting).Nodup
  reached : ∀ v ∈ done ++ waiting, Reachable edge root v
  ordered : (done ++ waiting).Pairwise fun u v => hops edge root u ≤ hops edge root v
  near : ∀ u ∈ waiting.head?, ∀ v ∈ waiting, hops edge root v ≤ hops edge root u + 1
  closed : ∀ u ∈ done, ∀ v, edge u v → v ∈ done ++ waiting
  root_found : root ∈ done ++ waiting

variable {done waiting : List α}

theorem Search.start : Search edge root [] [root] where
  nodup := by simp
  reached := by
    intro v mem
    rw [List.nil_append,List.mem_singleton] at mem
    exact ⟨0,mem ▸ .stay⟩
  ordered := by simp
  near := by simp
  closed := by simp
  root_found := by simp

theorem Search.frontier (search : Search edge root done waiting) {n : Nat} {v : α} (walk : Walk edge root n v)
    (undone : v ∉ done) : ∃ x ∈ waiting, hops edge root x ≤ n ∧ (v ∉ waiting → hops edge root x < n) := by
  induction walk with
  | stay =>
    have waits : root ∈ waiting := (List.mem_append.mp search.root_found).resolve_left undone
    exact ⟨root,waits,Walk.stay.hops_le,fun absent => absurd waits absent⟩
  | @onward n u v walk h ih =>
    by_cases before : u ∈ done
    · have waits : v ∈ waiting := (List.mem_append.mp (search.closed u before v h)).resolve_left undone
      exact ⟨v,waits,(walk.onward h).hops_le,fun absent => absurd waits absent⟩
    · obtain ⟨x,mem,le,-⟩ := ih before
      exact ⟨x,mem,Nat.le_succ_of_le le,fun _ => Nat.lt_succ_of_le le⟩

theorem Search.head_le {u x : α} (search : Search edge root done (u :: waiting)) (mem : x ∈ u :: waiting) :
    hops edge root u ≤ hops edge root x := by
  obtain rfl | later := List.mem_cons.mp mem
  · exact Nat.le_refl _
  · exact (List.pairwise_cons.mp (List.pairwise_append.mp search.ordered).2.1).1 x later

theorem Search.le_head_succ {u v : α} (search : Search edge root done (u :: waiting)) (mem : v ∈ done ++ u :: waiting) :
    hops edge root v ≤ hops edge root u + 1 := by
  obtain before | waits := List.mem_append.mp mem
  · exact Nat.le_succ_of_le ((List.pairwise_append.mp search.ordered).2.2 v before u List.mem_cons_self)
  · exact search.near u rfl v waits

theorem Search.hops_found {u v : α} (search : Search edge root done (u :: waiting)) (h : edge u v)
    (unseen : v ∉ done ++ u :: waiting) : hops edge root v = hops edge root u + 1 := by
  have head : Reachable edge root u := search.reached u (by simp)
  have shortest : Walk edge root (hops edge root v) v := (head.onward h).shortest
  rw [List.mem_append,not_or] at unseen
  obtain ⟨x,mem,-,before⟩ := search.frontier shortest unseen.1
  have first := search.head_le mem
  have below := before unseen.2
  have above := (head.shortest.onward h).hops_le
  omega

theorem Search.step [DecidableEq α] {u : α} (search : Search edge root done (u :: waiting)) {vs : List α}
    (neighbours : ∀ v, v ∈ vs ↔ edge u v) :
    Search edge root (done ++ [u]) (waiting ++ fresh (done ++ u :: waiting) vs) := by
  have all : done ++ [u] ++ (waiting ++ fresh (done ++ u :: waiting) vs)
      = (done ++ u :: waiting) ++ fresh (done ++ u :: waiting) vs := by simp
  have head : Reachable edge root u := search.reached u (by simp)
  have found {v : α} (mem : v ∈ fresh (done ++ u :: waiting) vs) :
      edge u v ∧ hops edge root v = hops edge root u + 1 := by
    obtain ⟨listed,unseen⟩ := mem_fresh.mp mem
    exact ⟨(neighbours v).mp listed,search.hops_found ((neighbours v).mp listed) unseen⟩
  refine ⟨?_,?_,?_,?_,?_,?_⟩
  · rw [all]
    exact nodup_append_fresh search.nodup vs
  · rw [all]
    intro v mem
    obtain before | new := List.mem_append.mp mem
    · exact search.reached v before
    · exact head.onward (found new).1
  · rw [all,List.pairwise_append]
    refine ⟨search.ordered,?_,?_⟩
    · exact List.pairwise_of_forall_mem_list fun a ha b hb => ((found ha).2.trans (found hb).2.symm).le
    · intro a ha b hb
      exact (search.le_head_succ ha).trans (found hb).2.symm.le
  · intro x first v mem
    have bound : hops edge root v ≤ hops edge root u + 1 := by
      obtain waits | new := List.mem_append.mp mem
      · exact search.near u rfl v (List.mem_cons_of_mem u waits)
      · exact (found new).2.le
    refine bound.trans (Nat.succ_le_succ ?_)
    obtain waits | new := List.mem_append.mp (List.mem_of_mem_head? first)
    · exact search.head_le (List.mem_cons_of_mem u waits)
    · exact (Nat.le_succ _).trans (found new).2.symm.le
  · intro x mem v h
    rw [all]
    obtain before | last := List.mem_append.mp mem
    · exact List.mem_append_left _ (search.closed x before v h)
    · rw [List.mem_singleton] at last
      subst last
      by_cases seen : v ∈ done ++ x :: waiting
      · exact List.mem_append_left _ seen
      · exact List.mem_append_right _ (mem_fresh.mpr ⟨(neighbours v).mpr h,seen⟩)
  · rw [all]
    exact List.mem_append_left _ search.root_found

/-- With nothing waiting, what is reachable has been dealt with. -/
theorem Search.complete (search : Search edge root done []) (v : α) : v ∈ done ↔ Reachable edge root v := by
  refine ⟨fun mem => search.reached v (List.mem_append_left _ mem),fun ⟨n,walk⟩ => ?_⟩
  by_contra undone
  obtain ⟨x,mem,-⟩ := search.frontier walk undone
  exact List.not_mem_nil mem

end LevelSearch
