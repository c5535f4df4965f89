import Mathlib.Algebra.Order.Group.Defs
import Mathlib.Algebra.Order.Group.Int
import Mathlib.Data.Fintype.Card
import Mathlib.Data.List.FinRange
import Mathlib.Order.Bounds.Basic
import Ndp.Looping
import Ndp.Settling

/-! Dijkstra's algorithm of the graph benchmark. Missing edges stand in the cost matrix with a finite
weight, the loop stops one vertex early, and a round whose scan finds nothing goes on with the vertex
of the round before, which in the first round there is not. -/
namespace Ndp.Sssp

open Looping Settling

/-- `INFINITY`. -/
def infinity : Int := 9999

/-- `MAX`. -/
def maxNodes : Nat := 10

def intMin : Int := -2147483648

def intMax : Int := 2147483647

/-- What leaves the rest of a run without meaning. -/
inductive Undefined where
  | unassigned
  | overflow
  deriving DecidableEq, Repr

/-- The arguments of a call; only the first `n` rows and columns are read. -/
structure Problem where
  n : Nat
  small : n ≤ maxNodes
  G : Fin maxNodes → Fin maxNodes → Int
  startnode : Fin n

def Problem.weight (p : Problem) (i j : Fin p.n) : Int := p.G (i.castLE p.small) (j.castLE p.small)

def cost (p : Problem) (i j : Fin p.n) : Int := if p.weight i j = 0 then infinity else p.weight i j

/-- Nothing for `nextnode` as long as it is not assigned. -/
structure State (n : Nat) where
  distance : Fin n → Int
  pred : Fin n → Fin n
  visited : Fin n → Bool
  count : Nat
  nextnode : Option (Fin n)

def initial (p : Problem) : State p.n where
  distance := Function.update (cost p p.startnode) p.startnode 0
  pred := fun _ => p.startnode
  visited := Function.update (fun _ => false) p.startnode true
  count := 1
  nextnode := none

def scanStep {n : Nat} (s : State n) (best : Int × Option (Fin n)) (i : Fin n) : Int × Option (Fin n) :=
  if s.distance i < best.1 ∧ s.visited i = false then (s.distance i, some i) else best

/-- `mindistance` and `nextnode` after the scan. -/
def scan {n : Nat} (s : State n) : Int × Option (Fin n) :=
  (List.finRange n).foldl (scanStep s) (infinity, s.nextnode)

def addInt (a b : Int) : Except Undefined Int :=
  if intMin ≤ a + b ∧ a + b ≤ intMax then .ok (a + b) else .error .overflow

def relaxStep (p : Problem) (mindistance : Int) (nextnode : Fin p.n) (s : State p.n) (i : Fin p.n) :
    Except Undefined (State p.n) :=
  if s.visited i then .ok s
  else do
    let through ← addInt mindistance (cost p nextnode i)
    if through < s.distance i then
      return { s with
        distance := Function.update s.distance i through
        pred := Function.update s.pred i nextnode }
    else return s

def relaxAll (p : Problem) (mindistance : Int) (nextnode : Fin p.n) (s : State p.n) : Except Undefined (State p.n) :=
  (List.finRange p.n).foldlM (relaxStep p mindistance nextnode) s

def round (p : Problem) (s : State p.n) : Except Undefined (State p.n) :=
  match scan s with
  | (_, none) => .error .unassigned
  | (mindistance, some nextnode) => do
    let visited := Function.update s.visited nextnode true
    let s ← relaxAll p mindistance nextnode { s with visited := visited, nextnode := some nextnode }
    return { s with count := s.count + 1 }

def loopBody (p : Problem) (s : State p.n) : Flow (State p.n) (Except Undefined (State p.n)) :=
  if s.count + 1 < p.n then
    match round p s with
    | .ok s => .next s
    | .error e => .ret (.error e)
  else .ret (.ok s)

/-- No vertex waits below the limit. -/
def Exhausted {n : Nat} (s : State n) : Prop := ∀ v, s.visited v = false → infinity ≤ s.distance v

/-- The vertex the scan is meant to find. -/
structure Nearest {n : Nat} (s : State n) (w : Fin n) : Prop where
  waits : s.visited w = false
  below : s.distance w < infinity
  least : ∀ v, s.visited v = false → s.distance w ≤ s.distance v
  first : ∀ v, s.visited v = false → v < w → s.distance w < s.distance v

theorem scan_fold {n : Nat} (s : State n) {xs : List (Fin n)} (upward : xs.Pairwise (· < ·)) (best : Int × Option (Fin n)) :
    (xs.foldl (scanStep s) best = best ∧ ∀ v ∈ xs, s.visited v = false → best.1 ≤ s.distance v) ∨
      ∃ w, xs.foldl (scanStep s) best = (s.distance w, some w) ∧ s.visited w = false ∧ s.distance w < best.1 ∧
        ∀ v ∈ xs, s.visited v = false → s.distance w ≤ s.distance v ∧ (v < w → s.distance w < s.distance v) := by
  induction xs generalizing best with
  | nil => exact .inl ⟨rfl,by simp⟩
  | cons i xs ih =>
    obtain ⟨above,upward⟩ := List.pairwise_cons.mp upward
    rw [List.foldl_cons]
    by_cases taken : s.distance i < best.1 ∧ s.visited i = false
    · have step : scanStep s best i = (s.distance i, some i) := if_pos taken
      rw [step]
      obtain ⟨same,rest⟩ | ⟨w,found,waits,below,rest⟩ := ih upward (s.distance i, some i)
      · refine .inr ⟨i,same,taken.2,taken.1,List.forall_mem_cons.mpr ⟨fun _ => ⟨Int.le_refl _,by omega⟩,?_⟩⟩
        intro v member waits
        exact ⟨rest v member waits,fun lower => absurd (above v member) (by omega)⟩
      · exact .inr ⟨w,found,waits,Int.lt_trans below taken.1,
          List.forall_mem_cons.mpr ⟨fun _ => ⟨Int.le_of_lt below,fun _ => below⟩,rest⟩⟩
    · have step : scanStep s best i = best := if_neg taken
      have passed : s.visited i = false → best.1 ≤ s.distance i := fun waits => Int.not_lt.mp fun lt => taken ⟨lt,waits⟩
      rw [step]
      obtain ⟨same,rest⟩ | ⟨w,found,waits,below,rest⟩ := ih upward best
      · exact .inl ⟨same,List.forall_mem_cons.mpr ⟨passed,rest⟩⟩
      · refine .inr ⟨w,found,waits,below,List.forall_mem_cons.mpr ⟨fun unseen => ?_,rest⟩⟩
        have nearer := Int.lt_of_lt_of_le below (passed unseen)
        exact ⟨Int.le_of_lt nearer,fun _ => nearer⟩

theorem scan_cases {n : Nat} (s : State n) :
    (scan s = (infinity, s.nextnode) ∧ Exhausted s) ∨ ∃ w, scan s = (s.distance w, some w) ∧ Nearest s w := by
  obtain ⟨same,rest⟩ | ⟨w,found,waits,below,rest⟩ := scan_fold s (List.pairwise_lt_finRange n) (infinity, s.nextnode)
  · exact .inl ⟨same,fun v => rest v (List.mem_finRange v)⟩
  · exact .inr ⟨w,found,waits,below,fun v h => (rest v (List.mem_finRange v) h).1,fun v h => (rest v (List.mem_finRange v) h).2⟩

def Fits (x : Int) : Prop := intMin ≤ x ∧ x ≤ intMax

theorem relaxStep_cases (p : Problem) (m : Int) (w : Fin p.n) (s : State p.n) (i : Fin p.n) :
    (relaxStep p m w s i = .error .overflow ∧ s.visited i = false ∧ ¬Fits (m + cost p w i)) ∨
      (relaxStep p m w s i = .ok { s with
        distance := Function.update s.distance i (relax (cost p) s.visited w m s.distance i)
        pred := Function.update s.pred i (reparent (cost p) s.visited w m s.distance s.pred i) } ∧
        (s.visited i = false → Fits (m + cost p w i))) := by
  cases visited : s.visited i with
  | true =>
    right
    simp [relaxStep,visited,relax,reparent]
  | false =>
    by_cases fits : Fits (m + cost p w i)
    · refine .inr ⟨?_,fun _ => fits⟩
      have sum : addInt m (cost p w i) = .ok (m + cost p w i) := if_pos fits
      by_cases better : m + cost p w i < s.distance i <;>
        simp [relaxStep,visited,relax,reparent,sum,better,bind,Except.bind,pure,Except.pure]
    · left
      have sum : addInt m (cost p w i) = .error .overflow := if_neg fits
      exact ⟨by simp [relaxStep,visited,sum,bind,Except.bind],rfl,fits⟩

/-- The look along the edges, as far as the vertices of a list go. -/
def relaxedOn (p : Problem) (m : Int) (w : Fin p.n) (s : State p.n) (xs : List (Fin p.n)) : State p.n :=
  { s with
    distance := fun v => if v ∈ xs then relax (cost p) s.visited w m s.distance v else s.distance v
    pred := fun v => if v ∈ xs then reparent (cost p) s.visited w m s.distance s.pred v else s.pred v }

theorem relax_fold (p : Problem) (m : Int) (w : Fin p.n) (s : State p.n) {xs : List (Fin p.n)} (nodup : xs.Nodup) :
    (xs.foldlM (relaxStep p m w) s = .error .overflow ∧ ∃ i, s.visited i = false ∧ ¬Fits (m + cost p w i)) ∨
      (xs.foldlM (relaxStep p m w) s = .ok (relaxedOn p m w s xs) ∧
        ∀ i ∈ xs, s.visited i = false → Fits (m + cost p w i)) := by
  induction xs generalizing s with
  | nil => exact .inr (by simp [relaxedOn,pure,Except.pure])
  | cons i xs ih =>
    obtain ⟨once,rest⟩ := List.nodup_cons.mp nodup
    rw [List.foldlM_cons]
    obtain ⟨stopped,large⟩ | ⟨step,fits⟩ := relaxStep_cases p m w s i
    · exact .inl ⟨by rw [stopped]; rfl,i,large⟩
    · rw [step]
      obtain ⟨stopped,large⟩ | ⟨all,others⟩ := ih _ rest
      · exact .inl ⟨stopped,large⟩
      · refine .inr ⟨all.trans (congrArg Except.ok ?_),List.forall_mem_cons.mpr ⟨fits,others⟩⟩
        simp only [relaxedOn,relax,reparent,State.mk.injEq,and_true]
        refine ⟨funext fun v => ?_,funext fun v => ?_⟩ <;> by_cases here : v = i
        · subst here
          simp [once]
        · simp [here]
        · subst here
          simp [once]
        · simp [here]

/-- The state after a round that looked along the edges of `w`, itself at `m`. -/
def after (p : Problem) (s : State p.n) (w : Fin p.n) (m : Int) : State p.n where
  distance := relax (cost p) (Function.update s.visited w true) w m s.distance
  pred := reparent (cost p) (Function.update s.visited w true) w m s.distance s.pred
  visited := Function.update s.visited w true
  count := s.count + 1
  nextnode := some w

theorem relaxAll_cases (p : Problem) (m : Int) (w : Fin p.n) (s : State p.n) :
    (relaxAll p m w s = .error .overflow ∧ ∃ i, s.visited i = false ∧ ¬Fits (m + cost p w i)) ∨
      (relaxAll p m w s = .ok { s with
        distance := relax (cost p) s.visited w m s.distance
        pred := reparent (cost p) s.visited w m s.distance s.pred } ∧
        ∀ i, s.visited i = false → Fits (m + cost p w i)) := by
  have all := relax_fold p m w s (List.nodup_finRange p.n)
  simpa [relaxAll,relaxedOn] using all

theorem round_cases (p : Problem) (s : State p.n) :
    (round p s = .error .unassigned ∧ Exhausted s ∧ s.nextnode = none) ∨
      ∃ w m, ((Nearest s w ∧ m = s.distance w) ∨ (Exhausted s ∧ s.nextnode = some w ∧ m = infinity)) ∧
        ((round p s = .error .overflow ∧ ∃ i, (after p s w m).visited i = false ∧ ¬Fits (m + cost p w i)) ∨
          (round p s = .ok (after p s w m) ∧ ∀ i, (after p s w m).visited i = false → Fits (m + cost p w i))) := by
  have looked (w : Fin p.n) (m : Int) (chosen : scan s = (m, some w)) :
      (round p s = .error .overflow ∧ ∃ i, (after p s w m).visited i = false ∧ ¬Fits (m + cost p w i)) ∨
        (round p s = .ok (after p s w m) ∧ ∀ i, (after p s w m).visited i = false → Fits (m + cost p w i)) := by
    simp only [round,chosen]
    obtain ⟨stopped,large⟩ | ⟨all,fits⟩ := relaxAll_cases p m w
      { s with visited := Function.update s.visited w true, nextnode := some w }
    · exact .inl ⟨by rw [stopped]; rfl,large⟩
    · exact .inr ⟨by rw [all]; rfl,fits⟩
  obtain ⟨vain,exhausted⟩ | ⟨w,found,nearest⟩ := scan_cases s
  · cases next : s.nextnode with
    | none =>
      rw [next] at vain
      exact .inl ⟨by rw [round,vain],exhausted,rfl⟩
    | some w => exact .inr ⟨w,infinity,.inr ⟨exhausted,rfl,rfl⟩,looked w infinity (next ▸ vain)⟩
  · exact .inr ⟨w,s.distance w,.inl ⟨nearest,rfl⟩,looked w _ found⟩

theorem loopBody_next {p : Problem} {s s' : State p.n} (h : loopBody p s = .next s') :
    s.count + 1 < p.n ∧ round p s = .ok s' := by
  unfold loopBody at h
  split at h
  · rename_i more
    refine ⟨more,?_⟩
    split at h
    · rename_i ok
      cases h
      exact ok
    · cases h
  · cases h

theorem round_ok {p : Problem} {s s' : State p.n} (h : round p s = .ok s') :
    ∃ w m, ((Nearest s w ∧ m = s.distance w) ∨ (Exhausted s ∧ s.nextnode = some w ∧ m = infinity)) ∧
      s' = after p s w m ∧ ∀ i, s'.visited i = false → Fits (m + cost p w i) := by
  obtain ⟨stopped,-⟩ | ⟨w,m,chosen,⟨stopped,-⟩ | ⟨all,fits⟩⟩ := round_cases p s
  · rw [stopped] at h
    cases h
  · rw [stopped] at h
    cases h
  · rw [all] at h
    cases h
    exact ⟨w,m,chosen,rfl,fits⟩

theorem round_error {p : Problem} {s : State p.n} {e : Undefined} (h : round p s = .error e) :
    e = .overflow ∨ (e = .unassigned ∧ Exhausted s ∧ s.nextnode = none) := by
  obtain ⟨stopped,vain⟩ | ⟨w,m,-,⟨stopped,-⟩ | ⟨ok,-⟩⟩ := round_cases p s
  · rw [stopped] at h
    cases h
    exact .inr ⟨rfl,vain⟩
  · rw [stopped] at h
    cases h
    exact .inl rfl
  · rw [ok] at h
    cases h

def loopVariant (p : Problem) : Variant (loopBody p) where
  measure s := p.n - s.count
  decreases s s' h := by
    obtain ⟨more,ok⟩ := loopBody_next h
    obtain ⟨w,m,-,rfl,-⟩ := round_ok ok
    simp only [after]
    omega

/-- The arrays when the main loop ends. -/
def settleAll (p : Problem) : Except Undefined (State p.n) := run (loopVariant p) (initial p)

/-- The body of the loop that prints a path, with what it has printed. -/
def pathBody (p : Problem) (s : State p.n) (walk : Fin p.n × List (Fin p.n)) :
    Flow (Fin p.n × List (Fin p.n)) (List (Fin p.n)) :=
  let j := s.pred walk.1
  if j = p.startnode then .ret (walk.2 ++ [j]) else .next (j, walk.2 ++ [j])

def printPath (p : Problem) (s : State p.n) (fuel : Nat) (i : Fin p.n) : Option (List (Fin p.n)) :=
  iterate (pathBody p s) fuel (i, [])

structure Entry (n : Nat) where
  node : Fin n
  distance : Int
  path : List (Fin n)

def Entry.text {n : Nat} (entry : Entry n) : String :=
  "\nDistance of node" ++ toString entry.node ++ "=" ++ toString entry.distance ++ "\nPath=" ++ toString entry.node
    ++ String.join (entry.path.map fun j => "<-" ++ toString j)

/-- Nothing while the fuel does not suffice for one of the paths. -/
def printAll (p : Problem) (s : State p.n) (fuel : Nat) : Option (List (Entry p.n)) :=
  ((List.finRange p.n).filter (· ≠ p.startnode)).mapM fun i => do
    let path ← printPath p s fuel i
    return ⟨i, s.distance i, path⟩

def dijkstra (p : Problem) (fuel : Nat) : Except Undefined (Option (List (Entry p.n))) := do
  let s ← settleAll p
  return printAll p s fuel

def Problem.Edge (p : Problem) (i j : Fin p.n) : Prop := p.weight i j ≠ 0

/-- There is a path from the start of this total weight. -/
def Problem.PathTo (p : Problem) (v : Fin p.n) (total : Int) : Prop := Route p.Edge p.weight p.startnode v total

theorem cost_of_edge {p : Problem} {i j : Fin p.n} (edge : p.Edge i j) : cost p i j = p.weight i j := if_neg edge

theorem pathTo_iff {p : Problem} {v : Fin p.n} {total : Int} :
    p.PathTo v total ↔ Route p.Edge (cost p) p.startnode v total := by
  constructor
  · exact Route.congr fun _ _ edge => (cost_of_edge edge).symm
  · exact Route.congr fun _ _ edge => cost_of_edge edge

theorem priced {p : Problem} (nonneg : ∀ i j, 0 ≤ p.weight i j) : Priced p.Edge (cost p) infinity where
  nonneg i j := by
    unfold cost
    split
    · decide
    · exact nonneg i j
  missing i j none := by
    rw [cost,if_pos (not_not.mp none)]
  positive := by decide

theorem cost_positive {p : Problem} (nonneg : ∀ i j, 0 ≤ p.weight i j) (i j : Fin p.n) (edge : p.Edge i j) : 0 < cost p i j := by
  rw [cost_of_edge edge]
  exact Int.lt_iff_le_and_ne.mpr ⟨nonneg i j,Ne.symm edge⟩

/-- The vertex is below the limit, and this far. -/
def Problem.Near (p : Problem) (v : Fin p.n) (d : Int) : Prop := d < infinity ∧ IsLeast {total | p.PathTo v total} d

/-- A vertex below the limit, nearer than the other or as near and of a smaller number. -/
def Problem.Before (p : Problem) (u v : Fin p.n) : Prop :=
  ∃ d, p.Near u d ∧ ∀ e, p.Near v e → d < e ∨ (d = e ∧ u < v)

/-- Some vertex below the limit and one behind it have a sum too large between them: that of the distance and the
weight, or, if two vertices or more are not below the limit and the first one is the last of those that are, that
of the limit and the weight. -/
def Problem.Overflows (p : Problem) : Prop :=
  ∃ v i, v ≠ p.startnode ∧ p.Before v i ∧
    ((∃ d, p.Near v d ∧ intMax < d + cost p v i) ∨
      ((∀ u d, p.Near u d → u = v ∨ p.Before u v) ∧ (∀ d, ¬p.Near i d) ∧ (∃ j, j ≠ i ∧ ∀ d, ¬p.Near j d) ∧
        intMax < infinity + cost p v i))

theorem Problem.Near.unique {p : Problem} {v : Fin p.n} {d e : Int} (h : p.Near v d) (h' : p.Near v e) : d = e :=
  h.2.unique h'.2

theorem Problem.Before.asymm {p : Problem} {u v : Fin p.n} (h : p.Before u v) (h' : p.Before v u) : False := by
  obtain ⟨d,near,before⟩ := h
  obtain ⟨e,near',before'⟩ := h'
  have := before e near'
  have := before' d near
  omega

/-- How many vertices wait. -/
def waiting {n : Nat} (visited : Fin n → Bool) : Nat := (Finset.univ.filter fun v => visited v = false).card

theorem waiting_update {n : Nat} {visited : Fin n → Bool} {w : Fin n} (waits : visited w = false) :
    waiting (Function.update visited w true) + 1 = waiting visited := by
  have rest : (Finset.univ.filter fun v => Function.update visited w true v = false)
      = (Finset.univ.filter fun v => visited v = false).erase w := by
    ext v
    by_cases here : v = w <;> simp [here]
  have mem : w ∈ Finset.univ.filter fun v => visited v = false := by simp [waits]
  rw [waiting,rest,Finset.card_erase_of_mem mem,waiting]
  exact Nat.sub_add_cancel (Finset.card_pos.mpr ⟨w,mem⟩)

/-- A scan has found nothing any more: the vertex of the round before has been looked along again. -/
structure Stale (p : Problem) (s : State p.n) : Prop where
  exhausted : Exhausted s
  past : p.n < s.count + waiting s.visited
  checked : ∃ w, s.nextnode = some w ∧ ∀ i, s.visited i = false → Fits (infinity + cost p w i)

/-- The invariant of the main loop; a vertex is settled each round until none waits below the limit, and the sums
that have been made fit. -/
structure Underway (p : Problem) (s : State p.n) : Prop where
  settled : Standing p.Edge (cost p) p.startnode infinity s.visited s.distance s.pred
  ranked : Ranked p.Edge (cost p) p.startnode s.visited s.distance
  last : ∀ w, s.nextnode = some w → s.visited w = true ∧ w ≠ p.startnode ∧ ∀ u, s.visited u = true → u = w ∨ p.Before u w
  counted : s.count + waiting s.visited = p.n ∨ Stale p s
  checked : ∀ v, s.visited v = true → v ≠ p.startnode → ∀ i, p.Before v i → Fits (s.distance v + cost p v i)

theorem initial_counted (p : Problem) : (initial p).count + waiting (initial p).visited = p.n := by
  have all : waiting (fun _ : Fin p.n => false) = p.n := by simp [waiting]
  have first : waiting (initial p).visited + 1 = waiting (fun _ : Fin p.n => false) := waiting_update rfl
  have one : (initial p).count = 1 := rfl
  omega

theorem initial_visited {p : Problem} {v : Fin p.n} (h : (initial p).visited v = true) : v = p.startnode := by
  by_contra other
  simp [initial,other] at h

theorem initial_underway {p : Problem} (nonneg : ∀ i j, 0 ≤ p.weight i j) : Underway p (initial p) where
  settled := .start (priced nonneg) p.startnode
  ranked := .start (priced nonneg) (cost_positive nonneg)
  last := by simp [initial]
  counted := .inl (initial_counted p)
  checked v h other := absurd (initial_visited h) other

section Standing
variable {p : Problem} {s : State p.n}

theorem near_of_visited (nonneg : ∀ i j, 0 ≤ p.weight i j)
    (settled : Standing p.Edge (cost p) p.startnode infinity s.visited s.distance s.pred) {v : Fin p.n}
    (h : s.visited v = true) : p.Near v (s.distance v) := by
  refine ⟨settled.below v h,pathTo_iff.mpr (settled.route v (settled.below v h)),fun total path => ?_⟩
  exact settled.done_le (priced nonneg) h (pathTo_iff.mp path)

theorem before_of_visited (nonneg : ∀ i j, 0 ≤ p.weight i j)
    (settled : Standing p.Edge (cost p) p.startnode infinity s.visited s.distance s.pred)
    (ranked : Ranked p.Edge (cost p) p.startnode s.visited s.distance) {u v : Fin p.n} (hu : s.visited u = true)
    (hv : s.visited v = false) : p.Before u v :=
  ⟨s.distance u,near_of_visited nonneg settled hu,fun e near => ranked u hu v hv e (pathTo_iff.mp near.2.1)⟩

theorem visited_of_near (nonneg : ∀ i j, 0 ≤ p.weight i j)
    (settled : Standing p.Edge (cost p) p.startnode infinity s.visited s.distance s.pred) (exhausted : Exhausted s)
    {v : Fin p.n} {total : Int} (path : p.PathTo v total) (cheap : total < infinity) : s.visited v = true := by
  obtain ⟨done,-⟩ | ⟨w,waits,le⟩ := settled.frontier (priced nonneg) (pathTo_iff.mp path)
  · exact done
  · exact absurd (Int.lt_of_le_of_lt le cheap) (Int.not_lt.mpr (exhausted w waits))

end Standing

section Loop
variable {p : Problem} {s s' : State p.n}

theorem after_visited {w v : Fin p.n} {m : Int} : (after p s w m).visited v = true ↔ v = w ∨ s.visited v = true := by
  by_cases here : v = w <;> simp [after,here]

theorem after_distance {w v : Fin p.n} {m : Int} (h : (after p s w m).visited v = true) :
    (after p s w m).distance v = s.distance v := relax_done h

theorem Underway.counted_after (underway : Underway p s) {w : Fin p.n} (nearest : Nearest s w) :
    (after p s w (s.distance w)).count + waiting (after p s w (s.distance w)).visited = p.n := by
  have fewer : waiting (after p s w (s.distance w)).visited + 1 = waiting s.visited := waiting_update nearest.waits
  obtain counted | stale := underway.counted
  · have more : (after p s w (s.distance w)).count = s.count + 1 := rfl
    omega
  · exact absurd nearest.below (Int.not_lt.mpr (stale.exhausted w nearest.waits))

theorem Underway.settled_after (nonneg : ∀ i j, 0 ≤ p.weight i j) (underway : Underway p s) {w : Fin p.n} (nearest : Nearest s w) :
    Standing p.Edge (cost p) p.startnode infinity (after p s w (s.distance w)).visited (after p s w (s.distance w)).distance
        (after p s w (s.distance w)).pred ∧
      Ranked p.Edge (cost p) p.startnode (after p s w (s.distance w)).visited (after p s w (s.distance w)).distance :=
  ⟨underway.settled.settle (priced nonneg) nearest.waits nearest.below nearest.least,
    underway.ranked.settle underway.settled (priced nonneg) (cost_positive nonneg) nearest.waits nearest.least nearest.first⟩

theorem Nearest.ne_start (underway : Underway p s) {w : Fin p.n} (nearest : Nearest s w) : w ≠ p.startnode := by
  rintro rfl
  have waits := nearest.waits
  rw [underway.settled.root_done] at waits
  cases waits

theorem Underway.round_nearest (nonneg : ∀ i j, 0 ≤ p.weight i j) (underway : Underway p s) {w : Fin p.n} (nearest : Nearest s w)
    (fits : ∀ i, (after p s w (s.distance w)).visited i = false → Fits (s.distance w + cost p w i)) :
    Underway p (after p s w (s.distance w)) := by
  obtain ⟨settled,ranked⟩ := underway.settled_after nonneg nearest
  have earlier {u : Fin p.n} (h : s.visited u = true) : p.Before u w :=
    before_of_visited nonneg underway.settled underway.ranked h nearest.waits
  refine ⟨settled,ranked,?_,.inl (underway.counted_after nearest),?_⟩
  · rintro v ⟨⟩
    exact ⟨after_visited.mpr (.inl rfl),nearest.ne_start underway,fun u h => (after_visited.mp h).imp_right earlier⟩
  · intro v h other i before
    rw [after_distance h]
    obtain rfl | old := after_visited.mp h
    · refine fits i (Bool.eq_false_iff.mpr fun hi => ?_)
      obtain rfl | seen := after_visited.mp hi
      · exact before.asymm before
      · exact before.asymm (earlier seen)
    · exact underway.checked v old other i before

theorem Underway.round_stale (nonneg : ∀ i j, 0 ≤ p.weight i j) (underway : Underway p s) {w : Fin p.n} (exhausted : Exhausted s)
    (last : s.nextnode = some w) (fits : ∀ i, (after p s w infinity).visited i = false → Fits (infinity + cost p w i)) :
    Underway p (after p s w infinity) := by
  have old := (underway.last w last).1
  have same : (after p s w infinity).visited = s.visited := Function.update_eq_self_iff.mpr old.symm
  obtain ⟨settled,still⟩ := underway.settled.stale (priced nonneg) old exhausted
  have ranked := underway.ranked.stale w infinity
  have distance : (after p s w infinity).distance = relax (cost p) s.visited w infinity s.distance := by rw [← same]; rfl
  have pred : (after p s w infinity).pred = reparent (cost p) s.visited w infinity s.distance s.pred := by rw [← same]; rfl
  refine ⟨by rwa [same,distance,pred],by rwa [same,distance],?_,.inr ⟨?_,?_,w,rfl,fits⟩,?_⟩
  · rintro v ⟨⟩
    rw [same]
    exact underway.last w last
  · rw [Exhausted,same,distance]
    exact still
  · have more : (after p s w infinity).count = s.count + 1 := rfl
    rw [same,more]
    obtain counted | stale := underway.counted
    · omega
    · have := stale.past
      omega
  · intro v h
    rw [after_distance h]
    rw [same] at h
    exact underway.checked v h

theorem Underway.round (nonneg : ∀ i j, 0 ≤ p.weight i j) (underway : Underway p s) (ok : round p s = .ok s') :
    Underway p s' := by
  obtain ⟨w,m,⟨nearest,rfl⟩ | ⟨exhausted,last,rfl⟩,rfl,fits⟩ := round_ok ok
  · exact underway.round_nearest nonneg nearest fits
  · exact underway.round_stale nonneg exhausted last fits

theorem Underway.visits (nonneg : ∀ i j, 0 ≤ p.weight i j) (path : Visits (loopBody p) (initial p) s) : Underway p s :=
  path.invariant (Underway p) (fun _ _ underway next => underway.round nonneg (loopBody_next next).2)
    (initial_underway nonneg)

theorem settleAll_cases (p : Problem) : ∃ s, Visits (loopBody p) (initial p) s ∧
    ((p.n ≤ s.count + 1 ∧ settleAll p = .ok s) ∨
      ∃ e, s.count + 1 < p.n ∧ round p s = .error e ∧ settleAll p = .error e) := by
  obtain ⟨s,path,leaves⟩ := run_visits (loopVariant p) (initial p)
  refine ⟨s,path,?_⟩
  unfold loopBody at leaves
  split at leaves
  · rename_i more
    split at leaves
    · cases leaves
    · rename_i e stopped
      exact .inr ⟨e,more,stopped,(Flow.ret.inj leaves).symm⟩
  · rename_i done
    exact .inl ⟨Nat.le_of_not_lt done,(Flow.ret.inj leaves).symm⟩

theorem Underway.enough (underway : Underway p s) (done : p.n ≤ s.count + 1) :
    ∀ u, s.visited u = false → s.distance u < infinity → ∀ v, v = u ∨ s.visited v = true := by
  intro u hu below v
  obtain counted | stale := underway.counted
  · have one : waiting s.visited ≤ 1 := by omega
    cases hv : s.visited v with
    | true => exact .inr rfl
    | false => exact .inl (Finset.card_le_one.mp one v (by simp [hv]) u (by simp [hu]))
  · exact absurd below (Int.not_lt.mpr (stale.exhausted u hu))

theorem Underway.distance_le (nonneg : ∀ i j, 0 ≤ p.weight i j) (underway : Underway p s) (done : p.n ≤ s.count + 1)
    {v : Fin p.n} {total : Int} (path : p.PathTo v total) (cheap : total < infinity) : s.distance v ≤ total :=
  underway.settled.le_route (priced nonneg) (underway.enough done) (pathTo_iff.mp path) cheap

theorem Underway.distance_lt_iff (nonneg : ∀ i j, 0 ≤ p.weight i j) (underway : Underway p s) (done : p.n ≤ s.count + 1)
    (v : Fin p.n) : s.distance v < infinity ↔ ∃ total < infinity, p.PathTo v total := by
  constructor
  · intro below
    exact ⟨_,below,pathTo_iff.mpr (underway.settled.route v below)⟩
  · rintro ⟨total,cheap,path⟩
    exact Int.lt_of_le_of_lt (underway.distance_le nonneg done path cheap) cheap

/-- The weights along a path told backwards. -/
def Problem.backward (p : Problem) : List (Fin p.n) → Int
  | b :: a :: rest => p.weight a b + p.backward (a :: rest)
  | _ => 0

/-- A path from the start told backwards, along edges whose weights come to the total. -/
structure TracesBack (p : Problem) (v : Fin p.n) (path : List (Fin p.n)) (total : Int) : Prop where
  ends : path.getLast? = some p.startnode
  edges : (v :: path).IsChain fun b a => p.Edge a b
  sum : p.backward (v :: path) = total

theorem TracesBack.cons {v u : Fin p.n} {path : List (Fin p.n)} {total : Int} (edge : p.Edge u v)
    (rest : TracesBack p u path total) : TracesBack p v (u :: path) (total + p.weight u v) where
  ends := by
    rw [List.getLast?_cons,rest.ends]
    rfl
  edges := List.isChain_cons_cons.mpr ⟨edge,rest.edges⟩
  sum := by rw [Problem.backward,rest.sum,Int.add_comm]

theorem Underway.path_traces (nonneg : ∀ i j, 0 ≤ p.weight i j) (underway : Underway p s) {v : Fin p.n}
    (other : v ≠ p.startnode) (below : s.distance v < infinity) {fuel : Nat} (enough : (s.distance v).toNat < fuel)
    (printed : List (Fin p.n)) :
    ∃ path, iterate (pathBody p s) fuel (v, printed) = some (printed ++ path) ∧ TracesBack p v path (s.distance v) := by
  induction fuel generalizing v printed with
  | zero => omega
  | succ fuel ih =>
    obtain ⟨edge,sum⟩ := underway.settled.last v other below
    rw [cost_of_edge edge] at sum
    have parent := underway.settled.parent v
    by_cases first : s.pred v = p.startnode
    · have body : pathBody p s (v, printed) = .ret (printed ++ [s.pred v]) := if_pos first
      refine ⟨[s.pred v],by rw [iterate,body],⟨by rw [first]; rfl,by simpa using edge,?_⟩⟩
      rw [sum,first,underway.settled.root_zero]
      simp [Problem.backward]
    · have body : pathBody p s (v, printed) = .next (s.pred v, printed ++ [s.pred v]) := if_neg first
      have positive : 0 < p.weight (s.pred v) v := Int.lt_iff_le_and_ne.mpr ⟨nonneg _ _,Ne.symm edge⟩
      have before := underway.settled.below _ parent
      have low := (underway.settled.route _ before).nonneg (priced nonneg)
      obtain ⟨path,rest,traces⟩ := ih first before (by omega) (printed ++ [s.pred v])
      refine ⟨s.pred v :: path,?_,sum ▸ traces.cons edge⟩
      rw [iterate,body]
      simpa using rest

end Loop

section Reachable
variable {p : Problem} {s : State p.n}

theorem Nearest.exists_scan {n : Nat} {s : State n} (left : ¬Exhausted s) :
    ∃ w, scan s = (s.distance w, some w) ∧ Nearest s w := by
  obtain ⟨-,exhausted⟩ | found := scan_cases s
  · exact absurd exhausted left
  · exact found

theorem Underway.not_exhausted (nonneg : ∀ i j, 0 ≤ p.weight i j) (reachable : ∀ v, ∃ total < infinity, p.PathTo v total)
    (underway : Underway p s) (counted : s.count + waiting s.visited = p.n) (more : s.count + 1 < p.n) : ¬Exhausted s := by
  intro exhausted
  have left : 0 < waiting s.visited := by omega
  obtain ⟨v,mem⟩ := Finset.card_pos.mp left
  have waits : s.visited v = false := by simpa using mem
  obtain ⟨total,cheap,path⟩ := reachable v
  have settled := visited_of_near nonneg underway.settled exhausted path cheap
  rw [waits] at settled
  cases settled

theorem counted_visits (nonneg : ∀ i j, 0 ≤ p.weight i j) (reachable : ∀ v, ∃ total < infinity, p.PathTo v total)
    (path : Visits (loopBody p) (initial p) s) : Underway p s ∧ s.count + waiting s.visited = p.n := by
  refine path.invariant (fun s => Underway p s ∧ s.count + waiting s.visited = p.n) ?_
    ⟨initial_underway nonneg,initial_counted p⟩
  rintro s s' ⟨underway,counted⟩ next
  obtain ⟨more,ok⟩ := loopBody_next next
  refine ⟨underway.round nonneg ok,?_⟩
  obtain ⟨w,m,⟨nearest,rfl⟩ | ⟨exhausted,-⟩,rfl,-⟩ := round_ok ok
  · exact underway.counted_after nearest
  · exact absurd exhausted (underway.not_exhausted nonneg reachable counted more)

theorem not_overflows (bounded : ∀ i j, p.weight i j ≤ intMax - infinity) : ¬p.Overflows := by
  have cost_le (w i : Fin p.n) : cost p w i ≤ intMax - infinity := by
    unfold cost
    split
    · decide
    · exact bounded w i
  rintro ⟨v,i,-,-,⟨d,near,large⟩ | ⟨-,-,-,large⟩⟩
  · have := cost_le v i
    have := near.1
    omega
  · have := cost_le v i
    omega

theorem large_of_not_fits (nonneg : ∀ i j, 0 ≤ p.weight i j) {m : Int} (low : 0 ≤ m) {w i : Fin p.n} (h : ¬Fits (m + cost p w i)) :
    intMax < m + cost p w i := by
  have cost_nonneg := (priced nonneg).nonneg w i
  have : intMin ≤ 0 := by decide
  unfold Fits at h
  omega

theorem not_near_of_waiting (nonneg : ∀ i j, 0 ≤ p.weight i j) (underway : Underway p s) (exhausted : Exhausted s) {v : Fin p.n}
    (waits : s.visited v = false) (d : Int) : ¬p.Near v d := by
  intro near
  rw [visited_of_near nonneg underway.settled exhausted near.2.1 near.1] at waits
  cases waits

theorem Underway.overflows (nonneg : ∀ i j, 0 ≤ p.weight i j) (underway : Underway p s) (more : s.count + 1 < p.n)
    (stopped : Sssp.round p s = .error .overflow) : p.Overflows := by
  obtain ⟨other,-⟩ | ⟨w,m,chosen,⟨-,i,unseen,large⟩ | ⟨ok,-⟩⟩ := round_cases p s
  · rw [other] at stopped
    cases stopped
  · obtain ⟨nearest,rfl⟩ | ⟨exhausted,last,rfl⟩ := chosen
    · obtain ⟨settled,ranked⟩ := underway.settled_after nonneg nearest
      have now : (after p s w (s.distance w)).visited w = true := after_visited.mpr (.inl rfl)
      have near := near_of_visited nonneg settled now
      rw [after_distance now] at near
      exact ⟨w,i,nearest.ne_start underway,before_of_visited nonneg settled ranked now unseen,
        .inl ⟨_,near,large_of_not_fits nonneg (underway.settled.nonneg nearest.waits) large⟩⟩
    · obtain ⟨old,other,latest⟩ := underway.last w last
      have waits : s.visited i = false := Bool.eq_false_iff.mpr fun seen =>
        Bool.eq_false_iff.mp unseen (after_visited.mpr (.inr seen))
      have two : 1 < waiting s.visited := by
        obtain counted | stale := underway.counted
        · omega
        · have := stale.past
          omega
      obtain ⟨j,member,apart⟩ := Finset.exists_mem_ne two i
      refine ⟨w,i,other,before_of_visited nonneg underway.settled underway.ranked old waits,.inr ⟨fun u d near => ?_,
        not_near_of_waiting nonneg underway exhausted waits,
        ⟨j,apart,not_near_of_waiting nonneg underway exhausted (by simpa using member)⟩,
        large_of_not_fits nonneg (by decide) large⟩⟩
      exact latest u (visited_of_near nonneg underway.settled exhausted near.2.1 near.1)
  · rw [ok] at stopped
    cases stopped

theorem Underway.visited_of_before (nonneg : ∀ i j, 0 ≤ p.weight i j) (underway : Underway p s) (done : p.n ≤ s.count + 1)
    {v i : Fin p.n} (before : p.Before v i) : s.visited v = true := by
  obtain ⟨d,near,-⟩ := id before
  cases hv : s.visited v with
  | true => rfl
  | false =>
    have below := (underway.distance_lt_iff nonneg done v).mpr ⟨d,near.1,near.2.1⟩
    obtain rfl | seen := underway.enough done v hv below i
    · exact absurd before fun h => h.asymm h
    · exact absurd before fun h => h.asymm (before_of_visited nonneg underway.settled underway.ranked seen hv)

theorem unvisited_of_not_near (nonneg : ∀ i j, 0 ≤ p.weight i j) (underway : Underway p s) {v : Fin p.n}
    (far : ∀ d, ¬p.Near v d) : s.visited v = false :=
  Bool.eq_false_iff.mpr fun seen => far _ (near_of_visited nonneg underway.settled seen)

theorem Underway.not_overflows (nonneg : ∀ i j, 0 ≤ p.weight i j) (underway : Underway p s) (done : p.n ≤ s.count + 1) :
    ¬p.Overflows := by
  rintro ⟨v,i,other,before,⟨d,near,large⟩ | ⟨latest,far,⟨j,apart,far'⟩,large⟩⟩
  · have seen := underway.visited_of_before nonneg done before
    have fits := underway.checked v seen other i before
    rw [(near_of_visited nonneg underway.settled seen).unique near] at fits
    exact absurd fits.2 (Int.not_le.mpr large)
  · have seen := underway.visited_of_before nonneg done before
    have waits := unvisited_of_not_near nonneg underway far
    have two : 1 < waiting s.visited := Finset.one_lt_card.mpr
      ⟨i,by simp [waits],j,by simp [unvisited_of_not_near nonneg underway far'],apart.symm⟩
    obtain counted | stale := underway.counted
    · omega
    · obtain ⟨w,last,fits⟩ := stale.checked
      obtain ⟨old,-,before_last⟩ := underway.last w last
      have same : w = v := by
        obtain here | lower := latest w _ (near_of_visited nonneg underway.settled old)
        · exact here
        · obtain here | upper := before_last v seen
          · exact here.symm
          · exact (upper.asymm lower).elim
      rw [same] at fits
      exact absurd (fits i waits).2 (Int.not_le.mpr large)

end Reachable

/-- The scan of a round finds a vertex. -/
def Finds {n : Nat} (s : State n) : Prop :=
  ∃ w, scan s = (s.distance w, some w) ∧ s.visited w = false ∧ s.distance w < infinity

theorem dijkstra_shortest (p : Problem) (nonneg : ∀ i j, 0 ≤ p.weight i j)
    (bounded : ∀ i j, p.weight i j ≤ intMax - infinity) (reachable : ∀ v, ∃ total < infinity, p.PathTo v total) :
    (∀ s, Visits (loopBody p) (initial p) s → s.count + 1 < p.n → Finds s) ∧
      ∃ s, settleAll p = .ok s ∧ (∀ v, IsLeast {total | p.PathTo v total} (s.distance v)) ∧
        ∀ v, v ≠ p.startnode →
          ∃ path, (∃ fuel, printPath p s fuel v = some path) ∧ TracesBack p v path (s.distance v) := by
  have going {s : State p.n} (path : Visits (loopBody p) (initial p) s) (more : s.count + 1 < p.n) : ¬Exhausted s := by
    obtain ⟨underway,counted⟩ := counted_visits nonneg reachable path
    exact underway.not_exhausted nonneg reachable counted more
  refine ⟨fun s path more => ?_,?_⟩
  · obtain ⟨w,found,nearest⟩ := Nearest.exists_scan (going path more)
    exact ⟨w,found,nearest.waits,nearest.below⟩
  · obtain ⟨s,path,⟨done,ended⟩ | ⟨e,more,stopped,-⟩⟩ := settleAll_cases p
    · have underway := Underway.visits nonneg path
      have below (v : Fin p.n) : s.distance v < infinity := (underway.distance_lt_iff nonneg done v).mpr (reachable v)
      refine ⟨s,ended,fun v => ⟨pathTo_iff.mpr (underway.settled.route v (below v)),fun total route => ?_⟩,?_⟩
      · by_cases cheap : total < infinity
        · exact underway.distance_le nonneg done route cheap
        · exact (Int.le_of_lt (below v)).trans (Int.not_lt.mp cheap)
      · intro v other
        obtain ⟨path,printed,traces⟩ := underway.path_traces nonneg other (below v) (Nat.lt_succ_self _) []
        exact ⟨path,⟨_,printed⟩,traces⟩
    · obtain rfl | ⟨-,exhausted,-⟩ := round_error stopped
      · exact absurd ((Underway.visits nonneg path).overflows nonneg more stopped) (not_overflows bounded)
      · exact absurd exhausted (going path more)

/-- Three vertices in a row, searched from the first. -/
def rowOfThree : Problem where
  n := 3
  small := by decide
  G := fun i j => if i.val + 1 = j.val then 7 else 0
  startnode := 0

theorem dijkstra_shortest_row :
    ∃ s, settleAll rowOfThree = .ok s ∧ IsLeast {total | rowOfThree.PathTo (2 : Fin 3) total} (s.distance (2 : Fin 3)) := by
  have edge : (7 : Int) ≠ 0 := by decide
  have first : rowOfThree.PathTo (1 : Fin 3) 7 := .onward .stay edge
  have second : rowOfThree.PathTo (2 : Fin 3) 14 := .onward first edge
  have reachable : ∀ v : Fin 3, ∃ total < infinity, rowOfThree.PathTo v total
    | 0 => ⟨0,by decide,.stay⟩
    | 1 => ⟨7,by decide,first⟩
    | 2 => ⟨14,by decide,second⟩
  obtain ⟨-,s,ended,least,-⟩ := dijkstra_shortest rowOfThree (by decide) (by decide) reachable
  exact ⟨s,ended,least (2 : Fin 3)⟩

/-- Some vertex other than the start has an edge from it below the limit. -/
def Problem.HasNear (p : Problem) : Prop :=
  ∃ i, i ≠ p.startnode ∧ p.weight p.startnode i ≠ 0 ∧ p.weight p.startnode i < infinity

theorem exhausted_initial_iff (p : Problem) : Exhausted (initial p) ↔ ¬p.HasNear := by
  have unvisited (v : Fin p.n) : (initial p).visited v = false ↔ v ≠ p.startnode := by
    by_cases here : v = p.startnode <;> simp [initial,here]
  have direct {v : Fin p.n} (other : v ≠ p.startnode) :
      (initial p).distance v < infinity ↔ p.weight p.startnode v ≠ 0 ∧ p.weight p.startnode v < infinity := by
    simp only [initial,Function.update_of_ne other,cost]
    split <;> simp [*]
  constructor
  · rintro exhausted ⟨i,other,near⟩
    exact absurd ((direct other).mpr near) (Int.not_lt.mpr (exhausted i ((unvisited i).mpr other)))
  · intro alone v waits
    have other := (unvisited v).mp waits
    exact Int.not_lt.mp fun below => alone ⟨v,other,(direct other).mp below⟩

theorem nextnode_visits {p : Problem} {s : State p.n} (path : Visits (loopBody p) (initial p) s) :
    s = initial p ∨ s.nextnode ≠ none := by
  refine path.invariant (fun s => s = initial p ∨ s.nextnode ≠ none) ?_ (.inl rfl)
  intro s s' _ next
  obtain ⟨w,m,-,rfl,-⟩ := round_ok (loopBody_next next).2
  exact .inr (Option.some_ne_none w)

theorem settleAll_unassigned_iff (p : Problem) : settleAll p = .error .unassigned ↔ 3 ≤ p.n ∧ ¬p.HasNear := by
  rw [← exhausted_initial_iff]
  constructor
  · intro unassigned
    obtain ⟨s,path,⟨-,ended⟩ | ⟨e,more,stopped,ended⟩⟩ := settleAll_cases p
    · rw [unassigned] at ended
      cases ended
    · rw [unassigned] at ended
      cases ended
      obtain other | ⟨-,exhausted,unchosen⟩ := round_error stopped
      · cases other
      · obtain rfl | assigned := nextnode_visits path
        · exact ⟨more,exhausted⟩
        · exact absurd unchosen assigned
  · rintro ⟨many,exhausted⟩
    have stopped : round p (initial p) = .error .unassigned := by
      obtain ⟨stopped,-⟩ | ⟨w,m,⟨nearest,-⟩ | ⟨-,assigned,-⟩,-⟩ := round_cases p (initial p)
      · exact stopped
      · exact absurd nearest.below (Int.not_lt.mpr (exhausted w nearest.waits))
      · cases assigned
    have more : (initial p).count + 1 < p.n := many
    exact run_ret (loopVariant p) (by rw [loopBody,if_pos more,stopped])

/-- The run is defined, and prints a distance below the limit for just the vertices that have a path
of total weight below it. -/
def WellDefined (p : Problem) : Prop :=
  ∃ fuel entries, dijkstra p fuel = .ok (some entries) ∧
    entries.map Entry.node = (List.finRange p.n).filter (· ≠ p.startnode) ∧
    ∀ entry ∈ entries, entry.distance < infinity ↔ ∃ total < infinity, p.PathTo entry.node total

theorem Underway.path_ends {p : Problem} {s : State p.n} (nonneg : ∀ i j, 0 ≤ p.weight i j) (underway : Underway p s)
    (v : Fin p.n) : ∃ path, printPath p s (infinity.toNat + 1) v = some path := by
  by_cases first : s.pred v = p.startnode
  · have body : pathBody p s (v, []) = .ret [s.pred v] := if_pos first
    exact ⟨_,by rw [printPath,iterate,body]⟩
  · have body : pathBody p s (v, []) = .next (s.pred v, [s.pred v]) := if_neg first
    have below := underway.settled.below _ (underway.settled.parent v)
    have few : (s.distance (s.pred v)).toNat < infinity.toNat := by
      have : 0 < infinity := by decide
      omega
    obtain ⟨path,rest,-⟩ := underway.path_traces nonneg first below few [s.pred v]
    exact ⟨_,by rw [printPath,iterate,body]; exact rest⟩

theorem mapM_of_some {α β : Type} {f : α → Option β} {g : α → β} (h : ∀ x, f x = some (g x)) (xs : List α) :
    xs.mapM f = some (xs.map g) := by
  induction xs with
  | nil => rfl
  | cons x xs ih => simp [List.mapM_cons,h,ih]

theorem settleAll_overflow_iff {p : Problem} (nonneg : ∀ i j, 0 ≤ p.weight i j) :
    settleAll p = .error .overflow ↔ p.Overflows := by
  obtain ⟨s,path,⟨done,ended⟩ | ⟨e,more,stopped,ended⟩⟩ := settleAll_cases p
  · have underway := Underway.visits nonneg path
    simp [ended,underway.not_overflows nonneg done]
  · have underway := Underway.visits nonneg path
    rw [ended]
    obtain rfl | ⟨rfl,exhausted,unassigned⟩ := round_error stopped
    · simp [underway.overflows nonneg more stopped]
    · obtain rfl | assigned := nextnode_visits path
      · have fits : ¬p.Overflows := by
          rintro ⟨v,i,other,⟨d,near,-⟩,-⟩
          exact other (initial_visited (visited_of_near nonneg underway.settled exhausted near.2.1 near.1))
        simp [fits]
      · exact absurd unassigned assigned

/-- If the main loop ends, the paths can be printed and the distances are as they should be. -/
theorem wellDefined_iff {p : Problem} (nonneg : ∀ i j, 0 ≤ p.weight i j) : WellDefined p ↔ ∃ s, settleAll p = .ok s := by
  constructor
  · rintro ⟨fuel,entries,ok,-⟩
    cases ended : settleAll p with
    | ok s => exact ⟨s,rfl⟩
    | error e =>
      rw [dijkstra,ended] at ok
      cases ok
  · rintro ⟨s,ok⟩
    obtain ⟨s',path,⟨done,ended⟩ | ⟨e,-,-,ended⟩⟩ := settleAll_cases p
    · rw [ok] at ended
      cases ended
      have underway := Underway.visits nonneg path
      choose path printed using underway.path_ends nonneg
      let entry (i : Fin p.n) : Entry p.n := ⟨i,s.distance i,path i⟩
      have all : printAll p s (infinity.toNat + 1) = some (((List.finRange p.n).filter (· ≠ p.startnode)).map entry) :=
        mapM_of_some (fun i => by rw [printed i]; rfl) _
      refine ⟨infinity.toNat + 1,((List.finRange p.n).filter (· ≠ p.startnode)).map entry,?_,?_,?_⟩
      · rw [dijkstra,ok]
        exact congrArg Except.ok all
      · rw [List.map_map]
        exact List.map_id _
      · intro e mem
        obtain ⟨i,-,rfl⟩ := List.mem_map.mp mem
        exact underway.distance_lt_iff nonneg done i
    · rw [ok] at ended
      cases ended

/-- A run is defined, and reports what it should, exactly if some vertex has an edge from the start below the limit,
unless there are two vertices at most, and no sum gets too large; weights up to the limit below the greatest int
are enough for that. -/
theorem dijkstra_wellDefined_iff (p : Problem) (nonneg : ∀ i j, 0 ≤ p.weight i j) :
    (settleAll p = .error .unassigned ↔ 3 ≤ p.n ∧ ¬p.HasNear) ∧ (settleAll p = .error .overflow ↔ p.Overflows) ∧
      (WellDefined p ↔ (p.n ≤ 2 ∨ p.HasNear) ∧ ¬p.Overflows) ∧
      ((∀ i j, p.weight i j ≤ intMax - infinity) → ¬p.Overflows) := by
  have unassigned := settleAll_unassigned_iff p
  have overflow := settleAll_overflow_iff nonneg
  refine ⟨unassigned,overflow,?_,not_overflows⟩
  rw [wellDefined_iff nonneg,← overflow]
  constructor
  · rintro ⟨s,ok⟩
    refine ⟨?_,by rw [ok]; simp⟩
    by_contra neither
    rw [not_or] at neither
    have stopped := unassigned.mpr ⟨Nat.lt_of_not_le neither.1,neither.2⟩
    rw [ok] at stopped
    cases stopped
  · rintro ⟨assigned,fits⟩
    cases ended : settleAll p with
    | ok s => exact ⟨s,rfl⟩
    | error e =>
      cases e with
      | overflow => exact absurd ended fits
      | unassigned =>
        obtain ⟨many,far⟩ := unassigned.mp ended
        obtain few | near := assigned
        · omega
        · exact absurd near far

theorem dijkstra_wellDefined_row : WellDefined rowOfThree := by
  have all := dijkstra_wellDefined_iff rowOfThree (by decide)
  have other : (1 : Fin 3) ≠ 0 := by decide
  exact all.2.2.1.mpr ⟨.inr ⟨(1 : Fin 3),other,by decide,by decide⟩,all.2.2.2 (by decide)⟩

/-- Vertices without any edge: the first scan finds nothing, and `visited[nextnode]` is indexed by a
variable that was never assigned. -/
theorem dijkstra_unassigned_apart :
    settleAll ⟨3, by decide, fun _ _ => 0, 0⟩ = .error .unassigned := by
  rw [settleAll_unassigned_iff]
  refine ⟨Nat.le_refl 3,?_⟩
  rintro ⟨i,-,edge,-⟩
  exact edge rfl

/-- An edge of the greatest weight behind another one. -/
example : settleAll ⟨3, by decide, fun i j => if i.val + 1 = j.val then if i.val = 0 then 1 else intMax else 0, 0⟩
    = .error .overflow := rfl

end Ndp.Sssp
