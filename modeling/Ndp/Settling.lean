import Mathlib.Algebra.Order.Monoid.Defs
import Mathlib.Algebra.Order.Monoid.Unbundled.Basic
import Mathlib.Logic.Function.Basic
import Mathlib.Order.Lattice
import Mathlib.Tactic.Common

/-! Shortest routes found by settling vertices in the order of their distance, over an arbitrary
ordered monoid of costs. A missing edge is one that costs the limit or more: only what is cheaper
than the limit is said to be found. -/
namespace Settling

variable {V M : Type} [AddCommMonoid M]

/-- A route along edges, and what it costs in all. -/
inductive Route (edge : V → V → Prop) (cost : V → V → M) (root : V) : V → M → Prop where
  | stay : Route edge cost root root 0
  | onward : Route edge cost root u total → edge u v → Route edge cost root v (total + cost u v)

theorem Route.congr {edge : V → V → Prop} {cost cost' : V → V → M} (same : ∀ u v, edge u v → cost u v = cost' u v)
    {root v : V} {total : M} (route : Route edge cost root v total) : Route edge cost' root v total := by
  induction route with
  | stay => exact .stay
  | onward _ h ih => exact same _ _ h ▸ ih.onward h

variable [LinearOrder M]

structure Priced (edge : V → V → Prop) (cost : V → V → M) (limit : M) : Prop where
  nonneg : ∀ u v, 0 ≤ cost u v
  missing : ∀ u v, ¬edge u v → limit ≤ cost u v
  positive : 0 < limit

/-- Where the settling stands: what is settled is below the limit and not above the rest, its edges
have been looked along, and every distance below the limit is that of a route by the predecessors. -/
structure Standing (edge : V → V → Prop) (cost : V → V → M) (root : V) (limit : M) (done : V → Bool) (dist : V → M)
    (pred : V → V) : Prop where
  root_done : done root = true
  root_zero : dist root = 0
  below : ∀ v, done v = true → dist v < limit
  parent : ∀ v, done (pred v) = true
  route : ∀ v, dist v < limit → Route edge cost root v (dist v)
  last : ∀ v, v ≠ root → dist v < limit → edge (pred v) v ∧ dist v = dist (pred v) + cost (pred v) v
  relaxed : ∀ u, done u = true → ∀ v, dist v ≤ dist u + cost u v
  ordered : ∀ u, done u = true → ∀ v, done v = false → dist u ≤ dist v

section Relax
variable (cost : V → V → M) (done : V → Bool) (w : V) (m : M) (dist : V → M) (pred : V → V)

/-- The distances after a look along the edges of `w`, itself at `m`. -/
def relax (v : V) : M := if done v = false ∧ m + cost w v < dist v then m + cost w v else dist v

def reparent (v : V) : V := if done v = false ∧ m + cost w v < dist v then w else pred v

theorem relax_cases (v : V) :
    (relax cost done w m dist v = dist v ∧ reparent cost done w m dist pred v = pred v) ∨
      (done v = false ∧ m + cost w v < dist v ∧ relax cost done w m dist v = m + cost w v ∧
        reparent cost done w m dist pred v = w) := by
  unfold relax reparent
  split
  · rename_i better
    exact .inr ⟨better.1,better.2,rfl,rfl⟩
  · exact .inl ⟨rfl,rfl⟩

variable {cost done w m dist}

theorem relax_done {v : V} (h : done v = true) : relax cost done w m dist v = dist v :=
  if_neg fun better => by rw [h] at better; exact absurd better.1 (by decide)

theorem relax_le (v : V) : relax cost done w m dist v ≤ dist v := by
  unfold relax
  split
  · rename_i better
    exact better.2.le
  · exact le_rfl

theorem relax_le_through {v : V} (h : done v = false) : relax cost done w m dist v ≤ m + cost w v := by
  unfold relax
  split
  · exact le_rfl
  · rename_i worse
    exact not_lt.mp fun better => worse ⟨h,better⟩

theorem le_relax {v : V} {low : M} (direct : low ≤ dist v) (through : low ≤ m + cost w v) :
    low ≤ relax cost done w m dist v := by
  unfold relax
  split
  · exact through
  · exact direct

end Relax

section Rounds
variable {edge : V → V → Prop} {cost : V → V → M} {root : V} {limit : M} {done : V → Bool} {dist : V → M} {pred : V → V}

theorem Standing.nonneg (settled : Standing edge cost root limit done dist pred) {v : V} (h : done v = false) : 0 ≤ dist v :=
  settled.root_zero ▸ settled.ordered root settled.root_done v h

variable [IsOrderedAddMonoid M]

theorem Route.nonneg (priced : Priced edge cost limit) {v : V} {total : M} (route : Route edge cost root v total) :
    0 ≤ total := by
  induction route with
  | stay => exact le_rfl
  | onward _ _ ih => exact add_nonneg ih (priced.nonneg _ _)

theorem Priced.edge_of_lt (priced : Priced edge cost limit) {u v : V} {m : M} (nonneg : 0 ≤ m)
    (cheap : m + cost u v < limit) : edge u v := by
  by_contra none
  have dear : limit ≤ m + cost u v := (priced.missing u v none).trans (le_add_of_nonneg_left nonneg)
  exact absurd cheap (not_lt.mpr dear)

theorem Standing.start [DecidableEq V] (priced : Priced edge cost limit) (root : V) :
    Standing edge cost root limit (Function.update (fun _ => false) root true) (Function.update (cost root) root 0)
      fun _ => root := by
  have only {v : V} (h : Function.update (fun _ => false) root true v = true) : v = root := by
    by_contra other
    rw [Function.update_of_ne other] at h
    cases h
  have edges {v : V} (other : v ≠ root) (h : cost root v < limit) : edge root v :=
    priced.edge_of_lt le_rfl (by rwa [zero_add])
  refine ⟨Function.update_self _ _ _,Function.update_self _ _ _,?_,fun _ => Function.update_self _ _ _,?_,?_,?_,?_⟩
  · intro v h
    rw [only h,Function.update_self]
    exact priced.positive
  · intro v h
    by_cases here : v = root
    · subst here
      rw [Function.update_self]
      exact .stay
    · rw [Function.update_of_ne here] at h ⊢
      exact zero_add (cost root v) ▸ Route.stay.onward (edges here h)
  · intro v other h
    rw [Function.update_of_ne other] at h ⊢
    rw [Function.update_self,zero_add]
    exact ⟨edges other h,rfl⟩
  · intro u hu v
    rw [only hu,Function.update_self,zero_add]
    by_cases here : v = root
    · rw [here,Function.update_self]
      exact priced.nonneg root root
    · rw [Function.update_of_ne here]
  · intro u hu v hv
    have other : v ≠ root := by
      rintro rfl
      rw [Function.update_self] at hv
      cases hv
    rw [only hu,Function.update_self,Function.update_of_ne other]
    exact priced.nonneg root v

theorem Standing.settle [DecidableEq V] (settled : Standing edge cost root limit done dist pred)
    (priced : Priced edge cost limit) {w : V} (waits : done w = false) (cheap : dist w < limit)
    (least : ∀ v, done v = false → dist w ≤ dist v) :
    Standing edge cost root limit (Function.update done w true)
      (relax cost (Function.update done w true) w (dist w) dist)
      (reparent cost (Function.update done w true) w (dist w) dist pred) := by
  have now {v : V} : Function.update done w true v = true ↔ v = w ∨ done v = true := by
    by_cases here : v = w <;> simp [here]
  have later {v : V} : Function.update done w true v = false ↔ v ≠ w ∧ done v = false := by
    by_cases here : v = w <;> simp [here]
  have kept {v : V} (h : v = w ∨ done v = true) :
      relax cost (Function.update done w true) w (dist w) dist v = dist v := relax_done (now.mpr h)
  have upto {u : V} (h : u = w ∨ done u = true) : dist u ≤ dist w := by
    obtain rfl | before := h
    · exact le_rfl
    · exact settled.ordered u before w waits
  have along {v : V} (h : dist w + cost w v < limit) : edge w v := priced.edge_of_lt (settled.nonneg waits) h
  refine ⟨now.mpr (.inr settled.root_done),?_,?_,?_,?_,?_,?_,?_⟩
  · rw [kept (.inr settled.root_done)]
    exact settled.root_zero
  · intro v h
    rw [kept (now.mp h)]
    exact (upto (now.mp h)).trans_lt cheap
  · intro v
    obtain ⟨-,same⟩ | ⟨-,-,-,new⟩ := relax_cases cost (Function.update done w true) w (dist w) dist pred v
    · rw [same]
      exact now.mpr (.inr (settled.parent v))
    · rw [new]
      exact now.mpr (.inl rfl)
  · intro v h
    obtain ⟨same,-⟩ | ⟨-,-,new,-⟩ := relax_cases cost (Function.update done w true) w (dist w) dist pred v
    · rw [same] at h ⊢
      exact settled.route v h
    · rw [new] at h ⊢
      exact (settled.route w cheap).onward (along h)
  · intro v other h
    obtain ⟨same,parent⟩ | ⟨-,-,new,parent⟩ := relax_cases cost (Function.update done w true) w (dist w) dist pred v
    · rw [same] at h ⊢
      rw [parent,kept (.inr (settled.parent v))]
      exact settled.last v other h
    · rw [new] at h ⊢
      rw [parent,kept (.inl rfl)]
      exact ⟨along h,rfl⟩
  · intro u hu v
    rw [kept (now.mp hu)]
    obtain rfl | before := now.mp hu
    · cases hv : Function.update done u true v with
      | true => rw [kept (now.mp hv)]; exact (upto (now.mp hv)).trans (le_add_of_nonneg_right (priced.nonneg u v))
      | false => exact relax_le_through hv
    · exact (relax_le v).trans (settled.relaxed u before v)
  · intro u hu v hv
    rw [kept (now.mp hu)]
    refine le_relax ?_ ((upto (now.mp hu)).trans (le_add_of_nonneg_right (priced.nonneg w v)))
    exact (upto (now.mp hu)).trans (least v (later.mp hv).2)

theorem Standing.stale (settled : Standing edge cost root limit done dist pred) (priced : Priced edge cost limit) {w : V}
    (old : done w = true) (dear : ∀ v, done v = false → limit ≤ dist v) :
    Standing edge cost root limit done (relax cost done w limit dist) (reparent cost done w limit dist pred) ∧
      ∀ v, done v = false → limit ≤ relax cost done w limit dist v := by
  have kept {v : V} (h : done v = true) : relax cost done w limit dist v = dist v := relax_done h
  have still {v : V} (h : done v = false) : limit ≤ relax cost done w limit dist v :=
    le_relax (dear v h) (le_add_of_nonneg_right (priced.nonneg w v))
  have cheap {v : V} (h : relax cost done w limit dist v < limit) :
      done v = true ∧ relax cost done w limit dist v = dist v ∧ reparent cost done w limit dist pred v = pred v := by
    obtain ⟨same,parent⟩ | ⟨waits,-⟩ := relax_cases cost done w limit dist pred v
    · cases hv : done v with
      | true => exact ⟨rfl,same,parent⟩
      | false => exact absurd h (not_lt.mpr (still hv))
    · exact absurd h (not_lt.mpr (still waits))
  refine ⟨⟨settled.root_done,?_,?_,?_,?_,?_,?_,?_⟩,fun v => still⟩
  · rw [kept settled.root_done]
    exact settled.root_zero
  · intro v h
    rw [kept h]
    exact settled.below v h
  · intro v
    obtain ⟨-,same⟩ | ⟨-,-,-,new⟩ := relax_cases cost done w limit dist pred v
    · rw [same]
      exact settled.parent v
    · rw [new]
      exact old
  · intro v h
    obtain ⟨-,same,-⟩ := cheap h
    rw [same] at h ⊢
    exact settled.route v h
  · intro v other h
    obtain ⟨-,same,parent⟩ := cheap h
    rw [same] at h ⊢
    rw [parent,kept (settled.parent v)]
    exact settled.last v other h
  · intro u hu v
    rw [kept hu]
    exact (relax_le v).trans (settled.relaxed u hu v)
  · intro u hu v hv
    rw [kept hu]
    exact (settled.below u hu).le.trans (still hv)

theorem Standing.frontier (settled : Standing edge cost root limit done dist pred) (priced : Priced edge cost limit) {v : V}
    {total : M} (route : Route edge cost root v total) :
    (done v = true ∧ dist v ≤ total) ∨ ∃ w, done w = false ∧ dist w ≤ total := by
  induction route with
  | stay => exact .inl ⟨settled.root_done,settled.root_zero.le⟩
  | @onward u total v route h ih =>
    have longer : total ≤ total + cost u v := le_add_of_nonneg_right (priced.nonneg u v)
    obtain ⟨before,le⟩ | ⟨w,waits,le⟩ := ih
    · have bound : dist v ≤ total + cost u v := (settled.relaxed u before v).trans (add_le_add le le_rfl)
      cases hv : done v with
      | true => exact .inl ⟨rfl,bound⟩
      | false => exact .inr ⟨v,hv,bound⟩
    · exact .inr ⟨w,waits,le.trans longer⟩

theorem Standing.done_le (settled : Standing edge cost root limit done dist pred) (priced : Priced edge cost limit) {v : V}
    (h : done v = true) {total : M} (route : Route edge cost root v total) : dist v ≤ total := by
  obtain ⟨-,le⟩ | ⟨w,waits,le⟩ := settled.frontier priced route
  · exact le
  · exact (settled.ordered v h w waits).trans le

/-- With at most one vertex below the limit left, and only if all others are settled, the distances are
not above any route. -/
theorem Standing.le_route (settled : Standing edge cost root limit done dist pred) (priced : Priced edge cost limit)
    (enough : ∀ u, done u = false → dist u < limit → ∀ v, v = u ∨ done v = true) {v : V} {total : M}
    (route : Route edge cost root v total) (cheap : total < limit) : dist v ≤ total := by
  induction route with
  | stay => exact settled.root_zero.le
  | @onward u total v route h ih =>
    have shorter : total ≤ total + cost u v := le_add_of_nonneg_right (priced.nonneg u v)
    have before := ih (shorter.trans_lt cheap)
    cases hu : done u with
    | true => exact (settled.relaxed u hu v).trans (add_le_add before le_rfl)
    | false =>
      obtain rfl | hv := enough u hu (before.trans_lt (shorter.trans_lt cheap)) v
      · exact before.trans shorter
      · exact (settled.ordered v hv u hu).trans (before.trans shorter)

end Rounds

/-- What is settled comes before what is not, by distance and then by number. -/
def Ranked [LT V] (edge : V → V → Prop) (cost : V → V → M) (root : V) (done : V → Bool) (dist : V → M) : Prop :=
  ∀ u, done u = true → ∀ v, done v = false → ∀ total, Route edge cost root v total →
    dist u < total ∨ (dist u = total ∧ u < v)

section Ranks
variable [LinearOrder V] {edge : V → V → Prop} {cost : V → V → M} {root : V} {limit : M} {done : V → Bool} {dist : V → M}
  {pred : V → V}

theorem Ranked.stale (ranked : Ranked edge cost root done dist) (w : V) (m : M) :
    Ranked edge cost root done (relax cost done w m dist) := by
  intro u hu v hv total route
  rw [relax_done hu]
  exact ranked u hu v hv total route

variable [IsOrderedCancelAddMonoid M]

theorem Ranked.start (priced : Priced edge cost limit) (positive : ∀ u v, edge u v → 0 < cost u v) :
    Ranked edge cost root (Function.update (fun _ => false) root true) (Function.update (cost root) root 0) := by
  intro u hu v hv total route
  have here : u = root := by
    by_contra other
    rw [Function.update_of_ne other] at hu
    cases hu
  rw [here,Function.update_self]
  cases route with
  | stay =>
    rw [Function.update_self] at hv
    cases hv
  | onward route h => exact .inl (add_pos_of_nonneg_of_pos (route.nonneg priced) (positive _ _ h))

theorem Ranked.settle (ranked : Ranked edge cost root done dist) (settled : Standing edge cost root limit done dist pred)
    (priced : Priced edge cost limit) (positive : ∀ u v, edge u v → 0 < cost u v) {w : V} (waits : done w = false)
    (least : ∀ v, done v = false → dist w ≤ dist v) (first : ∀ v, done v = false → v < w → dist w < dist v) :
    Ranked edge cost root (Function.update done w true) (relax cost (Function.update done w true) w (dist w) dist) := by
  intro u hu v hv total route
  rw [relax_done hu]
  have other : v ≠ w := by
    rintro rfl
    rw [Function.update_self] at hv
    cases hv
  rw [Function.update_of_ne other] at hv
  by_cases here : u = w
  · subst here
    cases route with
    | stay =>
      rw [settled.root_done] at hv
      cases hv
    | @onward x total _ route h =>
      obtain ⟨before,le⟩ | ⟨y,hy,le⟩ := settled.frontier priced route
      · have bound : dist v ≤ total + cost x v := (settled.relaxed x before v).trans (add_le_add le le_rfl)
        obtain lt | eq := ((least v hv).trans bound).lt_or_eq
        · exact .inl lt
        · refine .inr ⟨eq,lt_of_le_of_ne (not_lt.mp fun lower => ?_) other.symm⟩
          exact absurd (first v hv lower) (not_lt.mpr (bound.trans eq.ge))
      · exact .inl (((least y hy).trans le).trans_lt (lt_add_of_pos_right total (positive x v h)))
  · rw [Function.update_of_ne here] at hu
    exact ranked u hu v hv total route

end Ranks

end Settling
