import Mathlib.Data.Int.Interval
import Ndp.Cells
import Ndp.LevelSearch
import Ndp.Looping

/-! The breadth-first search of the graph benchmark. Its queue is an array that is filled from the
front and starts over only when it has drained, so what keeps it from running full is the number of
vertices that are ever put into it. -/
namespace Ndp.Bfs

open Cells Looping LevelSearch

/-- `SIZE`. -/
def size : Int := 100

/-- What the calls of `printf` print. -/
inductive Line where
  | queueFull
  | queueEmpty
  | resetting
  | nothingQueued
  | queueContains
  | item (value : Int)
  | visited (vertex : Int)
  deriving DecidableEq, Repr

def Line.text : Line → String
  | queueFull => "\nQueue is full..."
  | queueEmpty => "Queue is empty..."
  | resetting => "Resetting queue"
  | nothingQueued => "Queue is Empty"
  | queueContains => "\nQueue contains \n"
  | item value => toString value ++ " "
  | visited vertex => "Visited " ++ toString vertex ++ "\n"

/-- What `malloc` leaves in the memory it gives. -/
structure Fresh where
  ints : Int → Int
  lists : Int → List Int

structure Queue where
  items : Memory Int
  front : Int
  rear : Int

def createQueue (fresh : Fresh) : Queue := ⟨block size fresh.ints, -1, -1⟩

def isEmpty (q : Queue) : Bool := q.rear == -1

def enqueue (q : Queue) (value : Int) : Option (Queue × List Line) :=
  if q.rear = size - 1 then some (q, [.queueFull])
  else do
    let front := if q.front = -1 then 0 else q.front
    let rear := q.rear + 1
    let items ← write q.items rear value
    return (⟨items, front, rear⟩, [])

def dequeue (q : Queue) : Option (Int × Queue × List Line) :=
  if isEmpty q then some (-1, q, [.queueEmpty])
  else do
    let item ← q.items q.front
    let front := q.front + 1
    if front > q.rear then return (item, { q with front := -1, rear := -1 }, [.resetting])
    else return (item, { q with front := front }, [])

def printQueue (q : Queue) : Option (List Line) :=
  if isEmpty q then some [.nothingQueued]
  else do
    let values ← load q.items q.front (q.rear + 1 - q.front).toNat
    return .queueContains :: values.map .item

/-- A list of nodes is told by its vertices, from the head on. -/
structure Graph where
  numVertices : Int
  adjLists : Memory (List Int)
  visited : Memory Int

/-- The body of the loop that clears both arrays. -/
def clear (i : Int) (graph : Graph) : Option Graph := do
  let adjLists ← write graph.adjLists i []
  let visited ← write graph.visited i 0
  return { graph with adjLists := adjLists, visited := visited }

def createGraph (fresh : Fresh) (vertices : Int) : Option Graph :=
  forUp clear 0 vertices ⟨vertices, block vertices fresh.lists, block vertices fresh.ints⟩

def addEdge (graph : Graph) (src dest : Int) : Option Graph := do
  let next ← graph.adjLists src
  let adjLists ← write graph.adjLists src (dest :: next)
  let next ← adjLists dest
  let adjLists ← write adjLists dest (src :: next)
  return { graph with adjLists := adjLists }

def addEdges (graph : Graph) (edges : List (Int × Int)) : Option Graph :=
  edges.foldlM (fun graph edge => addEdge graph edge.1 edge.2) graph

structure State where
  graph : Graph
  q : Queue
  out : List Line

/-- The body of the inner loop, for one node of the list `temp` runs through. -/
def visit (s : State) (adjVertex : Int) : Option State := do
  let flag ← s.graph.visited adjVertex
  if flag = 0 then
    let visited ← write s.graph.visited adjVertex 1
    let (q, lines) ← enqueue s.q adjVertex
    return ⟨{ s.graph with visited := visited }, q, s.out ++ lines⟩
  else return s

def round (s : State) : Option State := do
  let contents ← printQueue s.q
  let (currentVertex, q, lines) ← dequeue s.q
  let temp ← s.graph.adjLists currentVertex
  temp.foldlM visit { s with q := q, out := s.out ++ (contents ++ lines ++ [.visited currentVertex]) }

def bfsBody (s : State) : Flow State (Option State) :=
  if isEmpty s.q then .ret (some s)
  else
    match round s with
    | some s => .next s
    | none => .ret none

def bfsStart (fresh : Fresh) (graph : Graph) (startVertex : Int) : Option State := do
  let visited ← write graph.visited startVertex 1
  let (q, lines) ← enqueue (createQueue fresh) startVertex
  return ⟨{ graph with visited := visited }, q, lines⟩

/-- Nothing while the rounds allowed do not suffice; inside, nothing for an access outside an array. -/
def bfs (fresh : Fresh) (fuel : Nat) (graph : Graph) (startVertex : Int) : Option (Option State) :=
  match bfsStart fresh graph startVertex with
  | some s => iterate bfsBody fuel s
  | none => some none

/-- The two arguments of one call of `addEdge`, evaluated in either order. -/
def endpoints (rand : Nat → Nat) (destFirst : Nat → Bool) (i : Nat) : Int × Int :=
  let first := rand (2 * i) % 101
  let second := rand (2 * i + 1) % 101
  if destFirst i then (second, first) else (first, second)

/-- The edges of the benchmark; `rand` gives the values returned, call by call. -/
def randomEdges (rand : Nat → Nat) (destFirst : Nat → Bool) : List (Int × Int) :=
  (List.range size.toNat).map (endpoints rand destFirst)

def searchBuilt (fresh : Fresh) (fuel : Nat) : Option Graph → Option (Option State)
  | some graph => bfs fresh fuel graph 0
  | none => some none

def main (fresh : Fresh) (rand : Nat → Nat) (destFirst : Nat → Bool) (fuel : Nat) : Option (Option State) :=
  searchBuilt fresh fuel ((createGraph fresh size).bind (addEdges · (randomEdges rand destFirst)))

inductive Queue.Contains : Queue → List Int → Prop where
  | drained {f : Int → Int} : Contains ⟨block size f, -1, -1⟩ []
  | filled {f : Int → Int} {front rear : Int} {xs : List Int} (low : 0 ≤ front) (used : front ≤ rear)
      (high : rear < size) (ends : rear + 1 = front + xs.length) (holds : Holds (block size f) front xs) :
      Contains ⟨block size f, front, rear⟩ xs

theorem createQueue_contains (fresh : Fresh) : (createQueue fresh).Contains [] := .drained

theorem Queue.Contains.isEmpty_iff {q : Queue} {xs : List Int} (contains : q.Contains xs) :
    isEmpty q = true ↔ xs = [] := by
  cases contains with
  | drained => simp [isEmpty]
  | filled low used high ends holds =>
    have more : xs ≠ [] := by
      rintro rfl
      rw [List.length_nil] at ends
      omega
    rw [isEmpty,beq_iff_eq]
    simp only [more,iff_false]
    omega

theorem Queue.Contains.enqueue {q : Queue} {xs : List Int} (contains : q.Contains xs) (room : q.rear + 1 < size)
    (v : Int) : ∃ q', Bfs.enqueue q v = some (q', []) ∧ q'.Contains (xs ++ [v]) ∧ q'.rear = q.rear + 1 := by
  have space : ¬q.rear = size - 1 := by omega
  cases contains with
  | @drained f =>
    have first : (0 : Int) ≤ 0 ∧ (0 : Int) < size := by decide
    refine ⟨⟨block size (Function.update f 0 v),0,0⟩,?_,?_,rfl⟩
    · simp [Bfs.enqueue,space,write_block first]
    · refine .filled (Int.le_refl 0) (Int.le_refl 0) first.2 rfl ?_
      rw [← update_block first]
      exact ⟨Function.update_self _ _ _,trivial⟩
  | @filled f front rear xs low used high ends holds =>
    have next : 0 ≤ rear + 1 ∧ rear + 1 < size := ⟨by omega,room⟩
    have begun : ¬front = -1 := by omega
    refine ⟨⟨block size (Function.update f (rear + 1) v),front,rear + 1⟩,?_,?_,rfl⟩
    · simp only [Bfs.enqueue,if_neg space,if_neg begun,write_block next]
      rfl
    · refine .filled low (by omega) next.2 (by rw [List.length_append,ends]; simp [Int.add_assoc]) ?_
      rw [holds_append,← update_block next,← ends]
      exact ⟨holds.update_behind (Int.le_of_eq ends.symm) _,Function.update_self _ _ _,trivial⟩

theorem Queue.Contains.dequeue {q : Queue} {x : Int} {xs : List Int} (contains : q.Contains (x :: xs)) :
    ∃ q' lines, Bfs.dequeue q = some (x, q', lines) ∧ q'.Contains xs ∧ q'.rear ≤ q.rear ∧
      ∀ line ∈ lines, line = .resetting := by
  have filled : ¬isEmpty q = true := by simp [contains.isEmpty_iff]
  cases contains with
  | @filled f front rear _ low used high ends holds =>
    rw [List.length_cons,Int.natCast_succ] at ends
    by_cases last : front + 1 > rear
    · have empty : xs = [] := List.length_eq_zero_iff.mp (by omega)
      subst empty
      refine ⟨⟨block size f,-1,-1⟩,[.resetting],?_,.drained,by simp only; omega,by simp⟩
      simp [Bfs.dequeue,filled,holds.1,last]
    · refine ⟨⟨block size f,front + 1,rear⟩,[],?_,?_,Int.le_refl _,by simp⟩
      · simp [Bfs.dequeue,filled,holds.1,last]
      · exact .filled (by omega) (by omega) high (by omega) holds.2

theorem Queue.Contains.printQueue {q : Queue} {x : Int} {xs : List Int} (contains : q.Contains (x :: xs)) :
    Bfs.printQueue q = some (.queueContains :: (x :: xs).map .item) := by
  have filled : ¬isEmpty q = true := by simp [contains.isEmpty_iff]
  cases contains with
  | @filled f front rear _ low used high ends holds =>
    have count : (rear + 1 - front).toNat = (x :: xs).length := by omega
    simp only [Bfs.printQueue,if_neg filled,count,load_holds holds]
    rfl

def Within (V v : Int) : Prop := 0 ≤ v ∧ v < V

instance (V v : Int) : Decidable (Within V v) := inferInstanceAs (Decidable (_ ∧ _))

/-- Edges are entered at both ends. -/
def Linked (edges : List (Int × Int)) (u v : Int) : Prop := (u, v) ∈ edges ∨ (v, u) ∈ edges

theorem forUp_clear (V : Int) {i : Int} (low : 0 ≤ i) (lists : Int → List Int) (ints : Int → Int) :
    forUp clear i V ⟨V, block V lists, block V ints⟩
      = some ⟨V, block V fun a => if i ≤ a then [] else lists a, block V fun a => if i ≤ a then 0 else ints a⟩ := by
  induction rounds : (V - i).toNat generalizing i lists ints with
  | zero =>
    have kept {α : Type} (x : α) (f : Int → α) : block V f = block V fun a => if i ≤ a then x else f a :=
      block_congr fun a _ high => (if_neg (by omega)).symm
    rw [forUp_done clear (by omega),← kept,← kept]
  | succ n ih =>
    have inside : 0 ≤ i ∧ i < V := by omega
    have cleared : clear i ⟨V, block V lists, block V ints⟩
        = some ⟨V, block V (Function.update lists i []), block V (Function.update ints i 0)⟩ := by
      simp only [clear,write_block inside]
      rfl
    have more {α : Type} (x : α) (f : Int → α) : (fun a => if i + 1 ≤ a then x else Function.update f i x a)
        = fun a => if i ≤ a then x else f a := by
      funext a
      rw [Function.update_apply]
      grind
    rw [forUp_round clear inside.2,cleared,Option.bind_eq_bind,Option.bind_some,ih (by omega) _ _ (by omega),more,more]

theorem createGraph_cleared (fresh : Fresh) (V : Int) :
    createGraph fresh V = some ⟨V, block V fun _ => [], block V fun _ => 0⟩ := by
  have all {α : Type} (x : α) (f : Int → α) : (block V fun a => if 0 ≤ a then x else f a) = block V fun _ => x :=
    block_congr fun a low _ => if_pos low
  rw [createGraph,forUp_clear V (Int.le_refl 0),all,all]

theorem addEdge_within {V : Int} {adj : Int → List Int} {visited : Memory Int} {src dest : Int} (hs : Within V src)
    (hd : Within V dest) : ∃ adj', addEdge ⟨V, block V adj, visited⟩ src dest = some ⟨V, block V adj', visited⟩ ∧
      ∀ u v, v ∈ adj' u ↔ v ∈ adj u ∨ Linked [(src, dest)] u v := by
  let adj1 := Function.update adj src (dest :: adj src)
  refine ⟨Function.update adj1 dest (src :: adj1 dest),?_,?_⟩
  · simp only [addEdge,block_inside hs,Option.bind_eq_bind,Option.bind_some,write_block hs,block_inside hd,write_block hd]
    rfl
  · intro u v
    simp only [adj1,Linked,List.mem_singleton,Prod.mk.injEq,Function.update_apply]
    grind

theorem addEdge_outside {V : Int} {adj : Int → List Int} {visited : Memory Int} {src dest : Int}
    (outside : ¬(Within V src ∧ Within V dest)) : addEdge ⟨V, block V adj, visited⟩ src dest = none := by
  by_cases hs : Within V src
  · have hd : ¬Within V dest := fun hd => outside ⟨hs,hd⟩
    simp only [addEdge,block_inside hs,Option.bind_eq_bind,Option.bind_some,write_block hs,block_outside hd,
      Option.bind_none]
  · simp only [addEdge,block_outside hs,Option.bind_eq_bind,Option.bind_none]

/-- Every endpoint is a vertex. -/
def AllWithin (V : Int) (edges : List (Int × Int)) : Prop := ∀ edge ∈ edges, Within V edge.1 ∧ Within V edge.2

instance (V : Int) (edges : List (Int × Int)) : Decidable (AllWithin V edges) := List.decidableBAll _ _

theorem addEdges_within {V : Int} (adj : Int → List Int) (visited : Memory Int) {edges : List (Int × Int)}
    (within : AllWithin V edges) : ∃ adj', addEdges ⟨V, block V adj, visited⟩ edges = some ⟨V, block V adj', visited⟩ ∧
      ∀ u v, v ∈ adj' u ↔ v ∈ adj u ∨ Linked edges u v := by
  induction edges generalizing adj with
  | nil => exact ⟨adj,rfl,by simp [Linked]⟩
  | cons edge edges ih =>
    obtain ⟨first,rest⟩ := List.forall_mem_cons.mp within
    obtain ⟨adj1,added,listed⟩ := addEdge_within first.1 first.2
    obtain ⟨adj2,all,entered⟩ := ih adj1 rest
    refine ⟨adj2,?_,?_⟩
    · rw [addEdges,List.foldlM_cons,added]
      exact all
    · intro u v
      rw [entered,listed]
      simp only [Linked,List.mem_cons,List.not_mem_nil]
      grind

theorem addEdges_outside {V : Int} {adj : Int → List Int} {visited : Memory Int} {edges : List (Int × Int)}
    (outside : ¬AllWithin V edges) : addEdges ⟨V, block V adj, visited⟩ edges = none := by
  induction edges generalizing adj with
  | nil => exact absurd (by simp [AllWithin]) outside
  | cons edge edges ih =>
    rw [addEdges,List.foldlM_cons]
    by_cases first : Within V edge.1 ∧ Within V edge.2
    · obtain ⟨adj1,added,-⟩ := addEdge_within first.1 first.2
      rw [added]
      exact ih fun rest => outside (List.forall_mem_cons.mpr ⟨first,rest⟩)
    · rw [addEdge_outside first]
      rfl

theorem graph_built (fresh : Fresh) {V : Int} {edges : List (Int × Int)} (within : AllWithin V edges) :
    ∃ adj, (createGraph fresh V).bind (addEdges · edges) = some ⟨V, block V adj, block V fun _ => 0⟩ ∧
      ∀ u v, v ∈ adj u ↔ Linked edges u v := by
  obtain ⟨adj,built,listed⟩ := addEdges_within (fun _ => []) (block V fun _ => 0) within
  refine ⟨adj,?_,by simpa using listed⟩
  rw [createGraph_cleared]
  exact built

theorem graph_faults (fresh : Fresh) {V : Int} {edges : List (Int × Int)} (outside : ¬AllWithin V edges) :
    (createGraph fresh V).bind (addEdges · edges) = none := by
  rw [createGraph_cleared]
  exact addEdges_outside outside

/-- The vertices taken from the queue, in order. -/
def dequeued (out : List Line) : List Int :=
  out.filterMap fun
    | .visited vertex => some vertex
    | _ => none

/-- Neither a full queue nor an empty one was met. -/
def Quiet (out : List Line) : Prop := .queueFull ∉ out ∧ .queueEmpty ∉ out

theorem dequeued_append (out lines : List Line) : dequeued (out ++ lines) = dequeued out ++ dequeued lines :=
  List.filterMap_append

theorem Quiet.append {out lines : List Line} (h : Quiet out) (h' : Quiet lines) : Quiet (out ++ lines) := by
  simp only [Quiet,List.mem_append,not_or] at h h' ⊢
  exact ⟨⟨h.1,h'.1⟩,h.2,h'.2⟩

theorem round_lines {waiting : List Int} {lines : List Line} (resetting : ∀ line ∈ lines, line = .resetting) (u : Int) :
    dequeued (.queueContains :: waiting.map .item ++ lines ++ [.visited u]) = [u] ∧
      Quiet (.queueContains :: waiting.map .item ++ lines ++ [.visited u]) := by
  have quiet : dequeued lines = [] := List.filterMap_eq_nil_iff.mpr fun line mem => by rw [resetting line mem]
  have items : dequeued (waiting.map .item) = [] := List.filterMap_eq_nil_iff.mpr (by simp)
  refine ⟨?_,?_,?_⟩
  · rw [dequeued_append,dequeued_append,quiet,List.append_nil]
    exact congrArg (· ++ [u]) items
  · have other : Line.queueFull ∉ lines := fun mem => absurd (resetting _ mem) (by simp)
    simpa using other
  · have other : Line.queueEmpty ∉ lines := fun mem => absurd (resetting _ mem) (by simp)
    simpa using other

/-- What was ever put into the queue is marked, and what is still in it takes no more room. -/
structure Marked (V : Int) (seen waiting : List Int) (s : State) : Prop where
  marks : s.graph.visited = block V fun v => if v ∈ seen then 1 else 0
  queue : s.q.Contains waiting
  room : s.q.rear + 1 ≤ seen.length
  nodup : seen.Nodup
  within : ∀ v ∈ seen, Within V v

theorem length_le_of_within {V : Int} {vs : List Int} (nodup : vs.Nodup) (within : ∀ v ∈ vs, Within V v) :
    vs.length ≤ V.toNat := by
  have sub : vs.toFinset ⊆ Finset.Ico 0 V := by
    intro v mem
    exact Finset.mem_Ico.mpr (within v (List.mem_toFinset.mp mem))
  have card := Finset.card_le_card sub
  rwa [List.toFinset_card_of_nodup nodup,Int.card_Ico,Int.sub_zero] at card

theorem visit_marked {V : Int} {seen waiting : List Int} {s : State} (marked : Marked V seen waiting s) (small : V ≤ size)
    {v : Int} (inside : Within V v) :
    ∃ s', visit s v = some s' ∧ Marked V (seen ++ fresh seen [v]) (waiting ++ fresh seen [v]) s' ∧
      s'.graph.adjLists = s.graph.adjLists ∧ s'.out = s.out := by
  by_cases known : v ∈ seen
  · refine ⟨s,?_,?_,rfl,rfl⟩
    · simp [visit,marked.marks,block_inside inside,known]
    · simpa [fresh,known] using marked
  · have nodup : (seen ++ [v]).Nodup := List.concat_eq_append ▸ marked.nodup.concat known
    have within : ∀ u ∈ seen ++ [v], Within V u := by
      intro u mem
      obtain before | here := List.mem_append.mp mem
      · exact marked.within u before
      · exact List.mem_singleton.mp here ▸ inside
    have count := length_le_of_within nodup within
    rw [List.length_append,List.length_singleton] at count
    obtain ⟨q,queued,contains,rear⟩ := marked.queue.enqueue (by have := marked.room; omega) v
    refine ⟨⟨{ s.graph with visited := block V fun u => if u ∈ seen ++ [v] then 1 else 0 },q,s.out⟩,?_,?_,rfl,rfl⟩
    · have mark : Function.update (fun u => if u ∈ seen then 1 else 0) v 1
          = fun u => if u ∈ seen ++ [v] then (1 : Int) else 0 := by
        funext u
        by_cases here : u = v <;> simp [here]
      simp [visit,marked.marks,block_inside inside,known,write_block inside,mark,queued]
    · simp only [fresh,if_neg known]
      refine ⟨rfl,contains,?_,nodup,within⟩
      rw [rear,List.length_append]
      exact Int.add_le_add_right marked.room 1

theorem visit_all_marked {V : Int} {seen waiting : List Int} {s : State} (marked : Marked V seen waiting s)
    (small : V ≤ size) {vs : List Int} (inside : ∀ v ∈ vs, Within V v) :
    ∃ s', vs.foldlM visit s = some s' ∧ Marked V (seen ++ fresh seen vs) (waiting ++ fresh seen vs) s' ∧
      s'.graph.adjLists = s.graph.adjLists ∧ s'.out = s.out := by
  induction vs generalizing seen waiting s with
  | nil => exact ⟨s,rfl,by simpa [fresh] using marked,rfl,rfl⟩
  | cons v vs ih =>
    obtain ⟨first,rest⟩ := List.forall_mem_cons.mp inside
    obtain ⟨s1,visited,marked1,lists1,out1⟩ := visit_marked marked small first
    obtain ⟨s2,all,marked2,lists2,out2⟩ := ih marked1 rest
    rw [fresh_cons,← List.append_assoc,← List.append_assoc]
    refine ⟨s2,?_,marked2,lists2.trans lists1,out2.trans out1⟩
    rw [List.foldlM_cons,visited]
    exact all

/-- The search as the loop head finds it. -/
structure Running (V : Int) (adj : Int → List Int) (edge : Int → Int → Prop) (start : Int) (done waiting : List Int)
    (s : State) : Prop where
  search : Search edge start done waiting
  marked : Marked V (done ++ waiting) waiting s
  lists : s.graph.adjLists = block V adj
  taken : dequeued s.out = done
  quiet : Quiet s.out

section Search
variable {V : Int} {adj : Int → List Int} {edge : Int → Int → Prop} {start : Int} {done waiting : List Int} {s : State}

theorem bfsBody_running {u : Int} (running : Running V adj edge start done (u :: waiting) s) (small : V ≤ size)
    (neighbours : ∀ u v, v ∈ adj u ↔ edge u v) (inside : ∀ u v, edge u v → Within V v) :
    ∃ s' waiting', bfsBody s = .next s' ∧ Running V adj edge start (done ++ [u]) waiting' s' := by
  obtain ⟨q,lines,taken,contains,rear,resetting⟩ := running.marked.queue.dequeue
  have current : Within V u := running.marked.within u (by simp)
  let lines' := .queueContains :: (u :: waiting).map Line.item ++ lines ++ [.visited u]
  have printed : dequeued lines' = [u] ∧ Quiet lines' := round_lines resetting u
  have before : Marked V (done ++ u :: waiting) waiting { s with q := q, out := s.out ++ lines' } :=
    ⟨running.marked.marks,contains,by have := running.marked.room; simp only; omega,running.marked.nodup,
      running.marked.within⟩
  obtain ⟨s',visited,marked,lists,out⟩ :=
    visit_all_marked before small fun v mem => inside u v ((neighbours u v).mp mem)
  refine ⟨s',waiting ++ fresh (done ++ u :: waiting) (adj u),?_,?_,?_,?_,?_,?_⟩
  · have more : ¬isEmpty s.q = true := by simp [running.marked.queue.isEmpty_iff]
    have done : round s = some s' := by
      simp only [round,running.marked.queue.printQueue,taken,running.lists,block_inside current,Option.bind_eq_bind,
        Option.bind_some]
      exact visited
    rw [bfsBody,if_neg more,done]
  · exact running.search.step fun v => neighbours u v
  · simpa using marked
  · exact lists.trans running.lists
  · rw [out,dequeued_append,running.taken,printed.1]
  · rw [out]
    exact running.quiet.append printed.2

theorem iterate_running (running : Running V adj edge start done waiting s) (small : V ≤ size)
    (neighbours : ∀ u v, v ∈ adj u ↔ edge u v) (inside : ∀ u v, edge u v → Within V v) {fuel : Nat}
    (enough : V.toNat < done.length + fuel) :
    ∃ s' done', iterate bfsBody fuel s = some (some s') ∧ Running V adj edge start done' [] s' := by
  have few := length_le_of_within running.marked.nodup running.marked.within
  rw [List.length_append] at few
  induction fuel generalizing done waiting s with
  | zero => omega
  | succ fuel ih =>
    cases waiting with
    | nil =>
      have drained : bfsBody s = .ret (some s) := if_pos (running.marked.queue.isEmpty_iff.mpr rfl)
      exact ⟨s,done,by rw [iterate,drained],running⟩
    | cons u waiting =>
      obtain ⟨s1,waiting1,goes,running1⟩ := bfsBody_running running small neighbours inside
      have few1 := length_le_of_within running1.marked.nodup running1.marked.within
      rw [List.length_append] at few1
      obtain ⟨s2,done2,rest,running2⟩ := ih running1 (by rw [List.length_append,List.length_singleton]; omega) few1
      exact ⟨s2,done2,by rw [iterate,goes]; exact rest,running2⟩

end Search

theorem bfsStart_running {V : Int} (adj : Int → List Int) (edge : Int → Int → Prop) {start : Int} (fresh : Fresh)
    (first : Within V start) (n : Int) :
    ∃ s, bfsStart fresh ⟨n, block V adj, block V fun _ => 0⟩ start = some s ∧
      Running V adj edge start [] [start] s := by
  have room : (-1 : Int) + 1 < size := by decide
  obtain ⟨q,queued,contains,rear⟩ := (createQueue_contains fresh).enqueue room start
  refine ⟨⟨⟨n, block V adj, block V (Function.update (fun _ => 0) start 1)⟩,q,[]⟩,?_,.start,?_,rfl,rfl,?_⟩
  · simp only [bfsStart,write_block first,Option.bind_eq_bind,Option.bind_some,queued]
    rfl
  · refine ⟨?_,contains,?_,by simp,?_⟩
    · refine congrArg (block V) (funext fun v => ?_)
      simp [Function.update_apply]
    · rw [rear]
      exact Int.le_refl 1
    · intro v mem
      exact List.mem_singleton.mp mem ▸ first
  · exact ⟨List.not_mem_nil,List.not_mem_nil⟩

/-- The vertices dequeued are those reachable, once each and level by level, and are the ones marked
at the end; the queue is never found full or empty on the way. -/
structure LevelOrder (V : Int) (edges : List (Int × Int)) (start : Int) (s : State) : Prop where
  nodup : (dequeued s.out).Nodup
  complete : ∀ v, v ∈ dequeued s.out ↔ Reachable (Linked edges) start v
  ordered : (dequeued s.out).Pairwise fun u v => hops (Linked edges) start u ≤ hops (Linked edges) start v
  full : .queueFull ∉ s.out
  empty : .queueEmpty ∉ s.out
  marks : ∀ v, Within V v → ∃ flag, s.graph.visited v = some flag ∧ (flag = 1 ↔ Reachable (Linked edges) start v)

theorem Running.levelOrder {V : Int} {adj : Int → List Int} {edges : List (Int × Int)} {start : Int} {done : List Int}
    {s : State} (running : Running V adj (Linked edges) start done [] s) : LevelOrder V edges start s where
  nodup := by
    rw [running.taken]
    simpa using running.search.nodup
  complete := by
    rw [running.taken]
    exact running.search.complete
  ordered := by
    rw [running.taken]
    simpa using running.search.ordered
  full := running.quiet.1
  empty := running.quiet.2
  marks := by
    intro v inside
    refine ⟨if v ∈ done then 1 else 0,?_,?_⟩
    · rw [running.marked.marks,block_inside inside,List.append_nil]
    · rw [← running.search.complete]
      split <;> simpa

theorem bfs_of_within (fresh : Fresh) {V : Int} {adj : Int → List Int} {edges : List (Int × Int)} {start : Int} (n : Int)
    (small : V ≤ size) (within : AllWithin V edges) (first : Within V start)
    (neighbours : ∀ u v, v ∈ adj u ↔ Linked edges u v) :
    ∃ s, (∀ fuel, V.toNat < fuel → bfs fresh fuel ⟨n, block V adj, block V fun _ => 0⟩ start = some (some s)) ∧
      LevelOrder V edges start s := by
  have inside : ∀ u v, Linked edges u v → Within V v := by
    intro u v linked
    obtain h | h := linked
    · exact (within _ h).2
    · exact (within _ h).1
  obtain ⟨s,started,running⟩ := bfsStart_running adj (Linked edges) fresh first n
  obtain ⟨s',done,rounds,ended⟩ : ∃ s' done, iterate bfsBody (V.toNat + 1) s = some (some s') ∧ _ :=
    iterate_running running small neighbours inside (by rw [List.length_nil]; omega)
  refine ⟨s',fun fuel more => ?_,ended.levelOrder⟩
  rw [bfs,started]
  exact iterate_mono _ fuel s _ rounds more

theorem bfs_level_order (fresh : Fresh) (V : Int) (edges : List (Int × Int)) (start : Int) (small : V ≤ size)
    (within : AllWithin V edges) (first : Within V start) :
    ∃ graph, (createGraph fresh V).bind (addEdges · edges) = some graph ∧
      ∃ s, (∀ fuel, V.toNat < fuel → bfs fresh fuel graph start = some (some s)) ∧ LevelOrder V edges start s := by
  obtain ⟨adj,built,neighbours⟩ := graph_built fresh within
  exact ⟨_,built,bfs_of_within fresh V small within first neighbours⟩

/-- Three vertices in a row with an edge twice and a loop, and one apart, searched from the middle. -/
theorem bfs_level_order_path :
    ∃ graph, (createGraph ⟨fun _ => 7, fun _ => [9]⟩ 4).bind (addEdges · [(0, 1), (1, 2), (2, 1), (2, 2)]) = some graph ∧
      ∃ s, (∀ fuel, 4 < fuel → bfs ⟨fun _ => 7, fun _ => [9]⟩ fuel graph 1 = some (some s)) ∧
        LevelOrder 4 [(0, 1), (1, 2), (2, 1), (2, 2)] 1 s :=
  bfs_level_order _ 4 _ 1 (by decide) (by decide) (by decide)

theorem bfs_mono {fresh : Fresh} {fuel more : Nat} {graph : Graph} {start : Int} {r : Option State}
    (ends : bfs fresh fuel graph start = some r) (le : fuel ≤ more) : bfs fresh more graph start = some r := by
  unfold bfs at ends ⊢
  split at ends
  · exact iterate_mono fuel more _ r ends le
  · exact ends

theorem endpoints_within (rand : Nat → Nat) (destFirst : Nat → Bool) (i : Nat) :
    Within size (endpoints rand destFirst i).1 ∧ Within size (endpoints rand destFirst i).2 ↔
      rand (2 * i) % 101 ≠ 100 ∧ rand (2 * i + 1) % 101 ≠ 100 := by
  simp only [endpoints,Within,size]
  split <;> simp only <;> omega

theorem randomEdges_within (rand : Nat → Nat) (destFirst : Nat → Bool) :
    AllWithin size (randomEdges rand destFirst) ↔ ∀ i < 200, rand i % 101 ≠ 100 := by
  have hundred : size.toNat = 100 := rfl
  simp only [AllWithin,randomEdges,List.forall_mem_map,List.mem_range,endpoints_within,hundred]
  refine ⟨fun all i below => ?_,fun all i below => ⟨all _ (by omega),all _ (by omega)⟩⟩
  have pair := all (i / 2) (by omega)
  obtain even | odd : i = 2 * (i / 2) ∨ i = 2 * (i / 2) + 1 := by omega
  · exact even ▸ pair.1
  · exact odd ▸ pair.2

theorem main_in_range_iff (fresh : Fresh) (rand : Nat → Nat) (destFirst : Nat → Bool) :
    (∀ fuel, main fresh rand destFirst fuel ≠ some none) ↔ ∀ i < 200, rand i % 101 ≠ 100 := by
  have start : Within size 0 := by decide
  rw [← randomEdges_within rand destFirst]
  constructor
  · intro safe
    by_contra outside
    exact safe 0 (by rw [main,graph_faults fresh outside,searchBuilt])
  · intro within fuel fault
    obtain ⟨adj,built,neighbours⟩ := graph_built fresh within
    obtain ⟨s,ends,-⟩ := bfs_of_within fresh size (Int.le_refl _) within start neighbours
    rw [main,built,searchBuilt] at fault
    have later := bfs_mono fault (Nat.le_add_right fuel (size.toNat + 1))
    rw [ends _ (by omega)] at later
    cases later

/-- `rand` may return 100 for the first endpoint: `adjLists[100]` lies behind the array. -/
theorem main_outside_hundred : main ⟨fun _ => 0, fun _ => []⟩ (fun _ => 100) (fun _ => false) 0 = some none := by
  have outside : ¬AllWithin size (randomEdges (fun _ => 100) fun _ => false) := by
    rw [randomEdges_within]
    exact fun all => all 0 (by decide) rfl
  rw [main,graph_faults _ outside,searchBuilt]

end Ndp.Bfs
