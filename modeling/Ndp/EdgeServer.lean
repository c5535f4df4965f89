import Mathlib.Algebra.BigOperators.Fin
import Mathlib.Algebra.Order.BigOperators.Group.Finset
import Ndp.EdgeRpc

/-! The C++ server: one thread for each client, each in one call of `edge_rpc::fib`, and the
thread of the fault handler, all on the same three pages. A step is one access to shared
memory, of whichever thread comes next. Nothing in the server invalidates the invoke page. -/
namespace Ndp.Cpp

/-- Where a client's thread stands in its call. A thread that reads a missing page waits. -/
inductive ThreadAt where
  | storeSlot
  | storeArg
  | poke
  | faulted
  | load
  | returned (result : UInt64)
  deriving DecidableEq, Repr

/-- Where the handler's thread stands in its loop. -/
inductive HandlerAt where
  | polling
  | loadSlot
  | loadArg (fn : UInt64)
  | calling (fn : UInt64) (arg0 : UInt32)
  | storing (result : UInt64)
  | responding
  | ended
  deriving DecidableEq, Repr

def ThreadAt.left : ThreadAt → Nat
  | .storeSlot => 5
  | .storeArg => 4
  | .poke => 3
  | .faulted => 2
  | .load => 1
  | .returned _ => 0

/-- The handler's loop is gone through once, while the page is missing. -/
def HandlerAt.left (present : Bool) : HandlerAt → Nat
  | .polling => if present then 0 else 6
  | .loadSlot => 5
  | .loadArg _ => 4
  | .calling _ _ => 3
  | .storing _ => 2
  | .responding => 1
  | .ended => 0

/-- Whether the invoke page is registered is what `UFFDIO_REGISTER` came to, which nobody looks at. -/
structure EdgeServer (k : Nat) where
  mem : FaultHandlerMemory
  handler : HandlerAt
  threads : Fin k → ThreadAt
  registered : Bool

inductive Actor (k : Nat) where
  | client (i : Fin k)
  | handler
  deriving DecidableEq, Repr

namespace EdgeServer

variable (ctx : EdgeContext) {k : Nat} (calls : Fin k → UInt32)

/-- The server before its first client does anything. -/
def start (mem : FaultHandlerMemory) : EdgeServer k := ⟨mem, .polling, fun _ => .storeSlot, true⟩

/-- The same, but the kernel did not register the page. -/
def startUnregistered (mem : FaultHandlerMemory) : EdgeServer k := { start mem with registered := false }

def moved (s : EdgeServer k) (i : Fin k) (position : ThreadAt) : EdgeServer k :=
  { s with threads := Function.update s.threads i position }

/-- The next access of a client's thread in `edge_rpc::fib`. Without a registration the kernel itself gives a page. -/
def clientStep (i : Fin k) (s : EdgeServer k) : Option (EdgeServer k) :=
  match s.threads i with
  | .storeSlot => some ({ s with mem := s.mem.setRequest 0 edgeFibNum }.moved i .storeArg)
  | .storeArg => some ({ s with mem := s.mem.setRequest 1 (calls i) }.moved i .poke)
  | .poke =>
    if s.mem.invokePresent then some (s.moved i .load)
    else if s.registered then some (s.moved i .faulted)
    else some ({ s with mem := { s.mem with invokePresent := true } }.moved i .load)
  | .faulted => if s.mem.invokePresent then some (s.moved i .load) else none
  | .load => some (s.moved i (.returned (s.mem.response 0)))
  | .returned _ => none

/-- The next access of the handler's thread. Polling waits for a fault on the missing page;
`PANIC` and undefined accesses end the process. -/
def handlerStep (s : EdgeServer k) : Option (EdgeServer k) :=
  match s.handler with
  | .polling =>
    if s.mem.invokePresent = false ∧ ∃ i, s.threads i = .faulted then some { s with handler := .loadSlot } else none
  | .loadSlot =>
    match ctx.fns.handlerAt (s.mem.request 0) with
    | .returned fn => some { s with handler := .loadArg fn }
    | _ => some { s with handler := .ended }
  | .loadArg fn => some { s with handler := .calling fn (s.mem.request 1) }
  | .calling fn arg0 =>
    match ctx.call fn arg0 with
    | .returned result => some { s with handler := .storing result }
    | .diverges => none
    | _ => some { s with handler := .ended }
  | .storing result => some { s with mem := s.mem.setResponse 0 result, handler := .responding }
  | .responding => some { s with mem := { s.mem with invokePresent := true }, handler := .polling }
  | .ended => none

def step (s : EdgeServer k) : Actor k → Option (EdgeServer k)
  | .client i => if s.handler = .ended then none else s.clientStep calls i
  | .handler => s.handlerStep ctx

/-- A schedule of threads each of which can move when its turn comes. -/
def run (s : EdgeServer k) : List (Actor k) → Option (EdgeServer k)
  | [] => some s
  | actor :: rest => (s.step ctx calls actor).bind fun s' => s'.run rest

/-- No thread can move any more. -/
def Final (s : EdgeServer k) : Prop := ∀ actor, s.step ctx calls actor = none

/-- Every client has its own answer. -/
def Answered (s : EdgeServer k) : Prop :=
  ∀ i, ∃ result, s.threads i = .returned result ∧ fibKernel (calls i) = .returned result

theorem run_append (s : EdgeServer k) (first second : List (Actor k)) :
    s.run ctx calls (first ++ second) = (s.run ctx calls first).bind fun s' => s'.run ctx calls second := by
  induction first generalizing s with
  | nil => rfl
  | cons actor rest ih =>
    simp only [List.cons_append,run]
    cases s.step ctx calls actor with
    | none => rfl
    | some s' => exact ih s'

/-- Some schedule leads from one state to another. -/
def Reaches (s s' : EdgeServer k) : Prop := ∃ schedule, s.run ctx calls schedule = some s'

variable {ctx calls}

theorem Reaches.step {s s' : EdgeServer k} {actor : Actor k} (stepped : s.step ctx calls actor = some s') :
    Reaches ctx calls s s' := ⟨[actor],by simp [run,stepped]⟩

theorem Reaches.trans {a b c : EdgeServer k} (first : Reaches ctx calls a b) (second : Reaches ctx calls b c) :
    Reaches ctx calls a c := by
  obtain ⟨one,ranOne⟩ := first
  obtain ⟨two,ranTwo⟩ := second
  exact ⟨one ++ two,by rw [run_append,ranOne]; exact ranTwo⟩

theorem run_invariant {property : EdgeServer k → Prop}
    (preserved : ∀ s s' actor, property s → s.step ctx calls actor = some s' → property s')
    {s s' : EdgeServer k} {schedule : List (Actor k)} (ran : s.run ctx calls schedule = some s')
    (initial : property s) : property s' := by
  induction schedule generalizing s with
  | nil =>
    obtain rfl := Option.some.inj ran
    exact initial
  | cons actor rest ih =>
    obtain ⟨next,stepped,others⟩ := Option.bind_eq_some_iff.mp ran
    exact ih others (preserved s next actor initial stepped)

theorem clientStep_cases {s s' : EdgeServer k} {i : Fin k} (stepped : s.clientStep calls i = some s') :
    (s.threads i = .storeSlot ∧ s' = { s with mem := s.mem.setRequest 0 edgeFibNum }.moved i .storeArg) ∨
    (s.threads i = .storeArg ∧ s' = { s with mem := s.mem.setRequest 1 (calls i) }.moved i .poke) ∨
    (s.threads i = .poke ∧ s.mem.invokePresent = false ∧ s.registered = true ∧ s' = s.moved i .faulted) ∨
    ((s.threads i = .poke ∨ s.threads i = .faulted) ∧ s.mem.invokePresent = true ∧ s' = s.moved i .load) ∨
    (s.threads i = .load ∧ s' = s.moved i (.returned (s.mem.response 0))) ∨
    (s.threads i = .poke ∧ s.mem.invokePresent = false ∧ s.registered = false ∧
      s' = { s with mem := { s.mem with invokePresent := true } }.moved i .load) := by
  unfold clientStep at stepped
  cases position : s.threads i with
  | storeSlot => simp_all
  | storeArg => simp_all
  | poke => cases present : s.mem.invokePresent <;> cases registered : s.registered <;> simp_all
  | faulted => cases present : s.mem.invokePresent <;> simp_all
  | load => simp_all
  | returned result => simp_all

theorem handlerStep_cases {s s' : EdgeServer k} (stepped : s.handlerStep ctx = some s') :
    (s.handler = .polling ∧ s.mem.invokePresent = false ∧ (∃ i, s.threads i = .faulted) ∧
      s' = { s with handler := .loadSlot }) ∨
    (∃ fn, s.handler = .loadSlot ∧ ctx.fns.handlerAt (s.mem.request 0) = .returned fn ∧
      s' = { s with handler := .loadArg fn }) ∨
    (s.handler = .loadSlot ∧ (∀ fn, ctx.fns.handlerAt (s.mem.request 0) ≠ .returned fn) ∧
      s' = { s with handler := .ended }) ∨
    (∃ fn, s.handler = .loadArg fn ∧ s' = { s with handler := .calling fn (s.mem.request 1) }) ∨
    (∃ fn arg0 result, s.handler = .calling fn arg0 ∧ ctx.call fn arg0 = .returned result ∧
      s' = { s with handler := .storing result }) ∨
    (∃ fn arg0, s.handler = .calling fn arg0 ∧ (∀ result, ctx.call fn arg0 ≠ .returned result) ∧
      ctx.call fn arg0 ≠ .diverges ∧ s' = { s with handler := .ended }) ∨
    (∃ result, s.handler = .storing result ∧
      s' = { s with mem := s.mem.setResponse 0 result, handler := .responding }) ∨
    (s.handler = .responding ∧ s' = { s with mem := { s.mem with invokePresent := true }, handler := .polling }) := by
  unfold handlerStep at stepped
  cases position : s.handler with
  | polling =>
    simp only [position,Option.ite_none_right_eq_some,Option.some.injEq] at stepped
    exact .inl ⟨rfl,stepped.1.1,stepped.1.2,stepped.2.symm⟩
  | loadSlot => cases found : ctx.fns.handlerAt (s.mem.request 0) <;> simp_all
  | loadArg fn => simp_all
  | calling fn arg0 => cases called : ctx.call fn arg0 <;> simp_all
  | storing result => simp_all
  | responding => simp_all
  | ended => simp_all

@[simp] theorem moved_mem (s : EdgeServer k) (i : Fin k) (position : ThreadAt) :
    (s.moved i position).mem = s.mem := rfl

@[simp] theorem moved_registered (s : EdgeServer k) (i : Fin k) (position : ThreadAt) :
    (s.moved i position).registered = s.registered := rfl

@[simp] theorem moved_handler (s : EdgeServer k) (i : Fin k) (position : ThreadAt) :
    (s.moved i position).handler = s.handler := rfl

@[simp] theorem moved_self (s : EdgeServer k) (i : Fin k) (position : ThreadAt) :
    (s.moved i position).threads i = position := Function.update_self _ _ _

theorem moved_other (s : EdgeServer k) {i j : Fin k} (position : ThreadAt) (ne : j ≠ i) :
    (s.moved i position).threads j = s.threads j := Function.update_of_ne ne _ _

theorem step_client {s s' : EdgeServer k} {i : Fin k} (stepped : s.step ctx calls (.client i) = some s') :
    s.handler ≠ .ended ∧ s.clientStep calls i = some s' := by
  simp only [step,Option.ite_none_left_eq_some] at stepped
  exact stepped

theorem step_thread {s s' : EdgeServer k} {actor : Actor k} {i : Fin k} (other : actor ≠ .client i)
    (stepped : s.step ctx calls actor = some s') : s'.threads i = s.threads i := by
  cases actor with
  | client j =>
    have ne : i ≠ j := fun same => other (same ▸ rfl)
    rcases clientStep_cases (step_client stepped).2 with ⟨_,rfl⟩ | ⟨_,rfl⟩ | ⟨_,_,_,rfl⟩ | ⟨_,_,rfl⟩ | ⟨_,rfl⟩ | ⟨_,_,_,rfl⟩
    all_goals exact moved_other _ _ ne
  | handler =>
    rcases handlerStep_cases stepped with ⟨_,_,_,rfl⟩ | ⟨_,_,_,rfl⟩ | ⟨_,_,rfl⟩ | ⟨_,_,rfl⟩ |
      ⟨_,_,_,_,_,rfl⟩ | ⟨_,_,_,_,_,rfl⟩ | ⟨_,_,rfl⟩ | ⟨_,rfl⟩
    all_goals rfl

theorem clientStep_frame {s s' : EdgeServer k} {i : Fin k} (stepped : s.clientStep calls i = some s') :
    s'.handler = s.handler ∧ s'.registered = s.registered ∧
      (s.registered = true → s'.mem.invokePresent = s.mem.invokePresent) := by
  rcases clientStep_cases stepped with ⟨_,rfl⟩ | ⟨_,rfl⟩ | ⟨_,_,_,rfl⟩ | ⟨_,_,rfl⟩ | ⟨_,rfl⟩ | ⟨_,_,not,rfl⟩
  iterate 5 exact ⟨rfl,rfl,fun _ => rfl⟩
  exact ⟨rfl,rfl,fun registered => by simp [not] at registered⟩

/-- Steps left at most. -/
def left (s : EdgeServer k) : Nat := s.handler.left s.mem.invokePresent + ∑ i, (s.threads i).left

theorem moved_left (s : EdgeServer k) (i : Fin k) {position : ThreadAt} (less : position.left < (s.threads i).left) :
    ∑ j, ((s.moved i position).threads j).left < ∑ j, (s.threads j).left := by
  apply Finset.sum_lt_sum
  · intro j _
    by_cases same : j = i
    · subst same
      rw [moved_self]
      exact Nat.le_of_lt less
    · rw [moved_other s position same]
  · exact ⟨i,Finset.mem_univ i,by rw [moved_self]; exact less⟩

theorem step_left {s s' : EdgeServer k} {actor : Actor k} (stepped : s.step ctx calls actor = some s') :
    s'.left < s.left := by
  unfold left
  cases actor with
  | client i =>
    rcases clientStep_cases (step_client stepped).2 with ⟨at_i,rfl⟩ | ⟨at_i,rfl⟩ | ⟨at_i,_,_,rfl⟩ |
      ⟨at_i | at_i,_,rfl⟩ | ⟨at_i,rfl⟩ | ⟨at_i,missing,_,rfl⟩
    iterate 6
      apply Nat.add_lt_add_left
      apply moved_left
      simp [at_i,ThreadAt.left]
    · apply Nat.add_lt_add_of_le_of_lt
      · simp only [moved_handler,moved_mem,missing]
        cases s.handler <;> simp [HandlerAt.left]
      · apply moved_left
        simp [at_i,ThreadAt.left]
  | handler =>
    rcases handlerStep_cases stepped with ⟨at_h,missing,_,rfl⟩ | ⟨fn,at_h,_,rfl⟩ | ⟨at_h,_,rfl⟩ | ⟨fn,at_h,rfl⟩ |
      ⟨fn,arg0,result,at_h,_,rfl⟩ | ⟨fn,arg0,at_h,_,_,rfl⟩ | ⟨result,at_h,rfl⟩ | ⟨at_h,rfl⟩
    all_goals
      apply Nat.add_lt_add_right
      simp_all [HandlerAt.left]

theorem run_left {s s' : EdgeServer k} {schedule : List (Actor k)} (ran : s.run ctx calls schedule = some s') :
    schedule.length + s'.left ≤ s.left := by
  induction schedule generalizing s with
  | nil =>
    obtain rfl := Option.some.inj ran
    simp
  | cons actor rest ih =>
    obtain ⟨next,stepped,others⟩ := Option.bind_eq_some_iff.mp ran
    have := step_left stepped
    have := ih others
    simp only [List.length_cons]
    omega

theorem start_left (mem : FaultHandlerMemory) : (start mem : EdgeServer k).left ≤ 5 * k + 6 := by
  have handler : (start mem : EdgeServer k).handler.left mem.invokePresent ≤ 6 := by
    simp only [start,HandlerAt.left]
    split <;> omega
  have threads : ∑ i, ((start mem : EdgeServer k).threads i).left = 5 * k := by
    simp [start,ThreadAt.left,Nat.mul_comm]
  unfold left
  rw [threads]
  simp only [start] at handler ⊢
  omega

theorem exists_final (ctx : EdgeContext) (calls : Fin k → UInt32) (s : EdgeServer k) :
    ∃ s', Reaches ctx calls s s' ∧ s'.Final ctx calls := by
  induction measure : s.left using Nat.strongRecOn generalizing s with
  | ind m ih =>
    by_cases final : s.Final ctx calls
    · exact ⟨s,⟨[],rfl⟩,final⟩
    · obtain ⟨actor,moves⟩ := not_forall.mp final
      obtain ⟨next,stepped⟩ := Option.ne_none_iff_exists'.mp moves
      obtain ⟨s',ran,stops⟩ := ih next.left (measure ▸ step_left stepped) next rfl
      exact ⟨s',(Reaches.step stepped).trans ran,stops⟩

theorem exists_final_keeping {property : EdgeServer k → Prop}
    (preserved : ∀ s s' actor, property s → s.step ctx calls actor = some s' → property s')
    {s s' : EdgeServer k} (reached : Reaches ctx calls s s') (holds : property s') :
    ∃ final, Reaches ctx calls s final ∧ final.Final ctx calls ∧ property final := by
  obtain ⟨final,carried,stops⟩ := exists_final ctx calls s'
  obtain ⟨_,ran⟩ := carried
  exact ⟨final,reached.trans ⟨_,ran⟩,stops,run_invariant preserved ran holds⟩

/-- The request page asks for the kernel, at the argument of one of the calls. -/
def Asked (calls : Fin k → UInt32) (mem : FaultHandlerMemory) : Prop :=
  mem.request 0 = edgeFibNum ∧ ∃ j, mem.request 1 = calls j

def ThreadSound (calls : Fin k → UInt32) (value : UInt64) (mem : FaultHandlerMemory) : ThreadAt → Prop
  | .storeSlot => True
  | .storeArg => mem.request 0 = edgeFibNum
  | .poke | .faulted => Asked calls mem
  | .load => mem.invokePresent = true
  | .returned result => result = value

def HandlerSound (ctx : EdgeContext) (calls : Fin k → UInt32) (value : UInt64) (mem : FaultHandlerMemory) :
    HandlerAt → Prop
  | .polling => True
  | .loadSlot => Asked calls mem
  | .loadArg fn => ctx.call fn = fibKernel ∧ Asked calls mem
  | .calling fn arg0 => ctx.call fn = fibKernel ∧ ∃ j, arg0 = calls j
  | .storing result => result = value
  | .responding => mem.response 0 = value
  | .ended => False

/-- All answers the pages and the threads hold are the one value. -/
structure Sound (ctx : EdgeContext) (calls : Fin k → UInt32) (value : UInt64) (s : EdgeServer k) : Prop where
  handler : HandlerSound ctx calls value s.mem s.handler
  threads : ∀ i, ThreadSound calls value s.mem (s.threads i)
  answer : s.mem.invokePresent = true → s.mem.response 0 = value
  registered : s.registered = true

theorem Asked.storeSlot {mem : FaultHandlerMemory} (asked : Asked calls mem) :
    Asked calls (mem.setRequest 0 edgeFibNum) := ⟨rfl,asked.2⟩

theorem asked_storeArg (calls : Fin k → UInt32) {mem : FaultHandlerMemory} (slot : mem.request 0 = edgeFibNum) (i : Fin k) :
    Asked calls (mem.setRequest 1 (calls i)) := ⟨slot,i,rfl⟩

theorem ThreadSound.mono {value : UInt64} {mem : FaultHandlerMemory} {position : ThreadAt}
    (sound : ThreadSound calls value mem position) (mem' : FaultHandlerMemory)
    (slot : mem.request 0 = edgeFibNum → mem'.request 0 = edgeFibNum) (asked : Asked calls mem → Asked calls mem')
    (present : mem.invokePresent = true → mem'.invokePresent = true) : ThreadSound calls value mem' position := by
  cases position with
  | storeSlot => trivial
  | storeArg => exact slot sound
  | poke => exact asked sound
  | faulted => exact asked sound
  | load => exact present sound
  | returned result => exact sound

theorem Sound.stores {value : UInt64} {s : EdgeServer k} (sound : Sound ctx calls value s)
    (mem : FaultHandlerMemory) (present : mem.invokePresent = s.mem.invokePresent)
    (response : mem.response = s.mem.response) (slot : mem.request 0 = edgeFibNum)
    (asked : Asked calls s.mem → Asked calls mem) : Sound ctx calls value { s with mem := mem } := by
  refine ⟨?_,fun i => (sound.threads i).mono mem (fun _ => slot) asked present.trans,
    by rw [present,response]; exact sound.answer,sound.registered⟩
  have before := sound.handler
  revert before
  show HandlerSound ctx calls value s.mem s.handler → HandlerSound ctx calls value mem s.handler
  cases s.handler with
  | loadSlot => exact asked
  | loadArg fn => exact fun ⟨code,was⟩ => ⟨code,asked was⟩
  | responding => exact fun was => by simpa only [HandlerSound,response] using was
  | _ => exact id

theorem Sound.moved {value : UInt64} {s : EdgeServer k} (sound : Sound ctx calls value s) (i : Fin k)
    {position : ThreadAt} (here : ThreadSound calls value s.mem position) :
    Sound ctx calls value (s.moved i position) := by
  refine ⟨sound.handler,fun j => ?_,sound.answer,sound.registered⟩
  by_cases same : j = i
  · subst same
    rw [moved_self]
    exact here
  · rw [moved_other s position same]
    exact sound.threads j

theorem step_sound (registered : ctx.FibRegistered) {value : UInt64}
    (agree : ∀ i, fibKernel (calls i) = .returned value) {s s' : EdgeServer k} {actor : Actor k}
    (sound : Sound ctx calls value s) (stepped : s.step ctx calls actor = some s') :
    Sound ctx calls value s' := by
  cases actor with
  | client i =>
    have here := sound.threads i
    rcases clientStep_cases (step_client stepped).2 with ⟨at_i,rfl⟩ | ⟨at_i,rfl⟩ | ⟨at_i,_,_,rfl⟩ |
      ⟨_,present,rfl⟩ | ⟨at_i,rfl⟩ | ⟨_,_,not,_⟩
    · exact (sound.stores (s.mem.setRequest 0 edgeFibNum) rfl rfl rfl Asked.storeSlot).moved i rfl
    · rw [at_i] at here
      have asked := asked_storeArg calls here i
      exact (sound.stores (s.mem.setRequest 1 (calls i)) rfl rfl here fun _ => asked).moved i asked
    · rw [at_i] at here
      exact sound.moved i here
    · exact sound.moved i present
    · rw [at_i] at here
      exact sound.moved i (sound.answer here)
    · simp [sound.registered] at not
  | handler =>
    have here := sound.handler
    rcases handlerStep_cases stepped with ⟨_,_,⟨i,waits⟩,rfl⟩ | ⟨fn,at_h,found,rfl⟩ | ⟨at_h,missing,_⟩ |
      ⟨fn,at_h,rfl⟩ | ⟨fn,arg0,result,at_h,called,rfl⟩ | ⟨fn,arg0,at_h,fails,_,_⟩ | ⟨result,at_h,rfl⟩ | ⟨at_h,rfl⟩
    · have asked := sound.threads i
      rw [waits] at asked
      exact ⟨asked,sound.threads,sound.answer,sound.registered⟩
    · rw [at_h] at here
      obtain ⟨fib,there,code⟩ := registered
      rw [here.1,there] at found
      obtain rfl := Outcome.returned.inj found
      exact ⟨⟨code,here⟩,sound.threads,sound.answer,sound.registered⟩
    · rw [at_h] at here
      obtain ⟨fib,there,_⟩ := registered
      exact absurd (here.1 ▸ there) (missing fib)
    · rw [at_h] at here
      exact ⟨⟨here.1,here.2.2⟩,sound.threads,sound.answer,sound.registered⟩
    · rw [at_h] at here
      obtain ⟨code,j,rfl⟩ := here
      rw [code,agree j] at called
      exact ⟨(Outcome.returned.inj called).symm,sound.threads,sound.answer,sound.registered⟩
    · rw [at_h] at here
      obtain ⟨code,j,rfl⟩ := here
      exact absurd (code ▸ agree j) (fails value)
    · rw [at_h] at here
      exact ⟨here,fun i => (sound.threads i).mono (s.mem.setResponse 0 result) id id id,fun _ => here,sound.registered⟩
    · rw [at_h] at here
      exact ⟨trivial,fun i => (sound.threads i).mono { s.mem with invokePresent := true } id id fun _ => rfl,
        fun _ => here,sound.registered⟩

theorem handler_moves (registered : ctx.FibRegistered) {value : UInt64}
    (agree : ∀ i, fibKernel (calls i) = .returned value) {s : EdgeServer k} (sound : Sound ctx calls value s)
    (missing : s.mem.invokePresent = false) {i : Fin k} (waits : s.threads i = .faulted) :
    s.handlerStep ctx ≠ none := by
  have here := sound.handler
  unfold handlerStep
  cases position : s.handler with
  | polling => simp [missing,show ∃ i, s.threads i = .faulted from ⟨i,waits⟩]
  | loadSlot =>
    rw [position] at here
    obtain ⟨fn,found,_⟩ := registered
    simp [here.1,found]
  | calling fn arg0 =>
    rw [position] at here
    obtain ⟨code,j,rfl⟩ := here
    simp [code,agree j]
  | ended =>
    rw [position] at here
    exact here.elim
  | _ => simp

theorem final_answered (registered : ctx.FibRegistered) {value : UInt64}
    (agree : ∀ i, fibKernel (calls i) = .returned value) {s : EdgeServer k} (sound : Sound ctx calls value s)
    (final : s.Final ctx calls) : s.Answered calls := by
  intro i
  have alive : s.handler ≠ .ended := by
    intro ended
    have here := sound.handler
    rw [ended] at here
    exact here
  have stuck : s.clientStep calls i = none := by simpa [step,alive] using final (.client i)
  have here := sound.threads i
  cases position : s.threads i with
  | returned result =>
    rw [position] at here
    obtain rfl : result = value := here
    exact ⟨result,rfl,agree i⟩
  | faulted =>
    cases present : s.mem.invokePresent with
    | true => simp [clientStep,position,present] at stuck
    | false => exact absurd (final .handler) (handler_moves registered agree sound present position)
  | poke => cases present : s.mem.invokePresent <;> simp [clientStep,position,present,sound.registered] at stuck
  | _ => simp [clientStep,position] at stuck

/-- The request page with a call's slot and argument in it. -/
def asking (s : EdgeServer k) (calls : Fin k → UInt32) (i : Fin k) : EdgeServer k :=
  { s with mem := (s.mem.setRequest 0 edgeFibNum).setRequest 1 (calls i) }

theorem reaches_asking {s : EdgeServer k} {i : Fin k} (fresh : s.threads i = .storeSlot)
    (idle : s.handler = .polling) (registered : s.registered = true) :
    Reaches ctx calls s ((s.asking calls i).moved i (if s.mem.invokePresent then .load else .faulted)) := by
  have slot : s.step ctx calls (.client i) =
      some ({ s with mem := s.mem.setRequest 0 edgeFibNum }.moved i .storeArg) := by
    simp [step,clientStep,idle,fresh]
  have arg : ({ s with mem := s.mem.setRequest 0 edgeFibNum }.moved i .storeArg).step ctx calls (.client i) =
      some ((s.asking calls i).moved i .poke) := by
    simp [step,clientStep,idle,moved,asking]
  have poke : ((s.asking calls i).moved i .poke).step ctx calls (.client i) =
      some ((s.asking calls i).moved i (if s.mem.invokePresent then .load else .faulted)) := by
    cases present : s.mem.invokePresent <;>
      simp [step,clientStep,idle,moved,asking,FaultHandlerMemory.setRequest,present,registered]
  exact (Reaches.step slot).trans ((Reaches.step arg).trans (.step poke))

theorem reaches_calling {s : EdgeServer k} {i : Fin k} (waits : s.threads i = .faulted) (idle : s.handler = .polling)
    (missing : s.mem.invokePresent = false) {fn : UInt64}
    (found : ctx.fns.handlerAt (s.mem.request 0) = .returned fn) :
    Reaches ctx calls s { s with handler := .calling fn (s.mem.request 1) } := by
  have poll : s.step ctx calls .handler = some { s with handler := .loadSlot } := by
    simp [step,handlerStep,idle,missing,show ∃ j, s.threads j = .faulted from ⟨i,waits⟩]
  have slot : step ctx calls { s with handler := .loadSlot } .handler = some { s with handler := .loadArg fn } := by
    simp [step,handlerStep,found]
  have arg : step ctx calls { s with handler := .loadArg fn } .handler =
      some { s with handler := .calling fn (s.mem.request 1) } := by
    simp [step,handlerStep]
  exact (Reaches.step poll).trans ((Reaches.step slot).trans (.step arg))

theorem reaches_handled {s : EdgeServer k} {i : Fin k} (waits : s.threads i = .faulted) (idle : s.handler = .polling)
    (missing : s.mem.invokePresent = false) {mem : FaultHandlerMemory}
    (handled : s.mem.handleFault ctx = .returned mem) : Reaches ctx calls s { s with mem := mem } := by
  obtain ⟨fn,found,calling⟩ := Outcome.bind_returned_iff.mp handled
  obtain ⟨result,computed,stored⟩ := Outcome.bind_returned_iff.mp calling
  obtain rfl := Outcome.returned.inj stored
  have call : step ctx calls { s with handler := .calling fn (s.mem.request 1) } .handler =
      some { s with handler := .storing result } := by
    simp [step,handlerStep,computed]
  have store : step ctx calls { s with handler := .storing result } .handler =
      some { s with mem := s.mem.setResponse 0 result, handler := .responding } := by
    simp [step,handlerStep]
  have respond : step ctx calls { s with mem := s.mem.setResponse 0 result, handler := .responding } .handler =
      some { s with mem := { s.mem.setResponse 0 result with invokePresent := true } } := by
    simp [step,handlerStep,idle]
  exact (reaches_calling waits idle missing found).trans
    ((Reaches.step call).trans ((Reaches.step store).trans (.step respond)))

theorem reaches_woken (s : EdgeServer k) (i : Fin k) (idle : s.handler = .polling)
    (present : s.mem.invokePresent = true) : Reaches ctx calls (s.moved i .faulted) (s.moved i .load) := by
  have wakes : (s.moved i .faulted).step ctx calls (.client i) = some (s.moved i .load) := by
    simp [step,clientStep,idle,present,moved]
  exact .step wakes

theorem reaches_returned (s : EdgeServer k) (i : Fin k) (idle : s.handler = .polling) :
    Reaches ctx calls (s.moved i .load) (s.moved i (.returned (s.mem.response 0))) := by
  have returns : (s.moved i .load).step ctx calls (.client i) = some (s.moved i (.returned (s.mem.response 0))) := by
    simp [step,clientStep,idle,moved]
  exact .step returns

theorem solo_fib {s : EdgeServer k} {i : Fin k} (fresh : s.threads i = .storeSlot) (idle : s.handler = .polling)
    (registered : s.registered = true) {result : UInt64} {mem : FaultHandlerMemory}
    (called : s.mem.fib ctx (calls i) = .returned (result, mem)) :
    Reaches ctx calls s ({ s with mem := mem }.moved i (.returned result)) := by
  obtain ⟨read,invoked,returns⟩ := Outcome.bind_returned_iff.mp called
  obtain ⟨rfl,rfl⟩ := Prod.mk.inj (Outcome.returned.inj returns)
  have returned : Reaches ctx calls _ _ := reaches_returned { s with mem := read } i idle
  have asked : Reaches ctx calls s _ := reaches_asking fresh idle registered
  cases present : s.mem.invokePresent with
  | true =>
    have same : s.asking calls i = { s with mem := read } := by
      obtain rfl : (s.asking calls i).mem = read := by
        simpa [FaultHandlerMemory.readInvoke,FaultHandlerMemory.setRequest,present,asking] using invoked
      rfl
    rw [present,if_pos rfl,same] at asked
    exact asked.trans returned
  | false =>
    have handled : (s.asking calls i).mem.handleFault ctx = .returned read := by
      simpa [FaultHandlerMemory.readInvoke,FaultHandlerMemory.setRequest,present,asking] using invoked
    rw [present,if_neg (by simp)] at asked
    have filled : Reaches ctx calls _ ({ s with mem := read }.moved i .faulted) :=
      reaches_handled (moved_self (s.asking calls i) i .faulted) idle present handled
    have woken : Reaches ctx calls _ _ := reaches_woken { s with mem := read } i idle (handleFault_present handled)
    exact asked.trans (filled.trans (woken.trans returned))

theorem step_returned {s s' : EdgeServer k} {actor : Actor k} {i : Fin k} {result : UInt64}
    (done : s.threads i = .returned result) (stepped : s.step ctx calls actor = some s') :
    s'.threads i = .returned result := by
  have other : actor ≠ .client i := by
    rintro rfl
    have := (step_client stepped).2
    simp [clientStep,done] at this
  rw [step_thread other stepped,done]

/-- The handler is in a call that never returns, and a thread waits for it. -/
structure Stuck (ctx : EdgeContext) (i : Fin k) (s : EdgeServer k) : Prop where
  calling : ∃ fn arg0, s.handler = .calling fn arg0 ∧ ctx.call fn arg0 = .diverges
  missing : s.mem.invokePresent = false
  waits : s.threads i = .faulted
  registered : s.registered = true

theorem step_stuck {s s' : EdgeServer k} {actor : Actor k} {i : Fin k} (stuck : Stuck ctx i s)
    (stepped : s.step ctx calls actor = some s') : Stuck ctx i s' := by
  obtain ⟨⟨fn,arg0,position,diverges⟩,missing,waits,registered⟩ := stuck
  cases actor with
  | client j =>
    have moves := (step_client stepped).2
    have other : Actor.client j ≠ .client i := by
      rintro ⟨rfl⟩
      simp [clientStep,waits,missing] at moves
    obtain ⟨handler,still,present⟩ := clientStep_frame moves
    exact ⟨⟨fn,arg0,handler.trans position,diverges⟩,(present registered).trans missing,(step_thread other stepped).trans waits,
      still.trans registered⟩
  | handler => simp [step,handlerStep,position,diverges] at stepped

theorem reaches_stuck (registered : ctx.FibRegistered) {mem : FaultHandlerMemory}
    (missing : mem.invokePresent = false) {i : Fin k} (diverges : fibKernel (calls i) = .diverges) :
    ∃ s, Reaches ctx calls (start mem) s ∧ Stuck ctx i s := by
  obtain ⟨fn,found,code⟩ := registered
  have asked : Reaches ctx calls (start mem) _ := reaches_asking (i := i) rfl rfl rfl
  rw [show (start mem : EdgeServer k).mem.invokePresent = false from missing,if_neg (by simp)] at asked
  have called : Reaches ctx calls _ _ :=
    reaches_calling (moved_self ((start mem).asking calls i) i .faulted) rfl missing found
  exact ⟨_,asked.trans called,⟨fn,calls i,rfl,by rw [code]; exact diverges⟩,missing,moved_self _ _ _,rfl⟩

/-- Two calls, one strictly after the other: the second is answered with the first one's. -/
theorem reaches_stale (registered : ctx.FibRegistered) {mem : FaultHandlerMemory}
    (missing : mem.invokePresent = false) {i j : Fin k} (ne : j ≠ i)
    (smallI : (calls i).toNat < 2 ^ 32 - 1) (smallJ : (calls j).toNat < 2 ^ 32 - 1) :
    ∃ s, Reaches ctx calls (start mem) s ∧ s.threads j = .returned (fibValue (calls i)) := by
  have clear : mem.Holds none := missing
  obtain ⟨mem',first,holds⟩ := fib_uses registered clear smallI
  obtain ⟨mem'',second,_⟩ := fib_uses registered holds smallJ
  let between : EdgeServer k := { (start mem) with mem := mem' }.moved i (.returned (fibValue (calls i)))
  have fresh : between.threads j = .storeSlot := moved_other _ _ ne
  have one : Reaches ctx calls (start mem) between := solo_fib rfl rfl rfl first
  exact ⟨_,one.trans (solo_fib fresh rfl rfl second),moved_self _ _ _⟩

end EdgeServer

/-- Runs end within so many steps. In all of them every client gets its own answer exactly if
there is one answer that is everybody's. -/
theorem own_answer_iff (ctx : EdgeContext) (registered : ctx.FibRegistered) (mem : FaultHandlerMemory)
    (missing : mem.invokePresent = false) (k : Nat) (calls : Fin k → UInt32) :
    (∀ schedule s, (EdgeServer.start mem).run ctx calls schedule = some s → schedule.length ≤ 5 * k + 6) ∧
    ((∀ schedule s, (EdgeServer.start mem).run ctx calls schedule = some s → s.Final ctx calls → s.Answered calls) ↔
      ∃ value, ∀ i, fibKernel (calls i) = .returned value) := by
  refine ⟨fun schedule s ran => ?_,?_,?_⟩
  · have := EdgeServer.run_left ran
    have := EdgeServer.start_left (k := k) mem
    omega
  · intro own
    have returns : ∀ i, (calls i).toNat < 2 ^ 32 - 1 := by
      intro i
      by_contra large
      have diverges := fibKernel_greatest (calls i) (by have := (calls i).toNat_lt; omega)
      obtain ⟨_,reached,stuck⟩ := EdgeServer.reaches_stuck registered missing diverges
      obtain ⟨s,⟨schedule,ran⟩,final,still⟩ :=
        EdgeServer.exists_final_keeping (fun _ _ _ => EdgeServer.step_stuck) reached stuck
      obtain ⟨result,done,_⟩ := own schedule s ran final i
      rw [still.waits] at done
      contradiction
    have same : ∀ i j, fibKernel (calls j) = .returned (fibValue (calls i)) := by
      intro i j
      by_cases ne : j = i
      · rw [ne]
        exact fibKernel_returns _ (by have := returns i; omega)
      obtain ⟨_,reached,stale⟩ := EdgeServer.reaches_stale registered missing ne (returns i) (returns j)
      obtain ⟨s,⟨schedule,ran⟩,final,still⟩ :=
        EdgeServer.exists_final_keeping (fun _ _ _ => EdgeServer.step_returned) reached stale
      obtain ⟨result,done,kernel⟩ := own schedule s ran final j
      rw [still] at done
      rw [kernel,ThreadAt.returned.inj done]
    cases k with
    | zero => exact ⟨0,fun i => i.elim0⟩
    | succ k => exact ⟨fibValue (calls 0),same 0⟩
  · rintro ⟨value,agree⟩ schedule s ran final
    have initial : EdgeServer.Sound ctx calls value (EdgeServer.start mem) :=
      ⟨trivial,fun _ => trivial,fun present => by simp [EdgeServer.start,missing] at present,rfl⟩
    have sound := EdgeServer.run_invariant (fun _ _ _ => EdgeServer.step_sound registered agree) ran initial
    exact EdgeServer.final_answered registered agree sound final

/-- Three clients that all ask for the same, as the server's own do. -/
theorem own_answer_fib_one :
    fibKernel 1 = .returned 1 ∧ ∀ schedule s, (EdgeServer.start ⟨fun _ => 0, fun _ => 0, false⟩).run (.withFib 100 0x401000)
        (fun _ : Fin 3 => 1) schedule = some s →
      s.Final (.withFib 100 0x401000) (fun _ => 1) → s.Answered fun _ => 1 := by
  have one : fibKernel 1 = .returned 1 := fibKernel_returns 1 (by decide)
  have own := own_answer_iff (.withFib 100 0x401000) (withFib_registered (by decide) (by decide)).2
    ⟨fun _ => 0,fun _ => 0,false⟩ rfl 3 fun _ => 1
  exact ⟨one,own.2.mpr ⟨1,fun _ => one⟩⟩

/-- Two clients one after the other: the second asks for the third Fibonacci number and is
given the first. -/
theorem second_call_stale :
    ∃ s, (EdgeServer.start ⟨fun _ => 0, fun _ => 0, false⟩).run (.withFib 100 0x401000) ![1, 3]
        [.client 0, .client 0, .client 0, .handler, .handler, .handler, .handler, .handler, .handler, .client 0, .client 0,
          .client 1, .client 1, .client 1, .client 1] = some s ∧
      s.threads 0 = .returned 1 ∧ s.threads 1 = .returned 1 ∧ fibKernel 3 = .returned 2 := by
  exact ⟨_,rfl,rfl,rfl,rfl⟩

end Ndp.Cpp
