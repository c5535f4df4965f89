import Ndp.EdgeServer

/-! What the C++ server can answer, whatever is in its table of functions: the results of the function in
the slot at the arguments of the clients' calls, any of them to any client, and nothing else. The server
as it is has nothing in that slot. If the invoke page was not registered, no fault is ever raised, and what the
response page held at first answers every call. -/
namespace Ndp.Cpp.EdgeServer

variable {ctx : EdgeContext} {k : Nat} {calls : Fin k → UInt32}

/-- The function in the slot returns this at the argument of one of the calls. -/
def Possible (ctx : EdgeContext) (calls : Fin k → UInt32) (result : UInt64) : Prop :=
  ∃ fn, ctx.fns.handlerAt edgeFibNum = .returned fn ∧ ∃ j, ctx.call fn (calls j) = .returned result

def ThreadTraced (ctx : EdgeContext) (calls : Fin k → UInt32) (mem : FaultHandlerMemory) : ThreadAt → Prop
  | .storeSlot => True
  | .storeArg => mem.request 0 = edgeFibNum
  | .poke | .faulted => Asked calls mem
  | .load => mem.invokePresent = true
  | .returned result => Possible ctx calls result

def HandlerTraced (ctx : EdgeContext) (calls : Fin k → UInt32) (mem : FaultHandlerMemory) : HandlerAt → Prop
  | .polling | .ended => True
  | .loadSlot => Asked calls mem
  | .loadArg fn => ctx.fns.handlerAt edgeFibNum = .returned fn ∧ Asked calls mem
  | .calling fn arg0 => ctx.fns.handlerAt edgeFibNum = .returned fn ∧ ∃ j, arg0 = calls j
  | .storing result => Possible ctx calls result
  | .responding => Possible ctx calls (mem.response 0)

/-- Every answer the pages and the threads hold is one of a call. -/
structure Traced (ctx : EdgeContext) (calls : Fin k → UInt32) (s : EdgeServer k) : Prop where
  handler : HandlerTraced ctx calls s.mem s.handler
  threads : ∀ i, ThreadTraced ctx calls s.mem (s.threads i)
  answer : s.mem.invokePresent = true → Possible ctx calls (s.mem.response 0)
  registered : s.registered = true

theorem start_traced (ctx : EdgeContext) (calls : Fin k → UInt32) {mem : FaultHandlerMemory}
    (missing : mem.invokePresent = false) : Traced ctx calls (start mem) :=
  ⟨trivial,fun _ => trivial,fun present => by simp [start,missing] at present,rfl⟩

theorem ThreadTraced.mono {mem mem' : FaultHandlerMemory} {position : ThreadAt}
    (traced : ThreadTraced ctx calls mem position) (slot : mem.request 0 = edgeFibNum → mem'.request 0 = edgeFibNum)
    (asked : Asked calls mem → Asked calls mem') (present : mem.invokePresent = true → mem'.invokePresent = true) :
    ThreadTraced ctx calls mem' position := by
  cases position with
  | storeSlot => trivial
  | storeArg => exact slot traced
  | poke => exact asked traced
  | faulted => exact asked traced
  | load => exact present traced
  | returned result => exact traced

theorem Traced.stores {s : EdgeServer k} (traced : Traced ctx calls s) (mem : FaultHandlerMemory)
    (present : mem.invokePresent = s.mem.invokePresent) (response : mem.response = s.mem.response)
    (slot : mem.request 0 = edgeFibNum) (asked : Asked calls s.mem → Asked calls mem) :
    Traced ctx calls { s with mem := mem } := by
  refine ⟨?_,fun i => (traced.threads i).mono (fun _ => slot) asked present.trans,by rw [present,response]; exact traced.answer,
    traced.registered⟩
  have before := traced.handler
  show HandlerTraced ctx calls mem s.handler
  cases place : s.handler <;> rw [place] at before
  · trivial
  · exact asked before
  · exact ⟨before.1,asked before.2⟩
  · exact before
  · exact before
  · simpa only [HandlerTraced,response] using before
  · trivial

theorem Traced.moved {s : EdgeServer k} (traced : Traced ctx calls s) (i : Fin k) {position : ThreadAt}
    (here : ThreadTraced ctx calls s.mem position) : Traced ctx calls (s.moved i position) := by
  refine ⟨traced.handler,fun j => ?_,traced.answer,traced.registered⟩
  by_cases same : j = i
  · subst same
    rw [moved_self]
    exact here
  · rw [moved_other s position same]
    exact traced.threads j

theorem client_traced {s s' : EdgeServer k} {i : Fin k} (traced : Traced ctx calls s)
    (stepped : s.clientStep calls i = some s') : Traced ctx calls s' := by
  have here := traced.threads i
  rcases clientStep_cases stepped with ⟨place,rfl⟩ | ⟨place,rfl⟩ | ⟨place,_,_,rfl⟩ | ⟨_,present,rfl⟩ | ⟨place,rfl⟩ | ⟨_,_,not,_⟩
  · exact (traced.stores (s.mem.setRequest 0 edgeFibNum) rfl rfl rfl Asked.storeSlot).moved i rfl
  · rw [place] at here
    have asked := asked_storeArg calls here i
    exact (traced.stores (s.mem.setRequest 1 (calls i)) rfl rfl here fun _ => asked).moved i asked
  · rw [place] at here
    exact traced.moved i here
  · exact traced.moved i present
  · rw [place] at here
    exact traced.moved i (traced.answer here)
  · simp [traced.registered] at not

theorem handler_traced {s s' : EdgeServer k} (traced : Traced ctx calls s) (stepped : s.handlerStep ctx = some s') :
    Traced ctx calls s' := by
  have here := traced.handler
  rcases handlerStep_cases stepped with ⟨_,_,⟨i,waits⟩,rfl⟩ | ⟨fn,place,found,rfl⟩ | ⟨_,_,rfl⟩ | ⟨fn,place,rfl⟩ |
    ⟨fn,arg0,result,place,called,rfl⟩ | ⟨_,_,_,_,_,rfl⟩ | ⟨result,place,rfl⟩ | ⟨place,rfl⟩
  · have asked := traced.threads i
    rw [waits] at asked
    exact ⟨asked,traced.threads,traced.answer,traced.registered⟩
  · rw [place] at here
    exact ⟨⟨here.1 ▸ found,here⟩,traced.threads,traced.answer,traced.registered⟩
  · exact ⟨trivial,traced.threads,traced.answer,traced.registered⟩
  · rw [place] at here
    exact ⟨⟨here.1,here.2.2⟩,traced.threads,traced.answer,traced.registered⟩
  · rw [place] at here
    obtain ⟨found,j,rfl⟩ := here
    exact ⟨⟨fn,found,j,called⟩,traced.threads,traced.answer,traced.registered⟩
  · exact ⟨trivial,traced.threads,traced.answer,traced.registered⟩
  · rw [place] at here
    exact ⟨here,fun i => (traced.threads i).mono id id id,fun _ => here,traced.registered⟩
  · rw [place] at here
    exact ⟨trivial,fun i => (traced.threads i).mono id id fun _ => rfl,fun _ => here,traced.registered⟩

theorem step_traced {s s' : EdgeServer k} {actor : Actor k} (traced : Traced ctx calls s)
    (stepped : s.step ctx calls actor = some s') : Traced ctx calls s' := by
  cases actor with
  | client i => exact client_traced traced (step_client stepped).2
  | handler => exact handler_traced traced stepped

theorem fib_missing {mem : FaultHandlerMemory} (missing : mem.invokePresent = false) {fn : UInt64} {n : UInt32}
    {result : UInt64} (found : ctx.fns.handlerAt edgeFibNum = .returned fn) (called : ctx.call fn n = .returned result) :
    ∃ mem', mem.fib ctx n = .returned (result, mem') ∧ mem'.invokePresent = true ∧ mem'.response 0 = result := by
  refine ⟨{ ((mem.setRequest 0 edgeFibNum).setRequest 1 n).setResponse 0 result with invokePresent := true },?_,rfl,rfl⟩
  simp [FaultHandlerMemory.fib,FaultHandlerMemory.readInvoke,FaultHandlerMemory.handleFault,FaultHandlerMemory.setRequest,
    FaultHandlerMemory.setResponse,missing,found,called]

theorem fib_present {mem : FaultHandlerMemory} (present : mem.invokePresent = true) (n : UInt32) :
    ∃ mem', mem.fib ctx n = .returned (mem.response 0, mem') := by
  refine ⟨(mem.setRequest 0 edgeFibNum).setRequest 1 n,?_⟩
  simp [FaultHandlerMemory.fib,FaultHandlerMemory.readInvoke,FaultHandlerMemory.setRequest,present]

theorem reaches_possible {mem : FaultHandlerMemory} (missing : mem.invokePresent = false) (i : Fin k) {result : UInt64}
    (possible : Possible ctx calls result) : ∃ s, Reaches ctx calls (start mem) s ∧ s.threads i = .returned result := by
  obtain ⟨fn,found,j,called⟩ := possible
  obtain ⟨mem',first,present,rfl⟩ := fib_missing missing found called
  have one : Reaches ctx calls (start mem) ({ (start mem) with mem := mem' }.moved j (.returned (mem'.response 0))) :=
    solo_fib rfl rfl rfl first
  by_cases same : i = j
  · subst same
    exact ⟨_,one,moved_self _ _ _⟩
  · obtain ⟨mem'',second⟩ := @fib_present ctx mem' present (calls i)
    exact ⟨_,one.trans (solo_fib (moved_other _ _ same) rfl rfl second),moved_self _ _ _⟩

theorem final_ended {s : EdgeServer k} (traced : Traced ctx calls s)
    (empty : ∀ fn, ctx.fns.handlerAt edgeFibNum ≠ .returned fn) (i : Fin k) (final : s.Final ctx calls) : s.handler = .ended := by
  by_contra alive
  have stuck : s.clientStep calls i = none := by simpa [step,alive] using final (.client i)
  have still : s.handlerStep ctx = none := final .handler
  have nothing : ∀ result, ¬Possible ctx calls result := by
    rintro result ⟨fn,found,_⟩
    exact empty fn found
  have thread := traced.threads i
  have here := traced.handler
  have waits : s.threads i = .faulted ∧ s.mem.invokePresent = false := by
    cases place : s.threads i with
    | faulted =>
      refine ⟨rfl,?_⟩
      by_contra present
      simp [clientStep,place,Bool.eq_true_of_not_eq_false present] at stuck
    | returned result =>
      rw [place] at thread
      exact absurd thread (nothing result)
    | poke => cases present : s.mem.invokePresent <;> simp [clientStep,place,present,traced.registered] at stuck
    | _ => simp [clientStep,place] at stuck
  cases place : s.handler with
  | polling => simp [handlerStep,place,waits.2,show ∃ i, s.threads i = .faulted from ⟨i,waits.1⟩] at still
  | loadSlot =>
    simp only [handlerStep,place] at still
    split at still <;> contradiction
  | calling fn arg0 =>
    rw [place] at here
    exact absurd here.1 (empty fn)
  | ended => exact alive place
  | _ => simp [handlerStep,place] at still

/-- Without a registration nobody faults, so the handler sleeps on and the response page holds what it did. -/
structure Unnoticed (held : UInt64) (s : EdgeServer k) : Prop where
  registered : s.registered = false
  handler : s.handler = .polling
  threads : ∀ i, s.threads i ≠ .faulted
  response : s.mem.response 0 = held
  returned : ∀ i result, s.threads i = .returned result → result = held

variable {held : UInt64} {s s' : EdgeServer k}

theorem Unnoticed.moved (still : Unnoticed held s) (mem : FaultHandlerMemory) (same : mem.response = s.mem.response) (i : Fin k)
    {position : ThreadAt} (runs : position ≠ .faulted) (returned : ∀ result, position = .returned result → result = held) :
    Unnoticed held ({ s with mem := mem }.moved i position) := by
  refine ⟨still.registered,still.handler,fun j => ?_,(congrFun same 0).trans still.response,fun j => ?_⟩
  all_goals by_cases here : j = i
  · rw [here,moved_self]
    exact runs
  · rw [moved_other _ _ here]
    exact still.threads j
  · rw [here,moved_self]
    exact returned
  · rw [moved_other _ _ here]
    exact still.returned j

theorem step_unnoticed {actor : Actor k} (still : Unnoticed held s) (stepped : s.step ctx calls actor = some s') :
    Unnoticed held s' := by
  cases actor with
  | client i =>
    rcases clientStep_cases (step_client stepped).2 with ⟨_,rfl⟩ | ⟨_,rfl⟩ | ⟨_,_,registered,_⟩ | ⟨_,_,rfl⟩ | ⟨_,rfl⟩ | ⟨_,_,_,rfl⟩
    · exact still.moved (s.mem.setRequest 0 edgeFibNum) rfl i (by simp) (by simp)
    · exact still.moved (s.mem.setRequest 1 (calls i)) rfl i (by simp) (by simp)
    · simp [still.registered] at registered
    · exact still.moved s.mem rfl i (by simp) (by simp)
    · refine still.moved s.mem rfl i (by simp) fun result same => ?_
      rw [← ThreadAt.returned.inj same]
      exact still.response
    · exact still.moved { s.mem with invokePresent := true } rfl i (by simp) (by simp)
  | handler => simp [step,handlerStep,still.handler,still.threads] at stepped

theorem final_unnoticed (still : Unnoticed held s) (final : s.Final ctx calls) (i : Fin k) : s.threads i = .returned held := by
  have stuck : s.clientStep calls i = none := by simpa [step,still.handler] using final (.client i)
  cases place : s.threads i with
  | returned result => rw [still.returned i result place]
  | faulted => exact absurd place (still.threads i)
  | poke => cases present : s.mem.invokePresent <;> simp [clientStep,place,present,still.registered] at stuck
  | _ => simp [clientStep,place] at stuck

end EdgeServer

/-- Whatever the table holds, once the page has been registered a client can be answered with the results of the
function in the slot at the arguments of the clients' calls, all of them, and with nothing else. As the server
comes, without a handler set, no client is ever answered then, and once there is one every run that cannot go on has
ended the process. If the page was not registered, every client is answered with what the response page held at
first. -/
theorem answers_possible_iff (ctx : EdgeContext) (mem : FaultHandlerMemory) (missing : mem.invokePresent = false) (k : Nat)
    (calls : Fin k → UInt32) :
    (∀ i result, (∃ schedule s, (EdgeServer.start mem).run ctx calls schedule = some s ∧ s.threads i = .returned result) ↔
      EdgeServer.Possible ctx calls result) ∧
    (ctx.fns = FnRegistration.new 100 → 0 < k → ∀ schedule s, (EdgeServer.start mem).run ctx calls schedule = some s →
      (∀ i result, s.threads i ≠ .returned result) ∧ (s.Final ctx calls → s.handler = .ended)) ∧
    ∀ schedule s, (EdgeServer.startUnregistered mem).run ctx calls schedule = some s →
      (∀ i result, s.threads i = .returned result → result = mem.response 0) ∧
      (s.Final ctx calls → ∀ i, s.threads i = .returned (mem.response 0)) := by
  have traced : ∀ schedule s, (EdgeServer.start mem).run ctx calls schedule = some s → EdgeServer.Traced ctx calls s :=
    fun schedule s ran =>
      EdgeServer.run_invariant (fun _ _ _ => EdgeServer.step_traced) ran (EdgeServer.start_traced ctx calls missing)
  refine ⟨fun i result => ⟨?_,fun possible => ?_⟩,fun shipped positive schedule s ran => ?_,fun schedule s ran => ?_⟩
  · rintro ⟨schedule,s,ran,returned⟩
    have here := (traced schedule s ran).threads i
    rwa [returned] at here
  · obtain ⟨s,⟨schedule,ran⟩,returned⟩ := EdgeServer.reaches_possible missing i possible
    exact ⟨schedule,s,ran,returned⟩
  · have empty : ∀ fn, ctx.fns.handlerAt edgeFibNum ≠ .returned fn := by
      intro fn found
      rw [shipped] at found
      cases found
    refine ⟨fun i result returned => ?_,EdgeServer.final_ended (traced schedule s ran) empty ⟨0,positive⟩⟩
    have here := (traced schedule s ran).threads i
    rw [returned] at here
    obtain ⟨fn,found,_⟩ := here
    exact empty fn found
  · have initial : EdgeServer.Unnoticed (mem.response 0) (EdgeServer.startUnregistered mem : EdgeServer k) :=
      ⟨rfl,rfl,fun _ => nofun,rfl,fun _ _ => nofun⟩
    have still := EdgeServer.run_invariant (fun _ _ _ => EdgeServer.step_unnoticed) ran initial
    exact ⟨still.returned,EdgeServer.final_unnoticed still⟩

/-- Three clients of the server as it comes. -/
theorem answers_possible_none :
    (FnRegistration.new 100).handlerAt edgeFibNum = .exited nullMessage ∧ ∀ schedule s,
      (EdgeServer.start ⟨fun _ => 0, fun _ => 0, false⟩).run ⟨.new 100, fun _ _ => .diverges⟩ (fun _ : Fin 3 => 1) schedule =
        some s → s.Final ⟨.new 100, fun _ _ => .diverges⟩ (fun _ => 1) → s.handler = .ended := by
  refine ⟨rfl,fun schedule s ran => ?_⟩
  exact ((answers_possible_iff ⟨.new 100, fun _ _ => .diverges⟩ ⟨fun _ => 0, fun _ => 0, false⟩ rfl 3 fun _ => 1).2.1 rfl
    (by decide) schedule s ran).2

end Ndp.Cpp
