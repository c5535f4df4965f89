import Ndp.ServerStore

/-! Which requests are answered. A handler writes at most one reply; it writes none exactly
when it returns an error, panics, or completes a call, and the first two end the
connection's loop. -/
namespace Ndp

open ByteMemory

/-- The kernel refuses a mapping only for want of a length. -/
def Env.RefusesOnlyEmpty (env : Env) : Prop := ∀ len, (∃ e, env.mmap len = .error e) ↔ len = 0

/-- The handler ends well, having written one reply. -/
def Handled.Answered (handled : Handled) : Prop := handled.result = .ok ∧ ∃ reply, handled.replies = [reply]

/-- The requests that are answered, by the store they meet. -/
def Answerable (machine : Machine) (ctx : ServerContext) : RequestBodyOwned → Prop
  | .alloc a => 0 < a.size.toNat ∧ a.size.toNat + machine.pageSize.toNat ≤ 2 ^ 64
  | .write w => machine.overflowChecks = true → ctx.pages w.handle ≠ none →
      w.offset.toNat + (UInt64.ofNat w.buf.length).toNat < 2 ^ 64
  | .read r => ∀ buf, ctx.pages r.handle = some buf →
      (2 ^ 64 ≤ r.offset.toNat + r.len.toNat → machine.overflowChecks = false ∧
        buf.len.toNat < r.offset.toNat + r.len.toNat - 2 ^ 64) ∧
      (r.offset.toNat + r.len.toNat ≤ buf.len.toNat → r.len.toNat ≤ isizeMax)
  | .invoke i => ctx.pages i.handle = none

section Handlers

variable (machine : Machine) (ctx : ServerContext)

theorem reply_answered (response : ResponseBody) : (ctx.reply response).Answered := ⟨rfl,response,rfl⟩

theorem panicked_unanswered (panic : Panic) : ¬(ctx.panicked panic).Answered := by
  rintro ⟨ok,_⟩
  contradiction

theorem failed_unanswered (e : HandlerError) : ¬(ctx.failed e).Answered := by
  rintro ⟨ok,_⟩
  contradiction

theorem alloc_answered_iff {env : Env} (law : env.RefusesOnlyEmpty) (alloc : AllocRequest) :
    (ctx.handleAlloc machine env alloc).Answered ↔ Answerable machine ctx (.alloc alloc) := by
  have fits := roundedSize_fits_iff machine alloc.size.toNat
  have lost := mappingLen_eq_zero_iff machine alloc.size
  rw [← UInt64.toNat_inj (a := alloc.size),UInt64.toNat_zero] at lost
  unfold ServerContext.handleAlloc
  rw [withSize_eq]
  simp only [Answerable]
  by_cases overflow : machine.overflowChecks ∧ 2 ^ 64 ≤ roundedSize machine alloc.size.toNat
  · rw [if_pos overflow]
    exact ⟨fun answered => absurd answered (panicked_unanswered ctx _),fun answerable => by omega⟩
  · rw [if_neg overflow]
    cases mapped : env.mmap (mappingLen machine alloc.size) with
    | error e =>
      have empty := lost.mp ((law _).mp ⟨e,mapped⟩)
      exact ⟨fun answered => absurd answered (failed_unanswered ctx _),fun answerable => by omega⟩
    | ok ptr =>
      have mappable := mt lost.mpr (fun empty => by
        obtain ⟨e,refused⟩ := (law _).mpr empty
        rw [mapped] at refused
        contradiction)
      exact ⟨fun _ => by omega,fun _ => reply_answered _ _⟩

theorem write_answered_iff (write : WriteRequestOwned) :
    (ctx.handleWrite machine write).Answered ↔ Answerable machine ctx (.write write) := by
  simp only [Answerable]
  cases live : ctx.pages write.handle with
  | none =>
    simp only [ServerContext.handleWrite,live]
    exact ⟨fun _ _ absent => absurd rfl absent,fun _ => reply_answered ctx _⟩
  | some buf =>
    rw [ServerContext.handleWrite_live live]
    by_cases overflow : machine.overflowChecks = true ∧
        2 ^ 64 ≤ write.offset.toNat + (UInt64.ofNat write.buf.length).toNat
    · rw [if_pos overflow]
      refine ⟨fun answered => absurd answered (panicked_unanswered ctx _),fun answerable => ?_⟩
      have := answerable overflow.1 (by simp)
      omega
    · rw [if_neg overflow]
      refine ⟨fun _ checks _ => by have := not_and.mp overflow checks; omega,fun _ => ?_⟩
      split <;> exact reply_answered _ _

theorem read_answered_live {read : ReadRequest} {buf : MappedBufMut} (live : ctx.pages read.handle = some buf) :
    (ctx.handleRead machine read).Answered ↔
      (2 ^ 64 ≤ read.offset.toNat + read.len.toNat → machine.overflowChecks = false ∧
        buf.len.toNat < read.offset.toNat + read.len.toNat - 2 ^ 64) ∧
      (read.offset.toNat + read.len.toNat ≤ buf.len.toNat → read.len.toNat ≤ isizeMax) := by
  have offset := read.offset.toNat_lt
  have len := read.len.toNat_lt
  have bound := buf.len.toNat_lt
  rw [ServerContext.handleRead_live live]
  by_cases overflow : machine.overflowChecks ∧ 2 ^ 64 ≤ read.offset.toNat + read.len.toNat
  · rw [if_pos overflow]
    refine ⟨fun answered => absurd answered (panicked_unanswered ctx _),fun answerable => ?_⟩
    have unchecked := (answerable.1 overflow.2).1
    rw [overflow.1] at unchecked
    contradiction
  rw [if_neg overflow]
  by_cases outside : buf.len.toNat < (read.offset.toNat + read.len.toNat) % 2 ^ 64
  · rw [if_pos outside]
    refine ⟨fun _ => ⟨fun wraps => ⟨?_,by omega⟩,fun inside => by omega⟩,fun _ => reply_answered ctx _⟩
    exact Bool.eq_false_iff.mpr fun checks => overflow ⟨checks,wraps⟩
  rw [if_neg outside]
  by_cases large : isizeMax < read.len.toNat
  · rw [if_pos large]
    exact ⟨fun answered => absurd answered (panicked_unanswered ctx _),fun answerable => by omega⟩
  rw [if_neg large]
  by_cases enough : read.len.toNat ≤ buf.len.toNat - read.offset.toNat
  · rw [if_pos enough]
    exact ⟨fun _ => ⟨fun wraps => by omega,fun _ => by omega⟩,fun _ => reply_answered ctx _⟩
  · rw [if_neg enough]
    exact ⟨fun answered => absurd answered (failed_unanswered ctx _),fun answerable => by omega⟩

theorem read_answered_iff (read : ReadRequest) :
    (ctx.handleRead machine read).Answered ↔ Answerable machine ctx (.read read) := by
  simp only [Answerable]
  cases live : ctx.pages read.handle with
  | none =>
    simp only [ServerContext.handleRead,live]
    exact ⟨fun _ _ there => by contradiction,fun _ => reply_answered ctx _⟩
  | some buf =>
    simp only [Option.some.injEq,forall_eq']
    exact read_answered_live machine ctx live

/-- No call on a live handle is answered, not even one that goes through. -/
theorem invoke_answered_iff (env : Env) (invoke : InvokeRequest) :
    (ctx.handleInvoke machine env invoke).Answered ↔ Answerable machine ctx (.invoke invoke) := by
  unfold ServerContext.handleInvoke
  simp only [Answerable]
  cases ctx.pages invoke.handle with
  | none => exact ⟨fun _ => rfl,fun _ => reply_answered ctx _⟩
  | some buf =>
    simp only [reduceCtorEq,iff_false]
    rintro ⟨ok,reply,replied⟩
    revert ok replied
    repeat' split
    all_goals simp [ServerContext.panicked]

theorem handle_answered_iff {env : Env} (law : env.RefusesOnlyEmpty) (request : RequestBodyOwned) :
    (ctx.handle machine env request).Answered ↔ Answerable machine ctx request := by
  cases request with
  | alloc alloc => exact alloc_answered_iff machine ctx law alloc
  | write write => exact write_answered_iff machine ctx write
  | read read => exact read_answered_iff machine ctx read
  | invoke invoke => exact invoke_answered_iff machine ctx env invoke

end Handlers

section Runs

variable (machine : Machine)

/-- Each request of one connection meets a condition on the store it is served on, and no allocation fails
while a request of any connection is served. -/
def Server.RequestsMeet (conn : Nat) (condition : ServerContext → RequestBodyOwned → Prop) :
    Server → List Event → Prop
  | _, [] => True
  | server, event :: rest => (event.conn = conn → condition server.ctx event.request) ∧
      (server.closed event.conn ∨ event.env.allocates) ∧
      Server.RequestsMeet conn condition (server.serve machine event).1 rest

theorem step_closed_other (server : Server) {event : Event} {conn : Nat} (other : event.conn ≠ conn) :
    (server.step machine event).1.closed conn = server.closed conn := by
  unfold Server.step
  split
  · rfl
  · exact closeUnlessOk_other _ _ (Ne.symm other)

theorem step_answered {server : Server} {event : Event} (alive : server.closed event.conn = false) :
    ((∃ reply, (server.step machine event).2 = [reply]) ∧
      (server.step machine event).1.closed event.conn = false) ↔
    (server.ctx.handle machine event.env event.request).Answered := by
  unfold Handled.Answered Server.step
  rw [if_neg (by simp [alive])]
  simp only [closeUnlessOk]
  by_cases ok : (server.ctx.handle machine event.env event.request).result = .ok
  · rw [if_pos ok]
    exact ⟨fun ⟨reply,_⟩ => ⟨ok,reply⟩,fun ⟨_,reply⟩ => ⟨reply,alive⟩⟩
  · rw [if_neg ok,Function.update_self]
    exact ⟨fun ⟨_,impossible⟩ => by contradiction,fun ⟨impossible,_⟩ => absurd impossible ok⟩

theorem step_closed_stays {server : Server} {conn : Nat} (closed : server.closed conn = true) (event : Event) :
    (server.step machine event).1.closed conn = true := by
  by_cases same : event.conn = conn
  · subst same
    rw [Server.step_closed closed]
    exact closed
  · rw [step_closed_other machine server same]
    exact closed

theorem outcome_closed {server : Server} {conn : Nat} (closed : server.closed conn = true) (events : List Event) :
    (server.outcome machine events).closed conn = true := by
  induction events generalizing server with
  | nil => exact closed
  | cons event rest ih =>
    refine ih ?_
    simp only [Server.serve]
    split
    · exact step_closed_stays machine closed event
    · rfl

end Runs

/-- Among any other connections, one connection gets one reply to each of its requests, in
their order, and its loop goes on, exactly if all of them are answerable when served and the
process is never out of memory. -/
theorem one_reply_each (machine : Machine) (server : Server) (conn : Nat) (events : List Event)
    (alive : server.closed conn = false)
    (law : ∀ event ∈ events, event.conn = conn → event.env.RefusesOnlyEmpty) :
    ((∀ served ∈ server.record machine events, served.conn = conn → ∃ reply, served.replies = [reply]) ∧
      (server.outcome machine events).closed conn = false) ↔
    server.RequestsMeet machine conn (Answerable machine) events := by
  induction events generalizing server with
  | nil => exact ⟨fun _ => trivial,fun _ => ⟨by simp [Server.record,Tracing.trace],alive⟩⟩
  | cons event rest ih =>
    have rules := fun event member => law event (List.mem_cons_of_mem _ member)
    rw [Server.outcome_cons,Server.record_cons,List.forall_mem_cons,Server.RequestsMeet]
    by_cases given : server.closed event.conn ∨ event.env.allocates
    · have round : server.serve machine event = server.step machine event := if_pos given
      simp only [round,given,true_and]
      by_cases own : event.conn = conn
      · subst own
        have here := (step_answered machine alive).trans
          (handle_answered_iff machine server.ctx (law event (by simp) rfl) event.request)
        constructor
        · rintro ⟨⟨replied,others⟩,still⟩
          have going : (server.step machine event).1.closed event.conn = false := by
            by_contra ended
            rw [outcome_closed machine (by simpa using ended)] at still
            contradiction
          exact ⟨fun _ => here.mp ⟨replied rfl,going⟩,(ih _ going rules).mp ⟨others,still⟩⟩
        · rintro ⟨answerable,others⟩
          obtain ⟨replied,going⟩ := here.mpr (answerable rfl)
          obtain ⟨replies,still⟩ := (ih _ going rules).mpr others
          exact ⟨⟨fun _ => replied,replies⟩,still⟩
      · have going := (step_closed_other machine server own).trans alive
        have later := ih _ going rules
        constructor
        · rintro ⟨⟨_,others⟩,still⟩
          exact ⟨fun same => absurd same own,later.mp ⟨others,still⟩⟩
        · rintro ⟨_,others⟩
          obtain ⟨replies,still⟩ := later.mpr others
          exact ⟨⟨fun same => absurd same own,replies⟩,still⟩
    · have aborts : (server.serve machine event).1.closed conn = true := by rw [Server.serve,if_neg given]
      constructor
      · rintro ⟨_,still⟩
        rw [outcome_closed machine aborts] at still
        contradiction
      · rintro ⟨_,granted,_⟩
        exact absurd granted given

/-- While the allocator has all that is asked of it the rounds are those of the handlers. -/
theorem outcome_allocated {machine : Machine} {server : Server} {events : List Event}
    (given : ∀ event ∈ events, event.env.allocates) :
    server.outcome machine events = server.after machine events ∧
      server.record machine events = server.history machine events := by
  induction events generalizing server with
  | nil => exact ⟨rfl,rfl⟩
  | cons event rest ih =>
    have round : server.serve machine event = server.step machine event :=
      if_pos (.inr (given event List.mem_cons_self))
    obtain ⟨state,seen⟩ := @ih (server.step machine event).1 fun e member => given e (List.mem_cons_of_mem _ member)
    rw [Server.outcome_cons,Server.record_cons,round]
    exact ⟨state,by rw [Server.history,seen]⟩

theorem mapsAt_refusesOnlyEmpty (ptr : Nat) (index : UInt64) : (Env.mapsAt ptr index).RefusesOnlyEmpty := by
  intro len
  by_cases empty : len = 0 <;> simp [Env.mapsAt,empty]

/-- An allocation, a write, and a read past the end, with another connection in between. -/
theorem one_reply_each_connection :
    (∀ served ∈ (Server.start 128 fun _ => 0).record .small [⟨0, .alloc ⟨3⟩, .mapsAt 100 0⟩,
        ⟨1, .invoke ⟨0⟩, .mapsAt 100 1⟩, ⟨0, .write ⟨0, 1, [7, 8]⟩, .mapsAt 100 1⟩,
        ⟨0, .read ⟨0, 2, 3⟩, .mapsAt 100 1⟩], served.conn = 0 → ∃ reply, served.replies = [reply]) ∧
      ((Server.start 128 fun _ => 0).outcome .small [⟨0, .alloc ⟨3⟩, .mapsAt 100 0⟩,
        ⟨1, .invoke ⟨0⟩, .mapsAt 100 1⟩, ⟨0, .write ⟨0, 1, [7, 8]⟩, .mapsAt 100 1⟩,
        ⟨0, .read ⟨0, 2, 3⟩, .mapsAt 100 1⟩]).closed 0 = false :=
  (one_reply_each .small (Server.start 128 fun _ => 0) 0 _ rfl (by
    intro event member _
    simp only [List.mem_cons,List.not_mem_nil,or_false] at member
    rcases member with rfl | rfl | rfl | rfl <;> exact mapsAt_refusesOnlyEmpty _ _)).mpr
    ⟨fun _ => ⟨by decide,by decide⟩,.inr rfl,by simp,.inr rfl,fun _ checks => by contradiction,.inr rfl,
      fun _ => by rintro buf ⟨rfl⟩; exact ⟨by decide,by decide⟩,.inr rfl,trivial⟩

/-- Nothing to map, a call on a live handle, and a read whose range wraps around: no reply,
and the connection's loop has ended. -/
theorem requests_unanswered :
    (((Server.start 128 fun _ => 0).step .small ⟨0, .alloc ⟨0⟩, .mapsAt 100 0⟩).2 = [] ∧
      ((Server.start 128 fun _ => 0).step .small ⟨0, .alloc ⟨0⟩, .mapsAt 100 0⟩).1.closed 0 = true) ∧
    ((((Server.start 128 fun _ => 0).after .small [⟨0, .alloc ⟨4⟩, .mapsAt 100 0⟩]).step .small
        ⟨0, .invoke ⟨0⟩, .mapsAt 100 1⟩).2 = [] ∧
      (((Server.start 128 fun _ => 0).after .small [⟨0, .alloc ⟨4⟩, .mapsAt 100 0⟩]).step .small
        ⟨0, .invoke ⟨0⟩, .mapsAt 100 1⟩).1.closed 0 = true) ∧
    ((((Server.start 128 fun _ => 0).after .small [⟨0, .alloc ⟨4⟩, .mapsAt 100 0⟩]).step .small
        ⟨0, .read ⟨0, 0xffffffffffffffff, 1⟩, .mapsAt 100 1⟩).2 = [] ∧
      (((Server.start 128 fun _ => 0).after .small [⟨0, .alloc ⟨4⟩, .mapsAt 100 0⟩]).step .small
        ⟨0, .read ⟨0, 0xffffffffffffffff, 1⟩, .mapsAt 100 1⟩).1.closed 0 = true) := by
  decide

end Ndp
