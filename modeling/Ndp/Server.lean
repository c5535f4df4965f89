import Ndp.Codec
import Ndp.FnRegistrations
import Ndp.MappedBuf
import Ndp.Tracing

/-! The request handlers of the server. A handler's access to the shared store is one step:
it takes the state, gives the state back, and says what it wrote to its socket and how it
ended. Writes to a client's socket succeed. A handler is told for allocations that succeed; one
that fails ends the process, and this is a round of the server, not of the handler. -/
namespace Ndp

open ByteMemory

/-- `vec_arena::Arena`: entries at indices the arena chooses. -/
abbrev Arena (α : Type) := UInt64 → Option α

def Arena.insert (arena : Arena α) (index : UInt64) (value : α) : Arena α :=
  Function.update arena index (some value)

/-- The store all connections share, with the memory its mappings lie in. -/
structure ServerContext where
  pages : Arena MappedBufMut
  fns : FnRegistrations
  memory : Memory UInt8

def ServerContext.withCapacity (maxNumFns : UInt32) (memory : Memory UInt8) : ServerContext :=
  ⟨fun _ => none, .withMaxRegistrations maxNumFns, memory⟩

inductive HandlerError where
  | nix (e : Errno)
  | io (e : IoError)
  deriving DecidableEq, Repr

inductive HandlerEnd where
  | ok
  | err (e : HandlerError)
  | panicked (panic : Panic)
  deriving DecidableEq, Repr

structure Handled where
  ctx : ServerContext
  replies : List ResponseBody
  result : HandlerEnd

namespace ServerContext

variable (machine : Machine) (env : Env) (ctx : ServerContext)

def reply (response : ResponseBody) : Handled := ⟨ctx, [response], .ok⟩

def replyBadHandle : Handled := ctx.reply (.err ⟨.invalidHandle, "Invalid handle"⟩)

def replyOutOfRange : Handled := ctx.reply (.err ⟨.argumentOutOfRange, "Offset is out of range"⟩)

def panicked (panic : Panic) : Handled := ⟨ctx, [], .panicked panic⟩

def failed (e : HandlerError) : Handled := ⟨ctx, [], .err e⟩

/-- A call that goes through writes no response. -/
def handleInvoke (invoke : InvokeRequest) : Handled :=
  match ctx.pages invoke.handle with
  | none => ctx.replyBadHandle
  | some requestBuf =>
    match requestBuf.asCursor.readU32 machine ctx.memory with
    | .error _ => ctx.panicked .unwrapErr
    | .ok (slotId, input) =>
      match ctx.fns.handlerAt slotId with
      | .error panic => ctx.panicked panic
      | .ok none => ctx.panicked (.expectNone s!"Unhandled function slot id = {slotId}")
      | .ok (some handler) =>
        match input.readU32 machine ctx.memory with
        | .error _ => ctx.panicked .unwrapErr
        | .ok (arg0, _) => ⟨{ ctx with memory := env.call handler arg0 ctx.memory }, [], .ok⟩

/-- `Vec::resize` panics at a length no vector can have. -/
def handleRead (read : ReadRequest) : Handled :=
  match ctx.pages read.handle with
  | none => ctx.replyBadHandle
  | some pageBuf =>
    match addU64 machine.overflowChecks read.offset read.len with
    | .error panic => ctx.panicked panic
    | .ok stop =>
      if stop > pageBuf.len then ctx.replyOutOfRange
      else if isizeMax < read.len.toNat then ctx.panicked .capacityOverflow
      else
        match (pageBuf.asCursor.setPosition read.offset).readExact ctx.memory read.len.toNat with
        | .error e => ctx.failed (.io e)
        | .ok (output, _) => ctx.reply (.okWithBuffer ⟨read.handle, read.offset, output⟩)

/-- The number of bytes written is not looked at. -/
def handleWrite (write : WriteRequestOwned) : Handled :=
  match ctx.pages write.handle with
  | none => ctx.replyBadHandle
  | some pageBuf =>
    match addU64 machine.overflowChecks write.offset (UInt64.ofNat write.buf.length) with
    | .error panic => ctx.panicked panic
    | .ok stop =>
      if stop > pageBuf.len then ctx.replyOutOfRange
      else
        let (memory, _) := (pageBuf.asCursor.setPosition write.offset).write ctx.memory write.buf
        { ctx with memory := memory }.reply (.okWithHandle ⟨write.handle⟩)

def handleAlloc (alloc : AllocRequest) : Handled :=
  match MappedBufMut.withSize machine env ctx.memory alloc.size with
  | .error panic => ctx.panicked panic
  | .ok (.error e) => ctx.failed (.nix e)
  | .ok (.ok (buf, memory)) =>
    let handle := env.freeIndex
    { ctx with pages := ctx.pages.insert handle buf, memory := memory }.reply (.okWithHandle ⟨handle⟩)

section Live

variable {machine : Machine} {ctx : ServerContext} {page : MappedBufMut}

/-- A read of a live page: the sum of offset and length is checked for overflow or wraps, and
what comes of it is compared with the page's length. -/
theorem handleRead_live {read : ReadRequest} (live : ctx.pages read.handle = some page) :
    ctx.handleRead machine read =
      if machine.overflowChecks ∧ 2 ^ 64 ≤ read.offset.toNat + read.len.toNat then
        ctx.panicked .arithmeticOverflow
      else if page.len.toNat < (read.offset.toNat + read.len.toNat) % 2 ^ 64 then ctx.replyOutOfRange
      else if isizeMax < read.len.toNat then ctx.panicked .capacityOverflow
      else if read.len.toNat ≤ page.len.toNat - read.offset.toNat then
        ctx.reply (.okWithBuffer ⟨read.handle, read.offset,
          slice (page.asSlice ctx.memory) read.offset.toNat read.len.toNat⟩)
      else ctx.failed (.io .unexpectedEof) := by
  obtain ⟨c,bytes⟩ := readExact_eq ctx.memory page read.offset read.len.toNat
  simp only [handleRead,live,addU64]
  by_cases overflow : machine.overflowChecks ∧ 2 ^ 64 ≤ read.offset.toNat + read.len.toNat
  · simp only [if_pos overflow]
  · simp only [if_neg overflow,gt_iff_lt,UInt64.lt_iff_toNat_lt,UInt64.toNat_add,bytes]
    by_cases enough : read.len.toNat ≤ page.len.toNat - read.offset.toNat
    · simp only [if_pos enough]
    · simp only [if_neg enough]

theorem handleWrite_live {write : WriteRequestOwned} (live : ctx.pages write.handle = some page) :
    ctx.handleWrite machine write =
      if machine.overflowChecks ∧ 2 ^ 64 ≤ write.offset.toNat + (UInt64.ofNat write.buf.length).toNat then
        ctx.panicked .arithmeticOverflow
      else if page.len.toNat < (write.offset.toNat + write.buf.length) % 2 ^ 64 then ctx.replyOutOfRange
      else { ctx with memory := ((page.asCursor.setPosition write.offset).write ctx.memory write.buf).1 }.reply
        (.okWithHandle ⟨write.handle⟩) := by
  have stop : (write.offset + UInt64.ofNat write.buf.length).toNat =
      (write.offset.toNat + write.buf.length) % 2 ^ 64 := by
    rw [UInt64.toNat_add,UInt64.toNat_ofNat',Nat.add_mod_mod]
  simp only [handleWrite,live,addU64]
  by_cases overflow : machine.overflowChecks ∧
      2 ^ 64 ≤ write.offset.toNat + (UInt64.ofNat write.buf.length).toNat
  · simp only [if_pos overflow]
  · simp only [if_neg overflow,gt_iff_lt,UInt64.lt_iff_toNat_lt,stop]

end Live

def handle : RequestBodyOwned → Handled
  | .alloc alloc => ctx.handleAlloc machine env alloc
  | .write write => ctx.handleWrite machine write
  | .read read => ctx.handleRead machine read
  | .invoke invoke => ctx.handleInvoke machine env invoke

end ServerContext

/-- The server with all its connections: the store they share, and which of their loops
have ended. -/
structure Server where
  ctx : ServerContext
  closed : Nat → Bool

def Server.start (maxNumFns : UInt32) (memory : Memory UInt8) : Server :=
  ⟨.withCapacity maxNumFns memory, fun _ => false⟩

structure Event where
  conn : Nat
  request : RequestBodyOwned
  env : Env

structure Served where
  conn : Nat
  request : RequestBodyOwned
  replies : List ResponseBody
  deriving DecidableEq, Repr

/-- The handler's result is unwrapped: anything but `Ok` ends the connection's loop. -/
def closeUnlessOk (closed : Nat → Bool) (conn : Nat) (result : HandlerEnd) : Nat → Bool :=
  if result = .ok then closed else Function.update closed conn true

/-- One round of a connection's loop; nothing is served on a connection whose loop has ended. -/
def Server.step (machine : Machine) (server : Server) (event : Event) : Server × List ResponseBody :=
  if server.closed event.conn then (server, [])
  else
    let handled := server.ctx.handle machine event.env event.request
    (⟨handled.ctx, closeUnlessOk server.closed event.conn handled.result⟩, handled.replies)

/-- A round in a process that may be out of memory: an allocation that fails, such as that of the buffer a
client's read asks for, aborts the process, and with it every connection's loop. -/
def Server.serve (machine : Machine) (server : Server) (event : Event) : Server × List ResponseBody :=
  if server.closed event.conn ∨ event.env.allocates then server.step machine event
  else ({ server with closed := fun _ => true }, [])

def Server.outcome (machine : Machine) (server : Server) (events : List Event) : Server :=
  Tracing.after (fun server event => (server.serve machine event).1) server events

/-- Every request with what was written back, in a process that may be out of memory. -/
def Server.record (machine : Machine) (server : Server) (events : List Event) : List Served :=
  Tracing.trace (fun server event => (server.serve machine event).1)
    (fun server event => [⟨event.conn, event.request, (server.serve machine event).2⟩]) server events

theorem Server.outcome_cons (machine : Machine) (server : Server) (event : Event) (rest : List Event) :
    server.outcome machine (event :: rest) = (server.serve machine event).1.outcome machine rest := rfl

theorem Server.record_cons (machine : Machine) (server : Server) (event : Event) (rest : List Event) :
    server.record machine (event :: rest) =
      ⟨event.conn, event.request, (server.serve machine event).2⟩ ::
        (server.serve machine event).1.record machine rest := rfl

def Server.after (machine : Machine) (server : Server) (events : List Event) : Server :=
  events.foldl (fun server event => (server.step machine event).1) server

/-- Every request with what was written back, in the order of serving. -/
def Server.history (machine : Machine) (server : Server) : List Event → List Served
  | [] => []
  | event :: rest =>
    ⟨event.conn, event.request, (server.step machine event).2⟩ ::
      (server.step machine event).1.history machine rest

@[simp] theorem Server.after_nil (machine : Machine) (server : Server) : server.after machine [] = server := rfl

@[simp] theorem Server.after_cons (machine : Machine) (server : Server) (event : Event) (rest : List Event) :
    server.after machine (event :: rest) = (server.step machine event).1.after machine rest := rfl

theorem Server.after_append (machine : Machine) (server : Server) (first second : List Event) :
    server.after machine (first ++ second) = (server.after machine first).after machine second := by
  simp [Server.after]

theorem Server.history_append (machine : Machine) (server : Server) (first second : List Event) :
    server.history machine (first ++ second) =
      server.history machine first ++ (server.after machine first).history machine second := by
  induction first generalizing server with
  | nil => rfl
  | cons event rest ih => simp [Server.history,ih]

theorem closeUnlessOk_other (closed : Nat → Bool) {conn other : Nat} (result : HandlerEnd) (ne : other ≠ conn) :
    closeUnlessOk closed conn result other = closed other := by
  unfold closeUnlessOk
  split
  · rfl
  · exact Function.update_of_ne ne _ _

theorem closeUnlessOk_comm (closed : Nat → Bool) {a b : Nat} (ra rb : HandlerEnd) (ne : a ≠ b) :
    closeUnlessOk (closeUnlessOk closed a ra) b rb = closeUnlessOk (closeUnlessOk closed b rb) a ra := by
  unfold closeUnlessOk
  by_cases okA : ra = .ok <;> by_cases okB : rb = .ok <;> simp [okA,okB,Function.update_comm ne]

theorem Server.step_closed {machine : Machine} {server : Server} {event : Event}
    (closed : server.closed event.conn = true) : server.step machine event = (server, []) := by
  simp [Server.step,closed]

theorem Server.step_cases (machine : Machine) (server : Server) (event : Event) :
    server.step machine event = (server, []) ∨
    ∃ closed, server.step machine event =
      (⟨(server.ctx.handle machine event.env event.request).ctx, closed⟩,
        (server.ctx.handle machine event.env event.request).replies) := by
  unfold Server.step
  split
  · exact .inl rfl
  · exact .inr ⟨_,rfl⟩

end Ndp
