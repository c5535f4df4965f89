import Ndp.CodecExchange
import Ndp.RwLock
import Ndp.ServerStore
import Ndp.Tracing

/-! The server with all its connections, down to the bytes and to the places where its tasks
wait. A task waits for bytes, for the lock on the pages, which may be any, and for its reply to be
written; in between, tasks run in any order. Nothing is assumed of what arrives on a connection. An
allocation that fails while a task runs ends the process and with it all tasks. -/
namespace Ndp

open ByteMemory Looping

/-- Where the task of one connection stands: in `read_next`, before its handler's access to
the pages, with the reply still to be written, or behind its loop. -/
inductive TaskAt where
  | reading
  | serving (request : RequestBodyOwned)
  | answering (request : RequestBodyOwned) (replies : List ResponseBody) (result : HandlerEnd)
  | ended
  deriving DecidableEq, Repr

/-- The loop goes on behind a handler that returned `Ok`; the `unwrap` ends it otherwise. -/
def TaskAt.behind (result : HandlerEnd) : TaskAt := if result = .ok then .reading else .ended

/-- A complete body is buffered, or the socket has something to read. -/
def Link.Ready (link : Link) : Prop := link.ctx.getState = .done ∨ link.socket ≠ []

instance (link : Link) : Decidable link.Ready := inferInstanceAs (Decidable (_ ∨ _))

structure ConnTask where
  link : Link
  task : TaskAt
  out : List UInt8

/-- `handle_alloc` takes the lock on the pages for writing, the other handlers for reading. -/
def RequestBodyOwned.locksForWriting : RequestBodyOwned → Bool
  | .alloc _ => true
  | _ => false

/-- Reading, writing and calling keep the lock on the pages until the reply is written. -/
def TaskAt.holdsPages : TaskAt → Bool
  | .answering request _ _ => !request.locksForWriting
  | _ => false

/-- The store, the lock on its pages, every connection, and whether the process has been aborted. -/
structure Network (L : RwLock Nat) where
  ctx : ServerContext
  lock : L.State
  conns : Nat → ConnTask
  aborted : Bool

structure Host where
  lock : RwLock Nat
  rmps : Rmps
  grow : Growth
  machine : Machine
  peerAddr : Nat → Option SocketAddr
  maxNumFns : UInt32
  memory : Memory UInt8

/-- Something becomes readable on a connection, or its task is polled. An empty delivery is
the end of the stream. -/
inductive NetEvent where
  | arrive (conn : Nat) (event : ReadEvent)
  | poll (conn : Nat) (env : Env)

namespace Network

variable {L : RwLock Nat}

def set (net : Network L) (id : Nat) (conn : ConnTask) : Network L :=
  { net with conns := Function.update net.conns id conn }

@[simp] theorem set_ctx (net : Network L) (id : Nat) (conn : ConnTask) : (net.set id conn).ctx = net.ctx := rfl

@[simp] theorem set_lock (net : Network L) (id : Nat) (conn : ConnTask) : (net.set id conn).lock = net.lock := rfl

@[simp] theorem set_aborted (net : Network L) (id : Nat) (conn : ConnTask) : (net.set id conn).aborted = net.aborted := rfl

@[simp] theorem set_self (net : Network L) (id : Nat) (conn : ConnTask) : (net.set id conn).conns id = conn :=
  Function.update_self _ _ _

theorem set_other (net : Network L) {id other : Nat} (conn : ConnTask) (ne : other ≠ id) :
    (net.set id conn).conns other = net.conns other := Function.update_of_ne ne _ _

theorem forall_set (net : Network L) {id : Nat} {conn : ConnTask} (property : Nat → ConnTask → Prop) (own : property id conn)
    (others : ∀ other, other ≠ id → property other (net.conns other)) (other : Nat) :
    property other ((net.set id conn).conns other) := by
  by_cases same : other = id
  · subst same
    rwa [set_self]
  · rw [set_other _ _ same]
    exact others other same

def blocked (net : Network L) (id : Nat) (request : RequestBodyOwned) : Bool :=
  L.blocked net.lock id request.locksForWriting

/-- The task waits for bytes or for the lock, or has ended: a poll finds nothing to run. -/
def asleep (net : Network L) (id : Nat) : Bool :=
  match (net.conns id).task with
  | .reading => !decide (net.conns id).link.Ready
  | .serving request => net.blocked id request
  | .answering _ _ _ => false
  | .ended => true

/-- The request whose handler reaches the pages when a task runs. -/
def reaches (net : Network L) (id : Nat) (env : Env) : List Event :=
  match (net.conns id).task with
  | .serving request => if net.blocked id request then [] else [⟨id, request, env⟩]
  | _ => []

def serves (net : Network L) : NetEvent → List Event
  | .arrive _ _ => []
  | .poll id env => if net.aborted then [] else if net.asleep id || env.allocates then net.reaches id env else []

end Network

namespace Host

variable (host : Host)

def start : Network host.lock where
  ctx := .withCapacity host.maxNumFns host.memory
  lock := host.lock.free
  conns _ := ⟨.fresh (32 * 1024) [], .reading, []⟩
  aborted := false

/-- One iteration of `read_next`'s loop. Without a complete body it waits for something to read. -/
def pollReading (id : Nat) (conn : ConnTask) : ConnTask :=
  if ¬conn.link.Ready then conn
  else
    match readNextBody host.rmps host.grow (host.peerAddr id) RequestBodyOwned conn.link with
    | .next link => { conn with link := link }
    | .ret (.returned (.ok request) link) => { conn with link := link, task := .serving request }
    | .ret (.returned (.error _) link) => { conn with link := link, task := .ended }
    | .ret (.panicked _) => { conn with task := .ended }

/-- The handler's access to the pages. A handler without a reply runs to its end at once. -/
def pollServing (net : Network host.lock) (id : Nat) (env : Env) (request : RequestBodyOwned) : Network host.lock :=
  if net.blocked id request then { net with lock := host.lock.wait net.lock id request.locksForWriting }
  else
    let handled := net.ctx.handle host.machine env request
    let conn := net.conns id
    match handled.replies with
    | [] =>
      { net with ctx := handled.ctx, lock := host.lock.pass net.lock id }.set id
        { conn with task := .behind handled.result }
    | reply :: more =>
      { net with
        ctx := handled.ctx
        lock := if request.locksForWriting then host.lock.pass net.lock id else host.lock.hold net.lock id }.set id
          { conn with task := .answering request (reply :: more) handled.result }

def poll (net : Network host.lock) (id : Nat) (env : Env) : Network host.lock :=
  let conn := net.conns id
  match conn.task with
  | .reading => net.set id (host.pollReading id conn)
  | .serving request => host.pollServing net id env request
  | .answering _ replies result =>
    { net with lock := host.lock.release net.lock id }.set id
      { conn with task := .behind result, out := conn.out ++ streamOf host.rmps replies }
  | .ended => net

def step (net : Network host.lock) : NetEvent → Network host.lock
  | .arrive id event =>
    let conn := net.conns id
    net.set id { conn with link := { conn.link with socket := conn.link.socket ++ [event] } }
  | .poll id env =>
    if net.aborted then net
    else if net.asleep id || env.allocates then host.poll net id env
    else { net with aborted := true }

def after (events : List NetEvent) : Network host.lock := Tracing.after host.step host.start events

def served (events : List NetEvent) : List Event := Tracing.trace host.step Network.serves host.start events

/-- Everything one poll of a connection may come to. -/
inductive Polled (net : Network host.lock) (id : Nat) (env : Env) : List Event → Network host.lock → Prop where
  | waits : Polled net id env [] net
  | aborts : net.asleep id = false → env.allocates = false → Polled net id env [] { net with aborted := true }
  | queues (request : RequestBodyOwned) : (net.conns id).task = .serving request → net.blocked id request = true →
      Polled net id env [] { net with lock := host.lock.wait net.lock id request.locksForWriting }
  | reads (link : Link) : (net.conns id).task = .reading → (net.conns id).link.Ready →
      readNextBody host.rmps host.grow (host.peerAddr id) RequestBodyOwned (net.conns id).link = .next link →
      Polled net id env [] (net.set id { net.conns id with link := link })
  | takes (request : RequestBodyOwned) (link : Link) : (net.conns id).task = .reading → (net.conns id).link.Ready →
      readNextBody host.rmps host.grow (host.peerAddr id) RequestBodyOwned (net.conns id).link =
        .ret (.returned (.ok request) link) →
      Polled net id env [] (net.set id { net.conns id with link := link, task := .serving request })
  | breaks (e : MessageReadError host.rmps.Error) (link : Link) :
      (net.conns id).task = .reading → (net.conns id).link.Ready →
      readNextBody host.rmps host.grow (host.peerAddr id) RequestBodyOwned (net.conns id).link =
        .ret (.returned (.error e) link) →
      Polled net id env [] (net.set id { net.conns id with link := link, task := .ended })
  | panics (panic : Panic) : (net.conns id).task = .reading → (net.conns id).link.Ready →
      readNextBody host.rmps host.grow (host.peerAddr id) RequestBodyOwned (net.conns id).link =
        .ret (.panicked panic) →
      Polled net id env [] (net.set id { net.conns id with task := .ended })
  | finishes (request : RequestBodyOwned) : (net.conns id).task = .serving request →
      net.blocked id request = false → (net.ctx.handle host.machine env request).replies = [] →
      Polled net id env [⟨id, request, env⟩]
        ({ net with ctx := (net.ctx.handle host.machine env request).ctx, lock := host.lock.pass net.lock id }.set id
          { net.conns id with task := .behind (net.ctx.handle host.machine env request).result })
  | handles (request : RequestBodyOwned) : (net.conns id).task = .serving request →
      net.blocked id request = false → (net.ctx.handle host.machine env request).replies ≠ [] →
      Polled net id env [⟨id, request, env⟩]
        ({ net with
          ctx := (net.ctx.handle host.machine env request).ctx
          lock := if request.locksForWriting then host.lock.pass net.lock id else host.lock.hold net.lock id }.set id
          { net.conns id with task := .answering request (net.ctx.handle host.machine env request).replies
                                (net.ctx.handle host.machine env request).result })
  | answers (request : RequestBodyOwned) (replies : List ResponseBody) (result : HandlerEnd) :
      (net.conns id).task = .answering request replies result →
      Polled net id env [] ({ net with lock := host.lock.release net.lock id }.set id
        { net.conns id with task := .behind result, out := (net.conns id).out ++ streamOf host.rmps replies })

end Host

theorem Network.set_conns {L : RwLock Nat} (net : Network L) (id : Nat) : net.set id (net.conns id) = net := by
  simp [Network.set]

namespace Host

variable (host : Host)

theorem poll_reading (net : Network host.lock) (id : Nat) (env : Env) (reading : (net.conns id).task = .reading) :
    host.Polled net id env [] (net.set id (host.pollReading id (net.conns id))) := by
  unfold pollReading
  split
  · rw [net.set_conns]
    exact .waits
  · next ready =>
    have ready := not_not.mp ready
    split
    · next link read => exact .reads link reading ready read
    · next request link read => exact .takes request link reading ready read
    · next e link read => exact .breaks e link reading ready read
    · next panic read => exact .panics panic reading ready read

theorem poll_serving (net : Network host.lock) (id : Nat) (env : Env) {request : RequestBodyOwned}
    (serving : (net.conns id).task = .serving request) :
    host.Polled net id env (if net.blocked id request then [] else [⟨id, request, env⟩])
      (host.pollServing net id env request) := by
  unfold pollServing
  by_cases blocked : net.blocked id request
  · simp only [if_pos blocked]
    exact .queues request serving blocked
  · have granted : net.blocked id request = false := by simpa using blocked
    simp only [if_neg blocked]
    split
    · next replies => exact .finishes request serving granted replies
    · next reply more replies =>
      rw [← replies]
      exact .handles request serving granted (by simp [replies])

theorem poll_runs (net : Network host.lock) (id : Nat) (env : Env) :
    host.Polled net id env (net.reaches id env) (host.poll net id env) := by
  simp only [poll,Network.reaches]
  cases task : (net.conns id).task with
  | reading => exact host.poll_reading net id env task
  | serving request => exact host.poll_serving net id env task
  | answering request replies result => exact .answers request replies result task
  | ended => exact .waits

theorem poll_polled (net : Network host.lock) (id : Nat) (env : Env) :
    host.Polled net id env (net.serves (.poll id env)) (host.step net (.poll id env)) := by
  simp only [step,Network.serves]
  by_cases aborted : net.aborted = true
  · rw [if_pos aborted,if_pos aborted]
    exact .waits
  · rw [if_neg aborted,if_neg aborted]
    split
    · exact host.poll_runs net id env
    · next refused =>
      have refused : net.asleep id = false ∧ env.allocates = false := by simpa using refused
      exact .aborts refused.1 refused.2

end Host

end Ndp
