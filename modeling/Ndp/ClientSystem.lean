import Ndp.Client
import Ndp.CodecExchange
import Ndp.ServerStore

/-! Any number of clients on one server, down to the bytes of their connections. A step is
one client going from reply to reply, or the server taking one request off a connection;
in which order they come, and in which pieces bytes arrive, is left open. -/
namespace Ndp

open ByteMemory

structure Deployment where
  rmps : Rmps
  grow : Growth
  machine : Machine
  maxNumFns : UInt32
  memory : Memory UInt8
  serverAddr : Option SocketAddr
  clientAddr : Nat → Option SocketAddr
  workload : Nat → Workload

structure Connection (ε : Type) where
  client : Client ε
  up : Link
  down : Link

structure System (ε : Type) where
  server : Server
  conns : Nat → Connection ε

/-- A bound on the steps that are left to a connection until its client has ended: four for
a byte still to be covered, where a request that is under way counts for one. -/
def Connection.left (w : Workload) (conn : Connection ε) : Nat :=
  let underWay := if conn.up.socket.isEmpty then 0 else 1
  match conn.client.phase with
  | .connected => 4 * w.bufSize.toNat + 4
  | .awaitAlloc => 4 * w.bufSize.toNat + 2 + underWay
  | .awaitWrite _ i _ => 4 * (w.bufSize.toNat - i.toNat) + underWay
  | .awaitRead _ i _ => 4 * (w.bufSize.toNat - i.toNat) - 2 + underWay
  | .returned _ | .panicked _ => 0

def Env.MapsNonempty (env : Env) : Prop := ∀ len, len ≠ 0 → ∃ ptr, env.mmap len = .ok ptr

def Server.close (server : Server) (conn : Nat) : Server :=
  { server with closed := Function.update server.closed conn true }

namespace Deployment

variable (dep : Deployment)

def initial : System dep.rmps.Error where
  server := .start dep.maxNumFns dep.memory
  conns id := ⟨⟨.connected, []⟩, .fresh (32 * 1024) [], .fresh (dep.workload id).ctxCapacity []⟩

/-- One round of a connection's loop in `run`: a request is served, anything else breaks. -/
def serverRound (sys : System dep.rmps.Error) (id : Nat) (env : Env) :
    Server × Link × List ResponseBody :=
  match readNext dep.rmps dep.grow (dep.clientAddr id) RequestBodyOwned (sys.conns id).up with
  | .returned (.ok request) up =>
    let (server, replies) := sys.server.step dep.machine ⟨id, request, env⟩
    (server, up, replies)
  | .returned (.error _) up => (sys.server.close id, up, [])
  | .panicked _ => (sys.server.close id, (sys.conns id).up, [])

def clientRound (id : Nat) (conn : Connection dep.rmps.Error) :
    Connection dep.rmps.Error × List RequestBody :=
  match readNext dep.rmps dep.grow dep.serverAddr ResponseBodyOwned conn.down with
  | .returned result down =>
    let (client, request) := (dep.workload id).receive conn.client result
    (⟨client, conn.up, down⟩, request.toList)
  | .panicked panic => ({ conn with client := { conn.client with phase := .panicked panic } }, [])

/-- A step on one connection. A reader waits until something has arrived or the other side
is gone. -/
inductive Step (id : Nat) (sys : System dep.rmps.Error) : System dep.rmps.Error → Prop where
  | connect (chunks : List (List UInt8)) :
      (sys.conns id).client.phase = .connected →
      Delivers (writeTo dep.rmps (dep.workload id).allocRequest) chunks →
      Step id sys ⟨sys.server, Function.update sys.conns id
        ⟨⟨.awaitAlloc, []⟩, (sys.conns id).up.send chunks, (sys.conns id).down⟩⟩
  | serve (env : Env) (chunks : List (List UInt8)) :
      sys.server.closed id = false →
      ((sys.conns id).up.socket ≠ [] ∨ (sys.conns id).client.phase.ended) →
      env.Lawful sys.server.ctx → env.MapsNonempty →
      Delivers (streamOf dep.rmps (dep.serverRound sys id env).2.2) chunks →
      Step id sys ⟨(dep.serverRound sys id env).1, Function.update sys.conns id
        ⟨(sys.conns id).client, (dep.serverRound sys id env).2.1, (sys.conns id).down.send chunks⟩⟩
  | receive (chunks : List (List UInt8)) :
      (sys.conns id).client.phase.waits →
      ((sys.conns id).down.socket ≠ [] ∨ sys.server.closed id) →
      Delivers (streamOf dep.rmps (dep.clientRound id (sys.conns id)).2) chunks →
      Step id sys ⟨sys.server, Function.update sys.conns id
        { (dep.clientRound id (sys.conns id)).1 with
          up := (dep.clientRound id (sys.conns id)).1.up.send chunks }⟩

/-- Runs from the start, with the connections that took a step, the latest first. -/
inductive Run : List Nat → System dep.rmps.Error → Prop where
  | initial : Run [] dep.initial
  | step {id : Nat} : Run schedule sys → dep.Step id sys sys' → Run (id :: schedule) sys'

end Deployment

end Ndp
