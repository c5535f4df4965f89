import Ndp.FibKernel
import Ndp.FnTables
import Ndp.Latch

/-! Remote calls through a page fault, as the C++ programs make them. The caller leaves slot
and argument in the request page and reads a byte of the invoke page. If that page is
missing, the read runs one round of the fault handler's loop, which calls the function and
leaves its result in the response page; if it is present, nothing runs. The three pages so
work as one cell that keeps its first answer until the invoke page is taken away. -/
namespace Ndp.Cpp

def edgeFibNum : UInt32 := 42

/-- The pages of `fault_handler_memory`, as words at the indices the code uses; of the invoke
page only whether it is present. -/
structure FaultHandlerMemory where
  request : Nat → UInt32
  response : Nat → UInt64
  invokePresent : Bool

/-- What the fault handler's thread works with: the table of functions, and what a call of
the code at an address does. -/
structure EdgeContext where
  fns : FnRegistration
  call : (fn : UInt64) → (arg0 : UInt32) → Outcome UInt64

def EdgeContext.FibRegistered (ctx : EdgeContext) : Prop :=
  ∃ fn, ctx.fns.handlerAt edgeFibNum = .returned fn ∧ ctx.call fn = fibKernel

namespace FaultHandlerMemory

variable (ctx : EdgeContext)

def setRequest (mem : FaultHandlerMemory) (index : Nat) (value : UInt32) : FaultHandlerMemory :=
  { mem with request := Function.update mem.request index value }

def setResponse (mem : FaultHandlerMemory) (index : Nat) (value : UInt64) : FaultHandlerMemory :=
  { mem with response := Function.update mem.response index value }

/-- The body of the loop in `fault_handler_thread`, for a fault that has been read. Copying
the page to where the fault was makes the invoke page present. -/
def handleFault (mem : FaultHandlerMemory) : Outcome FaultHandlerMemory := do
  let fn ← ctx.fns.handlerAt (mem.request 0)
  let arg0 := mem.request 1
  let result ← ctx.call fn arg0
  return { mem.setResponse 0 result with invokePresent := true }

def readInvoke (mem : FaultHandlerMemory) : Outcome FaultHandlerMemory :=
  if mem.invokePresent then return mem else mem.handleFault ctx

def fib (n : UInt32) (mem : FaultHandlerMemory) : Outcome (UInt64 × FaultHandlerMemory) := do
  let mem := (mem.setRequest 0 edgeFibNum).setRequest 1 n
  let mem ← mem.readInvoke ctx
  return (mem.response 0, mem)

/-- `mremap` with `MREMAP_DONTUNMAP` moves the page away and leaves the range registered. -/
def invalidate (mem : FaultHandlerMemory) : FaultHandlerMemory := { mem with invokePresent := false }

end FaultHandlerMemory

/-- What the client's `main` does with its memory, over and over. -/
inductive ClientOp where
  | fib (n : UInt32)
  | invalidate
  deriving DecidableEq, Repr

def FaultHandlerMemory.after (ctx : EdgeContext) (mem : FaultHandlerMemory) :
    List ClientOp → Outcome FaultHandlerMemory
  | [] => return mem
  | .fib n :: rest => do
    let (_, mem) ← mem.fib ctx n
    mem.after ctx rest
  | .invalidate :: rest => mem.invalidate.after ctx rest

def ClientOp.latched : ClientOp → Latch.Op UInt32
  | .fib n => .use n
  | .invalidate => .clear

/-- The arguments of the calls since the most recent invalidation, the oldest first. -/
def sinceInvalidation (ops : List ClientOp) : List UInt32 := Latch.sinceClear (ops.map ClientOp.latched)

theorem fib_mem_of_sinceInvalidation {ops : List ClientOp} {n : UInt32} (used : n ∈ sinceInvalidation ops) :
    .fib n ∈ ops := by
  obtain ⟨op,member,same⟩ := List.mem_map.mp (Latch.use_mem_of_sinceClear used)
  cases op with
  | invalidate => contradiction
  | fib k =>
    obtain rfl := Latch.Op.use.inj same
    exact member

def fibValue (n : UInt32) : UInt64 := UInt64.ofNat (Nat.fib n.toNat)

theorem handleFault_present {ctx : EdgeContext} {mem mem' : FaultHandlerMemory}
    (handled : mem.handleFault ctx = .returned mem') : mem'.invokePresent = true := by
  obtain ⟨fn,_,calling⟩ := Outcome.bind_returned_iff.mp handled
  obtain ⟨result,_,stored⟩ := Outcome.bind_returned_iff.mp calling
  obtain rfl := Outcome.returned.inj stored
  rfl

/-- The invoke page is missing while the cell is clear; once it is present, the response page
holds the cell's value. -/
def FaultHandlerMemory.Holds (mem : FaultHandlerMemory) : Option UInt64 → Prop
  | none => mem.invokePresent = false
  | some value => mem.invokePresent = true ∧ mem.response 0 = value

theorem invalidate_clears (mem : FaultHandlerMemory) (cell : Option UInt64) :
    mem.invalidate.Holds (Latch.step fibValue cell .clear) := rfl

section Cell

variable {ctx : EdgeContext} (registered : ctx.FibRegistered)

include registered

theorem handleFault_fib {mem : FaultHandlerMemory} (slot : mem.request 0 = edgeFibNum) {result : UInt64}
    (returns : fibKernel (mem.request 1) = .returned result) :
    mem.handleFault ctx = .returned { mem.setResponse 0 result with invokePresent := true } := by
  obtain ⟨fn,found,code⟩ := registered
  simp [FaultHandlerMemory.handleFault,slot,found,code,returns]

theorem fib_uses {mem : FaultHandlerMemory} {cell : Option UInt64} (holds : mem.Holds cell) {n : UInt32}
    (small : n.toNat < 2 ^ 32 - 1) :
    ∃ mem', mem.fib ctx n = .returned (cell.getD (fibValue n), mem') ∧
      mem'.Holds (Latch.step fibValue cell (.use n)) := by
  cases cell with
  | none =>
    let asked := (mem.setRequest 0 edgeFibNum).setRequest 1 n
    have slot : asked.request 0 = edgeFibNum := rfl
    have returns : fibKernel (asked.request 1) = .returned (fibValue n) := fibKernel_returns n (by omega)
    have missing : asked.invokePresent = false := holds
    refine ⟨{ asked.setResponse 0 (fibValue n) with invokePresent := true },?_,rfl,rfl⟩
    show asked.readInvoke ctx >>= _ = _
    simp [FaultHandlerMemory.readInvoke,missing,handleFault_fib registered slot returns,
      FaultHandlerMemory.setResponse]
  | some value =>
    obtain ⟨present,answer⟩ := holds
    refine ⟨(mem.setRequest 0 edgeFibNum).setRequest 1 n,?_,present,answer⟩
    simp [FaultHandlerMemory.fib,FaultHandlerMemory.readInvoke,FaultHandlerMemory.setRequest,present,answer]

theorem after_holds {mem : FaultHandlerMemory} {cell : Option UInt64} (holds : mem.Holds cell)
    (ops : List ClientOp) (small : ∀ n, .fib n ∈ ops → n.toNat < 2 ^ 32 - 1) :
    ∃ mem', mem.after ctx ops = .returned mem' ∧
      mem'.Holds (Latch.after fibValue cell (ops.map ClientOp.latched)) := by
  induction ops generalizing mem cell with
  | nil => exact ⟨mem,rfl,holds⟩
  | cons op rest ih =>
    have others : ∀ n, .fib n ∈ rest → n.toNat < 2 ^ 32 - 1 := fun n member => small n (by simp [member])
    cases op with
    | fib n =>
      obtain ⟨next,called,holds'⟩ := fib_uses registered holds (small n (by simp))
      obtain ⟨mem',ran,final⟩ := ih holds' others
      exact ⟨mem',by simp [FaultHandlerMemory.after,called,ran],final⟩
    | invalidate => exact ih (invalidate_clears mem cell) others

end Cell

/-- Every call of one thread returns, and returns what the kernel gives for the first argument
used since the most recent invalidation. Right after one, that is the call's own. -/
theorem stale_until_invalidated (ctx : EdgeContext) (registered : ctx.FibRegistered) (mem : FaultHandlerMemory)
    (missing : mem.invokePresent = false) (before : List ClientOp) (n : UInt32)
    (small : ∀ k, .fib k ∈ before ++ [.fib n] → k.toNat < 2 ^ 32 - 1) :
    ∃ mem' mem'' m result, mem.after ctx before = .returned mem' ∧ mem'.fib ctx n = .returned (result, mem'') ∧
      (sinceInvalidation (before ++ [.fib n])).head? = some m ∧ fibKernel m = .returned result ∧
      (before.getLast? = some .invalidate → m = n) := by
  have clear : mem.Holds none := missing
  obtain ⟨mem',ran,holds⟩ := after_holds registered clear before fun k member => small k (by simp [member])
  obtain ⟨mem'',called,_⟩ := fib_uses registered holds (small n (by simp))
  obtain ⟨m,first,answer⟩ := Latch.answer_eq fibValue (before.map ClientOp.latched) n
  have used : (sinceInvalidation (before ++ [.fib n])).head? = some m := by
    simpa [sinceInvalidation,ClientOp.latched] using first
  refine ⟨mem',mem'',m,_,ran,called,used,?_,?_⟩
  · rw [answer]
    exact fibKernel_returns m (by have := small m (fib_mem_of_sinceInvalidation (List.mem_of_head? used)); omega)
  · intro last
    obtain ⟨front,rfl⟩ := List.getLast?_eq_some_iff.mp last
    simpa [sinceInvalidation,ClientOp.latched,← List.append_assoc] using used.symm

def EdgeContext.withFib (maxRegistrations : UInt32) (address : UInt64) : EdgeContext where
  fns := ⟨maxRegistrations, (List.replicate maxRegistrations.toNat 0).set edgeFibNum.toNat address⟩
  call fn arg0 := if fn = address then fibKernel arg0 else .diverges

theorem withFib_registered {maxRegistrations : UInt32} {address : UInt64} (room : edgeFibNum < maxRegistrations)
    (live : address ≠ 0) :
    (FnRegistration.new maxRegistrations).setHandler edgeFibNum address =
      .returned (EdgeContext.withFib maxRegistrations address).fns ∧
    (EdgeContext.withFib maxRegistrations address).FibRegistered := by
  have empty : Tabulates maxRegistrations [] (FnRegistration.new maxRegistrations).fns := tabulates_new _
  have set : (FnRegistration.new maxRegistrations).setHandler edgeFibNum address = _ :=
    FnRegistration.setHandler_eq empty rfl address
  rw [if_pos room] at set
  have filled : Tabulates maxRegistrations [.setHandler edgeFibNum address]
      (EdgeContext.withFib maxRegistrations address).fns.fns := empty.set room address
  have found := FnRegistration.handlerAt_inside filled (by simpa [TableCall.NonNull] using live) room
  exact ⟨set,address,by simpa [recent] using found,by simp [EdgeContext.withFib]⟩

theorem stale_until_invalidated_once :
    ∃ mem' mem'' result, FaultHandlerMemory.after (.withFib 1000 0x401000) ⟨fun _ => 0, fun _ => 0, false⟩
        [.fib 5, .invalidate, .fib 7] = .returned mem' ∧
      mem'.fib (.withFib 1000 0x401000) 9 = .returned (result, mem'') ∧ fibKernel 7 = .returned result := by
  obtain ⟨mem',mem'',m,result,ran,called,first,kernel,_⟩ := stale_until_invalidated (.withFib 1000 0x401000)
    (withFib_registered (by decide) (by decide)).2 ⟨fun _ => 0,fun _ => 0,false⟩ rfl [.fib 5,.invalidate,.fib 7] 9
    (by intro k member; simp at member; rcases member with rfl | rfl | rfl <;> decide)
  obtain rfl : 7 = m := Option.some.inj first
  exact ⟨mem',mem'',result,ran,called,kernel⟩

end Ndp.Cpp
