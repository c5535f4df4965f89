import Ndp.EdgeServer
import Ndp.Scheduling

/-! `main` of the C++ client and the thread of its fault handler. A first call finds the invoke page
missing, a second one finds it there, and then every round of the loop takes the page away, by moving
it to the place of the swap page and unmapping it there, and calls again. A step is one access to the
pages or one call into the kernel, of whichever thread comes next. -/
namespace Ndp.Cpp.EdgeClient

/-- What the calls into the system give, where the kernel function is and what a call does. -/
structure Env where
  uffd : Int32
  api : Int32
  register : Int32
  kernel : UInt64
  call : (fn : UInt64) → (arg0 : UInt32) → Outcome UInt64

/-- What the two threads work with. In the source the argument is 1 and the rounds are 100000. -/
structure Program where
  ctx : EdgeContext
  registered : Bool
  fibN : UInt32
  rounds : Nat

/-- `uffd::create`, `uffd::setup` and `uffd::register_mem`, and the function's registration. The result
of the last `ioctl` is compared with zero twice. -/
def setUp (fibN : UInt32) (rounds : Nat) (env : Env) : Outcome Program :=
  if env.uffd < 0 then .exited ("syscall(userfaultdf): failed with " ++ toString env.uffd)
  else if env.api < 0 then .exited ("ioctl(uffd, UFFDIO_API, ...): failed failed with " ++ toString env.api)
  else
    let result : Int32 := if env.register < 0 then 1 else 0
    if result < 0 then .exited ("ioctl(uffd, UFFDIO_REGISTER, ...): failed with " ++ toString result)
    else do
      let fns ← (FnRegistration.new 1000).setHandler edgeFibNum env.kernel
      return ⟨⟨fns, env.call⟩, 0 ≤ env.register, fibN, rounds⟩

/-- Where `main` stands: in one of its calls, the first two being those before the loop, or between
them. A thread that has not been joined ends the process when its handle goes out of scope. -/
inductive MainAt where
  | calling (call : Nat) (position : ThreadAt)
  | mapping
  | looping (k : Nat)
  | remapping (k : Nat)
  | unmapping (k : Nat)
  | destroying
  | terminated
  deriving DecidableEq, Repr

inductive Thread where
  | main
  | handler
  deriving DecidableEq, Repr

/-- With what has been answered, and the calls whose access to the invoke page has raised a fault. -/
structure Client where
  mem : FaultHandlerMemory
  main : MainAt
  handler : HandlerAt
  out : List UInt64
  faults : List Nat

def Client.start : Client := ⟨⟨fun _ => 0, fun _ => 0, false⟩, .calling 0 .storeSlot, .polling, [], []⟩

def MainAt.waits : MainAt → Bool
  | .calling _ .faulted => true
  | _ => false

def MainAt.behind : Nat → MainAt
  | 0 => .calling 1 .storeSlot
  | 1 => .mapping
  | k + 2 => .looping (k + 1)

namespace Program

variable (program : Program)

/-- The next access of `main` in `edge_rpc::fib`. Without a registration the kernel itself gives a page. -/
def callStep (s : Client) (call : Nat) : ThreadAt → Client
  | .storeSlot => { s with mem := s.mem.setRequest 0 edgeFibNum, main := .calling call .storeArg }
  | .storeArg => { s with mem := s.mem.setRequest 1 program.fibN, main := .calling call .poke }
  | .poke =>
    if s.mem.invokePresent then { s with main := .calling call .load }
    else if program.registered then { s with main := .calling call .faulted, faults := s.faults ++ [call] }
    else { s with mem := { s.mem with invokePresent := true }, main := .calling call .load }
  | .faulted => if s.mem.invokePresent then { s with main := .calling call .load } else s
  | .load => { s with main := .calling call (.returned (s.mem.response 0)) }
  | .returned answer => { s with out := s.out ++ [answer], main := .behind call }

def mainStep (s : Client) : Client :=
  match s.main with
  | .calling call position => program.callStep s call position
  | .mapping => { s with main := .looping 0 }
  | .looping k => { s with main := if k < program.rounds then .remapping k else .destroying }
  | .remapping k => { s with mem := s.mem.invalidate, main := .unmapping k }
  | .unmapping k => { s with main := .calling (k + 2) .storeSlot }
  | .destroying => { s with main := .terminated }
  | .terminated => s

/-- The next access of the handler's thread, as in the server. -/
def handlerStep (s : Client) : Client :=
  match s.handler with
  | .polling => if s.mem.invokePresent = false ∧ s.main.waits then { s with handler := .loadSlot } else s
  | .loadSlot =>
    match program.ctx.fns.handlerAt (s.mem.request 0) with
    | .returned fn => { s with handler := .loadArg fn }
    | _ => { s with handler := .ended }
  | .loadArg fn => { s with handler := .calling fn (s.mem.request 1) }
  | .calling fn arg0 =>
    match program.ctx.call fn arg0 with
    | .returned result => { s with handler := .storing result }
    | .diverges => s
    | _ => { s with handler := .ended }
  | .storing result => { s with mem := s.mem.setResponse 0 result, handler := .responding }
  | .responding => { s with mem := { s.mem with invokePresent := true }, handler := .polling }
  | .ended => s

def step (s : Client) : Thread → Client
  | .main => program.mainStep s
  | .handler => program.handlerStep s

def answer : UInt64 := if program.registered then fibValue program.fibN else 0

/-- Which of the first calls raise a fault: all but the second, which finds the page of the first one. -/
def faulting (calls : Nat) : List Nat := if program.registered then (List.range calls).filter (· ≠ 1) else []

end Program

variable {program : Program} {s : Client}

def Pending (s : Client) : Prop := s.mem.invokePresent = false ∧ s.main.waits = true

/-- The request page asks for the kernel at the argument. -/
def Asked (program : Program) (mem : FaultHandlerMemory) : Prop :=
  mem.request 0 = edgeFibNum ∧ mem.request 1 = program.fibN

/-- The page is there for the second call, before which nobody takes it away. -/
def CallSound (program : Program) (s : Client) (call : Nat) : ThreadAt → Prop
  | .storeSlot => s.mem.invokePresent = decide (call = 1) ∧ s.faults = program.faulting call
  | .storeArg => s.mem.invokePresent = decide (call = 1) ∧ s.faults = program.faulting call ∧ s.mem.request 0 = edgeFibNum
  | .poke => s.mem.invokePresent = decide (call = 1) ∧ s.faults = program.faulting call ∧ Asked program s.mem
  | .faulted => s.faults = program.faulting (call + 1) ∧ Asked program s.mem ∧ program.registered = true
  | .load => s.faults = program.faulting (call + 1) ∧ s.mem.invokePresent = true
  | .returned result => s.faults = program.faulting (call + 1) ∧ s.mem.invokePresent = true ∧ result = program.answer

def Answered (program : Program) (s : Client) (calls : Nat) : Prop := s.out = List.replicate calls program.answer

/-- So many calls are over, and no more have raised faults. -/
def Over (program : Program) (s : Client) (calls : Nat) : Prop := Answered program s calls ∧ s.faults = program.faulting calls

def MainSound (program : Program) (s : Client) : MainAt → Prop
  | .calling call position => call < program.rounds + 2 ∧ Answered program s call ∧ CallSound program s call position
  | .mapping => Over program s 2
  | .looping k => k ≤ program.rounds ∧ Over program s (k + 2)
  | .remapping k => k < program.rounds ∧ Over program s (k + 2)
  | .unmapping k => k < program.rounds ∧ Over program s (k + 2) ∧ s.mem.invokePresent = false
  | .destroying | .terminated => Over program s (program.rounds + 2)

def HandlerSound (program : Program) (s : Client) : HandlerAt → Prop
  | .polling => True
  | .loadSlot => Pending s
  | .loadArg fn => Pending s ∧ program.ctx.call fn = fibKernel
  | .calling fn arg0 => Pending s ∧ program.ctx.call fn = fibKernel ∧ arg0 = program.fibN
  | .storing result => Pending s ∧ result = program.answer
  | .responding => Pending s ∧ s.mem.response 0 = program.answer
  | .ended => False

structure Sound (program : Program) (s : Client) : Prop where
  main : MainSound program s s.main
  handler : HandlerSound program s s.handler
  answer : s.mem.invokePresent = true → s.mem.response 0 = program.answer
  unregistered : program.registered = false → s.mem.response 0 = 0

structure Lawful (program : Program) : Prop where
  kernel : program.ctx.FibRegistered
  small : program.fibN.toNat < 2 ^ 32 - 1

def Idle (s : Client) : Thread → Prop
  | .main => s.main = .terminated ∨ Pending s
  | .handler => s.handler = .ended ∨ s.handler = .polling ∧ ¬Pending s

def callLeft (handlerLeft : Nat) : ThreadAt → Nat
  | .storeSlot => 12
  | .storeArg => 11
  | .poke => 10
  | .faulted => 3 + handlerLeft
  | .load => 2
  | .returned _ => 1

/-- Steps left at most: so many for each round, those of the handler while `main` waits. -/
def work (program : Program) (s : Client) : Nat :=
  match s.main with
  | .calling call position => 20 * (program.rounds + 2 - call) + callLeft (s.handler.left s.mem.invokePresent) position
  | .mapping => 20 * program.rounds + 19
  | .looping k => 20 * (program.rounds - k) + 16
  | .remapping k => 20 * (program.rounds - k) + 15
  | .unmapping k => 20 * (program.rounds - k) + 14
  | .destroying => 1
  | .terminated => 0

def Advances (program : Program) (s s' : Client) : Prop := Sound program s' ∧ work program s' < work program s

theorem faulting_zero (program : Program) : program.faulting 0 = [] := by simp [Program.faulting]

theorem faulting_second (program : Program) : program.faulting 2 = program.faulting 1 := by
  unfold Program.faulting
  split <;> rfl

theorem faulting_succ (registered : program.registered = true) {call : Nat} (other : call ≠ 1) :
    program.faulting (call + 1) = program.faulting call ++ [call] := by
  simp [Program.faulting,registered,List.range_succ,List.filter_append,other]

theorem faulting_unregistered (registered : program.registered = false) (calls : Nat) : program.faulting calls = [] := by
  simp [Program.faulting,registered]

theorem sound_start (program : Program) : Sound program .start :=
  ⟨⟨by omega,rfl,rfl,(faulting_zero program).symm⟩,trivial,fun present => by simp [Client.start] at present,fun _ => rfl⟩

theorem idle_step {thread : Thread} (idle : Idle s thread) : program.step s thread = s := by
  cases thread with
  | main =>
    rcases idle with gone | ⟨missing,waits⟩
    · simp [Program.step,Program.mainStep,gone]
    · cases place : s.main with
      | calling call position => cases position <;> simp_all [MainAt.waits,Program.step,Program.mainStep,Program.callStep]
      | _ => simp [place,MainAt.waits] at waits
  | handler =>
    rcases idle with ended | ⟨polling,quiet⟩
    · simp [Program.step,Program.handlerStep,ended]
    · simp only [Program.step,Program.handlerStep,polling]
      exact if_neg quiet

theorem HandlerSound.pending {position : HandlerAt} (here : HandlerSound program s position) :
    position = .polling ∨ Pending s := by
  cases position with
  | polling => exact .inl rfl
  | loadSlot => exact .inr here
  | ended => exact here.elim
  | _ => exact .inr here.1

theorem Sound.polling (sound : Sound program s) (busy : ¬Pending s) : s.handler = .polling :=
  (HandlerSound.pending sound.handler).resolve_right busy

theorem Sound.moves {s' : Client} (sound : Sound program s) (handler : s'.handler = .polling)
    (response : s'.mem.response 0 = s.mem.response 0)
    (present : s'.mem.invokePresent = true → s.mem.invokePresent = true ∨ s.mem.response 0 = program.answer)
    (main : MainSound program s' s'.main) (less : work program s' < work program s) : Advances program s s' := by
  refine ⟨⟨main,by rw [handler]; trivial,fun there => ?_,fun missing => response.trans (sound.unregistered missing)⟩,less⟩
  rw [response]
  exact (present there).elim sound.answer id

theorem behind_sound {call : Nat} (bound : call < program.rounds + 2) (ended : Over program s (call + 1))
    (present : s.mem.invokePresent = true) : MainSound program s (.behind call) := by
  match call with
  | 0 => exact ⟨by omega,ended.1,present,ended.2⟩
  | 1 => exact ended
  | k + 2 => exact ⟨by omega,ended⟩

theorem behind_work {call : Nat} (bound : call < program.rounds + 2) {s' : Client} (place : s'.main = .behind call) :
    work program s' ≤ 20 * (program.rounds + 2 - call) := by
  match call with
  | 0 =>
    simp only [MainAt.behind] at place
    simp only [work,place,callLeft]
    omega
  | 1 =>
    simp only [MainAt.behind] at place
    simp only [work,place]
    omega
  | k + 2 =>
    simp only [MainAt.behind] at place
    simp only [work,place]
    omega

theorem MainSound.printed {position : MainAt} (here : MainSound program s position) :
    ∃ n, n ≤ program.rounds + 2 ∧ s.out = List.replicate n program.answer := by
  cases position with
  | calling call position => exact ⟨call,Nat.le_of_lt here.1,here.2.1⟩
  | mapping => exact ⟨2,by omega,here.1⟩
  | looping k => exact ⟨k + 2,Nat.add_le_add_right here.1 2,here.2.1⟩
  | remapping k => exact ⟨k + 2,Nat.add_le_add_right (Nat.le_of_lt here.1) 2,here.2.1⟩
  | unmapping k => exact ⟨k + 2,Nat.add_le_add_right (Nat.le_of_lt here.1) 2,here.2.1.1⟩
  | destroying | terminated => exact ⟨_,Nat.le_refl _,here.1⟩

theorem work_calling {call : Nat} {position : ThreadAt} (place : s.main = .calling call position) : work program s =
    20 * (program.rounds + 2 - call) + callLeft (s.handler.left s.mem.invokePresent) position := by
  simp only [work,place]

theorem poke_advances (sound : Sound program s) {call : Nat} (place : s.main = .calling call .poke) (busy : ¬Pending s) :
    Advances program s (program.callStep s call .poke) := by
  have polling := sound.polling busy
  have here := sound.main
  rw [place] at here
  obtain ⟨bound,out,page,faults,asked⟩ := here
  simp only [Program.callStep]
  cases present : s.mem.invokePresent with
  | true =>
    obtain rfl : call = 1 := by simpa [present] using page
    rw [if_pos rfl]
    refine sound.moves polling rfl .inl ⟨bound,out,faults.trans (faulting_second program).symm,present⟩ ?_
    rw [work_calling place]
    simp [work,callLeft]
  | false =>
    have other : call ≠ 1 := by simpa [present] using page
    rw [if_neg (by decide)]
    cases registered : program.registered with
    | true =>
      rw [if_pos rfl]
      refine sound.moves polling rfl .inl ⟨bound,out,?_,asked,registered⟩ ?_
      · rw [faulting_succ registered other,faults]
      · rw [work_calling place]
        simp [work,callLeft,polling,present,HandlerAt.left]
    | false =>
      have zero : s.mem.response 0 = program.answer := by
        rw [sound.unregistered registered,Program.answer,registered]
        rfl
      have unraised : s.faults = program.faulting (call + 1) := by
        rw [faults,faulting_unregistered registered,faulting_unregistered registered]
      rw [if_neg (by decide)]
      exact sound.moves polling rfl (fun _ => .inr zero) ⟨bound,out,unraised,rfl⟩
        (by rw [work_calling place]; simp [work,callLeft])

theorem call_advances (sound : Sound program s) {call : Nat} {position : ThreadAt} (place : s.main = .calling call position)
    (busy : ¬Pending s) : Advances program s (program.callStep s call position) := by
  have polling := sound.polling busy
  have here := sound.main
  rw [place] at here
  obtain ⟨bound,out,called⟩ := here
  have before := @work_calling program s call position place
  cases position with
  | storeSlot =>
    exact sound.moves polling rfl .inl ⟨bound,out,called.1,called.2,rfl⟩ (by rw [before]; simp [Program.callStep,work,callLeft])
  | storeArg =>
    exact sound.moves polling rfl .inl ⟨bound,out,called.1,called.2.1,called.2.2,rfl⟩
      (by rw [before]; simp [Program.callStep,work,callLeft])
  | poke => exact poke_advances sound place busy
  | faulted =>
    have present : s.mem.invokePresent = true := by
      by_contra missing
      exact busy ⟨by simpa using missing,by simp [place,MainAt.waits]⟩
    simp only [Program.callStep,present,if_true]
    refine sound.moves polling rfl .inl ⟨bound,out,called.1,present⟩ ?_
    rw [before]
    simp [work,callLeft]
    omega
  | load =>
    exact sound.moves polling rfl .inl ⟨bound,out,called.1,called.2,sound.answer called.2⟩
      (by rw [before]; simp [Program.callStep,work,callLeft])
  | returned result =>
    obtain ⟨faults,present,returned⟩ := called
    have more : Answered program (program.callStep s call (.returned result)) (call + 1) := by
      simp only [Answered,Program.callStep,List.replicate_succ',out.symm,returned]
    refine sound.moves polling rfl .inl (behind_sound bound ⟨more,faults⟩ present) ?_
    have less := @behind_work program call bound (program.callStep s call (.returned result)) rfl
    rw [before]
    simp only [callLeft]
    omega

theorem main_advances (sound : Sound program s) (busy : ¬Idle s .main) : Advances program s (program.mainStep s) := by
  obtain ⟨running,free⟩ := not_or.mp busy
  have polling := sound.polling free
  have here := sound.main
  cases place : s.main with
  | calling call position =>
    simp only [Program.mainStep,place]
    exact call_advances sound place free
  | mapping =>
    rw [place] at here
    simp only [Program.mainStep,place]
    exact sound.moves polling rfl .inl ⟨Nat.zero_le _,here⟩ (by simp [work,place])
  | looping k =>
    rw [place] at here
    obtain ⟨bound,out⟩ := here
    simp only [Program.mainStep,place]
    by_cases more : k < program.rounds
    · rw [if_pos more]
      exact sound.moves polling rfl .inl ⟨more,out⟩ (by simp [work,place])
    · obtain rfl : k = program.rounds := by omega
      rw [if_neg more]
      exact sound.moves polling rfl .inl out (by simp [work,place])
  | remapping k =>
    rw [place] at here
    simp only [Program.mainStep,place]
    exact sound.moves polling rfl (fun there => by simp [FaultHandlerMemory.invalidate] at there) ⟨here.1,here.2,rfl⟩
      (by simp [work,place])
  | unmapping k =>
    rw [place] at here
    obtain ⟨bound,⟨out,faults⟩,missing⟩ := here
    simp only [Program.mainStep,place]
    refine sound.moves polling rfl .inl ⟨by omega,out,by simp [missing],faults⟩ ?_
    simp only [work,place,callLeft]
    omega
  | destroying =>
    rw [place] at here
    simp only [Program.mainStep,place]
    exact sound.moves polling rfl .inl here (by simp [work,place])
  | terminated => exact absurd place running

theorem Sound.faulted (sound : Sound program s) (pending : Pending s) :
    ∃ call, s.main = .calling call .faulted ∧ call < program.rounds + 2 ∧ Answered program s call ∧
      s.faults = program.faulting (call + 1) ∧ Asked program s.mem ∧ program.registered = true := by
  have here := sound.main
  have waits := pending.2
  cases place : s.main with
  | calling call position =>
    rw [place] at here waits
    cases position with
    | faulted => exact ⟨call,rfl,here.1,here.2.1,here.2.2⟩
    | _ => simp [MainAt.waits] at waits
  | _ => simp [place,MainAt.waits] at waits

theorem Sound.handles {s' : Client} (sound : Sound program s) (pending : Pending s) (main : s'.main = s.main)
    (out : s'.out = s.out) (faults : s'.faults = s.faults) (request : s'.mem.request = s.mem.request)
    (handler : HandlerSound program s' s'.handler)
    (answer : s'.mem.invokePresent = true → s'.mem.response 0 = program.answer)
    (less : s'.handler.left s'.mem.invokePresent < s.handler.left s.mem.invokePresent) : Advances program s s' := by
  obtain ⟨call,place,bound,answered,raised,asked,registered⟩ := sound.faulted pending
  have asked' : Asked program s'.mem := by
    rw [Asked,request]
    exact asked
  refine ⟨⟨?_,handler,answer,fun missing => by simp [registered] at missing⟩,?_⟩
  · rw [main,place]
    exact ⟨bound,out.trans answered,faults.trans raised,asked',registered⟩
  · simp only [work,main,place,callLeft]
    omega

/-- A system where all calls succeed, with the kernel function at some address. -/
def Env.working : Env := ⟨3, 0, 0, 0x401000, fun fn arg0 => if fn = 0x401000 then fibKernel arg0 else .diverges⟩

end Ndp.Cpp.EdgeClient
