import Ndp.FaultMemory
import Ndp.FibKernels
import Ndp.Scheduling

/-! A call through the pages, as the Rust client's `main` makes it: the slot and the argument are
written to the request buffer, a byte of the invoke buffer is read, and while that read waits for its
page the thread of the fault handler calls the function. Its result is then in the response buffer.
If the thread panics, no one is left to bring the page. The byte is not used for anything, so a build that
drops the read calls nothing and prints the zero of a new mapping. -/
namespace Ndp

open ByteMemory

/-- `write_u32::<NativeEndian>`, up to the bytes. -/
def nativeU32 (machine : Machine) (value : UInt32) : List UInt8 :=
  let digits := ByteReader.bigEndian 4 value.toNat
  if machine.littleEndian then digits.reverse else digits

namespace Cursor

/-- All four bytes have to fit; those that do are written in any case. -/
def writeU32 (machine : Machine) (memory : Memory UInt8) (c : Cursor) (value : UInt32) : Memory UInt8 × Option Cursor :=
  let (memory, amount) := c.write memory (nativeU32 machine value)
  (memory, if amount < 4 then none else some { c with position := c.position + 4 })

def readI64 (machine : Machine) (memory : Memory UInt8) (c : Cursor) : Except IoError (UInt64 × Cursor) :=
  match c.readExact memory 8 with
  | .error e => .error e
  | .ok (bytes, c) =>
    let digits := if machine.littleEndian then bytes.reverse else bytes
    .ok (UInt64.ofNat (digits.foldl (fun n b => n * 256 + b.toNat) 0), c)

end Cursor

namespace FaultCall

/-- The call, and what there is to answer it: the buffers, the table of functions and what a registered
function does, and what the kernel answers the thread when it maps its own buffer. Whether the read of
`_poke` is kept is up to the build. -/
structure Caller where
  machine : Machine
  keepsPoke : Bool
  mem : FaultHandlerMemory
  fns : FnRegistrations
  call : (handler : UInt64) → (arg0 : UInt32) → Memory UInt8 → Called
  threadEnv : Env
  slot : FnSlotId
  arg0 : UInt32

inductive MainAt where
  | writingSlot
  | writingArg (input : Cursor)
  | poking
  | faulted
  | reading
  | printed (result : UInt64)
  | failed
  | panicked
  deriving DecidableEq, Repr

/-- The thread is in a call that does not return, or has ended the process with it, in the last two. -/
inductive ThreadAt where
  | starting
  | polling (tmp : MappedBufMut)
  | panicked (panic : Panic)
  | calling
  | aborted
  deriving DecidableEq, Repr

inductive Party where
  | main
  | thread
  deriving DecidableEq, Repr

/-- Of the invoke buffer, which bytes lie in pages that are there. -/
structure State where
  memory : Memory UInt8
  present : Nat → Bool
  main : MainAt
  thread : ThreadAt

def State.start (memory : Memory UInt8) : State := ⟨memory, fun _ => false, .writingSlot, .starting⟩

namespace Caller

variable (caller : Caller)

def poked : UInt64 := UInt64.ofNat caller.mem.invokeBuf.ptr

/-- What the kernel asks of a copy into the registered buffer. -/
def Accepts (copy : UffdCopy) : Prop :=
  caller.machine.pageSize.toNat ∣ copy.dst.toNat ∧ caller.machine.pageSize.toNat ∣ copy.len.toNat ∧ 0 < copy.len.toNat ∧
    caller.mem.invokeBuf.ptr ≤ copy.dst.toNat ∧
    copy.dst.toNat + copy.len.toNat ≤ caller.mem.invokeBuf.ptr + caller.mem.invokeBuf.len.toNat

instance (copy : UffdCopy) : Decidable (caller.Accepts copy) := inferInstanceAs (Decidable (_ ∧ _))

/-- The next thing `main` does, if it need not wait for a page. -/
def mainStep (s : State) : State :=
  match s.main with
  | .writingSlot =>
    match caller.mem.requestBuf.asCursor.writeU32 caller.machine s.memory caller.slot with
    | (memory, some input) => { s with memory := memory, main := .writingArg input }
    | (memory, none) => { s with memory := memory, main := .failed }
  | .writingArg input =>
    match input.writeU32 caller.machine s.memory caller.arg0 with
    | (memory, some _) => { s with memory := memory, main := .poking }
    | (memory, none) => { s with memory := memory, main := .failed }
  | .poking =>
    if caller.keepsPoke = false ∨ s.present caller.poked.toNat then { s with main := .reading }
    else { s with main := .faulted }
  | .faulted => if s.present caller.poked.toNat then { s with main := .reading } else s
  | .reading =>
    match caller.mem.responseBuf.asCursor.readI64 caller.machine s.memory with
    | .ok (result, _) => { s with main := .printed result }
    | .error _ => { s with main := .panicked }
  | .printed _ | .failed | .panicked => s

/-- One round of the thread's loop. `main` waits all the while, so the round is one step. -/
def answer (s : State) (tmp : MappedBufMut) : State :=
  match handleEvent caller.machine caller.fns caller.call caller.mem tmp s.memory (.pagefault caller.poked) with
  | .panicked panic => { s with thread := .panicked panic }
  | .aborted => { s with thread := .aborted }
  | .runsOn => { s with thread := .calling }
  | .copies copy memory =>
    if caller.Accepts copy then
      { s with
        memory := store memory copy.dst.toNat (load memory copy.src copy.len.toNat)
        present := fun a => decide (copy.dst.toNat ≤ a ∧ a < copy.dst.toNat + copy.len.toNat) || s.present a }
    else { s with thread := .panicked (.explicit "uffd copy") }

/-- `fault_handler_thread`, woken by a fault only. -/
def threadStep (s : State) : State :=
  match s.thread with
  | .starting =>
    match caller.mem.threadTmp caller.machine caller.threadEnv s.memory with
    | .error panic => { s with thread := .panicked panic }
    | .ok (tmp, memory) => { s with memory := memory, thread := .polling tmp }
  | .polling tmp => if s.main = .faulted ∧ s.present caller.poked.toNat = false then caller.answer s tmp else s
  | .panicked _ | .calling | .aborted => s

def step (s : State) : Party → State
  | .main => caller.mainStep s
  | .thread => caller.threadStep s

/-- Where the kernel puts mappings: at page boundaries, and apart from each other. -/
structure Placed : Prop where
  boundary : caller.machine.pageSize.toNat ∣ caller.mem.invokeBuf.ptr
  positive : 0 < caller.mem.invokeBuf.len.toNat
  fits : caller.mem.invokeBuf.ptr + caller.mem.invokeBuf.len.toNat ≤ 2 ^ 64
  response : Apart caller.mem.invokeBuf.ptr caller.mem.invokeBuf.len.toNat
    caller.mem.responseBuf.ptr caller.mem.responseBuf.len.toNat
  request : Apart caller.mem.requestBuf.ptr caller.mem.requestBuf.len.toNat
    caller.mem.responseBuf.ptr caller.mem.responseBuf.len.toNat
  tmp : ∀ size ptr, caller.threadEnv.mmap size = .ok ptr →
    Apart ptr size.toNat caller.mem.requestBuf.ptr caller.mem.requestBuf.len.toNat ∧
      Apart ptr size.toNat caller.mem.responseBuf.ptr caller.mem.responseBuf.len.toNat

/-- The thread comes to call: a function is in the slot, and the thread has a buffer of its own. -/
def Calls : Prop :=
  (∃ handler, caller.fns.handlerAt caller.slot = .ok (some handler)) ∧
    ∃ ptr, caller.threadEnv.mmap caller.mem.responseBuf.len = .ok ptr

/-- The result fits its buffer, and the thread's own buffer the invoke buffer. -/
def Room : Prop := 8 ≤ caller.mem.responseBuf.len.toNat ∧ caller.mem.responseBuf.len.toNat ≤ caller.mem.invokeBuf.len.toNat

end Caller

theorem native_digits (littleEndian : Bool) {width n : Nat} (fits : n < 256 ^ width) :
    (if littleEndian then
        (if littleEndian then (ByteReader.bigEndian width n).reverse else ByteReader.bigEndian width n).reverse
      else if littleEndian then (ByteReader.bigEndian width n).reverse else ByteReader.bigEndian width n).foldl
      (fun n b => n * 256 + b.toNat) 0 = n := by
  cases littleEndian with
  | false => exact ByteReader.ofBigEndian_bigEndian width n fits
  | true =>
    simp only [if_true,List.reverse_reverse]
    exact ByteReader.ofBigEndian_bigEndian width n fits

@[simp] theorem nativeU32_length (machine : Machine) (value : UInt32) : (nativeU32 machine value).length = 4 := by
  unfold nativeU32
  split <;> simp

@[simp] theorem nativeI64_length (machine : Machine) (value : UInt64) : (nativeI64 machine value).length = 8 := by
  unfold nativeI64
  split <;> simp

theorem readU32_native {machine : Machine} {memory : Memory UInt8} {c : Cursor} {value : UInt32}
    (room : 4 ≤ c.len.toNat - c.start) (bytes : load memory (c.ptr + c.start) 4 = nativeU32 machine value) :
    c.readU32 machine memory = .ok (value, { c with position := c.position + 4 }) := by
  have digits := @native_digits machine.littleEndian 4 value.toNat value.toNat_lt
  simp only [Cursor.readU32,Cursor.readExact,if_pos room,bytes,nativeU32]
  rw [digits,UInt32.ofNat_toNat]
  rfl

theorem readI64_native {machine : Machine} {memory : Memory UInt8} {c : Cursor} {value : UInt64}
    (room : 8 ≤ c.len.toNat - c.start) (bytes : load memory (c.ptr + c.start) 8 = nativeI64 machine value) :
    c.readI64 machine memory = .ok (value, { c with position := c.position + 8 }) := by
  have digits := @native_digits machine.littleEndian 8 value.toNat value.toNat_lt
  simp only [Cursor.readI64,Cursor.readExact,if_pos room,bytes,nativeI64]
  rw [digits,UInt64.ofNat_toNat]
  rfl

theorem writeU32_fits {machine : Machine} {memory : Memory UInt8} {c : Cursor} {value : UInt32}
    (room : 4 ≤ c.len.toNat - c.start) :
    c.writeU32 machine memory value =
      (store memory (c.ptr + c.start) (nativeU32 machine value), some { c with position := c.position + 4 }) := by
  have amount : min (nativeU32 machine value).length (c.len.toNat - c.start) = 4 := by
    rw [nativeU32_length]
    omega
  simp only [Cursor.writeU32,Cursor.write,amount]
  rw [List.take_of_length_le (by simp)]
  rfl

theorem writeU32_short {machine : Machine} {memory : Memory UInt8} {c : Cursor} {value : UInt32}
    (short : c.len.toNat - c.start < 4) : (c.writeU32 machine memory value).2 = none := by
  simp only [Cursor.writeU32,Cursor.write,nativeU32_length]
  rw [if_pos (by omega)]

variable {caller : Caller} {s : State}

structure Asked (caller : Caller) (memory : Memory UInt8) : Prop where
  room : 8 ≤ caller.mem.requestBuf.len.toNat
  slot : load memory caller.mem.requestBuf.ptr 4 = nativeU32 caller.machine caller.slot
  arg0 : load memory (caller.mem.requestBuf.ptr + 4) 4 = nativeU32 caller.machine caller.arg0

theorem Asked.store {memory : Memory UInt8} (asked : Asked caller memory) {addr : Nat} {bytes : List UInt8}
    (apart : Apart addr bytes.length caller.mem.requestBuf.ptr caller.mem.requestBuf.len.toNat) :
    Asked caller (store memory addr bytes) := by
  have room := asked.room
  refine ⟨room,?_,?_⟩
  · rw [load_store_apart memory (apart.symm.shrink (Nat.le_refl _) (by omega)).symm,asked.slot]
  · rw [load_store_apart memory (apart.symm.shrink (Nat.le_add_right _ _) (by omega)).symm,asked.arg0]

theorem handleEvent_asked {memory : Memory UInt8} (asked : Asked caller memory) (tmp : MappedBufMut) (addr : UInt64) :
    handleEvent caller.machine caller.fns caller.call caller.mem tmp memory (.pagefault addr) =
      match caller.fns.handlerAt caller.slot with
      | .error panic => .panicked panic
      | .ok none => .panicked (.expectNone s!"Unhandled function slot id = {caller.slot}")
      | .ok (some handler) =>
        match caller.call handler caller.arg0 memory with
        | .panicked => .aborted
        | .runsOn => .runsOn
        | .returned result memory =>
          if caller.mem.responseBuf.len.toNat < 8 then .panicked (.explicit "Failed to write value")
          else .copies (caller.mem.respondWithWake addr tmp)
            (store memory caller.mem.responseBuf.ptr (nativeI64 caller.machine result)) := by
  have room := asked.room
  have first : caller.mem.requestBuf.asCursor.start = 0 := Nat.zero_min _
  have second : Cursor.start ⟨caller.mem.requestBuf.ptr, caller.mem.requestBuf.len, 0 + 4⟩ = 4 := by
    have four : ((0 : UInt64) + 4).toNat = 4 := rfl
    simp only [Cursor.start,four]
    omega
  have slot := @readU32_native caller.machine memory caller.mem.requestBuf.asCursor caller.slot
    (by rw [first]; simp only [MappedBufMut.asCursor]; omega) (by rw [first]; exact asked.slot)
  have arg0 := @readU32_native caller.machine memory ⟨caller.mem.requestBuf.ptr, caller.mem.requestBuf.len, 0 + 4⟩ caller.arg0
    (by rw [second]; simp only; omega) (by rw [second]; exact asked.arg0)
  simp only [handleEvent,slot]
  rcases caller.fns.handlerAt caller.slot with panic | (_ | handler)
  · rfl
  · rfl
  simp only [MappedBufMut.asCursor,arg0]
  cases caller.call handler caller.arg0 memory with
  | panicked => rfl
  | runsOn => rfl
  | returned result memory =>
    have start : Cursor.start ⟨caller.mem.responseBuf.ptr, caller.mem.responseBuf.len, 0⟩ = 0 := Nat.zero_min _
    simp only [Cursor.write,start,nativeI64_length,Nat.sub_zero,Nat.add_zero]
    by_cases short : caller.mem.responseBuf.len.toNat < 8
    · rw [if_pos short,if_pos (by omega)]
    · have amount : min 8 caller.mem.responseBuf.len.toNat = 8 := by omega
      rw [if_neg short,amount,if_neg (by omega),List.take_of_length_le (by simp)]

/-- The buffers are those of a specification, put where the kernel puts mappings. -/
structure Lawful (caller : Caller) (invoked responded : Nat) : Prop where
  size : caller.mem.pageSize = caller.machine.pageSize
  invoke : caller.mem.invokeBuf.HasPages caller.machine invoked
  response : caller.mem.responseBuf.HasPages caller.machine responded
  placed : caller.Placed

variable {invoked responded : Nat}

theorem threadTmp_eq (laws : Lawful caller invoked responded) (memory : Memory UInt8) :
    caller.mem.threadTmp caller.machine caller.threadEnv memory =
      match caller.threadEnv.mmap caller.mem.responseBuf.len with
      | .error _ => .error .unwrapErr
      | .ok ptr => .ok (⟨ptr, caller.mem.responseBuf.len, caller.machine.pageSize⟩,
          store memory ptr (List.replicate caller.mem.responseBuf.len.toNat 0)) := by
  have len := laws.response.len
  have small := caller.mem.responseBuf.len.toNat_lt
  have pages : caller.mem.responseBuf.numPages.toNat = responded := by
    rw [MappedBufMut.numPages,UInt64.toNat_div,laws.response.size,caller.machine.pageSize_toNat,len,
      Nat.mul_div_cancel _ caller.machine.pageSize_pos]
  have product : caller.mem.responseBuf.numPages.toNat * caller.machine.pageSize.toNat = caller.mem.responseBuf.len.toNat := by
    rw [pages,caller.machine.pageSize_toNat,len]
  have multiplied : mulU64 caller.machine.overflowChecks caller.mem.responseBuf.numPages caller.machine.pageSize =
      .ok caller.mem.responseBuf.len := by
    rw [mulU64,if_neg (by omega)]
    congr 1
    apply UInt64.toNat_inj.mp
    rw [UInt64.toNat_mul,product,Nat.mod_eq_of_lt small]
  simp only [FaultHandlerMemory.threadTmp,MappedBufMut.withNumPagesOfSize,laws.size,multiplied]
  cases caller.threadEnv.mmap caller.mem.responseBuf.len <;> rfl

theorem poked_toNat (laws : Lawful caller invoked responded) : caller.poked.toNat = caller.mem.invokeBuf.ptr := by
  have fits := laws.placed.fits
  have positive := laws.placed.positive
  exact UInt64.toNat_ofNat_of_lt' (show _ < 2 ^ 64 by omega)

theorem copy_taken (laws : Lawful caller invoked responded) {tmp : MappedBufMut} (len : tmp.len = caller.mem.responseBuf.len)
    (positive : 0 < caller.mem.responseBuf.len.toNat) :
    (caller.mem.respondWithWake caller.poked tmp).dst.toNat = caller.mem.invokeBuf.ptr ∧
      (caller.Accepts (caller.mem.respondWithWake caller.poked tmp) ↔
        caller.mem.responseBuf.len.toNat ≤ caller.mem.invokeBuf.len.toNat) := by
  have boundary := laws.placed.boundary
  have dst : (caller.mem.respondWithWake caller.poked tmp).dst.toNat = caller.mem.invokeBuf.ptr := by
    simp only [FaultHandlerMemory.respondWithWake]
    rw [laws.size,pageAlignMut_toNat,poked_toNat laws]
    rw [caller.machine.pageSize_toNat] at boundary
    exact Nat.div_mul_cancel boundary
  refine ⟨dst,?_⟩
  have whole : caller.machine.pageSize.toNat ∣ caller.mem.responseBuf.len.toNat := by
    rw [laws.response.len,caller.machine.pageSize_toNat]
    exact Nat.dvd_mul_left _ _
  have size : (caller.mem.respondWithWake caller.poked tmp).len = caller.mem.responseBuf.len := len
  simp only [Caller.Accepts,dst,size]
  exact ⟨fun taken => by omega,fun room => ⟨boundary,whole,positive,Nat.le_refl _,by omega⟩⟩

/-- The call was made, with slot and argument in place, and came to this. -/
def Made (caller : Caller) (outcome : Called) : Prop :=
  caller.Calls ∧ ∃ handler memory, caller.fns.handlerAt caller.slot = .ok (some handler) ∧ Asked caller memory ∧
    caller.call handler caller.arg0 memory = outcome

structure Answered (caller : Caller) (s : State) : Prop where
  present : s.present caller.poked.toNat = true
  room : caller.Room
  result : ∃ result memory, Made caller (.returned result memory) ∧
    load s.memory caller.mem.responseBuf.ptr 8 = nativeI64 caller.machine result

def Blank (caller : Caller) (memory : Memory UInt8) : Prop :=
  load memory caller.mem.responseBuf.ptr caller.mem.responseBuf.len.toNat = List.replicate caller.mem.responseBuf.len.toNat 0

def MainSound (caller : Caller) (s : State) : MainAt → Prop
  | .writingSlot => s.present caller.poked.toNat = false
  | .writingArg input => s.present caller.poked.toNat = false ∧
      input = ⟨caller.mem.requestBuf.ptr, caller.mem.requestBuf.len, 4⟩ ∧ 4 ≤ caller.mem.requestBuf.len.toNat ∧
      load s.memory caller.mem.requestBuf.ptr 4 = nativeU32 caller.machine caller.slot
  | .poking => s.present caller.poked.toNat = false ∧ Asked caller s.memory
  | .faulted => caller.keepsPoke = true ∧
      (s.present caller.poked.toNat = false ∧ Asked caller s.memory ∨ Answered caller s)
  | .reading => if caller.keepsPoke then Answered caller s else Asked caller s.memory
  | .printed result => 8 ≤ caller.mem.requestBuf.len.toNat ∧
      if caller.keepsPoke then caller.Room ∧ ∃ memory, Made caller (.returned result memory)
      else 8 ≤ caller.mem.responseBuf.len.toNat ∧ result = 0
  | .failed => caller.mem.requestBuf.len.toNat < 8
  | .panicked => caller.keepsPoke = false ∧ 8 ≤ caller.mem.requestBuf.len.toNat ∧ caller.mem.responseBuf.len.toNat < 8

/-- Why no page is brought. -/
def Lost (caller : Caller) : ThreadAt → Prop
  | .starting | .polling _ => False
  | .panicked _ => ¬caller.Calls ∨ ¬caller.Room ∧ ∃ result memory, Made caller (.returned result memory)
  | .calling => Made caller .runsOn
  | .aborted => Made caller .panicked

def ThreadSound (caller : Caller) (s : State) : ThreadAt → Prop
  | .starting => s.present caller.poked.toNat = false
  | .polling tmp => tmp.len = caller.mem.responseBuf.len ∧ ∃ ptr, caller.threadEnv.mmap caller.mem.responseBuf.len = .ok ptr
  | place => s.present caller.poked.toNat = false ∧ Lost caller place

structure Sound (caller : Caller) (s : State) : Prop where
  main : MainSound caller s s.main
  thread : ThreadSound caller s s.thread
  blank : caller.keepsPoke = false → Blank caller s.memory

/-- The party has nothing to do, now or ever unless another does something. -/
def Idle (caller : Caller) (s : State) : Party → Prop
  | .main =>
    match s.main with
    | .printed _ | .failed | .panicked => True
    | .faulted => s.present caller.poked.toNat = false
    | _ => False
  | .thread =>
    match s.thread with
    | .starting => False
    | .polling _ => ¬(s.main = .faulted ∧ s.present caller.poked.toNat = false)
    | .panicked _ | .calling | .aborted => True

def MainAt.left : MainAt → Nat
  | .writingSlot => 5
  | .writingArg _ => 4
  | .poking => 3
  | .faulted => 2
  | .reading => 1
  | .printed _ | .failed | .panicked => 0

def ThreadAt.left (present : Bool) : ThreadAt → Nat
  | .starting => 2
  | .polling _ => if present then 0 else 1
  | .panicked _ | .calling | .aborted => 0

def work (caller : Caller) (s : State) : Nat := s.main.left + s.thread.left (s.present caller.poked.toNat)

def Advances (caller : Caller) (s s' : State) : Prop := Sound caller s' ∧ work caller s' < work caller s

theorem sound_start {memory : Memory UInt8} (blank : Blank caller memory) : Sound caller (.start memory) :=
  ⟨rfl,rfl,fun _ => blank⟩

theorem idle_step {party : Party} (idle : Idle caller s party) : caller.step s party = s := by
  cases party with
  | main =>
    cases place : s.main <;> simp_all [Idle,Caller.step,Caller.mainStep]
  | thread =>
    cases place : s.thread <;> simp_all [Idle,Caller.step,Caller.threadStep]

theorem Blank.store {memory : Memory UInt8} (blank : Blank caller memory) {addr : Nat} {bytes : List UInt8}
    (apart : Apart addr bytes.length caller.mem.responseBuf.ptr caller.mem.responseBuf.len.toNat) :
    Blank caller (store memory addr bytes) := by
  rw [Blank,load_store_apart memory apart]
  exact blank

theorem ThreadSound.congr {s' : State} {place : ThreadAt} (sound : ThreadSound caller s place)
    (same : s'.present = s.present) : ThreadSound caller s' place := by
  cases place <;> simpa only [ThreadSound,same] using sound

theorem Sound.moves {s' : State} (sound : Sound caller s) (present : s'.present = s.present) (thread : s'.thread = s.thread)
    (blank : Blank caller s.memory → Blank caller s'.memory) (main : MainSound caller s' s'.main)
    (less : s'.main.left < s.main.left) : Advances caller s s' := by
  refine ⟨⟨main,?_,fun dropped => blank (sound.blank dropped)⟩,?_⟩
  · rw [thread]
    exact sound.thread.congr present
  · rw [work,work,present,thread]
    omega

theorem writeU32_blank (laws : Lawful caller invoked responded) {memory : Memory UInt8} (blank : Blank caller memory) {c : Cursor}
    (ptr : c.ptr = caller.mem.requestBuf.ptr) (len : c.len = caller.mem.requestBuf.len) (value : UInt32) :
    Blank caller (c.writeU32 caller.machine memory value).1 := by
  have start : c.start ≤ c.len.toNat := Nat.min_le_right _ _
  refine blank.store (laws.placed.request.shrink (show caller.mem.requestBuf.ptr ≤ c.ptr + c.start by omega) ?_)
  simp only [List.length_take]
  rw [← ptr,← len]
  omega

theorem writingSlot_advances (laws : Lawful caller invoked responded) (sound : Sound caller s) (place : s.main = .writingSlot) :
    Advances caller s (caller.mainStep s) := by
  have missing := sound.main
  rw [place] at missing
  have start : caller.mem.requestBuf.asCursor.start = 0 := Nat.zero_min _
  have blank (h : Blank caller s.memory) := writeU32_blank laws h (c := caller.mem.requestBuf.asCursor) rfl rfl caller.slot
  simp only [Caller.mainStep,place]
  by_cases room : 4 ≤ caller.mem.requestBuf.len.toNat
  · rw [writeU32_fits (by rw [start]; exact room)] at blank ⊢
    refine sound.moves rfl rfl blank ⟨missing,rfl,room,?_⟩ (by simp [place,MainAt.left])
    have written := load_store_same s.memory caller.mem.requestBuf.ptr (nativeU32 caller.machine caller.slot)
    rwa [nativeU32_length] at written
  · have short := @writeU32_short caller.machine s.memory caller.mem.requestBuf.asCursor caller.slot
      (by rw [start]; simp only [MappedBufMut.asCursor]; omega)
    split
    next written => simp [written] at short
    next written =>
      rw [written] at blank
      exact sound.moves rfl rfl blank (by simp only [MainSound]; omega) (by simp [place,MainAt.left])

theorem writingArg_advances (laws : Lawful caller invoked responded) (sound : Sound caller s) {input : Cursor}
    (place : s.main = .writingArg input) : Advances caller s (caller.mainStep s) := by
  have here := sound.main
  rw [place] at here
  obtain ⟨missing,rfl,four,slot⟩ := here
  have start : Cursor.start ⟨caller.mem.requestBuf.ptr, caller.mem.requestBuf.len, 4⟩ = 4 := Nat.min_eq_left four
  have blank (h : Blank caller s.memory) :=
    writeU32_blank laws h (c := ⟨caller.mem.requestBuf.ptr, caller.mem.requestBuf.len, 4⟩) rfl rfl caller.arg0
  simp only [Caller.mainStep,place]
  by_cases room : 8 ≤ caller.mem.requestBuf.len.toNat
  · rw [writeU32_fits (by rw [start]; simp only; omega)] at blank ⊢
    rw [start] at blank ⊢
    refine sound.moves rfl rfl blank ⟨missing,room,?_,?_⟩ (by simp [place,MainAt.left])
    · have behind : Apart (caller.mem.requestBuf.ptr + 4) (nativeU32 caller.machine caller.arg0).length
          caller.mem.requestBuf.ptr 4 := by
        unfold Apart
        omega
      rw [load_store_apart s.memory behind,slot]
    · have written := load_store_same s.memory (caller.mem.requestBuf.ptr + 4) (nativeU32 caller.machine caller.arg0)
      rwa [nativeU32_length] at written
  · have short := @writeU32_short caller.machine s.memory ⟨caller.mem.requestBuf.ptr, caller.mem.requestBuf.len, 4⟩ caller.arg0
      (by rw [start]; simp only; omega)
    split
    next written => simp [written] at short
    next written =>
      rw [written] at blank
      exact sound.moves rfl rfl blank (by simp only [MainSound]; omega) (by simp [place,MainAt.left])

theorem readI64_zero {machine : Machine} {memory : Memory UInt8} {c : Cursor} (room : 8 ≤ c.len.toNat - c.start)
    (zeros : load memory (c.ptr + c.start) 8 = List.replicate 8 0) :
    c.readI64 machine memory = .ok (0, { c with position := c.position + 8 }) := by
  refine readI64_native room (zeros.trans ?_)
  unfold nativeI64
  split <;> rfl

theorem Blank.front {memory : Memory UInt8} (blank : Blank caller memory) (room : 8 ≤ caller.mem.responseBuf.len.toNat) :
    load memory caller.mem.responseBuf.ptr 8 = List.replicate 8 0 := by
  have front := @slice_load _ memory caller.mem.responseBuf.ptr caller.mem.responseBuf.len.toNat 0 8 (by omega)
  rw [show load memory caller.mem.responseBuf.ptr caller.mem.responseBuf.len.toNat = _ from blank] at front
  rw [Nat.add_zero] at front
  rw [← front,slice,List.drop_zero,List.take_replicate,Nat.min_eq_left room]

theorem reading_advances (sound : Sound caller s) (place : s.main = .reading) : Advances caller s (caller.mainStep s) := by
  have here := sound.main
  rw [place] at here
  have start : caller.mem.responseBuf.asCursor.start = 0 := Nat.zero_min _
  cases kept : caller.keepsPoke with
  | true =>
    simp only [MainSound,kept,if_true] at here
    obtain ⟨present,room,result,memory,made,bytes⟩ := here
    have read := @readI64_native caller.machine s.memory caller.mem.responseBuf.asCursor result
      (by rw [start]; exact room.1) (by rw [start]; exact bytes)
    simp only [Caller.mainStep,place,read]
    have asked := made.2
    refine sound.moves rfl rfl id ?_ (by simp [place,MainAt.left])
    obtain ⟨_,_,_,asked,_⟩ := made.2
    simp only [MainSound,kept,if_true]
    exact ⟨asked.room,room,memory,made⟩
  | false =>
    simp only [MainSound,kept] at here
    by_cases room : 8 ≤ caller.mem.responseBuf.len.toNat
    · have read := @readI64_zero caller.machine s.memory caller.mem.responseBuf.asCursor (by rw [start]; exact room)
        (by rw [start]; exact (sound.blank kept).front room)
      simp only [Caller.mainStep,place,read]
      refine sound.moves rfl rfl id ?_ (by simp [place,MainAt.left])
      simp only [MainSound,kept]
      exact ⟨here.room,room,trivial⟩
    · obtain ⟨e,read⟩ : ∃ e, caller.mem.responseBuf.asCursor.readI64 caller.machine s.memory = .error e := by
        have short : ¬8 ≤ caller.mem.responseBuf.asCursor.len.toNat - caller.mem.responseBuf.asCursor.start := by
          rw [start]
          exact room
        simp [Cursor.readI64,Cursor.readExact,if_neg short]
      simp only [Caller.mainStep,place,read]
      exact sound.moves rfl rfl id ⟨kept,here.room,by omega⟩ (by simp [place,MainAt.left])

theorem main_advances (laws : Lawful caller invoked responded) (sound : Sound caller s) (busy : ¬Idle caller s .main) :
    Advances caller s (caller.mainStep s) := by
  have here := sound.main
  cases place : s.main with
  | writingSlot => exact writingSlot_advances laws sound place
  | writingArg input => exact writingArg_advances laws sound place
  | poking =>
    rw [place] at here
    simp only [Caller.mainStep,place,here.1]
    cases kept : caller.keepsPoke with
    | true => exact sound.moves rfl rfl id ⟨kept,.inl here⟩ (by simp [place,MainAt.left])
    | false => exact sound.moves rfl rfl id (by simpa [MainSound,kept] using here.2) (by simp [place,MainAt.left])
  | faulted =>
    simp only [Idle,place,Bool.not_eq_false] at busy
    rw [place] at here
    obtain ⟨kept,⟨missing,_⟩ | answered⟩ := here
    · rw [missing] at busy
      contradiction
    · simp only [Caller.mainStep,place,busy,if_true]
      refine sound.moves rfl rfl id ?_ (by simp [place,MainAt.left])
      simp only [MainSound,kept,if_true]
      exact ⟨answered.present,answered.room,answered.result⟩
  | reading => exact reading_advances sound place
  | printed result => simp [Idle,place] at busy
  | failed => simp [Idle,place] at busy
  | panicked => simp [Idle,place] at busy

theorem MainSound.congr {s' : State} {place : MainAt} (sound : MainSound caller s place)
    (missing : s.present caller.poked.toNat = false) (same : s'.present = s.present)
    (slot : 4 ≤ caller.mem.requestBuf.len.toNat →
      load s'.memory caller.mem.requestBuf.ptr 4 = load s.memory caller.mem.requestBuf.ptr 4)
    (asked : Asked caller s.memory → Asked caller s'.memory) : MainSound caller s' place := by
  have unanswered : ¬Answered caller s := fun answered => by simp [answered.present] at missing
  cases place with
  | writingSlot => exact (congrFun same _).trans missing
  | writingArg input =>
    obtain ⟨_,input,four,bytes⟩ := sound
    exact ⟨(congrFun same _).trans missing,input,four,(slot four).trans bytes⟩
  | poking => exact ⟨(congrFun same _).trans missing,asked sound.2⟩
  | faulted => exact ⟨sound.1,.inl ⟨(congrFun same _).trans missing,asked (sound.2.resolve_right unanswered).2⟩⟩
  | reading =>
    simp only [MainSound] at sound ⊢
    split at sound
    · exact absurd sound unanswered
    · next dropped =>
      rw [if_neg dropped]
      exact asked sound
  | printed result => exact sound
  | failed => exact sound
  | panicked => exact sound

theorem Sound.loses (sound : Sound caller s) (missing : s.present caller.poked.toNat = false) {place : ThreadAt}
    (lost : Lost caller place) (less : 0 < s.thread.left false) : Advances caller s { s with thread := place } := by
  refine ⟨⟨sound.main.congr missing rfl (fun _ => rfl) id,?_,sound.blank⟩,?_⟩
  · cases place <;> first | exact ⟨missing,lost⟩ | exact lost.elim
  · have nothing : place.left false = 0 := by cases place <;> first | rfl | exact lost.elim
    simp only [work,missing,nothing]
    omega

theorem starting_advances (laws : Lawful caller invoked responded) (sound : Sound caller s) (place : s.thread = .starting) :
    Advances caller s (caller.threadStep s) := by
  have missing := sound.thread
  rw [place] at missing
  simp only [Caller.threadStep,place,threadTmp_eq laws]
  cases mapped : caller.threadEnv.mmap caller.mem.responseBuf.len with
  | error e =>
    refine sound.loses missing (.inl fun calls => ?_) (by simp [place,ThreadAt.left])
    simpa [mapped] using calls.2
  | ok ptr =>
    obtain ⟨request,response⟩ := laws.placed.tmp _ _ mapped
    generalize zeros : List.replicate caller.mem.responseBuf.len.toNat (0 : UInt8) = fresh
    have length : fresh.length = caller.mem.responseBuf.len.toNat := by rw [← zeros,List.length_replicate]
    rw [← length] at request
    refine ⟨⟨sound.main.congr missing rfl (fun four => ?_) fun asked => asked.store request,⟨rfl,ptr,mapped⟩,
      fun dropped => (sound.blank dropped).store (by rwa [length])⟩,?_⟩
    · exact load_store_apart s.memory (request.symm.shrink (Nat.le_refl _) (by omega)).symm
    · simp only [work,place,ThreadAt.left]
      split <;> omega

/-- The page is copied into the invoke buffer, so the result written before stays. -/
theorem Sound.answered (laws : Lawful caller invoked responded) (sound : Sound caller s) {tmp : MappedBufMut}
    (place : s.thread = .polling tmp) (waits : s.main = .faulted) (missing : s.present caller.poked.toNat = false)
    (room : caller.Room) {result : UInt64} {memory : Memory UInt8} (made : Made caller (.returned result memory)) (src : Nat) :
    Advances caller s
      { s with
        memory := ByteMemory.store (store memory caller.mem.responseBuf.ptr (nativeI64 caller.machine result))
          caller.mem.invokeBuf.ptr
          (load (store memory caller.mem.responseBuf.ptr (nativeI64 caller.machine result)) src caller.mem.responseBuf.len.toNat)
        present := fun a => decide (caller.mem.invokeBuf.ptr ≤ a ∧
          a < caller.mem.invokeBuf.ptr + caller.mem.responseBuf.len.toNat) || s.present a } := by
  obtain ⟨enough,fits⟩ := id room
  have here := sound.main
  rw [waits] at here
  have kept := here.1
  have thread := sound.thread
  rw [place] at thread
  have present : (decide (caller.mem.invokeBuf.ptr ≤ caller.poked.toNat ∧
      caller.poked.toNat < caller.mem.invokeBuf.ptr + caller.mem.responseBuf.len.toNat) ||
        s.present caller.poked.toNat) = true := by
    rw [poked_toNat laws]
    simp only [Bool.or_eq_true,decide_eq_true_eq]
    omega
  have clear : Apart caller.mem.invokeBuf.ptr caller.mem.responseBuf.len.toNat caller.mem.responseBuf.ptr 8 :=
    ((laws.placed.response.shrink (Nat.le_refl _) (by omega)).symm.shrink (Nat.le_refl _) (by omega)).symm
  refine ⟨⟨?_,?_,fun dropped => by simp [kept] at dropped⟩,?_⟩
  · rw [waits]
    refine ⟨kept,.inr ⟨present,room,result,memory,made,?_⟩⟩
    rw [load_store_apart _ (by rwa [load_length])]
    have written := load_store_same memory caller.mem.responseBuf.ptr (nativeI64 caller.machine result)
    rwa [nativeI64_length] at written
  · rw [place]
    exact thread
  · simp only [work,place]
    rw [present,missing]
    simp [ThreadAt.left]

theorem answer_advances (laws : Lawful caller invoked responded) (sound : Sound caller s) {tmp : MappedBufMut}
    (place : s.thread = .polling tmp) (waits : s.main = .faulted) (missing : s.present caller.poked.toNat = false) :
    Advances caller s (caller.answer s tmp) := by
  have thread := sound.thread
  rw [place] at thread
  obtain ⟨len,mapped⟩ := thread
  have size : (caller.mem.respondWithWake caller.poked tmp).len = caller.mem.responseBuf.len := len
  have asked : Asked caller s.memory := by
    have here := sound.main
    rw [waits] at here
    exact (here.2.resolve_right fun answered => by simp [answered.present] at missing).2
  have less : 0 < s.thread.left false := by simp [place,ThreadAt.left]
  rcases found : caller.fns.handlerAt caller.slot with panic | (_ | handler)
  · simp only [Caller.answer,handleEvent_asked asked,found]
    exact sound.loses missing (.inl fun calls => by simpa [found] using calls.1) less
  · simp only [Caller.answer,handleEvent_asked asked,found]
    exact sound.loses missing (.inl fun calls => by simpa [found] using calls.1) less
  have made {outcome : Called} (h : caller.call handler caller.arg0 s.memory = outcome) : Made caller outcome :=
    ⟨⟨⟨handler,found⟩,mapped⟩,handler,s.memory,found,asked,h⟩
  cases called : caller.call handler caller.arg0 s.memory with
  | panicked =>
    simp only [Caller.answer,handleEvent_asked asked,found,called]
    exact sound.loses missing (made called) less
  | runsOn =>
    simp only [Caller.answer,handleEvent_asked asked,found,called]
    exact sound.loses missing (made called) less
  | returned result memory =>
    by_cases short : caller.mem.responseBuf.len.toNat < 8
    · simp only [Caller.answer,handleEvent_asked asked,found,called,if_pos short]
      exact sound.loses missing (.inr ⟨fun room => absurd room.1 (by omega),result,memory,made called⟩) less
    obtain ⟨dst,taken⟩ := copy_taken laws len (by omega)
    by_cases fits : caller.mem.responseBuf.len.toNat ≤ caller.mem.invokeBuf.len.toNat
    · simp only [Caller.answer,handleEvent_asked asked,found,called,if_neg short,if_pos (taken.mpr fits),dst,size]
      exact sound.answered laws place waits missing ⟨by omega,fits⟩ (made called) _
    · simp only [Caller.answer,handleEvent_asked asked,found,called,if_neg short,if_neg (mt taken.mp fits)]
      exact sound.loses missing (.inr ⟨fun room => fits room.2,result,memory,made called⟩) less

theorem thread_advances (laws : Lawful caller invoked responded) (sound : Sound caller s) (busy : ¬Idle caller s .thread) :
    Advances caller s (caller.threadStep s) := by
  cases place : s.thread with
  | starting => exact starting_advances laws sound place
  | polling tmp =>
    simp only [Idle,place,not_not] at busy
    simp only [Caller.threadStep,place,if_pos busy]
    exact answer_advances laws sound place busy.1 busy.2
  | panicked panic => simp [Idle,place] at busy
  | calling => simp [Idle,place] at busy
  | aborted => simp [Idle,place] at busy

theorem call_wears (laws : Lawful caller invoked responded) :
    Scheduling.Wears caller.step id (Idle caller) (Sound caller) (work caller) := by
  refine .of_advances (fun _ _ => idle_step) fun s party sound busy => ?_
  cases party with
  | main => exact main_advances laws sound busy
  | thread => exact thread_advances laws sound busy

/-- How a call can end. -/
inductive Course (caller : Caller) : MainAt → ThreadAt → Prop where
  | refused (thread : ThreadAt) : caller.mem.requestBuf.len.toNat < 8 → Course caller .failed thread
  | unread (thread : ThreadAt) : caller.keepsPoke = false → 8 ≤ caller.mem.requestBuf.len.toNat →
      8 ≤ caller.mem.responseBuf.len.toNat → Course caller (.printed 0) thread
  | short (thread : ThreadAt) : caller.keepsPoke = false → 8 ≤ caller.mem.requestBuf.len.toNat →
      caller.mem.responseBuf.len.toNat < 8 → Course caller .panicked thread
  | answered (thread : ThreadAt) (memory : Memory UInt8) : caller.keepsPoke = true → 8 ≤ caller.mem.requestBuf.len.toNat →
      caller.Room → Made caller (.returned result memory) → Course caller (.printed result) thread
  | waits : caller.keepsPoke = true → 8 ≤ caller.mem.requestBuf.len.toNat → Lost caller thread → Course caller .faulted thread

/-- All there is left to wait for, once both are idle. -/
theorem rest_course (sound : Sound caller s) (rest : ∀ party, Idle caller s party) : Course caller s.main s.thread := by
  have main := rest .main
  have here := sound.main
  cases place : s.main with
  | printed result =>
    rw [place] at here
    obtain ⟨request,here⟩ := here
    split at here
    · next kept =>
      obtain ⟨room,memory,made⟩ := here
      exact .answered _ memory kept request room made
    · next dropped =>
      obtain ⟨response,rfl⟩ := here
      exact .unread _ (by simpa using dropped) request response
  | failed =>
    rw [place] at here
    exact .refused _ here
  | panicked =>
    rw [place] at here
    exact .short _ here.1 here.2.1 here.2.2
  | faulted =>
    simp only [Idle,place] at main
    rw [place] at here
    obtain ⟨kept,⟨-,asked⟩ | answered⟩ := here
    · have thread := rest .thread
      have there := sound.thread
      cases stands : s.thread with
      | starting => simp [Idle,stands] at thread
      | polling tmp => simp [Idle,stands,place,main] at thread
      | _ =>
        rw [stands] at there
        exact .waits kept asked.room there.2
    · simp [answered.present] at main
  | _ => simp [Idle,place] at main

/-- The function returns whenever it is called with slot and argument in place. -/
def Returns (caller : Caller) : Prop :=
  ∀ handler memory, caller.fns.handlerAt caller.slot = .ok (some handler) → Asked caller memory →
    ∃ result memory', caller.call handler caller.arg0 memory = .returned result memory'

theorem Made.returned (returns : Returns caller) {outcome : Called} (made : Made caller outcome) :
    ∃ result memory, outcome = .returned result memory := by
  obtain ⟨-,handler,memory,found,asked,rfl⟩ := made
  exact returns handler memory found asked

theorem Course.printed_iff {main : MainAt} {thread : ThreadAt} (course : Course caller main thread)
    (kept : caller.keepsPoke = true) (returns : Returns caller) :
    (∃ result, main = .printed result) ↔ 8 ≤ caller.mem.requestBuf.len.toNat ∧ caller.Calls ∧ caller.Room := by
  cases course with
  | refused _ short => exact ⟨nofun,fun ⟨long,_⟩ => absurd long (by omega)⟩
  | unread _ dropped => simp [kept] at dropped
  | short _ dropped => simp [kept] at dropped
  | answered _ _ _ request room made => exact ⟨fun _ => ⟨request,made.1,room⟩,fun _ => ⟨_,rfl⟩⟩
  | waits _ _ lost =>
    refine ⟨nofun,fun ⟨_,calls,room⟩ => ?_⟩
    cases thread with
    | starting => exact lost.elim
    | polling tmp => exact lost.elim
    | panicked panic => exact (lost.elim (· calls) (·.1 room)).elim
    | calling =>
      obtain ⟨_,_,impossible⟩ := Made.returned returns lost
      cases impossible
    | aborted =>
      obtain ⟨_,_,impossible⟩ := Made.returned returns lost
      cases impossible

/-- In whatever order the two take their steps, what `main` prints is what the function in the slot returned for the
argument, or zero in a build that drops the read of the invoke buffer. With enough rounds the call has come to one of
its ends for good: the request does not fit; the read is dropped, and zero printed, or the response too short to be
read; the function is called and returns, and its result is printed; or `main` waits for its page beside a thread
that has panicked, is in a call that does not return, or has ended the process. A function that returns has its
result printed exactly if the call is made and there is room. -/
theorem fault_call_course (caller : Caller) (spec : FaultHandlerMemorySpec) (invoke request response : Env)
    (memory memory' : Memory UInt8)
    (made : FaultHandlerMemory.new caller.machine spec invoke request response memory = .ok (.ok (caller.mem, memory')))
    (placed : caller.Placed) :
    (∀ schedule result, (Tracing.after caller.step (.start memory') schedule).main = .printed result →
      if caller.keepsPoke then caller.Room ∧ ∃ memory, Made caller (.returned result memory) else result = 0) ∧
    ∀ rounds : List (List Party), (∀ round ∈ rounds, ∀ party, party ∈ round) → 7 < rounds.length →
      ∃ final, (∀ more, Tracing.after caller.step (.start memory') (rounds.flatten ++ more) = final) ∧
        Course caller final.main final.thread ∧
        (caller.keepsPoke = true → Returns caller →
          ((∃ result, final.main = .printed result) ↔ 8 ≤ caller.mem.requestBuf.len.toNat ∧ caller.Calls ∧ caller.Room)) := by
  obtain ⟨size,whole,pages⟩ := FaultHandlerMemory.new_pages made
  obtain ⟨-,-,_,responded⟩ := FaultHandlerMemory.new_mapped made
  have start := @sound_start caller memory' (withNumPagesOfSize_zeroed responded)
  have wears := call_wears ⟨size,whole,pages,placed⟩
  refine ⟨fun schedule result printed => ?_,fun rounds fair enough => ?_⟩
  · have here := (wears.good_after start schedule).main
    rw [printed] at here
    obtain ⟨-,here⟩ := here
    split at here
    · next kept => rwa [if_pos kept]
    · next dropped =>
      rw [if_neg dropped]
      exact here.2
  · have sound := wears.good_after start rounds.flatten
    have rest := wears.rounds_rest (fun _ => True) (fun _ _ _ idle => absurd trivial idle)
      (fun round member party _ => ⟨party,fair round member party,rfl⟩) start enough
    have course := rest_course sound rest
    exact ⟨_,fun more => by rw [Tracing.after_append,wears.rest_stays sound rest],course,course.printed_iff⟩

/-- The call of `main`, with pages of eight bytes. -/
def tenth (keepsPoke : Bool) : Caller where
  machine := ⟨false, true, 3, by decide⟩
  keepsPoke := keepsPoke
  mem := ⟨8, ⟨64, 8, 8⟩, ⟨128, 8, 8⟩, ⟨192, 8, 8⟩⟩
  fns := ⟨(List.replicate 1000 0).set 42 4096⟩
  call := fun _ arg0 memory =>
    match fibKernel false arg0 with
    | .ok n2 => .returned n2.toUInt64 memory
    | .error _ => .panicked
  threadEnv := .mapsAt 256 0
  slot := 42
  arg0 := 10

theorem tenth_placed (keepsPoke : Bool) : (tenth keepsPoke).Placed := by
  refine ⟨by decide +revert,by decide +revert,by decide +revert,by decide +revert,by decide +revert,?_⟩
  intro size ptr mapped
  simp only [tenth,Env.mapsAt] at mapped ⊢
  split at mapped
  · contradiction
  · obtain rfl := Except.ok.inj mapped
    exact ⟨.inr (.inr (.inr (by decide))),.inr (.inr (.inr (by decide)))⟩

theorem tenth_called (keepsPoke : Bool) (handler : UInt64) (memory : Memory UInt8) :
    (tenth keepsPoke).call handler (tenth keepsPoke).arg0 memory = .returned 55 memory := by
  have kernel : fibKernel false 10 = .ok 55 := rfl
  simp only [tenth,kernel]
  rfl

theorem fault_call_course_tenth : ∃ memory, FaultHandlerMemory.new (tenth true).machine ⟨1, 1, 1⟩ (.mapsAt 64 0) (.mapsAt 128 0)
      (.mapsAt 192 0) (fun _ => 0) = .ok (.ok ((tenth true).mem, memory)) ∧
    (Tracing.after (tenth true).step (.start memory) (List.replicate 8 [.thread, .main]).flatten).main = .printed 55 ∧
    (Tracing.after (tenth false).step (.start memory) (List.replicate 8 [.thread, .main]).flatten).main = .printed 0 := by
  obtain ⟨memory,made⟩ : ∃ memory, FaultHandlerMemory.new (tenth true).machine ⟨1, 1, 1⟩ (.mapsAt 64 0) (.mapsAt 128 0)
    (.mapsAt 192 0) (fun _ => 0) = .ok (.ok ((tenth true).mem, memory)) := ⟨_,rfl⟩
  have fair : ∀ round ∈ List.replicate 8 [Party.thread, .main], ∀ party, party ∈ round := by
    intro round member party
    rw [List.eq_of_mem_replicate member]
    cases party <;> simp
  refine ⟨memory,made,?_,?_⟩
  · obtain ⟨prints,ends⟩ := fault_call_course (tenth true) ⟨1, 1, 1⟩ _ _ _ _ memory made (tenth_placed true)
    obtain ⟨final,stays,-,printed⟩ := ends _ fair (by decide)
    have last := stays []
    rw [List.append_nil] at last
    obtain ⟨result,printed⟩ := (printed rfl fun handler memory _ _ => ⟨55,memory,tenth_called true handler memory⟩).mpr
      ⟨by decide,⟨⟨4096,rfl⟩,256,rfl⟩,by decide,by decide⟩
    obtain ⟨_,_,-,handler,memory,_,_,called⟩ := prints _ result (last ▸ printed)
    rw [tenth_called] at called
    cases called
    rw [last,printed]
  · obtain ⟨prints,ends⟩ := fault_call_course (tenth false) ⟨1, 1, 1⟩ _ _ _ _ memory made (tenth_placed false)
    obtain ⟨final,stays,course,-⟩ := ends _ fair (by decide)
    have last := stays []
    rw [List.append_nil] at last
    rw [last]
    generalize final.main = main at course ⊢
    cases course with
    | refused _ short => exact absurd short (by decide)
    | unread => rfl
    | short _ _ _ short => exact absurd short (by decide)
    | answered _ _ kept => cases kept
    | waits kept => cases kept

end FaultCall

end Ndp
