import Ndp.ByteReader
import Ndp.FnRegistrations
import Ndp.MappedBuf

/-! The Rust fault handler: three mappings, of which the invoke buffer is registered with
userfaultfd, and a thread that resolves a fault in it by copying a buffer of its own there.
That buffer is as large as the response buffer, wherever in the invoke buffer the fault was. -/
namespace Ndp

open ByteMemory

def pageAlignMut (ptr pageSize : UInt64) : UInt64 := ptr &&& ~~~(pageSize - 1)

structure FaultHandlerMemorySpec where
  numInvokePages : UInt64
  numRequestPages : UInt64
  numResponsePages : UInt64
  deriving DecidableEq, Repr

/-- The third message names the request pages again, as the second. -/
def FaultHandlerMemorySpec.ensureOrPanic (spec : FaultHandlerMemorySpec) : Except Panic Unit :=
  if ¬spec.numInvokePages > 0 then .error (.explicit "Number of invoke pages must be non-zero")
  else if ¬spec.numRequestPages > 0 then .error (.explicit "Number of request pages must be non-zero")
  else if ¬spec.numResponsePages > 0 then .error (.explicit "Number of request pages must be non-zero")
  else .ok ()

structure FaultHandlerMemory where
  pageSize : UInt64
  invokeBuf : MappedBufMut
  requestBuf : MappedBufMut
  responseBuf : MappedBufMut
  deriving DecidableEq, Repr

/-- Each mapping is asked for separately; `invoke`, `request` and `response` are what the
kernel then answers. -/
def FaultHandlerMemory.new (machine : Machine) (spec : FaultHandlerMemorySpec) (invoke request response : Env)
    (memory : Memory UInt8) : Except Panic (Except Errno (FaultHandlerMemory × Memory UInt8)) := do
  spec.ensureOrPanic
  let pageSize := machine.pageSize
  match ← MappedBufMut.withNumPagesOfSize machine invoke memory spec.numInvokePages pageSize with
  | .error e => return .error e
  | .ok (invokeBuf, memory) =>
    match ← MappedBufMut.withNumPagesOfSize machine request memory spec.numRequestPages pageSize with
    | .error e => return .error e
    | .ok (requestBuf, memory) =>
      match ← MappedBufMut.withNumPagesOfSize machine response memory spec.numResponsePages pageSize with
      | .error e => return .error e
      | .ok (responseBuf, memory) => return .ok (⟨pageSize, invokeBuf, requestBuf, responseBuf⟩, memory)

structure UffdCopy where
  src : Nat
  dst : UInt64
  len : UInt64
  wake : Bool
  deriving DecidableEq, Repr

namespace FaultHandlerMemory

variable (mem : FaultHandlerMemory)

def respondWithWake (faultingAddr : UInt64) (resolved : MappedBufMut) : UffdCopy :=
  let faultingPageAddr := pageAlignMut faultingAddr mem.pageSize
  ⟨resolved.ptr, faultingPageAddr, resolved.len, true⟩

def threadTmp (machine : Machine) (env : Env) (memory : Memory UInt8) : Except Panic (MappedBufMut × Memory UInt8) := do
  let numResponsePages := mem.responseBuf.numPages
  match ← MappedBufMut.withNumPagesOfSize machine env memory numResponsePages mem.pageSize with
  | .error _ => throw .unwrapErr
  | .ok (tmp, memory) => return (tmp, memory)

end FaultHandlerMemory

inductive UffdEvent where
  | pagefault (addr : UInt64)
  | other
  deriving DecidableEq, Repr

/-- `write_i64::<NativeEndian>`, up to the bytes. -/
def nativeI64 (machine : Machine) (value : UInt64) : List UInt8 :=
  let digits := ByteReader.bigEndian 8 value.toNat
  if machine.littleEndian then digits.reverse else digits

inductive Called where
  | returned (result : UInt64) (memory : Memory UInt8)
  | panicked
  | runsOn

/-- What comes of a round of the thread's loop. A panic cannot leave an `extern "C"` function and ends the process. -/
inductive FaultOutcome where
  | panicked (panic : Panic)
  | aborted
  | runsOn
  | copies (copy : UffdCopy) (memory : Memory UInt8)

/-- One round of the loop of `fault_handler_thread`, with what a registered function returns
and does to memory. The result goes to the response buffer, not to `tmp`. -/
def handleEvent (machine : Machine) (fns : FnRegistrations) (call : UInt64 → UInt32 → Memory UInt8 → Called)
    (mem : FaultHandlerMemory) (tmp : MappedBufMut) (memory : Memory UInt8) : UffdEvent → FaultOutcome
  | .other => .panicked (.explicit "Unexpected event on userfaultfd")
  | .pagefault faultingAddr =>
    match mem.requestBuf.asCursor.readU32 machine memory with
    | .error _ => .panicked .unwrapErr
    | .ok (slotId, input) =>
      match fns.handlerAt slotId with
      | .error panic => .panicked panic
      | .ok none => .panicked (.expectNone s!"Unhandled function slot id = {slotId}")
      | .ok (some handler) =>
        match input.readU32 machine memory with
        | .error _ => .panicked .unwrapErr
        | .ok (arg0, _) =>
          match call handler arg0 memory with
          | .panicked => .aborted
          | .runsOn => .runsOn
          | .returned result memory =>
            let (memory, amount) := mem.responseBuf.asCursor.write memory (nativeI64 machine result)
            if amount < 8 then .panicked (.explicit "Failed to write value")
            else .copies (mem.respondWithWake faultingAddr tmp) memory

/-- The pages of a buffer, by the number asked for: counting wraps where the length does. -/
def wrappedPages (machine : Machine) (numPages : UInt64) : Nat := numPages.toNat % 2 ^ (64 - machine.pageShift)

structure MappedBufMut.HasPages (machine : Machine) (buf : MappedBufMut) (count : Nat) : Prop where
  size : buf.pageSize = machine.pageSize
  len : buf.len.toNat = count * 2 ^ machine.pageShift

theorem withNumPagesOfSize_pages {machine : Machine} {env : Env} {memory memory' : Memory UInt8} {numPages : UInt64}
    {buf : MappedBufMut}
    (mapped : MappedBufMut.withNumPagesOfSize machine env memory numPages machine.pageSize = .ok (.ok (buf, memory'))) :
    buf.HasPages machine (wrappedPages machine numPages) := by
  unfold MappedBufMut.withNumPagesOfSize at mapped
  split at mapped
  · contradiction
  next size multiplied =>
    split at mapped
    · simp at mapped
    · obtain ⟨rfl,-⟩ : _ ∧ _ := by simpa using mapped
      refine ⟨rfl,?_⟩
      simp only
      rw [mulU64_ok multiplied,UInt64.toNat_mul,machine.pageSize_toNat,machine.pages_fill,Nat.mul_mod_mul_right,wrappedPages]

theorem withNumPagesOfSize_zeroed {machine : Machine} {env : Env} {memory memory' : Memory UInt8} {numPages pageSize : UInt64}
    {buf : MappedBufMut} (mapped : MappedBufMut.withNumPagesOfSize machine env memory numPages pageSize = .ok (.ok (buf, memory'))) :
    load memory' buf.ptr buf.len.toNat = List.replicate buf.len.toNat 0 := by
  unfold MappedBufMut.withNumPagesOfSize at mapped
  split at mapped
  · contradiction
  next size _ =>
    split at mapped
    · simp at mapped
    next ptr _ =>
      obtain ⟨rfl,rfl⟩ : _ ∧ _ := by simpa using mapped
      have zeroed := load_store_same memory ptr (List.replicate size.toNat (0 : UInt8))
      rwa [List.length_replicate] at zeroed

theorem FaultHandlerMemory.new_mapped {machine : Machine} {spec : FaultHandlerMemorySpec} {invoke request response : Env}
    {memory memory' : Memory UInt8} {mem : FaultHandlerMemory}
    (made : FaultHandlerMemory.new machine spec invoke request response memory = .ok (.ok (mem, memory'))) :
    mem.pageSize = machine.pageSize ∧
      (∃ invoked, MappedBufMut.withNumPagesOfSize machine invoke memory spec.numInvokePages machine.pageSize =
        .ok (.ok (mem.invokeBuf, invoked))) ∧
      ∃ requested, MappedBufMut.withNumPagesOfSize machine response requested spec.numResponsePages machine.pageSize =
        .ok (.ok (mem.responseBuf, memory')) := by
  unfold FaultHandlerMemory.new at made
  obtain ⟨_,-,made⟩ := except_bind_ok_iff.mp made
  obtain ⟨first,invoked,made⟩ := except_bind_ok_iff.mp made
  split at made
  · exact nomatch Except.ok.inj made
  obtain ⟨second,-,made⟩ := except_bind_ok_iff.mp made
  split at made
  · exact nomatch Except.ok.inj made
  obtain ⟨third,responded,made⟩ := except_bind_ok_iff.mp made
  split at made
  · exact nomatch Except.ok.inj made
  obtain ⟨rfl,rfl⟩ : _ ∧ _ := by simpa [pure,Except.pure] using made
  exact ⟨rfl,⟨_,invoked⟩,_,responded⟩

theorem FaultHandlerMemory.new_pages {machine : Machine} {spec : FaultHandlerMemorySpec} {invoke request response : Env}
    {memory memory' : Memory UInt8} {mem : FaultHandlerMemory}
    (made : FaultHandlerMemory.new machine spec invoke request response memory = .ok (.ok (mem, memory'))) :
    mem.pageSize = machine.pageSize ∧ mem.invokeBuf.HasPages machine (wrappedPages machine spec.numInvokePages) ∧
      mem.responseBuf.HasPages machine (wrappedPages machine spec.numResponsePages) := by
  obtain ⟨size,⟨_,invoked⟩,_,responded⟩ := FaultHandlerMemory.new_mapped made
  exact ⟨size,withNumPagesOfSize_pages invoked,withNumPagesOfSize_pages responded⟩

theorem MappedBufMut.HasPages.numPages {machine : Machine} {buf : MappedBufMut} {count : Nat}
    (pages : buf.HasPages machine count) : wrappedPages machine buf.numPages = count := by
  have positive := machine.pageSize_pos
  have few : count < 2 ^ (64 - machine.pageShift) := by
    have small := buf.len.toNat_lt
    rw [pages.len,machine.pages_fill] at small
    exact Nat.lt_of_mul_lt_mul_right small
  rw [wrappedPages,MappedBufMut.numPages,UInt64.toNat_div,pages.size,machine.pageSize_toNat,pages.len,
    Nat.mul_div_cancel _ positive,Nat.mod_eq_of_lt few]

theorem FaultHandlerMemory.threadTmp_pages {machine : Machine} {env : Env} {memory memory' : Memory UInt8}
    {mem : FaultHandlerMemory} {tmp : MappedBufMut} {count : Nat} (size : mem.pageSize = machine.pageSize)
    (pages : mem.responseBuf.HasPages machine count)
    (mapped : mem.threadTmp machine env memory = .ok (tmp, memory')) : tmp.HasPages machine count := by
  obtain ⟨result,granted,unwrapped⟩ := except_bind_ok_iff.mp mapped
  rw [size] at granted
  split at unwrapped
  · contradiction
  obtain ⟨rfl,-⟩ : _ ∧ _ := by simpa [pure,Except.pure] using unwrapped
  have counted := withNumPagesOfSize_pages granted
  rwa [pages.numPages] at counted

theorem mask_offset {pageSize : UInt64} {shift : Nat} (power : pageSize.toNat = 2 ^ shift) (addr : UInt64) :
    (addr &&& ~~~(pageSize - 1)).toNat = addr.toNat / 2 ^ shift * 2 ^ shift := by
  have below : 2 ^ shift < 2 ^ 64 := power ▸ pageSize.toNat_lt
  have positive : 0 < 2 ^ shift := Nat.two_pow_pos shift
  have offsets : (pageSize - 1).toNat = 2 ^ shift - 1 := by
    rw [UInt64.toNat_sub,power,UInt64.toNat_one]
    omega
  have mask : (~~~(pageSize - 1)).toNat = 2 ^ 64 - (2 ^ shift - 1 + 1) := by
    rw [UInt64.toNat_not,offsets,UInt64.size]
    omega
  apply Nat.eq_of_testBit_eq
  intro i
  rw [UInt64.toNat_and,mask,Nat.testBit_and,Nat.testBit_two_pow_sub_succ (by omega),
    Nat.testBit_two_pow_sub_one,Nat.testBit_mul_two_pow,Nat.testBit_div_two_pow]
  by_cases low : i < shift
  · simp [low,Nat.not_le.mpr low]
  · have high : shift ≤ i := Nat.not_lt.mp low
    rw [Nat.sub_add_cancel high]
    by_cases inside : i < 64
    · simp [low,high,inside]
    · have clear : addr.toNat.testBit i = false :=
        Nat.testBit_lt_two_pow (addr.toNat_lt.trans_le (Nat.pow_le_pow_right (by omega) (Nat.not_lt.mp inside)))
      simp [clear]

theorem pageAlignMut_toNat (machine : Machine) (addr : UInt64) :
    (pageAlignMut addr machine.pageSize).toNat = addr.toNat / 2 ^ machine.pageShift * 2 ^ machine.pageShift :=
  mask_offset machine.pageSize_toNat addr

def MappedBufMut.Covers (buf : MappedBufMut) (addr : UInt64) : Prop :=
  buf.ptr ≤ addr.toNat ∧ addr.toNat < buf.ptr + buf.len.toNat

/-- The copy fills pages of the buffer, the one that was missing among them. -/
structure UffdCopy.Resolves (pageSize : UInt64) (buf : MappedBufMut) (addr : UInt64) (copy : UffdCopy) : Prop where
  aligned : pageSize.toNat ∣ copy.dst.toNat
  start : copy.dst.toNat ≤ addr.toNat
  stop : addr.toNat < copy.dst.toNat + copy.len.toNat
  low : buf.ptr ≤ copy.dst.toNat
  high : copy.dst.toNat + copy.len.toNat ≤ buf.ptr + buf.len.toNat

theorem page_of_buffer {p ptr addr : Nat} (positive : 0 < p) (boundary : p ∣ ptr) (low : ptr ≤ addr) :
    ptr / p ≤ addr / p ∧ (addr - ptr) / p = addr / p - ptr / p := by
  obtain ⟨first,rfl⟩ := boundary
  rw [Nat.mul_div_cancel_left first positive,Nat.sub_mul_div]
  exact ⟨(Nat.le_div_iff_mul_le positive).mpr (by rwa [Nat.mul_comm]),rfl⟩

theorem UffdCopy.resolves_iff {pageSize addr : UInt64} {shift invoked responded : Nat} {buf : MappedBufMut}
    {copy : UffdCopy} (power : pageSize.toNat = 2 ^ shift) (whole : buf.len.toNat = invoked * 2 ^ shift)
    (dst : copy.dst.toNat = addr.toNat / 2 ^ shift * 2 ^ shift) (len : copy.len.toNat = responded * 2 ^ shift)
    (boundary : pageSize.toNat ∣ buf.ptr) (covered : buf.Covers addr) :
    copy.Resolves pageSize buf addr ↔ 0 < responded ∧ (addr.toNat - buf.ptr) / 2 ^ shift + responded ≤ invoked := by
  have positive : 0 < 2 ^ shift := Nat.two_pow_pos shift
  rw [power] at boundary
  obtain ⟨low,-⟩ := covered
  generalize 2 ^ shift = p at *
  have split := Nat.div_add_mod' addr.toNat p
  have offset := Nat.mod_lt addr.toNat positive
  obtain ⟨behind,page⟩ := page_of_buffer positive boundary low
  have ptr : buf.ptr = buf.ptr / p * p := (Nat.div_mul_cancel boundary).symm
  have room : addr.toNat / p * p + responded * p ≤ buf.ptr + buf.len.toNat ↔
      addr.toNat / p - buf.ptr / p + responded ≤ invoked := by
    rw [ptr,whole,← Nat.add_mul,← Nat.add_mul,Nat.mul_le_mul_right_iff positive,← ptr]
    omega
  rw [page,← room]
  constructor
  · intro resolves
    refine ⟨?_,by simpa only [dst,len] using resolves.high⟩
    by_contra nothing
    have stop := resolves.stop
    rw [dst,len,Nat.eq_zero_of_not_pos nothing] at stop
    omega
  · rintro ⟨positive,high⟩
    have enough := Nat.mul_le_mul_right p (Nat.succ_le_of_lt positive)
    refine ⟨?_,?_,?_,?_,by rwa [dst,len]⟩
    · rw [power,dst]
      exact Nat.dvd_mul_left _ _
    · rw [dst]
      omega
    · rw [dst,len]
      omega
    · rw [dst,ptr]
      exact Nat.mul_le_mul_right p behind

theorem resolves_iff {machine : Machine} {mem : FaultHandlerMemory} {tmp : MappedBufMut} {invoked responded : Nat}
    (size : mem.pageSize = machine.pageSize) (whole : mem.invokeBuf.HasPages machine invoked)
    (pages : tmp.HasPages machine responded) (boundary : machine.pageSize.toNat ∣ mem.invokeBuf.ptr) {addr : UInt64}
    (covered : mem.invokeBuf.Covers addr) :
    (mem.respondWithWake addr tmp).Resolves machine.pageSize mem.invokeBuf addr ↔
      0 < responded ∧ (addr.toNat - mem.invokeBuf.ptr) / 2 ^ machine.pageShift + responded ≤ invoked := by
  have dst : (mem.respondWithWake addr tmp).dst.toNat = addr.toNat / 2 ^ machine.pageShift * 2 ^ machine.pageShift := by
    rw [FaultHandlerMemory.respondWithWake,size]
    exact pageAlignMut_toNat machine addr
  exact UffdCopy.resolves_iff machine.pageSize_toNat whole.len dst pages.len boundary covered

/-- Over a whole buffer the copy must be one page: the last page leaves room for no more. -/
theorem all_resolve_iff {machine : Machine} {mem : FaultHandlerMemory} {tmp : MappedBufMut} {invoked responded : Nat}
    (size : mem.pageSize = machine.pageSize) (whole : mem.invokeBuf.HasPages machine invoked)
    (pages : tmp.HasPages machine responded) (boundary : machine.pageSize.toNat ∣ mem.invokeBuf.ptr)
    (fits : mem.invokeBuf.ptr + mem.invokeBuf.len.toNat ≤ 2 ^ 64) :
    (∀ addr, mem.invokeBuf.Covers addr →
      (mem.respondWithWake addr tmp).Resolves machine.pageSize mem.invokeBuf addr) ↔ invoked = 0 ∨ responded = 1 := by
  have positive := machine.pageSize_pos
  constructor
  · intro resolves
    by_contra neither
    obtain ⟨nonzero,other⟩ := not_or.mp neither
    have last : mem.invokeBuf.ptr + mem.invokeBuf.len.toNat - 1 < 2 ^ 64 := by omega
    have bytes : 0 < mem.invokeBuf.len.toNat := by
      rw [whole.len]
      exact Nat.mul_pos (Nat.pos_of_ne_zero nonzero) positive
    have addr := UInt64.toNat_ofNat_of_lt' last
    have covered : mem.invokeBuf.Covers (UInt64.ofNat (mem.invokeBuf.ptr + mem.invokeBuf.len.toNat - 1)) := by
      rw [MappedBufMut.Covers,addr]
      omega
    obtain ⟨one,room⟩ := (resolves_iff size whole pages boundary covered).mp (resolves _ covered)
    have page : (mem.invokeBuf.ptr + mem.invokeBuf.len.toNat - 1 - mem.invokeBuf.ptr) / 2 ^ machine.pageShift =
        invoked - 1 := by
      obtain ⟨before,rfl⟩ := Nat.exists_eq_succ_of_ne_zero nonzero
      have length := whole.len
      rw [Nat.succ_mul] at length
      exact Nat.div_eq_of_lt_le (by rw [Nat.succ_sub_one]; omega) (by rw [Nat.succ_sub_one,Nat.succ_mul]; omega)
    rw [addr,page] at room
    omega
  · intro holds addr covered
    have offset : addr.toNat - mem.invokeBuf.ptr < invoked * 2 ^ machine.pageShift := by
      have := whole.len
      obtain ⟨low,high⟩ := covered
      omega
    have page := (Nat.div_lt_iff_lt_mul positive).mpr offset
    rw [resolves_iff size whole pages boundary covered]
    rcases holds with zero | one
    · rw [zero] at page
      exact absurd page (Nat.not_lt_zero _)
    · rw [one]
      exact ⟨Nat.one_pos,page⟩

/-- A fault anywhere in the invoke buffer is resolved by a copy inside it exactly if the
specification asks for one response page, as far as pages are counted. -/
theorem fault_inside_iff (machine : Machine) (spec : FaultHandlerMemorySpec) (invoke request response env : Env)
    (memory memory₁ memory₂ : Memory UInt8) (mem : FaultHandlerMemory) (tmp : MappedBufMut)
    (made : FaultHandlerMemory.new machine spec invoke request response memory = .ok (.ok (mem, memory₁)))
    (mapped : mem.threadTmp machine env memory₁ = .ok (tmp, memory₂))
    (boundary : machine.pageSize.toNat ∣ mem.invokeBuf.ptr)
    (fits : mem.invokeBuf.ptr + mem.invokeBuf.len.toNat ≤ 2 ^ 64) :
    (∀ addr, mem.invokeBuf.Covers addr →
      (mem.respondWithWake addr tmp).Resolves machine.pageSize mem.invokeBuf addr) ↔
    wrappedPages machine spec.numInvokePages = 0 ∨ wrappedPages machine spec.numResponsePages = 1 := by
  obtain ⟨size,whole,pages⟩ := FaultHandlerMemory.new_pages made
  exact all_resolve_iff size whole (FaultHandlerMemory.threadTmp_pages size pages mapped) boundary fits

theorem fault_inside_three_pages :
    MappedBufMut.Covers ⟨100, 12, 4⟩ 107 ∧
      (FaultHandlerMemory.respondWithWake ⟨4, ⟨100, 12, 4⟩, ⟨200, 4, 4⟩, ⟨300, 4, 4⟩⟩ 107 ⟨400, 4, 4⟩).Resolves 4
        ⟨100, 12, 4⟩ 107 := by
  have covered : MappedBufMut.Covers ⟨100, 12, 4⟩ 107 := ⟨by decide,by decide⟩
  have inside := (fault_inside_iff .small ⟨3, 1, 1⟩ (.mapsAt 100 0) (.mapsAt 200 0) (.mapsAt 300 0) (.mapsAt 400 0)
    (fun _ => 0) _ _ ⟨4, ⟨100, 12, 4⟩, ⟨200, 4, 4⟩, ⟨300, 4, 4⟩⟩ ⟨400, 4, 4⟩ rfl rfl (by decide) (by decide)).mpr (.inr rfl)
  exact ⟨covered,inside 107 covered⟩

/-- One invoke page and two response pages: the copy runs into whatever lies behind. -/
theorem fault_copy_outside :
    (∃ memory, FaultHandlerMemory.new .small ⟨1, 1, 2⟩ (.mapsAt 100 0) (.mapsAt 200 0) (.mapsAt 300 0) (fun _ => 0) =
        .ok (.ok (⟨4, ⟨100, 4, 4⟩, ⟨200, 4, 4⟩, ⟨300, 8, 4⟩⟩, memory)) ∧
      ∃ memory', FaultHandlerMemory.threadTmp ⟨4, ⟨100, 4, 4⟩, ⟨200, 4, 4⟩, ⟨300, 8, 4⟩⟩ .small (.mapsAt 400 0) memory =
        .ok (⟨400, 8, 4⟩, memory')) ∧
    FaultHandlerMemory.respondWithWake ⟨4, ⟨100, 4, 4⟩, ⟨200, 4, 4⟩, ⟨300, 8, 4⟩⟩ 102 ⟨400, 8, 4⟩ =
      ⟨400, 100, 8, true⟩ :=
  ⟨⟨_,rfl,_,rfl⟩,rfl⟩

end Ndp
