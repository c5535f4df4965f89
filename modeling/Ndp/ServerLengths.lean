import Ndp.ServerStore

/-! Lengths are kept in 32 bits in two places: the writer's header and the reader's count of
buffered bytes. Each is right exactly as long as nothing is cut off that mattered. -/
namespace Ndp

open ByteMemory MessagePack

/-- Bytes in the body of the response to a read that is granted. -/
def readReplySize (read : ReadRequest) : Nat :=
  1 + uintSize read.handle.toNat + uintSize read.offset.toNat + binHeaderSize read.len.toNat + read.len.toNat

theorem bufferResponse_length {R : Rmps} (sized : MessagePackRmps.Sized R) (response : OkWithBufferResponse) :
    (Serialize.serialize R response).length =
      1 + uintSize response.handle.toNat + uintSize response.offset.toNat +
        binHeaderSize (response.buf.length % 2 ^ 32) + response.buf.length := by
  have total := sized OkWithBufferResponse.fields (response.handle, response.offset, response.buf, ())
  have outer : (writeArrayLen 3).length = 1 := rfl
  simp only [MessagePackRmps.write,MessagePackRmps.writeFields,MessagePackRmps.writeField,writeBin,
    List.length_append,List.length_cons,List.length_nil,writeUint_length,writeBinLen_length,outer] at total
  simp only [Serialize.serialize,total]
  omega

theorem read_response {machine : Machine} {pages : PageMap} {read : ReadRequest}
    {response : OkWithBufferResponse} (replied : (pages.read machine read).replies = [.okWithBuffer response]) :
    response.handle = read.handle ∧ response.offset = read.offset ∧ response.buf.length = read.len.toNat := by
  rcases pages.read_cases machine read with ⟨page,_,enough,granted⟩ | ⟨_,_,refusal,refused⟩
  · rw [granted] at replied
    obtain rfl : OkWithBufferResponse.mk read.handle read.offset
        (slice page read.offset.toNat read.len.toNat) = response := by simpa using replied
    refine ⟨rfl,rfl,?_⟩
    simp only [slice,List.length_take,List.length_drop]
    omega
  · rw [refused] at replied
    exact absurd replied (refusal.ne_singleton (by simp))

theorem ofNat_exact_iff (n : Nat) : (UInt32.ofNat n).toNat = n ↔ n < 2 ^ 32 := by
  rw [UInt32.toNat_ofNat']
  exact Nat.mod_eq_iff_lt (by simp)

theorem reply_exact_iff {R : Rmps} (sized : MessagePackRmps.Sized R) {machine : Machine} {pages : PageMap}
    {read : ReadRequest} {response : OkWithBufferResponse}
    (replied : (pages.read machine read).replies = [.okWithBuffer response]) :
    (messageHeader R response).length.toNat = (Serialize.serialize R response).length ↔
      readReplySize read < 2 ^ 32 := by
  obtain ⟨handle,offset,length⟩ := read_response replied
  have size := bufferResponse_length sized response
  rw [messageHeader,ofNat_exact_iff,size,readReplySize,handle,offset,length]
  by_cases short : read.len.toNat < 2 ^ 32
  · rw [Nat.mod_eq_of_lt short]
  · omega

theorem getState_exact_iff (ctx : BufferContext) :
    (ctx.getState = .done ↔ ∃ target, ctx.headerWithTarget = some target ∧
      target.header.length.toNat ≤ ctx.buffer.len) ↔
    ∀ target, ctx.headerWithTarget = some target → target.header.length.toNat ≤ ctx.buffer.len →
      target.header.length.toNat ≤ ctx.buffer.len % 2 ^ 32 := by
  rw [BufferContext.getState_done_iff]
  cases known : ctx.headerWithTarget with
  | none => simp
  | some target =>
    have below := Nat.mod_le ctx.buffer.len (2 ^ 32)
    simp only [Option.some.injEq,exists_eq_left',forall_eq']
    exact ⟨fun same => same.mpr,fun whole => ⟨fun counted => counted.trans below,whole⟩⟩

/-- The reply to a read declares its true length exactly if its body stays below 4 GiB, and a
complete body is recognised exactly if what is left of the count still covers it. -/
theorem lengths_exact_iff (R : Rmps) (sized : MessagePackRmps.Sized R) (machine : Machine) :
    (∀ (ctx : ServerContext) read response, (ctx.handleRead machine read).replies = [.okWithBuffer response] →
      ((messageHeader R response).length.toNat = (Serialize.serialize R response).length ↔
        readReplySize read < 2 ^ 32)) ∧
    (∀ ctx : BufferContext,
      (ctx.getState = .done ↔ ∃ target, ctx.headerWithTarget = some target ∧
        target.header.length.toNat ≤ ctx.buffer.len) ↔
      ∀ target, ctx.headerWithTarget = some target → target.header.length.toNat ≤ ctx.buffer.len →
        target.header.length.toNat ≤ ctx.buffer.len % 2 ^ 32) := by
  refine ⟨?_,getState_exact_iff⟩
  intro ctx read response replied
  rw [handleRead_eq] at replied
  exact reply_exact_iff sized replied

theorem lengths_exact_page :
    ∃ response, (((Server.start 128 fun _ => 0).after .small [⟨0, .alloc ⟨4⟩, .mapsAt 100 0⟩]).ctx.handleRead .small
        ⟨0, 0, 4⟩).replies = [.okWithBuffer response] ∧
      (messageHeader MessagePackRmps.rmps response).length.toNat =
        (Serialize.serialize MessagePackRmps.rmps response).length := by
  have replied : (((Server.start 128 fun _ => 0).after .small
      [⟨0, .alloc ⟨4⟩, .mapsAt 100 0⟩]).ctx.handleRead .small ⟨0, 0, 4⟩).replies =
    [.okWithBuffer ⟨0, 0, [0, 0, 0, 0]⟩] := by decide
  have exactly := (lengths_exact_iff MessagePackRmps.rmps MessagePackRmps.sized .small).1 _ _ _ replied
  exact ⟨_,replied,exactly.mpr (by decide)⟩

theorem read_whole {machine : Machine} {ctx : ServerContext} {handle : UInt64} {buf : MappedBufMut}
    (live : ctx.pages handle = some buf) (small : buf.len.toNat ≤ isizeMax) :
    ∃ response, (ctx.handleRead machine ⟨handle, 0, buf.len⟩).replies = [.okWithBuffer response] ∧
      response.buf.length = buf.len.toNat := by
  let read : ReadRequest := ⟨handle, 0, buf.len⟩
  have stop : read.offset.toNat + read.len.toNat = buf.len.toNat := Nat.zero_add _
  have fits : read.offset.toNat + read.len.toNat < 2 ^ 64 := by
    rw [stop]
    exact buf.len.toNat_lt
  have there : ctx.contents read.handle = some (buf.asSlice ctx.memory) := contents_of_page live
  have granted := read_granted machine fits there (by rw [stop,MappedBufMut.asSlice_length])
  rw [if_neg (Nat.not_lt.mpr small)] at granted
  refine ⟨_,by rw [handleRead_eq,granted],?_⟩
  simp [slice,read]

/-- A page of 4 GiB read at once, and 4 GiB buffered behind a header that declares one byte. -/
theorem lengths_truncated :
    (∃ response, (((Server.start 128 fun _ => 0).after .small
          [⟨0, .alloc ⟨0x100000000⟩, .mapsAt 100 0⟩]).ctx.handleRead .small
        ⟨0, 0, 0x100000000⟩).replies = [.okWithBuffer response] ∧
      (messageHeader MessagePackRmps.rmps response).length.toNat ≠
        (Serialize.serialize MessagePackRmps.rmps response).length) ∧
    (∃ ctx : BufferContext, ctx.buffer.len = 2 ^ 32 ∧
      ctx.headerWithTarget = some ⟨⟨MessageKind.requestRead, 1⟩, 7⟩ ∧ ctx.getState ≠ .done) := by
  constructor
  · have live : ((Server.start 128 fun _ => 0).after .small
        [⟨0, .alloc ⟨0x100000000⟩, .mapsAt 100 0⟩]).ctx.pages 0 = some ⟨100, 0x100000000, 4⟩ := rfl
    obtain ⟨response,replied,length⟩ := read_whole live (by decide)
    refine ⟨response,replied,?_⟩
    have size := bufferResponse_length MessagePackRmps.sized response
    have cut := (messageHeader MessagePackRmps.rmps response).length.toNat_lt
    have long : response.buf.length = 2 ^ 32 := length
    omega
  · obtain ⟨bytes,length⟩ : ∃ bytes : List UInt8, bytes.length = 2 ^ 32 :=
      ⟨List.replicate (2 ^ 32) 0,List.length_replicate⟩
    refine ⟨⟨0,⟨bytes,2 ^ 32,by omega⟩,some ⟨⟨MessageKind.requestRead,1⟩,7⟩⟩,length,rfl,?_⟩
    rw [ne_eq,BufferContext.getState_done_iff]
    rintro ⟨target,known,counted⟩
    obtain rfl := Option.some.inj known
    simp only [length] at counted
    exact absurd counted (by decide)

end Ndp
