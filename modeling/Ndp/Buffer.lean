import Ndp.Messages
import Ndp.RustStd

/-! The per-connection read buffer and its header bookkeeping. `bytes::BytesMut` is a
byte sequence inside a capacity; how far an allocation overshoots a request for room
is left to a growth policy. -/
namespace Ndp

structure MessageHeader where
  kind : String
  length : UInt32
  deriving DecidableEq, Repr

structure MessageHeaderDecoded where
  header : MessageHeader
  headerLen : UInt32
  deriving DecidableEq, Repr

abbrev MessageHeader.fields : List FieldTy := [.str, .u32]

instance : Serialize MessageHeader :=
  ⟨fun R x => R.serialize MessageHeader.fields (x.kind, x.length, ())⟩
instance : Deserialize MessageHeader :=
  ⟨fun R => derived R MessageHeader.fields fun (kind, length, ()) => ⟨kind, length⟩⟩

def MessageHeaderDecoded.dataLen (h : MessageHeaderDecoded) : UInt32 := h.header.length
def MessageHeaderDecoded.bufTarget (h : MessageHeaderDecoded) : UInt32 := h.dataLen

/-- How large an allocation `reserve` makes when the room asked for is not there. -/
structure Growth where
  newCapacity : (len capacity additional : Nat) → Nat
  enough : ∀ len capacity additional, len + additional ≤ newCapacity len capacity additional

/-- An allocator that hands out exactly what it is asked for. -/
def Growth.exact : Growth := ⟨fun len _ additional => len + additional, fun _ _ _ => Nat.le_refl _⟩

structure BytesMut where
  bytes : List UInt8
  capacity : Nat
  fits : bytes.length ≤ capacity

namespace BytesMut

def withCapacity (capacity : Nat) : BytesMut := ⟨[], capacity, Nat.zero_le _⟩

def len (b : BytesMut) : Nat := b.bytes.length

/-- Both the contents and the capacity shrink from the front. -/
def advance (b : BytesMut) (count : Nat) : Except Panic BytesMut :=
  if count ≤ b.bytes.length then
    .ok ⟨b.bytes.drop count, b.capacity - count, by
      have := b.fits
      simp only [List.length_drop]
      omega⟩
  else .error .advancePastEnd

def reserve (grow : Growth) (b : BytesMut) (additional : Nat) : BytesMut :=
  if h : additional ≤ b.capacity - b.bytes.length then b
  else ⟨b.bytes, grow.newCapacity b.bytes.length b.capacity additional, by
    have := grow.enough b.bytes.length b.capacity additional
    omega⟩

@[simp] theorem reserve_bytes (grow : Growth) (b : BytesMut) (additional : Nat) :
    (b.reserve grow additional).bytes = b.bytes := by
  unfold reserve
  split <;> rfl

theorem reserve_room (grow : Growth) (b : BytesMut) (additional : Nat) :
    b.bytes.length + additional ≤ (b.reserve grow additional).capacity := by
  have := b.fits
  have := grow.enough b.bytes.length b.capacity additional
  unfold reserve
  split
  · omega
  · assumption

/-- Append what a read delivered. A read never exceeds the spare room, so the
reservation only matters for deliveries larger than the buffer. -/
def extend (grow : Growth) (b : BytesMut) (chunk : List UInt8) : BytesMut :=
  ⟨(b.reserve grow chunk.length).bytes ++ chunk, (b.reserve grow chunk.length).capacity, by
    have := reserve_room grow b chunk.length
    simpa using this⟩

@[simp] theorem extend_bytes (grow : Growth) (b : BytesMut) (chunk : List UInt8) :
    (b.extend grow chunk).bytes = b.bytes ++ chunk := by simp [extend]

theorem advance_ok {b : BytesMut} {count : Nat} (h : count ≤ b.bytes.length) :
    ∃ b', b.advance count = .ok b' ∧ b'.bytes = b.bytes.drop count := by
  exact ⟨_,if_pos h,rfl⟩

theorem advance_bytes {b b' : BytesMut} {count : Nat} (h : b.advance count = .ok b') :
    count ≤ b.bytes.length ∧ b'.bytes = b.bytes.drop count := by
  unfold advance at h
  split at h
  · next fits =>
    cases h
    exact ⟨fits,rfl⟩
  · contradiction

end BytesMut

/-- What one read of the socket meets: bytes, or an error. No event left means that
the peer has closed its end. -/
inductive ReadEvent where
  | data (chunk : List UInt8)
  | failed (e : IoError)
  deriving DecidableEq, Repr

abbrev Socket := List ReadEvent

/-- `read_buf`: a full buffer first gets 64 bytes of room, then takes one delivery. -/
def readBuf (grow : Growth) (socket : Socket) (buffer : BytesMut) :
    Except IoError Nat × Socket × BytesMut :=
  let buffer := if buffer.capacity = buffer.len then buffer.reserve grow 64 else buffer
  match socket with
  | [] => (.ok 0, [], buffer)
  | .data chunk :: rest => (.ok chunk.length, rest, buffer.extend grow chunk)
  | .failed e :: rest => (.error e, rest, buffer)

inductive BufferState where
  | empty
  | waitHeader
  | waitData
  | done
  deriving DecidableEq, Repr

structure BufferContext where
  initialCapacity : Nat
  buffer : BytesMut
  headerWithTarget : Option MessageHeaderDecoded

namespace BufferContext

def new (capacity : Nat) : BufferContext := ⟨capacity, .withCapacity capacity, none⟩

/-- `checked_sub` yields a value whenever the subtraction does not go below zero. -/
def regrow (grow : Growth) (ctx : BufferContext) : BufferContext :=
  if ctx.buffer.capacity ≤ ctx.initialCapacity then
    { ctx with buffer := ctx.buffer.reserve grow (ctx.initialCapacity - ctx.buffer.capacity) }
  else ctx

def header (ctx : BufferContext) : Option MessageHeader := ctx.headerWithTarget.map (·.header)

def setHeaderWithLen (ctx : BufferContext) (header : MessageHeader) (headerLen : UInt32) :
    BufferContext :=
  { ctx with headerWithTarget := some ⟨header, headerLen⟩ }

/-- The cursor position is cut to 32 bits before the buffer advances by it. -/
def tryReadHeader (R : Rmps) (ctx : BufferContext) :
    Except Panic (Except R.Error Unit × BufferContext) :=
  match (Deserialize.deserialize R ctx.buffer.bytes : Except R.Error (MessageHeader × Nat)) with
  | .ok (header, position) =>
    let headerLen := UInt32.ofNat position
    let ctx := ctx.setHeaderWithLen header headerLen
    match ctx.buffer.advance headerLen.toNat with
    | .ok buffer => .ok (.ok (), { ctx with buffer := buffer })
    | .error panic => .error panic
  | .error e => .ok (.error e, ctx)

def getState (ctx : BufferContext) : BufferState :=
  let pos := UInt32.ofNat ctx.buffer.len
  match ctx.headerWithTarget with
  | none => if pos = 0 then .empty else .waitHeader
  | some h => if h.header.length ≤ pos then .done else .waitData

@[simp] theorem regrow_bytes (grow : Growth) (ctx : BufferContext) :
    (ctx.regrow grow).buffer.bytes = ctx.buffer.bytes := by
  unfold regrow
  split <;> simp

@[simp] theorem regrow_header (grow : Growth) (ctx : BufferContext) :
    (ctx.regrow grow).headerWithTarget = ctx.headerWithTarget := by
  unfold regrow
  split <;> rfl

/-- The state is decided by the low 32 bits of the number of buffered bytes. -/
theorem getState_done_iff (ctx : BufferContext) :
    ctx.getState = .done ↔
      ∃ h, ctx.headerWithTarget = some h ∧ h.header.length.toNat ≤ ctx.buffer.bytes.length % 2 ^ 32 := by
  unfold getState
  cases h : ctx.headerWithTarget with
  | none =>
    simp only [reduceCtorEq,false_and,exists_false,iff_false]
    split <;> simp
  | some target =>
    simp only [Option.some.injEq,exists_eq_left',UInt32.le_iff_toNat_le,UInt32.toNat_ofNat',
      BytesMut.len]
    split <;> simp_all

end BufferContext

end Ndp
