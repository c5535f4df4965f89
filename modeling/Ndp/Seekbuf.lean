import Ndp.ByteMemory
import Ndp.ByteReader
import Ndp.CppStd

/-! The C++ wire structs and the buffer they are read from and written to. Every access is
made at the buffer's position, which none of them moves, and two of the three writers call
the reading macro. -/
namespace Ndp.Cpp

open ByteMemory ByteReader Looping

structure SmearState (w : Nat) where
  v : BitVec w
  i : Nat
  positive : 0 < i

def smearBody (s : SmearState w) : Flow (SmearState w) (BitVec w) :=
  if s.i < w then .next ⟨s.v ||| s.v >>> s.i, s.i * 2, by have := s.positive; omega⟩ else .ret s.v

def smearVariant (w : Nat) : Variant (smearBody (w := w)) where
  measure s := w - s.i
  decreases s s' h := by
    have := s.positive
    unfold smearBody at h
    split at h
    · obtain rfl := Flow.next.inj h
      simp only
      omega
    · contradiction

/-- `edge::util::ceil_pow2`, at the width of its argument. -/
def ceilPow2 (v : BitVec w) : BitVec w := run (smearVariant w) ⟨v - 1, 1, by decide⟩ + 1

/-- A type copied byte by byte through a pointer cast. -/
class Scalar (T : Type) where
  size : Nat
  toNat : T → Nat
  ofNat : Nat → T
  toNat_lt : ∀ x, toNat x < 256 ^ size
  ofNat_toNat : ∀ x, ofNat (toNat x) = x
  word : size ≤ 8

instance : Scalar UInt32 :=
  ⟨4, UInt32.toNat, UInt32.ofNat, fun x => x.toNat_lt, fun _ => UInt32.ofNat_toNat, by decide⟩
instance : Scalar UInt64 :=
  ⟨8, UInt64.toNat, UInt64.ofNat, fun x => x.toNat_lt, fun _ => UInt64.ofNat_toNat, by decide⟩

/-- An enumeration with a fixed underlying type has all of that type's values. -/
structure MessageKindT where
  value : UInt32
  deriving DecidableEq, Repr

namespace MessageKindT

def invalid : MessageKindT := ⟨0⟩
def reqAlloc : MessageKindT := ⟨1⟩
def resAlloc : MessageKindT := ⟨2⟩

end MessageKindT

instance : Scalar MessageKindT :=
  ⟨4, fun x => x.value.toNat, fun n => ⟨UInt32.ofNat n⟩, fun x => x.value.toNat_lt, fun x => by simp, by decide⟩

section Bytes

variable (littleEndian : Bool)

def ordered (bytes : List UInt8) : List UInt8 := if littleEndian then bytes.reverse else bytes

def bytesOf [Scalar T] (x : T) : List UInt8 := ordered littleEndian (bigEndian (Scalar.size T) (Scalar.toNat x))

def ofBytes (T : Type) [Scalar T] (bytes : List UInt8) : T := Scalar.ofNat (ofBigEndian (ordered littleEndian bytes))

@[simp] theorem bytesOf_length [Scalar T] (x : T) : (bytesOf littleEndian x).length = Scalar.size T := by
  unfold bytesOf ordered
  split <;> simp

@[simp] theorem ofBytes_bytesOf [Scalar T] (x : T) : ofBytes littleEndian T (bytesOf littleEndian x) = x := by
  have digits : ordered littleEndian (bytesOf littleEndian x) = bigEndian (Scalar.size T) (Scalar.toNat x) := by
    unfold bytesOf ordered
    split <;> simp
  rw [ofBytes,digits,ofBigEndian_bigEndian _ _ (Scalar.toNat_lt x),Scalar.ofNat_toNat]

end Bytes

/-- `seekbuf`: the allocation of its vector, how many of those bytes are elements, and the
position. No allocation is as large as half the address space. -/
structure Seekbuf where
  capacityTarget : UInt64
  storage : List UInt8
  length : Nat
  pos : UInt64
  within : length ≤ storage.length
  allocated : storage.length < 2 ^ 63

namespace Seekbuf

/-- The vector is filled with zeros up to the capacity asked for. -/
def new (capacity : UInt64) (allocated : capacity.toNat < 2 ^ 63) : Seekbuf :=
  ⟨capacity, List.replicate capacity.toNat 0, capacity.toNat, 0, by simp, by simpa using allocated⟩

/-- A larger allocation takes the elements over; what lies behind them is left to `fresh`. -/
def regrow (fresh : Nat → UInt8) (b : Seekbuf) : Outcome Seekbuf :=
  let target := (ceilPow2 (b.capacityTarget + b.pos).toBitVec).toNat
  if roomy : target ≤ b.storage.length then return b
  else if small : target < 2 ^ 63 then
    return { b with
      storage := b.storage.take b.length ++ (List.range (target - b.length)).map fresh
      within := by simp [Nat.min_eq_left b.within]
      allocated := by
        have := b.within
        simp only [List.length_append,List.length_take,List.length_map,List.length_range]
        omega }
  else .exited "vector::reserve"

variable (littleEndian : Bool) (b : Seekbuf)

def size : UInt64 := UInt64.ofNat b.length - b.pos

def remaining : UInt64 := UInt64.ofNat b.storage.length - b.size

/-- A position as a signed result. -/
def ssize (n : UInt64) : Int := n.toInt64.toInt

/-- `read_into`: the result, and what the output holds afterwards. -/
def readInto [Scalar T] (output : T) : Outcome (Int × T) :=
  if UInt64.ofNat (Scalar.size T) > b.remaining then return (-1, output)
  else if b.pos.toNat + Scalar.size T ≤ b.storage.length then
    return (ssize (b.pos + UInt64.ofNat (Scalar.size T)),
      ofBytes littleEndian T (slice b.storage b.pos.toNat (Scalar.size T)))
  else .outOfBounds b.pos.toNat

/-- The buffer with a value stored at its position. -/
def put [Scalar T] (input : T) : Seekbuf :=
  { b with
    storage := splice b.storage b.pos.toNat (bytesOf littleEndian input)
    within := by simpa using b.within
    allocated := by simpa using b.allocated }

def write [Scalar T] (input : T) : Outcome (Int × Seekbuf) :=
  if UInt64.ofNat (Scalar.size T) > b.remaining then return (-1, b)
  else if b.pos.toNat + Scalar.size T ≤ b.storage.length then
    return (ssize (b.pos + UInt64.ofNat (Scalar.size T)), b.put littleEndian input)
  else .outOfBounds b.pos.toNat

/-- `SEEKBUF_READ`: whether to go on, and the variable. -/
def seekbufRead [Scalar T] (var : T) : Outcome (Bool × T) := do
  let (result, var) ← b.readInto littleEndian var
  return (0 ≤ result, var)

/-- `SEEKBUF_WRITE`: whether to go on, and the buffer. -/
def seekbufWrite [Scalar T] (var : T) : Outcome (Bool × Seekbuf) := do
  let (result, b) ← b.write littleEndian var
  return (0 ≤ result, b)

end Seekbuf

/-- A struct with its two methods. Both may change the struct they are called on. -/
class Wire (S : Type) where
  readFrom : Bool → S → Seekbuf → Outcome (Bool × S)
  writeTo : Bool → S → Seekbuf → Outcome (Bool × S × Seekbuf)

structure HeaderT where
  len : UInt32
  messageKind : MessageKindT
  deriving DecidableEq, Repr

@[ext] structure AllocRequest where
  size : UInt64
  deriving DecidableEq, Repr

@[ext] structure AllocResponse where
  handle : UInt32
  deriving DecidableEq, Repr

section Methods

variable (littleEndian : Bool)

def HeaderT.readFrom (self : HeaderT) (buf : Seekbuf) : Outcome (Bool × HeaderT) := do
  let (ok, len) ← buf.seekbufRead littleEndian self.len
  let self := { self with len := len }
  if ok then
    let (ok, messageKind) ← buf.seekbufRead littleEndian self.messageKind
    return (ok, { self with messageKind := messageKind })
  else return (false, self)

def HeaderT.writeTo (self : HeaderT) (buf : Seekbuf) : Outcome (Bool × HeaderT × Seekbuf) := do
  let (ok, buf) ← buf.seekbufWrite littleEndian self.len
  if ok then
    let (ok, buf) ← buf.seekbufWrite littleEndian self.messageKind
    return (ok, self, buf)
  else return (false, self, buf)

def AllocRequest.readFrom (self : AllocRequest) (buf : Seekbuf) : Outcome (Bool × AllocRequest) := do
  let (ok, size) ← buf.seekbufRead littleEndian self.size
  return (ok, { self with size := size })

/-- The source reads here, into the struct that was to be written. -/
def AllocRequest.writeTo (self : AllocRequest) (buf : Seekbuf) : Outcome (Bool × AllocRequest × Seekbuf) := do
  let (ok, size) ← buf.seekbufRead littleEndian self.size
  return (ok, { self with size := size }, buf)

def AllocResponse.readFrom (self : AllocResponse) (buf : Seekbuf) : Outcome (Bool × AllocResponse) := do
  let (ok, handle) ← buf.seekbufRead littleEndian self.handle
  return (ok, { self with handle := handle })

/-- As above. -/
def AllocResponse.writeTo (self : AllocResponse) (buf : Seekbuf) : Outcome (Bool × AllocResponse × Seekbuf) := do
  let (ok, handle) ← buf.seekbufRead littleEndian self.handle
  return (ok, { self with handle := handle }, buf)

end Methods

instance : Wire HeaderT := ⟨HeaderT.readFrom, HeaderT.writeTo⟩
instance : Wire AllocRequest := ⟨AllocRequest.readFrom, AllocRequest.writeTo⟩
instance : Wire AllocResponse := ⟨AllocResponse.readFrom, AllocResponse.writeTo⟩

namespace Seekbuf

/-- What an access of some bytes needs: the room the code checks for, and to stay inside the
allocation. -/
def Fits (b : Seekbuf) (count : Nat) : Prop :=
  count ≤ b.remaining.toNat ∧ b.pos.toNat + count ≤ b.storage.length

instance (b : Seekbuf) (count : Nat) : Decidable (b.Fits count) := inferInstanceAs (Decidable (_ ∧ _))

variable (littleEndian : Bool)

/-- The value at the buffer's position. -/
def peek (b : Seekbuf) (T : Type) [Scalar T] : T :=
  ofBytes littleEndian T (slice b.storage b.pos.toNat (Scalar.size T))

theorem ssize_nonneg {n : UInt64} (small : n.toNat < 2 ^ 63) : 0 ≤ ssize n := by
  have value : n.toInt64.toInt = n.toNat := by
    rw [← Int64.toInt_ofNat_of_lt small,← UInt64.toInt64_ofNat',UInt64.ofNat_toNat]
  rw [ssize,value]
  exact Int.natCast_nonneg _

section Access

variable [Scalar T] (b : Seekbuf)

theorem size_toNat : (UInt64.ofNat (Scalar.size T)).toNat = Scalar.size T := by
  have := Scalar.word (T := T)
  exact UInt64.toNat_ofNat_of_lt' (by simp only [UInt64.size]; omega)

theorem checked_iff : ¬UInt64.ofNat (Scalar.size T) > b.remaining ↔ Scalar.size T ≤ b.remaining.toNat := by
  rw [gt_iff_lt,UInt64.lt_iff_toNat_lt,size_toNat,Nat.not_lt]

theorem next_nonneg (inside : b.pos.toNat + Scalar.size T ≤ b.storage.length) :
    0 ≤ ssize (b.pos + UInt64.ofNat (Scalar.size T)) := by
  have := b.allocated
  apply ssize_nonneg
  rw [UInt64.toNat_add,size_toNat]
  omega

theorem access_true_iff (T : Type) [Scalar T] {α : Type} (kept done x : α) :
    ((if UInt64.ofNat (Scalar.size T) > b.remaining then .returned (-1, kept)
      else if b.pos.toNat + Scalar.size T ≤ b.storage.length then
        .returned (ssize (b.pos + UInt64.ofNat (Scalar.size T)), done)
      else .outOfBounds b.pos.toNat : Outcome (Int × α)) >>= fun (result, y) => pure (decide (0 ≤ result), y)) =
      Outcome.returned (true, x) ↔ b.Fits (Scalar.size T) ∧ done = x := by
  unfold Fits
  by_cases room : UInt64.ofNat (Scalar.size T) > b.remaining
  · have lacks := mt (checked_iff b).mpr (not_not.mpr room)
    simp [room,lacks]
  · have holds := (checked_iff b).mp room
    by_cases inside : b.pos.toNat + Scalar.size T ≤ b.storage.length
    · simp [room,holds,inside,next_nonneg b inside]
    · simp [room,inside]

theorem seekbufRead_true_iff (var x : T) :
    b.seekbufRead littleEndian var = .returned (true, x) ↔ b.Fits (Scalar.size T) ∧ b.peek littleEndian T = x :=
  b.access_true_iff T var _ x

theorem seekbufWrite_true_iff (var : T) (b' : Seekbuf) :
    b.seekbufWrite littleEndian var = .returned (true, b') ↔
      b.Fits (Scalar.size T) ∧ b.put littleEndian var = b' :=
  b.access_true_iff T b _ b'

@[simp] theorem put_fits_iff (var : T) (count : Nat) : (b.put littleEndian var).Fits count ↔ b.Fits count := by
  simp [Fits,remaining,size,put]

theorem peek_put {b : Seekbuf} (fits : b.Fits (Scalar.size T)) (var : T) :
    (b.put littleEndian var).peek littleEndian T = var := by
  have stored : slice (splice b.storage b.pos.toNat (bytesOf littleEndian var)) b.pos.toNat (Scalar.size T) =
      bytesOf littleEndian var := by
    rw [← bytesOf_length littleEndian var]
    exact slice_splice_same (by rw [bytesOf_length]; exact fits.2)
  rw [peek,put,stored,ofBytes_bytesOf]

theorem put_put [Scalar S] (same : Scalar.size S = Scalar.size T) (first : S) (var : T) :
    (b.put littleEndian first).put littleEndian var = b.put littleEndian var := by
  have again := splice_again b.storage
    (show (bytesOf littleEndian first).length = (bytesOf littleEndian var).length by simpa using same) b.pos.toNat
  simp only [put,again]

end Access

/-- The constructor fills its allocation, so a buffer has no room until it is regrown. -/
theorem new_not_fits (capacity : UInt64) (allocated : capacity.toNat < 2 ^ 63) {count : Nat} (positive : 0 < count) :
    ¬(new capacity allocated).Fits count := by
  simp [Fits,remaining,size,new]
  omega

theorem Fits.shrink {b : Seekbuf} {count count' : Nat} (fits : b.Fits count) (le : count' ≤ count) : b.Fits count' := by
  obtain ⟨room,inside⟩ := fits
  exact ⟨by omega,by omega⟩

end Seekbuf

section RoundTrip

variable (littleEndian : Bool)

/-- The value is written, and reading it back gives it whatever the struct it is read into held. -/
def RoundTrips [Wire S] (v : S) (b : Seekbuf) : Prop :=
  ∃ left b', Wire.writeTo littleEndian v b = .returned (true, left, b') ∧
    ∀ target, Wire.readFrom littleEndian target b' = .returned (true, v)

/-- A header and a body are written one behind the other, and both are read back. -/
def BothRoundTrip [Wire S] (header : HeaderT) (body : S) (b : Seekbuf) : Prop :=
  ∃ left b₁ left' b₂, Wire.writeTo littleEndian header b = .returned (true, left, b₁) ∧
    Wire.writeTo littleEndian body b₁ = .returned (true, left', b₂) ∧
    (∀ target : HeaderT, Wire.readFrom littleEndian target b₂ = .returned (true, header)) ∧
    ∀ target : S, Wire.readFrom littleEndian target b₂ = .returned (true, body)

variable (b b' : Seekbuf)

theorem header_read_iff (target header : HeaderT) :
    Wire.readFrom littleEndian target b = .returned (true, header) ↔
      b.Fits 4 ∧ b.peek littleEndian UInt32 = header.len ∧ b.peek littleEndian MessageKindT = header.messageKind := by
  constructor
  · intro h
    obtain ⟨⟨ok,len⟩,first,rest⟩ := Outcome.bind_returned_iff.mp h
    cases ok with
    | false => simp at rest
    | true =>
      obtain ⟨⟨ok,kind⟩,second,last⟩ := Outcome.bind_returned_iff.mp rest
      obtain ⟨rfl,rfl⟩ : ok = true ∧ (⟨len,kind⟩ : HeaderT) = header := by simpa using last
      have ⟨fits,len⟩ := (b.seekbufRead_true_iff littleEndian _ _).mp first
      exact ⟨fits,len,((b.seekbufRead_true_iff littleEndian _ _).mp second).2⟩
  · rintro ⟨fits,len,kind⟩
    have first := (b.seekbufRead_true_iff littleEndian target.len header.len).mpr ⟨fits,len⟩
    have second := (b.seekbufRead_true_iff littleEndian target.messageKind header.messageKind).mpr ⟨fits,kind⟩
    change HeaderT.readFrom littleEndian target b = _
    simp [HeaderT.readFrom,first,second]

/-- The kind is stored over the length. -/
theorem header_write_iff (header left : HeaderT) :
    Wire.writeTo littleEndian header b = .returned (true, left, b') ↔
      b.Fits 4 ∧ header = left ∧ b.put littleEndian header.messageKind = b' := by
  have stacked : (b.put littleEndian header.len).put littleEndian header.messageKind =
    b.put littleEndian header.messageKind := b.put_put littleEndian rfl _ _
  constructor
  · intro h
    obtain ⟨⟨ok,b₁⟩,first,rest⟩ := Outcome.bind_returned_iff.mp h
    cases ok with
    | false => simp at rest
    | true =>
      obtain ⟨fits,rfl⟩ := (b.seekbufWrite_true_iff littleEndian _ _).mp first
      obtain ⟨⟨ok,b₂⟩,second,last⟩ := Outcome.bind_returned_iff.mp rest
      obtain ⟨rfl,rfl,rfl⟩ : ok = true ∧ header = left ∧ b₂ = b' := by simpa using last
      have ⟨_,stored⟩ := (Seekbuf.seekbufWrite_true_iff littleEndian _ _ _).mp second
      exact ⟨fits,rfl,stacked ▸ stored⟩
  · rintro ⟨fits,rfl,rfl⟩
    have first := (b.seekbufWrite_true_iff littleEndian header.len _).mpr ⟨fits,rfl⟩
    have second := ((b.put littleEndian header.len).seekbufWrite_true_iff littleEndian header.messageKind _).mpr
      ⟨(b.put_fits_iff littleEndian header.len _).mpr fits,stacked⟩
    change HeaderT.writeTo littleEndian header b = _
    simp [HeaderT.writeTo,first,second]

theorem field_iff [Scalar T] (var : T) (mk : T → S) (x : S) :
    (do let (ok, value) ← b.seekbufRead littleEndian var; return (ok, mk value)) = Outcome.returned (true, x) ↔
      b.Fits (Scalar.size T) ∧ mk (b.peek littleEndian T) = x := by
  rw [Outcome.bind_returned_iff]
  constructor
  · rintro ⟨⟨ok,value⟩,read,last⟩
    obtain ⟨rfl,rfl⟩ : ok = true ∧ mk value = x := by simpa using last
    obtain ⟨fits,rfl⟩ := (b.seekbufRead_true_iff littleEndian _ _).mp read
    exact ⟨fits,rfl⟩
  · rintro ⟨fits,rfl⟩
    exact ⟨_,(b.seekbufRead_true_iff littleEndian _ _).mpr ⟨fits,rfl⟩,rfl⟩

/-- A struct that both methods fill from the buffer: nothing of it is ever stored. -/
structure Unstored (S : Type) [Wire S] (count : Nat) (found : Seekbuf → S) : Prop where
  reads : ∀ (target x : S) b, Wire.readFrom littleEndian target b = .returned (true, x) ↔ b.Fits count ∧ found b = x
  writes : ∀ (self left : S) b b', Wire.writeTo littleEndian self b = .returned (true, left, b') ↔
    b.Fits count ∧ (found b, b) = (left, b')

theorem request_unstored :
    Unstored littleEndian AllocRequest 8 fun b => ⟨b.peek littleEndian UInt64⟩ where
  reads target x b := field_iff littleEndian b target.size AllocRequest.mk x
  writes self left b b' := field_iff littleEndian b self.size (fun size => (AllocRequest.mk size, b)) (left, b')

theorem response_unstored :
    Unstored littleEndian AllocResponse 4 fun b => ⟨b.peek littleEndian UInt32⟩ where
  reads target x b := field_iff littleEndian b target.handle AllocResponse.mk x
  writes self left b b' := field_iff littleEndian b self.handle (fun handle => (AllocResponse.mk handle, b)) (left, b')

theorem stored_read_iff (fits : b.Fits 4) (kind : MessageKindT) (target header : HeaderT) :
    Wire.readFrom littleEndian target (b.put littleEndian kind) = .returned (true, header) ↔
      header.len = kind.value ∧ header.messageKind = kind := by
  have len : (b.put littleEndian kind).peek littleEndian UInt32 = kind.value :=
    Seekbuf.peek_put littleEndian fits kind.value
  have same : (b.put littleEndian kind).peek littleEndian MessageKindT = kind := Seekbuf.peek_put littleEndian fits kind
  rw [header_read_iff,Seekbuf.put_fits_iff,len,same]
  simp [fits,eq_comm]

theorem header_round_trip_iff (header : HeaderT) :
    RoundTrips littleEndian header b ↔ b.Fits 4 ∧ header.len = header.messageKind.value := by
  constructor
  · rintro ⟨left,b',written,back⟩
    obtain ⟨fits,-,rfl⟩ := (header_write_iff ..).mp written
    exact ⟨fits,((stored_read_iff littleEndian b fits _ _ _).mp (back header)).1⟩
  · rintro ⟨fits,same⟩
    exact ⟨header,_,(header_write_iff ..).mpr ⟨fits,rfl,rfl⟩,
      fun target => (stored_read_iff littleEndian b fits _ _ _).mpr ⟨same,rfl⟩⟩

section Body

variable {littleEndian : Bool} {b : Seekbuf} {S : Type} [Wire S] {count : Nat} {found : Seekbuf → S}

theorem Unstored.round_trip_iff (unstored : Unstored littleEndian S count found) (body : S) :
    RoundTrips littleEndian body b ↔ b.Fits count ∧ found b = body := by
  constructor
  · rintro ⟨left,b',written,back⟩
    obtain ⟨fits,stored⟩ := (unstored.writes ..).mp written
    obtain ⟨-,rfl⟩ := Prod.mk.inj stored
    exact (unstored.reads ..).mp (back body)
  · intro found
    exact ⟨_,b,(unstored.writes ..).mpr ⟨found.1,rfl⟩,fun target => (unstored.reads ..).mpr found⟩

theorem Unstored.both_round_trip_iff (unstored : Unstored littleEndian S count found) (header : HeaderT) (body : S) :
    BothRoundTrip littleEndian header body b ↔
      RoundTrips littleEndian header b ∧ b.Fits count ∧ found (b.put littleEndian header.messageKind) = body := by
  rw [header_round_trip_iff]
  constructor
  · rintro ⟨left,b₁,left',b₂,headed,bodied,backed,back⟩
    obtain ⟨fits,-,rfl⟩ := (header_write_iff ..).mp headed
    obtain ⟨-,stored⟩ := (unstored.writes ..).mp bodied
    obtain ⟨-,rfl⟩ := Prod.mk.inj stored
    obtain ⟨room,same⟩ := (unstored.reads ..).mp (back body)
    have len := ((stored_read_iff littleEndian b fits _ _ _).mp (backed header)).1
    exact ⟨⟨fits,len⟩,(b.put_fits_iff littleEndian _ _).mp room,same⟩
  · rintro ⟨⟨fits,len⟩,room,same⟩
    have kept := (b.put_fits_iff littleEndian header.messageKind count).mpr room
    exact ⟨header,_,_,_,(header_write_iff ..).mpr ⟨fits,rfl,rfl⟩,(unstored.writes ..).mpr ⟨kept,rfl⟩,
      fun target => (stored_read_iff littleEndian b fits _ _ _).mpr ⟨len,rfl⟩,
      fun target => (unstored.reads ..).mpr ⟨kept,same⟩⟩

end Body

end RoundTrip

/-- The structs that come back are those that lay in the buffer before, or had to be written
over themselves unchanged. -/
theorem wire_round_trip_iff (littleEndian : Bool) (header : HeaderT) (request : AllocRequest)
    (response : AllocResponse) (b : Seekbuf) :
    (RoundTrips littleEndian header b ↔ b.Fits 4 ∧ header.len = header.messageKind.value) ∧
    (RoundTrips littleEndian request b ↔ b.Fits 8 ∧ b.peek littleEndian UInt64 = request.size) ∧
    (RoundTrips littleEndian response b ↔ b.Fits 4 ∧ b.peek littleEndian UInt32 = response.handle) ∧
    (BothRoundTrip littleEndian header request b ↔ b.Fits 8 ∧ header.len = header.messageKind.value ∧
      (b.put littleEndian header.messageKind).peek littleEndian UInt64 = request.size) ∧
    (BothRoundTrip littleEndian header response b ↔ b.Fits 4 ∧ header.len = header.messageKind.value ∧
      header.messageKind.value = response.handle) := by
  refine ⟨header_round_trip_iff littleEndian b header,?_,?_,?_,?_⟩
  · rw [(request_unstored littleEndian).round_trip_iff,AllocRequest.ext_iff]
  · rw [(response_unstored littleEndian).round_trip_iff,AllocResponse.ext_iff]
  · rw [(request_unstored littleEndian).both_round_trip_iff,header_round_trip_iff,AllocRequest.ext_iff]
    constructor
    · rintro ⟨⟨-,len⟩,fits,same⟩
      exact ⟨fits,len,same⟩
    · rintro ⟨fits,len,same⟩
      exact ⟨⟨fits.shrink (by decide),len⟩,fits,same⟩
  · rw [(response_unstored littleEndian).both_round_trip_iff,header_round_trip_iff,AllocResponse.ext_iff]
    have stored (fits : b.Fits 4) :
        (b.put littleEndian header.messageKind).peek littleEndian UInt32 = header.messageKind.value :=
      Seekbuf.peek_put littleEndian fits header.messageKind.value
    constructor
    · rintro ⟨⟨-,len⟩,fits,same⟩
      exact ⟨fits,len,(stored fits).symm.trans same⟩
    · rintro ⟨fits,len,same⟩
      exact ⟨⟨fits,len⟩,fits,(stored fits).trans same⟩

/-- A buffer made for 17 bytes and regrown to 32. -/
def regrown : Seekbuf := ⟨17, List.replicate 32 0, 17, 0, by decide, by decide⟩

theorem regrow_seventeen : (Seekbuf.new 17 (by decide)).regrow (fun _ => 0) = .returned regrown := rfl

theorem wire_round_trip_regrown :
    RoundTrips true (⟨1, .reqAlloc⟩ : HeaderT) regrown ∧ RoundTrips true (⟨0⟩ : AllocRequest) regrown ∧
      BothRoundTrip true ⟨2, .resAlloc⟩ (⟨2⟩ : AllocResponse) regrown :=
  have holds (header : HeaderT) := wire_round_trip_iff true header ⟨0⟩ ⟨2⟩ regrown
  ⟨(holds ⟨1, .reqAlloc⟩).1.mpr (by decide),(holds ⟨1, .reqAlloc⟩).2.1.mpr (by decide),
    (holds ⟨2, .resAlloc⟩).2.2.2.2.mpr (by decide)⟩

/-- A buffer of 64 bytes refuses a header. In a regrown one a header comes back with its kind
as its length, and a request is emptied instead of stored. -/
theorem wire_not_round_trip :
    (∃ b', HeaderT.writeTo true ⟨8, .reqAlloc⟩ (Seekbuf.new 64 (by decide)) = .returned (false, ⟨8, .reqAlloc⟩, b')) ∧
    (Seekbuf.new 17 (by decide)).regrow (fun _ => 0) = .returned regrown ∧
    (∃ b', HeaderT.writeTo true ⟨8, .reqAlloc⟩ regrown = .returned (true, ⟨8, .reqAlloc⟩, b') ∧
      HeaderT.readFrom true ⟨0, .invalid⟩ b' = .returned (true, ⟨1, .reqAlloc⟩)) ∧
    AllocRequest.writeTo true ⟨7⟩ regrown = .returned (true, ⟨0⟩, regrown) ∧
    AllocResponse.writeTo true ⟨7⟩ regrown = .returned (true, ⟨0⟩, regrown) :=
  ⟨⟨_,rfl⟩,regrow_seventeen,⟨_,rfl,rfl⟩,rfl,rfl⟩

end Ndp.Cpp
