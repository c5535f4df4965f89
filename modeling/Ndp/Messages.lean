import Ndp.Serde

/-! The messages of the protocol with their kind tags and derived field orders.
Borrowed and owned forms of one message are separate types, as in the source. -/
namespace Ndp

namespace MessageKind

def requestAlloc : String := "ALLOC"
def requestWrite : String := "WRITE"
def requestRead : String := "READ"
def requestInvoke : String := "CALL"
def responseOkHandle : String := "OK_H"
def responseOkBuffer : String := "OK_B"
def responseErr : String := "ERR"

end MessageKind

class MessageKindTagged (M : Type) where
  kind : M → String

class Serialize (M : Type) where
  serialize : (R : Rmps) → M → List UInt8

class Deserialize (M : Type) where
  deserialize : (R : Rmps) → List UInt8 → Except R.Error (M × Nat)

/-- A derived `Deserialize`: decode the fields in order, then build the struct. -/
def derived (R : Rmps) (tys : List FieldTy) (build : Fields tys → M) (bytes : List UInt8) :
    Except R.Error (M × Nat) :=
  (R.deserialize tys bytes).map fun (v, count) => (build v, count)

abbrev PageHandle := UInt64

structure AllocRequest where
  size : UInt64
  deriving DecidableEq, Repr

structure WriteRequestRef where
  handle : PageHandle
  offset : UInt64
  buf : List UInt8
  deriving DecidableEq, Repr

structure WriteRequestOwned where
  handle : PageHandle
  offset : UInt64
  buf : List UInt8
  deriving DecidableEq, Repr

structure ReadRequest where
  handle : PageHandle
  offset : UInt64
  len : UInt64
  deriving DecidableEq, Repr

structure InvokeRequest where
  handle : PageHandle
  deriving DecidableEq, Repr

structure OkWithHandleResponse where
  handle : PageHandle
  deriving DecidableEq, Repr

structure OkWithBufferResponse where
  handle : PageHandle
  offset : UInt64
  buf : List UInt8
  deriving DecidableEq, Repr

structure OkWithBufferResponseOwned where
  handle : PageHandle
  offset : UInt64
  buf : List UInt8
  deriving DecidableEq, Repr

inductive ErrorStatus where
  | unknown
  | invalidHandle
  | argumentOutOfRange
  deriving DecidableEq, Repr

structure ErrResponse where
  error : ErrorStatus
  message : String
  deriving DecidableEq, Repr

instance : MessageKindTagged AllocRequest := ⟨fun _ => MessageKind.requestAlloc⟩
instance : MessageKindTagged WriteRequestRef := ⟨fun _ => MessageKind.requestWrite⟩
instance : MessageKindTagged WriteRequestOwned := ⟨fun _ => MessageKind.requestWrite⟩
instance : MessageKindTagged ReadRequest := ⟨fun _ => MessageKind.requestRead⟩
instance : MessageKindTagged InvokeRequest := ⟨fun _ => MessageKind.requestInvoke⟩
instance : MessageKindTagged OkWithHandleResponse := ⟨fun _ => MessageKind.responseOkHandle⟩
instance : MessageKindTagged OkWithBufferResponse := ⟨fun _ => MessageKind.responseOkBuffer⟩
instance : MessageKindTagged OkWithBufferResponseOwned := ⟨fun _ => MessageKind.responseOkBuffer⟩
instance : MessageKindTagged ErrResponse := ⟨fun _ => MessageKind.responseErr⟩

abbrev AllocRequest.fields : List FieldTy := [.u64]
abbrev WriteRequestRef.fields : List FieldTy := [.u64, .u64, .bytes]
abbrev WriteRequestOwned.fields : List FieldTy := [.u64, .u64, .bytes]
abbrev ReadRequest.fields : List FieldTy := [.u64, .u64, .u64]
abbrev InvokeRequest.fields : List FieldTy := [.u64]
abbrev OkWithHandleResponse.fields : List FieldTy := [.u64]
abbrev OkWithBufferResponse.fields : List FieldTy := [.u64, .u64, .bytes]
abbrev OkWithBufferResponseOwned.fields : List FieldTy := [.u64, .u64, .bytes]
abbrev ErrResponse.fields : List FieldTy := [.unitVariant 3, .str]

def ErrorStatus.index : ErrorStatus → Fin (3 : UInt32).toNat
  | .unknown => ⟨0, by decide⟩
  | .invalidHandle => ⟨1, by decide⟩
  | .argumentOutOfRange => ⟨2, by decide⟩

def ErrorStatus.ofIndex (i : Fin (3 : UInt32).toNat) : ErrorStatus :=
  match i.val with
  | 0 => .unknown
  | 1 => .invalidHandle
  | _ => .argumentOutOfRange

@[simp] theorem ErrorStatus.ofIndex_index (status : ErrorStatus) : ofIndex status.index = status := by
  cases status <;> rfl

instance : Serialize AllocRequest := ⟨fun R x => R.serialize AllocRequest.fields (x.size, ())⟩
instance : Serialize WriteRequestRef :=
  ⟨fun R x => R.serialize WriteRequestRef.fields (x.handle, x.offset, x.buf, ())⟩
instance : Serialize ReadRequest :=
  ⟨fun R x => R.serialize ReadRequest.fields (x.handle, x.offset, x.len, ())⟩
instance : Serialize InvokeRequest := ⟨fun R x => R.serialize InvokeRequest.fields (x.handle, ())⟩
instance : Serialize OkWithHandleResponse :=
  ⟨fun R x => R.serialize OkWithHandleResponse.fields (x.handle, ())⟩
instance : Serialize OkWithBufferResponse :=
  ⟨fun R x => R.serialize OkWithBufferResponse.fields (x.handle, x.offset, x.buf, ())⟩
instance : Serialize ErrResponse :=
  ⟨fun R x => R.serialize ErrResponse.fields (x.error.index, x.message, ())⟩

instance : Deserialize AllocRequest :=
  ⟨fun R => derived R AllocRequest.fields fun (size, ()) => ⟨size⟩⟩
instance : Deserialize WriteRequestOwned :=
  ⟨fun R => derived R WriteRequestOwned.fields fun (handle, offset, buf, ()) => ⟨handle, offset, buf⟩⟩
instance : Deserialize ReadRequest :=
  ⟨fun R => derived R ReadRequest.fields fun (handle, offset, len, ()) => ⟨handle, offset, len⟩⟩
instance : Deserialize InvokeRequest :=
  ⟨fun R => derived R InvokeRequest.fields fun (handle, ()) => ⟨handle⟩⟩
instance : Deserialize OkWithHandleResponse :=
  ⟨fun R => derived R OkWithHandleResponse.fields fun (handle, ()) => ⟨handle⟩⟩
instance : Deserialize OkWithBufferResponseOwned :=
  ⟨fun R => derived R OkWithBufferResponseOwned.fields
    fun (handle, offset, buf, ()) => ⟨handle, offset, buf⟩⟩
instance : Deserialize ErrResponse :=
  ⟨fun R => derived R ErrResponse.fields fun (error, message, ()) => ⟨.ofIndex error, message⟩⟩

inductive RequestBody where
  | alloc (x : AllocRequest)
  | write (x : WriteRequestRef)
  | read (x : ReadRequest)
  | invoke (x : InvokeRequest)
  deriving DecidableEq, Repr

inductive RequestBodyOwned where
  | alloc (x : AllocRequest)
  | write (x : WriteRequestOwned)
  | read (x : ReadRequest)
  | invoke (x : InvokeRequest)
  deriving DecidableEq, Repr

inductive ResponseBody where
  | okWithHandle (x : OkWithHandleResponse)
  | okWithBuffer (x : OkWithBufferResponse)
  | err (x : ErrResponse)
  deriving DecidableEq, Repr

inductive ResponseBodyOwned where
  | okWithHandle (x : OkWithHandleResponse)
  | okWithBuffer (x : OkWithBufferResponseOwned)
  | err (x : ErrResponse)
  deriving DecidableEq, Repr

instance : MessageKindTagged RequestBody where
  kind
    | .alloc x => MessageKindTagged.kind x
    | .write x => MessageKindTagged.kind x
    | .read x => MessageKindTagged.kind x
    | .invoke x => MessageKindTagged.kind x

instance : MessageKindTagged RequestBodyOwned where
  kind
    | .alloc x => MessageKindTagged.kind x
    | .write x => MessageKindTagged.kind x
    | .read x => MessageKindTagged.kind x
    | .invoke x => MessageKindTagged.kind x

instance : MessageKindTagged ResponseBody where
  kind
    | .okWithBuffer x => MessageKindTagged.kind x
    | .okWithHandle x => MessageKindTagged.kind x
    | .err x => MessageKindTagged.kind x

instance : MessageKindTagged ResponseBodyOwned where
  kind
    | .okWithBuffer x => MessageKindTagged.kind x
    | .okWithHandle x => MessageKindTagged.kind x
    | .err x => MessageKindTagged.kind x

instance : Serialize ResponseBody where
  serialize R
    | .okWithBuffer x => Serialize.serialize R x
    | .okWithHandle x => Serialize.serialize R x
    | .err x => Serialize.serialize R x

/-- The source serializes a request through its payload; the enum has no impl of its own. -/
instance : Serialize RequestBody where
  serialize R
    | .alloc x => Serialize.serialize R x
    | .write x => Serialize.serialize R x
    | .read x => Serialize.serialize R x
    | .invoke x => Serialize.serialize R x

def WriteRequestRef.toOwned (x : WriteRequestRef) : WriteRequestOwned := ⟨x.handle, x.offset, x.buf⟩

def OkWithBufferResponse.toOwned (x : OkWithBufferResponse) : OkWithBufferResponseOwned :=
  ⟨x.handle, x.offset, x.buf⟩

/-- The variant of the same name with equal fields. -/
def RequestBody.toOwned : RequestBody → RequestBodyOwned
  | .alloc x => .alloc x
  | .write x => .write x.toOwned
  | .read x => .read x
  | .invoke x => .invoke x

def ResponseBody.toOwned : ResponseBody → ResponseBodyOwned
  | .okWithHandle x => .okWithHandle x
  | .okWithBuffer x => .okWithBuffer x.toOwned
  | .err x => .err x

def RequestBody.isInvoke : RequestBody → Bool
  | .invoke _ => true
  | _ => false

@[simp] theorem RequestBody.kind_toOwned (q : RequestBody) :
    MessageKindTagged.kind q.toOwned = MessageKindTagged.kind q := by
  cases q <;> rfl

@[simp] theorem ResponseBody.kind_toOwned (r : ResponseBody) :
    MessageKindTagged.kind r.toOwned = MessageKindTagged.kind r := by
  cases r <;> rfl

/-- Borrowed and owned field orders agree, so a round trip at the field level is one
at the level of the struct that is read. -/
theorem derived_serialize {R : Rmps} (roundTrips : R.RoundTrips) (tys : List FieldTy)
    (build : Fields tys → M) (v : Fields tys) (rest : List UInt8)
    (short : (R.serialize tys v).length < 2 ^ 32) :
    derived R tys build (R.serialize tys v ++ rest) = .ok (build v, (R.serialize tys v).length) := by
  simp [derived,roundTrips tys v rest short,Except.map]

end Ndp
