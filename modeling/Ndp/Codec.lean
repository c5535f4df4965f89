import Ndp.Buffer
import Ndp.Looping

/-! Framed messages over a byte stream: `writeTo` emits a header and a body, `readNext`
collects chunks until the body has arrived and decodes it. Each call of `readNext` is
one loop, whose every further iteration has taken one delivery off the socket. -/
namespace Ndp

open Looping

def messageHeader (R : Rmps) [MessageKindTagged M] [Serialize M] (m : M) : MessageHeader where
  kind := MessageKindTagged.kind m
  length := UInt32.ofNat (Serialize.serialize R m).length

/-- The bytes `write_to` hands to the stream: the header, then the body. -/
def writeTo (R : Rmps) [MessageKindTagged M] [Serialize M] (m : M) : List UInt8 :=
  let messageBuf := Serialize.serialize R m
  let headerBuf := Serialize.serialize R (messageHeader R m)
  headerBuf ++ messageBuf

/-- The body decoder of one direction, chosen by the header's kind. It runs over all
the bytes it is given and reports how many it used. -/
class MessageDecoder (M : Type) where
  decode : (R : Rmps) → (kind : String) → List UInt8 → Except R.Error (M × Nat)

def decodeAs (R : Rmps) [Deserialize N] (variant : N → M) (bytes : List UInt8) :
    Except R.Error (M × Nat) :=
  (Deserialize.deserialize R bytes).map fun (x, count) => (variant x, count)

def RequestBodyOwned.decode (R : Rmps) (kind : String) (bytes : List UInt8) :
    Except R.Error (RequestBodyOwned × Nat) :=
  if kind = MessageKind.requestAlloc then decodeAs R .alloc bytes
  else if kind = MessageKind.requestRead then decodeAs R .read bytes
  else if kind = MessageKind.requestWrite then decodeAs R .write bytes
  else .error R.outOfRange

def ResponseBodyOwned.decode (R : Rmps) (kind : String) (bytes : List UInt8) :
    Except R.Error (ResponseBodyOwned × Nat) :=
  if kind = MessageKind.responseOkHandle then decodeAs R .okWithHandle bytes
  else if kind = MessageKind.responseOkBuffer then decodeAs R .okWithBuffer bytes
  else if kind = MessageKind.responseErr then decodeAs R .err bytes
  else .error R.outOfRange

instance : MessageDecoder RequestBodyOwned := ⟨RequestBodyOwned.decode⟩
instance : MessageDecoder ResponseBodyOwned := ⟨ResponseBodyOwned.decode⟩

/-- Requests are read by the server, responses by a client. -/
inductive Direction where
  | requests
  | responses
  deriving DecidableEq, Repr

abbrev Direction.Message : Direction → Type
  | .requests => RequestBodyOwned
  | .responses => ResponseBodyOwned

instance : (d : Direction) → MessageDecoder d.Message
  | .requests => ⟨RequestBodyOwned.decode⟩
  | .responses => ⟨ResponseBodyOwned.decode⟩

theorem decodeAs_derived {R : Rmps} [Deserialize N] {tys : List FieldTy} {build : Fields tys → N}
    (byFields : ∀ bytes, Deserialize.deserialize R bytes = derived R tys build bytes)
    (variant : N → M) {bytes : List UInt8} {m : M} {count : Nat}
    (h : decodeAs R variant bytes = .ok (m, count)) :
    ∃ v : Fields tys, R.deserialize tys bytes = .ok (v, count) ∧ ∀ bytes',
      R.deserialize tys bytes' = .ok (v, count) → decodeAs R variant bytes' = .ok (m, count) := by
  simp only [decodeAs,byFields,derived] at h ⊢
  cases hd : R.deserialize tys bytes with
  | error e => simp [hd,Except.map] at h
  | ok result =>
    obtain ⟨v,used⟩ := result
    simp only [hd,Except.map,Except.ok.injEq,Prod.mk.injEq] at h
    obtain ⟨rfl,rfl⟩ := h
    exact ⟨v,rfl,fun bytes' again => by simp [again,Except.map]⟩

theorem decode_fields {R : Rmps} (d : Direction) {kind : String} {bytes : List UInt8} {m : d.Message}
    {count : Nat} (h : MessageDecoder.decode R kind bytes = .ok (m, count)) :
    ∃ tys, ∃ v : Fields tys, R.deserialize tys bytes = .ok (v, count) ∧ ∀ bytes',
      R.deserialize tys bytes' = .ok (v, count) → MessageDecoder.decode R kind bytes' = .ok (m, count) := by
  cases d with
  | requests =>
    simp only [MessageDecoder.decode,RequestBodyOwned.decode] at h ⊢
    split_ifs at h ⊢
    all_goals exact ⟨_,decodeAs_derived (fun _ => rfl) _ h⟩
  | responses =>
    simp only [MessageDecoder.decode,ResponseBodyOwned.decode] at h ⊢
    split_ifs at h ⊢
    all_goals exact ⟨_,decodeAs_derived (fun _ => rfl) _ h⟩

/-- Only a successful decode advances the buffer, by what the decoder used. -/
def readFrom (R : Rmps) [MessageDecoder M] (buf : BytesMut) (target : MessageHeaderDecoded) :
    Except Panic (Except R.Error M × BytesMut) :=
  match MessageDecoder.decode R target.header.kind buf.bytes with
  | .ok (m, position) =>
    match buf.advance position with
    | .ok buf => .ok (.ok m, buf)
    | .error panic => .error panic
  | .error e => .ok (.error e, buf)

inductive MessageReadError (ε : Type) where
  | peerDisconnectedGracefully (peerAddr : Option SocketAddr)
  | socketReadError (source : IoError)
  | badMessageFormat (source : ε)
  deriving DecidableEq, Repr

/-- One direction of a connection: what is still to be read, and the reader's context. -/
structure Link where
  socket : Socket
  ctx : BufferContext

inductive ReadOutcome (ε M : Type) where
  | returned (result : Except (MessageReadError ε) M) (link : Link)
  | panicked (panic : Panic)

section Reader

variable (R : Rmps) (grow : Growth) (peerAddr : Option SocketAddr) (M : Type)

/-- One socket read and, while no header is known, the attempt to read one. -/
def fill (link : Link) : Flow Link (ReadOutcome R.Error M) :=
  let curState := link.ctx.getState
  match readBuf grow link.socket link.ctx.buffer with
  | (.error e, socket, buffer) =>
    .ret (.returned (.error (.socketReadError e)) ⟨socket, { link.ctx with buffer := buffer }⟩)
  | (.ok 0, socket, buffer) =>
    .ret (.returned (.error (.peerDisconnectedGracefully peerAddr))
      ⟨socket, { link.ctx with buffer := buffer }⟩)
  | (.ok (_ + 1), socket, buffer) =>
    let ctx := { link.ctx with buffer := buffer }
    match (if curState = .empty ∨ curState = .waitHeader then ctx.tryReadHeader R
        else .ok (.ok (), ctx)) with
    | .error panic => .ret (.panicked panic)
    | .ok (_, ctx) => .next ⟨socket, ctx⟩

theorem fill_next {link link' : Link} (h : fill R grow peerAddr M link = .next link') :
    ∃ chunk, chunk ≠ [] ∧ link.socket = .data chunk :: link'.socket := by
  obtain ⟨socket,ctx⟩ := link
  cases socket with
  | nil => simp [fill,readBuf] at h
  | cons event rest =>
    cases event with
    | failed e => simp [fill,readBuf] at h
    | data chunk =>
      cases chunk with
      | nil => simp [fill,readBuf] at h
      | cons b bs =>
        refine ⟨b :: bs,by simp,?_⟩
        simp only [fill,readBuf,List.length_cons] at h
        split at h
        · contradiction
        · cases h
          rfl

variable [MessageDecoder M]

/-- The part of the loop body entered with a complete body in the buffer. The result of the header
attempt behind the message is dropped. -/
def takeMessage (link : Link) : ReadOutcome R.Error M :=
  match link.ctx.headerWithTarget with
  | none => .panicked .unwrapNone
  | some target =>
    match readFrom R link.ctx.buffer target with
    | .error panic => .panicked panic
    | .ok (.error e, buffer) =>
      .returned (.error (.badMessageFormat e)) { link with ctx := { link.ctx with buffer := buffer } }
    | .ok (.ok m, buffer) =>
      let ctx := { link.ctx with buffer := buffer, headerWithTarget := none }
      match (if 0 < ctx.buffer.len then ctx.tryReadHeader R else .ok (.ok (), ctx)) with
      | .error panic => .panicked panic
      | .ok (_, ctx) => .returned (.ok m) { link with ctx := ctx.regrow grow }

def readNextBody (link : Link) : Flow Link (ReadOutcome R.Error M) :=
  if link.ctx.getState ≠ .done then
    match fill R grow peerAddr M link with
    | .ret outcome => .ret outcome
    | .next link =>
      if link.ctx.getState = .done then .ret (takeMessage R grow M link) else .next link
  else .ret (takeMessage R grow M link)

theorem readNextBody_next {link link' : Link}
    (h : readNextBody R grow peerAddr M link = .next link') :
    link.ctx.getState ≠ .done ∧ fill R grow peerAddr M link = .next link' ∧
      link'.ctx.getState ≠ .done := by
  unfold readNextBody at h
  split at h
  · next waiting =>
    split at h
    · contradiction
    · next filled =>
      split at h
      · contradiction
      · next still =>
        cases h
        exact ⟨waiting,filled,still⟩
  · contradiction

theorem readNextBody_ret {link : Link} {outcome : ReadOutcome R.Error M}
    (h : readNextBody R grow peerAddr M link = .ret outcome) :
    fill R grow peerAddr M link = .ret outcome ∨
    ∃ middle, (middle = link ∨ fill R grow peerAddr M link = .next middle) ∧
      middle.ctx.getState = .done ∧ outcome = takeMessage R grow M middle := by
  unfold readNextBody at h
  split at h
  · split at h
    · next filled =>
      obtain rfl := Flow.ret.inj h
      exact .inl filled
    · next middle filled =>
      split at h
      · next done => exact .inr ⟨middle,.inr filled,done,(Flow.ret.inj h).symm⟩
      · contradiction
  · next done => exact .inr ⟨link,.inl rfl,not_not.mp done,(Flow.ret.inj h).symm⟩

/-- Every further iteration has taken one delivery off the socket. -/
def readNextVariant : Variant (readNextBody R grow peerAddr M) where
  measure link := link.socket.length
  decreases link link' h := by
    obtain ⟨_,filled,_⟩ := readNextBody_next R grow peerAddr M h
    obtain ⟨chunk,_,socket⟩ := fill_next R grow peerAddr M filled
    simp [socket]

def readNext (link : Link) : ReadOutcome R.Error M := run (readNextVariant R grow peerAddr M) link

theorem readNext_ends (link : Link) :
    ∃ head, Visits (readNextBody R grow peerAddr M) link head ∧
      (fill R grow peerAddr M head = .ret (readNext R grow peerAddr M link) ∨
        ∃ middle, (middle = head ∨ fill R grow peerAddr M head = .next middle) ∧ middle.ctx.getState = .done ∧
          readNext R grow peerAddr M link = takeMessage R grow M middle) := by
  obtain ⟨head,path,left⟩ := run_visits (readNextVariant R grow peerAddr M) link
  exact ⟨head,path,readNextBody_ret R grow peerAddr M left⟩

end Reader

end Ndp
