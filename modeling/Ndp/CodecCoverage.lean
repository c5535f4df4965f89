import Ndp.Codec

/-! Encoder against decoder, variant by variant. The kind tags, the kinds of the enums,
the encoded variants and the two decoding tables are written by hand in the source;
here they are compared over all values. -/
namespace Ndp

variable {R : Rmps}

theorem decodeAs_serialize [Serialize S] [Deserialize N] (variant : N → M) (x : S) (y : N)
    (rest : List UInt8) (mirrored : Deserialize.deserialize R (Serialize.serialize R x ++ rest) =
      .ok (y, (Serialize.serialize R x).length)) :
    decodeAs R variant (Serialize.serialize R x ++ rest) =
      .ok (variant y, (Serialize.serialize R x).length) := by
  simp [decodeAs,mirrored,Except.map]

theorem RequestBody.decode_serialize (roundTrips : R.RoundTrips) (q : RequestBody)
    (sendable : q.isInvoke = false) (rest : List UInt8)
    (short : (Serialize.serialize R q).length < 2 ^ 32) :
    RequestBodyOwned.decode R (MessageKindTagged.kind q) (Serialize.serialize R q ++ rest) =
      .ok (q.toOwned, (Serialize.serialize R q).length) := by
  cases q with
  | alloc x =>
    exact decodeAs_serialize RequestBodyOwned.alloc x x rest
      (derived_serialize roundTrips AllocRequest.fields _ (x.size, ()) rest short)
  | write x =>
    exact decodeAs_serialize RequestBodyOwned.write x x.toOwned rest
      (derived_serialize roundTrips WriteRequestOwned.fields _ (x.handle, x.offset, x.buf, ()) rest short)
  | read x =>
    exact decodeAs_serialize RequestBodyOwned.read x x rest
      (derived_serialize roundTrips ReadRequest.fields _ (x.handle, x.offset, x.len, ()) rest short)
  | invoke x => simp [RequestBody.isInvoke] at sendable

theorem ResponseBody.decode_serialize (roundTrips : R.RoundTrips) (r : ResponseBody)
    (rest : List UInt8) (short : (Serialize.serialize R r).length < 2 ^ 32) :
    ResponseBodyOwned.decode R (MessageKindTagged.kind r) (Serialize.serialize R r ++ rest) =
      .ok (r.toOwned, (Serialize.serialize R r).length) := by
  cases r with
  | okWithHandle x =>
    exact decodeAs_serialize ResponseBodyOwned.okWithHandle x x rest
      (derived_serialize roundTrips OkWithHandleResponse.fields _ (x.handle, ()) rest short)
  | okWithBuffer x =>
    exact decodeAs_serialize ResponseBodyOwned.okWithBuffer x x.toOwned rest
      (derived_serialize roundTrips OkWithBufferResponseOwned.fields _
        (x.handle, x.offset, x.buf, ()) rest short)
  | err x =>
    have back := derived_serialize roundTrips ErrResponse.fields
      (fun v => (⟨.ofIndex v.1, v.2.1⟩ : ErrResponse))
      (x.error.index, x.message, ()) rest short
    simp only [ErrorStatus.ofIndex_index] at back
    exact decodeAs_serialize ResponseBodyOwned.err x x rest back

theorem RequestBodyOwned.decode_invoke (bytes : List UInt8) :
    RequestBodyOwned.decode R MessageKind.requestInvoke bytes = .error R.outOfRange := rfl

/-- What the sender emits for a message is accepted by the receiver as that message:
header and body go through `readFrom`, the result has equal fields and the header's
kind, and whatever was buffered behind the body is left. -/
def Covered (R : Rmps) [MessageKindTagged S] [Serialize S] [MessageDecoder M] [MessageKindTagged M]
    (toOwned : S → M) (m : S) : Prop :=
  ∀ (buf : BytesMut) (rest : List UInt8) (headerLen : UInt32),
    buf.bytes = Serialize.serialize R m ++ rest →
    ∃ buf', readFrom R buf ⟨messageHeader R m, headerLen⟩ = .ok (.ok (toOwned m), buf') ∧
      buf'.bytes = rest ∧ MessageKindTagged.kind (toOwned m) = (messageHeader R m).kind

theorem covered_of_decode [MessageKindTagged S] [Serialize S] [MessageDecoder M] [MessageKindTagged M]
    (toOwned : S → M) (m : S)
    (kind : MessageKindTagged.kind (toOwned m) = MessageKindTagged.kind m)
    (decodes : ∀ rest, MessageDecoder.decode R (MessageKindTagged.kind m)
      (Serialize.serialize R m ++ rest) = .ok (toOwned m, (Serialize.serialize R m).length)) :
    Covered R toOwned m := by
  intro buf rest headerLen holds
  obtain ⟨buf',advanced,bytes⟩ := @BytesMut.advance_ok buf (Serialize.serialize R m).length
    (by simp [holds])
  refine ⟨buf',?_,by simp [bytes,holds],kind⟩
  simp only [readFrom,messageHeader,holds,decodes,advanced]

/-- Requests are covered exactly when they are not calls; all responses are. -/
theorem protocol_covered_iff (R : Rmps) (roundTrips : R.RoundTrips) :
    (∀ q : RequestBody, (Serialize.serialize R q).length < 2 ^ 32 →
      (Covered R RequestBody.toOwned q ↔ q.isInvoke = false)) ∧
    (∀ r : ResponseBody, (Serialize.serialize R r).length < 2 ^ 32 →
      Covered R ResponseBody.toOwned r) := by
  refine ⟨?_,?_⟩
  · intro q short
    constructor
    · intro covered
      cases q with
      | invoke x =>
        obtain ⟨buf',read,_⟩ := covered ⟨Serialize.serialize R (RequestBody.invoke x),_,Nat.le_refl _⟩ [] 0
          (by simp)
        have refused : (MessageDecoder.decode R (messageHeader R (RequestBody.invoke x)).kind
          (Serialize.serialize R (RequestBody.invoke x)) : Except R.Error (RequestBodyOwned × Nat)) =
            .error R.outOfRange := RequestBodyOwned.decode_invoke _
        simp [readFrom,refused] at read
      | alloc x => rfl
      | write x => rfl
      | read x => rfl
    · intro sendable
      exact covered_of_decode _ q q.kind_toOwned
        (fun rest => RequestBody.decode_serialize roundTrips q sendable rest short)
  · intro r short
    exact covered_of_decode _ r r.kind_toOwned
      (fun rest => ResponseBody.decode_serialize roundTrips r rest short)

theorem protocol_covered_write :
    MessagePackRmps.rmps.RoundTrips ∧
      Covered MessagePackRmps.rmps RequestBody.toOwned (.write ⟨3, 4, [1, 2]⟩) := by
  refine ⟨MessagePackRmps.roundTrips,?_⟩
  exact ((protocol_covered_iff _ MessagePackRmps.roundTrips).1 (.write ⟨3,4,[1,2]⟩) (by decide)).mpr rfl

/-- A call does not get through, although the loop of the server has an arm for it. -/
theorem invoke_not_covered :
    ¬∀ q : RequestBody, (Serialize.serialize MessagePackRmps.rmps q).length < 2 ^ 32 →
      Covered MessagePackRmps.rmps RequestBody.toOwned q := by
  intro all
  obtain ⟨buf',read,_⟩ := all (.invoke ⟨0⟩) (by decide)
    ⟨Serialize.serialize MessagePackRmps.rmps (RequestBody.invoke ⟨0⟩),_,Nat.le_refl _⟩ [] 0 (by simp)
  have refused : (MessageDecoder.decode MessagePackRmps.rmps
      (messageHeader MessagePackRmps.rmps (RequestBody.invoke ⟨0⟩)).kind
      (Serialize.serialize MessagePackRmps.rmps (RequestBody.invoke ⟨0⟩)) :
      Except _ (RequestBodyOwned × Nat)) = .error .outOfRange := rfl
  simp [readFrom,refused] at read

end Ndp
