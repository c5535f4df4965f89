import Ndp.CodecCoverage
import Ndp.CodecReading

/-! A stream of frames, cut anywhere and delivered in any chunks, is read back as the
messages whose frames are whole. The argument is by induction on the messages; the
connection stands at the frame of the first of them, whatever it has buffered. -/
namespace Ndp

/-- What a message type has to offer to be sent one way and read the other. -/
structure Accepted (R : Rmps) [MessageKindTagged S] [Serialize S] [MessageDecoder M]
    (toOwned : S → M) (m : S) : Prop where
  short : (writeTo R m).length < 2 ^ 32
  decodes : ∀ rest, MessageDecoder.decode R (MessageKindTagged.kind m)
    (Serialize.serialize R m ++ rest) = .ok (toOwned m, (Serialize.serialize R m).length)

section Stream

variable {R : Rmps} [MessageKindTagged S] [Serialize S]

def streamOf (R : Rmps) (messages : List S) : List UInt8 := messages.flatMap (writeTo R)

def headerBytes (R : Rmps) (m : S) : List UInt8 := Serialize.serialize R (messageHeader R m)

theorem headerAt_header (roundTrips : R.RoundTrips) (m : S) (rest : List UInt8)
    (short : (headerBytes R m).length < 2 ^ 32) :
    headerAt R (headerBytes R m ++ rest) = .ok (messageHeader R m, (headerBytes R m).length) :=
  headerAt_serialize roundTrips (messageHeader R m) rest short

theorem headerAt_cut (rejects : R.RejectsPrefixes) (m : S) (count : Nat)
    (short : (headerBytes R m).length < 2 ^ 32) (cut : count < (headerBytes R m).length) :
    ∃ e, headerAt R ((headerBytes R m).take count) = .error e := by
  obtain ⟨e,refused⟩ := rejects MessageHeader.fields
    ((messageHeader R m).kind, (messageHeader R m).length, ()) count short cut
  refine ⟨e,?_⟩
  simp only [headerAt_eq,derived,headerBytes,Serialize.serialize,refused,Except.map]

theorem headerBytes_pos (roundTrips : R.RoundTrips) (rejectsEmpty : R.RejectsEmpty) (m : S)
    (short : (headerBytes R m).length < 2 ^ 32) : 0 < (headerBytes R m).length := by
  by_contra empty
  have nothing : headerBytes R m = [] := by simpa using empty
  have accepted := headerAt_header roundTrips m [] short
  obtain ⟨e,refused⟩ := headerAt_nil rejectsEmpty
  rw [nothing,List.nil_append,refused] at accepted
  contradiction

theorem prefix_header (m : S) (rest bytes : List UInt8) (inside : bytes <+: headerBytes R m ++ rest) :
    (bytes.length < (headerBytes R m).length ∧ bytes = (headerBytes R m).take bytes.length) ∨
    ∃ more, bytes = headerBytes R m ++ more := by
  rcases Nat.lt_or_ge bytes.length (headerBytes R m).length with short | long
  · refine .inl ⟨short,?_⟩
    have := List.prefix_iff_eq_take.mp inside
    rwa [List.take_append_of_le_length (by omega)] at this
  · obtain ⟨more,rfl⟩ := List.prefix_of_prefix_length_le (List.prefix_append _ _) inside long
    exact .inr ⟨more,rfl⟩

theorem steady_stream (roundTrips : R.RoundTrips) (rejects : R.RejectsPrefixes)
    (rejectsEmpty : R.RejectsEmpty) (messages : List S)
    (short : ∀ m ∈ messages, (writeTo R m).length < 2 ^ 32) (count : Nat) :
    Steady R ((streamOf R messages).take count) := by
  intro bytes inside header position decoded
  cases messages with
  | nil =>
    have nothing : bytes = [] := by simpa [streamOf] using inside
    obtain ⟨e,refused⟩ := headerAt_nil rejectsEmpty
    simp [nothing,refused] at decoded
  | cons m rest =>
    have shortHeader : (headerBytes R m).length < 2 ^ 32 := by
      have := short m (by simp)
      simp only [writeTo,List.length_append] at this
      simp only [headerBytes]
      omega
    have stream : streamOf R (m :: rest) =
        headerBytes R m ++ (Serialize.serialize R m ++ streamOf R rest) := by
      simp [streamOf,writeTo,headerBytes]
    have whole : bytes <+: headerBytes R m ++ (Serialize.serialize R m ++ streamOf R rest) :=
      stream ▸ inside.trans (List.take_prefix _ _)
    rcases prefix_header m _ bytes whole with ⟨cut,same⟩ | ⟨more,rfl⟩
    · obtain ⟨e,refused⟩ := headerAt_cut rejects m bytes.length shortHeader cut
      rw [← same] at refused
      simp [refused] at decoded
    · rw [headerAt_header roundTrips m more shortHeader] at decoded
      obtain ⟨rfl,rfl⟩ := Prod.mk.inj (Except.ok.inj decoded)
      refine ⟨headerBytes_pos roundTrips rejectsEmpty m shortHeader,by simp,?_⟩
      have long : (headerBytes R m).length ≤ count := by
        have := inside.length_le
        simp only [List.length_append,List.length_take] at this
        omega
      rw [stream,List.take_append,List.take_of_length_le long]
      exact headerAt_header roundTrips m _ shortHeader

/-- How many of the messages have their whole frame inside the first `count` bytes. -/
structure WholeFrames (R : Rmps) (messages : List S) (count n : Nat) : Prop where
  exist : n ≤ messages.length
  inside : (streamOf R (messages.take n)).length ≤ count
  maximal : n < messages.length → count < (streamOf R (messages.take (n + 1))).length

end Stream

section Reading

variable (R : Rmps) (grow : Growth) (peerAddr : Option SocketAddr)
  [MessageKindTagged S] [Serialize S] [MessageDecoder M] (toOwned : S → M)

theorem readNext_frame (roundTrips : R.RoundTrips) (m : S) (accepted : Accepted R toOwned m)
    (more : List UInt8) (steadyMore : Steady R more) (link : Link) (chunked : Chunked link.socket)
    (steady : link.Steady R) (settled : Settled R link.ctx)
    (pending : link.pending R = frameAt R (writeTo R m ++ more))
    (small : (writeTo R m ++ more).length < 2 ^ 32) :
    ∃ link', readNext R grow peerAddr M link = .returned (.ok (toOwned m)) link' ∧
      Chunked link'.socket ∧ link'.Steady R ∧ Settled R link'.ctx ∧
      link'.pending R = frameAt R more := by
  have frame : writeTo R m ++ more = headerBytes R m ++ (Serialize.serialize R m ++ more) := by
    simp [writeTo,headerBytes]
  rw [frame] at small pending
  simp only [List.length_append] at small
  have headerFound := headerAt_header roundTrips m (Serialize.serialize R m ++ more) (by omega)
  have declared : (messageHeader R m).length.toNat = (Serialize.serialize R m).length := by
    simp only [messageHeader,UInt32.toNat_ofNat']
    exact Nat.mod_eq_of_lt (by omega)
  rw [frameAt_ok headerFound,Nat.mod_eq_of_lt (by omega),List.drop_left] at pending
  obtain ⟨link',target,reached,known,header,tail,le,chunked'⟩ := readNext_whole R grow peerAddr M link
    chunked steady settled _ _ pending (by simp [declared]) (by simp only [List.length_append]; omega)
  obtain ⟨extra,buffered⟩ : ∃ extra, link'.ctx.buffer.bytes = Serialize.serialize R m ++ extra := by
    have inside : link'.ctx.buffer.bytes <+: Serialize.serialize R m ++ more :=
      ⟨unread link'.socket,tail⟩
    obtain ⟨extra,same⟩ := List.prefix_of_prefix_length_le (List.prefix_append _ _) inside
      (declared ▸ le)
    exact ⟨extra,same.symm⟩
  have decoded : MessageDecoder.decode R target.header.kind link'.ctx.buffer.bytes =
      .ok (toOwned m, (Serialize.serialize R m).length) := by
    rw [header,buffered]
    exact accepted.decodes extra
  obtain ⟨link'',taken,socket,pending'',settled'',steady''⟩ := takeMessage_ok R grow M known decoded
    (by simp [buffered]) (by rwa [tail,List.drop_left])
  refine ⟨link'',reached.trans taken,socket ▸ chunked',steady'',settled'',?_⟩
  rw [pending'',tail,List.drop_left]

theorem cut_frame_short (roundTrips : R.RoundTrips) (rejects : R.RejectsPrefixes) (m : S)
    (short : (writeTo R m).length < 2 ^ 32) (more : List UInt8) (count : Nat)
    (cut : count < (writeTo R m).length) (header : MessageHeader) (body : List UInt8)
    (found : frameAt R ((writeTo R m ++ more).take count) = some (header, body)) :
    body.length < header.length.toNat := by
  have frame : writeTo R m ++ more = headerBytes R m ++ (Serialize.serialize R m ++ more) := by
    simp [writeTo,headerBytes]
  have lengths : (writeTo R m).length = (headerBytes R m).length + (Serialize.serialize R m).length := by
    simp [writeTo,headerBytes]
  rw [frame] at found
  rcases Nat.lt_or_ge count (headerBytes R m).length with inHeader | inBody
  · obtain ⟨e,refused⟩ := headerAt_cut rejects m count (by omega) inHeader
    rw [List.take_append_of_le_length (Nat.le_of_lt inHeader),frameAt_error refused] at found
    contradiction
  · rw [List.take_append,List.take_of_length_le inBody,
      frameAt_ok (headerAt_header roundTrips m _ (by omega)),Nat.mod_eq_of_lt (by omega),
      List.drop_left] at found
    obtain ⟨rfl,rfl⟩ := Prod.mk.inj (Option.some.inj found)
    simp only [messageHeader,UInt32.toNat_ofNat',List.length_take]
    rw [Nat.mod_eq_of_lt (by omega)]
    omega

theorem calls_stream (roundTrips : R.RoundTrips) (rejects : R.RejectsPrefixes)
    (rejectsEmpty : R.RejectsEmpty) (messages : List S)
    (accepted : ∀ m ∈ messages, Accepted R toOwned m)
    (small : (streamOf R messages).length < 2 ^ 32) (count : Nat) (link : Link)
    (chunked : Chunked link.socket) (steady : link.Steady R) (settled : Settled R link.ctx)
    (pending : link.pending R = frameAt R ((streamOf R messages).take count)) :
    ∃ n final, WholeFrames R messages count n ∧ Calls R grow peerAddr M link
      ((messages.take n).map (fun m => .ok (toOwned m)) ++
        [.error (.peerDisconnectedGracefully peerAddr)]) final := by
  induction messages generalizing count link with
  | nil =>
    obtain ⟨e,refused⟩ := headerAt_nil rejectsEmpty
    rw [streamOf,List.flatMap_nil,List.take_nil,frameAt_error refused] at pending
    obtain ⟨final,closed,_⟩ := readNext_short R grow peerAddr M link chunked steady settled
      (by simp [pending])
    exact ⟨0,final,⟨by simp,by simp [streamOf],by simp⟩,.cons closed .nil⟩
  | cons m messages ih =>
    have stream : streamOf R (m :: messages) = writeTo R m ++ streamOf R messages := by simp [streamOf]
    rw [stream] at pending
    rw [stream,List.length_append] at small
    rcases Nat.lt_or_ge count (writeTo R m).length with cut | whole
    · obtain ⟨final,closed,_⟩ := readNext_short R grow peerAddr M link chunked steady settled
        (fun header body found => cut_frame_short R roundTrips rejects m
          (accepted m (by simp)).short _ count cut header body (pending ▸ found))
      exact ⟨0,final,⟨by simp,by simp [streamOf],by simpa [streamOf] using cut⟩,.cons closed .nil⟩
    · rw [List.take_append,List.take_of_length_le whole] at pending
      obtain ⟨link',returned,chunked',steady',settled',pending'⟩ := readNext_frame R grow peerAddr
        toOwned roundTrips m (accepted m (by simp)) _
        (steady_stream roundTrips rejects rejectsEmpty messages
          (fun x member => (accepted x (by simp [member])).short) _)
        link chunked steady settled pending
        (by simp only [List.length_append,List.length_take]; omega)
      obtain ⟨n,final,frames,calls⟩ := ih (fun x member => accepted x (by simp [member])) (by omega)
        (count - (writeTo R m).length) link' chunked' steady' settled' pending'
      refine ⟨n + 1,final,⟨?_,?_,?_⟩,.cons returned calls⟩
      · simpa using frames.exist
      · have := frames.inside
        simp only [List.take_succ_cons,streamOf,List.flatMap_cons,List.length_append] at this ⊢
        omega
      · intro more
        have := frames.maximal (by simpa using more)
        simp only [List.take_succ_cons,streamOf,List.flatMap_cons,List.length_append] at this ⊢
        omega

theorem calls_fresh (roundTrips : R.RoundTrips) (rejects : R.RejectsPrefixes)
    (rejectsEmpty : R.RejectsEmpty) (capacity : Nat) (messages : List S)
    (accepted : ∀ m ∈ messages, Accepted R toOwned m)
    (small : (streamOf R messages).length < 2 ^ 32) (count : Nat) (chunks : List (List UInt8))
    (nonempty : ∀ chunk ∈ chunks, chunk ≠ []) (cut : chunks.flatten = (streamOf R messages).take count) :
    ∃ n final, WholeFrames R messages count n ∧ Calls R grow peerAddr M (.fresh capacity chunks)
      ((messages.take n).map (fun m => .ok (toOwned m)) ++
        [.error (.peerDisconnectedGracefully peerAddr)]) final := by
  apply calls_stream R grow peerAddr toOwned roundTrips rejects rejectsEmpty messages accepted small count
  · exact chunked_map chunks nonempty
  · intro _
    rw [tail_fresh,cut]
    exact steady_stream roundTrips rejects rejectsEmpty messages
      (fun m member => (accepted m member).short) count
  · exact settled_fresh capacity chunks rejectsEmpty
  · rw [pending_blank rfl,tail_fresh,cut]

end Reading

theorem frame_length_le [MessageKindTagged S] [Serialize S] (R : Rmps) (messages : List S) (m : S)
    (member : m ∈ messages) : (writeTo R m).length ≤ (streamOf R messages).length := by
  induction messages with
  | nil => contradiction
  | cons first rest ih =>
    simp only [streamOf,List.flatMap_cons,List.length_append] at ih ⊢
    rcases List.mem_cons.mp member with rfl | later
    · omega
    · have := ih later
      omega

/-- Every cut of a stream of requests other than calls, or of responses, delivered in any
non-empty chunks to a fresh context, is read as exactly the messages whose frames are
whole, in order and with their fields, and then as the end of the stream. -/
theorem stream_reassembly (R : Rmps) (grow : Growth) (peerAddr : Option SocketAddr)
    (roundTrips : R.RoundTrips) (rejects : R.RejectsPrefixes) (rejectsEmpty : R.RejectsEmpty)
    (capacity count : Nat) (chunks : List (List UInt8)) (nonempty : ∀ chunk ∈ chunks, chunk ≠ []) :
    (∀ messages : List RequestBody, (∀ q ∈ messages, q.isInvoke = false) →
      (streamOf R messages).length < 2 ^ 32 → chunks.flatten = (streamOf R messages).take count →
      ∃ n final, WholeFrames R messages count n ∧
        Calls R grow peerAddr RequestBodyOwned (.fresh capacity chunks)
          ((messages.take n).map (fun q => .ok q.toOwned) ++
            [.error (.peerDisconnectedGracefully peerAddr)]) final) ∧
    (∀ messages : List ResponseBody,
      (streamOf R messages).length < 2 ^ 32 → chunks.flatten = (streamOf R messages).take count →
      ∃ n final, WholeFrames R messages count n ∧
        Calls R grow peerAddr ResponseBodyOwned (.fresh capacity chunks)
          ((messages.take n).map (fun r => .ok r.toOwned) ++
            [.error (.peerDisconnectedGracefully peerAddr)]) final) := by
  have shortBody {S : Type} [MessageKindTagged S] [Serialize S] (messages : List S) (m : S)
      (member : m ∈ messages) (small : (streamOf R messages).length < 2 ^ 32) :
      (writeTo R m).length < 2 ^ 32 ∧ (Serialize.serialize R m).length < 2 ^ 32 := by
    have le := frame_length_le R messages m member
    simp only [writeTo,List.length_append] at le ⊢
    omega
  refine ⟨?_,?_⟩
  · intro messages sendable small cut
    refine calls_fresh R grow peerAddr RequestBody.toOwned roundTrips rejects rejectsEmpty capacity
      messages (fun q member => ⟨(shortBody messages q member small).1,?_⟩) small count chunks nonempty cut
    exact fun rest => q.decode_serialize roundTrips (sendable q member) rest
      (shortBody messages q member small).2
  · intro messages small cut
    refine calls_fresh R grow peerAddr ResponseBody.toOwned roundTrips rejects rejectsEmpty capacity
      messages (fun r member => ⟨(shortBody messages r member small).1,?_⟩) small count chunks nonempty cut
    exact fun rest => r.decode_serialize roundTrips rest (shortBody messages r member small).2

/-- An allocation and a read, cut inside the body of the read and inside a header. -/
theorem stream_reassembly_cut :
    ∃ n final, WholeFrames MessagePackRmps.rmps [RequestBody.alloc ⟨5⟩, .read ⟨1, 2, 3⟩] 19 n ∧
      Calls MessagePackRmps.rmps .exact none RequestBodyOwned
        (.fresh 16 [[0x92, 0xa5, 65], [76, 76, 79, 67, 2, 0x91, 5, 0x92], [0xa4, 82, 69, 65, 68, 4], [0x93, 1]])
        (([RequestBody.alloc ⟨5⟩, .read ⟨1, 2, 3⟩].take n).map (fun q => .ok q.toOwned) ++
          [.error (.peerDisconnectedGracefully none)]) final :=
  (stream_reassembly MessagePackRmps.rmps .exact none MessagePackRmps.roundTrips
    MessagePackRmps.rejectsPrefixes MessagePackRmps.rejectsEmpty 16 19 _ (by decide)).1 _
    (by decide) (by decide) (by decide)

end Ndp
