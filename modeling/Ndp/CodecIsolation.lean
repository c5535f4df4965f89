import Ndp.CodecProgress

/-! How far one frame reaches. The declared length decides when a body is decoded; the
decoder then runs over all that is buffered and the frame ends where the decoder
stopped. Frames are kept apart exactly where the two lengths agree. -/
namespace Ndp

open Looping

/-- The connection stands at the start of these bytes, their header taken off or not. -/
def Link.Stands (R : Rmps) (frame : List UInt8) (link : Link) : Prop :=
  match link.ctx.headerWithTarget with
  | none => link.tail = frame
  | some target => ∃ position, headerAt R frame = .ok (target.header, position) ∧
      target.headerLen = UInt32.ofNat position ∧ link.tail = frame.drop (position % 2 ^ 32)

/-- Bytes from the start of the frame the connection stands at to the end of the stream. -/
def Link.ahead (link : Link) : Nat :=
  link.tail.length + match link.ctx.headerWithTarget with
    | none => 0
    | some target => target.headerLen.toNat

def Link.frame (stream : List UInt8) (link : Link) : List UInt8 :=
  stream.drop (stream.length - link.ahead)

theorem stands_ahead {R : Rmps} (consumes : R.Consumes) {frame : List UInt8} {link : Link}
    (stands : link.Stands R frame) : link.ahead = frame.length := by
  unfold Link.Stands at stands
  unfold Link.ahead
  cases known : link.ctx.headerWithTarget with
  | none => simp only [known] at stands; simp [stands]
  | some target =>
    simp only [known] at stands
    obtain ⟨position,found,cut,tail⟩ := stands
    have within := (headerAt_consumes consumes found).2
    have := Nat.mod_le position (2 ^ 32)
    simp only [tail,cut,UInt32.toNat_ofNat',List.length_drop]
    omega

theorem stands_frame {R : Rmps} (consumes : R.Consumes) {stream frame : List UInt8} {link : Link}
    (stands : link.Stands R frame) (part : frame <:+ stream) : link.frame stream = frame := by
  rw [Link.frame,stands_ahead consumes stands]
  exact (List.suffix_iff_eq_drop.mp part).symm

section Calls

variable (R : Rmps) (grow : Growth) (peerAddr : Option SocketAddr)

theorem attempt_stands (stable : R.Stable) {frame : List UInt8} {ctx ctx' : BufferContext}
    {result : Except R.Error Unit} (socket : Socket) (blank : ctx.headerWithTarget = none)
    (stands : Link.Stands R frame ⟨socket, ctx⟩) (consumes : R.Consumes)
    (h : ctx.tryReadHeader R = .ok (result, ctx')) : Link.Stands R frame ⟨socket, ctx'⟩ := by
  rcases tryReadHeader_cases R h with ⟨e,_,rfl⟩ | ⟨header,position,found,known,bytes⟩
  · exact stands
  · simp only [Link.Stands,blank] at stands
    simp only [Link.Stands,known]
    have within := (headerAt_consumes consumes found).2
    have := Nat.mod_le position (2 ^ 32)
    subst stands
    refine ⟨position,headerAt_stable (stable _) _ found,rfl,?_⟩
    simp only [Link.tail,bytes]
    rw [List.drop_append_of_le_length (by omega)]

theorem stands_congr {frame : List UInt8} {link link' : Link} (tail : link'.tail = link.tail)
    (known : link'.ctx.headerWithTarget = link.ctx.headerWithTarget)
    (stands : link.Stands R frame) : link'.Stands R frame := by
  simpa only [Link.Stands,tail,known] using stands

theorem fill_stands (M : Type) (stable : R.Stable) (consumes : R.Consumes) {frame : List UInt8}
    {link : Link} (stands : link.Stands R frame) :
    (∀ link', fill R grow peerAddr M link = .next link' → link'.Stands R frame) ∧
    (∀ result link', fill R grow peerAddr M link = .ret (.returned result link') →
      (∃ e, result = .error e) ∧ link'.Stands R frame) := by
  rcases fill_cases R grow peerAddr M link with ⟨ctx,result,ctx',filled,tail,known,attempt⟩ |
    ⟨e,link',filled,tail,bytes,known⟩ | ⟨ctx,panic,filled,_⟩
  · rw [filled]
    refine ⟨?_,by intro _ _ h; contradiction⟩
    intro link' same
    obtain rfl := Flow.next.inj same
    have moved : Link.Stands R frame ⟨link.socket.tail,ctx⟩ := stands_congr R tail known stands
    rcases attempt with ⟨blank,tried⟩ | ⟨_,rfl⟩
    · exact attempt_stands R stable _ (known.trans blank) moved consumes tried
    · exact moved
  · rw [filled]
    refine ⟨by intro _ h; contradiction,?_⟩
    intro result link'' same
    obtain ⟨rfl,rfl⟩ := ReadOutcome.returned.inj (Flow.ret.inj same)
    exact ⟨⟨e,rfl⟩,stands_congr R tail known stands⟩
  · rw [filled]
    exact ⟨by intro _ h; contradiction,by intro _ _ h; cases h⟩

/-- What a call does in terms of the stream: it stays where it is, or it decodes the bytes
behind the header, all of them in view, and moves to where the decoder stopped. -/
inductive Moves (R : Rmps) (d : Direction) (frame : List UInt8) (link' : Link) :
    Except (MessageReadError R.Error) d.Message → Prop where
  | stays (e : MessageReadError R.Error) : link'.Stands R frame → Moves R d frame link' (.error e)
  | takes (header : MessageHeader) (position count : Nat) (m : d.Message) :
      headerAt R frame = .ok (header, position) →
      header.length.toNat ≤ (frame.drop (position % 2 ^ 32)).length →
      MessageDecoder.decode R header.kind (frame.drop (position % 2 ^ 32)) = .ok (m, count) →
      link'.Stands R (frame.drop (position % 2 ^ 32 + count)) → Moves R d frame link' (.ok m)

theorem decode_stable {R : Rmps} (stable : R.Stable) (d : Direction) {kind : String}
    {bytes : List UInt8} (more : List UInt8) {m : d.Message} {count : Nat}
    (h : MessageDecoder.decode R kind bytes = .ok (m, count)) :
    MessageDecoder.decode R kind (bytes ++ more) = .ok (m, count) := by
  obtain ⟨tys,v,decoded,again⟩ := decode_fields d h
  exact again _ (stable tys bytes more v count decoded)

theorem decode_alone {R : Rmps} (confined : R.Confined) (d : Direction) {kind : String}
    {bytes : List UInt8} {m : d.Message} {count : Nat}
    (h : MessageDecoder.decode R kind bytes = .ok (m, count)) :
    MessageDecoder.decode R kind (bytes.take count) = .ok (m, count) := by
  obtain ⟨tys,v,decoded,again⟩ := decode_fields d h
  have := confined tys bytes [] v count decoded
  rw [List.append_nil] at this
  exact again _ this

theorem takeMessage_moves (stable : R.Stable) (consumes : R.Consumes) (d : Direction)
    {frame : List UInt8} {link link' : Link} {result : Except (MessageReadError R.Error) d.Message}
    (stands : link.Stands R frame) (done : link.ctx.getState = .done)
    (h : takeMessage R grow d.Message link = .returned result link') : Moves R d frame link' result := by
  obtain ⟨target,known,⟨e,_,rfl,rfl⟩ |
    ⟨m,count,ctx,ctx',attempt,rfl,decoded,within,blank,bytes,rest,rfl⟩⟩ := takeMessage_cases R grow _ h
  · exact .stays _ stands
  obtain ⟨target',known',_,enough⟩ := done_header R done
  obtain rfl := Option.some.inj (known.symm.trans known')
  simp only [Link.Stands,known] at stands
  obtain ⟨position,found,_,tail⟩ := stands
  have start : Link.Stands R (frame.drop (position % 2 ^ 32 + count)) ⟨link.socket,ctx⟩ := by
    simp only [Link.Stands,blank]
    rw [← List.drop_drop,← tail]
    simp only [Link.tail,bytes,List.drop_append_of_le_length within]
  have moved : Link.Stands R (frame.drop (position % 2 ^ 32 + count)) ⟨link.socket,ctx'⟩ := by
    rcases rest with ⟨_,rfl⟩ | tried
    · exact start
    · exact attempt_stands R stable _ blank start consumes tried
  refine .takes target.header position count m found ?_ ?_ ?_
  · rw [← tail]
    simp only [Link.tail,List.length_append]
    omega
  · rw [← tail]
    exact decode_stable stable d _ decoded
  · exact stands_congr R (by simp [Link.tail]) (by simp) moved

theorem readNext_moves (stable : R.Stable) (consumes : R.Consumes) (d : Direction)
    {frame : List UInt8} {link link' : Link} {result : Except (MessageReadError R.Error) d.Message}
    (stands : link.Stands R frame) (h : readNext R grow peerAddr d.Message link = .returned result link') :
    Moves R d frame link' result := by
  have all := run_invariant (readNextVariant R grow peerAddr d.Message) (Link.Stands R frame)
    (fun outcome => ∀ result link', outcome = .returned result link' → Moves R d frame link' result)
    (fun s s' stands again => (fill_stands R grow peerAddr _ stable consumes stands).1 s'
      (readNextBody_next R grow peerAddr _ again).2.1)
    (by
      rintro s r stands left result link' rfl
      have filled := fill_stands R grow peerAddr d.Message stable consumes stands
      rcases readNextBody_ret R grow peerAddr _ left with early | ⟨middle,arrived,done,same⟩
      · obtain ⟨⟨e,rfl⟩,still⟩ := filled.2 _ _ early
        exact .stays e still
      · have there : middle.Stands R frame := by
          rcases arrived with rfl | next
          · exact stands
          · exact filled.1 middle next
        exact takeMessage_moves R grow stable consumes d there done same.symm)
    link stands
  exact all result link' h

theorem calls_stand (stable : R.Stable) (consumes : R.Consumes) (d : Direction) {link final : Link}
    {results : List (Except (MessageReadError R.Error) d.Message)} {stream frame : List UInt8}
    (stands : link.Stands R frame) (part : frame <:+ stream)
    (calls : Calls R grow peerAddr d.Message link results final) :
    ∃ rest, rest <:+ stream ∧ final.Stands R rest := by
  induction calls generalizing frame with
  | nil => exact ⟨frame,part,stands⟩
  | cons returned _ ih =>
    cases readNext_moves R grow peerAddr stable consumes d stands returned with
    | stays e still => exact ih still part
    | takes header position count m found enough decoded moved =>
      exact ih moved ((List.drop_suffix _ _).trans part)

theorem stands_fresh (capacity : Nat) (chunks : List (List UInt8)) :
    (Link.fresh capacity chunks).Stands R chunks.flatten := tail_fresh capacity chunks

end Calls

section Frames

variable (R : Rmps) (d : Direction)

/-- The value behind the header takes exactly as many bytes as the header declares, and the
header fewer than the 32 bits its own length is kept in can count. -/
def WellDeclared (frame : List UInt8) : Prop :=
  ∃ header position, ∃ m : d.Message, headerAt R frame = .ok (header, position) ∧ position < 2 ^ 32 ∧
    MessageDecoder.decode R header.kind (frame.drop position) = .ok (m, header.length.toNat)

/-- The message is what the declared bytes decode to when taken alone, and the next frame
starts right behind them. -/
def FrameAlone (frame next : List UInt8) (m : d.Message) : Prop :=
  ∃ header position count, headerAt R frame = .ok (header, position) ∧
    header.length.toNat ≤ (frame.drop position).length ∧
    MessageDecoder.decode R header.kind ((frame.drop position).take header.length.toNat) = .ok (m, count) ∧
    next = frame.drop (position + header.length.toNat)

def ShortHeader (frame : List UInt8) : Prop :=
  ∀ header position, headerAt R frame = .ok (header, position) → position < 2 ^ 32

/-- A reader that trusts the declared lengths: it cuts a frame off and decodes it alone. -/
def declaredFrames : Nat → List UInt8 → List d.Message
  | 0, _ => []
  | n + 1, stream =>
    match headerAt R stream with
    | .error _ => []
    | .ok (header, position) =>
      match (MessageDecoder.decode R header.kind ((stream.drop position).take header.length.toNat) :
          Except R.Error (d.Message × Nat)) with
      | .error _ => []
      | .ok (m, _) => m :: declaredFrames n (stream.drop (position + header.length.toNat))

/-- The first frames, cut by their declared lengths, are all well declared. -/
def AllWellDeclared : Nat → List UInt8 → Prop
  | 0, _ => True
  | n + 1, stream => WellDeclared R d stream ∧ ∀ header position, headerAt R stream = .ok (header, position) →
      AllWellDeclared n (stream.drop (position + header.length.toNat))

def behindFrames : Nat → List UInt8 → List UInt8
  | 0, stream => stream
  | n + 1, stream =>
    match headerAt R stream with
    | .error _ => stream
    | .ok (header, position) => behindFrames n (stream.drop (position + header.length.toNat))

/-- No header, or fewer bytes behind it than it declares. -/
def Unfinished (stream : List UInt8) : Prop :=
  ∀ header body, frameAt R stream = some (header, body) → body.length < header.length.toNat

variable {R : Rmps} {d : Direction}

theorem moves_alone (confined : R.Confined) {frame next : List UInt8} {header : MessageHeader}
    {position count : Nat} {m : d.Message} (found : headerAt R frame = .ok (header, position))
    (enough : header.length.toNat ≤ (frame.drop (position % 2 ^ 32)).length)
    (decoded : MessageDecoder.decode R header.kind (frame.drop (position % 2 ^ 32)) = .ok (m, count))
    (arrived : next = frame.drop (position % 2 ^ 32 + count)) (declared : WellDeclared R d frame) :
    FrameAlone R d frame next m := by
  obtain ⟨header',position',m',found',short,decoded'⟩ := declared
  obtain ⟨rfl,rfl⟩ := Prod.mk.inj (Except.ok.inj (found.symm.trans found'))
  rw [Nat.mod_eq_of_lt short] at enough decoded arrived
  obtain ⟨rfl,rfl⟩ := Prod.mk.inj (Except.ok.inj (decoded.symm.trans decoded'))
  exact ⟨header,position,_,found,enough,decode_alone confined d decoded,arrived⟩

theorem alone_declared (consumes : R.Consumes) {frame next : List UInt8} {header : MessageHeader}
    {position count : Nat} {m : d.Message} (found : headerAt R frame = .ok (header, position))
    (decoded : MessageDecoder.decode R header.kind (frame.drop (position % 2 ^ 32)) = .ok (m, count))
    (arrived : next = frame.drop (position % 2 ^ 32 + count)) (short : ShortHeader R frame)
    (alone : FrameAlone R d frame next m) : WellDeclared R d frame := by
  obtain ⟨header',position',_,found',enough,_,arrived'⟩ := alone
  obtain ⟨rfl,rfl⟩ := Prod.mk.inj (Except.ok.inj (found.symm.trans found'))
  have little := short _ _ found
  rw [Nat.mod_eq_of_lt little] at decoded arrived
  have within := (direction_consumes consumes d _ _ _ _ decoded).2
  have length := congrArg List.length (arrived.symm.trans arrived')
  simp only [List.length_drop] at length enough within
  have same : count = header.length.toNat := by omega
  exact ⟨header,position,m,found,little,same ▸ decoded⟩

theorem wellDeclared_append (stable : R.Stable) (consumes : R.Consumes) {front : List UInt8}
    (more : List UInt8) (declared : WellDeclared R d front) :
    ∃ header position, ∃ m : d.Message, headerAt R front = .ok (header, position) ∧
      headerAt R (front ++ more) = .ok (header, position) ∧ position < 2 ^ 32 ∧
      MessageDecoder.decode R header.kind (front.drop position) = .ok (m, header.length.toNat) ∧
      MessageDecoder.decode R header.kind ((front ++ more).drop position) = .ok (m, header.length.toNat) ∧
      position + header.length.toNat ≤ front.length := by
  obtain ⟨header,position,m,found,short,decoded⟩ := declared
  have inside := (headerAt_consumes consumes found).2
  have within := (direction_consumes consumes d _ _ _ _ decoded).2
  refine ⟨header,position,m,found,headerAt_stable (stable _) more found,short,decoded,?_,?_⟩
  · rw [List.drop_append_of_le_length inside]
    exact decode_stable stable d more decoded
  · simp only [List.length_drop] at within
    omega

theorem allWellDeclared_append (stable : R.Stable) (consumes : R.Consumes) (n : Nat)
    (front more : List UInt8) (declared : AllWellDeclared R d n front) :
    AllWellDeclared R d n (front ++ more) ∧
      declaredFrames R d n (front ++ more) = declaredFrames R d n front := by
  induction n generalizing front with
  | zero => exact ⟨trivial,rfl⟩
  | succ n ih =>
    obtain ⟨first,others⟩ := declared
    obtain ⟨header,position,m,found,found',short,_,decoded',fits⟩ :=
      wellDeclared_append stable consumes more first
    obtain ⟨declared',same⟩ := ih _ (others header position found)
    rw [← List.drop_append_of_le_length fits] at declared' same
    have body : ((front ++ more).drop position).take header.length.toNat =
        (front.drop position).take header.length.toNat := by
      rw [List.drop_append_of_le_length (by omega),List.take_append_of_le_length (by
        simp only [List.length_drop]; omega)]
    refine ⟨⟨⟨header,position,m,found',short,decoded'⟩,?_⟩,?_⟩
    · intro header' position' again
      obtain ⟨rfl,rfl⟩ := Prod.mk.inj (Except.ok.inj (found'.symm.trans again))
      exact declared'
    · simp only [declaredFrames,found,found',body,same]

theorem decode_front (confined : R.Confined) {kind : String} {bytes buffered : List UInt8} {m : d.Message} {count : Nat}
    (decoded : MessageDecoder.decode R kind bytes = .ok (m, count)) (part : buffered <+: bytes)
    (enough : count ≤ buffered.length) : MessageDecoder.decode R kind buffered = .ok (m, count) := by
  obtain ⟨tys,v,whole,again⟩ := decode_fields d decoded
  obtain ⟨more,rfl⟩ := part
  have own : (buffered ++ more).take count ++ buffered.drop count = buffered := by
    rw [List.take_append_of_le_length enough,List.take_append_drop]
  have decoded' := confined tys _ (buffered.drop count) v count whole
  rw [own] at decoded'
  exact again _ decoded'

/-- A connection at the start of some bytes, between calls. -/
structure Link.At (R : Rmps) (stream : List UInt8) (link : Link) : Prop where
  chunked : Chunked link.socket
  settled : Settled R link.ctx
  steady : link.Steady R
  pending : link.pending R = frameAt R stream

theorem readNext_declared (confined : R.Confined) (consumes : R.Consumes) (grow : Growth) (peerAddr : Option SocketAddr)
    {link : Link} {stream : List UInt8} (here : link.At R stream) (small : stream.length < 2 ^ 32)
    {header : MessageHeader} {position : Nat} {m : d.Message} (found : headerAt R stream = .ok (header, position))
    (short : position < 2 ^ 32)
    (decoded : MessageDecoder.decode R header.kind (stream.drop position) = .ok (m, header.length.toNat)) :
    ∃ link', readNext R grow peerAddr d.Message link = .returned (.ok m) link' ∧
      link'.At R (stream.drop (position + header.length.toNat)) := by
  have whole := (direction_consumes consumes d _ _ _ _ decoded).2
  have pending := here.pending
  rw [frameAt_ok found,Nat.mod_eq_of_lt short] at pending
  obtain ⟨middle,target,reached,known,rfl,tail,enough,chunked⟩ := readNext_whole R grow peerAddr d.Message link
    here.chunked here.steady here.settled header _ pending whole (by rw [List.length_drop]; omega)
  have own := decode_front confined decoded (tail ▸ List.prefix_append _ _) enough
  obtain ⟨link',taken,socket,pending',settled,steady⟩ := takeMessage_ok R grow d.Message known own enough
    (steady_of_stable confined.stable consumes _)
  refine ⟨link',reached.trans taken,socket ▸ chunked,settled,steady,?_⟩
  rw [pending',tail,List.drop_drop]

/-- Calls at well declared frames return the messages they hold, one after the other. -/
theorem calls_declared (confined : R.Confined) (consumes : R.Consumes) (grow : Growth) (peerAddr : Option SocketAddr)
    (n : Nat) {link : Link} {stream : List UInt8} (here : link.At R stream) (small : stream.length < 2 ^ 32)
    (declared : AllWellDeclared R d n stream) :
    ∃ final, Calls R grow peerAddr d.Message link ((declaredFrames R d n stream).map .ok) final ∧
      (declaredFrames R d n stream).length = n ∧ final.At R (behindFrames R n stream) := by
  induction n generalizing link stream with
  | zero => exact ⟨link,.nil,rfl,here⟩
  | succ n ih =>
    obtain ⟨⟨header,position,m,found,short,decoded⟩,others⟩ := declared
    obtain ⟨link',returned,there⟩ := readNext_declared confined consumes grow peerAddr here small found short decoded
    obtain ⟨final,calls,count,behind⟩ := ih there (by rw [List.length_drop]; omega) (others header position found)
    have alone := decode_alone confined d decoded
    simp only [declaredFrames,behindFrames,found,alone]
    exact ⟨final,.cons returned calls,by rw [List.length_cons,count],behind⟩

theorem readNext_unfinished (grow : Growth) (peerAddr : Option SocketAddr) {link : Link} {stream : List UInt8}
    (here : link.At R stream) (unfinished : Unfinished R stream) :
    ∃ link', readNext R grow peerAddr d.Message link = .returned (.error (.peerDisconnectedGracefully peerAddr)) link' := by
  obtain ⟨link',closed,_⟩ := readNext_short R grow peerAddr d.Message link here.chunked here.steady here.settled (by
    rw [here.pending]
    exact unfinished)
  exact ⟨link',closed⟩

end Frames

/-- Frames are isolated where every header declares the size of the body behind it. For a
call that returns a message this is exact, up to headers of 4 GiB. Over a stream of fewer than
`2 ^ 32` bytes, the results of the calls at well declared frames are a function of those frames'
bytes alone, and neither the bytes that follow nor the deliveries matter; behind the last whole
frame the stream is at its end. -/
theorem frame_isolation (R : Rmps) (confined : R.Confined) (consumes : R.Consumes) (grow : Growth)
    (peerAddr : Option SocketAddr) (d : Direction) (capacity : Nat) (chunks : List (List UInt8)) :
    (∀ results link link' m, Calls R grow peerAddr d.Message (.fresh capacity chunks) results link →
      readNext R grow peerAddr d.Message link = .returned (.ok m) link' →
      (WellDeclared R d (link.frame chunks.flatten) →
        FrameAlone R d (link.frame chunks.flatten) (link'.frame chunks.flatten) m) ∧
      (ShortHeader R (link.frame chunks.flatten) →
        FrameAlone R d (link.frame chunks.flatten) (link'.frame chunks.flatten) m →
        WellDeclared R d (link.frame chunks.flatten))) ∧
    ((∀ chunk ∈ chunks, chunk ≠ []) → chunks.flatten.length < 2 ^ 32 →
      ∀ n front more, chunks.flatten = front ++ more → AllWellDeclared R d n front →
        (declaredFrames R d n front).length = n ∧
        ∃ final, Calls R grow peerAddr d.Message (.fresh capacity chunks) ((declaredFrames R d n front).map .ok) final ∧
          (Unfinished R (behindFrames R n chunks.flatten) → ∃ link', readNext R grow peerAddr d.Message final =
            .returned (.error (.peerDisconnectedGracefully peerAddr)) link')) := by
  constructor
  · intro results link link' m calls returned
    obtain ⟨frame,part,stands⟩ := calls_stand R grow peerAddr confined.stable consumes d
      (stands_fresh R capacity chunks) (List.suffix_refl _) calls
    rw [stands_frame consumes stands part]
    cases readNext_moves R grow peerAddr confined.stable consumes d stands returned with
    | takes header position count _ found enough decoded moved =>
      have arrived := stands_frame consumes moved ((List.drop_suffix _ _).trans part)
      exact ⟨moves_alone confined found enough decoded arrived,
        alone_declared consumes found decoded arrived⟩
  · intro nonempty small n front more stream declared
    obtain ⟨declared',same⟩ := allWellDeclared_append confined.stable consumes n front more declared
    have here : (Link.fresh capacity chunks).At R chunks.flatten :=
      ⟨chunked_map chunks nonempty,settled_fresh capacity chunks consumes.rejectsEmpty,
        fun _ => steady_of_stable confined.stable consumes _,by rw [pending_blank rfl,tail_fresh]⟩
    obtain ⟨final,calls,count,behind⟩ := calls_declared confined consumes grow peerAddr n here small (stream ▸ declared')
    rw [← same,← stream]
    exact ⟨count,final,calls,readNext_unfinished grow peerAddr behind⟩

theorem frame_isolation_alloc :
    ∃ link', readNext MessagePackRmps.rmps .exact none RequestBodyOwned
        (.fresh 16 [[0x92, 0xa5, 65, 76, 76], [79, 67, 2, 0x91, 5, 0x92]]) =
        .returned (.ok (.alloc ⟨5⟩)) link' ∧
      FrameAlone MessagePackRmps.rmps .requests [0x92, 0xa5, 65, 76, 76, 79, 67, 2, 0x91, 5, 0x92] [0x92]
        (.alloc ⟨5⟩) ∧
      ∃ final, Calls MessagePackRmps.rmps .exact none RequestBodyOwned
        (.fresh 16 [[0x92, 0xa5, 65, 76, 76], [79, 67, 2, 0x91, 5, 0x92]]) [.ok (.alloc ⟨5⟩)] final := by
  obtain ⟨link',returned,behind⟩ : ∃ link', readNext MessagePackRmps.rmps .exact none RequestBodyOwned
      (.fresh 16 [[0x92, 0xa5, 65, 76, 76], [79, 67, 2, 0x91, 5, 0x92]]) =
        .returned (.ok (.alloc ⟨5⟩)) link' ∧
      link'.frame [0x92, 0xa5, 65, 76, 76, 79, 67, 2, 0x91, 5, 0x92] = [0x92] := ⟨_,rfl,rfl⟩
  have isolation := frame_isolation MessagePackRmps.rmps MessagePackRmps.confined
    MessagePackRmps.consumes .exact none .requests 16 [[0x92, 0xa5, 65, 76, 76], [79, 67, 2, 0x91, 5, 0x92]]
  refine ⟨link',returned,?_,?_⟩
  · have alone : FrameAlone MessagePackRmps.rmps .requests
        [0x92, 0xa5, 65, 76, 76, 79, 67, 2, 0x91, 5, 0x92]
        (link'.frame [0x92, 0xa5, 65, 76, 76, 79, 67, 2, 0x91, 5, 0x92]) (.alloc ⟨5⟩) :=
      (isolation.1 [] _ link' _ .nil returned).1 ⟨⟨"ALLOC",2⟩,8,.alloc ⟨5⟩,rfl,by decide,rfl⟩
    rwa [behind] at alone
  · obtain ⟨_,final,calls,_⟩ := isolation.2 (by simp) (by decide) 1 [0x92, 0xa5, 65, 76, 76, 79, 67, 2, 0x91, 5] [0x92] rfl
      ⟨⟨⟨"ALLOC",2⟩,8,.alloc ⟨5⟩,rfl,by decide,rfl⟩,fun _ _ _ => trivial⟩
    exact ⟨final,calls⟩

/-- A header that declares no body bytes: with the body delivered alongside, it is decoded
from bytes outside the frame; delivered apart, the same stream is refused. -/
theorem frame_not_isolated :
    (∃ link', readNext MessagePackRmps.rmps .exact none RequestBodyOwned
        (.fresh 16 [[0x92, 0xa5, 65, 76, 76, 79, 67, 0, 0x91, 5]]) = .returned (.ok (.alloc ⟨5⟩)) link' ∧
      ¬FrameAlone MessagePackRmps.rmps .requests [0x92, 0xa5, 65, 76, 76, 79, 67, 0, 0x91, 5]
        (link'.frame [0x92, 0xa5, 65, 76, 76, 79, 67, 0, 0x91, 5]) (.alloc ⟨5⟩)) ∧
    (∃ e link', readNext MessagePackRmps.rmps .exact none RequestBodyOwned
        (.fresh 16 [[0x92, 0xa5, 65, 76, 76, 79, 67, 0], [0x91, 5]]) =
        .returned (.error (.badMessageFormat e)) link') := by
  refine ⟨⟨_,rfl,?_⟩,⟨_,_,rfl⟩⟩
  rintro ⟨header,position,count,found,_,decoded,_⟩
  obtain ⟨rfl,rfl⟩ : (⟨"ALLOC",0⟩ : MessageHeader) = header ∧ 8 = position :=
    Prod.mk.inj (Except.ok.inj found)
  cases decoded

end Ndp
