import Ndp.Codec

/-! What one call of `readNext` does to a connection, told in terms of the byte stream.
The frame a connection stands at is a function of the bytes not yet consumed, wherever
the deliveries were cut; reading moves bytes and headers about without changing it. -/
namespace Ndp

open Looping

/-- Bytes the socket has still to deliver. -/
def unread : Socket → List UInt8
  | [] => []
  | .data chunk :: rest => chunk ++ unread rest
  | .failed _ :: rest => unread rest

/-- Deliveries only, none of them empty; behind them the peer closes. -/
def Chunked (socket : Socket) : Prop := ∀ event ∈ socket, ∃ chunk, chunk ≠ [] ∧ event = .data chunk

/-- Bytes not yet consumed, buffered or still on their way. -/
def Link.tail (link : Link) : List UInt8 := link.ctx.buffer.bytes ++ unread link.socket

def headerAt (R : Rmps) (bytes : List UInt8) : Except R.Error (MessageHeader × Nat) :=
  Deserialize.deserialize R bytes

/-- The frame starting a stream: its header and everything the reader keeps behind it. -/
def frameAt (R : Rmps) (stream : List UInt8) : Option (MessageHeader × List UInt8) :=
  match headerAt R stream with
  | .ok (header, position) => some (header, stream.drop (position % 2 ^ 32))
  | .error _ => none

/-- The frame a connection stands at, with its header already taken off or not. -/
def Link.pending (R : Rmps) (link : Link) : Option (MessageHeader × List UInt8) :=
  match link.ctx.headerWithTarget with
  | some target => some (target.header, link.tail)
  | none => frameAt R link.tail

/-- A context that knows no header has already failed to read one from its buffer. -/
def Settled (R : Rmps) (ctx : BufferContext) : Prop :=
  ctx.headerWithTarget = none → ∃ e, headerAt R ctx.buffer.bytes = .error e

/-- Whatever prefix of the stream a header is read from, it is the stream's own header. -/
def Steady (R : Rmps) (stream : List UInt8) : Prop :=
  ∀ bytes, bytes <+: stream → ∀ header position, headerAt R bytes = .ok (header, position) →
    0 < position ∧ position ≤ bytes.length ∧ headerAt R stream = .ok (header, position)

theorem headerAt_eq (R : Rmps) (bytes : List UInt8) : headerAt R bytes =
    derived R MessageHeader.fields (fun v => (⟨v.1, v.2.1⟩ : MessageHeader)) bytes := rfl

theorem headerAt_serialize {R : Rmps} (roundTrips : R.RoundTrips) (header : MessageHeader) (rest : List UInt8)
    (short : (Serialize.serialize R header).length < 2 ^ 32) :
    headerAt R (Serialize.serialize R header ++ rest) = .ok (header, (Serialize.serialize R header).length) := by
  rw [headerAt_eq]
  exact derived_serialize roundTrips MessageHeader.fields _ (header.kind, header.length, ()) rest short

theorem headerAt_stable {R : Rmps} (stable : R.StableAt MessageHeader.fields) {bytes : List UInt8} (more : List UInt8)
    {header : MessageHeader} {position : Nat} (h : headerAt R bytes = .ok (header, position)) :
    headerAt R (bytes ++ more) = .ok (header, position) := by
  simp only [headerAt_eq,derived] at h ⊢
  cases hd : R.deserialize MessageHeader.fields bytes with
  | error e => simp [hd,Except.map] at h
  | ok result =>
    rw [stable bytes more result.1 result.2 hd]
    simpa [hd] using h

theorem headerAt_nil {R : Rmps} (rejectsEmpty : R.RejectsEmpty) : ∃ e, headerAt R [] = .error e := by
  obtain ⟨e,refused⟩ := rejectsEmpty MessageHeader.fields
  exact ⟨e,by simp only [headerAt_eq,derived,refused,Except.map]⟩

theorem headerAt_consumes {R : Rmps} (consumes : R.Consumes) {bytes : List UInt8}
    {header : MessageHeader} {position : Nat} (h : headerAt R bytes = .ok (header, position)) :
    0 < position ∧ position ≤ bytes.length := by
  simp only [headerAt_eq,derived] at h
  cases hd : R.deserialize MessageHeader.fields bytes with
  | error e => simp [hd,Except.map] at h
  | ok result =>
    have bounds := consumes _ bytes result.1 result.2 hd
    simp only [hd,Except.map,Except.ok.injEq,Prod.mk.injEq] at h
    omega

theorem steady_of_stableAt {R : Rmps} (stable : R.StableAt MessageHeader.fields) (consumes : R.Consumes)
    (stream : List UInt8) : Steady R stream := by
  rintro bytes ⟨more,rfl⟩ header position h
  have bounds := headerAt_consumes consumes h
  exact ⟨bounds.1,bounds.2,headerAt_stable stable more h⟩

theorem steady_of_stable {R : Rmps} (stable : R.Stable) (consumes : R.Consumes)
    (stream : List UInt8) : Steady R stream := steady_of_stableAt (stable _) consumes stream

theorem Steady.rejects_empty {R : Rmps} {stream : List UInt8} (steady : Steady R stream) :
    ∃ e, headerAt R [] = .error e := by
  cases h : headerAt R [] with
  | error e => exact ⟨e,rfl⟩
  | ok result =>
    obtain ⟨pos,le,_⟩ := steady [] List.nil_prefix result.1 result.2 h
    simp only [List.length_nil] at le
    omega

theorem frameAt_error {R : Rmps} {stream : List UInt8} {e : R.Error}
    (h : headerAt R stream = .error e) : frameAt R stream = none := by
  simp [frameAt,h]

theorem frameAt_ok {R : Rmps} {stream : List UInt8} {header : MessageHeader} {position : Nat}
    (h : headerAt R stream = .ok (header, position)) :
    frameAt R stream = some (header, stream.drop (position % 2 ^ 32)) := by
  simp [frameAt,h]

theorem pending_blank {R : Rmps} {link : Link} (blank : link.ctx.headerWithTarget = none) :
    link.pending R = frameAt R link.tail := by
  simp [Link.pending,blank]

theorem pending_known {R : Rmps} {link : Link} {target : MessageHeaderDecoded}
    (known : link.ctx.headerWithTarget = some target) :
    link.pending R = some (target.header, link.tail) := by
  simp [Link.pending,known]

theorem attempt_spec {R : Rmps} (link : Link) (blank : link.ctx.headerWithTarget = none)
    (steady : Steady R link.tail) :
    ∃ result ctx', link.ctx.tryReadHeader R = .ok (result, ctx') ∧ Settled R ctx' ∧
      Link.pending R ⟨link.socket, ctx'⟩ = frameAt R link.tail ∧
      (ctx'.headerWithTarget = none → Link.tail ⟨link.socket, ctx'⟩ = link.tail) := by
  obtain ⟨socket,ctx⟩ := link
  cases h : headerAt R ctx.buffer.bytes with
  | error e =>
    refine ⟨.error e,ctx,?_,fun _ => ⟨e,h⟩,pending_blank blank,fun _ => rfl⟩
    unfold headerAt at h
    simp [BufferContext.tryReadHeader,h]
  | ok result =>
    obtain ⟨header,position⟩ := result
    obtain ⟨_,le,same⟩ := steady ctx.buffer.bytes (List.prefix_append _ _) header position h
    have cut : (UInt32.ofNat position).toNat = position % 2 ^ 32 := UInt32.toNat_ofNat'
    have room : position % 2 ^ 32 ≤ ctx.buffer.bytes.length := by
      have := Nat.mod_le position (2 ^ 32)
      omega
    obtain ⟨buffer,advanced,bytes⟩ := BytesMut.advance_ok room
    refine ⟨.ok (),{ ctx with headerWithTarget := some ⟨header,UInt32.ofNat position⟩, buffer := buffer },
      ?_,?_,?_,?_⟩
    · unfold headerAt at h
      simp only [BufferContext.tryReadHeader,h,BufferContext.setHeaderWithLen,cut,advanced]
    · intro unknown
      simp at unknown
    · rw [frameAt_ok same]
      simp only [Link.pending,Link.tail,bytes,List.drop_append_of_le_length room]
    · intro unknown
      simp at unknown

/-- The stability a call needs: that of the stream in front of it, unless the header
has been taken off already. -/
def Link.Steady (R : Rmps) (link : Link) : Prop :=
  link.ctx.headerWithTarget = none → Ndp.Steady R link.tail

theorem getState_blank_iff (ctx : BufferContext) :
    (ctx.getState = .empty ∨ ctx.getState = .waitHeader) ↔ ctx.headerWithTarget = none := by
  unfold BufferContext.getState
  cases ctx.headerWithTarget with
  | none => simp only [iff_true]; split <;> simp
  | some target => simp only [reduceCtorEq,iff_false]; split <;> simp

theorem getState_congr {ctx ctx' : BufferContext} (bytes : ctx'.buffer.bytes = ctx.buffer.bytes)
    (header : ctx'.headerWithTarget = ctx.headerWithTarget) : ctx'.getState = ctx.getState := by
  unfold BufferContext.getState BytesMut.len
  rw [bytes,header]

variable (R : Rmps) (grow : Growth) (peerAddr : Option SocketAddr) (M : Type)

theorem fill_closed (ctx : BufferContext) :
    ∃ buffer, buffer.bytes = ctx.buffer.bytes ∧ fill R grow peerAddr M ⟨[], ctx⟩ =
      .ret (.returned (.error (.peerDisconnectedGracefully peerAddr)) ⟨[], { ctx with buffer := buffer }⟩) := by
  refine ⟨_,?_,rfl⟩
  split <;> simp

theorem fill_delivery (ctx : BufferContext) (b : UInt8) (bs : List UInt8) (rest : Socket) :
    ∃ ctx', ctx'.headerWithTarget = ctx.headerWithTarget ∧
      Link.tail ⟨rest, ctx'⟩ = Link.tail ⟨.data (b :: bs) :: rest, ctx⟩ ∧
      (ctx.headerWithTarget = none → fill R grow peerAddr M ⟨.data (b :: bs) :: rest, ctx⟩ =
        match ctx'.tryReadHeader R with
        | .error panic => .ret (.panicked panic)
        | .ok (_, ctx'') => .next ⟨rest, ctx''⟩) ∧
      (ctx.headerWithTarget ≠ none →
        fill R grow peerAddr M ⟨.data (b :: bs) :: rest, ctx⟩ = .next ⟨rest, ctx'⟩) := by
  obtain ⟨buffer,bytes,read⟩ : ∃ buffer : BytesMut, buffer.bytes = ctx.buffer.bytes ++ (b :: bs) ∧
      readBuf grow (.data (b :: bs) :: rest) ctx.buffer = (.ok (bs.length + 1), rest, buffer) := by
    refine ⟨_,?_,rfl⟩
    rw [BytesMut.extend_bytes]
    split <;> simp
  refine ⟨{ ctx with buffer := buffer },rfl,by simp [Link.tail,bytes,unread],?_,?_⟩
  · intro known
    have blank := (getState_blank_iff ctx).mpr known
    cases tried : BufferContext.tryReadHeader R { ctx with buffer := buffer } with
    | error panic => simp only [fill,read,blank,↓reduceIte,tried]
    | ok result => simp only [fill,read,blank,↓reduceIte,tried]
  · intro known
    have notBlank : ¬(ctx.getState = .empty ∨ ctx.getState = .waitHeader) := by
      rwa [getState_blank_iff]
    simp only [fill,read,notBlank,↓reduceIte]

theorem fill_data (ctx : BufferContext) (chunk : List UInt8) (rest : Socket) (nonempty : chunk ≠ [])
    (steady : Link.Steady R ⟨.data chunk :: rest, ctx⟩) :
    ∃ ctx', fill R grow peerAddr M ⟨.data chunk :: rest, ctx⟩ = .next ⟨rest, ctx'⟩ ∧ Settled R ctx' ∧
      Link.pending R ⟨rest, ctx'⟩ = Link.pending R ⟨.data chunk :: rest, ctx⟩ ∧
      Link.Steady R ⟨rest, ctx'⟩ := by
  obtain ⟨b,bs,rfl⟩ := List.exists_cons_of_ne_nil nonempty
  obtain ⟨full,header,tail,tries,keeps⟩ := fill_delivery R grow peerAddr M ctx b bs rest
  cases known : ctx.headerWithTarget with
  | none =>
    obtain ⟨result,ctx',tried,settled,pending,same⟩ :=
      attempt_spec ⟨rest,full⟩ (header.trans known) (tail ▸ steady known)
    refine ⟨ctx',?_,settled,?_,?_⟩
    · rw [tries known,tried]
    · rw [pending,pending_blank known,tail]
    · intro unknown
      rw [same unknown,tail]
      exact steady known
  | some target =>
    refine ⟨full,keeps (by simp [known]),?_,?_,?_⟩
    · intro unknown
      simp [header,known] at unknown
    · simp only [Link.pending,tail,header]
    · intro unknown
      simp [header,known] at unknown

variable [MessageDecoder M]

theorem readNext_cases (link : Link) (chunked : Chunked link.socket) (steady : link.Steady R)
    (settled : Settled R link.ctx) :
    (∃ link', readNext R grow peerAddr M link = takeMessage R grow M link' ∧
      link'.ctx.getState = .done ∧ Chunked link'.socket ∧ link'.pending R = link.pending R) ∨
    (∃ link', readNext R grow peerAddr M link =
        .returned (.error (.peerDisconnectedGracefully peerAddr)) link' ∧
      link'.ctx.getState ≠ .done ∧ link'.socket = [] ∧ Settled R link'.ctx ∧ link'.Steady R ∧
      link'.pending R = link.pending R) := by
  obtain ⟨socket,ctx⟩ := link
  induction socket generalizing ctx with
  | nil =>
    by_cases done : ctx.getState = .done
    · refine .inl ⟨⟨[],ctx⟩,?_,done,chunked,rfl⟩
      exact run_ret _ (by simp [readNextBody,done])
    · obtain ⟨buffer,bytes,closed⟩ := fill_closed R grow peerAddr M ctx
      have tail : Link.tail ⟨[],{ ctx with buffer := buffer }⟩ = Link.tail ⟨[],ctx⟩ := by
        simp [Link.tail,bytes]
      refine .inr ⟨⟨[],{ ctx with buffer := buffer }⟩,?_,?_,rfl,?_,?_,?_⟩
      · exact run_ret _ (by simp [readNextBody,done,closed])
      · have same : BufferContext.getState { ctx with buffer := buffer } = ctx.getState :=
          getState_congr bytes rfl
        rwa [same]
      · simpa only [Settled,bytes] using settled
      · simpa only [Link.Steady,tail] using steady
      · simp only [Link.pending,tail]
  | cons event rest ih =>
    by_cases done : ctx.getState = .done
    · refine .inl ⟨⟨event :: rest,ctx⟩,?_,done,chunked,rfl⟩
      exact run_ret _ (by simp [readNextBody,done])
    · obtain ⟨chunk,nonempty,rfl⟩ := chunked event (by simp)
      obtain ⟨ctx',filled,settled',pending,steady'⟩ := fill_data R grow peerAddr M ctx chunk rest
        nonempty steady
      have chunked' : Chunked rest := fun e member => chunked e (by simp [member])
      by_cases now : ctx'.getState = .done
      · refine .inl ⟨⟨rest,ctx'⟩,?_,now,chunked',pending⟩
        exact run_ret _ (by simp [readNextBody,done,filled,now])
      · have again : readNextBody R grow peerAddr M ⟨.data chunk :: rest,ctx⟩ = .next ⟨rest,ctx'⟩ := by
          simp [readNextBody,done,filled,now]
        have next : readNext R grow peerAddr M ⟨.data chunk :: rest,ctx⟩ =
            readNext R grow peerAddr M ⟨rest,ctx'⟩ := run_next _ again
        rw [next,← pending]
        exact ih ctx' chunked' steady' settled'

theorem regrow_keeps (socket : Socket) (ctx : BufferContext) :
    Link.pending R ⟨socket, ctx.regrow grow⟩ = Link.pending R ⟨socket, ctx⟩ ∧
    (Settled R (ctx.regrow grow) ↔ Settled R ctx) ∧
    (Link.Steady R ⟨socket, ctx.regrow grow⟩ ↔ Link.Steady R ⟨socket, ctx⟩) := by
  simp only [Link.pending,Settled,Link.Steady,Link.tail,BufferContext.regrow_bytes,
    BufferContext.regrow_header,and_self]

theorem done_header {link : Link} (done : link.ctx.getState = .done) :
    ∃ target, link.ctx.headerWithTarget = some target ∧
      link.pending R = some (target.header, link.tail) ∧
      target.header.length.toNat ≤ link.ctx.buffer.bytes.length := by
  obtain ⟨target,known,le⟩ := (BufferContext.getState_done_iff _).mp done
  have := Nat.mod_le link.ctx.buffer.bytes.length (2 ^ 32)
  exact ⟨target,known,pending_known known,by omega⟩

theorem readNext_short (link : Link) (chunked : Chunked link.socket) (steady : link.Steady R)
    (settled : Settled R link.ctx)
    (short : ∀ header body, link.pending R = some (header, body) → body.length < header.length.toNat) :
    ∃ link', readNext R grow peerAddr M link =
      .returned (.error (.peerDisconnectedGracefully peerAddr)) link' ∧ link'.socket = [] ∧
      Settled R link'.ctx ∧ link'.Steady R ∧ link'.pending R = link.pending R := by
  rcases readNext_cases R grow peerAddr M link chunked steady settled with
    ⟨link',_,done,_,same⟩ | ⟨link',closed,_,socket,settled',steady',same⟩
  · obtain ⟨target,_,pending,le⟩ := done_header R done
    have := short _ _ (same ▸ pending)
    simp only [Link.tail,List.length_append] at this
    omega
  · exact ⟨link',closed,socket,settled',steady',same⟩

theorem readNext_whole (link : Link) (chunked : Chunked link.socket) (steady : link.Steady R)
    (settled : Settled R link.ctx) (header : MessageHeader) (body : List UInt8)
    (pending : link.pending R = some (header, body)) (whole : header.length.toNat ≤ body.length)
    (small : body.length < 2 ^ 32) :
    ∃ link' target, readNext R grow peerAddr M link = takeMessage R grow M link' ∧
      link'.ctx.headerWithTarget = some target ∧ target.header = header ∧ link'.tail = body ∧
      header.length.toNat ≤ link'.ctx.buffer.bytes.length ∧ Chunked link'.socket := by
  rcases readNext_cases R grow peerAddr M link chunked steady settled with
    ⟨link',reached,done,chunked',same⟩ | ⟨link',_,waiting,socket,settled',_,same⟩
  · obtain ⟨target,known,pending',le⟩ := done_header R done
    rw [same,pending] at pending'
    obtain ⟨rfl,rfl⟩ := Prod.mk.inj (Option.some.inj pending')
    exact ⟨link',target,reached,known,rfl,rfl,le,chunked'⟩
  · exfalso
    have buffered : link'.tail = link'.ctx.buffer.bytes := by simp [Link.tail,socket,unread]
    rw [← same] at pending
    cases known : link'.ctx.headerWithTarget with
    | none =>
      obtain ⟨e,refused⟩ := settled' known
      rw [pending_blank known,buffered,frameAt_error refused] at pending
      contradiction
    | some target =>
      rw [pending_known known,buffered] at pending
      obtain ⟨rfl,rfl⟩ := Prod.mk.inj (Option.some.inj pending)
      apply waiting
      apply (BufferContext.getState_done_iff _).mpr
      exact ⟨target,known,by rwa [Nat.mod_eq_of_lt small]⟩

/-- A body that decodes is taken off the stream by as many bytes as the decoder used,
and the connection then stands at the frame behind them. -/
theorem takeMessage_ok {link : Link} {target : MessageHeaderDecoded} {m : M} {count : Nat}
    (known : link.ctx.headerWithTarget = some target)
    (decoded : MessageDecoder.decode R target.header.kind link.ctx.buffer.bytes = .ok (m, count))
    (within : count ≤ link.ctx.buffer.bytes.length) (steady : Steady R (link.tail.drop count)) :
    ∃ link', takeMessage R grow M link = .returned (.ok m) link' ∧ link'.socket = link.socket ∧
      link'.pending R = frameAt R (link.tail.drop count) ∧ Settled R link'.ctx ∧ link'.Steady R := by
  obtain ⟨socket,ctx⟩ := link
  obtain ⟨buffer,advanced,bytes⟩ := BytesMut.advance_ok within
  have tail : Link.tail ⟨socket,{ ctx with buffer := buffer, headerWithTarget := none }⟩ =
      (Link.tail ⟨socket,ctx⟩).drop count := by
    simp only [Link.tail,bytes,List.drop_append_of_le_length within]
  obtain ⟨result,ctx',tried,settled,pending,steady'⟩ : ∃ result ctx',
      (if 0 < buffer.len then
        BufferContext.tryReadHeader R { ctx with buffer := buffer, headerWithTarget := none }
        else .ok (.ok (), { ctx with buffer := buffer, headerWithTarget := none })) = .ok (result, ctx') ∧
      Settled R ctx' ∧ Link.pending R ⟨socket, ctx'⟩ = frameAt R ((Link.tail ⟨socket,ctx⟩).drop count) ∧
      Link.Steady R ⟨socket, ctx'⟩ := by
    by_cases left : 0 < buffer.len
    · obtain ⟨result,ctx',tried,settled,pending,same⟩ :=
        attempt_spec ⟨socket,{ ctx with buffer := buffer, headerWithTarget := none }⟩ rfl (tail ▸ steady)
      refine ⟨result,ctx',by simpa only [left,↓reduceIte] using tried,settled,pending.trans (by rw [tail]),?_⟩
      intro unknown
      rw [same unknown,tail]
      exact steady
    · have nothing : buffer.bytes = [] := by
        simpa only [BytesMut.len,List.length_pos_iff,not_not] using left
      refine ⟨_,_,if_neg left,?_,?_,?_⟩
      · intro _
        simpa only [nothing] using steady.rejects_empty
      · rw [pending_blank rfl,tail]
      · intro _
        rw [tail]
        exact steady
  obtain ⟨pendingSame,settledSame,steadySame⟩ := regrow_keeps R grow socket ctx'
  refine ⟨⟨socket,ctx'.regrow grow⟩,?_,rfl,pendingSame.trans pending,settledSame.mpr settled,
    steadySame.mpr steady'⟩
  simp only at known decoded
  simp only [takeMessage,known,readFrom,decoded,advanced,tried]

/-- Consecutive calls on one connection and what each of them returned, errors included. -/
inductive Calls : Link → List (Except (MessageReadError R.Error) M) → Link → Prop where
  | nil : Calls link [] link
  | cons : readNext R grow peerAddr M link = .returned result link' →
      Calls link' results final → Calls link (result :: results) final

/-- A connection nothing has been read from yet. -/
def Link.fresh (capacity : Nat) (chunks : List (List UInt8)) : Link :=
  ⟨chunks.map .data, .new capacity⟩

theorem chunked_map (chunks : List (List UInt8)) (nonempty : ∀ chunk ∈ chunks, chunk ≠ []) :
    Chunked (chunks.map .data) := by
  intro event member
  obtain ⟨chunk,inside,rfl⟩ := List.mem_map.mp member
  exact ⟨chunk,nonempty chunk inside,rfl⟩

@[simp] theorem unread_map (chunks : List (List UInt8)) : unread (chunks.map .data) = chunks.flatten := by
  induction chunks with
  | nil => rfl
  | cons chunk rest ih => simp [unread,ih]

@[simp] theorem tail_fresh (capacity : Nat) (chunks : List (List UInt8)) :
    (Link.fresh capacity chunks).tail = chunks.flatten := by
  simp [Link.tail,Link.fresh,BufferContext.new,BytesMut.withCapacity]

theorem settled_fresh {R : Rmps} (capacity : Nat) (chunks : List (List UInt8))
    (rejectsEmpty : R.RejectsEmpty) : Settled R (Link.fresh capacity chunks).ctx :=
  fun _ => headerAt_nil rejectsEmpty

end Ndp
