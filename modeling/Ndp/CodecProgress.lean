import Ndp.CodecReading

/-! What holds on every socket, failing reads included, and for every byte stream. A read
is only issued when the buffer holds nothing that could be returned; calls take bytes
off the stream and never put any back; nothing panics. -/
namespace Ndp

open Looping

section Calls

variable (R : Rmps) (grow : Growth) (peerAddr : Option SocketAddr) (M : Type)

theorem tryReadHeader_cases {ctx ctx' : BufferContext} {result : Except R.Error Unit}
    (h : ctx.tryReadHeader R = .ok (result, ctx')) :
    (∃ e, headerAt R ctx.buffer.bytes = .error e ∧ ctx' = ctx) ∨
    (∃ header position, headerAt R ctx.buffer.bytes = .ok (header, position) ∧
      ctx'.headerWithTarget = some ⟨header, UInt32.ofNat position⟩ ∧
      ctx'.buffer.bytes = ctx.buffer.bytes.drop (position % 2 ^ 32)) := by
  unfold BufferContext.tryReadHeader at h
  cases found : headerAt R ctx.buffer.bytes with
  | error e =>
    simp only [headerAt] at found
    simp only [found,Except.ok.injEq,Prod.mk.injEq] at h
    exact .inl ⟨e,rfl,h.2.symm⟩
  | ok result =>
    obtain ⟨header,position⟩ := result
    simp only [headerAt] at found
    simp only [found,BufferContext.setHeaderWithLen,UInt32.toNat_ofNat'] at h
    cases advanced : ctx.buffer.advance (position % 2 ^ 32) with
    | error panic => simp only [advanced] at h; contradiction
    | ok buffer =>
      simp only [advanced,Except.ok.injEq,Prod.mk.injEq] at h
      obtain ⟨-,rfl⟩ := h
      exact .inr ⟨header,position,rfl,rfl,(BytesMut.advance_bytes advanced).2⟩

theorem tryReadHeader_panic {ctx : BufferContext} {panic : Panic}
    (h : ctx.tryReadHeader R = .error panic) :
    ∃ header position, headerAt R ctx.buffer.bytes = .ok (header, position) ∧
      ctx.buffer.bytes.length < position := by
  unfold BufferContext.tryReadHeader at h
  cases found : headerAt R ctx.buffer.bytes with
  | error e =>
    simp only [headerAt] at found
    simp only [found] at h
    contradiction
  | ok result =>
    obtain ⟨header,position⟩ := result
    refine ⟨header,position,rfl,?_⟩
    simp only [headerAt] at found
    simp only [found,BufferContext.setHeaderWithLen,UInt32.toNat_ofNat'] at h
    by_contra le
    have := Nat.mod_le position (2 ^ 32)
    obtain ⟨buffer,advanced,_⟩ := @BytesMut.advance_ok ctx.buffer (position % 2 ^ 32) (by omega)
    simp only [advanced] at h
    contradiction

theorem attempt_no_panic (consumes : R.Consumes) (ctx : BufferContext) (panic : Panic) :
    ctx.tryReadHeader R ≠ .error panic := by
  intro h
  obtain ⟨header,position,found,past⟩ := tryReadHeader_panic R h
  have := (headerAt_consumes consumes found).2
  omega

theorem fill_cases (link : Link) :
    (∃ ctx result ctx', fill R grow peerAddr M link = .next ⟨link.socket.tail, ctx'⟩ ∧
      Link.tail ⟨link.socket.tail, ctx⟩ = link.tail ∧
      ctx.headerWithTarget = link.ctx.headerWithTarget ∧
      ((link.ctx.headerWithTarget = none ∧ ctx.tryReadHeader R = .ok (result, ctx')) ∨
        (link.ctx.headerWithTarget ≠ none ∧ ctx' = ctx))) ∨
    (∃ e link', fill R grow peerAddr M link = .ret (.returned (.error e) link') ∧
      link'.tail = link.tail ∧ link'.ctx.buffer.bytes = link.ctx.buffer.bytes ∧
      link'.ctx.headerWithTarget = link.ctx.headerWithTarget) ∨
    (∃ ctx panic, fill R grow peerAddr M link = .ret (.panicked panic) ∧
      link.ctx.headerWithTarget = none ∧ Link.tail ⟨link.socket.tail, ctx⟩ = link.tail ∧
      ctx.tryReadHeader R = .error panic) := by
  obtain ⟨socket,ctx⟩ := link
  have kept : (if ctx.buffer.capacity = ctx.buffer.len then ctx.buffer.reserve grow 64
      else ctx.buffer).bytes = ctx.buffer.bytes := by split <;> simp
  match socket with
  | [] => exact .inr (.inl ⟨_,_,rfl,by simp [Link.tail,kept],kept,rfl⟩)
  | .failed e :: rest => exact .inr (.inl ⟨_,_,rfl,by simp [Link.tail,kept,unread],kept,rfl⟩)
  | .data [] :: rest =>
    refine .inr (.inl ⟨_,_,rfl,?_,?_,rfl⟩)
    · simp [Link.tail,kept,unread]
    · simp [kept]
  | .data (b :: bs) :: rest =>
    obtain ⟨full,header,tail,tries,keeps⟩ := fill_delivery R grow peerAddr M ctx b bs rest
    by_cases known : ctx.headerWithTarget = none
    · cases tried : full.tryReadHeader R with
      | error panic =>
        exact .inr (.inr ⟨full,panic,by rw [tries known,tried],known,tail,tried⟩)
      | ok result =>
        exact .inl ⟨full,result.1,result.2,by rw [tries known,tried,List.tail_cons],tail,header,
          .inl ⟨known,tried⟩⟩
    · exact .inl ⟨full,.ok (),full,keeps known,tail,header,.inr ⟨known,rfl⟩⟩

/-- Between calls and at every loop head: what is buffered has been tried, and the bytes
still to be consumed are at most those there were. -/
structure Sound (total : Nat) (link : Link) : Prop where
  settled : Settled R link.ctx
  bounded : link.tail.length ≤ total

theorem attempt_sound {ctx ctx' : BufferContext} {result : Except R.Error Unit} (socket : Socket)
    (blank : ctx.headerWithTarget = none) (h : ctx.tryReadHeader R = .ok (result, ctx')) :
    Settled R ctx' ∧ (Link.tail ⟨socket, ctx'⟩).length ≤ (Link.tail ⟨socket, ctx⟩).length := by
  rcases tryReadHeader_cases R h with ⟨e,refused,rfl⟩ | ⟨header,position,_,known,bytes⟩
  · exact ⟨fun _ => ⟨e,refused⟩,Nat.le_refl _⟩
  · refine ⟨fun unknown => by simp [known] at unknown,?_⟩
    simp only [Link.tail,bytes,List.length_append,List.length_drop]
    omega

theorem fill_sound {total : Nat} {link : Link} (sound : Sound R total link) :
    (∀ link', fill R grow peerAddr M link = .next link' → Sound R total link') ∧
    (∀ result link', fill R grow peerAddr M link = .ret (.returned result link') →
      Sound R total link') := by
  rcases fill_cases R grow peerAddr M link with ⟨ctx,result,ctx',filled,tail,known,attempt⟩ |
    ⟨e,link',filled,tail,bytes,known⟩ | ⟨ctx,panic,filled,_⟩
  · rw [filled]
    refine ⟨?_,by intro _ _ h; contradiction⟩
    intro link' same
    obtain rfl := Flow.next.inj same
    rcases attempt with ⟨blank,tried⟩ | ⟨present,rfl⟩
    · obtain ⟨settled,le⟩ := attempt_sound R link.socket.tail (known.trans blank) tried
      exact ⟨settled,by have := sound.bounded; rw [tail] at le; omega⟩
    · exact ⟨fun unknown => absurd (known ▸ unknown) present,by rw [tail]; exact sound.bounded⟩
  · rw [filled]
    refine ⟨by intro _ h; contradiction,?_⟩
    intro result link'' same
    obtain ⟨-,rfl⟩ := ReadOutcome.returned.inj (Flow.ret.inj same)
    refine ⟨?_,tail ▸ sound.bounded⟩
    intro unknown
    rw [bytes]
    exact sound.settled (known ▸ unknown)
  · rw [filled]
    exact ⟨by intro _ h; contradiction,by intro _ _ h; cases h⟩

variable [MessageDecoder M]

theorem takeMessage_cases {link link' : Link} {result : Except (MessageReadError R.Error) M}
    (h : takeMessage R grow M link = .returned result link') :
    ∃ target, link.ctx.headerWithTarget = some target ∧
      ((∃ e, MessageDecoder.decode R target.header.kind link.ctx.buffer.bytes =
          (.error e : Except R.Error (M × Nat)) ∧
        result = .error (.badMessageFormat e) ∧ link' = link) ∨
      (∃ m count, ∃ ctx ctx' : BufferContext, ∃ attempt, result = .ok m ∧
        MessageDecoder.decode R target.header.kind link.ctx.buffer.bytes = .ok (m, count) ∧
        count ≤ link.ctx.buffer.bytes.length ∧ ctx.headerWithTarget = none ∧
        ctx.buffer.bytes = link.ctx.buffer.bytes.drop count ∧
        ((ctx.buffer.bytes = [] ∧ ctx' = ctx) ∨ ctx.tryReadHeader R = .ok (attempt, ctx')) ∧
        link' = ⟨link.socket, ctx'.regrow grow⟩)) := by
  unfold takeMessage at h
  cases known : link.ctx.headerWithTarget with
  | none => simp only [known] at h; contradiction
  | some target =>
    refine ⟨target,rfl,?_⟩
    simp only [known,readFrom] at h
    cases decoded : (MessageDecoder.decode R target.header.kind link.ctx.buffer.bytes :
        Except R.Error (M × Nat)) with
    | error e =>
      simp only [decoded] at h
      obtain ⟨rfl,rfl⟩ := ReadOutcome.returned.inj h
      refine .inl ⟨e,rfl,rfl,?_⟩
      simp [← known]
    | ok pair =>
      obtain ⟨m,count⟩ := pair
      simp only [decoded] at h
      cases advanced : link.ctx.buffer.advance count with
      | error panic => simp only [advanced] at h; contradiction
      | ok buffer =>
        obtain ⟨within,bytes⟩ := BytesMut.advance_bytes advanced
        simp only [advanced] at h
        split at h
        · contradiction
        · next attempt ctx' tried =>
          obtain ⟨rfl,rfl⟩ := ReadOutcome.returned.inj h
          refine .inr ⟨m,count,{ link.ctx with buffer := buffer, headerWithTarget := none },
            ctx',attempt,rfl,rfl,within,rfl,bytes,?_,rfl⟩
          split at tried
          · exact .inr tried
          · next empty =>
            obtain ⟨-,rfl⟩ := Prod.mk.inj (Except.ok.inj tried)
            refine .inl ⟨?_,rfl⟩
            simpa only [BytesMut.len,List.length_pos_iff,not_not] using empty

theorem takeMessage_sound (rejectsEmpty : R.RejectsEmpty) {total : Nat} {link link' : Link}
    {result : Except (MessageReadError R.Error) M} (sound : Sound R total link)
    (h : takeMessage R grow M link = .returned result link') : Sound R total link' := by
  obtain ⟨target,_,⟨e,_,_,rfl⟩ | ⟨m,count,ctx,ctx',attempt,_,_,within,blank,bytes,rest,rfl⟩⟩ :=
    takeMessage_cases R grow M h
  · exact sound
  have shorter : (Link.tail ⟨link.socket,ctx⟩).length ≤ total := by
    have := sound.bounded
    simp only [Link.tail,bytes,List.length_append,List.length_drop] at this ⊢
    omega
  obtain ⟨settled,le⟩ : Settled R ctx' ∧
      (Link.tail ⟨link.socket,ctx'⟩).length ≤ (Link.tail ⟨link.socket,ctx⟩).length := by
    rcases rest with ⟨nothing,rfl⟩ | tried
    · refine ⟨fun _ => ?_,Nat.le_refl _⟩
      rw [nothing]
      exact headerAt_nil rejectsEmpty
    · exact attempt_sound R link.socket blank tried
  refine ⟨(regrow_keeps R grow link.socket ctx').2.1.mpr settled,?_⟩
  simp only [Link.tail,BufferContext.regrow_bytes] at le shorter ⊢
  omega

theorem readNextBody_sound (rejectsEmpty : R.RejectsEmpty) {total : Nat} {link : Link}
    (sound : Sound R total link) :
    (∀ link', readNextBody R grow peerAddr M link = .next link' → Sound R total link') ∧
    (∀ result link', readNextBody R grow peerAddr M link = .ret (.returned result link') →
      Sound R total link') := by
  refine ⟨?_,?_⟩
  · intro link' again
    obtain ⟨_,filled,_⟩ := readNextBody_next R grow peerAddr M again
    exact (fill_sound R grow peerAddr M sound).1 link' filled
  · intro result link' left
    have filled := fill_sound R grow peerAddr M sound
    rcases readNextBody_ret R grow peerAddr M left with early | ⟨middle,arrived,_,same⟩
    · exact filled.2 result link' early
    · apply takeMessage_sound R grow M rejectsEmpty _ same.symm
      rcases arrived with rfl | next
      · exact sound
      · exact filled.1 middle next

theorem readNext_sound (rejectsEmpty : R.RejectsEmpty) {total : Nat} {link link' : Link}
    {result : Except (MessageReadError R.Error) M} (sound : Sound R total link)
    (h : readNext R grow peerAddr M link = .returned result link') : Sound R total link' := by
  have all := run_invariant (readNextVariant R grow peerAddr M) (Sound R total)
    (fun outcome => ∀ result link', outcome = .returned result link' → Sound R total link')
    (fun s s' sound again => (readNextBody_sound R grow peerAddr M rejectsEmpty sound).1 s' again)
    (fun s r sound left result link' same =>
      (readNextBody_sound R grow peerAddr M rejectsEmpty sound).2 result link' (same ▸ left))
    link sound
  exact all result link' h

/-- A body decoder that uses at least one byte and no more than it was given. -/
def BodyConsumes (M : Type) [MessageDecoder M] : Prop := ∀ kind bytes (m : M) count,
  MessageDecoder.decode R kind bytes = .ok (m, count) → 0 < count ∧ count ≤ bytes.length

/-- The unwrap is behind the check for a complete body, and no advance overshoots. -/
theorem takeMessage_no_panic (consumes : R.Consumes) (bodies : BodyConsumes R M) {link : Link}
    (done : link.ctx.getState = .done) (panic : Panic) :
    takeMessage R grow M link ≠ .panicked panic := by
  intro h
  obtain ⟨target,known,_⟩ := done_header R done
  simp only [takeMessage,known,readFrom] at h
  cases decoded : (MessageDecoder.decode R target.header.kind link.ctx.buffer.bytes :
      Except R.Error (M × Nat)) with
  | error e => simp only [decoded] at h; contradiction
  | ok pair =>
    obtain ⟨m,count⟩ := pair
    obtain ⟨buffer,advanced,_⟩ := BytesMut.advance_ok (bodies _ _ _ _ decoded).2
    simp only [decoded,advanced] at h
    split at h
    · next attempt =>
      split at attempt
      · exact attempt_no_panic R consumes _ _ attempt
      · contradiction
    · contradiction

theorem readNext_no_panic (consumes : R.Consumes) (bodies : BodyConsumes R M) (link : Link)
    (panic : Panic) : readNext R grow peerAddr M link ≠ .panicked panic := by
  apply run_invariant (readNextVariant R grow peerAddr M) (fun _ => True)
    (fun outcome => outcome ≠ .panicked panic) (fun _ _ _ _ => trivial) _ link trivial
  intro link outcome _ left
  rintro rfl
  rcases readNextBody_ret R grow peerAddr M left with filled | ⟨middle,_,done,same⟩
  · rcases fill_cases R grow peerAddr M link with ⟨_,_,_,other,_⟩ | ⟨_,_,other,_⟩ |
      ⟨ctx,panic',other,_,_,attempt⟩
    · rw [filled] at other; contradiction
    · rw [filled] at other; cases other
    · exact attempt_no_panic R consumes ctx panic' attempt
  · exact takeMessage_no_panic R grow M consumes bodies done panic same.symm

theorem takeMessage_shorter (bodies : BodyConsumes R M) {link link' : Link} {m : M}
    (h : takeMessage R grow M link = .returned (.ok m) link') :
    link'.tail.length < link.tail.length := by
  obtain ⟨target,_,⟨e,_,impossible,_⟩ |
    ⟨m',count,ctx,ctx',attempt,_,decoded,within,blank,bytes,rest,rfl⟩⟩ := takeMessage_cases R grow M h
  · contradiction
  have positive := (bodies _ _ _ _ decoded).1
  have le : (Link.tail ⟨link.socket,ctx'⟩).length ≤ (Link.tail ⟨link.socket,ctx⟩).length := by
    rcases rest with ⟨_,rfl⟩ | tried
    · exact Nat.le_refl _
    · exact (attempt_sound R link.socket blank tried).2
  simp only [Link.tail,BufferContext.regrow_bytes,bytes,List.length_append,List.length_drop] at le ⊢
  omega

theorem readNext_shorter (rejectsEmpty : R.RejectsEmpty) (bodies : BodyConsumes R M) {link link' : Link}
    {m : M} (settled : Settled R link.ctx)
    (h : readNext R grow peerAddr M link = .returned (.ok m) link') :
    link'.tail.length < link.tail.length := by
  have all := run_invariant (readNextVariant R grow peerAddr M) (Sound R link.tail.length)
    (fun outcome => ∀ m link', outcome = .returned (.ok m) link' → link'.tail.length < link.tail.length)
    (fun s s' sound again => (readNextBody_sound R grow peerAddr M rejectsEmpty sound).1 s' again)
    (by
      rintro s r sound left m link' rfl
      rcases readNextBody_ret R grow peerAddr M left with filled | ⟨middle,arrived,_,same⟩
      · rcases fill_cases R grow peerAddr M s with ⟨_,_,_,other,_⟩ | ⟨_,_,other,_⟩ | ⟨_,_,other,_⟩
        all_goals rw [filled] at other; cases other
      · have shorter := takeMessage_shorter R grow M bodies same.symm
        have bounded : middle.tail.length ≤ link.tail.length := by
          rcases arrived with rfl | next
          · exact sound.bounded
          · exact ((fill_sound R grow peerAddr M sound).1 middle next).bounded
        omega)
    link ⟨settled,Nat.le_refl _⟩
  exact all m link' h

/-- The loop of `run` around one connection, with the handlers left out: messages are
collected until a call returns an error. -/
def connectionBody (state : Link × List M) :
    Flow (Link × List M) (Except Panic (List M × MessageReadError R.Error)) :=
  match readNext R grow peerAddr M state.1 with
  | .returned (.ok m) link => .next (link, state.2 ++ [m])
  | .returned (.error e) _ => .ret (.ok (state.2, e))
  | .panicked panic => .ret (.error panic)

theorem connection_ends (consumes : R.Consumes) (bodies : BodyConsumes R M) (fuel : Nat) (link : Link)
    (before : List M) (settled : Settled R link.ctx) (enough : link.tail.length < fuel) :
    ∃ messages e, iterate (connectionBody R grow peerAddr M) fuel (link, before) =
      some (.ok (before ++ messages, e)) ∧ messages.length ≤ link.tail.length := by
  induction fuel generalizing link before with
  | zero => omega
  | succ fuel ih =>
    cases h : readNext R grow peerAddr M link with
    | panicked panic => exact absurd h (readNext_no_panic R grow peerAddr M consumes bodies link panic)
    | returned result link' =>
      cases result with
      | error e => exact ⟨[],e,by simp [iterate,connectionBody,h],Nat.zero_le _⟩
      | ok m =>
        have shorter := readNext_shorter R grow peerAddr M consumes.rejectsEmpty bodies settled h
        have sound := readNext_sound R grow peerAddr M consumes.rejectsEmpty ⟨settled,Nat.le_refl _⟩ h
        obtain ⟨messages,e,ends,few⟩ := ih link' (before ++ [m]) sound.settled (by omega)
        refine ⟨m :: messages,e,?_,by simp only [List.length_cons]; omega⟩
        simp only [iterate,connectionBody,h]
        rw [List.append_assoc] at ends
        exact ends

end Calls

/-- Connections reached from a start by any number of calls, each with a message type and
peer address of its own, whatever the earlier ones returned. -/
inductive Reached (R : Rmps) (grow : Growth) (start : Link) : Link → Prop where
  | start : Reached R grow start start
  | call (peerAddr : Option SocketAddr) (M : Type) [MessageDecoder M]
      {result : Except (MessageReadError R.Error) M} : Reached R grow start link →
      readNext R grow peerAddr M link = .returned result link' → Reached R grow start link'

theorem reached_sound (R : Rmps) (grow : Growth) (rejectsEmpty : R.RejectsEmpty) (capacity : Nat)
    (socket : Socket) {link : Link} (reached : Reached R grow ⟨socket, .new capacity⟩ link) :
    Sound R (unread socket).length link := by
  induction reached with
  | start => exact ⟨fun _ => headerAt_nil rejectsEmpty,by simp [Link.tail,BufferContext.new,BytesMut.withCapacity]⟩
  | call peerAddr M _ returned ih => exact readNext_sound R grow peerAddr M rejectsEmpty ih returned

/-- An iteration starts with a socket read unless the state is `done`. -/
def IssuesRead (link : Link) : Prop := link.ctx.getState ≠ .done

/-- No header can be had from the buffer, or one is known and fewer bytes than it declares are buffered. -/
def NeedsBytes (R : Rmps) (link : Link) : Prop :=
  (link.ctx.headerWithTarget = none ∧
    ∀ bytes, bytes <+: link.ctx.buffer.bytes → ∃ e, headerAt R bytes = .error e) ∨
  ∃ target, link.ctx.headerWithTarget = some target ∧ link.ctx.buffer.bytes.length < target.header.length.toNat

/-- What a call returns for the bytes of a complete body, with nothing taken off the socket: the error of their
decoding, with the connection as it is, or their message, with the bytes it took gone from the stream. -/
def ReturnsBuffered (R : Rmps) (M : Type) [MessageDecoder M] (link : Link) (target : MessageHeaderDecoded)
    (outcome : ReadOutcome R.Error M) : Prop :=
  (∃ e, MessageDecoder.decode R target.header.kind link.ctx.buffer.bytes = (.error e : Except R.Error (M × Nat)) ∧
    outcome = .returned (.error (.badMessageFormat e)) link) ∨
  ∃ m count link', MessageDecoder.decode R target.header.kind link.ctx.buffer.bytes = .ok (m, count) ∧
    outcome = .returned (.ok m) link' ∧ link'.socket = link.socket ∧ link'.pending R = frameAt R (link.tail.drop count)

section Buffered

variable {R : Rmps} (grow : Growth) (peerAddr : Option SocketAddr) (M : Type) [MessageDecoder M]

theorem takeMessage_returns (stable : R.StableAt MessageHeader.fields) (consumes : R.Consumes)
    (bodies : BodyConsumes R M) {link : Link} {target : MessageHeaderDecoded}
    (known : link.ctx.headerWithTarget = some target) :
    ReturnsBuffered R M link target (takeMessage R grow M link) := by
  cases decoded : (MessageDecoder.decode R target.header.kind link.ctx.buffer.bytes : Except R.Error (M × Nat)) with
  | error e =>
    refine .inl ⟨e,decoded,?_⟩
    simp only [takeMessage,known,readFrom,decoded]
    rw [← known]
  | ok pair =>
    obtain ⟨m,count⟩ := pair
    obtain ⟨link',taken,socket,pending,_⟩ := takeMessage_ok R grow M known decoded (bodies _ _ _ _ decoded).2
      (steady_of_stableAt stable consumes _)
    exact .inr ⟨m,count,link',decoded,taken,socket,pending⟩

theorem Sound.needsBytes {total : Nat} {link : Link} (stable : R.StableAt MessageHeader.fields) (sound : Sound R total link)
    (known : link.ctx.headerWithTarget = none) : NeedsBytes R link := by
  refine .inl ⟨known,?_⟩
  rintro bytes ⟨more,whole⟩
  obtain ⟨e,refused⟩ := sound.settled known
  cases found : headerAt R bytes with
  | error e => exact ⟨e,rfl⟩
  | ok result =>
    rw [← whole,headerAt_stable stable more found] at refused
    contradiction

theorem Sound.done {total : Nat} {link : Link} (sound : Sound R total link) (small : total < 2 ^ 32)
    {target : MessageHeaderDecoded} (known : link.ctx.headerWithTarget = some target)
    (enough : target.header.length.toNat ≤ link.ctx.buffer.bytes.length) : link.ctx.getState = .done := by
  have bounded := sound.bounded
  simp only [Link.tail,List.length_append] at bounded
  exact (BufferContext.getState_done_iff _).mpr ⟨target,known,by rwa [Nat.mod_eq_of_lt (by omega)]⟩

theorem readNext_taken_at {link head middle : Link} (visited : Visits (readNextBody R grow peerAddr M) link head)
    (arrived : middle = head ∨ (IssuesRead head ∧ fill R grow peerAddr M head = .next middle))
    (done : middle.ctx.getState = .done) : readNext R grow peerAddr M link = takeMessage R grow M middle := by
  have left : readNextBody R grow peerAddr M head = .ret (takeMessage R grow M middle) := by
    rcases arrived with rfl | ⟨reads,filled⟩
    · simp [readNextBody,done]
    · unfold IssuesRead at reads
      simp [readNextBody,reads,filled,done]
  exact (visited.run_eq (readNextVariant R grow peerAddr M)).trans (run_ret _ left)

end Buffered

/-- On any socket, one with failing reads too, and in whatever state the calls so far have left the connection:
whenever a call issues a socket read it needs bytes, and whenever the body of a known header has arrived, before
the read or with it, the call returns it without another. -/
theorem read_only_when_needed (R : Rmps) (grow : Growth) (peerAddr : Option SocketAddr) (M : Type)
    [MessageDecoder M] (stable : R.StableAt MessageHeader.fields) (consumes : R.Consumes) (bodies : BodyConsumes R M)
    (capacity : Nat) (socket : Socket) (small : (unread socket).length < 2 ^ 32) (link head : Link)
    (reached : Reached R grow ⟨socket, .new capacity⟩ link)
    (visited : Visits (readNextBody R grow peerAddr M) link head) :
    (IssuesRead head → NeedsBytes R head) ∧
    ∀ middle, (middle = head ∨ (IssuesRead head ∧ fill R grow peerAddr M head = .next middle)) →
      (middle.ctx.headerWithTarget = none → NeedsBytes R middle) ∧
      ∀ target, middle.ctx.headerWithTarget = some target →
        target.header.length.toNat ≤ middle.ctx.buffer.bytes.length →
        ReturnsBuffered R M middle target (readNext R grow peerAddr M link) := by
  have sound := visited.invariant (Sound R (unread socket).length)
    (fun s s' sound again => (readNextBody_sound R grow peerAddr M consumes.rejectsEmpty sound).1 s' again)
    (reached_sound R grow consumes.rejectsEmpty capacity socket reached)
  constructor
  · intro reads
    cases known : head.ctx.headerWithTarget with
    | none => exact sound.needsBytes stable known
    | some target =>
      refine .inr ⟨target,known,?_⟩
      by_contra enough
      exact reads (sound.done small known (Nat.not_lt.mp enough))
  · intro middle arrived
    have there : Sound R (unread socket).length middle := by
      rcases arrived with rfl | ⟨_,filled⟩
      · exact sound
      · exact (fill_sound R grow peerAddr M sound).1 middle filled
    refine ⟨there.needsBytes stable,fun target known enough => ?_⟩
    rw [readNext_taken_at grow peerAddr M visited arrived (there.done small known enough)]
    exact takeMessage_returns grow M stable consumes bodies known

theorem direction_consumes {R : Rmps} (consumes : R.Consumes) (d : Direction) :
    BodyConsumes R d.Message := by
  intro kind bytes m count h
  obtain ⟨tys,v,decoded,_⟩ := decode_fields d h
  exact consumes tys bytes v count decoded

/-- After a read that failed, the header of a request is known and its body has not arrived: the read is needed,
and once the body is there it is returned. -/
theorem read_needed_for_body :
    ∃ link head middle : Link, Reached MessagePackRmps.rmps .exact
        ⟨[.failed (.os 104), .data [0x92, 0xa5, 65, 76, 76, 79, 67, 2], .data [0x91, 5]], .new 16⟩ link ∧
      Visits (readNextBody MessagePackRmps.rmps .exact none RequestBodyOwned) link head ∧ IssuesRead head ∧
      NeedsBytes MessagePackRmps.rmps head ∧
      ReturnsBuffered MessagePackRmps.rmps RequestBodyOwned middle ⟨⟨"ALLOC", 2⟩, 8⟩
        (readNext MessagePackRmps.rmps .exact none RequestBodyOwned link) := by
  let link := Link.fresh 16 [[0x92, 0xa5, 65, 76, 76, 79, 67, 2], [0x91, 5]]
  have failed : readNext MessagePackRmps.rmps .exact none RequestBodyOwned ⟨.failed (.os 104) :: link.socket, .new 16⟩ =
    .returned (.error (.socketReadError (.os 104))) link := run_ret _ rfl
  obtain ⟨head,middle,first,filled,known,enough⟩ : ∃ head middle,
      readNextBody MessagePackRmps.rmps .exact none RequestBodyOwned link = .next head ∧
      fill MessagePackRmps.rmps .exact none RequestBodyOwned head = .next middle ∧
      middle.ctx.headerWithTarget = some ⟨⟨"ALLOC", 2⟩, 8⟩ ∧ 2 ≤ middle.ctx.buffer.bytes.length :=
    ⟨_,_,rfl,rfl,rfl,by decide⟩
  have reached := Reached.call none RequestBodyOwned .start failed
  have visited : Visits (readNextBody MessagePackRmps.rmps .exact none RequestBodyOwned) link head := .step first .here
  have reads : IssuesRead head := (readNextBody_next _ _ _ _ first).2.2
  have needed := read_only_when_needed MessagePackRmps.rmps .exact none RequestBodyOwned (MessagePackRmps.stable _)
    MessagePackRmps.consumes (direction_consumes MessagePackRmps.consumes .requests) 16 _ (by decide) link head reached visited
  exact ⟨link,head,middle,reached,visited,reads,needed.1 reads,(needed.2 middle (.inr ⟨reads,filled⟩)).2 _ known enough⟩

/-- On any bytes, in either direction: every call ends within one iteration per delivery and
one more, and the loop over the calls ends in an error, not in a panic (neither of the unwrap
nor of an advance), after at most as many messages as there are bytes. -/
theorem connection_terminates (R : Rmps) (grow : Growth) (peerAddr : Option SocketAddr)
    (consumes : R.Consumes) (d : Direction) (capacity : Nat) (chunks : List (List UInt8)) :
    (∀ link, iterate (readNextBody R grow peerAddr d.Message) (link.socket.length + 1) link =
      some (readNext R grow peerAddr d.Message link)) ∧
    (∃ messages e, iterate (connectionBody R grow peerAddr d.Message) (chunks.flatten.length + 1)
        (.fresh capacity chunks, []) = some (.ok (messages, e)) ∧
      messages.length ≤ chunks.flatten.length) := by
  have settled := settled_fresh capacity chunks consumes.rejectsEmpty
  have enough : (Link.fresh capacity chunks).tail.length < chunks.flatten.length + 1 := by simp
  refine ⟨fun link => iterate_run (readNextVariant R grow peerAddr _) link,?_⟩
  simpa using connection_ends R grow peerAddr d.Message consumes (direction_consumes consumes d) _
    (.fresh capacity chunks) [] settled enough

/-- A zero declared length in front of bytes that are no header. -/
theorem connection_terminates_garbage :
    ∃ messages e, iterate (connectionBody MessagePackRmps.rmps .exact none RequestBodyOwned) 12
        (.fresh 4 [[0x92, 0xa5, 65, 76], [76, 79, 67, 0, 0x91, 5, 0xc1]], []) = some (.ok (messages, e)) ∧
      messages.length ≤ 11 :=
  (connection_terminates MessagePackRmps.rmps .exact none MessagePackRmps.consumes .requests 4
    [[0x92, 0xa5, 65, 76], [76, 79, 67, 0, 0x91, 5, 0xc1]]).2

end Ndp
