import Ndp.CodecProgress

/-! How `readNext` meets bytes that are no frame. A header that cannot be read is taken for one
that has not arrived, so bytes that can never become one are buffered like any others. A body
that cannot be decoded ends the call, and every call after it, at the same place. -/
namespace Ndp

open Looping

/-- No continuation makes these bytes start with a header. -/
def Malformed (R : Rmps) (bytes : List UInt8) : Prop := ∀ more, ∃ e, headerAt R (bytes ++ more) = .error e

/-- The bytes reads bring until there are none, or one fails. -/
def arriving : Socket → List UInt8
  | .data (b :: bs) :: rest => b :: bs ++ arriving rest
  | _ => []

/-- All the bytes that a call may come to have in its buffer. -/
def Link.within (link : Link) : List UInt8 := link.ctx.buffer.bytes ++ arriving link.socket

theorem Malformed.append {R : Rmps} {bytes : List UInt8} (malformed : Malformed R bytes) (more : List UInt8) :
    Malformed R (bytes ++ more) := by
  intro further
  rw [List.append_assoc]
  exact malformed (more ++ further)

theorem Malformed.front {R : Rmps} (stable : R.StableAt MessageHeader.fields) {front back : List UInt8}
    (malformed : Malformed R (front ++ back)) : ∃ e, headerAt R front = .error e := by
  cases found : headerAt R front with
  | error e => exact ⟨e,rfl⟩
  | ok result =>
    obtain ⟨e,refused⟩ := malformed []
    rw [List.append_nil,headerAt_stable stable back found] at refused
    contradiction

theorem blank_issuesRead {link : Link} (blank : link.ctx.headerWithTarget = none) : IssuesRead link := by
  intro done
  obtain ⟨target,known,_⟩ := (BufferContext.getState_done_iff _).mp done
  rw [blank] at known
  contradiction

section Calls

variable (R : Rmps) (grow : Growth) (peerAddr : Option SocketAddr) (M : Type)

theorem blank_fill {ctx : BufferContext} (blank : ctx.headerWithTarget = none) (b : UInt8) (bs : List UInt8)
    (rest : Socket) :
    ∃ full : BufferContext, full.headerWithTarget = none ∧ full.buffer.bytes = ctx.buffer.bytes ++ (b :: bs) ∧
      fill R grow peerAddr M ⟨.data (b :: bs) :: rest, ctx⟩ =
        match full.tryReadHeader R with
        | .error panic => .ret (.panicked panic)
        | .ok (_, ctx') => .next ⟨rest, ctx'⟩ := by
  obtain ⟨full,header,tail,tries,_⟩ := fill_delivery R grow peerAddr M ctx b bs rest
  refine ⟨full,header.trans blank,?_,tries blank⟩
  simp only [Link.tail,unread] at tail
  rw [← List.append_assoc] at tail
  exact List.append_cancel_right tail

variable [MessageDecoder M]

theorem blank_step {link link' : Link} (again : readNextBody R grow peerAddr M link = .next link')
    (still : link'.ctx.headerWithTarget = none) :
    link.ctx.headerWithTarget = none ∧ link'.within = link.within := by
  obtain ⟨_,filled,_⟩ := readNextBody_next R grow peerAddr M again
  obtain ⟨chunk,nonempty,delivered⟩ := fill_next R grow peerAddr M filled
  obtain ⟨b,bs,rfl⟩ := List.exists_cons_of_ne_nil nonempty
  obtain ⟨socket,ctx⟩ := link
  obtain ⟨rest,ctx'⟩ := link'
  simp only at delivered still
  subst delivered
  have blank : ctx.headerWithTarget = none := by
    by_contra known
    obtain ⟨full,header,_,_,keeps⟩ := fill_delivery R grow peerAddr M ctx b bs rest
    rw [keeps known] at filled
    obtain ⟨-,rfl⟩ := Link.mk.inj (Flow.next.inj filled)
    exact known (header ▸ still)
  obtain ⟨full,_,bytes,tries⟩ := blank_fill R grow peerAddr M blank b bs rest
  refine ⟨blank,?_⟩
  rw [tries] at filled
  split at filled
  · contradiction
  next tried =>
    obtain ⟨-,rfl⟩ := Link.mk.inj (Flow.next.inj filled)
    rcases tryReadHeader_cases R tried with ⟨_,_,rfl⟩ | ⟨_,_,_,known,_⟩
    · simp [Link.within,arriving,bytes]
    · simp [known] at still

theorem blank_visits {link head : Link} (path : Visits (readNextBody R grow peerAddr M) link head)
    (blank : head.ctx.headerWithTarget = none) :
    link.ctx.headerWithTarget = none ∧ head.within = link.within := by
  induction path with
  | here => exact ⟨blank,rfl⟩
  | step again _ ih =>
    obtain ⟨blank',same⟩ := ih blank
    obtain ⟨first,moved⟩ := blank_step R grow peerAddr M again blank'
    exact ⟨first,same.trans moved⟩

theorem malformed_visits (stable : R.StableAt MessageHeader.fields) (link : Link)
    (blank : link.ctx.headerWithTarget = none) (malformed : Malformed R link.within) :
    ∃ head, Visits (readNextBody R grow peerAddr M) link head ∧ head.ctx.headerWithTarget = none ∧
      head.ctx.buffer.bytes = link.within := by
  obtain ⟨socket,ctx⟩ := link
  induction socket generalizing ctx with
  | nil => exact ⟨⟨[],ctx⟩,.here,blank,by simp [Link.within,arriving]⟩
  | cons event rest ih =>
    match event with
    | .failed e => exact ⟨_,.here,blank,by simp [Link.within,arriving]⟩
    | .data [] => exact ⟨_,.here,blank,by simp [Link.within,arriving]⟩
    | .data (b :: bs) =>
      obtain ⟨full,unknown,bytes,tries⟩ := blank_fill R grow peerAddr M blank b bs rest
      have within : Link.within ⟨.data (b :: bs) :: rest,ctx⟩ = Link.within ⟨rest,full⟩ := by
        simp [Link.within,arriving,bytes]
      rw [within] at malformed ⊢
      obtain ⟨e,refused⟩ := malformed.front stable
      have failed : full.tryReadHeader R = .ok (.error e,full) := by
        unfold headerAt at refused
        simp [BufferContext.tryReadHeader,refused]
      rw [failed] at tries
      have again : readNextBody R grow peerAddr M ⟨.data (b :: bs) :: rest,ctx⟩ = .next ⟨rest,full⟩ := by
        have reads : IssuesRead ⟨.data (b :: bs) :: rest,ctx⟩ := blank_issuesRead blank
        have still : IssuesRead ⟨rest,full⟩ := blank_issuesRead unknown
        unfold IssuesRead at reads still
        simp [readNextBody,reads,still,tries]
      obtain ⟨head,path,rest⟩ := ih full unknown malformed
      exact ⟨head,.step again path,rest⟩

end Calls

theorem header_front_not_malformed {R : Rmps} (roundTrips : R.RoundTrips) (header : MessageHeader)
    (short : (Serialize.serialize R header).length < 2 ^ 32) (rest : List UInt8) {bytes : List UInt8}
    (front : bytes <+: Serialize.serialize R header ++ rest) : ¬Malformed R bytes := by
  obtain ⟨more,whole⟩ := front
  intro malformed
  obtain ⟨e,refused⟩ := malformed more
  rw [whole,headerAt_serialize roundTrips header rest short] at refused
  contradiction

/-- On any socket, a call stops at bytes that can never become a header exactly if those before
it do not start with such. Else it takes all that arrives into the buffer and reads again. -/
theorem malformed_detected_iff (R : Rmps) (stable : R.StableAt MessageHeader.fields) (grow : Growth)
    (peerAddr : Option SocketAddr) (M : Type) [MessageDecoder M] (link : Link) :
    ((∀ head, Visits (readNextBody R grow peerAddr M) link head → head.ctx.headerWithTarget = none →
        Malformed R head.ctx.buffer.bytes → ¬IssuesRead head) ↔
      ¬(link.ctx.headerWithTarget = none ∧ Malformed R link.within)) ∧
    (link.ctx.headerWithTarget = none → Malformed R link.within →
      ∃ head, Visits (readNextBody R grow peerAddr M) link head ∧ head.ctx.headerWithTarget = none ∧
        head.ctx.buffer.bytes = link.within ∧ IssuesRead head) := by
  have buffers (blank : link.ctx.headerWithTarget = none) (malformed : Malformed R link.within) :
      ∃ head, Visits (readNextBody R grow peerAddr M) link head ∧ head.ctx.headerWithTarget = none ∧
        head.ctx.buffer.bytes = link.within ∧ IssuesRead head := by
    obtain ⟨head,path,unknown,bytes⟩ := malformed_visits R grow peerAddr M stable link blank malformed
    exact ⟨head,path,unknown,bytes,blank_issuesRead unknown⟩
  refine ⟨⟨?_,?_⟩,buffers⟩
  · rintro detected ⟨blank,malformed⟩
    obtain ⟨head,path,unknown,bytes,reads⟩ := buffers blank malformed
    exact detected head path unknown (bytes ▸ malformed) reads
  · intro wellFormed head path blank malformed
    obtain ⟨first,same⟩ := blank_visits R grow peerAddr M path blank
    exact absurd ⟨first,same ▸ malformed.append (arriving head.socket)⟩ wellFormed

/-- A request's header and the first byte of its body. -/
theorem malformed_detected_request :
    ¬Malformed MessagePackRmps.rmps [0x92, 0xa4, 82, 69, 65, 68, 4, 0x93] ∧
    ∀ head, Visits (readNextBody MessagePackRmps.rmps .exact none RequestBodyOwned)
        (.fresh 16 [[0x92, 0xa4, 82, 69, 65, 68, 4], [0x93]]) head → head.ctx.headerWithTarget = none →
      Malformed MessagePackRmps.rmps head.ctx.buffer.bytes → ¬IssuesRead head := by
  have wellFormed : ¬Malformed MessagePackRmps.rmps [0x92, 0xa4, 82, 69, 65, 68, 4, 0x93] := by
    apply header_front_not_malformed MessagePackRmps.roundTrips ⟨"READ", 4⟩ (by decide) [0x93]
    exact ⟨[],rfl⟩
  exact ⟨wellFormed,(malformed_detected_iff MessagePackRmps.rmps (MessagePackRmps.stable _) .exact none
    RequestBodyOwned _).1.mpr fun malformed => wellFormed malformed.2⟩

/-- `0xc1` starts no value, yet the reader waits behind it for the rest of a header. -/
theorem malformed_buffered :
    Malformed MessagePackRmps.rmps [0xc1] ∧
    ∃ head, Visits (readNextBody MessagePackRmps.rmps .exact none RequestBodyOwned)
        (.fresh 4 [[0xc1], [0, 0]]) head ∧ head.ctx.headerWithTarget = none ∧
      head.ctx.buffer.bytes = [0xc1] ∧ IssuesRead head := by
  have malformed : Malformed MessagePackRmps.rmps [0xc1] := fun more => ⟨_,rfl⟩
  exact ⟨malformed,_,.step rfl .here,rfl,rfl,blank_issuesRead rfl⟩

section Bodies

variable (R : Rmps) (grow : Growth) (peerAddr : Option SocketAddr) (M : Type)

theorem fill_not_bad {link link' : Link} {e : R.Error} :
    fill R grow peerAddr M link ≠ .ret (.returned (.error (.badMessageFormat e)) link') := by
  intro h
  unfold fill at h
  split at h
  · simp at h
  · simp at h
  · dsimp only at h
    split at h <;> simp at h

variable [MessageDecoder M]

theorem readNext_bad {link link' : Link} {e : R.Error}
    (bad : readNext R grow peerAddr M link = .returned (.error (.badMessageFormat e)) link') :
    ∃ head, Visits (readNextBody R grow peerAddr M) link head ∧
      (link' = head ∨ fill R grow peerAddr M head = .next link') ∧ link'.ctx.getState = .done ∧
      takeMessage R grow M link' = .returned (.error (.badMessageFormat e)) link' := by
  obtain ⟨head,path,ends⟩ := readNext_ends R grow peerAddr M link
  rw [bad] at ends
  obtain filled | ⟨middle,arrived,done,taken⟩ := ends
  · exact absurd filled (fill_not_bad R grow peerAddr M)
  · obtain ⟨_,_,⟨_,_,_,rfl⟩ | ⟨_,_,_,_,_,impossible,_⟩⟩ := takeMessage_cases R grow M taken.symm
    · exact ⟨head,path,arrived,done,taken.symm⟩
    · contradiction

theorem readNext_done {link : Link} (done : link.ctx.getState = .done) :
    readNext R grow peerAddr M link = takeMessage R grow M link :=
  run_ret _ (by simp [readNextBody,done])

theorem calls_fixed {link final : Link} {result : Except (MessageReadError R.Error) M}
    {results : List (Except (MessageReadError R.Error) M)}
    (fixed : readNext R grow peerAddr M link = .returned result link)
    (calls : Calls R grow peerAddr M link results final) : final = link ∧ ∀ r ∈ results, r = result := by
  induction calls with
  | nil => exact ⟨rfl,by simp⟩
  | cons returned _ ih =>
    rw [fixed] at returned
    obtain ⟨rfl,rfl⟩ := ReadOutcome.returned.inj returned
    obtain ⟨same,all⟩ := ih fixed
    exact ⟨same,by simpa using all⟩

end Bodies

/-- A bad frame is left as it was found, and stays: each later call of the same kind comes to
the same error without a read, so nothing of it or behind it is ever delivered. -/
theorem bad_frame_permanent (R : Rmps) (grow : Growth) (peerAddr : Option SocketAddr) (M : Type) [MessageDecoder M]
    (link link' : Link) (e : R.Error)
    (bad : readNext R grow peerAddr M link = .returned (.error (.badMessageFormat e)) link') :
    (∃ head middle, Visits (readNextBody R grow peerAddr M) link head ∧
      (middle = head ∨ fill R grow peerAddr M head = .next middle) ∧ middle.ctx.getState = .done ∧
      takeMessage R grow M middle = .returned (.error (.badMessageFormat e)) link' ∧
      link'.ctx.buffer.bytes = middle.ctx.buffer.bytes ∧
      link'.ctx.headerWithTarget = middle.ctx.headerWithTarget) ∧
    ¬IssuesRead link' ∧
    (∀ later, readNext R grow later M link' = .returned (.error (.badMessageFormat e)) link') ∧
    ∀ later results final, Calls R grow later M link' results final →
      final = link' ∧ ∀ result ∈ results, result = .error (.badMessageFormat e) := by
  obtain ⟨head,path,arrived,done,taken⟩ := readNext_bad R grow peerAddr M bad
  have again (later : Option SocketAddr) :
      readNext R grow later M link' = .returned (.error (.badMessageFormat e)) link' :=
    (readNext_done R grow later M done).trans taken
  exact ⟨⟨head,link',path,arrived,done,taken,rfl,rfl⟩,not_not.mpr done,again,
    fun later _ _ calls => calls_fixed R grow later M (again later) calls⟩

/-- A header of an unknown kind, and a request behind it that is never read. -/
theorem bad_frame_permanent_unknown :
    ∃ link', readNext MessagePackRmps.rmps .exact none RequestBodyOwned
        (.fresh 8 [[0x92, 0xa4, 78, 79, 80, 69, 0], [0x92, 0xa5, 65, 76, 76, 79, 67, 2, 0x91, 5]]) =
      .returned (.error (.badMessageFormat MessagePackRmps.rmps.outOfRange)) link' ∧ ¬IssuesRead link' ∧
      readNext MessagePackRmps.rmps .exact none RequestBodyOwned link' =
        .returned (.error (.badMessageFormat MessagePackRmps.rmps.outOfRange)) link' := by
  obtain ⟨link',bad⟩ : ∃ link', readNext MessagePackRmps.rmps .exact none RequestBodyOwned
      (.fresh 8 [[0x92, 0xa4, 78, 79, 80, 69, 0], [0x92, 0xa5, 65, 76, 76, 79, 67, 2, 0x91, 5]]) =
    .returned (.error (.badMessageFormat MessagePackRmps.rmps.outOfRange)) link' := ⟨_,run_ret _ rfl⟩
  have permanent := bad_frame_permanent MessagePackRmps.rmps .exact none RequestBodyOwned _ link' _ bad
  exact ⟨link',bad,permanent.2.1,permanent.2.2.1 none⟩

end Ndp
