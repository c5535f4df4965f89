import Ndp.CodecIsolation
import Ndp.CodecReassembly

/-! One message at a time on one direction of a connection. Where a sender waits for its
answer before it sends again, the reader is idle between two messages: nothing is left in
the socket, in the buffer or of a header. -/
namespace Ndp

/-- What an exchange of messages rests on. -/
structure Rmps.Lawful (R : Rmps) : Prop where
  roundTrips : R.RoundTrips
  stable : R.Stable
  consumes : R.Consumes

/-- Nothing sent and nothing kept. -/
structure Link.Idle (link : Link) : Prop where
  socket : link.socket = []
  blank : link.ctx.headerWithTarget = none
  buffer : link.ctx.buffer.bytes = []

/-- One frame sent, in whatever deliveries, and none of it read. -/
structure Link.Carries (R : Rmps) [MessageKindTagged S] [Serialize S] (m : S) (link : Link) : Prop where
  chunked : Chunked link.socket
  blank : link.ctx.headerWithTarget = none
  buffer : link.ctx.buffer.bytes = []
  frame : unread link.socket = writeTo R m

/-- The deliveries a sequence of bytes may arrive in. -/
structure Delivers (bytes : List UInt8) (chunks : List (List UInt8)) : Prop where
  whole : chunks.flatten = bytes
  nonempty : ∀ chunk ∈ chunks, chunk ≠ []

def Link.send (link : Link) (chunks : List (List UInt8)) : Link :=
  { link with socket := link.socket ++ chunks.map .data }

theorem idle_fresh (capacity : Nat) : (Link.fresh capacity []).Idle := ⟨rfl,rfl,rfl⟩

theorem delivers_nil {chunks : List (List UInt8)} (delivers : Delivers [] chunks) : chunks = [] := by
  rw [List.eq_nil_iff_forall_not_mem]
  intro chunk member
  exact delivers.nonempty chunk member (List.flatten_eq_nil_iff.mp delivers.whole chunk member)

theorem delivers_exists (bytes : List UInt8) : ∃ chunks, Delivers bytes chunks := by
  cases bytes with
  | nil => exact ⟨[],rfl,by simp⟩
  | cons b rest => exact ⟨[b :: rest],by simp,by simp⟩

theorem Link.send_nil (link : Link) : link.send [] = link := by simp [Link.send]

theorem chunked_empty {socket : Socket} (chunked : Chunked socket) (empty : unread socket = []) :
    socket = [] := by
  cases socket with
  | nil => rfl
  | cons event rest =>
    obtain ⟨chunk,nonempty,rfl⟩ := chunked _ (List.mem_cons_self)
    simp only [unread,List.append_eq_nil_iff] at empty
    exact absurd empty.1 nonempty

theorem Link.Idle.send {link : Link} (idle : link.Idle) {R : Rmps} [MessageKindTagged S] [Serialize S]
    {m : S} {chunks : List (List UInt8)} (delivers : Delivers (writeTo R m) chunks) :
    (link.send chunks).Carries R m where
  chunked := by
    simp only [Link.send,idle.socket,List.nil_append]
    exact chunked_map chunks delivers.nonempty
  blank := idle.blank
  buffer := idle.buffer
  frame := by simp [Link.send,idle.socket,delivers.whole]

section Reading

variable {R : Rmps} (grow : Growth) (peerAddr : Option SocketAddr)

theorem readNext_idle (laws : R.Lawful) (M : Type) [MessageDecoder M] {link : Link} (idle : link.Idle) :
    ∃ link',
      readNext R grow peerAddr M link = .returned (.error (.peerDisconnectedGracefully peerAddr)) link' := by
  have steady := steady_of_stable laws.stable laws.consumes []
  have tail : link.tail = [] := by simp [Link.tail,idle.socket,idle.buffer,unread]
  obtain ⟨e,refused⟩ := steady.rejects_empty
  obtain ⟨link',closed,_⟩ := readNext_short R grow peerAddr M link
    (by simp [Chunked,idle.socket]) (fun _ => tail ▸ steady) (fun _ => ⟨e,idle.buffer ▸ refused⟩)
    (by simp [pending_blank idle.blank,tail,frameAt_error refused])
  exact ⟨link',closed⟩

theorem stands_nil (consumes : R.Consumes) {link : Link} (chunked : Chunked link.socket)
    (stands : link.Stands R []) : link.Idle := by
  unfold Link.Stands at stands
  cases known : link.ctx.headerWithTarget with
  | some target =>
    simp only [known] at stands
    obtain ⟨position,found,_⟩ := stands
    have bounds := headerAt_consumes consumes found
    simp only [List.length_nil] at bounds
    omega
  | none =>
    simp only [known,Link.tail,List.append_eq_nil_iff] at stands
    exact ⟨chunked_empty chunked stands.2,known,stands.1⟩

variable [MessageKindTagged S] [Serialize S]

theorem Link.Carries.socket_ne (laws : R.Lawful) {m : S} {link : Link}
    (carries : link.Carries R m) : link.socket ≠ [] := by
  intro empty
  have frame := carries.frame
  rw [empty,unread,writeTo,eq_comm,List.append_eq_nil_iff] at frame
  have found := headerAt_header laws.roundTrips m [] (by rw [headerBytes,frame.1]; decide)
  rw [headerBytes,frame.1] at found
  have bounds := headerAt_consumes laws.consumes found
  simp at bounds

theorem readNext_carries (laws : R.Lawful) (d : Direction) (toOwned : S → d.Message) {m : S}
    (accepted : Accepted R toOwned m) {link : Link} (carries : link.Carries R m) : ∃ link',
      readNext R grow peerAddr d.Message link = .returned (.ok (toOwned m)) link' ∧ link'.Idle := by
  have steady := steady_of_stable laws.stable laws.consumes
  have tail : link.tail = writeTo R m := by simp [Link.tail,carries.buffer,carries.frame]
  obtain ⟨e,refused⟩ := (steady []).rejects_empty
  obtain ⟨link',returned,chunked,_⟩ := readNext_frame R grow peerAddr toOwned laws.roundTrips m accepted []
    (steady []) link carries.chunked (fun _ => steady _) (fun _ => ⟨e,carries.buffer ▸ refused⟩)
    (by rw [pending_blank carries.blank,tail,List.append_nil])
    (by rw [List.append_nil]; exact accepted.short)
  refine ⟨link',returned,?_⟩
  have stands : link.Stands R (writeTo R m) := by simpa only [Link.Stands,carries.blank] using tail
  have short := accepted.short
  have frame : writeTo R m = headerBytes R m ++ Serialize.serialize R m := rfl
  rw [frame,List.length_append] at short
  cases readNext_moves R grow peerAddr laws.stable laws.consumes d stands returned with
  | takes header position count _ found _ decoded moved =>
    have own := headerAt_header laws.roundTrips m (Serialize.serialize R m) (by omega)
    rw [frame,own] at found
    obtain ⟨rfl,rfl⟩ := Prod.mk.inj (Except.ok.inj found)
    rw [frame,Nat.mod_eq_of_lt (by omega),List.drop_left] at decoded
    have alone := accepted.decodes []
    rw [List.append_nil] at alone
    obtain rfl := (Prod.mk.inj (Except.ok.inj (decoded.symm.trans alone))).2
    rw [frame,Nat.mod_eq_of_lt (by omega),List.drop_eq_nil_of_le (by simp)] at moved
    exact stands_nil laws.consumes chunked moved

end Reading

theorem accepted_request {R : Rmps} (laws : R.Lawful) {q : RequestBody} (sendable : q.isInvoke = false)
    (short : (writeTo R q).length < 2 ^ 32) : Accepted R RequestBody.toOwned q := by
  refine ⟨short,fun rest => q.decode_serialize laws.roundTrips sendable rest ?_⟩
  rw [writeTo,List.length_append] at short
  omega

theorem accepted_response {R : Rmps} (laws : R.Lawful) {r : ResponseBody}
    (short : (writeTo R r).length < 2 ^ 32) : Accepted R ResponseBody.toOwned r := by
  refine ⟨short,fun rest => r.decode_serialize laws.roundTrips rest ?_⟩
  rw [writeTo,List.length_append] at short
  omega

end Ndp
