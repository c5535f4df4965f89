import Ndp.CodecProgress

/-! What becomes of the read buffer's capacity. Messages are taken off its front, capacity and
contents alike, so the room behind the contents stays; `regrow` then asks for room and not for
capacity, and gets nothing where that much room is left. Which deliveries a call takes in, and what
it leaves in the buffer, is decided by the bytes alone, and so is what can be said of the capacity
whatever the allocator does. -/
namespace Ndp

open Looping

/-- The room behind the contents. -/
def BytesMut.room (b : BytesMut) : Nat := b.capacity - b.bytes.length

/-- What `read_buf` does with a delivery. -/
def BytesMut.takeIn (grow : Growth) (b : BytesMut) (chunk : List UInt8) : BytesMut :=
  (if b.capacity = b.len then b.reserve grow 64 else b).extend grow chunk

/-- An allocator that gives so much more than it is asked for, but only for a buffer that is full. -/
def Growth.fromFull (more : Nat) : Growth where
  newCapacity len capacity additional := len + additional + if capacity = len then more else 0
  enough len capacity additional := by split <;> omega

namespace BytesMut

variable {b : BytesMut} {chunk : List UInt8}

theorem capacity_eq (b : BytesMut) : b.capacity = b.bytes.length + b.room := by
  have := b.fits
  unfold room
  omega

theorem advance_room {b' : BytesMut} {count : Nat} (h : b.advance count = .ok b') : b'.room = b.room := by
  unfold advance at h
  split at h
  · cases h
    simp only [room,List.length_drop]
    omega
  · contradiction

theorem reserve_self (grow : Growth) {additional : Nat} (fits : additional ≤ b.room) : b.reserve grow additional = b :=
  dif_pos fits

theorem takeIn_bytes (grow : Growth) (b : BytesMut) (chunk : List UInt8) :
    (b.takeIn grow chunk).bytes = b.bytes ++ chunk := by
  rw [takeIn,extend_bytes]
  split <;> simp

theorem extend_room (grow : Growth) (fits : chunk.length ≤ b.room) : (b.extend grow chunk).room + chunk.length = b.room := by
  unfold extend
  simp only [reserve_self grow fits]
  unfold room at fits ⊢
  simp only [List.length_append]
  omega

theorem takeIn_fits (grow : Growth) (nonempty : chunk ≠ []) (fits : chunk.length ≤ b.room) :
    (b.takeIn grow chunk).room + chunk.length = b.room := by
  have positive := List.length_pos_iff.mpr nonempty
  have open' : b.capacity ≠ b.len := by
    have := b.capacity_eq
    unfold len
    omega
  rw [takeIn,if_neg open']
  exact extend_room grow fits

theorem takeIn_full (grow : Growth) (full : b.room = 0) : 64 ≤ (b.takeIn grow chunk).room + chunk.length := by
  have filled : b.capacity = b.len := by rw [capacity_eq,full,len,Nat.add_zero]
  have least := reserve_room grow b 64
  rw [takeIn,if_pos filled]
  generalize reserved : b.reserve grow 64 = c at least
  have same : c.bytes = b.bytes := by rw [← reserved,reserve_bytes]
  have more := reserve_room grow c chunk.length
  have bytes : (c.extend grow chunk).bytes.length = b.bytes.length + chunk.length := by
    rw [extend_bytes,List.length_append,same]
  have capacity : c.capacity ≤ (c.extend grow chunk).capacity := by
    change c.capacity ≤ (c.reserve grow chunk.length).capacity
    unfold reserve
    split
    · exact Nat.le_refl _
    · have := grow.enough c.bytes.length c.capacity chunk.length
      simp only
      omega
  have := (c.extend grow chunk).capacity_eq
  omega

theorem takeIn_fromFull (more : Nat) (full : b.room = 0) (within : chunk.length ≤ 64 + more) :
    (b.takeIn (.fromFull more) chunk).room + chunk.length = 64 + more := by
  have filled : b.capacity = b.len := by rw [capacity_eq,full,len,Nat.add_zero]
  have reserved : (b.reserve (.fromFull more) 64).room = 64 + more := by
    have short : ¬64 ≤ b.capacity - b.bytes.length := by
      rw [← room,full]
      decide
    rw [reserve,dif_neg short,room]
    simp only [Growth.fromFull,if_pos (show b.capacity = b.bytes.length from filled)]
    omega
  rw [takeIn,if_pos filled,extend_room _ (by rwa [reserved]),reserved]

end BytesMut

/-- The capacity comes to what it was at first: it never fell below, or too little room was left and the
allocation made for the difference is large enough. -/
def Regains (grow : Growth) (initial left room : Nat) : Prop :=
  initial ≤ left + room ∨
    (room < initial - (left + room) ∧ initial ≤ grow.newCapacity left (left + room) (initial - (left + room)))

theorem regains_of {grow : Growth} {initial left room : Nat} (h : room = 0 ∨ initial ≤ left + room) :
    Regains grow initial left room := by
  have enough := grow.enough left (left + room) (initial - (left + room))
  unfold Regains
  omega

theorem regains_fromFull {more initial left room : Nat} (open' : 0 < room) (regains : Regains (.fromFull more) initial left room) :
    initial ≤ left + room := by
  have grown : (Growth.fromFull more).newCapacity left (left + room) (initial - (left + room)) =
      left + (initial - (left + room)) := by
    simp only [Growth.fromFull,if_neg (show left + room ≠ left by omega),Nat.add_zero]
  unfold Regains at regains
  omega

theorem regrow_regains (grow : Growth) (ctx : BufferContext) :
    ctx.initialCapacity ≤ (ctx.regrow grow).buffer.capacity ↔
      Regains grow ctx.initialCapacity ctx.buffer.bytes.length ctx.buffer.room := by
  unfold Regains
  rw [← ctx.buffer.capacity_eq,BytesMut.room]
  by_cases lost : ctx.buffer.capacity < ctx.initialCapacity
  · rw [BufferContext.regrow,if_pos lost.le,BytesMut.reserve]
    split
    · simp only
      omega
    · simp only
      omega
  · have kept : ctx.initialCapacity ≤ (ctx.regrow grow).buffer.capacity := by
      unfold BufferContext.regrow BytesMut.reserve
      split
      · split
        · exact Nat.le_of_not_lt lost
        · omega
      · exact Nat.le_of_not_lt lost
    exact ⟨fun _ => .inl (Nat.le_of_not_lt lost),fun _ => kept⟩

namespace BufferContext

/-- The frame a context stands at once some more bytes have arrived: its header, and what there is behind it. -/
def held (R : Rmps) (ctx : BufferContext) (more : List UInt8) : Option (MessageHeader × List UInt8) :=
  match ctx.headerWithTarget with
  | some target => some (target.header, ctx.buffer.bytes ++ more)
  | none => frameAt R (ctx.buffer.bytes ++ more)

/-- The frame is complete then. -/
def Complete (R : Rmps) (ctx : BufferContext) (more : List UInt8) : Prop :=
  ∃ header body, ctx.held R more = some (header, body) ∧ header.length.toNat ≤ body.length % 2 ^ 32

/-- These are the deliveries a call needs: none of them is empty, and the last one completes the frame. -/
def Needs (R : Rmps) (ctx : BufferContext) : List UInt8 → List (List UInt8) → Prop
  | read, [] => ctx.Complete R read
  | read, chunk :: rest => ¬ctx.Complete R read ∧ chunk ≠ [] ∧ ctx.Needs R (read ++ chunk) rest

/-- The context behind a delivery, with a header looked for if none is known. -/
def receive (R : Rmps) (grow : Growth) (ctx : BufferContext) (chunk : List UInt8) : BufferContext :=
  let full := { ctx with buffer := ctx.buffer.takeIn grow chunk }
  match ctx.headerWithTarget with
  | some _ => full
  | none =>
    match full.tryReadHeader R with
    | .ok (_, ctx) => ctx
    | .error _ => full

end BufferContext

/-- What is kept of bytes behind a message: the next header goes at once if it is there. -/
def kept (R : Rmps) (bytes : List UInt8) : List UInt8 :=
  match headerAt R bytes with
  | .ok (_, position) => bytes.drop (position % 2 ^ 32)
  | .error _ => bytes

section Call

variable (R : Rmps) (grow : Growth) (peerAddr : Option SocketAddr) (M : Type)

theorem tryReadHeader_room {ctx ctx' : BufferContext} {result : Except R.Error Unit}
    (h : ctx.tryReadHeader R = .ok (result, ctx')) :
    ctx'.initialCapacity = ctx.initialCapacity ∧ ctx'.buffer.room = ctx.buffer.room := by
  unfold BufferContext.tryReadHeader at h
  split at h
  · dsimp only at h
    split at h
    · rename_i advanced
      cases h
      exact ⟨rfl,BytesMut.advance_room advanced⟩
    · cases h
  · cases h
    exact ⟨rfl,rfl⟩

theorem tryReadHeader_kept {ctx ctx' : BufferContext} {result : Except R.Error Unit}
    (h : ctx.tryReadHeader R = .ok (result, ctx')) : ctx'.buffer.bytes = kept R ctx.buffer.bytes := by
  rcases tryReadHeader_cases R h with ⟨e,refused,rfl⟩ | ⟨header,position,found,_,bytes⟩
  · simp only [kept,refused]
  · simp only [kept,found,bytes]

theorem receive_room (ctx : BufferContext) (chunk : List UInt8) :
    (ctx.receive R grow chunk).initialCapacity = ctx.initialCapacity ∧
      (ctx.receive R grow chunk).buffer.room = (ctx.buffer.takeIn grow chunk).room := by
  unfold BufferContext.receive
  dsimp only
  split
  · exact ⟨rfl,rfl⟩
  · split
    · next tried => exact tryReadHeader_room R tried
    · exact ⟨rfl,rfl⟩

theorem receive_settled (consumes : R.Consumes) (ctx : BufferContext) (chunk : List UInt8) :
    Settled R (ctx.receive R grow chunk) := by
  unfold BufferContext.receive
  dsimp only
  split
  · next known => exact fun blank => by simp [known] at blank
  · next known =>
    split
    · next tried => exact (@attempt_sound R { ctx with buffer := ctx.buffer.takeIn grow chunk } _ _ [] known tried).1
    · next tried => exact absurd tried (attempt_no_panic R consumes _ _)

theorem held_receive (stable : R.StableAt MessageHeader.fields) (consumes : R.Consumes) (ctx : BufferContext)
    (chunk more : List UInt8) : (ctx.receive R grow chunk).held R more = ctx.held R (chunk ++ more) := by
  unfold BufferContext.receive
  dsimp only
  cases known : ctx.headerWithTarget with
  | some target => simp [BufferContext.held,known,BytesMut.takeIn_bytes]
  | none =>
    dsimp only
    split
    · next tried =>
      rcases tryReadHeader_cases R tried with ⟨e,_,rfl⟩ | ⟨header,position,found,now,bytes⟩
      · simp [BufferContext.held,known,BytesMut.takeIn_bytes]
      · rw [BytesMut.takeIn_bytes] at found bytes
        have within := (headerAt_consumes consumes found).2
        have taken := (Nat.mod_le position (2 ^ 32)).trans within
        simp only [BufferContext.held,known,now,bytes]
        rw [← List.append_assoc,frameAt_ok (headerAt_stable stable more found),← List.drop_append_of_le_length taken]
    · next tried => exact absurd tried (attempt_no_panic R consumes _ _)

theorem complete_receive (stable : R.StableAt MessageHeader.fields) (consumes : R.Consumes) (ctx : BufferContext)
    (chunk more : List UInt8) : (ctx.receive R grow chunk).Complete R more ↔ ctx.Complete R (chunk ++ more) := by
  unfold BufferContext.Complete
  rw [held_receive R grow stable consumes]

theorem needs_receive (stable : R.StableAt MessageHeader.fields) (consumes : R.Consumes) (ctx : BufferContext)
    (chunk read : List UInt8) (needed : List (List UInt8)) :
    (ctx.receive R grow chunk).Needs R read needed ↔ ctx.Needs R (chunk ++ read) needed := by
  induction needed generalizing read with
  | nil => exact complete_receive R grow stable consumes ctx chunk read
  | cons next rest ih =>
    simp only [BufferContext.Needs]
    rw [complete_receive R grow stable consumes,ih,List.append_assoc]

theorem complete_iff_done {ctx : BufferContext} (settled : Settled R ctx) : ctx.Complete R [] ↔ ctx.getState = .done := by
  rw [BufferContext.getState_done_iff,BufferContext.Complete,BufferContext.held,List.append_nil]
  cases known : ctx.headerWithTarget with
  | none =>
    obtain ⟨e,refused⟩ := settled known
    simp [frameAt_error refused]
  | some target => simp

theorem fill_receive (consumes : R.Consumes) (ctx : BufferContext) {chunk : List UInt8} (nonempty : chunk ≠ []) (rest : Socket) :
    fill R grow peerAddr M ⟨.data chunk :: rest, ctx⟩ = .next ⟨rest, ctx.receive R grow chunk⟩ := by
  obtain ⟨b,bs,rfl⟩ := List.exists_cons_of_ne_nil nonempty
  have read : readBuf grow (.data (b :: bs) :: rest) ctx.buffer =
      (.ok (bs.length + 1), rest, ctx.buffer.takeIn grow (b :: bs)) := rfl
  have blank := getState_blank_iff ctx
  unfold fill BufferContext.receive
  simp only [read,blank]
  obtain ⟨initial,buffer,header⟩ := ctx
  cases header with
  | some target => rfl
  | none =>
    simp only [↓reduceIte]
    split
    · next tried => exact absurd tried (attempt_no_panic R consumes _ _)
    · next tried => simp only [tried]

variable [MessageDecoder M]

theorem takeMessage_leaves (stable : R.StableAt MessageHeader.fields) (consumes : R.Consumes) (bodies : BodyConsumes R M)
    (socket : Socket) {ctx : BufferContext} {target : MessageHeaderDecoded} {m : M} {count : Nat}
    (known : ctx.headerWithTarget = some target)
    (decoded : MessageDecoder.decode R target.header.kind ctx.buffer.bytes = .ok (m, count)) :
    ∃ ctx' : BufferContext, takeMessage R grow M ⟨socket, ctx⟩ = .returned (.ok m) ⟨socket, ctx'.regrow grow⟩ ∧
      ctx'.initialCapacity = ctx.initialCapacity ∧ ctx'.buffer.room = ctx.buffer.room ∧
      ctx'.buffer.bytes = kept R (ctx.buffer.bytes.drop count) := by
  obtain ⟨buffer,advanced,bytes⟩ := BytesMut.advance_ok (bodies _ _ _ _ decoded).2
  have room := BytesMut.advance_room advanced
  by_cases left : 0 < buffer.len
  · obtain ⟨result,ctx',tried,_⟩ := attempt_spec ⟨socket,{ ctx with buffer := buffer, headerWithTarget := none }⟩ rfl
      (steady_of_stableAt stable consumes _)
    obtain ⟨initial,same⟩ := tryReadHeader_room R tried
    refine ⟨ctx',?_,initial,same.trans room,?_⟩
    · simp only at tried
      simp only [takeMessage,known,readFrom,decoded,advanced,if_pos left,tried]
    · rw [tryReadHeader_kept R tried,bytes]
  · have nothing : buffer.bytes = [] := by simpa only [BytesMut.len,List.length_pos_iff,not_not] using left
    obtain ⟨e,refused⟩ := headerAt_nil consumes.rejectsEmpty
    refine ⟨{ ctx with buffer := buffer, headerWithTarget := none },?_,rfl,room,?_⟩
    · simp only [takeMessage,known,readFrom,decoded,advanced,if_neg left]
    · rw [← bytes,nothing]
      simp only [kept,refused]

theorem readNext_at_done {socket : Socket} {ctx : BufferContext} (done : ctx.getState = .done) :
    readNext R grow peerAddr M ⟨socket, ctx⟩ = takeMessage R grow M ⟨socket, ctx⟩ :=
  run_ret _ (by simp [readNextBody,done])

theorem readNext_receive (consumes : R.Consumes) {ctx : BufferContext} (waiting : ctx.getState ≠ .done) {chunk : List UInt8}
    (nonempty : chunk ≠ []) (rest : Socket) :
    readNext R grow peerAddr M ⟨.data chunk :: rest, ctx⟩ = readNext R grow peerAddr M ⟨rest, ctx.receive R grow chunk⟩ := by
  have filled := fill_receive R grow peerAddr M consumes ctx nonempty rest
  by_cases now : (ctx.receive R grow chunk).getState = .done
  · rw [readNext_at_done R grow peerAddr M now]
    exact run_ret _ (by simp [readNextBody,waiting,filled,now])
  · exact run_next _ (by simp [readNextBody,waiting,filled,now])

theorem readNext_receives (stable : R.StableAt MessageHeader.fields) (consumes : R.Consumes) {ctx : BufferContext}
    (settled : Settled R ctx) {needed : List (List UInt8)} (needs : ctx.Needs R [] needed) (rest : Socket) :
    readNext R grow peerAddr M ⟨needed.map .data ++ rest, ctx⟩ =
      takeMessage R grow M ⟨rest, needed.foldl (BufferContext.receive R grow) ctx⟩ ∧
    (needed.foldl (BufferContext.receive R grow) ctx).getState = .done := by
  induction needed generalizing ctx with
  | nil =>
    have done := (complete_iff_done R settled).mp needs
    exact ⟨readNext_at_done R grow peerAddr M done,done⟩
  | cons chunk needed ih =>
    obtain ⟨waits,nonempty,later⟩ := needs
    have waiting : ctx.getState ≠ .done := mt (complete_iff_done R settled).mpr waits
    obtain ⟨taken,done⟩ := ih (receive_settled R grow consumes ctx chunk)
      ((needs_receive R grow stable consumes ctx chunk [] needed).mpr (by rwa [List.append_nil]))
    exact ⟨(readNext_receive R grow peerAddr M consumes waiting nonempty _).trans taken,done⟩

theorem readNext_needed_at_done {socket : Socket} {ctx : BufferContext} (settled : Settled R ctx) {m : M} {link' : Link}
    (done : ctx.getState = .done) (returned : readNext R grow peerAddr M ⟨socket, ctx⟩ = .returned (.ok m) link') :
    ∃ needed rest header body count, socket = needed.map .data ++ rest ∧ ctx.Needs R [] needed ∧
      ctx.held R needed.flatten = some (header, body) ∧ MessageDecoder.decode R header.kind body = .ok (m, count) := by
  rw [readNext_at_done R grow peerAddr M done] at returned
  obtain ⟨target,known,⟨e,_,impossible,_⟩ | ⟨m',count,_,_,_,same,decoded,_⟩⟩ := takeMessage_cases R grow M returned
  · contradiction
  · cases same
    refine ⟨[],socket,target.header,ctx.buffer.bytes,count,rfl,(complete_iff_done R settled).mpr done,?_,decoded⟩
    simp only at known
    simp [BufferContext.held,known]

theorem readNext_needed (stable : R.StableAt MessageHeader.fields) (consumes : R.Consumes) {socket : Socket}
    {ctx : BufferContext} (settled : Settled R ctx) {m : M} {link' : Link}
    (returned : readNext R grow peerAddr M ⟨socket, ctx⟩ = .returned (.ok m) link') :
    ∃ needed rest header body count, socket = needed.map .data ++ rest ∧ ctx.Needs R [] needed ∧
      ctx.held R needed.flatten = some (header, body) ∧ MessageDecoder.decode R header.kind body = .ok (m, count) := by
  induction socket generalizing ctx with
  | nil =>
    by_cases done : ctx.getState = .done
    · exact readNext_needed_at_done R grow peerAddr M settled done returned
    · have : readNext R grow peerAddr M ⟨[], ctx⟩ = _ := run_ret _ (by simp [readNextBody,done,fill,readBuf]; rfl)
      simp [this] at returned
  | cons event rest ih =>
    by_cases done : ctx.getState = .done
    · exact readNext_needed_at_done R grow peerAddr M settled done returned
    · have data : ∃ chunk, chunk ≠ [] ∧ event = .data chunk := by
        cases event with
        | failed e =>
          have : readNext R grow peerAddr M ⟨.failed e :: rest, ctx⟩ = _ :=
            run_ret _ (by simp [readNextBody,done,fill,readBuf]; rfl)
          simp [this] at returned
        | data chunk =>
          cases chunk with
          | nil =>
            have : readNext R grow peerAddr M ⟨.data [] :: rest, ctx⟩ = _ :=
              run_ret _ (by simp [readNextBody,done,fill,readBuf]; rfl)
            simp [this] at returned
          | cons b bs => exact ⟨b :: bs,by simp,rfl⟩
      obtain ⟨chunk,nonempty,rfl⟩ := data
      rw [readNext_receive R grow peerAddr M consumes done nonempty] at returned
      obtain ⟨needed,others,header,body,count,rfl,needs,frame,decoded⟩ := ih (receive_settled R grow consumes ctx chunk) returned
      refine ⟨chunk :: needed,others,header,body,count,rfl,⟨mt (complete_iff_done R settled).mp done,nonempty,?_⟩,?_,decoded⟩
      · simpa using (needs_receive R grow stable consumes ctx chunk [] needed).mp needs
      · rwa [held_receive R grow stable consumes] at frame

end Call

section Rooms

variable (R : Rmps) (grow : Growth)

theorem received_initial (ctx : BufferContext) (needed : List (List UInt8)) :
    (needed.foldl (BufferContext.receive R grow) ctx).initialCapacity = ctx.initialCapacity := by
  induction needed generalizing ctx with
  | nil => rfl
  | cons chunk needed ih => rw [List.foldl_cons,ih,(receive_room R grow ctx chunk).1]

theorem received_held (stable : R.StableAt MessageHeader.fields) (consumes : R.Consumes) (ctx : BufferContext)
    (needed : List (List UInt8)) (more : List UInt8) :
    (needed.foldl (BufferContext.receive R grow) ctx).held R more = ctx.held R (needed.flatten ++ more) := by
  induction needed generalizing ctx with
  | nil => rfl
  | cons chunk needed ih =>
    rw [List.foldl_cons,ih,held_receive R grow stable consumes,List.flatten_cons,List.append_assoc]

theorem received_fits {ctx : BufferContext} {needed : List (List UInt8)} (nonempty : ∀ chunk ∈ needed, chunk ≠ [])
    (fits : needed.flatten.length ≤ ctx.buffer.room) :
    (needed.foldl (BufferContext.receive R grow) ctx).buffer.room + needed.flatten.length = ctx.buffer.room := by
  induction needed generalizing ctx with
  | nil => rfl
  | cons chunk needed ih =>
    rw [List.flatten_cons,List.length_append] at fits ⊢
    have first := BytesMut.takeIn_fits grow (nonempty chunk List.mem_cons_self) (show chunk.length ≤ ctx.buffer.room by omega)
    rw [← (receive_room R grow ctx chunk).2] at first
    have rest := ih (fun c member => nonempty c (List.mem_cons_of_mem _ member))
      (show needed.flatten.length ≤ (ctx.receive R grow chunk).buffer.room by omega)
    rw [List.foldl_cons]
    omega

theorem received_full {ctx : BufferContext} {needed : List (List UInt8)} (nonempty : ∀ chunk ∈ needed, chunk ≠ [])
    (full : ctx.buffer.room = 0) (others : needed ≠ []) :
    64 ≤ (needed.foldl (BufferContext.receive R grow) ctx).buffer.room + needed.flatten.length := by
  by_cases few : needed.flatten.length ≤ 64
  · obtain ⟨chunk,needed,rfl⟩ := List.exists_cons_of_ne_nil others
    rw [List.flatten_cons,List.length_append] at few ⊢
    have first := @BytesMut.takeIn_full ctx.buffer chunk grow full
    rw [← (receive_room R grow ctx chunk).2] at first
    have rest := @received_fits R grow (ctx.receive R grow chunk) needed
      (fun c member => nonempty c (List.mem_cons_of_mem _ member)) (by omega)
    rw [List.foldl_cons]
    omega
  · omega

theorem received_fromFull {more : Nat} {ctx : BufferContext} {needed : List (List UInt8)}
    (nonempty : ∀ chunk ∈ needed, chunk ≠ []) (full : ctx.buffer.room = 0) (others : needed ≠ [])
    (few : needed.flatten.length ≤ 64 + more) :
    (needed.foldl (BufferContext.receive R (.fromFull more)) ctx).buffer.room + needed.flatten.length = 64 + more := by
  obtain ⟨chunk,needed,rfl⟩ := List.exists_cons_of_ne_nil others
  rw [List.flatten_cons,List.length_append] at few ⊢
  have first := BytesMut.takeIn_fromFull more full (show chunk.length ≤ 64 + more by omega)
  rw [← (receive_room R (.fromFull more) ctx chunk).2] at first
  have rest := @received_fits R (.fromFull more) (ctx.receive R (.fromFull more) chunk) needed
    (fun c member => nonempty c (List.mem_cons_of_mem _ member)) (by omega)
  rw [List.foldl_cons]
  omega

end Rooms

theorem needs_nonempty {R : Rmps} {ctx : BufferContext} {read : List UInt8} {needed : List (List UInt8)}
    (needs : ctx.Needs R read needed) : ∀ chunk ∈ needed, chunk ≠ [] := by
  induction needed generalizing read with
  | nil => simp
  | cons chunk needed ih =>
    obtain ⟨_,nonempty,others⟩ := needs
    exact List.forall_mem_cons.mpr ⟨nonempty,ih others⟩

/-- No read takes in more than the room there is: the deliveries fit, or some of them fill it. -/
def Fill (room : Nat) (needed : List (List UInt8)) : Prop :=
  needed.flatten.length ≤ room ∨ ∃ fit more, needed = fit ++ more ∧ fit.flatten.length = room

/-- What the capacity is sure to come back to, from the room before a call, the deliveries it needs and the bytes
it leaves: the deliveries fit, and the capacity never falls below or they take up all the room; or the buffer gets
full, and 64 bytes of room for what is still to come, or one byte, are enough. -/
def Assured (initial left room read : Nat) : Prop :=
  if read ≤ room then initial ≤ left + (room - read) ∨ read = room else initial ≤ left + max (64 - (read - room)) 1

theorem fitting_assured (R : Rmps) (initial left : Nat) {ctx : BufferContext} {needed : List (List UInt8)}
    (nonempty : ∀ chunk ∈ needed, chunk ≠ []) (fits : needed.flatten.length ≤ ctx.buffer.room) :
    (∀ grow, Regains grow initial left (needed.foldl (BufferContext.receive R grow) ctx).buffer.room) ↔
      (initial ≤ left + (ctx.buffer.room - needed.flatten.length) ∨ needed.flatten.length = ctx.buffer.room) := by
  have room (grow : Growth) : (needed.foldl (BufferContext.receive R grow) ctx).buffer.room =
      ctx.buffer.room - needed.flatten.length := by
    have := received_fits R grow nonempty fits
    omega
  simp only [room]
  constructor
  · intro always
    by_cases all : needed.flatten.length = ctx.buffer.room
    · exact .inr all
    · exact .inl (regains_fromFull (by omega) (always (.fromFull 0)))
  · intro assured grow
    exact regains_of (assured.symm.imp_left (by omega))

/-- Once the buffer has been full, the least room an allocator can leave decides. -/
theorem spilling_assured (R : Rmps) (initial left : Nat) {ctx : BufferContext} {more : List (List UInt8)}
    (nonempty : ∀ chunk ∈ more, chunk ≠ []) (others : more ≠ []) (fit : List (List UInt8))
    (full : ∀ grow, (fit.foldl (BufferContext.receive R grow) ctx).buffer.room = 0) :
    (∀ grow, Regains grow initial left ((fit ++ more).foldl (BufferContext.receive R grow) ctx).buffer.room) ↔
      initial ≤ left + max (64 - more.flatten.length) 1 := by
  simp only [List.foldl_append]
  constructor
  · intro always
    obtain ⟨extra,given⟩ : ∃ extra, extra = more.flatten.length - 63 := ⟨_,rfl⟩
    have few : more.flatten.length ≤ 64 + extra := by omega
    have room := received_fromFull R nonempty (full (.fromFull extra)) others few
    have := regains_fromFull (by omega) (always (.fromFull extra))
    omega
  · intro assured grow
    have least := received_full R grow nonempty (full grow) others
    apply regains_of
    omega

/-- What a call that needs certain deliveries returns, and when the capacity is regained by it. -/
theorem readNext_regains (R : Rmps) (grow : Growth) (stable : R.StableAt MessageHeader.fields) (consumes : R.Consumes)
    (peerAddr : Option SocketAddr) (M : Type) [MessageDecoder M] (bodies : BodyConsumes R M) {ctx : BufferContext}
    (settled : Settled R ctx) {needed : List (List UInt8)} (rest : Socket) (needs : ctx.Needs R [] needed)
    {header : MessageHeader} {body : List UInt8} (frame : ctx.held R needed.flatten = some (header, body)) {m : M} {count : Nat}
    (decoded : MessageDecoder.decode R header.kind body = .ok (m, count)) :
    ∃ link', readNext R grow peerAddr M ⟨needed.map .data ++ rest, ctx⟩ = .returned (.ok m) link' ∧
      (ctx.initialCapacity ≤ link'.ctx.buffer.capacity ↔ Regains grow ctx.initialCapacity (kept R (body.drop count)).length
        (needed.foldl (BufferContext.receive R grow) ctx).buffer.room) := by
  obtain ⟨reads,done⟩ := readNext_receives R grow peerAddr M stable consumes settled needs rest
  obtain ⟨target,known,_⟩ := (BufferContext.getState_done_iff _).mp done
  have held := received_held R grow stable consumes ctx needed []
  rw [List.append_nil,frame] at held
  simp only [BufferContext.held,known,List.append_nil] at held
  obtain ⟨rfl,rfl⟩ := Prod.mk.inj (Option.some.inj held)
  obtain ⟨final,taken,initial,room,bytes⟩ := takeMessage_leaves R grow M stable consumes bodies rest known decoded
  refine ⟨_,reads.trans taken,?_⟩
  have regained := regrow_regains grow final
  rw [bytes,room,initial,received_initial] at regained
  exact regained

/-- A call that returns a message is one that needed certain deliveries. It then returns the message whatever the
allocator does, and the capacity is then what it was at first, whatever the allocator does, exactly if that is
assured by what there is before the call: the room in the buffer, the bytes the deliveries bring and those that
will be left of them. -/
theorem capacity_regained_iff (R : Rmps) (stable : R.StableAt MessageHeader.fields) (consumes : R.Consumes)
    (peerAddr : Option SocketAddr) (M : Type) [MessageDecoder M] (bodies : BodyConsumes R M) (ctx : BufferContext)
    (settled : Settled R ctx) (m : M) :
    (∀ grow socket link', readNext R grow peerAddr M ⟨socket, ctx⟩ = .returned (.ok m) link' →
      ∃ needed rest header body count, socket = needed.map .data ++ rest ∧ ctx.Needs R [] needed ∧
        ctx.held R needed.flatten = some (header, body) ∧ MessageDecoder.decode R header.kind body = .ok (m, count)) ∧
    ∀ needed rest header body count, ctx.Needs R [] needed → ctx.held R needed.flatten = some (header, body) →
      MessageDecoder.decode R header.kind body = .ok (m, count) → Fill ctx.buffer.room needed →
      ((∀ grow, ∃ link', readNext R grow peerAddr M ⟨needed.map .data ++ rest, ctx⟩ = .returned (.ok m) link' ∧
        ctx.initialCapacity ≤ link'.ctx.buffer.capacity) ↔
      Assured ctx.initialCapacity (kept R (body.drop count)).length ctx.buffer.room needed.flatten.length) := by
  refine ⟨fun grow socket link' => readNext_needed R grow peerAddr M stable consumes settled,?_⟩
  intro needed rest header body count needs frame decoded within
  have regained (grow : Growth) : (∃ link', readNext R grow peerAddr M ⟨needed.map .data ++ rest, ctx⟩ =
        .returned (.ok m) link' ∧ ctx.initialCapacity ≤ link'.ctx.buffer.capacity) ↔
      Regains grow ctx.initialCapacity (kept R (body.drop count)).length
        (needed.foldl (BufferContext.receive R grow) ctx).buffer.room := by
    obtain ⟨link',returned,iff⟩ := readNext_regains R grow stable consumes peerAddr M bodies settled rest needs frame decoded
    rw [returned]
    constructor
    · rintro ⟨link'',same,capacity⟩
      obtain ⟨-,rfl⟩ := ReadOutcome.returned.inj same
      exact iff.mp capacity
    · exact fun regains => ⟨link',rfl,iff.mpr regains⟩
  have nonempty := needs_nonempty needs
  rw [forall_congr' regained,Assured]
  split
  · next fits => exact fitting_assured R _ _ nonempty fits
  · next spills =>
    obtain ⟨fit,more,rfl,filled⟩ := within.resolve_left spills
    rw [List.flatten_append,List.length_append] at spills ⊢
    have others : more ≠ [] := by
      rintro rfl
      rw [List.flatten_nil,List.length_nil,filled] at spills
      omega
    have full (grow : Growth) : (fit.foldl (BufferContext.receive R grow) ctx).buffer.room = 0 := by
      have := received_fits R grow (fun c member => nonempty c (List.mem_append_left _ member)) filled.le
      omega
    rw [filled,Nat.add_sub_cancel_left]
    exact spilling_assured R _ _ (fun c member => nonempty c (List.mem_append_right _ member)) others fit full

/-- A frame as long as the buffer. -/
theorem capacity_regained_full :
    Assured 10 0 10 10 ∧ ∀ grow, ∃ link', readNext MessagePackRmps.rmps grow none RequestBodyOwned
        (.fresh 10 [[0x92, 0xa5, 65, 76, 76, 79, 67, 2, 0x91, 5]]) = .returned (.ok (.alloc ⟨5⟩)) link' ∧
      10 ≤ link'.ctx.buffer.capacity := by
  have assured : Assured 10 0 10 10 := by simp [Assured]
  have regained := capacity_regained_iff MessagePackRmps.rmps (MessagePackRmps.stable _) MessagePackRmps.consumes none
    RequestBodyOwned (direction_consumes MessagePackRmps.consumes .requests) (.new 10) (fun _ => ⟨_,rfl⟩) (.alloc ⟨5⟩)
  have nothing : (BufferContext.new 10).held MessagePackRmps.rmps [] = none := rfl
  have waits : ¬(BufferContext.new 10).Complete MessagePackRmps.rmps [] := by simp [BufferContext.Complete,nothing]
  have iff := regained.2 [[0x92, 0xa5, 65, 76, 76, 79, 67, 2, 0x91, 5]] [] ⟨"ALLOC", 2⟩ [0x91, 5] 2
    ⟨waits,by simp,⟨_,_,rfl,by decide⟩⟩ rfl rfl (.inl (by decide))
  exact ⟨assured,iff.mpr assured⟩

/-- A frame of ten bytes that a buffer of 64 takes in one delivery: the ten are gone, and 54 are more room
than is asked for, so no allocator is ever called. -/
theorem capacity_not_regained :
    [0x92, 0xa5, 65, 76, 76, 79, 67, 2, 0x91, 5].length ≤ (BytesMut.withCapacity 64).room ∧
      ∀ grow, ∃ m link', readNext MessagePackRmps.rmps grow none RequestBodyOwned
          (.fresh 64 [[0x92, 0xa5, 65, 76, 76, 79, 67, 2, 0x91, 5]]) = .returned (.ok m) link' ∧
        link'.ctx.initialCapacity = 64 ∧ link'.ctx.buffer.capacity = 54 :=
  ⟨by decide,fun _ => ⟨_,_,run_ret _ rfl,rfl,rfl⟩⟩

end Ndp
