import Ndp.ClientInvariant

/-! Rounds of the server and of a client: each takes a connection from one stage to the
next, keeps the pages of the other clients and brings the client closer to its end. -/
namespace Ndp

open ByteMemory

@[simp] theorem streamOf_nil (R : Rmps) [MessageKindTagged S] [Serialize S] : streamOf R ([] : List S) = [] := rfl

@[simp] theorem streamOf_singleton (R : Rmps) [MessageKindTagged S] [Serialize S] (m : S) :
    streamOf R [m] = writeTo R m := by simp [streamOf]

theorem step_performs {machine : Machine} {server : Server} {event : Event} {step : PageStep}
    (isOpen : server.closed event.conn = false)
    (performs : (server.ctx.handle machine event.env event.request).Performs step) :
    (server.step machine event).1.ctx.contents = step.pages ∧ (server.step machine event).2 = step.replies ∧
      (server.step machine event).1.closed event.conn = decide (step.result ≠ .ok) := by
  obtain ⟨pages,replies,result⟩ := performs
  simp only [Server.step,isOpen,closeUnlessOk,result]
  refine ⟨pages,replies,?_⟩
  by_cases ok : step.result = .ok <;> simp [ok,isOpen]

section Server

variable {dep : Deployment} (laws : dep.rmps.Lawful) {sys : System dep.rmps.Error} {id : Nat} {env : Env}
  {client : Client dep.rmps.Error} {up down : Link} (there : sys.conns id = ⟨client, up, down⟩)
  (isOpen : sys.server.closed id = false) {q : RequestBody} (sendable : q.isInvoke = false)
  (short : (writeTo dep.rmps q).length < 2 ^ 32) (carries : up.Carries dep.rmps q)
include laws there isOpen sendable short carries

theorem serve_performs {step : PageStep}
    (performs : (sys.server.ctx.handle dep.machine env q.toOwned).Performs step) :
    (dep.serverRound sys id env).1.ctx.contents = step.pages ∧
      (dep.serverRound sys id env).1.closed id = decide (step.result ≠ .ok) ∧
      (dep.serverRound sys id env).2.1.Idle ∧ (dep.serverRound sys id env).2.2 = step.replies := by
  obtain ⟨up',idle,round⟩ := serverRound_reads laws env sendable short (by rw [there]; exact carries)
  let event : Event := ⟨id, q.toOwned, env⟩
  obtain ⟨contents,replies,stays⟩ := step_performs (show sys.server.closed event.conn = false from isOpen) performs
  rw [round]
  exact ⟨contents,stays,idle,replies⟩

variable {chunks : List (List UInt8)}
  (delivers : Delivers (streamOf dep.rmps (dep.serverRound sys id env).2.2) chunks) {pages : PageMap}
include delivers

theorem serve_answered {r : ResponseBody} (idle : down.Idle)
    (performs : (sys.server.ctx.handle dep.machine env q.toOwned).Performs ⟨pages, [r], .ok⟩) :
    (dep.serverRound sys id env).1.ctx.contents = pages ∧ (dep.serverRound sys id env).1.closed id = false ∧
      (dep.serverRound sys id env).2.1.Idle ∧ (down.send chunks).Carries dep.rmps r := by
  obtain ⟨contents,stays,up',replies⟩ := serve_performs laws there isOpen sendable short carries performs
  rw [replies,streamOf_singleton] at delivers
  exact ⟨contents,by simpa using stays,up',idle.send delivers⟩

theorem serve_silent {result : HandlerEnd} (failed : result ≠ .ok)
    (performs : (sys.server.ctx.handle dep.machine env q.toOwned).Performs ⟨pages, [], result⟩) :
    (dep.serverRound sys id env).1.ctx.contents = pages ∧ (dep.serverRound sys id env).1.closed id = true ∧
      (dep.serverRound sys id env).2.1.Idle ∧ down.send chunks = down := by
  obtain ⟨contents,stays,up',replies⟩ := serve_performs laws there isOpen sendable short carries performs
  rw [replies,streamOf_nil] at delivers
  exact ⟨contents,by simpa [failed] using stays,up',by rw [delivers_nil delivers,Link.send_nil]⟩

end Server

/-- The connection has come to a stage again and closer to its end, without touching the
pages of others. -/
def Advances (dep : Deployment) (pages : PageMap) (id : Nat) (owner : Option PageHandle)
    (before : Connection dep.rmps.Error) (server : Server) (conn : Connection dep.rmps.Error) : Prop :=
  ∃ owner', KeepsOthers pages server.ctx.contents owner owner' ∧
    Agrees dep.rmps (dep.workload id) server.ctx.contents (server.closed id) conn owner' ∧
    conn.left (dep.workload id) ≤ before.left (dep.workload id) - 1

theorem left_served {w : Workload} {client : Client ε} {up up' down down' : Link} (waits : client.phase.waits)
    (sent : up.socket ≠ []) (idle : up'.Idle) :
    Connection.left w ⟨client, up', down'⟩ ≤ Connection.left w ⟨client, up, down⟩ - 1 := by
  unfold Phase.waits at waits
  simp only [Connection.left,idle.socket,List.isEmpty_iff,sent]
  split at waits
  · simp [*]
  · simp [*]
  · simp [*]
  · contradiction

section Stages

variable {dep : Deployment} (laws : dep.rmps.Lawful) {sys : System dep.rmps.Error} {id : Nat} {env : Env}
  {up down : Link} {ranges : List (UInt64 × UInt64)} {handle : PageHandle} {i j : UInt64}
  (valid : (dep.workload id).Valid) (frames : (dep.workload id).SmallFrames dep.rmps)
  (isOpen : sys.server.closed id = false) {chunks : List (List UInt8)}
  (delivers : Delivers (streamOf dep.rmps (dep.serverRound sys id env).2.2) chunks)
include laws valid frames isOpen delivers

theorem serve_alloc (lawful : env.Lawful sys.server.ctx) (maps : env.MapsNonempty)
    (there : sys.conns id = ⟨⟨.awaitAlloc, []⟩, up, down⟩)
    (carries : up.Carries dep.rmps (dep.workload id).allocRequest) (idle : down.Idle) :
    Advances dep sys.server.ctx.contents id none ⟨⟨.awaitAlloc, []⟩, up, down⟩ (dep.serverRound sys id env).1
      ⟨⟨.awaitAlloc, []⟩, (dep.serverRound sys id env).2.1, down.send chunks⟩ := by
  have nonzero : (dep.workload id).bufSize ≠ 0 := by
    intro zero
    have := valid.someBytes
    simp [zero] at this
  have performs := handleAlloc_performs dep.machine sys.server.ctx lawful ⟨(dep.workload id).bufSize⟩
  rcases PageMap.alloc_cases dep.machine sys.server.ctx.contents maps nonzero with
    ⟨large,result,failed,step⟩ | ⟨page,room,step⟩
  · rw [step] at performs
    obtain ⟨contents,closed,up',down'⟩ := serve_silent laws there isOpen rfl frames.alloc carries delivers
      failed performs
    rw [Advances,contents,closed,down']
    exact ⟨none,keepsOthers_same _ _,.lost rfl idle large,left_served rfl (carries.socket_ne laws) up'⟩
  · rw [step] at performs
    obtain ⟨contents,closed,up',down'⟩ := serve_answered laws there isOpen rfl frames.alloc carries delivers
      idle performs
    rw [Advances,contents,closed]
    have unused := contents_none lawful.unused
    refine ⟨some env.freeIndex,⟨?_,?_⟩,.allocated env.freeIndex rfl up' down' (by simp) ?_,
      left_served rfl (carries.socket_ne laws) up'⟩
    · intro other _ live
      have ne : other ≠ env.freeIndex := by
        rintro rfl
        exact live unused
      exact Function.update_of_ne ne _ _
    · intro other same
      obtain rfl := Option.some.inj same
      exact .inr unused
    · exact fun small => ⟨page,Function.update_self ..,room small,by simp⟩

theorem serve_write (wellFormed : sys.server.ctx.WellFormed)
    (there : sys.conns id = ⟨⟨.awaitWrite handle i j, ranges⟩, up, down⟩)
    (working : (dep.workload id).Working ranges i j)
    (carries : up.Carries dep.rmps (RequestBody.write ⟨handle, i, (dep.workload id).chunk i j⟩)) (idle : down.Idle)
    (stored : (dep.workload id).Stored sys.server.ctx.contents handle i.toNat) :
    Advances dep sys.server.ctx.contents id (some handle)
      ⟨⟨.awaitWrite handle i j, ranges⟩, up, down⟩ (dep.serverRound sys id env).1
      ⟨⟨.awaitWrite handle i j, ranges⟩, (dep.serverRound sys id env).2.1, down.send chunks⟩ := by
  obtain ⟨page,live,room,before⟩ := stored
  have range := working.range
  have stop : i.toNat + ((dep.workload id).chunk i j).length = j.toNat := by
    rw [range.chunk_length valid,range.add_len valid]
  have inside := range.stop_le
  have performs := handleWrite_performs dep.machine sys.server.ctx wellFormed
    ⟨handle, i, (dep.workload id).chunk i j⟩
  rw [write_granted dep.machine (by simp only [stop]; exact j.toNat_lt) live (by simp only [stop]; omega)] at performs
  obtain ⟨contents,closed,up',down'⟩ := serve_answered laws there isOpen rfl (frames.write handle i j range)
    carries delivers idle performs
  rw [Advances,contents,closed]
  refine ⟨some handle,⟨?_,fun _ h => .inl h⟩,.written handle rfl working up' down' ?_,
    left_served rfl (carries.socket_ne laws) up'⟩
  · intro other differ _
    have ne : other ≠ handle := by
      rintro rfl
      exact differ rfl
    exact Function.update_of_ne ne _ _
  · exact Workload.Stored.write valid range room before

theorem serve_read (there : sys.conns id = ⟨⟨.awaitRead handle i j, ranges⟩, up, down⟩)
    (working : (dep.workload id).Working ranges i j)
    (carries : up.Carries dep.rmps (RequestBody.read ⟨handle, i, j - i⟩)) (idle : down.Idle)
    (stored : (dep.workload id).Stored sys.server.ctx.contents handle j.toNat) :
    Advances dep sys.server.ctx.contents id (some handle)
      ⟨⟨.awaitRead handle i j, ranges⟩, up, down⟩ (dep.serverRound sys id env).1
      ⟨⟨.awaitRead handle i j, ranges⟩, (dep.serverRound sys id env).2.1, down.send chunks⟩ := by
  have kept := stored
  obtain ⟨page,live,room,upTo⟩ := stored
  have range := working.range
  have stop := range.add_len valid
  have inside := range.stop_le
  have small := working.small
  have performs := handleRead_performs dep.machine sys.server.ctx ⟨handle, i, j - i⟩
  rw [read_granted dep.machine (by simp only [stop]; exact j.toNat_lt) live (by simp only [stop]; omega),
    if_neg (by simp only; omega),Workload.Stored.read valid range upTo] at performs
  obtain ⟨contents,closed,up',down'⟩ := serve_answered laws there isOpen rfl (frames.read handle i j range)
    carries delivers idle performs
  rw [Advances,contents,closed]
  exact ⟨some handle,keepsOthers_same _ _,.readBack handle rfl working up' down' kept,
    left_served rfl (carries.socket_ne laws) up'⟩

end Stages

theorem serve_advances {dep : Deployment} (laws : dep.rmps.Lawful) {sys : System dep.rmps.Error} {id : Nat}
    {env : Env} {owner : Option PageHandle} (valid : (dep.workload id).Valid)
    (frames : (dep.workload id).SmallFrames dep.rmps) (wellFormed : sys.server.ctx.WellFormed)
    (isOpen : sys.server.closed id = false)
    (arrived : (sys.conns id).up.socket ≠ [] ∨ (sys.conns id).client.phase.ended)
    (lawful : env.Lawful sys.server.ctx) (maps : env.MapsNonempty) {chunks : List (List UInt8)}
    (delivers : Delivers (streamOf dep.rmps (dep.serverRound sys id env).2.2) chunks)
    (agrees : Agrees dep.rmps (dep.workload id) sys.server.ctx.contents (sys.server.closed id)
      (sys.conns id) owner) :
    Advances dep sys.server.ctx.contents id owner (sys.conns id) (dep.serverRound sys id env).1
      ⟨(sys.conns id).client, (dep.serverRound sys id env).2.1, (sys.conns id).down.send chunks⟩ := by
  have closes (idle : (sys.conns id).up.Idle) :
      (dep.serverRound sys id env).1 = sys.server.close id := by
    obtain ⟨up,round⟩ := serverRound_idle laws env idle
    rw [round]
  generalize there : sys.conns id = conn at *
  cases agrees with
  | connected _ up _ => simp [up.socket,Phase.ended] at arrived
  | allocSent _ up down => exact serve_alloc laws valid frames isOpen delivers lawful maps there up down
  | allocated _ _ up _ _ _ => simp [up.socket,Phase.ended] at arrived
  | lost closed _ _ => simp [isOpen] at closed
  | writeSent handle _ working up down stored =>
    exact serve_write laws valid frames isOpen delivers wellFormed there working up down stored
  | written _ _ _ up _ _ => simp [up.socket,Phase.ended] at arrived
  | readSent handle _ working up down stored =>
    exact serve_read laws valid frames isOpen delivers there working up down stored
  | readBack _ _ _ up _ _ => simp [up.socket,Phase.ended] at arrived
  | verified handle ended covered small stored =>
    rw [isOpen] at ended
    rw [Advances,closes (by simpa using ended)]
    exact ⟨some handle,keepsOthers_same _ _,
      .verified handle (.inl (Function.update_self ..)) covered small stored,Nat.zero_le _⟩
  | tooLarge ended large phase =>
    rw [isOpen] at ended
    rw [Advances,closes (by simpa using ended)]
    refine ⟨none,keepsOthers_same _ _,.tooLarge (.inl (Function.update_self ..)) large phase,?_⟩
    rcases phase with rfl | ⟨e,rfl⟩ <;> exact Nat.zero_le _

section Client

variable {dep : Deployment} {pages : PageMap} {id : Nat} {up down : Link} {handle : PageHandle}
  {ranges : List (UInt64 × UInt64)} {i : UInt64} (valid : (dep.workload id).Valid) (idleUp : up.Idle) (idle : down.Idle)
  {chunks : List (List UInt8)}
include valid idleUp idle

theorem writeChunk_agrees {round : Client dep.rmps.Error × Option RequestBody}
    (same : round = (dep.workload id).writeChunk ranges handle i)
    (small : (dep.workload id).bufSize.toNat ≤ isizeMax) (aligned : (dep.workload id).chunkSize.toNat ∣ i.toNat)
    (inside : i.toNat < (dep.workload id).bufSize.toNat) (covered : Partitions ranges i.toNat)
    (stored : (dep.workload id).Stored pages handle i.toNat)
    (delivers : Delivers (streamOf dep.rmps round.2.toList) chunks) :
    Agrees dep.rmps (dep.workload id) pages false ⟨round.1, up.send chunks, down⟩ (some handle) ∧
      Connection.left (dep.workload id) ⟨round.1, up.send chunks, down⟩ ≤
        4 * ((dep.workload id).bufSize.toNat - i.toNat) + 1 := by
  obtain ⟨j,range,out⟩ := writeChunk_eq valid dep.rmps.Error ranges handle aligned inside
  rw [same,out] at delivers ⊢
  rw [Option.toList_some,streamOf_singleton] at delivers
  refine ⟨.writeSent handle rfl ⟨small,range,covered.extend (range.lt valid)⟩ (idleUp.send delivers) idle stored,?_⟩
  simp only [Connection.left]
  split <;> omega

theorem enterLoop_agrees {round : Client dep.rmps.Error × Option RequestBody}
    (same : round = (dep.workload id).enterLoop handle)
    (stored : (dep.workload id).bufSize.toNat ≤ isizeMax → (dep.workload id).Stored pages handle 0)
    (delivers : Delivers (streamOf dep.rmps round.2.toList) chunks) :
    ∃ owner, (owner = none ∨ owner = some handle) ∧
      Agrees dep.rmps (dep.workload id) pages false ⟨round.1, up.send chunks, down⟩ owner ∧
      Connection.left (dep.workload id) ⟨round.1, up.send chunks, down⟩ ≤
        4 * (dep.workload id).bufSize.toNat + 1 := by
  have someChunk : (dep.workload id).chunkSize ≠ 0 := by
    intro zero
    have := valid.someChunk
    simp [zero] at this
  have someBytes : 0 < (dep.workload id).bufSize := UInt64.lt_iff_toNat_lt.mpr valid.someBytes
  rw [Workload.enterLoop,if_neg someChunk,if_pos someBytes] at same
  by_cases large : isizeMax < (dep.workload id).bufSize.toNat
  · rw [if_pos large] at same
    subst same
    rw [delivers_nil delivers,Link.send_nil]
    exact ⟨none,.inl rfl,.tooLarge (.inr idleUp) large (.inl rfl),Nat.zero_le _⟩
  · rw [if_neg large] at same
    refine ⟨some handle,.inr rfl,writeChunk_agrees valid idleUp idle same (by omega) ?_ valid.someBytes
      partitions_nil (stored (by omega)) delivers⟩
    simp

theorem nextChunk_agrees {j : UInt64} {round : Client dep.rmps.Error × Option RequestBody}
    (same : round = (dep.workload id).nextChunk ranges handle i) (working : (dep.workload id).Working ranges i j)
    (stored : (dep.workload id).Stored pages handle j.toNat)
    (delivers : Delivers (streamOf dep.rmps round.2.toList) chunks) :
    Agrees dep.rmps (dep.workload id) pages false ⟨round.1, up.send chunks, down⟩ (some handle) ∧
      Connection.left (dep.workload id) ⟨round.1, up.send chunks, down⟩ ≤
        4 * ((dep.workload id).bufSize.toNat - i.toNat) - 3 := by
  obtain ⟨small,range,covered⟩ := working
  have stop := range.stop
  have forward := valid.someChunk
  rw [Workload.nextChunk] at same
  by_cases more : i.toNat + (dep.workload id).chunkSize.toNat < (dep.workload id).bufSize.toNat
  · have sum : (i + (dep.workload id).chunkSize).toNat = i.toNat + (dep.workload id).chunkSize.toNat := by
      have := (dep.workload id).bufSize.toNat_lt
      rw [UInt64.toNat_add,Nat.mod_eq_of_lt (by omega)]
    have next : (i + (dep.workload id).chunkSize).toNat = j.toNat := by omega
    rw [if_pos more] at same
    obtain ⟨agrees,left⟩ := writeChunk_agrees valid idleUp idle same small
      (sum ▸ Nat.dvd_add range.aligned (Nat.dvd_refl _)) (by omega) (next ▸ covered) (next ▸ stored) delivers
    exact ⟨agrees,by omega⟩
  · have last : j.toNat = (dep.workload id).bufSize.toNat := by omega
    rw [if_neg more] at same
    subst same
    rw [delivers_nil delivers,Link.send_nil]
    exact ⟨.verified handle (.inr idleUp) (last ▸ covered) small (last ▸ stored),Nat.zero_le _⟩

end Client

theorem receive_advances {dep : Deployment} (laws : dep.rmps.Lawful) {sys : System dep.rmps.Error} {id : Nat}
    {owner : Option PageHandle} (valid : (dep.workload id).Valid)
    (frames : (dep.workload id).SmallFrames dep.rmps) (waits : (sys.conns id).client.phase.waits)
    (arrived : (sys.conns id).down.socket ≠ [] ∨ sys.server.closed id) {chunks : List (List UInt8)}
    (delivers : Delivers (streamOf dep.rmps (dep.clientRound id (sys.conns id)).2) chunks)
    (agrees : Agrees dep.rmps (dep.workload id) sys.server.ctx.contents (sys.server.closed id)
      (sys.conns id) owner) :
    Advances dep sys.server.ctx.contents id owner (sys.conns id) sys.server
      { (dep.clientRound id (sys.conns id)).1 with
        up := (dep.clientRound id (sys.conns id)).1.up.send chunks } := by
  generalize sys.conns id = conn at *
  unfold Advances
  generalize sys.server.closed id = closed at *
  cases agrees with
  | connected _ _ _ => simp [Phase.waits] at waits
  | allocSent isOpen _ down => simp [down.socket,isOpen] at arrived
  | allocated handle isOpen up carries live stored =>
    obtain ⟨down',idle,round⟩ := clientRound_reads laws id (frames.handle handle) carries
    rw [round] at delivers ⊢
    obtain ⟨owner',either,agrees',left⟩ := enterLoop_agrees valid up idle rfl stored delivers
    refine ⟨owner',⟨fun _ _ _ => rfl,?_⟩,isOpen ▸ agrees',Nat.le_trans left (by simp [Connection.left,up.socket])⟩
    rintro other rfl
    rcases either with unowned | same
    · contradiction
    · exact .inl same.symm
  | lost isClosed down large =>
    obtain ⟨e,down',round⟩ := clientRound_idle laws id down
    rw [round] at delivers ⊢
    exact ⟨none,keepsOthers_same _ _,.tooLarge (.inl isClosed) large (.inr ⟨e,rfl⟩),Nat.zero_le _⟩
  | writeSent _ isOpen _ _ down _ => simp [down.socket,isOpen] at arrived
  | @written _ i j _ _ handle isOpen working up carries stored =>
    obtain ⟨down',idle,round⟩ := clientRound_reads laws id (frames.handle handle) carries
    rw [round] at delivers ⊢
    simp only [Workload.receive,Option.toList_some,streamOf_singleton] at delivers
    refine ⟨some handle,keepsOthers_same _ _,.readSent handle isOpen working (up.send delivers) idle stored,?_⟩
    have := working.range.inside
    simp only [Workload.receive,Connection.left,up.socket]
    split <;> simp <;> omega
  | readSent _ isOpen _ _ down _ => simp [down.socket,isOpen] at arrived
  | @readBack _ i j _ _ handle isOpen working up carries stored =>
    obtain ⟨down',idle,round⟩ := clientRound_reads laws id (frames.buffer handle i j working.range) carries
    rw [round] at delivers ⊢
    simp only [Workload.receive,ResponseBody.toOwned,OkWithBufferResponse.toOwned,if_true] at delivers ⊢
    obtain ⟨agrees',left⟩ := nextChunk_agrees valid up idle rfl working stored delivers
    refine ⟨some handle,keepsOthers_same _ _,isOpen ▸ agrees',Nat.le_trans left ?_⟩
    simp only [Connection.left,up.socket,List.isEmpty_nil,if_true]
    omega
  | verified _ _ _ _ _ => simp [Phase.waits] at waits
  | tooLarge _ _ phase => rcases phase with rfl | ⟨e,rfl⟩ <;> simp [Phase.waits] at waits

end Ndp
