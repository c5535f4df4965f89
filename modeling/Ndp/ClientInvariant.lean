import Ndp.ClientSystem

/-! Where a client and the server can be relative to each other. One message is under way
at most on each connection, a client's page is its own, and the page holds the buffer as
far as the client's loop has come. -/
namespace Ndp

open ByteMemory MessagePack

/-- Every frame a run of the client makes either side send is short enough to declare. -/
structure Workload.SmallFrames (R : Rmps) (w : Workload) : Prop where
  alloc : (writeTo R w.allocRequest).length < 2 ^ 32
  handle : ∀ h, (writeTo R (ResponseBody.okWithHandle ⟨h⟩)).length < 2 ^ 32
  write : ∀ h i j, w.Range i j → (writeTo R (RequestBody.write ⟨h, i, w.chunk i j⟩)).length < 2 ^ 32
  read : ∀ h i j, w.Range i j → (writeTo R (RequestBody.read ⟨h, i, j - i⟩)).length < 2 ^ 32
  buffer : ∀ h i j, w.Range i j →
    (writeTo R (ResponseBody.okWithBuffer ⟨h, i, w.chunk i j⟩)).length < 2 ^ 32

theorem writeTo_length_le {R : Rmps} (sized : MessagePackRmps.Sized R) [MessageKindTagged S] [Serialize S] (m : S)
    (short : (utf8 (MessageKindTagged.kind m)).length < 32) :
    (writeTo R m).length ≤ 42 + (Serialize.serialize R m).length := by
  have total := sized MessageHeader.fields ((messageHeader R m).kind, (messageHeader R m).length, ())
  have outer : (writeArrayLen 2).length = 1 := rfl
  have text : (writeStrLen ((utf8 (MessageKindTagged.kind m)).length % 2 ^ 32)).length = 1 := by
    rw [Nat.mod_eq_of_lt (by omega),writeStrLen,if_pos short]
    rfl
  have count := uintSize_le (messageHeader R m).length.toNat
  simp only [MessagePackRmps.write,MessagePackRmps.writeFields,MessagePackRmps.writeField,writeStr,
    List.length_append,List.length_cons,List.length_nil,writeUint_length,outer,messageHeader,text] at total count
  simp only [writeTo,List.length_append]
  rw [show (Serialize.serialize R (messageHeader R m)).length = _ from total]
  omega

theorem smallFrames_of_sized {R : Rmps} (sized : MessagePackRmps.Sized R) {w : Workload} (valid : w.Valid)
    (small : w.chunkSize.toNat + 100 ≤ 2 ^ 32) : w.SmallFrames R := by
  have one (a : UInt64) : (R.serialize [.u64] (a, ())).length ≤ 10 := by
    have := uintSize_le a.toNat
    have outer : (writeArrayLen 1).length = 1 := rfl
    simp only [sized _ _,MessagePackRmps.write,MessagePackRmps.writeFields,MessagePackRmps.writeField,
      List.length_append,List.length_cons,List.length_nil,writeUint_length,outer]
    omega
  have three (a b c : UInt64) : (R.serialize [.u64, .u64, .u64] (a, b, c, ())).length ≤ 28 := by
    have := uintSize_le a.toNat
    have := uintSize_le b.toNat
    have := uintSize_le c.toNat
    have outer : (writeArrayLen 3).length = 1 := rfl
    simp only [sized _ _,MessagePackRmps.write,MessagePackRmps.writeFields,MessagePackRmps.writeField,
      List.length_append,List.length_cons,List.length_nil,writeUint_length,outer]
    omega
  have data (a b : UInt64) (i j : UInt64) (range : w.Range i j) :
      (R.serialize [.u64, .u64, .bytes] (a, b, w.chunk i j, ())).length ≤ 24 + w.chunkSize.toNat := by
    have := uintSize_le a.toNat
    have := uintSize_le b.toNat
    have := binHeaderSize_le ((w.chunk i j).length % 2 ^ 32)
    have size : (w.chunk i j).length ≤ w.chunkSize.toNat := by
      have := range.stop
      rw [range.chunk_length valid,range.len valid]
      omega
    have outer : (writeArrayLen 3).length = 1 := rfl
    simp only [sized _ _,MessagePackRmps.write,MessagePackRmps.writeFields,MessagePackRmps.writeField,writeBin,
      List.length_append,List.length_cons,List.length_nil,writeUint_length,writeBinLen_length,outer]
    omega
  have frame {S : Type} [MessageKindTagged S] [Serialize S] (m : S) (short : (utf8 (MessageKindTagged.kind m)).length < 32)
      (body : (Serialize.serialize R m).length ≤ 28 + w.chunkSize.toNat) : (writeTo R m).length < 2 ^ 32 := by
    have := writeTo_length_le sized m short
    omega
  have positive := valid.someChunk
  constructor
  case alloc => exact frame _ (show (utf8 "ALLOC").length < 32 by decide) (Nat.le_trans (one _) (by omega))
  case handle => exact fun h => frame _ (show (utf8 "OK_H").length < 32 by decide) (Nat.le_trans (one _) (by omega))
  case write =>
    exact fun h i j range => frame _ (show (utf8 "WRITE").length < 32 by decide)
      (Nat.le_trans (data _ _ i j range) (by omega))
  case read =>
    exact fun h i j _ => frame _ (show (utf8 "READ").length < 32 by decide) (Nat.le_trans (three _ _ _) (by omega))
  case buffer =>
    exact fun h i j range => frame _ (show (utf8 "OK_B").length < 32 by decide)
      (Nat.le_trans (data _ _ i j range) (by omega))

/-- The page behind a handle has room for the buffer and begins with its first bytes. -/
def Workload.Stored (w : Workload) (pages : PageMap) (handle : PageHandle) (upTo : Nat) : Prop :=
  ∃ page, pages handle = some page ∧ w.bufSize.toNat ≤ page.length ∧ page.take upTo = w.buf.take upTo

/-- An iteration is under way. -/
structure Workload.Working (w : Workload) (chunks : List (UInt64 × UInt64)) (i j : UInt64) : Prop where
  small : w.bufSize.toNat ≤ isizeMax
  range : w.Range i j
  covered : Partitions chunks j.toNat

/-- The stages of one connection, with the handle of the page the client has been given. -/
inductive Agrees (R : Rmps) (w : Workload) (pages : PageMap) (closed : Bool) :
    Connection R.Error → Option PageHandle → Prop where
  | connected : closed = false → up.Idle → down.Idle →
      Agrees R w pages closed ⟨⟨.connected, []⟩, up, down⟩ none
  | allocSent : closed = false → up.Carries R w.allocRequest → down.Idle →
      Agrees R w pages closed ⟨⟨.awaitAlloc, []⟩, up, down⟩ none
  | allocated (handle : PageHandle) : closed = false → up.Idle →
      down.Carries R (ResponseBody.okWithHandle ⟨handle⟩) → pages handle ≠ none →
      (w.bufSize.toNat ≤ isizeMax → w.Stored pages handle 0) →
      Agrees R w pages closed ⟨⟨.awaitAlloc, []⟩, up, down⟩ (some handle)
  | lost : closed = true → down.Idle → isizeMax < w.bufSize.toNat →
      Agrees R w pages closed ⟨⟨.awaitAlloc, []⟩, up, down⟩ none
  | writeSent (handle : PageHandle) : closed = false → w.Working chunks i j →
      up.Carries R (RequestBody.write ⟨handle, i, w.chunk i j⟩) → down.Idle → w.Stored pages handle i.toNat →
      Agrees R w pages closed ⟨⟨.awaitWrite handle i j, chunks⟩, up, down⟩ (some handle)
  | written (handle : PageHandle) : closed = false → w.Working chunks i j → up.Idle →
      down.Carries R (ResponseBody.okWithHandle ⟨handle⟩) → w.Stored pages handle j.toNat →
      Agrees R w pages closed ⟨⟨.awaitWrite handle i j, chunks⟩, up, down⟩ (some handle)
  | readSent (handle : PageHandle) : closed = false → w.Working chunks i j →
      up.Carries R (RequestBody.read ⟨handle, i, j - i⟩) → down.Idle → w.Stored pages handle j.toNat →
      Agrees R w pages closed ⟨⟨.awaitRead handle i j, chunks⟩, up, down⟩ (some handle)
  | readBack (handle : PageHandle) : closed = false → w.Working chunks i j → up.Idle →
      down.Carries R (ResponseBody.okWithBuffer ⟨handle, i, w.chunk i j⟩) → w.Stored pages handle j.toNat →
      Agrees R w pages closed ⟨⟨.awaitRead handle i j, chunks⟩, up, down⟩ (some handle)
  | verified (handle : PageHandle) : (closed = true ∨ up.Idle) → Partitions chunks w.bufSize.toNat →
      w.bufSize.toNat ≤ isizeMax → w.Stored pages handle w.bufSize.toNat →
      Agrees R w pages closed ⟨⟨.returned (.ok handle), chunks⟩, up, down⟩ (some handle)
  | tooLarge : (closed = true ∨ up.Idle) → isizeMax < w.bufSize.toNat →
      (phase = .panicked .capacityOverflow ∨ ∃ e, phase = .returned (.error (.receiveError e))) →
      Agrees R w pages closed ⟨⟨phase, []⟩, up, down⟩ none

section Pages

variable {R : Rmps} {w : Workload} {pages pages' : PageMap}

theorem Workload.Stored.live {handle : PageHandle} {upTo : Nat} (stored : w.Stored pages handle upTo) :
    pages handle ≠ none := by
  obtain ⟨page,there,_⟩ := stored
  simp [there]

theorem Workload.Stored.congr {handle : PageHandle} {upTo : Nat} (same : pages' handle = pages handle)
    (stored : w.Stored pages handle upTo) : w.Stored pages' handle upTo := by
  simpa only [Workload.Stored,same] using stored

theorem Workload.Stored.write {handle : PageHandle} {i j : UInt64} (valid : w.Valid) (range : w.Range i j)
    {page : List UInt8} (room : w.bufSize.toNat ≤ page.length) (before : page.take i.toNat = w.buf.take i.toNat) :
    w.Stored (Function.update pages handle (some (splice page i.toNat (w.chunk i j)))) handle j.toNat := by
  have stop : i.toNat + (w.chunk i j).length = j.toNat := by
    rw [range.chunk_length valid,range.add_len valid]
  have fits : i.toNat + (w.chunk i j).length ≤ page.length := by
    have := range.stop_le
    omega
  refine ⟨_,Function.update_self ..,by rwa [splice_length],?_⟩
  have taken := take_splice fits
  rw [stop] at taken
  rw [taken,before,Workload.chunk,slice,← List.take_add,range.add_len valid]

theorem Workload.Stored.read {i j : UInt64} (valid : w.Valid) (range : w.Range i j) {page : List UInt8}
    (stored : page.take j.toNat = w.buf.take j.toNat) :
    slice page i.toNat (j - i).toNat = w.chunk i j := by
  rw [Workload.chunk,range.len valid,slice,slice,← List.drop_take,← List.drop_take,stored]

theorem Agrees.live {closed : Bool} {conn : Connection R.Error} {handle : PageHandle}
    (agrees : Agrees R w pages closed conn (some handle)) : pages handle ≠ none := by
  cases agrees with
  | allocated _ _ _ _ live _ => exact live
  | writeSent _ _ _ _ _ stored => exact stored.live
  | written _ _ _ _ _ stored => exact stored.live
  | readSent _ _ _ _ _ stored => exact stored.live
  | readBack _ _ _ _ _ stored => exact stored.live
  | verified _ _ _ _ stored => exact stored.live

theorem Agrees.frame {closed : Bool} {conn : Connection R.Error} {owner : Option PageHandle}
    (same : ∀ handle, owner = some handle → pages' handle = pages handle)
    (agrees : Agrees R w pages closed conn owner) : Agrees R w pages' closed conn owner := by
  cases agrees with
  | connected isOpen up down => exact .connected isOpen up down
  | allocSent isOpen up down => exact .allocSent isOpen up down
  | allocated handle isOpen up down live stored =>
    exact .allocated handle isOpen up down (same handle rfl ▸ live) (fun fits => (stored fits).congr (same handle rfl))
  | lost isClosed down large => exact .lost isClosed down large
  | writeSent handle isOpen working up down stored =>
    exact .writeSent handle isOpen working up down (stored.congr (same handle rfl))
  | written handle isOpen working up down stored =>
    exact .written handle isOpen working up down (stored.congr (same handle rfl))
  | readSent handle isOpen working up down stored =>
    exact .readSent handle isOpen working up down (stored.congr (same handle rfl))
  | readBack handle isOpen working up down stored =>
    exact .readBack handle isOpen working up down (stored.congr (same handle rfl))
  | verified handle ended covered small stored =>
    exact .verified handle ended covered small (stored.congr (same handle rfl))
  | tooLarge ended large phase => exact .tooLarge ended large phase

/-- A step of one connection keeps the pages of the others, and takes no page of theirs. -/
structure KeepsOthers (pages pages' : PageMap) (owner owner' : Option PageHandle) : Prop where
  kept : ∀ handle, owner ≠ some handle → pages handle ≠ none → pages' handle = pages handle
  claimed : ∀ handle, owner' = some handle → owner = some handle ∨ pages handle = none

theorem keepsOthers_same (pages : PageMap) (owner : Option PageHandle) : KeepsOthers pages pages owner owner :=
  ⟨fun _ _ _ => rfl,fun _ h => .inl h⟩

end Pages

section Rounds

variable {dep : Deployment} (laws : dep.rmps.Lawful)
include laws

theorem serverRound_reads {sys : System dep.rmps.Error} {id : Nat} (env : Env) {q : RequestBody}
    (sendable : q.isInvoke = false) (short : (writeTo dep.rmps q).length < 2 ^ 32)
    (carries : (sys.conns id).up.Carries dep.rmps q) : ∃ up, up.Idle ∧
      dep.serverRound sys id env = ((sys.server.step dep.machine ⟨id, q.toOwned, env⟩).1, up,
        (sys.server.step dep.machine ⟨id, q.toOwned, env⟩).2) := by
  obtain ⟨up,returned,idle⟩ := readNext_carries dep.grow (dep.clientAddr id) laws .requests
    RequestBody.toOwned (accepted_request laws sendable short) carries
  refine ⟨up,idle,?_⟩
  have read : readNext dep.rmps dep.grow (dep.clientAddr id) RequestBodyOwned (sys.conns id).up = _ := returned
  simp only [Deployment.serverRound,read]

theorem serverRound_idle {sys : System dep.rmps.Error} {id : Nat} (env : Env) (idle : (sys.conns id).up.Idle) :
    ∃ up, dep.serverRound sys id env = (sys.server.close id, up, []) := by
  obtain ⟨up,returned⟩ := readNext_idle dep.grow (dep.clientAddr id) laws RequestBodyOwned idle
  exact ⟨up,by simp only [Deployment.serverRound,returned]⟩

theorem clientRound_reads (id : Nat) {client : Client dep.rmps.Error} {up down : Link} {r : ResponseBody}
    (short : (writeTo dep.rmps r).length < 2 ^ 32) (carries : down.Carries dep.rmps r) :
    ∃ down', down'.Idle ∧ dep.clientRound id ⟨client, up, down⟩ =
      (⟨((dep.workload id).receive client (.ok r.toOwned)).1, up, down'⟩,
        ((dep.workload id).receive client (.ok r.toOwned)).2.toList) := by
  obtain ⟨down',returned,idle⟩ := readNext_carries dep.grow dep.serverAddr laws .responses
    ResponseBody.toOwned (accepted_response laws short) carries
  refine ⟨down',idle,?_⟩
  have read : readNext dep.rmps dep.grow dep.serverAddr ResponseBodyOwned down = _ := returned
  simp only [Deployment.clientRound,read]

theorem clientRound_idle (id : Nat) {client : Client dep.rmps.Error} {up down : Link} (idle : down.Idle) :
    ∃ e down', dep.clientRound id ⟨client, up, down⟩ =
      (⟨((dep.workload id).receive client (.error e)).1, up, down'⟩,
        ((dep.workload id).receive client (.error e)).2.toList) := by
  obtain ⟨down',returned⟩ := readNext_idle dep.grow dep.serverAddr laws ResponseBodyOwned idle
  exact ⟨.peerDisconnectedGracefully dep.serverAddr,down',by simp only [Deployment.clientRound,returned]⟩

end Rounds

/-- A page is refused only where the buffer itself could not be made. -/
theorem PageMap.alloc_cases (machine : Machine) (pages : PageMap) {env : Env} (maps : env.MapsNonempty)
    {size : UInt64} (nonzero : size ≠ 0) :
    (isizeMax < size.toNat ∧ ∃ result, result ≠ .ok ∧ pages.alloc machine env ⟨size⟩ = ⟨pages, [], result⟩) ∨
    ∃ page, (size.toNat ≤ isizeMax → size.toNat ≤ page.length) ∧
      pages.alloc machine env ⟨size⟩ = ⟨Function.update pages env.freeIndex (some page),
        [.okWithHandle ⟨env.freeIndex⟩], .ok⟩ := by
  unfold PageMap.alloc
  by_cases fits : roundedSize machine size.toNat < 2 ^ 64
  · have nonzero : mappingLen machine size ≠ 0 := by
      rw [Ne,mappingLen_eq_zero_iff,not_or]
      exact ⟨nonzero,by omega⟩
    obtain ⟨ptr,mapped⟩ := maps _ nonzero
    refine .inr ⟨List.replicate (mappingLen machine size).toNat 0,?_,?_⟩
    · rw [List.length_replicate,mappingLen_toNat machine fits]
      exact fun _ => le_roundedSize machine size.toNat
    · rw [if_neg (fun wraps => absurd wraps.2 (Nat.not_le.mpr fits)),mapped]
  · have large : isizeMax < size.toNat := by
      have added := roundedSize_lt machine size.toNat
      have page : 2 ^ machine.pageShift ≤ 2 ^ 63 :=
        Nat.pow_le_pow_right (by decide) (Nat.le_of_lt_succ machine.pageShift_lt)
      unfold isizeMax
      omega
    by_cases checked : machine.overflowChecks ∧ 2 ^ 64 ≤ roundedSize machine size.toNat
    · exact .inl ⟨large,_,by simp,if_pos checked⟩
    · simp only [if_neg checked]
      cases env.mmap (mappingLen machine size) with
      | error e => exact .inl ⟨large,_,by simp,rfl⟩
      | ok ptr => exact .inr ⟨_,fun small => absurd large (by omega),rfl⟩

end Ndp
