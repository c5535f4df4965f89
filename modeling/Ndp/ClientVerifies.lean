import Mathlib.Data.List.Perm.Subperm
import Ndp.ClientRounds

/-! The chunk loop verifies. Over all connections the stages and the separation of the
clients' pages are an invariant of the system, and no client is ever stuck before its end. -/
namespace Ndp

open ByteMemory

/-- Every connection is in a stage, and no two clients have the same page. -/
structure Consistent (dep : Deployment) (sys : System dep.rmps.Error) (owner : Nat → Option PageHandle) : Prop where
  wellFormed : sys.server.ctx.WellFormed
  distinct : ∀ id id' handle, owner id = some handle → owner id' = some handle → id = id'
  agrees : ∀ id, Agrees dep.rmps (dep.workload id) sys.server.ctx.contents (sys.server.closed id)
    (sys.conns id) (owner id)

theorem consistent_initial (dep : Deployment) : Consistent dep dep.initial fun _ => none where
  wellFormed := start_wellFormed dep.maxNumFns dep.memory
  distinct := by
    intro id id' handle owned
    contradiction
  agrees id := .connected rfl (idle_fresh _) (idle_fresh _)

theorem Consistent.advance {dep : Deployment} {sys : System dep.rmps.Error} {owner : Nat → Option PageHandle}
    (consistent : Consistent dep sys owner) (id : Nat) {server : Server} {conn : Connection dep.rmps.Error}
    (wellFormed : server.ctx.WellFormed) (others : ∀ other, other ≠ id → server.closed other = sys.server.closed other)
    (advances : Advances dep sys.server.ctx.contents id (owner id) (sys.conns id) server conn) :
    ∃ owner', Consistent dep ⟨server, Function.update sys.conns id conn⟩ owner' := by
  obtain ⟨own,⟨kept,claimed⟩,agrees,_⟩ := advances
  have apart (other : Nat) (ne : other ≠ id) (handle : PageHandle) (owned : owner other = some handle) :
      own ≠ some handle ∧ server.ctx.contents handle = sys.server.ctx.contents handle := by
    have live := (owned ▸ consistent.agrees other).live
    have notOwn : owner id ≠ some handle := fun mine => ne (consistent.distinct _ _ _ owned mine)
    refine ⟨?_,kept handle notOwn live⟩
    intro taken
    rcases claimed handle taken with mine | free
    · exact notOwn mine
    · exact live free
  refine ⟨Function.update owner id own,wellFormed,?_,?_⟩
  · intro a b handle ownedA ownedB
    by_cases sameA : a = id <;> by_cases sameB : b = id
    · rw [sameA,sameB]
    · subst sameA
      rw [Function.update_self] at ownedA
      rw [Function.update_of_ne sameB] at ownedB
      exact absurd ownedA (apart b sameB handle ownedB).1
    · subst sameB
      rw [Function.update_self] at ownedB
      rw [Function.update_of_ne sameA] at ownedA
      exact absurd ownedB (apart a sameA handle ownedA).1
    · rw [Function.update_of_ne sameA] at ownedA
      rw [Function.update_of_ne sameB] at ownedB
      exact consistent.distinct a b handle ownedA ownedB
  · intro other
    by_cases same : other = id
    · subst same
      simpa only [Function.update_self] using agrees
    · simp only [Function.update_of_ne same,others other same]
      exact (consistent.agrees other).frame (fun handle owned => (apart other same handle owned).2)

theorem serverRound_frame (dep : Deployment) {sys : System dep.rmps.Error} (id : Nat) {env : Env}
    (wellFormed : sys.server.ctx.WellFormed) (lawful : env.Lawful sys.server.ctx) :
    (dep.serverRound sys id env).1.ctx.WellFormed ∧
      ∀ other, other ≠ id → (dep.serverRound sys id env).1.closed other = sys.server.closed other := by
  have closes : (sys.server.close id).ctx.WellFormed ∧
      ∀ other, other ≠ id → (sys.server.close id).closed other = sys.server.closed other :=
    ⟨wellFormed,fun other ne => Function.update_of_ne ne _ _⟩
  unfold Deployment.serverRound
  split
  · next request up _ =>
    refine ⟨step_wellFormed dep.machine wellFormed lawful,?_⟩
    intro other ne
    simp only [Server.step]
    split
    · rfl
    · exact closeUnlessOk_other _ _ ne
  · exact closes
  · exact closes

theorem step_advances {dep : Deployment} (laws : dep.rmps.Lawful) (valid : ∀ id, (dep.workload id).Valid)
    (frames : ∀ id, (dep.workload id).SmallFrames dep.rmps) {sys sys' : System dep.rmps.Error} {id : Nat}
    {owner : Nat → Option PageHandle} (consistent : Consistent dep sys owner) (step : dep.Step id sys sys') :
    ∃ server conn, sys' = ⟨server, Function.update sys.conns id conn⟩ ∧ server.ctx.WellFormed ∧
      (∀ other, other ≠ id → server.closed other = sys.server.closed other) ∧
      Advances dep sys.server.ctx.contents id (owner id) (sys.conns id) server conn := by
  have agrees := consistent.agrees id
  cases step with
  | connect chunks fresh delivers =>
    refine ⟨_,_,rfl,consistent.wellFormed,fun _ _ => rfl,?_⟩
    generalize sys.conns id = conn at *
    unfold Advances
    generalize owner id = own at *
    cases agrees with
    | connected isOpen up down =>
      refine ⟨none,keepsOthers_same _ _,.allocSent isOpen (up.send delivers) down,?_⟩
      simp only [Connection.left]
      split <;> omega
    | tooLarge _ _ phase => rcases phase with rfl | ⟨e,rfl⟩ <;> contradiction
    | _ => contradiction
  | serve env chunks isOpen arrived lawful maps delivers =>
    obtain ⟨wellFormed,others⟩ := serverRound_frame dep id consistent.wellFormed lawful
    exact ⟨_,_,rfl,wellFormed,others,serve_advances laws (valid id) (frames id) consistent.wellFormed isOpen
      arrived lawful maps delivers agrees⟩
  | receive chunks waits arrived delivers =>
    exact ⟨_,_,rfl,consistent.wellFormed,fun _ _ => rfl,
      receive_advances laws (valid id) (frames id) waits arrived delivers agrees⟩

theorem run_consistent {dep : Deployment} (laws : dep.rmps.Lawful) (valid : ∀ id, (dep.workload id).Valid)
    (frames : ∀ id, (dep.workload id).SmallFrames dep.rmps) {schedule : List Nat} {sys : System dep.rmps.Error}
    (run : dep.Run schedule sys) : (∃ owner, Consistent dep sys owner) ∧
      ∀ id, (sys.conns id).left (dep.workload id) ≤
        4 * (dep.workload id).bufSize.toNat + 4 - schedule.count id := by
  induction run with
  | initial => exact ⟨⟨_,consistent_initial dep⟩,fun id => Nat.le_refl _⟩
  | @step schedule sys sys' id _ step ih =>
    obtain ⟨⟨owner,consistent⟩,left⟩ := ih
    obtain ⟨server,conn,rfl,wellFormed,others,advances⟩ := step_advances laws valid frames consistent step
    refine ⟨consistent.advance id wellFormed others advances,?_⟩
    intro other
    have before := left other
    by_cases same : other = id
    · subst same
      obtain ⟨_,_,_,closer⟩ := advances
      simp only [Function.update_self,List.count_cons_self]
      omega
    · simpa only [Function.update_of_ne same,List.count_cons_of_ne (Ne.symm same)] using before

/-- The entries of a store can be listed, and there is an end to the memory they take up. -/
def ServerContext.Bounded (ctx : ServerContext) (handles : List PageHandle) (top : Nat) : Prop :=
  ∀ handle buf, ctx.pages handle = some buf → handle ∈ handles ∧ buf.ptr + buf.len.toNat ≤ top

theorem lawful_exists {ctx : ServerContext} {handles : List PageHandle} {top : Nat}
    (bounded : ctx.Bounded handles top) (few : handles.length < 2 ^ 64) :
    ∃ env : Env, env.Lawful ctx ∧ env.MapsNonempty := by
  obtain ⟨index,free⟩ : ∃ index : UInt64, index ∉ handles := by
    by_contra all
    push Not at all
    have inside : List.range (2 ^ 64) ⊆ handles.map UInt64.toNat := by
      intro n small
      exact List.mem_map.mpr ⟨UInt64.ofNat n,all _,UInt64.toNat_ofNat_of_lt' (List.mem_range.mp small)⟩
    have counted := (List.nodup_range.subperm inside).length_le
    rw [List.length_range,List.length_map] at counted
    omega
  refine ⟨.mapsAt top index,⟨?_,?_⟩,?_⟩
  · intro len ptr mapped handle buf live
    have below := (bounded handle buf live).2
    simp only [Env.mapsAt] at mapped
    split at mapped
    · contradiction
    · obtain rfl := Except.ok.inj mapped
      exact .inr (.inr (.inr below))
  · cases live : ctx.pages index with
    | none => exact live
    | some buf => exact absurd (bounded index buf live).1 free
  · intro len nonzero
    exact ⟨top,if_neg nonzero⟩

theorem serverRound_pages (dep : Deployment) (sys : System dep.rmps.Error) (id : Nat) (env : Env) :
    (dep.serverRound sys id env).1.ctx.pages = sys.server.ctx.pages ∨
    ∃ buf, (dep.serverRound sys id env).1.ctx.pages = sys.server.ctx.pages.insert env.freeIndex buf := by
  unfold Deployment.serverRound
  split
  · next request up _ =>
    rcases sys.server.step_cases dep.machine ⟨id, request, env⟩ with idle | ⟨closed,stepped⟩
    · exact .inl (by simp only [idle])
    · simp only [stepped]
      rcases handle_pages dep.machine sys.server.ctx env request with same | ⟨alloc,ptr,_,_,inserted⟩
      · exact .inl same
      · exact .inr ⟨_,inserted⟩
  · exact .inl rfl
  · exact .inl rfl

theorem run_bounded {dep : Deployment} {schedule : List Nat} {sys : System dep.rmps.Error}
    (run : dep.Run schedule sys) : ∃ handles top, handles.length ≤ schedule.length ∧
      sys.server.ctx.Bounded handles top := by
  induction run with
  | initial => exact ⟨[],0,Nat.le_refl _,fun _ _ live => by contradiction⟩
  | @step schedule sys sys' id _ step ih =>
    obtain ⟨handles,top,count,bounded⟩ := ih
    have same (pages : sys'.server.ctx.pages = sys.server.ctx.pages) : ∃ handles top,
        handles.length ≤ (id :: schedule).length ∧ sys'.server.ctx.Bounded handles top :=
      ⟨handles,top,Nat.le_succ_of_le count,fun handle buf live => bounded handle buf (pages ▸ live)⟩
    cases step with
    | connect chunks _ _ => exact same rfl
    | receive chunks _ _ _ => exact same rfl
    | serve env chunks _ _ _ _ _ =>
      rcases serverRound_pages dep sys id env with kept | ⟨buf,inserted⟩
      · exact same kept
      · refine ⟨env.freeIndex :: handles,max top (buf.ptr + buf.len.toNat),by simpa using count,?_⟩
        intro handle buf' live
        rw [inserted,Arena.insert,Function.update_apply] at live
        split at live
        · next same =>
          obtain rfl := Option.some.inj live
          exact ⟨by simp [same],Nat.le_max_right _ _⟩
        · obtain ⟨member,below⟩ := bounded handle buf' live
          exact ⟨List.mem_cons_of_mem _ member,Nat.le_trans below (Nat.le_max_left _ _)⟩

theorem run_lawful_env {dep : Deployment} {schedule : List Nat} {sys : System dep.rmps.Error}
    (run : dep.Run schedule sys) (short : schedule.length < 2 ^ 64) :
    ∃ env : Env, env.Lawful sys.server.ctx ∧ env.MapsNonempty := by
  obtain ⟨handles,top,count,bounded⟩ := run_bounded run
  exact lawful_exists bounded (by omega)

theorem Consistent.enabled {dep : Deployment} (laws : dep.rmps.Lawful) {sys : System dep.rmps.Error}
    {owner : Nat → Option PageHandle} (consistent : Consistent dep sys owner) {id : Nat}
    (unfinished : (sys.conns id).client.phase.ended = false) {env : Env} (lawful : env.Lawful sys.server.ctx)
    (maps : env.MapsNonempty) : ∃ sys', dep.Step id sys sys' := by
  have serves (isOpen : sys.server.closed id = false) (sent : (sys.conns id).up.socket ≠ []) :
      ∃ sys', dep.Step id sys sys' := by
    obtain ⟨chunks,delivers⟩ := delivers_exists (streamOf dep.rmps (dep.serverRound sys id env).2.2)
    exact ⟨_,.serve env chunks isOpen (.inl sent) lawful maps delivers⟩
  have receives (waits : (sys.conns id).client.phase.waits)
      (arrived : (sys.conns id).down.socket ≠ [] ∨ sys.server.closed id) : ∃ sys', dep.Step id sys sys' := by
    obtain ⟨chunks,delivers⟩ := delivers_exists (streamOf dep.rmps (dep.clientRound id (sys.conns id)).2)
    exact ⟨_,.receive chunks waits arrived delivers⟩
  have agrees := consistent.agrees id
  generalize there : sys.conns id = conn at agrees unfinished serves receives
  generalize owner id = own at agrees
  cases agrees with
  | connected _ _ _ =>
    obtain ⟨chunks,delivers⟩ := delivers_exists (writeTo dep.rmps (dep.workload id).allocRequest)
    exact ⟨_,.connect chunks (by rw [there]) delivers⟩
  | allocSent isOpen up _ => exact serves isOpen (up.socket_ne laws)
  | allocated _ _ _ down _ _ => exact receives rfl (.inl (down.socket_ne laws))
  | lost isClosed _ _ => exact receives rfl (.inr isClosed)
  | writeSent _ isOpen _ up _ _ => exact serves isOpen (up.socket_ne laws)
  | written _ _ _ _ down _ => exact receives rfl (.inl (down.socket_ne laws))
  | readSent _ isOpen _ up _ _ => exact serves isOpen (up.socket_ne laws)
  | readBack _ _ _ _ down _ => exact receives rfl (.inl (down.socket_ne laws))
  | verified _ _ _ _ _ => simp [Phase.ended] at unfinished
  | tooLarge _ _ phase => rcases phase with rfl | ⟨e,rfl⟩ <;> simp [Phase.ended] at unfinished

theorem Agrees.ended_of_left {R : Rmps} {w : Workload} {pages : PageMap} {closed : Bool}
    {conn : Connection R.Error} {owner : Option PageHandle} (agrees : Agrees R w pages closed conn owner)
    (finished : conn.left w = 0) : conn.client.phase.ended := by
  cases agrees with
  | writeSent _ _ working _ _ _ | written _ _ working _ _ _ | readSent _ _ working _ _ _
  | readBack _ _ working _ _ _ =>
    have := working.range.inside
    simp only [Connection.left] at finished
    omega
  | verified _ _ _ _ _ => rfl
  | tooLarge _ _ phase => rcases phase with rfl | ⟨e,rfl⟩ <;> rfl
  | _ =>
    simp only [Connection.left] at finished
    omega

/-- Every run can be continued by steps of one connection until its client has ended. -/
theorem run_completes {dep : Deployment} (laws : dep.rmps.Lawful) (valid : ∀ id, (dep.workload id).Valid)
    (frames : ∀ id, (dep.workload id).SmallFrames dep.rmps) (id left : Nat) {schedule : List Nat}
    {sys : System dep.rmps.Error} (run : dep.Run schedule sys)
    (within : (sys.conns id).left (dep.workload id) ≤ left) (room : schedule.length + left < 2 ^ 64) :
    ∃ more sys', dep.Run (List.replicate more id ++ schedule) sys' ∧ (sys'.conns id).client.phase.ended := by
  induction left generalizing schedule sys with
  | zero =>
    obtain ⟨⟨owner,consistent⟩,_⟩ := run_consistent laws valid frames run
    exact ⟨0,sys,run,(consistent.agrees id).ended_of_left (Nat.le_zero.mp within)⟩
  | succ left ih =>
    obtain ⟨⟨owner,consistent⟩,_⟩ := run_consistent laws valid frames run
    by_cases ended : (sys.conns id).client.phase.ended
    · exact ⟨0,sys,run,ended⟩
    obtain ⟨env,lawful,maps⟩ := run_lawful_env run (by omega)
    obtain ⟨sys',step⟩ := consistent.enabled laws (by simpa using ended) lawful maps
    obtain ⟨server,conn,rfl,_,_,_,_,_,closer⟩ := step_advances laws valid frames consistent step
    obtain ⟨more,final,run',ended'⟩ := ih (.step run step) (by simp only [Function.update_self]; omega)
      (by simp only [List.length_cons]; omega)
    refine ⟨more + 1,final,?_,ended'⟩
    rwa [List.replicate_succ',List.append_assoc]

/-- What a client never does, and what it has done when it returns: with a buffer that can be
made it neither panics nor fails, its ranges follow one another without gap or overlap, and
the page it has written starts with its buffer. -/
structure Verified (w : Workload) (pages : PageMap) (client : Client ε) : Prop where
  noBadResponse : ∀ reason, client.phase ≠ .returned (.error (.badResponseError reason))
  noFailure : w.bufSize.toNat ≤ isizeMax →
    (∀ panic, client.phase ≠ .panicked panic) ∧ ∀ e, client.phase ≠ .returned (.error e)
  taken : ∃ size, size ≤ w.bufSize.toNat ∧ Partitions client.chunks size
  finished : ∀ handle, client.phase = .returned (.ok handle) → Partitions client.chunks w.bufSize.toNat ∧
    ∃ page, pages handle = some page ∧ page.take w.bufSize.toNat = w.buf

theorem verified_waiting {w : Workload} {pages : PageMap} {phase : Phase ε} {ranges : List (UInt64 × UInt64)}
    (unfinished : phase.ended = false) {size : Nat} (inside : size ≤ w.bufSize.toNat)
    (covered : Partitions ranges size) : Verified w pages ⟨phase, ranges⟩ := by
  refine ⟨?_,fun _ => ⟨?_,?_⟩,⟨size,inside,covered⟩,?_⟩
  all_goals
    rintro _ rfl
    contradiction

theorem Agrees.verified_client {R : Rmps} {w : Workload} {pages : PageMap} {closed : Bool}
    {conn : Connection R.Error} {owner : Option PageHandle} (agrees : Agrees R w pages closed conn owner) :
    Verified w pages conn.client := by
  cases agrees with
  | connected _ _ _ => exact verified_waiting rfl (Nat.zero_le _) partitions_nil
  | allocSent _ _ _ => exact verified_waiting rfl (Nat.zero_le _) partitions_nil
  | allocated _ _ _ _ _ _ => exact verified_waiting rfl (Nat.zero_le _) partitions_nil
  | lost _ _ _ => exact verified_waiting rfl (Nat.zero_le _) partitions_nil
  | writeSent _ _ working _ _ _ => exact verified_waiting rfl working.range.stop_le working.covered
  | written _ _ working _ _ _ => exact verified_waiting rfl working.range.stop_le working.covered
  | readSent _ _ working _ _ _ => exact verified_waiting rfl working.range.stop_le working.covered
  | readBack _ _ working _ _ _ => exact verified_waiting rfl working.range.stop_le working.covered
  | verified handle _ covered small stored =>
    refine ⟨by simp,fun _ => by simp,⟨_,Nat.le_refl _,covered⟩,?_⟩
    intro handle' same
    obtain rfl := Except.ok.inj (Phase.returned.inj same)
    obtain ⟨page,there,_,bytes⟩ := stored
    exact ⟨covered,page,there,by rw [bytes,← w.filled,List.take_length]⟩
  | tooLarge _ large phase =>
    rcases phase with rfl | ⟨e,rfl⟩
    · exact ⟨by simp,fun small => absurd large (by omega),⟨0,Nat.zero_le _,partitions_nil⟩,by simp⟩
    · exact ⟨by simp,fun small => absurd large (by omega),⟨0,Nat.zero_le _,partitions_nil⟩,by simp⟩

/-- In every run of any number of clients against one server, under every interleaving and
every cutting of the bytes, each client verifies; until it has ended its connection can take
a step, and it has ended after a number of such steps that its buffer's size bounds. -/
theorem chunk_loop_verifies (dep : Deployment) (laws : dep.rmps.Lawful)
    (valid : ∀ id, (dep.workload id).Valid) (frames : ∀ id, (dep.workload id).SmallFrames dep.rmps)
    (schedule : List Nat) (sys : System dep.rmps.Error) (run : dep.Run schedule sys) (id : Nat) :
    Verified (dep.workload id) sys.server.ctx.contents (sys.conns id).client ∧
    (schedule.length < 2 ^ 64 → (sys.conns id).client.phase.ended = false → ∃ sys', dep.Step id sys sys') ∧
    (4 * (dep.workload id).bufSize.toNat + 4 ≤ schedule.count id → (sys.conns id).client.phase.ended) := by
  obtain ⟨⟨owner,consistent⟩,left⟩ := run_consistent laws valid frames run
  refine ⟨(consistent.agrees id).verified_client,?_,?_⟩
  · intro short unfinished
    obtain ⟨env,lawful,maps⟩ := run_lawful_env run short
    exact consistent.enabled laws unfinished lawful maps
  · intro enough
    have finished : (sys.conns id).left (dep.workload id) = 0 := by
      have := left id
      omega
    exact (consistent.agrees id).ended_of_left finished

/-- The sizes the source runs with, a buffer of 1 GiB in chunks of 16 MiB; each client fills
its buffer with a byte of its own. -/
def Deployment.benchmark : Deployment where
  rmps := MessagePackRmps.rmps
  grow := .exact
  machine := ⟨true, true, 12, by decide⟩
  maxNumFns := 16
  memory _ := 0
  serverAddr := none
  clientAddr _ := none
  workload id := ⟨true, 4096 * 4096 * 64, 16 * 256 * 4096, List.replicate (2 ^ 30) (UInt8.ofNat id),
    by rw [List.length_replicate]; rfl⟩

theorem chunk_loop_verifies_benchmark : ∃ schedule sys handle page,
    Deployment.benchmark.Run schedule sys ∧ (sys.conns 1).client.phase = .returned (.ok handle) ∧
      Partitions (sys.conns 1).client.chunks (2 ^ 30) ∧ sys.server.ctx.contents handle = some page ∧
      page.take (2 ^ 30) = List.replicate (2 ^ 30) 1 := by
  have laws : Deployment.benchmark.rmps.Lawful :=
    ⟨MessagePackRmps.roundTrips,MessagePackRmps.stable,MessagePackRmps.consumes⟩
  have size (id : Nat) : (Deployment.benchmark.workload id).bufSize.toNat = 2 ^ 30 := rfl
  have chunk (id : Nat) : (Deployment.benchmark.workload id).chunkSize.toNat = 2 ^ 24 := rfl
  have valid (id : Nat) : (Deployment.benchmark.workload id).Valid := by
    refine ⟨by rw [size]; decide,by rw [chunk]; decide,?_⟩
    intro i _ inside
    rw [size] at inside
    rw [chunk]
    omega
  have frames (id : Nat) : (Deployment.benchmark.workload id).SmallFrames Deployment.benchmark.rmps :=
    smallFrames_of_sized MessagePackRmps.sized (valid id) (by rw [chunk]; decide)
  obtain ⟨more,sys,run,ended⟩ := run_completes laws valid frames 1 (4 * 2 ^ 30 + 4) .initial (Nat.le_refl _)
    (by decide)
  obtain ⟨verified,_⟩ := chunk_loop_verifies Deployment.benchmark laws valid frames _ sys run 1
  obtain ⟨noPanic,noError⟩ := verified.noFailure (by rw [size]; decide)
  cases phase : (sys.conns 1).client.phase with
  | panicked panic => exact absurd phase (noPanic panic)
  | returned result =>
    cases result with
    | error e => exact absurd phase (noError e)
    | ok handle =>
      obtain ⟨covered,page,there,bytes⟩ := verified.finished handle phase
      exact ⟨_,sys,handle,page,run,phase,covered,there,bytes⟩
  | _ => simp [phase,Phase.ended] at ended

end Ndp
