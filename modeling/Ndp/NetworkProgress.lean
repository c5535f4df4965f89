import Ndp.NetworkRefines
import Ndp.Scheduling

/-! No request is left lying. A poll that changes anything brings its connection nearer to an
end, so tasks that are polled in turn come to rest; at rest, every request that has arrived
whole has been served and answered, unless its connection failed on one of its own. The one
thing that can hold the others up is a reply that is never written. -/
namespace Ndp

open Looping

section Locks

variable {host : Host} {net net' : Network host.lock} {id : Nat} {env : Env} {emitted : List Event}

/-- The readers of the pages are the tasks that have still to write their reply under the lock,
and who waits in the queue is about to serve a request of that kind. -/
structure Network.Locks {L : RwLock Nat} (net : Network L) : Prop where
  reads : ∀ id, id ∈ L.readers net.lock ↔ (net.conns id).task.holdsPages = true
  waits : ∀ waiter ∈ L.queue net.lock, ∃ request, (net.conns waiter.1).task = .serving request ∧
    request.locksForWriting = waiter.2
  once : ((L.queue net.lock).map Prod.fst).Nodup

@[simp] theorem holdsPages_behind (result : HandlerEnd) : (TaskAt.behind result).holdsPages = false := by
  unfold TaskAt.behind
  split <;> rfl

theorem Network.Locks.set (locks : net.Locks) (ctx : ServerContext) {lock : host.lock.State} {conn : ConnTask}
    (own : id ∈ host.lock.readers lock ↔ conn.task.holdsPages = true)
    (others : ∀ other, other ≠ id → (other ∈ host.lock.readers lock ↔ other ∈ host.lock.readers net.lock))
    (fewer : (host.lock.queue lock).Sublist (host.lock.queue net.lock))
    (gone : ∀ waiter ∈ host.lock.queue lock, waiter.1 ≠ id) :
    (Network.set ⟨ctx, lock, net.conns, net.aborted⟩ id conn).Locks := by
  refine ⟨?_,?_,locks.once.sublist (fewer.map _)⟩
  · intro other
    by_cases same : other = id
    · subst same
      simpa using own
    · rw [Network.set_other _ _ same]
      exact (others other same).trans (locks.reads other)
  · intro waiter member
    rw [Network.set_other _ _ (gone waiter member)]
    exact locks.waits waiter (fewer.subset member)

theorem Network.Locks.not_waiting (locks : net.Locks) (elsewhere : ∀ request, (net.conns id).task ≠ .serving request) :
    ∀ waiter ∈ host.lock.queue net.lock, waiter.1 ≠ id := by
  rintro waiter member rfl
  obtain ⟨request,serving,_⟩ := locks.waits waiter member
  exact elsewhere request serving

section Books

variable (books : host.lock.Books)

include books

theorem Network.Locks.pass (locks : net.Locks) {request : RequestBodyOwned}
    (serving : (net.conns id).task = .serving request) (ctx : ServerContext) {conn : ConnTask}
    (released : conn.task.holdsPages = false) :
    (Network.set ⟨ctx, host.lock.pass net.lock id, net.conns, net.aborted⟩ id conn).Locks := by
  have own := locks.reads id
  rw [serving] at own
  refine locks.set ctx ?_ (fun _ _ => by rw [books.pass_readers]) ?_ ?_
  · rwa [released,books.pass_readers]
  · rw [books.pass_queue]
    exact List.filter_sublist
  · rw [books.pass_queue]
    exact fun waiter member => by simpa using (List.mem_filter.mp member).2

theorem Network.Locks.hold (locks : net.Locks) (ctx : ServerContext) {conn : ConnTask}
    (holds : conn.task.holdsPages = true) :
    (Network.set ⟨ctx, host.lock.hold net.lock id, net.conns, net.aborted⟩ id conn).Locks := by
  refine locks.set ctx ?_ (fun other ne => ?_) ?_ ?_
  · simp [books.hold_readers,holds]
  · simp [books.hold_readers,ne]
  · rw [books.hold_queue]
    exact List.filter_sublist
  · rw [books.hold_queue]
    exact fun waiter member => by simpa using (List.mem_filter.mp member).2

theorem Network.Locks.wait (locks : net.Locks) {request : RequestBodyOwned}
    (serving : (net.conns id).task = .serving request) :
    Network.Locks { net with lock := host.lock.wait net.lock id request.locksForWriting } := by
  by_cases waiting : host.lock.Waits net.lock id
  · rw [books.wait_again _ _ _ waiting]
    exact locks
  · refine ⟨fun other => ?_,?_,?_⟩
    · rw [books.wait_readers]
      exact locks.reads other
    · rw [books.wait_queue _ _ _ waiting]
      intro waiter member
      rcases List.mem_append.mp member with old | new
      · exact locks.waits waiter old
      · obtain rfl := List.mem_singleton.mp new
        exact ⟨request,serving,rfl⟩
    · rw [books.wait_queue _ _ _ waiting,List.map_append,List.map_singleton,← List.concat_eq_append]
      exact locks.once.concat waiting

theorem polled_locks (locks : net.Locks) (polled : host.Polled net id env emitted net') : net'.Locks := by
  have own := locks.reads id
  cases polled with
  | waits => exact locks
  | aborts => exact ⟨locks.reads,locks.waits,locks.once⟩
  | queues request serving blocked => exact locks.wait books serving
  | reads link reading ready read =>
    exact locks.set _ own (fun _ _ => Iff.rfl) (List.Sublist.refl _) (locks.not_waiting (by simp [reading]))
  | takes request link reading ready read | breaks e link reading ready read | panics panic reading ready read =>
    rw [reading] at own
    exact locks.set _ own (fun _ _ => Iff.rfl) (List.Sublist.refl _) (locks.not_waiting (by simp [reading]))
  | finishes request serving granted silent => exact locks.pass books serving _ (holdsPages_behind _)
  | handles request serving granted replies =>
    cases writes : request.locksForWriting with
    | true => exact locks.pass books serving _ (by simp [TaskAt.holdsPages,writes])
    | false => exact locks.hold books _ (by simp [TaskAt.holdsPages,writes])
  | answers request replies result answering =>
    refine locks.set _ ?_ (fun other ne => ?_) ?_ ?_
    · simp [books.release_readers]
    · simp [books.release_readers,ne]
    · rw [books.release_queue]
    · rw [books.release_queue]
      exact locks.not_waiting (by simp [answering])

end Books

theorem arrive_task (host : Host) (net : Network host.lock) (id : Nat) (event : ReadEvent) (conn : Nat) :
    ((host.step net (.arrive id event)).conns conn).task = (net.conns conn).task := by
  simp only [Host.step]
  by_cases same : conn = id
  · subst same
    rw [Network.set_self]
  · rw [Network.set_other _ _ same]

theorem run_locks (host : Host) (books : host.lock.Books) (events : List NetEvent) : (host.after events).Locks := by
  refine Tracing.history_invariant host.step Network.serves (fun _ _ net => net.Locks) ?_ ?_ events
  · exact ⟨by simp [Host.start,books.free_readers,TaskAt.holdsPages],by simp [Host.start,books.free_queue],
      by simp [Host.start,books.free_queue]⟩
  · intro events event locks
    cases event with
    | arrive id event =>
      refine ⟨fun other => ?_,fun waiter member => ?_,locks.once⟩
      · rw [arrive_task]
        exact locks.reads other
      · rw [arrive_task]
        exact locks.waits waiter member
    | poll id env => exact polled_locks books locks (host.poll_polled _ id env)

/-- What is known of a run from the point on at which a connection has the lock for reading, as
long as its task is not polled again. -/
structure Stalled {L : RwLock Nat} (before : Network L) (reader : Nat) (later : List Event) (net : Network L) : Prop where
  reads : reader ∈ L.readers net.lock
  pages : net.ctx.pages = before.ctx.pages
  task : (net.conns reader).task = (before.conns reader).task
  served : ∀ event ∈ later, event.request.locksForWriting = false
  passed : ∀ w, (w, true) ∈ L.queue before.lock → L.Passed before.lock w (later.map Event.conn) net.lock

section Stalling

variable (books : host.lock.Books) (excludes : host.lock.Excludes) (inTurn : host.lock.InTurn)

include excludes inTurn

theorem Stalled.serve {before : Network host.lock} {reader : Nat} {later : List Event}
    (stalled : Stalled before reader later net) (locks : net.Locks) (other : reader ≠ id) {request : RequestBodyOwned}
    (serving : (net.conns id).task = .serving request) (granted : net.blocked id request = false)
    {lock : host.lock.State} (queue : host.lock.queue lock = (host.lock.queue net.lock).filter fun waiter => waiter.1 ≠ id)
    (kept : reader ∈ host.lock.readers lock) (conn : ConnTask) :
    Stalled before reader (later ++ [⟨id, request, env⟩])
      (Network.set ⟨(net.ctx.handle host.machine env request).ctx, lock, net.conns, net.aborted⟩ id conn) := by
  have notWriting : request.locksForWriting = false := by
    cases writes : request.locksForWriting with
    | false => rfl
    | true =>
      rw [Network.blocked,writes,excludes net.lock (List.ne_nil_of_mem stalled.reads)] at granted
      contradiction
  have added : (net.ctx.handle host.machine env request).ctx.pages = net.ctx.pages := by
    rcases handle_pages host.machine net.ctx env request with same | ⟨alloc,_,rfl,_⟩
    · exact same
    · simp [RequestBodyOwned.locksForWriting] at notWriting
  refine ⟨kept,added.trans stalled.pages,?_,?_,?_⟩
  · rw [Network.set_other _ _ other]
    exact stalled.task
  · intro event member
    rcases List.mem_append.mp member with old | new
    · exact stalled.served event old
    · obtain rfl := List.mem_singleton.mp new
      exact notWriting
  · intro w waits
    have so := stalled.passed w waits
    have different : id ≠ w := by
      rintro rfl
      obtain ⟨request',serving',writes⟩ := locks.waits _ so.waits
      obtain rfl := TaskAt.serving.inj (serving.symm.trans serving')
      rw [notWriting] at writes
      contradiction
    rw [Network.blocked,notWriting] at granted
    rw [List.map_append,List.map_singleton]
    exact so.pass inTurn locks.once different granted queue

include books

theorem Stalled.poll {before : Network host.lock} {reader : Nat} {later : List Event}
    (stalled : Stalled before reader later net) (locks : net.Locks) (other : reader ≠ id)
    (polled : host.Polled net id env emitted net') : Stalled before reader (later ++ emitted) net' := by
  have kept := (polled.other [] other).2
  cases polled with
  | waits => simpa using stalled
  | aborts =>
    rw [List.append_nil]
    exact ⟨stalled.reads,stalled.pages,stalled.task,stalled.served,stalled.passed⟩
  | queues request serving blocked =>
    rw [List.append_nil]
    exact ⟨by simpa [books.wait_readers] using stalled.reads,stalled.pages,stalled.task,stalled.served,
      fun w waits => (stalled.passed w waits).wait books id _⟩
  | reads | takes | breaks | panics =>
    rw [List.append_nil]
    exact ⟨stalled.reads,stalled.pages,by rw [kept]; exact stalled.task,stalled.served,stalled.passed⟩
  | finishes request serving granted silent =>
    exact stalled.serve excludes inTurn locks other serving granted (books.pass_queue _ _)
      (by rw [books.pass_readers]; exact stalled.reads) _
  | handles request serving granted replies =>
    cases writes : request.locksForWriting with
    | true =>
      exact stalled.serve excludes inTurn locks other serving granted (books.pass_queue _ _)
        (by rw [books.pass_readers]; exact stalled.reads) _
    | false =>
      exact stalled.serve excludes inTurn locks other serving granted (books.hold_queue _ _)
        (by rw [books.hold_readers]; exact List.mem_cons_of_mem _ stalled.reads) _
  | answers =>
    rw [List.append_nil]
    exact ⟨by simpa [books.release_readers] using ⟨stalled.reads,other⟩,stalled.pages,by rw [kept]; exact stalled.task,
      stalled.served,fun w waits => (stalled.passed w waits).queue_eq (books.release_queue _ _)⟩

end Stalling

theorem run_stalled (host : Host) (books : host.lock.Books) (excludes : host.lock.Excludes) (inTurn : host.lock.InTurn)
    (events more : List NetEvent) (reader : Nat)
    (unwritten : ((host.after events).conns reader).task.holdsPages = true)
    (unpolled : ∀ env, NetEvent.poll reader env ∉ more) :
    Stalled (host.after events) reader (Tracing.trace host.step Network.serves (host.after events) more)
      (host.after (events ++ more)) := by
  have split (more : List NetEvent) : host.after (events ++ more) = Tracing.after host.step (host.after events) more :=
    Tracing.after_append ..
  rw [split]
  revert unpolled
  refine @Tracing.history_invariant _ _ _ host.step Network.serves (host.after events)
    (fun more later net => (∀ env, NetEvent.poll reader env ∉ more) → Stalled (host.after events) reader later net)
    (fun _ => ⟨((run_locks host books events).reads reader).mpr unwritten,rfl,rfl,by simp,fun w => .start⟩) ?_ more
  intro more event ih unpolled
  have stalled := ih (fun env member => unpolled env (by simp [member]))
  cases event with
  | arrive id event =>
    simp only [Network.serves,List.append_nil]
    refine ⟨stalled.reads,stalled.pages,?_,stalled.served,stalled.passed⟩
    rw [arrive_task]
    exact stalled.task
  | poll id env =>
    have other : reader ≠ id := by
      rintro rfl
      exact unpolled env (by simp)
    have locks : (Tracing.after host.step (host.after events) more).Locks := split more ▸ run_locks host books _
    exact stalled.poll books excludes inTurn locks other (host.poll_polled _ id env)

/-- With a lock that keeps its books, excludes writers beside readers and is given out in turn: as long as a
connection's reply to anything but an allocation is not written (its task is not polled again), whatever arrives
anywhere and however the others are polled, no allocation of any connection is served and the table of pages stays
as it is, while what the pages hold may change. And if an allocation waits already, then of all connections only
those are served, once each at most, that were waiting in front of it. -/
theorem unwritten_reply_stalls_server (host : Host) (books : host.lock.Books) (excludes : host.lock.Excludes)
    (inTurn : host.lock.InTurn) (events more : List NetEvent) (reader : Nat)
    (unwritten : ((host.after events).conns reader).task.holdsPages = true)
    (unpolled : ∀ env, NetEvent.poll reader env ∉ more) :
    (host.after (events ++ more)).ctx.pages = (host.after events).ctx.pages ∧
      ((host.after (events ++ more)).conns reader).task = ((host.after events).conns reader).task ∧
      ∃ later, host.served (events ++ more) = host.served events ++ later ∧
        (∀ event ∈ later, event.request.locksForWriting = false) ∧
        ∀ w, (w, true) ∈ host.lock.queue (host.after events).lock →
          later.length ≤ (host.lock.ahead (host.after events).lock w).length ∧
          ∀ event ∈ later, event.conn ∈ (host.lock.ahead (host.after events).lock w).map Prod.fst := by
  have stalled := run_stalled host books excludes inTurn events more reader unwritten unpolled
  refine ⟨stalled.pages,stalled.task,_,Tracing.trace_append .. ,stalled.served,fun w waits => ?_⟩
  have so := stalled.passed w waits
  have count := so.count
  rw [List.length_map] at count
  exact ⟨Nat.le_of_add_right_le count,fun event member => so.front _ (List.mem_map_of_mem member)⟩

end Locks

/-- A read of a page that is not there, whose reply is not written. -/
def Host.refusedRead : List NetEvent :=
  [.arrive 0 (.data [0x92, 0xa4, 82, 69, 65, 68, 4, 0x93, 1, 2, 3]), .poll 0 (.mapsAt 100 0), .poll 0 (.mapsAt 100 0)]

/-- An allocation of another connection. -/
def Host.otherAlloc : List NetEvent :=
  [.arrive 1 (.data [0x92, 0xa5, 65, 76, 76, 79, 67, 2, 0x91, 5]), .poll 1 (.mapsAt 100 0), .poll 1 (.mapsAt 100 0)]

/-- A third connection's read, polled once it is decoded. -/
def Host.otherRead : List NetEvent :=
  [.arrive 2 (.data [0x92, 0xa4, 82, 69, 65, 68, 4, 0x93, 1, 2, 3]), .poll 2 (.mapsAt 100 0), .poll 2 (.mapsAt 100 0)]

/-- Not even a read is served then. -/
theorem refused_read_stalls_server :
    ((Host.small.after ((Host.refusedRead ++ Host.otherAlloc) ++ Host.otherRead)).conns 2).task =
      .serving (.read ⟨1, 2, 3⟩) ∧
    Host.small.served ((Host.refusedRead ++ Host.otherAlloc) ++ Host.otherRead) =
      Host.small.served (Host.refusedRead ++ Host.otherAlloc) := by
  refine ⟨rfl,?_⟩
  obtain ⟨_,_,later,served,_,passed⟩ := unwritten_reply_stalls_server Host.small QueueLock.books QueueLock.excludes
    QueueLock.inTurn (Host.refusedRead ++ Host.otherAlloc) Host.otherRead 0 rfl (by intro env; simp [Host.otherRead])
  have silent : later = [] := List.eq_nil_of_length_eq_zero (Nat.le_zero.mp (passed 1 (List.mem_singleton.mpr rfl)).1)
  rw [served,silent,List.append_nil]

section Reading

variable {R : Rmps} (grow : Growth) (peerAddr : Option SocketAddr)

theorem fill_delivers (consumes : R.Consumes) (M : Type) {link : Link} (chunked : Chunked link.socket)
    (ready : link.socket ≠ []) : ∃ link', fill R grow peerAddr M link = .next link' := by
  obtain ⟨socket,ctx⟩ := link
  obtain ⟨event,rest,rfl⟩ := List.exists_cons_of_ne_nil ready
  obtain ⟨chunk,nonempty,rfl⟩ := chunked event (by simp)
  obtain ⟨b,bs,rfl⟩ := List.exists_cons_of_ne_nil nonempty
  obtain ⟨full,_,_,tries,keeps⟩ := fill_delivery R grow peerAddr M ctx b bs rest
  by_cases known : ctx.headerWithTarget = none
  · cases tried : full.tryReadHeader R with
    | error panic => exact absurd tried (attempt_no_panic R consumes full panic)
    | ok result => exact ⟨_,by rw [tries known,tried]⟩
  · exact ⟨_,keeps known⟩

theorem takeMessage_serves (laws : R.Lawful) {requests : List RequestBody} (sendable : ∀ q ∈ requests, Sendable R q)
    {frame : List UInt8} (part : frame <+: streamOf R requests) {link : Link} (stands : link.Stands R frame)
    (done : link.ctx.getState = .done) :
    ∃ m link', takeMessage R grow RequestBodyOwned link = .returned (.ok m) link' := by
  obtain ⟨target,known,_,enough⟩ := done_header R done
  simp only [Link.Stands,known] at stands
  obtain ⟨position,found,_,tail⟩ := stands
  obtain ⟨q,rest,rfl,header,_,declared,behind⟩ := stream_header laws sendable part found
  obtain ⟨noCall,short⟩ := sendable q (by simp)
  rw [← tail] at behind
  obtain ⟨more,body⟩ := body_first ((List.prefix_append _ _).trans behind) (declared ▸ enough)
  have decoded := (accepted_request laws noCall short).decodes more
  rw [← body] at decoded
  obtain ⟨link',taken,_⟩ := takeMessage_ok R grow RequestBodyOwned known (by rw [header]; exact decoded)
    (by rw [body,List.length_append]; omega) (steady_of_stable laws.stable laws.consumes _)
  exact ⟨q.toOwned,link',taken⟩

theorem readNextBody_serves (laws : R.Lawful) {requests : List RequestBody} (sendable : ∀ q ∈ requests, Sendable R q)
    {frame : List UInt8} (part : frame <+: streamOf R requests) {link : Link} (stands : link.Stands R frame)
    (chunked : Chunked link.socket) (ready : link.Ready) :
    (∃ link', readNextBody R grow peerAddr RequestBodyOwned link = .next link') ∨
    ∃ m link', readNextBody R grow peerAddr RequestBodyOwned link = .ret (.returned (.ok m) link') := by
  by_cases done : link.ctx.getState = .done
  · obtain ⟨m,link',taken⟩ := takeMessage_serves grow laws sendable part stands done
    exact .inr ⟨m,link',by simp [readNextBody,done,taken]⟩
  · obtain ⟨middle,filled⟩ := fill_delivers grow peerAddr laws.consumes RequestBodyOwned chunked (ready.resolve_left done)
    have there := (fill_stands R grow peerAddr RequestBodyOwned laws.stable laws.consumes stands).1 middle filled
    by_cases now : middle.ctx.getState = .done
    · obtain ⟨m,link',taken⟩ := takeMessage_serves grow laws sendable part there now
      exact .inr ⟨m,link',by simp [readNextBody,done,filled,now,taken]⟩
    · exact .inl ⟨middle,by simp [readNextBody,done,filled,now]⟩

end Reading

/-- What was readable on a connection, in order. -/
def arrivals (conn : Nat) (events : List NetEvent) : List ReadEvent :=
  events.flatMap fun
    | .arrive id event => if id = conn then [event] else []
    | .poll _ _ => []

/-- A request of the connection whose handler fails on the map. -/
def FailedOn (machine : Machine) (history : List Event) (conn : Nat) : Prop :=
  ∃ before event rest, history = before ++ event :: rest ∧ event.conn = conn ∧
    ((PageMap.after machine before).serve machine event).result ≠ .ok

theorem FailedOn.append {machine : Machine} {history : List Event} {conn : Nat} (failed : FailedOn machine history conn)
    (emitted : List Event) : FailedOn machine (history ++ emitted) conn := by
  obtain ⟨before,event,rest,rfl,own⟩ := failed
  exact ⟨before,event,rest ++ emitted,by simp,own⟩

section Poll

variable {host : Host} {net net' : Network host.lock} {id : Nat} {env : Env} {emitted : List Event}

theorem readNextBody_socket {R : Rmps} {grow : Growth} {peerAddr : Option SocketAddr} {M : Type} [MessageDecoder M]
    {link link' : Link} (read : readNextBody R grow peerAddr M link = .next link' ∨
      ∃ m, readNextBody R grow peerAddr M link = .ret (.returned (.ok m) link')) : link'.socket <:+ link.socket := by
  have filled (middle : Link) (next : fill R grow peerAddr M link = .next middle) : middle.socket <:+ link.socket := by
    obtain ⟨chunk,_,socket⟩ := fill_next R grow peerAddr M next
    exact socket ▸ List.suffix_cons _ _
  rcases read with again | ⟨m,left⟩
  · exact filled link' (readNextBody_next R grow peerAddr M again).2.1
  · rcases readNextBody_ret R grow peerAddr M left with early | ⟨middle,arrived,_,same⟩
    · rcases fill_cases R grow peerAddr M link with ⟨_,_,_,other,_⟩ | ⟨_,_,other,_⟩ | ⟨_,_,other,_⟩
      all_goals rw [early] at other; cases other
    · have kept : link'.socket = middle.socket := by
        obtain ⟨_,_,⟨_,_,impossible,_⟩ | ⟨_,_,_,_,_,_,_,_,_,_,_,rfl⟩⟩ := takeMessage_cases R grow M same.symm
        · contradiction
        · rfl
      rw [kept]
      rcases arrived with rfl | next
      · exact List.suffix_rfl
      · exact filled middle next

theorem readNextBody_settled {R : Rmps} (consumes : R.Consumes) {grow : Growth} {peerAddr : Option SocketAddr} {M : Type}
    [MessageDecoder M] {link link' : Link} (settled : Settled R link.ctx)
    (read : readNextBody R grow peerAddr M link = .next link' ∨
      ∃ result, readNextBody R grow peerAddr M link = .ret (.returned result link')) :
    Settled R link'.ctx ∧ link'.tail.length ≤ link.tail.length := by
  have sound := readNextBody_sound R grow peerAddr M consumes.rejectsEmpty ⟨settled,Nat.le_refl link.tail.length⟩
  rcases read with again | ⟨result,left⟩
  · exact ⟨(sound.1 link' again).settled,(sound.1 link' again).bounded⟩
  · exact ⟨(sound.2 result link' left).settled,(sound.2 result link' left).bounded⟩

theorem Follows.goesOn {R : Rmps} (grow : Growth) (peerAddr : Option SocketAddr) (laws : R.Lawful)
    {requests : List RequestBody} {arrived : List UInt8} {taken : List RequestBodyOwned} {link : Link}
    (follows : Follows R requests arrived taken link) (sendable : ∀ q ∈ requests, Sendable R q)
    (part : arrived <+: streamOf R requests) (chunked : Chunked link.socket) (ready : link.Ready) :
    (∃ link', readNextBody R grow peerAddr RequestBodyOwned link = .next link') ∨
    ∃ m link', readNextBody R grow peerAddr RequestBodyOwned link = .ret (.returned (.ok m) link') := by
  obtain ⟨first,rest,more,rfl,rfl,_,stands⟩ := follows
  rw [streamOf_append,List.prefix_append_right_inj] at part
  exact readNextBody_serves grow peerAddr laws (fun q member => sendable q (by simp [member])) part stands chunked ready

end Poll

theorem arrivals_snoc (conn : Nat) (events : List NetEvent) (event : NetEvent) :
    arrivals conn (events ++ [event]) = arrivals conn events ++ arrivals conn [event] := by
  simp [arrivals]

/-- A task that runs would find its connection waiting, or ended. -/
def Network.Waiting {L : RwLock Nat} (net : Network L) (id : Nat) : Prop :=
  ((net.conns id).task = .reading ∧ ¬(net.conns id).link.Ready) ∨
  (∃ request, (net.conns id).task = .serving request ∧ net.blocked id request = true ∧ L.Waits net.lock id) ∨
  (net.conns id).task = .ended

def Network.Idle {L : RwLock Nat} (net : Network L) (id : Nat) : Prop := net.aborted = true ∨ net.Waiting id

/-- A bound on the polls that can still change a connection on which nothing more arrives. -/
def ConnTask.left (conn : ConnTask) (queued : Bool) : Nat :=
  let bytes := 4 * conn.link.tail.length + conn.link.socket.length
  match conn.task with
  | .reading => bytes + 1
  | .serving _ => if queued then bytes + 3 else bytes + 4
  | .answering _ _ _ => bytes + 2
  | .ended => 0

def Network.left {L : RwLock Nat} (net : Network L) (id : Nat) : Nat := (net.conns id).left (decide (L.Waits net.lock id))

section Rest

variable {host : Host} {net net' : Network host.lock} {id : Nat} {env : Env} {emitted : List Event}

theorem asleep_of_waiting (waiting : net.Waiting id) : net.asleep id = true := by
  unfold Network.asleep
  rcases waiting with ⟨reading,waiting⟩ | ⟨request,serving,blocked,_⟩ | ended
  · simp [reading,waiting]
  · simp [serving,blocked]
  · simp [ended]

theorem idle_waits (books : host.lock.Books) (idle : net.Idle id) (env : Env) : host.step net (.poll id env) = net := by
  simp only [Host.step]
  rcases idle with aborted | waiting
  · rw [if_pos aborted]
  · split
    · rfl
    · rw [if_pos (by rw [asleep_of_waiting waiting]; rfl)]
      simp only [Host.poll]
      rcases waiting with ⟨reading,waiting⟩ | ⟨request,serving,blocked,queued⟩ | ended
      · simp only [reading,Host.pollReading,if_pos waiting,Network.set_conns]
      · simp only [serving,Host.pollServing,if_pos blocked,books.wait_again _ _ _ queued]
      · simp only [ended]

theorem left_behind (conn : ConnTask) (result : HandlerEnd) (out : List UInt8) (queued : Bool) :
    ConnTask.left { conn with task := .behind result, out := out } queued <
      4 * conn.link.tail.length + conn.link.socket.length + 2 := by
  unfold TaskAt.behind
  split
  · simp [ConnTask.left]
  · simp [ConnTask.left]

theorem readNextBody_shorter {R : Rmps} (consumes : R.Consumes) {grow : Growth} {peerAddr : Option SocketAddr}
    {link link' : Link} {m : RequestBodyOwned} (settled : Settled R link.ctx)
    (read : readNextBody R grow peerAddr RequestBodyOwned link = .ret (.returned (.ok m) link')) :
    link'.tail.length < link.tail.length := by
  rcases readNextBody_ret R grow peerAddr _ read with early | ⟨middle,arrived,_,same⟩
  · rcases fill_cases R grow peerAddr RequestBodyOwned link with ⟨_,_,_,other,_⟩ | ⟨_,_,other,_⟩ | ⟨_,_,other,_⟩
    all_goals rw [early] at other; cases other
  · have shorter := takeMessage_shorter R grow _ (direction_consumes consumes .requests) same.symm
    have bounded : middle.tail.length ≤ link.tail.length := by
      rcases arrived with rfl | next
      · exact Nat.le_refl _
      · exact ((fill_sound R grow peerAddr RequestBodyOwned ⟨settled,Nat.le_refl _⟩).1 middle next).bounded
    omega

theorem pollReading_lowers (laws : host.rmps.Lawful) {conn : ConnTask} (settled : Settled host.rmps conn.link.ctx)
    (reading : conn.task = .reading) (ready : conn.link.Ready) (queued : Bool) :
    (host.pollReading id conn).left queued < conn.left queued := by
  unfold Host.pollReading
  rw [if_neg (not_not.mpr ready)]
  split
  · next link read =>
    have shorter := (readNextBody_settled laws.consumes settled (.inl read)).2
    obtain ⟨_,filled,_⟩ := readNextBody_next _ _ _ _ read
    obtain ⟨chunk,_,socket⟩ := fill_next _ _ _ _ filled
    simp only [ConnTask.left,reading,socket,List.length_cons]
    omega
  · next request link read =>
    have shorter := readNextBody_shorter laws.consumes settled read
    have socket := (readNextBody_socket (.inr ⟨request,read⟩)).length_le
    simp only [ConnTask.left,reading]
    split <;> omega
  · simp only [ConnTask.left,reading]
    omega
  · simp only [ConnTask.left,reading]
    omega

theorem pollServing_lowers (books : host.lock.Books) {request : RequestBodyOwned}
    (serving : (net.conns id).task = .serving request)
    (busy : net.blocked id request = true → ¬host.lock.Waits net.lock id) (env : Env) :
    (host.pollServing net id env request).left id < net.left id := by
  unfold Host.pollServing
  by_cases blocked : net.blocked id request = true
  · rw [if_pos blocked]
    have joined : host.lock.Waits (host.lock.wait net.lock id request.locksForWriting) id :=
      (books.waits_wait _).mpr (.inr rfl)
    simp only [Network.left,ConnTask.left,serving,decide_eq_true_eq,if_pos joined,if_neg (busy blocked)]
    omega
  · have before : 4 * (net.conns id).link.tail.length + (net.conns id).link.socket.length + 3 ≤ net.left id := by
      simp only [Network.left,ConnTask.left,serving]
      split <;> omega
    rw [if_neg blocked]
    simp only
    split
    · rw [Network.left,Network.set_self]
      exact (left_behind _ _ _ _).trans_le (by omega)
    · rw [Network.left,Network.set_self]
      simp only [ConnTask.left]
      omega

theorem poll_lowers (laws : host.rmps.Lawful) (books : host.lock.Books)
    (settled : Settled host.rmps (net.conns id).link.ctx) (busy : ¬net.Waiting id) (env : Env) :
    (host.poll net id env).left id < net.left id := by
  simp only [Host.poll]
  cases task : (net.conns id).task with
  | reading =>
    have ready : (net.conns id).link.Ready := by
      by_contra waiting
      exact busy (.inl ⟨task,waiting⟩)
    rw [Network.left,Network.set_self]
    exact pollReading_lowers laws settled task ready _
  | serving request =>
    exact pollServing_lowers books task (fun blocked queued => busy (.inr (.inl ⟨request,task,blocked,queued⟩))) env
  | answering request replies result =>
    have before : net.left id = 4 * (net.conns id).link.tail.length + (net.conns id).link.socket.length + 2 := by
      simp only [Network.left,ConnTask.left,task]
    rw [before,Network.left,Network.set_self]
    exact left_behind _ _ _ _
  | ended => exact absurd (.inr (.inr task)) busy

theorem Host.Polled.waits_other (books : host.lock.Books) (polled : host.Polled net id env emitted net') {other : Nat}
    (ne : other ≠ id) : host.lock.Waits net'.lock other ↔ host.lock.Waits net.lock other := by
  cases polled with
  | waits | aborts | reads | takes | breaks | panics => exact Iff.rfl
  | queues => exact (books.waits_wait _).trans (or_iff_left ne)
  | finishes => exact RwLock.waits_filter (books.pass_queue _ _) ne
  | handles request serving granted replies =>
    rw [Network.set_lock]
    split
    · exact RwLock.waits_filter (books.pass_queue _ _) ne
    · exact RwLock.waits_filter (books.hold_queue _ _) ne
  | answers => rw [Network.set_lock,RwLock.Waits,books.release_queue,RwLock.Waits]

theorem polled_settled (consumes : host.rmps.Consumes) {conn : Nat}
    (settled : Settled host.rmps (net.conns conn).link.ctx) (polled : host.Polled net id env emitted net') :
    Settled host.rmps (net'.conns conn).link.ctx := by
  by_cases same : conn = id
  · subst same
    cases polled with
    | waits | aborts | queues => exact settled
    | reads link reading ready read =>
      rw [Network.set_self]
      exact (readNextBody_settled consumes settled (.inl read)).1
    | takes request link reading ready read =>
      rw [Network.set_self]
      exact (readNextBody_settled consumes settled (.inr ⟨_,read⟩)).1
    | breaks e link reading ready read =>
      rw [Network.set_self]
      exact (readNextBody_settled consumes settled (.inr ⟨_,read⟩)).1
    | panics | finishes | handles | answers =>
      rw [Network.set_self]
      exact settled
  · rw [(polled.other [] same).2]
    exact settled

theorem run_settled (host : Host) (consumes : host.rmps.Consumes) (events : List NetEvent) (conn : Nat) :
    Settled host.rmps ((host.after events).conns conn).link.ctx := by
  refine Tracing.history_invariant host.step Network.serves
    (fun _ _ net => Settled host.rmps (net.conns conn).link.ctx) (settled_fresh _ [] consumes.rejectsEmpty) ?_ events
  intro events event settled
  cases event with
  | arrive id event =>
    simp only [Host.step]
    by_cases same : conn = id
    · subst same
      rw [Network.set_self]
      exact settled
    · rw [Network.set_other _ _ same]
      exact settled
  | poll id env => exact polled_settled consumes settled (host.poll_polled _ id env)

theorem not_ready_fresh (capacity : Nat) : ¬(Link.fresh capacity []).Ready := by
  rintro (done | nonempty)
  · obtain ⟨target,known,_⟩ := (BufferContext.getState_done_iff _).mp done
    simp [Link.fresh,BufferContext.new] at known
  · exact nonempty rfl

theorem run_untouched (host : Host) (books : host.lock.Books) (events : List NetEvent) (conn : Nat)
    (nothing : arrivals conn events = []) : (host.after events).conns conn = host.start.conns conn := by
  revert nothing
  refine Tracing.history_invariant host.step Network.serves
    (fun events _ net => arrivals conn events = [] → net.conns conn = host.start.conns conn) (fun _ => rfl) ?_ events
  intro events event ih nothing
  rw [arrivals_snoc,List.append_eq_nil_iff] at nothing
  have fresh := ih nothing.1
  cases event with
  | arrive id event =>
    have other : conn ≠ id := by
      rintro rfl
      simp [arrivals] at nothing
    simp only [Host.step]
    rw [Network.set_other _ _ other]
    exact fresh
  | poll id env =>
    by_cases same : conn = id
    · subst same
      rw [idle_waits books _ env]
      · exact fresh
      · refine .inr (.inl ?_)
        rw [fresh]
        exact ⟨rfl,not_ready_fresh _⟩
    · rw [((host.poll_polled _ id env).other [] same).2]
      exact fresh

theorem idle_untouched (host : Host) (books : host.lock.Books) (events : List NetEvent) (conn : Nat)
    (nothing : arrivals conn events = []) : (host.after events).Idle conn := by
  refine .inr (.inl ?_)
  rw [run_untouched host books events conn nothing]
  exact ⟨rfl,not_ready_fresh _⟩

theorem Host.Polled.left_other (books : host.lock.Books) (polled : host.Polled net id env emitted net') {other : Nat}
    (ne : other ≠ id) : net'.left other = net.left other := by
  simp only [Network.left,(polled.other [] ne).2,polled.waits_other books ne]

/-- The polls left to the first connections together. -/
def Network.pollsLeft {L : RwLock Nat} (net : Network L) : Nat → Nat
  | 0 => 0
  | k + 1 => net.pollsLeft k + net.left k

/-- One more for an allocation that fails, and none behind it. -/
def Network.workLeft {L : RwLock Nat} (net : Network L) (k : Nat) : Nat := if net.aborted then 0 else net.pollsLeft k + 1

theorem pollsLeft_congr {k : Nat} (same : ∀ other, other < k → net'.left other = net.left other) :
    net'.pollsLeft k = net.pollsLeft k := by
  induction k with
  | zero => rfl
  | succ k ih =>
    simp only [Network.pollsLeft]
    rw [ih (fun other below => same other (by omega)),same k (by omega)]

theorem pollsLeft_lt {k : Nat} (below : id < k) (lower : net'.left id < net.left id)
    (others : ∀ other, other ≠ id → net'.left other = net.left other) : net'.pollsLeft k < net.pollsLeft k := by
  induction k with
  | zero => omega
  | succ k ih =>
    simp only [Network.pollsLeft]
    by_cases last : id = k
    · subst last
      have same : net'.pollsLeft id = net.pollsLeft id :=
        pollsLeft_congr fun other less => by rw [others other (by omega)]
      omega
    · have := ih (by omega)
      rw [others k (Ne.symm last)]
      omega

theorem workLeft_lowers (laws : host.rmps.Lawful) (books : host.lock.Books) {k : Nat} (below : id < k)
    (settled : Settled host.rmps (net.conns id).link.ctx) (busy : ¬net.Idle id) (env : Env) :
    (host.step net (.poll id env)).workLeft k < net.workLeft k := by
  obtain ⟨alive,busy⟩ := not_or.mp busy
  have lower := poll_lowers laws books settled busy env
  have fewer := pollsLeft_lt below lower fun other ne => (host.poll_runs net id env).left_other books ne
  have before : net.workLeft k = net.pollsLeft k + 1 := if_neg alive
  simp only [Host.step,if_neg alive]
  split
  · rw [before,Network.workLeft]
    split <;> omega
  · rw [before,Network.workLeft,if_pos rfl]
    omega

end Rest

section Rounds

variable (host : Host)

def polls (round : List (Nat × Env)) : List NetEvent := round.map fun (id, env) => .poll id env

theorem arrivals_polls (conn : Nat) (events : List NetEvent) (round : List (Nat × Env)) :
    arrivals conn (events ++ polls round) = arrivals conn events := by
  simp [arrivals,polls,List.flatMap_map]

theorem after_snoc (events : List NetEvent) (event : NetEvent) :
    host.after (events ++ [event]) = host.step (host.after events) event := by
  simp [Host.after,Tracing.after_append]

theorem after_polls (events : List NetEvent) (round : List (Nat × Env)) :
    host.after (events ++ polls round) =
      Tracing.after (fun net p => host.step net (.poll p.1 p.2)) (host.after events) round := by
  simp [Host.after,Tracing.after,polls,List.foldl_map]

/-- Reached by a run in which nothing arrives on any but the first connections. -/
def Host.Within (k : Nat) (net : Network host.lock) : Prop :=
  ∃ events, net = host.after events ∧ ∀ id, k ≤ id → arrivals id events = []

theorem polls_wear (laws : host.rmps.Lawful) (books : host.lock.Books) (k : Nat) :
    Scheduling.Wears (fun net (p : Nat × Env) => host.step net (.poll p.1 p.2)) Prod.fst Network.Idle (host.Within k)
      (Network.workLeft · k) where
  kept := by
    rintro _ ⟨id,env⟩ ⟨events,rfl,untouched⟩
    refine ⟨events ++ [.poll id env],(after_snoc host _ _).symm,fun id' beyond => ?_⟩
    exact (arrivals_polls id' events [(id,env)]).trans (untouched id' beyond)
  idle net p _ idle := idle_waits books idle p.2
  busy := by
    rintro _ ⟨id,env⟩ ⟨events,rfl,untouched⟩ busy
    have below : id < k := by
      by_contra beyond
      exact busy (idle_untouched host books events id (untouched id (Nat.le_of_not_lt beyond)))
    exact workLeft_lowers laws books below (run_settled host laws.consumes events id) busy env

/-- In every one of the rounds each of the first connections is polled, in any order and any
number of times. -/
def FairRounds (k : Nat) (rounds : List (List (Nat × Env))) : Prop :=
  ∀ round ∈ rounds, ∀ id, id < k → ∃ env, (id, env) ∈ round

theorem rounds_rest (laws : host.rmps.Lawful) (books : host.lock.Books) {k : Nat} {events : List NetEvent}
    (untouched : ∀ id, k ≤ id → arrivals id events = []) {rounds : List (List (Nat × Env))} (fair : FairRounds k rounds)
    (enough : (host.after events).workLeft k < rounds.length) (id : Nat) :
    (host.after (events ++ polls rounds.flatten)).Idle id := by
  rw [after_polls]
  refine (polls_wear host laws books k).rounds_rest (· < k) ?_ ?_ ⟨events,rfl,untouched⟩ enough id
  · rintro _ id ⟨events,rfl,untouched⟩ beyond
    exact idle_untouched host books events id (untouched id (Nat.le_of_not_lt beyond))
  · intro round member id below
    obtain ⟨env,polled⟩ := fair round member id below
    exact ⟨(id,env),polled,rfl⟩

end Rounds

theorem Host.Polled.aborted {host : Host} {net net' : Network host.lock} {id : Nat} {env : Env} {emitted : List Event}
    (polled : host.Polled net id env emitted net') :
    net'.aborted = net.aborted ∨ (net.asleep id = false ∧ env.allocates = false) := by
  cases polled with
  | aborts running refused => exact .inr ⟨running,refused⟩
  | waits | queues | reads | takes | breaks | panics | finishes | handles | answers => exact .inl rfl

end Ndp
