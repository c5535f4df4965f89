import Ndp.Network

/-! Whatever arrives on the connections and in whatever order their tasks run: the requests
take effect one after the other on the map of pages, each connection's in the order in which
it sent them, and the bytes written to it are the replies of that order. -/
namespace Ndp

open ByteMemory Looping

namespace PageMap

variable (machine : Machine)

/-- A request on the map. A call is not among the requests that are decoded. -/
def serve (pages : PageMap) (event : Event) : PageStep :=
  match event.request with
  | .alloc alloc => pages.alloc machine event.env alloc
  | .write write => pages.write machine write
  | .read read => pages.read machine read
  | .invoke _ => ⟨pages, [], .ok⟩

def serves (pages : PageMap) (event : Event) : PageMap := (pages.serve machine event).pages

/-- What one connection is sent. -/
def answer (conn : Nat) (pages : PageMap) (event : Event) : List ResponseBody :=
  if event.conn = conn then (pages.serve machine event).replies else []

def after (events : List Event) : PageMap := Tracing.after (serves machine) (fun _ => none) events

def answers (conn : Nat) (events : List Event) : List ResponseBody :=
  Tracing.trace (serves machine) (answer machine conn) (fun _ => none) events

theorem after_snoc (events : List Event) (event : Event) :
    after machine (events ++ [event]) = ((after machine events).serve machine event).pages := by
  simp only [after,Tracing.after_append,Tracing.after_cons,Tracing.after_nil,serves]

theorem answers_snoc (conn : Nat) (events : List Event) (event : Event) :
    answers machine conn (events ++ [event]) =
      answers machine conn events ++ (after machine events).answer machine conn event := by
  simp only [answers,Tracing.trace_append,Tracing.trace,List.append_nil,after]

end PageMap

def requestsOf (conn : Nat) (events : List Event) : List RequestBodyOwned :=
  (events.filter (·.conn = conn)).map (·.request)

theorem requestsOf_snoc (conn : Nat) (events : List Event) (event : Event) :
    requestsOf conn (events ++ [event]) =
      requestsOf conn events ++ if event.conn = conn then [event.request] else [] := by
  by_cases own : event.conn = conn <;> simp [requestsOf,own]

theorem handle_performs (machine : Machine) {ctx : ServerContext} {event : Event} (wellFormed : ctx.WellFormed)
    (lawful : event.env.Lawful ctx) (decoded : ∀ x, event.request ≠ .invoke x) :
    (ctx.handle machine event.env event.request).Performs (ctx.contents.serve machine event) := by
  unfold PageMap.serve
  cases request : event.request with
  | alloc alloc => exact handleAlloc_performs machine ctx lawful alloc
  | write write => exact handleWrite_performs machine ctx wellFormed write
  | read read => exact handleRead_performs machine ctx read
  | invoke x => exact absurd request (decoded x)

/-- The replies a task has still to write. -/
def TaskAt.unsent : TaskAt → List ResponseBody
  | .answering _ replies _ => replies
  | _ => []

section Stream

variable {R : Rmps} (grow : Growth) (peerAddr : Option SocketAddr)

def ReadEvent.bytes : ReadEvent → List UInt8
  | .data chunk => chunk
  | .failed _ => []

theorem unread_snoc (socket : Socket) (event : ReadEvent) : unread (socket ++ [event]) = unread socket ++ event.bytes := by
  induction socket with
  | nil => cases event <;> simp [unread,ReadEvent.bytes]
  | cons first rest ih => cases first <;> simp [unread,ih]

theorem stands_arrive (stable : R.Stable) (consumes : R.Consumes) {frame : List UInt8} {link : Link}
    (stands : link.Stands R frame) (event : ReadEvent) :
    Link.Stands R (frame ++ event.bytes) { link with socket := link.socket ++ [event] } := by
  have tail : Link.tail { link with socket := link.socket ++ [event] } = link.tail ++ event.bytes := by
    simp only [Link.tail,unread_snoc,List.append_assoc]
  unfold Link.Stands at stands ⊢
  cases known : link.ctx.headerWithTarget with
  | none =>
    simp only [known] at stands
    simp only [tail,stands]
  | some target =>
    simp only [known] at stands ⊢
    obtain ⟨position,found,cut,rest⟩ := stands
    have within := (headerAt_consumes consumes found).2
    have := Nat.mod_le position (2 ^ 32)
    refine ⟨position,headerAt_stable (stable _) _ found,cut,?_⟩
    rw [tail,rest,List.drop_append_of_le_length (by omega)]

theorem readNextBody_moves (stable : R.Stable) (consumes : R.Consumes) (d : Direction) {frame : List UInt8}
    {link : Link} (stands : link.Stands R frame) :
    (∀ link', readNextBody R grow peerAddr d.Message link = .next link' → link'.Stands R frame) ∧
    (∀ result link', readNextBody R grow peerAddr d.Message link = .ret (.returned result link') →
      Moves R d frame link' result) := by
  have filled := fill_stands R grow peerAddr d.Message stable consumes stands
  refine ⟨?_,?_⟩
  · intro link' again
    exact filled.1 link' (readNextBody_next R grow peerAddr _ again).2.1
  · intro result link' left
    rcases readNextBody_ret R grow peerAddr _ left with early | ⟨middle,arrived,done,same⟩
    · obtain ⟨⟨e,rfl⟩,still⟩ := filled.2 _ _ early
      exact .stays e still
    · have there : middle.Stands R frame := by
        rcases arrived with rfl | next
        · exact stands
        · exact filled.1 middle next
      exact takeMessage_moves R grow stable consumes d there done same.symm

theorem moves_error {d : Direction} {frame : List UInt8} {link' : Link} {e : MessageReadError R.Error}
    (moves : Moves R d frame link' (.error e)) : link'.Stands R frame := by
  cases moves with
  | stays _ still => exact still

/-- A request that is not a call, in a frame whose length 32 bits can count. -/
def Sendable (R : Rmps) (q : RequestBody) : Prop := q.isInvoke = false ∧ (writeTo R q).length < 2 ^ 32

theorem stream_header (laws : R.Lawful) {requests : List RequestBody} (sendable : ∀ q ∈ requests, Sendable R q)
    {frame : List UInt8} (part : frame <+: streamOf R requests) {header : MessageHeader} {position : Nat}
    (found : headerAt R frame = .ok (header, position)) :
    ∃ q rest, requests = q :: rest ∧ header = messageHeader R q ∧ position % 2 ^ 32 = (headerBytes R q).length ∧
      header.length.toNat = (Serialize.serialize R q).length ∧
      frame.drop (position % 2 ^ 32) <+: Serialize.serialize R q ++ streamOf R rest := by
  have bounds := headerAt_consumes laws.consumes found
  cases requests with
  | nil =>
    obtain rfl : frame = [] := List.prefix_nil.mp part
    simp only [List.length_nil] at bounds
    omega
  | cons q rest =>
    have short := (sendable q (by simp)).2
    rw [writeTo,← headerBytes,List.length_append] at short
    have stream : streamOf R (q :: rest) = headerBytes R q ++ (Serialize.serialize R q ++ streamOf R rest) := by
      simp [streamOf,writeTo,headerBytes]
    obtain ⟨later,whole⟩ := part
    have own := headerAt_header laws.roundTrips q (Serialize.serialize R q ++ streamOf R rest) (by omega)
    rw [← stream,← whole,headerAt_stable (laws.stable _) later found] at own
    obtain ⟨rfl,rfl⟩ := Prod.mk.inj (Except.ok.inj own)
    rw [Nat.mod_eq_of_lt (by omega)]
    refine ⟨q,rest,rfl,rfl,rfl,?_,later,?_⟩
    · simp only [messageHeader,UInt32.toNat_ofNat']
      exact Nat.mod_eq_of_lt (by omega)
    · rw [← List.drop_append_of_le_length bounds.2,whole,stream,List.drop_left]

theorem body_first {body bytes rest : List UInt8} (part : bytes <+: body ++ rest) (enough : body.length ≤ bytes.length) :
    ∃ more, bytes = body ++ more := by
  obtain ⟨more,same⟩ := List.prefix_of_prefix_length_le (List.prefix_append body rest) part enough
  exact ⟨more,same.symm⟩

theorem moves_request (laws : R.Lawful) {requests : List RequestBody} (sendable : ∀ q ∈ requests, Sendable R q)
    {frame : List UInt8} (part : frame <+: streamOf R requests) {link' : Link} {m : RequestBodyOwned}
    (moves : Moves R .requests frame link' (.ok m)) :
    ∃ q rest more, requests = q :: rest ∧ frame = writeTo R q ++ more ∧ m = q.toOwned ∧ link'.Stands R more := by
  cases moves with
  | takes header position count _ found enough decoded moved =>
    obtain ⟨q,rest,rfl,rfl,start,declared,behind⟩ := stream_header laws sendable part found
    obtain ⟨noCall,short⟩ := sendable q (by simp)
    rw [declared] at enough
    obtain ⟨more,body⟩ := body_first behind enough
    have own := (accepted_request laws noCall short).decodes more
    rw [← body] at own
    obtain ⟨rfl,rfl⟩ := Prod.mk.inj (Except.ok.inj (decoded.symm.trans own))
    refine ⟨q,rest,more,rfl,?_,rfl,?_⟩
    · have front : frame.take (headerBytes R q).length = headerBytes R q := by
        have whole : headerBytes R q <+: streamOf R (q :: rest) :=
          ⟨Serialize.serialize R q ++ streamOf R rest,by simp [streamOf,writeTo,headerBytes]⟩
        have within := (headerAt_consumes laws.consumes found).2
        have := Nat.mod_le position (2 ^ 32)
        exact (List.prefix_iff_eq_take.mp (List.prefix_of_prefix_length_le whole part (by omega))).symm
      rw [← List.take_append_drop (headerBytes R q).length frame,front,← start,body,writeTo,← headerBytes,List.append_assoc]
    · rwa [← List.drop_drop,body,List.drop_left] at moved

end Stream

section Poll

variable {host : Host} {net net' : Network host.lock} {id : Nat} {env : Env} {emitted : List Event}

theorem serve_replies (machine : Machine) (pages : PageMap) (event : Event) (decoded : ∀ x, event.request ≠ .invoke x) :
    (∃ reply, (pages.serve machine event).replies = [reply] ∧ (pages.serve machine event).result = .ok) ∨
    ((pages.serve machine event).replies = [] ∧ (pages.serve machine event).result ≠ .ok) := by
  unfold PageMap.serve
  cases request : event.request with
  | alloc alloc =>
    simp only [PageMap.alloc]
    split
    · exact .inr ⟨rfl,by simp⟩
    split
    · exact .inr ⟨rfl,by simp⟩
    · exact .inl ⟨_,rfl,rfl⟩
  | write write =>
    simp only [PageMap.write]
    split
    · exact .inl ⟨_,rfl,rfl⟩
    split
    · exact .inr ⟨rfl,by simp⟩
    split
    · exact .inl ⟨_,rfl,rfl⟩
    · exact .inl ⟨_,rfl,rfl⟩
  | read read =>
    simp only [PageMap.read]
    split
    · exact .inl ⟨_,rfl,rfl⟩
    split
    · exact .inr ⟨rfl,by simp⟩
    split
    · exact .inl ⟨_,rfl,rfl⟩
    split
    · exact .inr ⟨rfl,by simp⟩
    split
    · exact .inl ⟨_,rfl,rfl⟩
    · exact .inr ⟨rfl,by simp⟩
  | invoke x => exact absurd request (decoded x)

theorem Host.Polled.other (history : List Event) {conn : Nat} (other : conn ≠ id)
    (polled : host.Polled net id env emitted net') :
    requestsOf conn (history ++ emitted) = requestsOf conn history ∧ net'.conns conn = net.conns conn := by
  cases polled with
  | waits | aborts | queues => exact ⟨by rw [List.append_nil],rfl⟩
  | reads | takes | breaks | panics | answers => exact ⟨by rw [List.append_nil],Network.set_other _ _ other⟩
  | finishes | handles =>
    exact ⟨by rw [requestsOf_snoc,if_neg (Ne.symm other),List.append_nil],Network.set_other _ _ other⟩

theorem Host.Polled.quiet (polled : host.Polled net id env emitted net') (silent : emitted = []) :
    net'.ctx = net.ctx := by
  cases polled with
  | waits | aborts | queues | reads | takes | breaks | panics | answers => rfl
  | finishes | handles => contradiction

/-- The map's reply to a connection's request number `k`, on the pages as the requests before it left them. -/
def RepliesTo (machine : Machine) (history : List Event) (conn k : Nat) (reply : ResponseBody) : Prop :=
  ∃ before event rest, history = before ++ event :: rest ∧ event.conn = conn ∧ (requestsOf conn before).length = k ∧
    ((PageMap.after machine before).serve machine event).replies = [reply]

theorem RepliesTo.append {machine : Machine} {history : List Event} {conn k : Nat} {reply : ResponseBody}
    (replied : RepliesTo machine history conn k reply) (event : Event) :
    RepliesTo machine (history ++ [event]) conn k reply := by
  obtain ⟨before,first,rest,rfl,own⟩ := replied
  exact ⟨before,first,rest ++ [event],by simp,own⟩

theorem matched_snoc {machine : Machine} {history : List Event} {event : Event}
    (before : (PageMap.answers machine event.conn history).length = (requestsOf event.conn history).length)
    (one : (∃ reply, ((PageMap.after machine history).serve machine event).replies = [reply]) ∨
      ((PageMap.after machine history).serve machine event).replies = [])
    (matched : ∀ conn k reply, (PageMap.answers machine conn history)[k]? = some reply → RepliesTo machine history conn k reply)
    (conn k : Nat) (reply : ResponseBody) (found : (PageMap.answers machine conn (history ++ [event]))[k]? = some reply) :
    RepliesTo machine (history ++ [event]) conn k reply := by
  rw [PageMap.answers_snoc,PageMap.answer] at found
  by_cases old : k < (PageMap.answers machine conn history).length
  · rw [List.getElem?_append_left old] at found
    exact (matched conn k reply found).append _
  · rw [List.getElem?_append_right (Nat.le_of_not_lt old)] at found
    split at found
    · next same =>
      subst same
      rcases one with ⟨only,replies⟩ | replies
      · rw [replies,List.getElem?_singleton] at found
        split at found
        · next last =>
          obtain rfl := Option.some.inj found
          exact ⟨history,event,[],rfl,rfl,by omega,replies⟩
        · contradiction
      · simp [replies] at found
    · simp at found

/-- The store is the map after the requests served so far, and every connection has been written
the map's replies to its own, those still in its task's hands apart. -/
structure Linearized (host : Host) (history : List Event) (net : Network host.lock) : Prop where
  wellFormed : net.ctx.WellFormed
  pages : net.ctx.contents = PageMap.after host.machine history
  written : ∀ conn, (net.conns conn).out ++ streamOf host.rmps (net.conns conn).task.unsent =
    streamOf host.rmps (PageMap.answers host.machine conn history)
  decoded : ∀ conn request, (net.conns conn).task = .serving request → ∀ x, request ≠ .invoke x
  counted : ∀ conn, (PageMap.answers host.machine conn history).length = (requestsOf conn history).length ∨
    ((PageMap.answers host.machine conn history).length + 1 = (requestsOf conn history).length ∧
      (net.conns conn).task = .ended)
  matched : ∀ conn k reply, (PageMap.answers host.machine conn history)[k]? = some reply →
    RepliesTo host.machine history conn k reply
  replied : ∀ conn request replies result, (net.conns conn).task = .answering request replies result → result = .ok

theorem streamOf_append [MessageKindTagged S] [Serialize S] (R : Rmps) (first second : List S) :
    streamOf R (first ++ second) = streamOf R first ++ streamOf R second := by
  simp [streamOf]

theorem Linearized.quiet {history : List Event} (linearized : Linearized host history net) {conn : ConnTask}
    (lock : host.lock.State)
    (bytes : conn.out ++ streamOf host.rmps conn.task.unsent =
      (net.conns id).out ++ streamOf host.rmps (net.conns id).task.unsent)
    (decoded : ∀ request, conn.task = .serving request → ∀ x, request ≠ .invoke x)
    (stays : (net.conns id).task = .ended → conn.task = .ended)
    (replied : ∀ request replies result, conn.task = .answering request replies result →
      (net.conns id).task = .answering request replies result) :
    Linearized host history ({ net with lock := lock }.set id conn) := by
  refine ⟨linearized.wellFormed,linearized.pages,?_,?_,?_,linearized.matched,?_⟩
  · exact Network.forall_set _ (fun other conn => conn.out ++ streamOf host.rmps conn.task.unsent =
      streamOf host.rmps (PageMap.answers host.machine other history)) (bytes.trans (linearized.written id))
      fun other _ => linearized.written other
  · exact Network.forall_set _ (fun _ conn => ∀ request, conn.task = .serving request → ∀ x, request ≠ .invoke x) decoded
      fun other _ => linearized.decoded other
  · refine Network.forall_set _ (fun other conn => _ ∨ (_ ∧ conn.task = .ended)) ?_ fun other _ => linearized.counted other
    exact (linearized.counted id).imp_right (And.imp_right stays)
  · refine Network.forall_set _ (fun _ conn => ∀ request replies result,
      conn.task = .answering request replies result → result = .ok) ?_ fun other _ => linearized.replied other
    exact fun request replies result answering =>
      linearized.replied id request replies result (replied request replies result answering)

theorem Linearized.performs {history : List Event} (linearized : Linearized host history net)
    (lawful : env.Lawful net.ctx) {request : RequestBodyOwned} (serving : (net.conns id).task = .serving request) :
    (net.ctx.handle host.machine env request).Performs
      ((PageMap.after host.machine history).serve host.machine ⟨id, request, env⟩) := by
  have decoded : ∀ x, request ≠ .invoke x := linearized.decoded id request serving
  have performs := @handle_performs host.machine net.ctx ⟨id,request,env⟩ linearized.wellFormed lawful decoded
  simpa only [linearized.pages] using performs

theorem Linearized.one_reply {history : List Event} (linearized : Linearized host history net)
    (lawful : env.Lawful net.ctx) {request : RequestBodyOwned} (serving : (net.conns id).task = .serving request) :
    (∃ reply, (net.ctx.handle host.machine env request).replies = [reply] ∧
      (net.ctx.handle host.machine env request).result = .ok) ∨
    ((net.ctx.handle host.machine env request).replies = [] ∧
      (net.ctx.handle host.machine env request).result ≠ .ok) := by
  have performs := linearized.performs lawful serving
  rw [performs.replies,performs.result]
  exact serve_replies host.machine _ _ (linearized.decoded id request serving)

/-- A request that is served is the next one on the map; its replies are then in the task's hands. -/
theorem Linearized.serve {history : List Event} (linearized : Linearized host history net)
    (lawful : env.Lawful net.ctx) {request : RequestBodyOwned} (serving : (net.conns id).task = .serving request)
    (lock : host.lock.State) {task : TaskAt} (inHands : task.unsent = (net.ctx.handle host.machine env request).replies)
    (served : ∀ request, task ≠ .serving request)
    (failed : (net.ctx.handle host.machine env request).replies = [] → task = .ended)
    (replied : ∀ request' replies result, task = .answering request' replies result →
      (net.ctx.handle host.machine env request).replies ≠ [] ∧ result = (net.ctx.handle host.machine env request).result) :
    Linearized host (history ++ [⟨id, request, env⟩])
      ({ net with ctx := (net.ctx.handle host.machine env request).ctx, lock := lock }.set id
        { net.conns id with task := task }) := by
  have performs := linearized.performs lawful serving
  have one := linearized.one_reply lawful serving
  have before : (PageMap.answers host.machine id history).length = (requestsOf id history).length := by
    rcases linearized.counted id with equal | ⟨_,ended⟩
    · exact equal
    · rw [serving] at ended
      contradiction
  refine ⟨handle_wellFormed host.machine net.ctx linearized.wellFormed lawful request,?_,?_,?_,?_,?_,?_⟩
  · rw [PageMap.after_snoc,← performs.pages]
    rfl
  · refine Network.forall_set _ (fun other conn => conn.out ++ streamOf host.rmps conn.task.unsent =
      streamOf host.rmps (PageMap.answers host.machine other (history ++ [⟨id, request, env⟩]))) ?_ fun other ne => ?_
    · have written := linearized.written id
      rw [serving] at written
      rw [PageMap.answers_snoc,PageMap.answer,if_pos rfl,← performs.replies,streamOf_append,← written,inHands]
      simp [TaskAt.unsent,streamOf]
    · rw [PageMap.answers_snoc,PageMap.answer,if_neg (Ne.symm ne),List.append_nil]
      exact linearized.written other
  · exact Network.forall_set _ (fun _ conn => ∀ request, conn.task = .serving request → ∀ x, request ≠ .invoke x)
      (fun request' serving' => absurd serving' (served request')) fun other _ => linearized.decoded other
  · refine Network.forall_set _ (fun other conn => _ ∨ (_ ∧ conn.task = .ended)) ?_ fun other ne => ?_
    · rw [PageMap.answers_snoc,PageMap.answer,requestsOf_snoc,if_pos rfl,if_pos rfl,← performs.replies]
      rcases one with ⟨reply,replies,_⟩ | ⟨replies,_⟩
      · exact .inl (by simp [replies,before])
      · exact .inr ⟨by simp [replies,before],failed replies⟩
    · rw [PageMap.answers_snoc,PageMap.answer,requestsOf_snoc,if_neg (Ne.symm ne),if_neg (Ne.symm ne),List.append_nil,
        List.append_nil]
      exact linearized.counted other
  · refine matched_snoc before ?_ linearized.matched
    rw [← performs.replies]
    exact one.imp (Exists.imp fun _ => And.left) And.left
  · refine Network.forall_set _ (fun _ conn => ∀ request replies result,
      conn.task = .answering request replies result → result = .ok) ?_ fun other _ => linearized.replied other
    intro request' replies result answering
    obtain ⟨sent,rfl⟩ := replied request' replies result answering
    rcases one with ⟨_,_,ok⟩ | ⟨silent,_⟩
    · exact ok
    · contradiction

/-- The requests taken so far are the first of those sent, and the connection stands behind their frames. -/
def Follows (R : Rmps) (requests : List RequestBody) (arrived : List UInt8) (taken : List RequestBodyOwned)
    (link : Link) : Prop :=
  ∃ first rest more, requests = first ++ rest ∧ arrived = streamOf R first ++ more ∧
    taken = first.map RequestBody.toOwned ∧ link.Stands R more

theorem Follows.arrive {R : Rmps} (laws : R.Lawful) {requests : List RequestBody} {arrived : List UInt8}
    {taken : List RequestBodyOwned} {link : Link} (follows : Follows R requests arrived taken link) (event : ReadEvent) :
    Follows R requests (arrived ++ event.bytes) taken { link with socket := link.socket ++ [event] } := by
  obtain ⟨first,rest,more,split,bytes,same,stands⟩ := follows
  exact ⟨first,rest,more ++ event.bytes,split,by rw [bytes,List.append_assoc],same,
    stands_arrive laws.stable laws.consumes stands event⟩

theorem Follows.takes {R : Rmps} (laws : R.Lawful) {requests : List RequestBody} {arrived : List UInt8}
    {taken : List RequestBodyOwned} {link link' : Link} (follows : Follows R requests arrived taken link)
    (sendable : ∀ q ∈ requests, Sendable R q) (part : arrived <+: streamOf R requests) {grow : Growth}
    {peerAddr : Option SocketAddr} {m : RequestBodyOwned}
    (read : readNextBody R grow peerAddr RequestBodyOwned link = .ret (.returned (.ok m) link')) :
    Follows R requests arrived (taken ++ [m]) link' := by
  obtain ⟨first,rest,more,rfl,rfl,rfl,stands⟩ := follows
  have moves := (readNextBody_moves grow peerAddr laws.stable laws.consumes .requests stands).2 _ _ read
  rw [streamOf_append,List.prefix_append_right_inj] at part
  obtain ⟨q,rest,more,rfl,rfl,rfl,behind⟩ := moves_request laws (fun q member => sendable q (by simp [member])) part moves
  exact ⟨first ++ [q],rest,more,by simp,by simp [streamOf],by simp,behind⟩

theorem Follows.stays {R : Rmps} (laws : R.Lawful) {requests : List RequestBody} {arrived : List UInt8}
    {taken : List RequestBodyOwned} {link link' : Link} (follows : Follows R requests arrived taken link) {grow : Growth}
    {peerAddr : Option SocketAddr}
    (read : readNextBody R grow peerAddr RequestBodyOwned link = .next link' ∨
      ∃ e, readNextBody R grow peerAddr RequestBodyOwned link = .ret (.returned (.error e) link')) :
    Follows R requests arrived taken link' := by
  obtain ⟨first,rest,more,split,bytes,same,stands⟩ := follows
  have moves := readNextBody_moves grow peerAddr laws.stable laws.consumes .requests stands
  refine ⟨first,rest,more,split,bytes,same,?_⟩
  rcases read with again | ⟨e,broken⟩
  · exact moves.1 link' again
  · exact moves_error (moves.2 _ _ broken)

end Poll

/-- The kernel and the arena keep their promises whenever a task is polled. -/
def Host.LawfulRun (host : Host) (events : List NetEvent) : Prop :=
  ∀ first id env rest, events = first ++ .poll id env :: rest → env.Lawful (host.after first).ctx

theorem Host.LawfulRun.before {host : Host} {events : List NetEvent} {event : NetEvent}
    (lawful : host.LawfulRun (events ++ [event])) : host.LawfulRun events := by
  intro first id env rest split
  exact lawful first id env (rest ++ [event]) (by simp [split])

theorem Host.LawfulRun.snoc {host : Host} {events : List NetEvent} (lawful : host.LawfulRun events) (id : Nat) {env : Env}
    (now : env.Lawful (host.after events).ctx) : host.LawfulRun (events ++ [.poll id env]) := by
  intro first id' env' rest split
  rcases List.eq_nil_or_concat rest with rfl | ⟨rest,last,rfl⟩
  · obtain ⟨rfl,same⟩ := List.append_inj' split rfl
    obtain ⟨rfl,rfl⟩ := NetEvent.poll.inj (List.cons.inj same).1
    exact now
  · rw [List.concat_eq_append,← List.cons_append,← List.append_assoc] at split
    obtain ⟨rfl,_⟩ := List.append_inj' split rfl
    exact lawful first id' env' rest rfl

def Host.small : Host := ⟨QueueLock.rwLock, MessagePackRmps.rmps, .exact, .small, fun _ => none, 128, fun _ => 0⟩

end Ndp
