import Ndp.ServerStore

/-! The store over whole runs, told by what the connections have seen. Acknowledged requests
alone determine every page: a page starts zeroed when its handle is given out, and holds at
each position what the last acknowledged write put there. -/
namespace Ndp

open ByteMemory

/-- What a served request did to the map: it gave out a handle that was free, wrote to a
page, or was not acknowledged with a handle and did nothing. -/
inductive Acknowledged (machine : Machine) (pages : PageMap) (served : Served) : PageMap → Prop where
  | allocated (alloc : AllocRequest) (response : OkWithHandleResponse) :
      served.request = .alloc alloc → served.replies = [.okWithHandle response] →
      pages response.handle = none → Acknowledged machine pages served
        (Function.update pages response.handle (some (List.replicate (mappingLen machine alloc.size).toNat 0)))
  | wrote (write : WriteRequestOwned) (response : OkWithHandleResponse) (page : List UInt8) :
      served.request = .write write → served.replies = [.okWithHandle response] →
      response.handle = write.handle → pages write.handle = some page → Acknowledged machine pages served
        (Function.update pages write.handle (some (splice page write.offset.toNat write.buf)))
  | nothing : (∀ response, served.replies ≠ [.okWithHandle response]) →
      Acknowledged machine pages served pages

/-- The map after a history, from no pages at all. -/
inductive PageRun (machine : Machine) : List Served → PageMap → Prop where
  | start : PageRun machine [] (fun _ => none)
  | step : PageRun machine history pages → Acknowledged machine pages served pages' →
      PageRun machine (history ++ [served]) pages'

/-- The byte an acknowledged write put at a position of a page, if it covers it. -/
def Served.wrote (served : Served) (handle : UInt64) (i : Nat) : Option UInt8 :=
  match served.request, served.replies with
  | .write write, [.okWithHandle _] =>
    if write.handle = handle ∧ write.offset.toNat ≤ i then write.buf[i - write.offset.toNat]? else none
  | _, _ => none

/-- The byte of the most recent acknowledged write covering a position, or zero. -/
def lastWritten (history : List Served) (handle : UInt64) (i : Nat) : UInt8 :=
  (history.reverse.findSome? fun served => served.wrote handle i).getD 0

theorem lastWritten_append (history : List Served) (served : Served) (handle : UInt64) (i : Nat) :
    lastWritten (history ++ [served]) handle i =
      (served.wrote handle i).getD (lastWritten history handle i) := by
  rw [lastWritten,List.reverse_append,List.reverse_singleton,List.singleton_append,List.findSome?_cons]
  cases served.wrote handle i <;> rfl

theorem lastWritten_untouched {history : List Served} {handle : UInt64} {i : Nat}
    (untouched : ∀ served ∈ history, served.wrote handle i = none) : lastWritten history handle i = 0 := by
  have unfound : history.reverse.findSome? (fun served => served.wrote handle i) = none := by
    rw [List.findSome?_eq_none_iff]
    intro served member
    exact untouched served (List.mem_reverse.mp member)
  rw [lastWritten,unfound]
  rfl

theorem wrote_unacknowledged {served : Served}
    (silent : ∀ response, served.replies ≠ [.okWithHandle response]) (handle : UInt64) (i : Nat) :
    served.wrote handle i = none := by
  unfold Served.wrote
  split
  · next replies => exact absurd replies (silent _)
  · rfl

theorem wrote_alloc {served : Served} {alloc : AllocRequest} (request : served.request = .alloc alloc)
    (handle : UInt64) (i : Nat) : served.wrote handle i = none := by
  simp [Served.wrote,request]

theorem wrote_write {served : Served} {write : WriteRequestOwned} {response : OkWithHandleResponse}
    (request : served.request = .write write) (replies : served.replies = [.okWithHandle response])
    (handle : UInt64) (i : Nat) (old : UInt8) :
    (served.wrote handle i).getD old =
      if write.handle = handle then overlay write.offset.toNat write.buf i old else old := by
  simp only [Served.wrote,request,replies,overlay]
  by_cases same : write.handle = handle
  · by_cases covered : write.offset.toNat ≤ i <;> simp [same,covered]
  · simp [same]

/-- A history accounts for the map: live pages hold what was last written, handles given out
are live, and nothing was written under a handle not given out. -/
structure Recorded (history : List Served) (pages : PageMap) : Prop where
  bytes : ∀ h page, pages h = some page → ∀ i, i < page.length → page[i]? = some (lastWritten history h i)
  live : ∀ served ∈ history, ∀ alloc response, served.request = .alloc alloc →
    served.replies = [.okWithHandle response] → pages response.handle ≠ none
  untouched : ∀ h, pages h = none → ∀ served ∈ history, ∀ i, served.wrote h i = none

theorem recorded_allocated {history : List Served} {pages : PageMap} {served : Served}
    (recorded : Recorded history pages) {alloc : AllocRequest} {response : OkWithHandleResponse}
    (request : served.request = .alloc alloc) (replies : served.replies = [.okWithHandle response])
    (free : pages response.handle = none) (len : Nat) :
    Recorded (history ++ [served])
      (Function.update pages response.handle (some (List.replicate len 0))) := by
  have silent := wrote_alloc request
  refine ⟨?_,?_,?_⟩
  · intro h page there i inside
    rw [lastWritten_append,silent,Option.getD_none]
    by_cases same : h = response.handle
    · subst same
      rw [Function.update_self] at there
      obtain rfl := Option.some.inj there
      rw [lastWritten_untouched fun served member => recorded.untouched _ free served member i]
      rw [List.length_replicate] at inside
      rw [List.getElem?_replicate,if_pos inside]
    · rw [Function.update_of_ne same] at there
      exact recorded.bytes h page there i inside
  · intro earlier member alloc' response' request' replies'
    by_cases same : response'.handle = response.handle
    · rw [same,Function.update_self]
      simp
    · rw [Function.update_of_ne same]
      rcases List.mem_append.mp member with old | new
      · exact recorded.live earlier old alloc' response' request' replies'
      · obtain rfl := List.mem_singleton.mp new
        obtain rfl : response = response' := by simpa using replies.symm.trans replies'
        contradiction
  · intro h absent earlier member i
    rcases List.mem_append.mp member with old | new
    · by_cases same : h = response.handle
      · exact recorded.untouched h (same ▸ free) earlier old i
      · rw [Function.update_of_ne same] at absent
        exact recorded.untouched h absent earlier old i
    · obtain rfl := List.mem_singleton.mp new
      exact silent h i

theorem recorded_wrote {history : List Served} {pages : PageMap} {served : Served}
    (recorded : Recorded history pages) {write : WriteRequestOwned} {response : OkWithHandleResponse}
    {page : List UInt8} (request : served.request = .write write)
    (replies : served.replies = [.okWithHandle response]) (there : pages write.handle = some page) :
    Recorded (history ++ [served])
      (Function.update pages write.handle (some (splice page write.offset.toNat write.buf))) := by
  have kept (h : UInt64) : Function.update pages write.handle
      (some (splice page write.offset.toNat write.buf)) h = none ↔ pages h = none := by
    by_cases same : h = write.handle
    · subst same
      simp [there]
    · rw [Function.update_of_ne same]
  refine ⟨?_,?_,?_⟩
  · intro h page' there' i inside
    rw [lastWritten_append,wrote_write request replies]
    by_cases same : write.handle = h
    · subst same
      rw [Function.update_self] at there'
      obtain rfl := Option.some.inj there'
      rw [splice_length] at inside
      rw [getElem?_splice,recorded.bytes _ page there i inside,if_pos rfl]
      rfl
    · rw [Function.update_of_ne (Ne.symm same)] at there'
      rw [if_neg same]
      exact recorded.bytes h page' there' i inside
  · intro earlier member alloc' response' request' replies'
    rw [ne_eq,kept]
    rcases List.mem_append.mp member with old | new
    · exact recorded.live earlier old alloc' response' request' replies'
    · obtain rfl := List.mem_singleton.mp new
      simp [request] at request'
  · intro h absent earlier member i
    rw [kept] at absent
    rcases List.mem_append.mp member with old | new
    · exact recorded.untouched h absent earlier old i
    · obtain rfl := List.mem_singleton.mp new
      have other : write.handle ≠ h := by rintro rfl; simp [there] at absent
      simp [Served.wrote,request,replies,other]

theorem recorded_nothing {history : List Served} {pages : PageMap} {served : Served}
    (recorded : Recorded history pages) (silent : ∀ response, served.replies ≠ [.okWithHandle response]) :
    Recorded (history ++ [served]) pages := by
  have unwritten := wrote_unacknowledged silent
  refine ⟨?_,?_,?_⟩
  · intro h page there i inside
    rw [lastWritten_append,unwritten,Option.getD_none]
    exact recorded.bytes h page there i inside
  · intro earlier member alloc' response' request' replies'
    rcases List.mem_append.mp member with old | new
    · exact recorded.live earlier old alloc' response' request' replies'
    · obtain rfl := List.mem_singleton.mp new
      exact absurd replies' (silent response')
  · intro h absent earlier member i
    rcases List.mem_append.mp member with old | new
    · exact recorded.untouched h absent earlier old i
    · obtain rfl := List.mem_singleton.mp new
      exact unwritten h i

theorem recorded_run {machine : Machine} {history : List Served} {pages : PageMap}
    (run : PageRun machine history pages) : Recorded history pages := by
  induction run with
  | start => exact ⟨by intro h page there; contradiction,by simp,by simp⟩
  | step _ acknowledged ih =>
    cases acknowledged with
    | allocated alloc response request replies free => exact recorded_allocated ih request replies free _
    | wrote write response page request replies _ there => exact recorded_wrote ih request replies there
    | nothing silent => exact recorded_nothing ih silent

section Server

variable (machine : Machine)

theorem write_acknowledged (ctx : ServerContext) (conn : Nat) (write : WriteRequestOwned) :
    Acknowledged machine ctx.contents ⟨conn, .write write, (ctx.contents.write machine write).replies⟩
      (ctx.contents.write machine write).pages := by
  rcases written_cases machine ctx write with ⟨_,_,refusal,refused,_⟩ | ⟨buf,live,granted,_⟩
  · rw [refused]
    exact .nothing fun _ => refusal.ne_singleton (by simp)
  · rw [granted]
    exact .wrote write ⟨write.handle⟩ _ rfl rfl rfl (contents_of_page live)

theorem read_unacknowledged (pages : PageMap) (read : ReadRequest) (response : OkWithHandleResponse) :
    (pages.read machine read).replies ≠ [.okWithHandle response] := by
  rcases pages.read_cases machine read with ⟨page,_,_,granted⟩ | ⟨_,_,refusal,refused⟩
  · simp [granted]
  · rw [refused]
    exact refusal.ne_singleton (by simp)

theorem invoke_unacknowledged (ctx : ServerContext) (env : Env) (invoke : InvokeRequest)
    (response : OkWithHandleResponse) :
    (ctx.handleInvoke machine env invoke).replies ≠ [.okWithHandle response] := by
  unfold ServerContext.handleInvoke
  repeat' split
  all_goals simp [ServerContext.replyBadHandle,ServerContext.reply,ServerContext.panicked]

theorem handle_acknowledged {ctx : ServerContext} {env : Env} (wellFormed : ctx.WellFormed)
    (lawful : env.Lawful ctx) (conn : Nat) (request : RequestBodyOwned) :
    Acknowledged machine ctx.contents ⟨conn, request, (ctx.handle machine env request).replies⟩
      (ctx.handle machine env request).ctx.contents := by
  cases request with
  | alloc alloc =>
    simp only [ServerContext.handle]
    rw [handleAlloc_contents machine ctx env lawful alloc]
    obtain ⟨_,_,⟨_,pages,silent⟩ | ⟨ptr,_,replies,_,pages⟩⟩ := handleAlloc_eq machine ctx env alloc
    · rw [pages,silent]
      exact .nothing (by intro _; simp)
    · rw [pages,replies]
      exact .allocated alloc ⟨env.freeIndex⟩ rfl rfl (contents_none lawful.unused)
  | write write =>
    simp only [ServerContext.handle,handleWrite_eq,written_contents machine ctx wellFormed]
    exact write_acknowledged machine ctx conn write
  | read read =>
    simp only [ServerContext.handle,handleRead_eq]
    exact .nothing (read_unacknowledged machine ctx.contents read)
  | invoke invoke =>
    simp only [ServerContext.handle,handleInvoke_unset machine ctx wellFormed.unset]
    exact .nothing (invoke_unacknowledged machine ctx env invoke)

theorem step_acknowledged {server : Server} {event : Event} (wellFormed : server.ctx.WellFormed)
    (lawful : event.env.Lawful server.ctx) :
    Acknowledged machine server.ctx.contents ⟨event.conn, event.request, (server.step machine event).2⟩
      (server.step machine event).1.ctx.contents := by
  rcases server.step_cases machine event with same | ⟨closed,stepped⟩
  · rw [same]
    exact .nothing (by intro _; simp)
  · rw [stepped]
    exact handle_acknowledged machine wellFormed lawful event.conn event.request

theorem history_run (maxNumFns : UInt32) (memory : Memory UInt8) (events : List Event)
    (lawful : (Server.start maxNumFns memory).LawfulRun machine events) :
    PageRun machine ((Server.start maxNumFns memory).history machine events)
      ((Server.start maxNumFns memory).after machine events).ctx.contents := by
  induction events using List.reverseRecOn with
  | nil => exact .start
  | append_singleton events event ih =>
    obtain ⟨before,now,_⟩ := (lawful_append machine).mp lawful
    have wellFormed := after_wellFormed machine (start_wellFormed maxNumFns memory) before
    rw [Server.history_append,Server.after_append]
    exact .step (ih before) (step_acknowledged machine wellFormed now)

end Server

def PageMap.byteAt (pages : PageMap) (handle : UInt64) (i : Nat) : Option UInt8 := (pages handle).bind (·[i]?)

/-- The contract of one step, after a history that led to the store before it. -/
structure StoreContract (machine : Machine) (history : List Served) (before after : ServerContext)
    (served : Served) : Prop where
  refines : PageRun machine history before.contents ∧ PageRun machine (history ++ [served]) after.contents
  fresh : ∀ alloc response, served.request = .alloc alloc → served.replies = [.okWithHandle response] →
    ∀ earlier ∈ history, ∀ alloc' response', earlier.request = .alloc alloc' →
      earlier.replies = [.okWithHandle response'] → response'.handle ≠ response.handle
  failedAlloc : ∀ alloc, served.request = .alloc alloc → (∀ response, served.replies ≠ [.okWithHandle response]) →
    after = before
  written : ∀ write response, served.request = .write write → served.replies = [.okWithHandle response] →
    response.handle = write.handle ∧
    (∀ i, write.offset.toNat ≤ i → i < write.offset.toNat + write.buf.length →
      after.contents.byteAt write.handle i = write.buf[i - write.offset.toNat]?) ∧
    (∀ h i, (h ≠ write.handle ∨ i < write.offset.toNat ∨ write.offset.toNat + write.buf.length ≤ i) →
      after.contents.byteAt h i = before.contents.byteAt h i)
  refused : ∀ e, served.replies = [.err e] → after = before
  lengths : ∀ h page, before.contents h = some page →
    ∃ page', after.contents h = some page' ∧ page'.length = page.length
  reads : ∀ read response, served.request = .read read → served.replies = [.okWithBuffer response] →
    response.handle = read.handle ∧ response.offset = read.offset ∧
    response.buf.length = read.len.toNat ∧ after = before ∧
    ∀ i, i < read.len.toNat →
      response.buf[i]? = some (lastWritten history read.handle (read.offset.toNat + i))

section Contract

variable {machine : Machine}

theorem acknowledged_lengths {pages pages' : PageMap} {served : Served}
    (step : Acknowledged machine pages served pages') {h : UInt64} {page : List UInt8}
    (there : pages h = some page) : ∃ page', pages' h = some page' ∧ page'.length = page.length := by
  cases step with
  | allocated alloc response _ _ free =>
    have other : h ≠ response.handle := by rintro rfl; rw [there] at free; contradiction
    exact ⟨page,by rw [Function.update_of_ne other,there],rfl⟩
  | wrote write response page' _ _ _ there' =>
    by_cases same : h = write.handle
    · subst same
      obtain rfl := Option.some.inj (there.symm.trans there')
      exact ⟨_,Function.update_self _ _ _,splice_length _ _ _⟩
    · exact ⟨page,by rw [Function.update_of_ne same,there],rfl⟩
  | nothing _ => exact ⟨page,there,rfl⟩

theorem acknowledged_free {pages pages' : PageMap} {served : Served}
    (step : Acknowledged machine pages served pages') {alloc : AllocRequest}
    {response : OkWithHandleResponse} (asked : served.request = .alloc alloc)
    (replied : served.replies = [.okWithHandle response]) : pages response.handle = none := by
  cases step with
  | allocated _ given _ replied' free =>
    obtain rfl : response = given := by simpa using replied.symm.trans replied'
    exact free
  | wrote write _ _ asked' => exact absurd (asked.symm.trans asked') (by simp)
  | nothing silent => exact absurd replied (silent response)

theorem handle_refused {ctx : ServerContext} {env : Env} (wellFormed : ctx.WellFormed)
    {request : RequestBodyOwned} {e : ErrResponse}
    (refused : (ctx.handle machine env request).replies = [.err e]) :
    (ctx.handle machine env request).ctx = ctx := by
  cases request with
  | alloc alloc =>
    obtain ⟨_,_,⟨same,_⟩ | ⟨_,_,replies,_⟩⟩ := handleAlloc_eq machine ctx env alloc
    · exact same
    · exact absurd (replies.symm.trans refused) (by simp)
  | write write =>
    simp only [ServerContext.handle,handleWrite_eq] at refused ⊢
    rw [written_refused machine ctx refused]
  | read read => simp only [ServerContext.handle,handleRead_eq]
  | invoke invoke => exact handleInvoke_unset machine ctx wellFormed.unset env invoke

theorem handle_failedAlloc {ctx : ServerContext} {env : Env} {alloc : AllocRequest}
    (failed : ∀ response, (ctx.handleAlloc machine env alloc).replies ≠ [.okWithHandle response]) :
    (ctx.handleAlloc machine env alloc).ctx = ctx := by
  obtain ⟨_,_,⟨same,_⟩ | ⟨_,_,replies,_⟩⟩ := handleAlloc_eq machine ctx env alloc
  · exact same
  · exact absurd replies (failed _)

theorem write_accepted {pages : PageMap} {write : WriteRequestOwned} {response : OkWithHandleResponse}
    (fits : write.offset.toNat + write.buf.length < 2 ^ 64)
    (accepted : (pages.write machine write).replies = [.okWithHandle response]) :
    response.handle = write.handle ∧ ∃ page, pages write.handle = some page ∧
      write.offset.toNat + write.buf.length ≤ page.length ∧ (pages.write machine write).pages =
        Function.update pages write.handle (some (splice page write.offset.toNat write.buf)) := by
  rw [PageMap.write_eq machine pages write fits] at accepted ⊢
  cases there : pages write.handle with
  | none => simp [there,PageMap.replyBadHandle] at accepted
  | some page =>
    simp only [there] at accepted ⊢
    by_cases outside : page.length < write.offset.toNat + write.buf.length
    · simp [outside,PageMap.replyOutOfRange] at accepted
    · rw [if_neg outside] at accepted ⊢
      obtain rfl : OkWithHandleResponse.mk write.handle = response := by simpa using accepted
      exact ⟨rfl,page,rfl,by omega,rfl⟩

theorem update_byteAt (pages : PageMap) (handle : UInt64) (page : List UInt8) (h : UInt64) (i : Nat) :
    PageMap.byteAt (Function.update pages handle (some page)) h i =
      if h = handle then page[i]? else pages.byteAt h i := by
  unfold PageMap.byteAt
  by_cases same : h = handle
  · subst same
    simp
  · rw [Function.update_of_ne same,if_neg same]

theorem write_exact {pages : PageMap} {write : WriteRequestOwned} {response : OkWithHandleResponse}
    (fits : write.offset.toNat + write.buf.length < 2 ^ 64)
    (accepted : (pages.write machine write).replies = [.okWithHandle response]) :
    response.handle = write.handle ∧
    (∀ i, write.offset.toNat ≤ i → i < write.offset.toNat + write.buf.length →
      (pages.write machine write).pages.byteAt write.handle i = write.buf[i - write.offset.toNat]?) ∧
    (∀ h i, (h ≠ write.handle ∨ i < write.offset.toNat ∨ write.offset.toNat + write.buf.length ≤ i) →
      (pages.write machine write).pages.byteAt h i = pages.byteAt h i) := by
  obtain ⟨named,page,there,inside,after⟩ := write_accepted fits accepted
  refine ⟨named,?_,?_⟩
  · intro i low high
    rw [after,update_byteAt,if_pos rfl,getElem?_splice,List.getElem?_eq_getElem (by omega),Option.map_some,
      overlay_inside low high,List.getElem?_eq_getElem (by omega)]
  · intro h i outside
    rw [after,update_byteAt]
    by_cases same : h = write.handle
    · subst same
      have unchanged : overlay write.offset.toNat write.buf i = id :=
        funext fun old => overlay_outside (outside.resolve_left (fun ne => ne rfl))
      simp [PageMap.byteAt,there,getElem?_splice,unchanged]
    · rw [if_neg same]

theorem read_exact {pages : PageMap} {history : List Served} (recorded : Recorded history pages)
    {read : ReadRequest} {response : OkWithBufferResponse}
    (fits : read.offset.toNat + read.len.toNat < 2 ^ 64)
    (answered : (pages.read machine read).replies = [.okWithBuffer response]) :
    response.handle = read.handle ∧ response.offset = read.offset ∧
    response.buf.length = read.len.toNat ∧ ∀ i, i < read.len.toNat →
      response.buf[i]? = some (lastWritten history read.handle (read.offset.toNat + i)) := by
  rw [PageMap.read_eq machine pages read fits] at answered
  cases there : pages read.handle with
  | none => simp [there,PageMap.replyBadHandle] at answered
  | some page =>
    simp only [there] at answered
    by_cases outside : page.length < read.offset.toNat + read.len.toNat
    · simp [outside,PageMap.replyOutOfRange] at answered
    by_cases large : isizeMax < read.len.toNat
    · simp [outside,large] at answered
    rw [if_neg outside,if_neg large] at answered
    obtain rfl : OkWithBufferResponse.mk read.handle read.offset
        (slice page read.offset.toNat read.len.toNat) = response := by simpa using answered
    refine ⟨rfl,rfl,slice_length (by omega),?_⟩
    intro i inside
    rw [getElem?_slice inside]
    exact recorded.bytes _ page there _ (by omega)

theorem handle_contract {ctx : ServerContext} {env : Env} {history : List Served}
    (wellFormed : ctx.WellFormed) (lawful : env.Lawful ctx) (run : PageRun machine history ctx.contents)
    (conn : Nat) {request : RequestBodyOwned} (fits : request.Fits) :
    StoreContract machine history ctx (ctx.handle machine env request).ctx
      ⟨conn, request, (ctx.handle machine env request).replies⟩ := by
  have acknowledged := handle_acknowledged machine wellFormed lawful conn request
  have recorded := recorded_run run
  constructor
  case refines => exact ⟨run,.step run acknowledged⟩
  case fresh =>
    intro alloc response asked replied earlier member alloc' response' asked' replied' same
    have live := recorded.live earlier member alloc' response' asked' replied'
    exact live (same ▸ acknowledged_free acknowledged asked replied)
  case failedAlloc =>
    intro alloc asked failed
    subst asked
    exact handle_failedAlloc failed
  case written =>
    intro write response asked replied
    subst asked
    simp only [ServerContext.handle,handleWrite_eq,written_contents machine ctx wellFormed] at replied ⊢
    exact write_exact fits replied
  case refused => exact fun e refused => handle_refused wellFormed refused
  case lengths => exact fun h page there => acknowledged_lengths acknowledged there
  case reads =>
    intro read response asked replied
    subst asked
    simp only [ServerContext.handle,handleRead_eq] at replied ⊢
    obtain ⟨handle,offset,length,bytes⟩ := read_exact recorded fits replied
    exact ⟨handle,offset,length,trivial,bytes⟩

theorem closed_contract {ctx : ServerContext} {history : List Served}
    (run : PageRun machine history ctx.contents) (conn : Nat) (request : RequestBodyOwned) :
    StoreContract machine history ctx ctx ⟨conn, request, []⟩ where
  refines := ⟨run,.step run (.nothing (by intro _; simp))⟩
  fresh := by intro _ _ _ replied; simp at replied
  failedAlloc := fun _ _ _ => rfl
  written := by intro _ _ _ replied; simp at replied
  refused := fun _ _ => rfl
  lengths := fun _ page there => ⟨page,there,rfl⟩
  reads := by intro _ _ _ replied; simp at replied

end Contract

/-- After any run, with any connections in any order, the next request meets the contract. -/
theorem store_contract (machine : Machine) (maxNumFns : UInt32) (memory : Memory UInt8)
    (events : List Event) (event : Event)
    (lawful : (Server.start maxNumFns memory).LawfulRun machine (events ++ [event]))
    (fits : event.request.Fits) :
    StoreContract machine ((Server.start maxNumFns memory).history machine events)
      ((Server.start maxNumFns memory).after machine events).ctx
      (((Server.start maxNumFns memory).after machine events).step machine event).1.ctx
      ⟨event.conn, event.request,
        (((Server.start maxNumFns memory).after machine events).step machine event).2⟩ := by
  obtain ⟨before,now,_⟩ := (lawful_append machine).mp lawful
  have wellFormed := after_wellFormed machine (start_wellFormed maxNumFns memory) before
  have run := history_run machine maxNumFns memory events before
  rcases Server.step_cases machine ((Server.start maxNumFns memory).after machine events) event with
    same | ⟨closed,stepped⟩
  · rw [same]
    exact closed_contract run event.conn event.request
  · rw [stepped]
    exact handle_contract wellFormed now run event.conn fits

/-- A page of one connection, written by a second and read by a third. -/
theorem store_contract_shared :
    (((Server.start 1 fun _ => 9).after .small
        [⟨0, .alloc ⟨3⟩, .mapsAt 100 0⟩, ⟨1, .write ⟨0, 1, [7, 8]⟩, .mapsNothing 1⟩]).step .small
        ⟨2, .read ⟨0, 0, 4⟩, .mapsNothing 1⟩).2 = [.okWithBuffer ⟨0, 0, [0, 7, 8, 0]⟩] ∧
    StoreContract .small ((Server.start 1 fun _ => 9).history .small
        [⟨0, .alloc ⟨3⟩, .mapsAt 100 0⟩, ⟨1, .write ⟨0, 1, [7, 8]⟩, .mapsNothing 1⟩])
      ((Server.start 1 fun _ => 9).after .small
        [⟨0, .alloc ⟨3⟩, .mapsAt 100 0⟩, ⟨1, .write ⟨0, 1, [7, 8]⟩, .mapsNothing 1⟩]).ctx
      (((Server.start 1 fun _ => 9).after .small
        [⟨0, .alloc ⟨3⟩, .mapsAt 100 0⟩, ⟨1, .write ⟨0, 1, [7, 8]⟩, .mapsNothing 1⟩]).step .small
        ⟨2, .read ⟨0, 0, 4⟩, .mapsNothing 1⟩).1.ctx
      ⟨2, .read ⟨0, 0, 4⟩, [.okWithBuffer ⟨0, 0, [0, 7, 8, 0]⟩]⟩ := by
  have lawful : (Server.start 1 fun _ => 9).LawfulRun .small
      ([⟨0, .alloc ⟨3⟩, .mapsAt 100 0⟩, ⟨1, .write ⟨0, 1, [7, 8]⟩, .mapsNothing 1⟩] ++
        [⟨2, .read ⟨0, 0, 4⟩, .mapsNothing 1⟩]) :=
    ⟨⟨by intro _ _ _ _ _ live; contradiction,rfl⟩,⟨by intro _ _ mapped; contradiction,rfl⟩,
      ⟨by intro _ _ mapped; contradiction,rfl⟩,trivial⟩
  exact ⟨by decide,store_contract .small 1 (fun _ => 9) _ _ lawful (by decide)⟩

end Ndp
