import Ndp.Server

/-! What the store is for: a map from handles to byte arrays that start out zeroed. The
handlers work on mappings in one flat memory; as long as live mappings share no byte,
each of them does to its page what the map says and leaves all others alone. -/
namespace Ndp

open ByteMemory

abbrev PageMap := UInt64 → Option (List UInt8)

/-- A step of the map: the pages after it, what is replied, and how the handler ends. -/
structure PageStep where
  pages : PageMap
  replies : List ResponseBody
  result : HandlerEnd

namespace PageMap

variable (machine : Machine) (pages : PageMap)

def replyBadHandle : PageStep := ⟨pages, [.err ⟨.invalidHandle, "Invalid handle"⟩], .ok⟩

def replyOutOfRange : PageStep := ⟨pages, [.err ⟨.argumentOutOfRange, "Offset is out of range"⟩], .ok⟩

def read (read : ReadRequest) : PageStep :=
  match pages read.handle with
  | none => pages.replyBadHandle
  | some page =>
    match addU64 machine.overflowChecks read.offset read.len with
    | .error panic => ⟨pages, [], .panicked panic⟩
    | .ok stop =>
      if page.length < stop.toNat then pages.replyOutOfRange
      else if isizeMax < read.len.toNat then ⟨pages, [], .panicked .capacityOverflow⟩
      else if read.len.toNat ≤ page.length - read.offset.toNat then
        ⟨pages, [.okWithBuffer ⟨read.handle, read.offset, slice page read.offset.toNat read.len.toNat⟩], .ok⟩
      else ⟨pages, [], .err (.io .unexpectedEof)⟩

def write (write : WriteRequestOwned) : PageStep :=
  match pages write.handle with
  | none => pages.replyBadHandle
  | some page =>
    match addU64 machine.overflowChecks write.offset (UInt64.ofNat write.buf.length) with
    | .error panic => ⟨pages, [], .panicked panic⟩
    | .ok stop =>
      if page.length < stop.toNat then pages.replyOutOfRange
      else ⟨Function.update pages write.handle (some (splice page write.offset.toNat write.buf)),
        [.okWithHandle ⟨write.handle⟩], .ok⟩

def alloc (env : Env) (alloc : AllocRequest) : PageStep :=
  if machine.overflowChecks ∧ 2 ^ 64 ≤ roundedSize machine alloc.size.toNat then
    ⟨pages, [], .panicked .arithmeticOverflow⟩
  else
    match env.mmap (mappingLen machine alloc.size) with
    | .error e => ⟨pages, [], .err (.nix e)⟩
    | .ok _ =>
      ⟨Function.update pages env.freeIndex (some (List.replicate (mappingLen machine alloc.size).toNat 0)),
        [.okWithHandle ⟨env.freeIndex⟩], .ok⟩

end PageMap

/-- Nothing is sent, or an error is. -/
def Refusal (replies : List ResponseBody) : Prop := ∀ reply ∈ replies, ∃ e, reply = .err e

theorem Refusal.nil : Refusal [] := by simp [Refusal]

theorem Refusal.err (e : ErrResponse) : Refusal [.err e] := by simp [Refusal]

theorem Refusal.ne_singleton {replies : List ResponseBody} (refusal : Refusal replies) {reply : ResponseBody}
    (sent : ∀ e, reply ≠ .err e) : replies ≠ [reply] := by
  rintro rfl
  obtain ⟨e,same⟩ := refusal reply (List.mem_singleton_self reply)
  exact sent e same

theorem PageMap.read_cases (machine : Machine) (pages : PageMap) (r : ReadRequest) :
    (∃ page, pages r.handle = some page ∧ r.len.toNat ≤ page.length - r.offset.toNat ∧
      pages.read machine r =
        ⟨pages, [.okWithBuffer ⟨r.handle, r.offset, slice page r.offset.toNat r.len.toNat⟩], .ok⟩) ∨
    ∃ replies result, Refusal replies ∧ pages.read machine r = ⟨pages, replies, result⟩ := by
  unfold PageMap.read
  cases pages r.handle with
  | none => exact .inr ⟨_,_,.err _,rfl⟩
  | some page =>
    simp only
    cases addU64 machine.overflowChecks r.offset r.len with
    | error panic => exact .inr ⟨_,_,.nil,rfl⟩
    | ok stop =>
      simp only
      split
      · exact .inr ⟨_,_,.err _,rfl⟩
      split
      · exact .inr ⟨_,_,.nil,rfl⟩
      split
      · next enough => exact .inl ⟨page,rfl,enough,rfl⟩
      · exact .inr ⟨_,_,.nil,rfl⟩

/-- No sum of an offset and a length leaves the 64 bits. -/
def RequestBodyOwned.Fits : RequestBodyOwned → Prop
  | .read r => r.offset.toNat + r.len.toNat < 2 ^ 64
  | .write w => w.offset.toNat + w.buf.length < 2 ^ 64
  | _ => True

instance : DecidablePred RequestBodyOwned.Fits
  | .read r => inferInstanceAs (Decidable (r.offset.toNat + r.len.toNat < 2 ^ 64))
  | .write w => inferInstanceAs (Decidable (w.offset.toNat + w.buf.length < 2 ^ 64))
  | .alloc _ => inferInstanceAs (Decidable True)
  | .invoke _ => inferInstanceAs (Decidable True)

theorem PageMap.write_eq (machine : Machine) (pages : PageMap) (write : WriteRequestOwned)
    (fits : write.offset.toNat + write.buf.length < 2 ^ 64) :
    pages.write machine write =
      match pages write.handle with
      | none => pages.replyBadHandle
      | some page =>
        if page.length < write.offset.toNat + write.buf.length then pages.replyOutOfRange
        else ⟨Function.update pages write.handle (some (splice page write.offset.toNat write.buf)),
          [.okWithHandle ⟨write.handle⟩], .ok⟩ := by
  have len : (UInt64.ofNat write.buf.length).toNat = write.buf.length :=
    UInt64.toNat_ofNat_of_lt' (by simp only [UInt64.size]; omega)
  obtain ⟨stop,sum,value⟩ := addU64_fits machine.overflowChecks write.offset
    (UInt64.ofNat write.buf.length) (by rw [len]; exact fits)
  rw [len] at value
  simp only [PageMap.write,sum,value]

theorem PageMap.read_eq (machine : Machine) (pages : PageMap) (read : ReadRequest)
    (fits : read.offset.toNat + read.len.toNat < 2 ^ 64) :
    pages.read machine read =
      match pages read.handle with
      | none => pages.replyBadHandle
      | some page =>
        if page.length < read.offset.toNat + read.len.toNat then pages.replyOutOfRange
        else if isizeMax < read.len.toNat then ⟨pages, [], .panicked .capacityOverflow⟩
        else ⟨pages, [.okWithBuffer ⟨read.handle, read.offset,
          slice page read.offset.toNat read.len.toNat⟩], .ok⟩ := by
  obtain ⟨stop,sum,value⟩ := addU64_fits machine.overflowChecks read.offset read.len fits
  simp only [PageMap.read,sum,value]
  cases pages read.handle with
  | none => rfl
  | some page =>
    by_cases outside : page.length < read.offset.toNat + read.len.toNat
    · simp only [if_pos outside]
    · have enough : read.len.toNat ≤ page.length - read.offset.toNat := by omega
      simp only [if_neg outside,if_pos enough]

theorem read_granted (machine : Machine) {pages : PageMap} {r : ReadRequest} {page : List UInt8}
    (fits : r.offset.toNat + r.len.toNat < 2 ^ 64) (there : pages r.handle = some page)
    (inside : r.offset.toNat + r.len.toNat ≤ page.length) :
    pages.read machine r = if isizeMax < r.len.toNat then ⟨pages, [], .panicked .capacityOverflow⟩
      else ⟨pages, [.okWithBuffer ⟨r.handle, r.offset, slice page r.offset.toNat r.len.toNat⟩], .ok⟩ := by
  simp only [PageMap.read_eq machine pages r fits,there]
  rw [if_neg (by omega)]

theorem write_granted (machine : Machine) {pages : PageMap} {w : WriteRequestOwned} {page : List UInt8}
    (fits : w.offset.toNat + w.buf.length < 2 ^ 64) (there : pages w.handle = some page)
    (inside : w.offset.toNat + w.buf.length ≤ page.length) :
    pages.write machine w = ⟨Function.update pages w.handle (some (splice page w.offset.toNat w.buf)),
      [.okWithHandle ⟨w.handle⟩], .ok⟩ := by
  simp only [PageMap.write_eq machine pages w fits,there]
  rw [if_neg (by omega)]

/-- The map a store stands for. -/
def ServerContext.contents (ctx : ServerContext) : PageMap :=
  fun handle => (ctx.pages handle).map (·.asSlice ctx.memory)

/-- Live mappings share no byte, and no function has been registered. -/
structure ServerContext.WellFormed (ctx : ServerContext) : Prop where
  separate : ∀ h h' buf buf', h ≠ h' → ctx.pages h = some buf → ctx.pages h' = some buf' →
    Apart buf.ptr buf.len.toNat buf'.ptr buf'.len.toNat
  unset : ∀ slot ∈ ctx.fns.slots, slot = 0

/-- What the kernel and the arena promise: a new mapping lies clear of the live ones, and
an entry goes where there is none. -/
structure Env.Lawful (env : Env) (ctx : ServerContext) : Prop where
  clear : ∀ len ptr, env.mmap len = .ok ptr → ∀ h buf, ctx.pages h = some buf →
    Apart ptr len.toNat buf.ptr buf.len.toNat
  unused : ctx.pages env.freeIndex = none

theorem contents_of_page {ctx : ServerContext} {h : UInt64} {buf : MappedBufMut}
    (live : ctx.pages h = some buf) : ctx.contents h = some (buf.asSlice ctx.memory) := by
  simp [ServerContext.contents,live]

theorem contents_none {ctx : ServerContext} {h : UInt64} (absent : ctx.pages h = none) :
    ctx.contents h = none := by
  simp [ServerContext.contents,absent]

variable (machine : Machine) (ctx : ServerContext)

theorem handleRead_eq (read : ReadRequest) :
    ctx.handleRead machine read =
      ⟨ctx, (ctx.contents.read machine read).replies, (ctx.contents.read machine read).result⟩ := by
  unfold ServerContext.handleRead PageMap.read
  cases live : ctx.pages read.handle with
  | none => rw [contents_none live]; rfl
  | some buf =>
    rw [contents_of_page live]
    simp only
    cases addU64 machine.overflowChecks read.offset read.len with
    | error panic => rfl
    | ok stop =>
      simp only [MappedBufMut.asSlice_length,gt_iff_lt,UInt64.lt_iff_toNat_lt]
      obtain ⟨c,exact⟩ := readExact_eq ctx.memory buf read.offset read.len.toNat
      split
      · rfl
      split
      · rfl
      rw [exact]
      by_cases enough : read.len.toNat ≤ buf.len.toNat - read.offset.toNat
      · rw [if_pos enough,if_pos enough]; rfl
      · rw [if_neg enough,if_neg enough]; rfl

/-- Memory after a write request, accepted or not. -/
def ServerContext.written (write : WriteRequestOwned) : Memory UInt8 :=
  match ctx.pages write.handle with
  | none => ctx.memory
  | some buf =>
    match addU64 machine.overflowChecks write.offset (UInt64.ofNat write.buf.length) with
    | .error _ => ctx.memory
    | .ok stop =>
      if stop > buf.len then ctx.memory
      else ((buf.asCursor.setPosition write.offset).write ctx.memory write.buf).1

theorem handleWrite_eq (write : WriteRequestOwned) :
    ctx.handleWrite machine write =
      ⟨{ ctx with memory := ctx.written machine write }, (ctx.contents.write machine write).replies,
        (ctx.contents.write machine write).result⟩ := by
  unfold ServerContext.handleWrite ServerContext.written PageMap.write
  cases live : ctx.pages write.handle with
  | none => rw [contents_none live]; rfl
  | some buf =>
    rw [contents_of_page live]
    simp only
    cases addU64 machine.overflowChecks write.offset (UInt64.ofNat write.buf.length) with
    | error panic => rfl
    | ok stop =>
      simp only [MappedBufMut.asSlice_length,gt_iff_lt,UInt64.lt_iff_toNat_lt]
      split <;> rfl

theorem written_cases (write : WriteRequestOwned) :
    (∃ replies result, Refusal replies ∧ ctx.contents.write machine write = ⟨ctx.contents, replies, result⟩ ∧
      ctx.written machine write = ctx.memory) ∨
    ∃ buf, ctx.pages write.handle = some buf ∧
      ctx.contents.write machine write = ⟨Function.update ctx.contents write.handle
        (some (splice (buf.asSlice ctx.memory) write.offset.toNat write.buf)), [.okWithHandle ⟨write.handle⟩], .ok⟩ ∧
      ctx.written machine write = ((buf.asCursor.setPosition write.offset).write ctx.memory write.buf).1 := by
  unfold PageMap.write ServerContext.written
  cases live : ctx.pages write.handle with
  | none =>
    rw [contents_none live]
    exact .inl ⟨_,_,.err _,rfl,rfl⟩
  | some buf =>
    rw [contents_of_page live]
    simp only
    cases addU64 machine.overflowChecks write.offset (UInt64.ofNat write.buf.length) with
    | error panic => exact .inl ⟨_,_,.nil,rfl,rfl⟩
    | ok stop =>
      simp only [MappedBufMut.asSlice_length,gt_iff_lt,UInt64.lt_iff_toNat_lt]
      split
      · exact .inl ⟨_,_,.err _,rfl,rfl⟩
      · exact .inr ⟨buf,rfl,rfl,rfl⟩

theorem written_refused {write : WriteRequestOwned} {e : ErrResponse}
    (refused : (ctx.contents.write machine write).replies = [.err e]) :
    ctx.written machine write = ctx.memory := by
  rcases written_cases machine ctx write with ⟨_,_,_,_,kept⟩ | ⟨buf,_,granted,_⟩
  · exact kept
  · rw [granted] at refused
    simp at refused

theorem stored_contents (wellFormed : ctx.WellFormed) {handle : UInt64} {buf : MappedBufMut}
    (live : ctx.pages handle = some buf) (offset : UInt64) (data : List UInt8) :
    ServerContext.contents { ctx with
        memory := ((buf.asCursor.setPosition offset).write ctx.memory data).1 } =
      Function.update ctx.contents handle (some (splice (buf.asSlice ctx.memory) offset.toNat data)) := by
  funext h
  by_cases same : h = handle
  · subst same
    simp only [ServerContext.contents,live,Option.map_some,Function.update_self,write_own]
  · rw [Function.update_of_ne same]
    cases other : ctx.pages h with
    | none => simp [ServerContext.contents,other]
    | some buf' =>
      have apart := wellFormed.separate _ _ _ _ (Ne.symm same) live other
      simp only [ServerContext.contents,other,Option.map_some,write_other _ _ _ apart]

theorem written_contents (wellFormed : ctx.WellFormed) (write : WriteRequestOwned) :
    ServerContext.contents { ctx with memory := ctx.written machine write } =
      (ctx.contents.write machine write).pages := by
  rcases written_cases machine ctx write with ⟨_,_,_,refused,kept⟩ | ⟨buf,live,granted,stored⟩
  · rw [refused,kept]
  · rw [granted,stored]
    exact stored_contents ctx wellFormed live write.offset write.buf

theorem handleAlloc_eq (env : Env) (alloc : AllocRequest) :
    (ctx.handleAlloc machine env alloc).replies = (ctx.contents.alloc machine env alloc).replies ∧
    (ctx.handleAlloc machine env alloc).result = (ctx.contents.alloc machine env alloc).result ∧
    ((ctx.handleAlloc machine env alloc).ctx = ctx ∧
        (ctx.contents.alloc machine env alloc).pages = ctx.contents ∧
        (ctx.handleAlloc machine env alloc).replies = [] ∨
      ∃ ptr, env.mmap (mappingLen machine alloc.size) = .ok ptr ∧
        (ctx.handleAlloc machine env alloc).replies = [.okWithHandle ⟨env.freeIndex⟩] ∧
        (ctx.handleAlloc machine env alloc).ctx = { ctx with
          pages := ctx.pages.insert env.freeIndex ⟨ptr, mappingLen machine alloc.size, machine.pageSize⟩
          memory := store ctx.memory ptr (List.replicate (mappingLen machine alloc.size).toNat 0) } ∧
        (ctx.contents.alloc machine env alloc).pages = Function.update ctx.contents env.freeIndex
          (some (List.replicate (mappingLen machine alloc.size).toNat 0))) := by
  unfold ServerContext.handleAlloc PageMap.alloc
  rw [withSize_eq]
  by_cases overflow : machine.overflowChecks ∧ 2 ^ 64 ≤ roundedSize machine alloc.size.toNat
  · rw [if_pos overflow,if_pos overflow]
    exact ⟨rfl,rfl,.inl ⟨rfl,rfl,rfl⟩⟩
  · rw [if_neg overflow,if_neg overflow]
    cases mapped : env.mmap (mappingLen machine alloc.size) with
    | error e => exact ⟨rfl,rfl,.inl ⟨rfl,rfl,rfl⟩⟩
    | ok ptr => exact ⟨rfl,rfl,.inr ⟨ptr,rfl,rfl,rfl,rfl⟩⟩

theorem inserted_contents {env : Env} (lawful : env.Lawful ctx) {len pageSize : UInt64} {ptr : Nat}
    (mapped : env.mmap len = .ok ptr) :
    ServerContext.contents { ctx with
        pages := ctx.pages.insert env.freeIndex ⟨ptr, len, pageSize⟩
        memory := store ctx.memory ptr (List.replicate len.toNat 0) } =
      Function.update ctx.contents env.freeIndex (some (List.replicate len.toNat 0)) := by
  funext h
  by_cases same : h = env.freeIndex
  · subst same
    have zeroed := load_store_same ctx.memory ptr (List.replicate len.toNat 0)
    rw [List.length_replicate] at zeroed
    simp [ServerContext.contents,Arena.insert,MappedBufMut.asSlice,zeroed]
  · simp only [ServerContext.contents,Arena.insert,Function.update_of_ne same]
    cases other : ctx.pages h with
    | none => rfl
    | some buf =>
      have apart := lawful.clear len ptr mapped h buf other
      simp only [Option.map_some,MappedBufMut.asSlice]
      rw [load_store_apart ctx.memory (by simpa using apart)]

theorem handleAlloc_contents (env : Env) (lawful : env.Lawful ctx) (alloc : AllocRequest) :
    (ctx.handleAlloc machine env alloc).ctx.contents = (ctx.contents.alloc machine env alloc).pages := by
  obtain ⟨_,_,⟨same,pages,_⟩ | ⟨ptr,mapped,_,inserted,pages⟩⟩ := handleAlloc_eq machine ctx env alloc
  · rw [same,pages]
  · rw [inserted,pages]
    exact inserted_contents ctx lawful mapped

theorem read_keeps (pages : PageMap) (r : ReadRequest) : (pages.read machine r).pages = pages := by
  rcases pages.read_cases machine r with ⟨page,_,_,granted⟩ | ⟨_,_,_,refused⟩
  · rw [granted]
  · rw [refused]

/-- A handler did to the pages, answered and ended as a step of the map says. -/
structure Handled.Performs (handled : Handled) (step : PageStep) : Prop where
  pages : handled.ctx.contents = step.pages
  replies : handled.replies = step.replies
  result : handled.result = step.result

theorem handleRead_performs (read : ReadRequest) :
    (ctx.handleRead machine read).Performs (ctx.contents.read machine read) := by
  rw [handleRead_eq]
  exact ⟨(read_keeps machine ctx.contents read).symm,rfl,rfl⟩

theorem handleWrite_performs (wellFormed : ctx.WellFormed) (write : WriteRequestOwned) :
    (ctx.handleWrite machine write).Performs (ctx.contents.write machine write) := by
  rw [handleWrite_eq]
  exact ⟨written_contents machine ctx wellFormed write,rfl,rfl⟩

theorem handleAlloc_performs {env : Env} (lawful : env.Lawful ctx) (alloc : AllocRequest) :
    (ctx.handleAlloc machine env alloc).Performs (ctx.contents.alloc machine env alloc) := by
  obtain ⟨replies,result,_⟩ := handleAlloc_eq machine ctx env alloc
  exact ⟨handleAlloc_contents machine ctx env lawful alloc,replies,result⟩

/-- With no function registered a call changes nothing; on a live handle it panics. -/
theorem handleInvoke_unset (unset : ∀ slot ∈ ctx.fns.slots, slot = 0) (env : Env) (invoke : InvokeRequest) :
    (ctx.handleInvoke machine env invoke).ctx = ctx := by
  unfold ServerContext.handleInvoke
  cases ctx.pages invoke.handle with
  | none => rfl
  | some buf =>
    simp only
    cases buf.asCursor.readU32 machine ctx.memory with
    | error e => rfl
    | ok pair =>
      obtain ⟨slotId,input⟩ := pair
      simp only [FnRegistrations.handlerAt]
      cases found : ctx.fns.slots[slotId.toNat]? with
      | none => rfl
      | some handler =>
        obtain rfl := unset handler (List.mem_of_getElem? found)
        rfl

theorem handle_fns (env : Env) (request : RequestBodyOwned) :
    (ctx.handle machine env request).ctx.fns = ctx.fns := by
  cases request with
  | alloc alloc =>
    obtain ⟨_,_,⟨same,_⟩ | ⟨_,_,_,inserted,_⟩⟩ := handleAlloc_eq machine ctx env alloc
    · exact congrArg ServerContext.fns same
    · simp only [ServerContext.handle,inserted]
  | write write => exact congrArg (fun handled => handled.ctx.fns) (handleWrite_eq machine ctx write)
  | read read => exact congrArg (fun handled => handled.ctx.fns) (handleRead_eq machine ctx read)
  | invoke invoke =>
    simp only [ServerContext.handle,ServerContext.handleInvoke]
    repeat' split
    all_goals rfl

theorem handle_pages (env : Env) (request : RequestBodyOwned) :
    (ctx.handle machine env request).ctx.pages = ctx.pages ∨
    ∃ alloc ptr, request = .alloc alloc ∧ env.mmap (mappingLen machine alloc.size) = .ok ptr ∧
      (ctx.handle machine env request).ctx.pages =
        ctx.pages.insert env.freeIndex ⟨ptr, mappingLen machine alloc.size, machine.pageSize⟩ := by
  cases request with
  | alloc alloc =>
    obtain ⟨_,_,⟨same,_⟩ | ⟨ptr,mapped,_,inserted,_⟩⟩ := handleAlloc_eq machine ctx env alloc
    · exact .inl (congrArg ServerContext.pages same)
    · exact .inr ⟨alloc,ptr,rfl,mapped,congrArg ServerContext.pages inserted⟩
  | write write => exact .inl (congrArg (fun handled => handled.ctx.pages) (handleWrite_eq machine ctx write))
  | read read => exact .inl (congrArg (fun handled => handled.ctx.pages) (handleRead_eq machine ctx read))
  | invoke invoke =>
    refine .inl ?_
    simp only [ServerContext.handle,ServerContext.handleInvoke]
    repeat' split
    all_goals rfl

theorem handle_wellFormed {env : Env} (wellFormed : ctx.WellFormed) (lawful : env.Lawful ctx)
    (request : RequestBodyOwned) : (ctx.handle machine env request).ctx.WellFormed := by
  refine ⟨?_,by rw [handle_fns]; exact wellFormed.unset⟩
  rcases handle_pages machine ctx env request with same | ⟨alloc,ptr,_,mapped,inserted⟩
  · rw [same]
    exact wellFormed.separate
  · rw [inserted]
    intro h h' buf buf' different live live'
    simp only [Arena.insert,Function.update_apply] at live live'
    split at live
    · obtain rfl := Option.some.inj live
      rw [if_neg (by rintro rfl; simp_all)] at live'
      exact lawful.clear _ _ mapped h' buf' live'
    · split at live'
      · obtain rfl := Option.some.inj live'
        exact (lawful.clear _ _ mapped h buf live).symm
      · exact wellFormed.separate h h' buf buf' different live live'

theorem start_wellFormed (maxNumFns : UInt32) (memory : Memory UInt8) :
    (ServerContext.withCapacity maxNumFns memory).WellFormed := by
  constructor
  · intro h h' buf buf' _ live
    contradiction
  · intro slot member
    exact List.eq_of_mem_replicate member

/-- In every step of the run the outside keeps its promises. -/
def Server.LawfulRun : Server → List Event → Prop
  | _, [] => True
  | server, event :: rest => event.env.Lawful server.ctx ∧
      Server.LawfulRun (server.step machine event).1 rest

theorem step_wellFormed {server : Server} {event : Event} (wellFormed : server.ctx.WellFormed)
    (lawful : event.env.Lawful server.ctx) : (server.step machine event).1.ctx.WellFormed := by
  rcases server.step_cases machine event with same | ⟨closed,stepped⟩
  · rw [same]
    exact wellFormed
  · rw [stepped]
    exact handle_wellFormed machine server.ctx wellFormed lawful event.request

theorem after_wellFormed {server : Server} {events : List Event} (wellFormed : server.ctx.WellFormed)
    (lawful : server.LawfulRun machine events) : (server.after machine events).ctx.WellFormed := by
  induction events generalizing server with
  | nil => exact wellFormed
  | cons event rest ih => exact ih (step_wellFormed machine wellFormed lawful.1) lawful.2

theorem lawful_append {server : Server} {first second : List Event} :
    server.LawfulRun machine (first ++ second) ↔
      server.LawfulRun machine first ∧ (server.after machine first).LawfulRun machine second := by
  induction first generalizing server with
  | nil => simp [Server.LawfulRun]
  | cons event rest ih => simp [Server.LawfulRun,ih,and_assoc]

/-- A kernel with no memory left. -/
def Env.mapsNothing (index : UInt64) : Env where
  mmap _ := .error ⟨12⟩
  freeIndex := index
  call _ _ memory := memory
  allocates := true

end Ndp
