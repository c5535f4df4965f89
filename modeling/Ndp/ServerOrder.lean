import Ndp.Interleaving
import Ndp.ServerStore

/-! Reads and writes of different connections that do not get in each other's way can be
served in any order. The argument is about the map of pages; the store follows it. -/
namespace Ndp

open ByteMemory

inductive Access where
  | read (r : ReadRequest)
  | write (w : WriteRequestOwned)
  deriving DecidableEq, Repr

namespace Access

def request : Access → RequestBodyOwned
  | .read r => .read r
  | .write w => .write w

def handle : Access → UInt64
  | .read r => r.handle
  | .write w => w.handle

def offset : Access → Nat
  | .read r => r.offset.toNat
  | .write w => w.offset.toNat

def len : Access → Nat
  | .read r => r.len.toNat
  | .write w => w.buf.length

def isRead : Access → Bool
  | .read _ => true
  | .write _ => false

end Access

/-- A read or write to be served on a connection. -/
structure AccessEvent where
  conn : Nat
  access : Access
  env : Env

def AccessEvent.event (e : AccessEvent) : Event := ⟨e.conn, e.access.request, e.env⟩

theorem fits_iff (a : Access) : a.request.Fits ↔ a.offset + a.len < 2 ^ 64 := by
  cases a <;> rfl

def PageMap.access (machine : Machine) (pages : PageMap) : Access → PageStep
  | .read r => pages.read machine r
  | .write w => pages.write machine w

/-- There is no such page, or the range leaves it. -/
def PageMap.Refuses (pages : PageMap) (a : Access) : Prop :=
  ∀ page, pages a.handle = some page → page.length < a.offset + a.len

/-- Two maps with the same pages, as far as their lengths go. -/
def PageMap.SameShape (pages pages' : PageMap) : Prop :=
  ∀ h, (pages' h).map List.length = (pages h).map List.length

section Map

variable (machine : Machine)

theorem refuses_shape {pages pages' : PageMap} (shape : pages.SameShape pages') {a : Access}
    (refuses : pages.Refuses a) : pages'.Refuses a := by
  intro page' there'
  have lengths := shape a.handle
  rw [there'] at lengths
  cases there : pages a.handle with
  | none => simp [there] at lengths
  | some page =>
    have := refuses page there
    simp only [there,Option.map_some,Option.some.injEq] at lengths
    omega

theorem sameShape_none {pages pages' : PageMap} (shape : pages.SameShape pages') (h : UInt64) :
    pages' h = none ↔ pages h = none := by
  have lengths := congrArg Option.isNone (shape h)
  simpa [← Option.isNone_iff_eq_none] using lengths

theorem access_refused {pages : PageMap} {a : Access} (fits : a.offset + a.len < 2 ^ 64)
    (refuses : pages.Refuses a) :
    pages.access machine a = if pages a.handle = none then pages.replyBadHandle else pages.replyOutOfRange := by
  cases there : pages a.handle with
  | none =>
    rw [if_pos rfl]
    cases a with
    | read r => simp only [PageMap.access,PageMap.read]; rw [show pages r.handle = none from there]
    | write w => simp only [PageMap.access,PageMap.write]; rw [show pages w.handle = none from there]
  | some page =>
    have outside := refuses page there
    rw [if_neg (by simp)]
    cases a with
    | read r =>
      rw [PageMap.access,PageMap.read_eq machine pages r fits,show pages r.handle = some page from there]
      exact if_pos outside
    | write w =>
      rw [PageMap.access,PageMap.write_eq machine pages w fits,show pages w.handle = some page from there]
      exact if_pos outside

theorem refused_pages {pages : PageMap} {a : Access} (fits : a.offset + a.len < 2 ^ 64)
    (refuses : pages.Refuses a) : (pages.access machine a).pages = pages := by
  rw [access_refused machine fits refuses]
  split <;> rfl

theorem granted_of_not_refused {pages : PageMap} {a : Access} (granted : ¬pages.Refuses a) :
    ∃ page, pages a.handle = some page ∧ a.offset + a.len ≤ page.length := by
  unfold PageMap.Refuses at granted
  push Not at granted
  exact granted

theorem access_shape {pages : PageMap} {a : Access} (fits : a.offset + a.len < 2 ^ 64) :
    pages.SameShape (pages.access machine a).pages := by
  by_cases refuses : pages.Refuses a
  · rw [refused_pages machine fits refuses]
    exact fun _ => rfl
  obtain ⟨page,there,inside⟩ := granted_of_not_refused refuses
  cases a with
  | read r =>
    rw [PageMap.access,read_keeps machine pages r]
    exact fun _ => rfl
  | write w =>
    rw [PageMap.access,write_granted machine fits there inside]
    intro h
    by_cases same : h = w.handle
    · subst same
      simp only [Access.handle] at there
      simp [there]
    · simp only [Function.update_of_ne same]

/-- Different pages, two reads, disjoint ranges, or a refusal. -/
def PageMap.NoConflict (pages : PageMap) (x y : Access) : Prop :=
  x.handle ≠ y.handle ∨ (x.isRead = true ∧ y.isRead = true) ∨ Apart x.offset x.len y.offset y.len ∨
    pages.Refuses x ∨ pages.Refuses y

theorem access_answer_congr {pages pages' : PageMap} {a : Access} (fits : a.offset + a.len < 2 ^ 64)
    (shape : pages.SameShape pages')
    (bytes : ∀ page page', a.isRead = true → pages a.handle = some page → pages' a.handle = some page' →
      a.offset + a.len ≤ page.length → slice page' a.offset a.len = slice page a.offset a.len) :
    (pages'.access machine a).replies = (pages.access machine a).replies ∧
    (pages'.access machine a).result = (pages.access machine a).result := by
  by_cases refuses : pages.Refuses a
  · rw [access_refused machine fits (refuses_shape shape refuses),access_refused machine fits refuses,
      if_congr (sameShape_none shape a.handle) rfl rfl]
    split <;> exact ⟨rfl,rfl⟩
  obtain ⟨page,there,inside⟩ := granted_of_not_refused refuses
  obtain ⟨page',there',length⟩ : ∃ page', pages' a.handle = some page' ∧ page'.length = page.length := by
    have := shape a.handle
    rwa [there,Option.map_some,Option.map_eq_some_iff] at this
  cases a with
  | read r =>
    rw [PageMap.access,PageMap.access,read_granted machine fits there' (by rw [length]; exact inside),
      read_granted machine fits there inside,show slice page' r.offset.toNat r.len.toNat =
        slice page r.offset.toNat r.len.toNat from bytes page page' rfl there there' inside]
    split <;> exact ⟨rfl,rfl⟩
  | write w =>
    rw [PageMap.access,PageMap.access,write_granted machine fits there' (by rw [length]; exact inside),
      write_granted machine fits there inside]
    exact ⟨rfl,rfl⟩

theorem access_after {pages : PageMap} {x y : Access} (fitsX : x.offset + x.len < 2 ^ 64)
    (fitsY : y.offset + y.len < 2 ^ 64) (apart : pages.NoConflict x y) :
    ((pages.access machine x).pages.access machine y).replies = (pages.access machine y).replies ∧
    ((pages.access machine x).pages.access machine y).result = (pages.access machine y).result := by
  apply access_answer_congr machine fitsY (access_shape machine fitsX)
  intro page page' isRead there there' inside
  by_cases refusesX : pages.Refuses x
  · rw [refused_pages machine fitsX refusesX] at there'
    rw [Option.some.inj (there.symm.trans there')]
  obtain ⟨pageX,thereX,insideX⟩ := granted_of_not_refused refusesX
  cases x with
  | read r =>
    rw [PageMap.access,read_keeps machine pages r] at there'
    rw [Option.some.inj (there.symm.trans there')]
  | write w =>
    rw [PageMap.access,write_granted machine fitsX thereX insideX] at there'
    by_cases same : y.handle = w.handle
    · simp only [same,Function.update_self,Option.some.injEq] at there'
      rw [← there',Option.some.inj (thereX.symm.trans ((congrArg pages same).symm.trans there))]
      apply slice_splice_apart
      rcases apart with differ | both | disjoint | refuses | refuses
      · exact absurd same.symm differ
      · exact absurd both.1 (by simp [Access.isRead])
      · exact disjoint
      · exact absurd refuses refusesX
      · exact absurd (refuses page there) (by omega)
    · simp only [Function.update_of_ne same] at there'
      rw [Option.some.inj (there.symm.trans there')]

theorem access_comm {pages : PageMap} {x y : Access} (fitsX : x.offset + x.len < 2 ^ 64)
    (fitsY : y.offset + y.len < 2 ^ 64) (apart : pages.NoConflict x y) :
    ((pages.access machine x).pages.access machine y).pages =
      ((pages.access machine y).pages.access machine x).pages := by
  by_cases refusesX : pages.Refuses x
  · rw [refused_pages machine fitsX refusesX,
      refused_pages machine fitsX (refuses_shape (access_shape machine fitsY) refusesX)]
  by_cases refusesY : pages.Refuses y
  · rw [refused_pages machine fitsY refusesY,
      refused_pages machine fitsY (refuses_shape (access_shape machine fitsX) refusesY)]
  obtain ⟨pageX,thereX,insideX⟩ := granted_of_not_refused refusesX
  obtain ⟨pageY,thereY,insideY⟩ := granted_of_not_refused refusesY
  cases x with
  | read r => simp only [PageMap.access,read_keeps]
  | write w =>
    cases y with
    | read r => simp only [PageMap.access,read_keeps]
    | write w' =>
      simp only [PageMap.access,write_granted machine fitsX thereX insideX,
        write_granted machine fitsY thereY insideY]
      simp only [Access.handle] at thereX thereY
      by_cases same : w.handle = w'.handle
      · obtain rfl : pageX = pageY := Option.some.inj (thereX.symm.trans ((congrArg pages same).trans thereY))
        have disjoint : Apart w.offset.toNat w.buf.length w'.offset.toNat w'.buf.length := by
          rcases apart with differ | both | disjoint | refuses | refuses
          · exact absurd same differ
          · exact absurd both.1 (by simp [Access.isRead])
          · exact disjoint
          · exact absurd refuses refusesX
          · exact absurd refuses refusesY
        have laterY : Function.update pages w.handle (some (splice pageX w.offset.toNat w.buf)) w'.handle =
            some (splice pageX w.offset.toNat w.buf) := by rw [← same,Function.update_self]
        have laterX : Function.update pages w'.handle (some (splice pageX w'.offset.toNat w'.buf)) w.handle =
            some (splice pageX w'.offset.toNat w'.buf) := by rw [same,Function.update_self]
        rw [write_granted machine fitsY laterY (by rw [splice_length]; exact insideY),
          write_granted machine fitsX laterX (by rw [splice_length]; exact insideX)]
        simp only [same,Function.update_idem,splice_comm pageX disjoint]
      · have laterY : Function.update pages w.handle (some (splice pageX w.offset.toNat w.buf)) w'.handle =
            some pageY := by rw [Function.update_of_ne (Ne.symm same),thereY]
        have laterX : Function.update pages w'.handle (some (splice pageY w'.offset.toNat w'.buf)) w.handle =
            some pageX := by rw [Function.update_of_ne same,thereX]
        rw [write_granted machine fitsY laterY insideY,write_granted machine fitsX laterX insideX]
        exact Function.update_comm same _ _ _

end Map

structure PageServer where
  pages : PageMap
  closed : Nat → Bool

def PageServer.step (machine : Machine) (server : PageServer) (e : AccessEvent) :
    PageServer × List ResponseBody :=
  if server.closed e.conn then (server, [])
  else
    let step := server.pages.access machine e.access
    (⟨step.pages, closeUnlessOk server.closed e.conn step.result⟩, step.replies)

def Server.view (server : Server) : PageServer := ⟨server.ctx.contents, server.closed⟩

section View

variable (machine : Machine)

theorem handle_access {ctx : ServerContext} (wellFormed : ctx.WellFormed) (env : Env) (a : Access) :
    (ctx.handle machine env a.request).Performs (ctx.contents.access machine a) ∧
    (ctx.handle machine env a.request).ctx.WellFormed := by
  cases a with
  | read r =>
    refine ⟨handleRead_performs machine ctx r,?_⟩
    rw [Access.request,ServerContext.handle,handleRead_eq]
    exact wellFormed
  | write w =>
    refine ⟨handleWrite_performs machine ctx wellFormed w,?_⟩
    rw [Access.request,ServerContext.handle,handleWrite_eq]
    exact ⟨wellFormed.separate,wellFormed.unset⟩

theorem step_view {server : Server} (wellFormed : server.ctx.WellFormed) (e : AccessEvent) :
    (server.step machine e.event).1.view = (server.view.step machine e).1 ∧
    (server.step machine e.event).2 = (server.view.step machine e).2 ∧
    (server.step machine e.event).1.ctx.WellFormed := by
  obtain ⟨⟨pages,replies,result⟩,wellFormed'⟩ := handle_access machine wellFormed e.env e.access
  cases ended : server.closed e.conn with
  | true => simpa [Server.step,PageServer.step,Server.view,AccessEvent.event,ended] using wellFormed
  | false =>
    simpa [Server.step,PageServer.step,Server.view,AccessEvent.event,ended,pages,replies,result]
      using wellFormed'

theorem run_view {server : Server} (wellFormed : server.ctx.WellFormed) (xs : List AccessEvent) :
    (server.after machine (xs.map AccessEvent.event)).view =
      Interleaving.run (PageServer.step machine) server.view xs ∧
    ∀ who, ((server.history machine (xs.map AccessEvent.event)).filter (fun served => served.conn = who)).map
        Served.replies =
      Interleaving.outputs (PageServer.step machine) AccessEvent.conn who server.view xs := by
  induction xs generalizing server with
  | nil => exact ⟨rfl,fun _ => rfl⟩
  | cons e rest ih =>
    obtain ⟨view,replies,wellFormed'⟩ := step_view machine wellFormed e
    obtain ⟨state,outs⟩ := ih wellFormed'
    rw [view] at state outs
    refine ⟨state,?_⟩
    intro who
    simp only [List.map_cons,Server.history,Interleaving.outputs,← outs who,← replies]
    by_cases own : e.conn = who
    · rw [if_pos own,List.filter_cons_of_pos (by simp [AccessEvent.event,own])]
      rfl
    · rw [if_neg own,List.filter_cons_of_neg (by simp [AccessEvent.event,own])]

theorem pageStep_shape {pages : PageMap} {server : PageServer} {e : AccessEvent}
    (shape : pages.SameShape server.pages) (fits : e.access.offset + e.access.len < 2 ^ 64) :
    pages.SameShape (server.step machine e).1.pages := by
  intro h
  unfold PageServer.step
  split
  · exact shape h
  · exact (access_shape machine fits h).trans (shape h)

theorem noConflict_shape {pages pages' : PageMap} (shape : pages.SameShape pages') {x y : Access}
    (apart : pages.NoConflict x y) : pages'.NoConflict x y := by
  rcases apart with differ | both | disjoint | refuses | refuses
  · exact .inl differ
  · exact .inr (.inl both)
  · exact .inr (.inr (.inl disjoint))
  · exact .inr (.inr (.inr (.inl (refuses_shape shape refuses))))
  · exact .inr (.inr (.inr (.inr (refuses_shape shape refuses))))

theorem noConflict_symm {pages : PageMap} {x y : Access} (apart : pages.NoConflict x y) :
    pages.NoConflict y x := by
  rcases apart with differ | both | disjoint | refuses | refuses
  · exact .inl (Ne.symm differ)
  · exact .inr (.inl both.symm)
  · exact .inr (.inr (.inl disjoint.symm))
  · exact .inr (.inr (.inr (.inr refuses)))
  · exact .inr (.inr (.inr (.inl refuses)))

theorem pageStep_commute (server : PageServer) {x y : AccessEvent} (different : x.conn ≠ y.conn)
    (fitsX : x.access.offset + x.access.len < 2 ^ 64) (fitsY : y.access.offset + y.access.len < 2 ^ 64)
    (apart : server.pages.NoConflict x.access y.access) :
    Interleaving.Commute (PageServer.step machine) server x y := by
  have afterX := access_after machine fitsX fitsY apart
  have afterY := access_after machine fitsY fitsX (noConflict_symm apart)
  have pages := access_comm machine fitsX fitsY apart
  have keepsY (result) := closeUnlessOk_other server.closed result (Ne.symm different)
  have keepsX (result) := closeUnlessOk_other server.closed result different
  unfold Interleaving.Commute PageServer.step
  cases endedX : server.closed x.conn <;> cases endedY : server.closed y.conn
  · simp [endedX,endedY,keepsX,keepsY,afterX,afterY,pages,
      closeUnlessOk_comm server.closed _ _ different]
  all_goals simp [endedX,endedY,keepsX,keepsY]

theorem refuses_of_err {pages : PageMap} {a : Access} (fits : a.offset + a.len < 2 ^ 64) {e : ErrResponse}
    (replied : (pages.access machine a).replies = [.err e]) : pages.Refuses a := by
  by_contra granted
  obtain ⟨page,there,inside⟩ := granted_of_not_refused granted
  cases a with
  | read r =>
    rw [PageMap.access,read_granted machine fits there inside] at replied
    split at replied <;> simp at replied
  | write w =>
    rw [PageMap.access,write_granted machine fits there inside] at replied
    simp at replied

end View

/-- The server answers the request with an error response. -/
def AccessEvent.Rejected (machine : Machine) (ctx : ServerContext) (e : AccessEvent) : Prop :=
  ∃ response, (ctx.handle machine e.env e.access.request).replies = [.err response]

/-- Two requests name different handles, or are both reads, or touch disjoint ranges, or one
of them is rejected. -/
def AccessEvent.NonConflicting (machine : Machine) (ctx : ServerContext) (x y : AccessEvent) : Prop :=
  x.access.handle ≠ y.access.handle ∨ (x.access.isRead = true ∧ y.access.isRead = true) ∨
  Apart x.access.offset x.access.len y.access.offset y.access.len ∨
  x.Rejected machine ctx ∨ y.Rejected machine ctx

theorem nonConflicting_pages {machine : Machine} {ctx : ServerContext} (wellFormed : ctx.WellFormed)
    {x y : AccessEvent} (fitsX : x.access.offset + x.access.len < 2 ^ 64)
    (fitsY : y.access.offset + y.access.len < 2 ^ 64) (apart : x.NonConflicting machine ctx y) :
    ctx.contents.NoConflict x.access y.access := by
  rcases apart with differ | both | disjoint | ⟨e,replied⟩ | ⟨e,replied⟩
  · exact .inl differ
  · exact .inr (.inl both)
  · exact .inr (.inr (.inl disjoint))
  · rw [(handle_access machine wellFormed x.env x.access).1.replies] at replied
    exact .inr (.inr (.inr (.inl (refuses_of_err machine fitsX replied))))
  · rw [(handle_access machine wellFormed y.env y.access).1.replies] at replied
    exact .inr (.inr (.inr (.inr (refuses_of_err machine fitsY replied))))

/-- From any reachable server, two interleavings of the same sequences of non-conflicting
reads and writes leave the same pages and give each connection the same replies. -/
theorem order_independent (machine : Machine) (maxNumFns : UInt32) (memory : Memory UInt8)
    (events : List Event) (lawful : (Server.start maxNumFns memory).LawfulRun machine events)
    (xs ys : List AccessEvent)
    (same : ∀ conn, xs.filter (fun e => e.conn = conn) = ys.filter (fun e => e.conn = conn))
    (fits : ∀ x ∈ xs, x.access.request.Fits)
    (apart : ∀ x ∈ xs, ∀ y ∈ xs, x.conn ≠ y.conn →
      x.NonConflicting machine ((Server.start maxNumFns memory).after machine events).ctx y) :
    (((Server.start maxNumFns memory).after machine events).after machine (xs.map AccessEvent.event)).ctx.contents =
      (((Server.start maxNumFns memory).after machine events).after machine (ys.map AccessEvent.event)).ctx.contents ∧
    ∀ conn,
      ((((Server.start maxNumFns memory).after machine events).history machine
        (xs.map AccessEvent.event)).filter (fun served => served.conn = conn)).map Served.replies =
      ((((Server.start maxNumFns memory).after machine events).history machine
        (ys.map AccessEvent.event)).filter (fun served => served.conn = conn)).map Served.replies := by
  have wellFormed := after_wellFormed machine (start_wellFormed maxNumFns memory) lawful
  generalize (Server.start maxNumFns memory).after machine events = server at wellFormed apart ⊢
  obtain ⟨viewX,outsX⟩ := run_view machine wellFormed xs
  obtain ⟨viewY,outsY⟩ := run_view machine wellFormed ys
  have commute (s : PageServer) (x y : AccessEvent) (shape : server.ctx.contents.SameShape s.pages)
      (hx : x ∈ xs) (hy : y ∈ xs) (different : x.conn ≠ y.conn) :
      Interleaving.Commute (PageServer.step machine) s x y := by
    have fitX := (fits_iff _).mp (fits x hx)
    have fitY := (fits_iff _).mp (fits y hy)
    exact pageStep_commute machine s different fitX fitY
      (noConflict_shape shape (nonConflicting_pages wellFormed fitX fitY (apart x hx y hy different)))
  obtain ⟨sameRun,sameOuts⟩ := Interleaving.same_outcome (fun s => server.ctx.contents.SameShape s.pages)
    (fun e => e.access.offset + e.access.len < 2 ^ 64)
    (fun s e => pageStep_shape machine) same (fun x member => (fits_iff _).mp (fits x member)) commute
    server.view (fun _ => rfl)
  constructor
  · exact congrArg PageServer.pages (viewX.trans (sameRun.trans viewY.symm))
  · intro conn
    rw [outsX conn,outsY conn]
    exact sameOuts conn

/-- Neighbouring bytes of one page: the second connection's write and read may come before or
after the first one's write. -/
theorem order_independent_neighbours :
    (((Server.start 1 fun _ => 9).after .small [⟨0, .alloc ⟨3⟩, .mapsAt 100 0⟩]).after .small
      [⟨1, .write ⟨0, 0, [7]⟩, .mapsNothing 1⟩, ⟨2, .write ⟨0, 1, [8]⟩, .mapsNothing 1⟩,
        ⟨2, .read ⟨0, 1, 2⟩, .mapsNothing 1⟩]).ctx.contents =
    (((Server.start 1 fun _ => 9).after .small [⟨0, .alloc ⟨3⟩, .mapsAt 100 0⟩]).after .small
      [⟨2, .write ⟨0, 1, [8]⟩, .mapsNothing 1⟩, ⟨2, .read ⟨0, 1, 2⟩, .mapsNothing 1⟩,
        ⟨1, .write ⟨0, 0, [7]⟩, .mapsNothing 1⟩]).ctx.contents :=
  (order_independent .small 1 (fun _ => 9) [⟨0, .alloc ⟨3⟩, .mapsAt 100 0⟩]
    ⟨⟨by intro _ _ _ _ _ live; contradiction,rfl⟩,trivial⟩
    [⟨1, .write ⟨0, 0, [7]⟩, .mapsNothing 1⟩, ⟨2, .write ⟨0, 1, [8]⟩, .mapsNothing 1⟩,
      ⟨2, .read ⟨0, 1, 2⟩, .mapsNothing 1⟩]
    [⟨2, .write ⟨0, 1, [8]⟩, .mapsNothing 1⟩, ⟨2, .read ⟨0, 1, 2⟩, .mapsNothing 1⟩,
      ⟨1, .write ⟨0, 0, [7]⟩, .mapsNothing 1⟩]
    (by
      intro conn
      by_cases one : 1 = conn
      · subst one
        rfl
      · simp [List.filter,one])
    (by
      intro x hx
      simp only [List.mem_cons,List.not_mem_nil,or_false] at hx
      rcases hx with rfl | rfl | rfl <;> decide)
    (by
      intro x hx y hy different
      simp only [List.mem_cons,List.not_mem_nil,or_false] at hx hy
      rcases hx with rfl | rfl | rfl <;> rcases hy with rfl | rfl | rfl
      all_goals first | exact absurd rfl different | exact .inr (.inr (.inl (by decide))))).1

end Ndp
