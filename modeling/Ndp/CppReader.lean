import Ndp.CeilPow2

/-! The C++ counterpart of the message reader. Its buffer has a fixed size, every `read` goes to
the front of it, a header once found is kept for good, and what the structs report as a truth
value is compared with zero as a size. -/
namespace Ndp.Cpp

open ByteMemory Looping

/-- What a `read` meets; behind the last of them the peer has closed. -/
inductive Arrival where
  | data (chunk : List UInt8)
  | failed
  deriving DecidableEq, Repr

/-- `read`: its result, the bytes it stores, and what is left for the next one. -/
def readSocket (count : Nat) : List Arrival → Int × List UInt8 × List Arrival
  | [] => (0, [], [])
  | .failed :: rest => (-1, [], rest)
  | .data chunk :: rest =>
    if chunk.length ≤ count then (chunk.length, chunk, rest)
    else (count, chunk.take count, .data (chunk.drop count) :: rest)

/-- Reads that are left at most. -/
def weight : List Arrival → Nat
  | [] => 0
  | .failed :: rest => weight rest + 1
  | .data chunk :: rest => weight rest + chunk.length + 1

theorem readSocket_lighter {count : Nat} {socket : List Arrival} (ready : (readSocket count socket).1 ≠ 0) :
    weight (readSocket count socket).2.2 < weight socket := by
  unfold readSocket at ready ⊢
  split at ready
  · contradiction
  · simp [weight]
  · next chunk rest =>
    split at ready
    · next short =>
      rw [if_pos short]
      simp only [weight]
      omega
    · next long =>
      rw [if_neg long]
      simp only [weight,List.length_drop]
      have : count ≠ 0 := by simpa using ready
      omega

theorem readSocket_nonempty {count : Nat} {socket : List Arrival} (nonempty : ∀ arrival ∈ socket, arrival ≠ .data []) :
    ∀ arrival ∈ (readSocket count socket).2.2, arrival ≠ .data [] := by
  unfold readSocket
  split
  · simp
  · exact fun arrival member => nonempty arrival (List.mem_cons_of_mem _ member)
  · next chunk rest =>
    have others : ∀ arrival ∈ rest, arrival ≠ .data [] := fun arrival member => nonempty arrival (List.mem_cons_of_mem _ member)
    split
    · exact others
    · next long =>
      refine List.forall_mem_cons.mpr ⟨?_,others⟩
      simpa using Nat.not_le.mp long

theorem readSocket_end {count : Nat} (positive : 0 < count) {socket : List Arrival}
    (nonempty : ∀ arrival ∈ socket, arrival ≠ .data []) (nothing : (readSocket count socket).1 = 0) :
    (readSocket count socket).2.2 = [] := by
  unfold readSocket at nothing ⊢
  split at nothing
  · rfl
  · contradiction
  · next chunk rest =>
    have := nonempty (.data chunk) List.mem_cons_self
    split at nothing
    · simp_all
    · simp only at nothing
      omega

inductive BufferStateT where
  | empty
  | waitHeader
  | waitData
  | done
  deriving DecidableEq, Repr

structure BufferContext where
  buf : Seekbuf
  header : Option HeaderT

/-- A struct's truth value, taken for a signed size. -/
def sizeOfBool (ok : Bool) : Int := if ok then 1 else 0

/-- Bytes a `read` stores at the position. -/
def Seekbuf.fill (b : Seekbuf) (bytes : List UInt8) : Seekbuf :=
  { b with
    storage := splice b.storage b.pos.toNat bytes
    within := by simpa using b.within
    allocated := by simpa using b.allocated }

namespace BufferContext

def new (capacity : UInt64) (allocated : capacity.toNat < 2 ^ 63) : BufferContext := ⟨.new capacity allocated, none⟩

variable (littleEndian : Bool) (ctx : BufferContext)

def tryReadHeader : Outcome (Bool × BufferContext) := do
  let (ok, header) ← HeaderT.readFrom littleEndian ⟨0, .invalid⟩ ctx.buf
  if sizeOfBool ok < 0 then return (false, ctx)
  return (true, { ctx with header := some header })

def size : UInt64 := ctx.buf.size

def state : BufferStateT :=
  let actualSize := ctx.size
  match ctx.header with
  | none => if actualSize = 0 then .empty else .waitHeader
  | some header => if actualSize ≥ header.len.toUInt64 then .done else .waitData

end BufferContext

structure Reader where
  ctx : BufferContext
  socket : List Arrival

/-- Control leaves the loop with a message, or reaches the end of a function that has to return one. -/
inductive ReadNext (M : Type) where
  | message (m : M)
  | fellOff
  deriving DecidableEq, Repr

section ReadNext

variable (littleEndian : Bool) (fresh : Nat → UInt8) {M : Type} [Wire M] (blank : M)

/-- What an iteration that may not return comes to. -/
def ofOutcome {σ ρ : Type} : Outcome (Flow σ ρ) → Flow σ (Outcome ρ)
  | .returned (.next s) => .next s
  | .returned (.ret r) => .ret (.returned r)
  | .exited message => .ret (.exited message)
  | .outOfBounds index => .ret (.outOfBounds index)
  | .diverges => .ret .diverges

/-- The second half of the loop body. -/
def takeMessage (r : Reader) : Outcome (Flow Reader (ReadNext M × Reader)) :=
  if r.ctx.state = .done then do
    let (ok, message) ← Wire.readFrom littleEndian blank r.ctx.buf
    if sizeOfBool ok < 0 then return .next r
    let buf ← r.ctx.buf.regrow fresh
    return .ret (.message message, ⟨{ r.ctx with buf := buf }, r.socket⟩)
  else return .next r

def readNextBody (r : Reader) : Flow Reader (Outcome (ReadNext M × Reader)) :=
  ofOutcome <|
    if r.ctx.state ≠ .done then do
      let buf ← r.ctx.buf.regrow fresh
      let (numReady, bytes, socket) := readSocket buf.size.toNat r.socket
      let ctx := { r.ctx with buf := buf.fill bytes }
      if numReady = 0 then return .ret (.fellOff, ⟨ctx, socket⟩)
      if r.ctx.state = .empty ∨ r.ctx.state = .waitHeader then
        let (_, ctx) ← ctx.tryReadHeader littleEndian
        takeMessage littleEndian fresh blank ⟨ctx, socket⟩
      else takeMessage littleEndian fresh blank ⟨ctx, socket⟩
    else takeMessage littleEndian fresh blank r

theorem sizeOfBool_nonneg (ok : Bool) : ¬sizeOfBool ok < 0 := by cases ok <;> decide

theorem takeMessage_next {r r' : Reader} (h : takeMessage littleEndian fresh blank r = .returned (.next r')) :
    r.ctx.state ≠ .done ∧ r' = r := by
  unfold takeMessage at h
  split at h
  · obtain ⟨⟨ok,message⟩,_,rest⟩ := Outcome.bind_returned_iff.mp h
    simp only [if_neg (sizeOfBool_nonneg ok)] at rest
    obtain ⟨buf,_,last⟩ := Outcome.bind_returned_iff.mp rest
    cases last
  · next waits =>
    cases h
    exact ⟨waits,rfl⟩

theorem ofOutcome_next {σ ρ : Type} {x : Outcome (Flow σ ρ)} {s : σ} (h : ofOutcome x = .next s) :
    x = .returned (.next s) := by
  cases x with
  | returned flow =>
    cases flow with
    | next s' => rw [Flow.next.inj h]
    | ret r => cases h
  | exited | outOfBounds | diverges => cases h

theorem readNextBody_next {r r' : Reader} (h : readNextBody littleEndian fresh blank r = .next r') :
    r.ctx.state ≠ .done ∧ r'.ctx.state ≠ .done ∧ ∃ buf, r.ctx.buf.regrow fresh = .returned buf ∧
      (readSocket buf.size.toNat r.socket).1 ≠ 0 ∧ r'.socket = (readSocket buf.size.toNat r.socket).2.2 ∧
      r'.ctx.buf = buf.fill (readSocket buf.size.toNat r.socket).2.1 := by
  have h := ofOutcome_next h
  by_cases done : r.ctx.state = .done
  · rw [if_neg (not_not.mpr done)] at h
    obtain ⟨waits,rfl⟩ := takeMessage_next littleEndian fresh blank h
    contradiction
  · rw [if_pos done] at h
    obtain ⟨buf,grown,rest⟩ := Outcome.bind_returned_iff.mp h
    by_cases nothing : (readSocket buf.size.toNat r.socket).1 = 0
    · simp [nothing] at rest
    · simp only [if_neg nothing] at rest
      split at rest
      · obtain ⟨⟨ok,ctx⟩,tried,last⟩ := Outcome.bind_returned_iff.mp rest
        obtain ⟨waits,rfl⟩ := takeMessage_next littleEndian fresh blank last
        obtain ⟨⟨_,header⟩,_,kept⟩ := Outcome.bind_returned_iff.mp tried
        simp only [if_neg (sizeOfBool_nonneg _)] at kept
        obtain ⟨_,rfl⟩ := Prod.mk.inj (Outcome.returned.inj kept)
        exact ⟨done,waits,buf,grown,nothing,rfl,rfl⟩
      · obtain ⟨waits,rfl⟩ := takeMessage_next littleEndian fresh blank rest
        exact ⟨done,waits,buf,grown,nothing,rfl,rfl⟩

/-- Every further iteration has taken something off the socket. -/
def readNextVariant : Variant (readNextBody littleEndian fresh blank) where
  measure r := weight r.socket
  decreases r r' h := by
    obtain ⟨_,_,buf,_,ready,socket,_⟩ := readNextBody_next littleEndian fresh blank h
    rw [socket]
    exact readSocket_lighter ready

def readNext (r : Reader) : Outcome (ReadNext M × Reader) := run (readNextVariant littleEndian fresh blank) r

end ReadNext

/-- What a capacity is rounded to; nothing for none. -/
def rounded (capacity : UInt64) : Nat := (ceilPow2 capacity.toBitVec).toNat

/-- What regrowing adds to a capacity. -/
def room (capacity : UInt64) : Nat := rounded capacity - capacity.toNat

/-- A buffer that has been regrown and whose position has not moved. -/
structure Seekbuf.Front (capacity : UInt64) (b : Seekbuf) : Prop where
  target : b.capacityTarget = capacity
  length : b.length = capacity.toNat
  pos : b.pos = 0
  storage : b.storage.length = rounded capacity

theorem rounded_zero {capacity : UInt64} (zero : capacity.toNat = 0) : rounded capacity = 0 := by
  rw [rounded,ceilPow2_outside (.inl zero)]
  rfl

theorem rounded_pow {capacity : UInt64} (positive : 0 < capacity.toNat) (half : capacity.toNat ≤ 2 ^ 63) :
    rounded capacity = 2 ^ (capacity.toNat - 1).size :=
  ceilPow2_inside positive half

theorem rounded_bounds {capacity : UInt64} (small : capacity.toNat ≤ 2 ^ 62) :
    capacity.toNat ≤ rounded capacity ∧ rounded capacity ≤ 2 ^ 62 ∧ room capacity ≤ capacity.toNat := by
  rw [room]
  obtain zero | positive := Nat.eq_zero_or_pos capacity.toNat
  · rw [rounded_zero zero,zero]
    decide
  · have least := Smearing.isLeast_pow_size positive
    have short : (capacity.toNat - 1).size ≤ 62 := Nat.size_le.mpr (by omega)
    rw [rounded_pow positive (small.trans (by decide))]
    refine ⟨least.1.2,Nat.pow_le_pow_right (by decide) short,?_⟩
    cases size : (capacity.toNat - 1).size with
    | zero => omega
    | succ k =>
      have below : 2 ^ k < capacity.toNat := by
        by_contra reaches
        have := least.2 ⟨⟨k,rfl⟩,Nat.not_lt.mp reaches⟩
        rw [size,Nat.pow_succ] at this
        have := Nat.two_pow_pos k
        omega
      rw [Nat.pow_succ]
      omega

namespace Seekbuf.Front

variable {capacity : UInt64} {b : Seekbuf}

theorem fill (front : b.Front capacity) (bytes : List UInt8) : (b.fill bytes).Front capacity :=
  ⟨front.target,front.length,front.pos,by simp [Seekbuf.fill,front.storage]⟩

theorem size_eq (front : b.Front capacity) : b.size = capacity := by
  rw [size,front.length,front.pos,UInt64.sub_zero,UInt64.ofNat_toNat]

theorem remaining_eq (front : b.Front capacity) : b.remaining.toNat = room capacity := by
  have reaches : capacity.toNat ≤ rounded capacity := front.length ▸ front.storage ▸ b.within
  have bound := b.allocated
  rw [front.storage] at bound
  have word : (UInt64.ofNat (rounded capacity)).toNat = rounded capacity :=
    UInt64.toNat_ofNat_of_lt' (bound.trans (by decide))
  have le : capacity ≤ UInt64.ofNat (rounded capacity) := by rwa [UInt64.le_iff_toNat_le,word]
  rw [remaining,front.size_eq,front.storage,UInt64.toNat_sub_of_le _ _ le,word,room]

theorem regrow_eq (front : b.Front capacity) (fresh : Nat → UInt8) : b.regrow fresh = .returned b := by
  have asked : b.capacityTarget + b.pos = capacity := by rw [front.target,front.pos,UInt64.add_zero]
  rw [regrow]
  simp only [asked]
  exact dif_pos front.storage.ge

theorem seekbufRead_eq (front : b.Front capacity) (littleEndian : Bool) {T : Type}
    [Scalar T] (var : T) : b.seekbufRead littleEndian var =
      .returned (decide (Scalar.size T ≤ room capacity),
        if Scalar.size T ≤ room capacity then ofBytes littleEndian T (slice b.storage 0 (Scalar.size T)) else var) := by
  by_cases enough : Scalar.size T ≤ room capacity
  · have fits : b.Fits (Scalar.size T) := by
      rw [Fits,front.remaining_eq,front.pos,front.storage,UInt64.toNat_zero,Nat.zero_add]
      exact ⟨enough,enough.trans (Nat.sub_le _ _)⟩
    have read := (b.seekbufRead_true_iff littleEndian var (b.peek littleEndian T)).mpr ⟨fits,rfl⟩
    rw [read,peek,front.pos]
    simp [enough]
  · have refused : UInt64.ofNat (Scalar.size T) > b.remaining := by
      by_contra checked
      exact enough (front.remaining_eq ▸ (b.checked_iff).mp checked)
    simp [seekbufRead,readInto,refused,enough]

end Seekbuf.Front

/-- The first bytes of a delivery, with zeros behind its end. -/
def padded (count : Nat) (bytes : List UInt8) : List UInt8 := (bytes ++ List.replicate count 0).take count

/-- A message struct that is filled from the front of the buffer, or stays blank for want of room. -/
structure FilledFrom (littleEndian : Bool) {M : Type} [Wire M] (blank : M) (count : Nat) (value : List UInt8 → M) : Prop where
  short : count ≤ 8
  reads : ∀ capacity b, b.Front capacity → ∃ ok, Wire.readFrom littleEndian blank b =
    .returned (ok, if count ≤ room capacity then value (slice b.storage 0 count) else blank)

theorem scalar_filled (littleEndian : Bool) {T M : Type} [Scalar T] [Wire M] (blank : M) (zero : T) (fill : T → M)
    (unset : fill zero = blank) (short : Scalar.size T ≤ 8)
    (reads : ∀ b, Wire.readFrom littleEndian blank b = do
      let (ok, var) ← b.seekbufRead littleEndian zero
      return (ok, fill var)) :
    FilledFrom littleEndian blank (Scalar.size T) fun bytes => fill (ofBytes littleEndian T bytes) := by
  refine ⟨short,fun capacity b front => ⟨decide (Scalar.size T ≤ room capacity),?_⟩⟩
  rw [reads,front.seekbufRead_eq]
  by_cases enough : Scalar.size T ≤ room capacity
  · simp [enough]
  · simp [enough,unset]

theorem messages_filled (littleEndian : Bool) :
    FilledFrom littleEndian (⟨0⟩ : AllocRequest) 8 (fun bytes => ⟨ofBytes littleEndian UInt64 bytes⟩) ∧
    FilledFrom littleEndian (⟨0⟩ : AllocResponse) 4 (fun bytes => ⟨ofBytes littleEndian UInt32 bytes⟩) :=
  ⟨scalar_filled littleEndian _ (0 : UInt64) AllocRequest.mk rfl (by decide) fun _ => rfl,
    scalar_filled littleEndian _ (0 : UInt32) AllocResponse.mk rfl (by decide) fun _ => rfl⟩

/-- The length and the kind of a header are both what the first four bytes say, or both zero. -/
def headerFound (littleEndian : Bool) (capacity : UInt64) (front : List UInt8) : UInt32 :=
  if 4 ≤ room capacity then ofBytes littleEndian UInt32 front else 0

theorem tryReadHeader_eq {capacity : UInt64} {ctx : BufferContext} (front : ctx.buf.Front capacity)
    (littleEndian : Bool) : ctx.tryReadHeader littleEndian =
      .returned (true, { ctx with header := some ⟨headerFound littleEndian capacity (slice ctx.buf.storage 0 4),
        ⟨headerFound littleEndian capacity (slice ctx.buf.storage 0 4)⟩⟩ }) := by
  have len := front.seekbufRead_eq littleEndian (T := UInt32) 0
  have kind := front.seekbufRead_eq littleEndian (T := MessageKindT) .invalid
  unfold BufferContext.tryReadHeader HeaderT.readFrom headerFound
  rw [len]
  by_cases enough : 4 ≤ room capacity
  · simp only [Scalar.size] at kind ⊢
    simp [kind,enough,sizeOfBool]
    rfl
  · simp only [Scalar.size]
    simp [enough,sizeOfBool,MessageKindT.invalid]

theorem state_known {capacity : UInt64} {ctx : BufferContext} (front : ctx.buf.Front capacity) {header : HeaderT}
    (known : ctx.header = some header) : ctx.state = .done ↔ header.len.toNat ≤ capacity.toNat := by
  unfold BufferContext.state BufferContext.size
  rw [front.size_eq,known]
  simp only [ge_iff_le,UInt64.le_iff_toNat_le,UInt32.toNat_toUInt64]
  split <;> simp_all

section Calls

variable {littleEndian : Bool} {fresh : Nat → UInt8} {M : Type} [Wire M] {blank : M} {count : Nat}
  {value : List UInt8 → M} {capacity : UInt64}

/-- What a context holds as its message. -/
def messageFound (blank : M) (count : Nat) (value : List UInt8 → M) (capacity : UInt64) (front : List UInt8) : M :=
  if count ≤ room capacity then value front else blank

theorem takeMessage_done (filled : FilledFrom littleEndian blank count value) {r : Reader} (front : r.ctx.buf.Front capacity)
    (done : r.ctx.state = .done) :
    takeMessage littleEndian fresh blank r =
      .returned (.ret (.message (messageFound blank count value capacity (slice r.ctx.buf.storage 0 count)), r)) := by
  obtain ⟨ok,read⟩ := filled.reads capacity r.ctx.buf front
  rw [takeMessage,if_pos done,read,Outcome.returned_bind]
  simp only [if_neg (sizeOfBool_nonneg ok),front.regrow_eq,Outcome.returned_bind,Outcome.pure_eq,messageFound]

theorem readNext_done (filled : FilledFrom littleEndian blank count value) {r : Reader} (front : r.ctx.buf.Front capacity)
    (done : r.ctx.state = .done) :
    readNext littleEndian fresh blank r =
      .returned (.message (messageFound blank count value capacity (slice r.ctx.buf.storage 0 count)), r) := by
  apply run_ret
  rw [readNextBody,if_neg (not_not.mpr done),takeMessage_done filled front done]
  rfl

/-- The reader behind one read of the socket, with the bytes at the front of its buffer. -/
def Reader.afterRead (capacity : UInt64) (r : Reader) (buf : Seekbuf) : Reader :=
  ⟨{ r.ctx with buf := buf.fill (readSocket capacity.toNat r.socket).2.1 }, (readSocket capacity.toNat r.socket).2.2⟩

theorem readNextBody_waits {r : Reader} {header : HeaderT} (front : r.ctx.buf.Front capacity)
    (known : r.ctx.header = some header)
    (large : capacity.toNat < header.len.toNat) :
    readNextBody littleEndian fresh blank r =
      if (readSocket capacity.toNat r.socket).1 = 0 then .ret (.returned (.fellOff, r.afterRead capacity r.ctx.buf))
      else .next (r.afterRead capacity r.ctx.buf) := by
  have waits (ctx : BufferContext) (front : ctx.buf.Front capacity) (known : ctx.header = some header) :
      ctx.state = .waitData := by
    have notDone := mt (state_known front known).mp (Nat.not_le.mpr large)
    unfold BufferContext.state at notDone ⊢
    rw [known] at notDone ⊢
    simp only at notDone ⊢
    split
    · next done => exact absurd (if_pos done) notDone
    · rfl
  have again : takeMessage littleEndian fresh blank (r.afterRead capacity r.ctx.buf) =
      .returned (.next (r.afterRead capacity r.ctx.buf)) := by
    have state := waits (r.afterRead capacity r.ctx.buf).ctx (front.fill _) known
    rw [takeMessage,if_neg (by rw [state]; decide)]
    rfl
  have state := waits r.ctx front known
  rw [readNextBody,if_pos (by rw [state]; decide),front.regrow_eq,Outcome.returned_bind,front.size_eq]
  simp only [state]
  split
  · rfl
  · rw [if_neg (by decide)]
    exact congrArg ofOutcome again

/-- A header that declares more than the buffer holds is waited for until the peer is gone. -/
theorem readNext_waits {r : Reader} {header : HeaderT} (front : r.ctx.buf.Front capacity) (known : r.ctx.header = some header)
    (large : capacity.toNat < header.len.toNat) (positive : 0 < capacity.toNat) :
    ∃ r', readNext littleEndian fresh blank r = .returned (.fellOff, r') ∧
      ((∀ arrival ∈ r.socket, arrival ≠ .data []) → r'.socket = []) := by
  refine run_invariant (readNextVariant littleEndian fresh blank)
    (fun now => (now.ctx.buf.Front capacity ∧ now.ctx.header = some header) ∧
      ((∀ arrival ∈ r.socket, arrival ≠ .data []) → ∀ arrival ∈ now.socket, arrival ≠ .data []))
    (fun outcome => ∃ r', outcome = .returned (.fellOff, r') ∧ ((∀ arrival ∈ r.socket, arrival ≠ .data []) → r'.socket = []))
    ?_ ?_ r ⟨⟨front,known⟩,id⟩
  · rintro now later ⟨⟨front,known⟩,nonempty⟩ next
    rw [readNextBody_waits front known large] at next
    split at next
    · cases next
    · obtain rfl := Flow.next.inj next
      exact ⟨⟨front.fill _,known⟩,fun h => readSocket_nonempty (nonempty h)⟩
  · rintro now outcome ⟨⟨front,known⟩,nonempty⟩ left
    rw [readNextBody_waits front known large] at left
    split at left
    · next nothing => exact ⟨_,(Flow.ret.inj left).symm,fun h => readSocket_end positive (nonempty h) nothing⟩
    · cases left

theorem regrow_new (allocated : capacity.toNat < 2 ^ 63) (small : capacity.toNat ≤ 2 ^ 62) (fresh : Nat → UInt8) :
    ∃ b, (Seekbuf.new capacity allocated).regrow fresh = .returned b ∧ b.Front capacity ∧
      b.storage.take capacity.toNat = List.replicate capacity.toNat 0 := by
  have asked : (Seekbuf.new capacity allocated).capacityTarget + (Seekbuf.new capacity allocated).pos = capacity :=
    UInt64.add_zero _
  obtain ⟨reaches,below,-⟩ := rounded_bounds small
  have target : (ceilPow2 capacity.toBitVec).toNat = rounded capacity := rfl
  rw [Seekbuf.regrow]
  simp only [asked,target]
  split
  · next roomy =>
    refine ⟨_,rfl,⟨rfl,rfl,rfl,?_⟩,by simp [Seekbuf.new]⟩
    simp only [Seekbuf.new,List.length_replicate] at roomy ⊢
    omega
  · rw [dif_pos (by omega)]
    refine ⟨_,rfl,⟨rfl,rfl,rfl,?_⟩,by simp [Seekbuf.new]⟩
    simp only [Seekbuf.new,List.length_append,List.length_take,List.length_replicate,List.length_map,List.length_range]
    omega

theorem slice_filled {b : Seekbuf} (front : b.Front capacity)
    (zeroed : b.storage.take capacity.toNat = List.replicate capacity.toNat 0) {n : Nat} (inside : n ≤ capacity.toNat)
    (bytes : List UInt8) : slice (b.fill bytes).storage 0 n = padded n bytes := by
  apply List.ext_getElem?
  intro i
  by_cases within : i < n
  · have zero : b.storage[i]? = some 0 := by
      rw [← List.getElem?_take_of_lt (show i < capacity.toNat by omega),zeroed,List.getElem?_replicate,if_pos (by omega)]
    have stored : (b.fill bytes).storage = splice b.storage 0 bytes := by simp [Seekbuf.fill,front.pos]
    rw [getElem?_slice within,Nat.zero_add,stored,getElem?_splice,zero,padded,List.getElem?_take_of_lt within]
    by_cases delivered : i < bytes.length
    · rw [List.getElem?_append_left delivered,Option.map_some,overlay_inside (Nat.zero_le _) (by omega)]
      simp
    · rw [List.getElem?_append_right (Nat.not_lt.mp delivered),Option.map_some,overlay_outside (by omega),
        List.getElem?_replicate,if_pos (by omega)]
  · rw [getElem?_slice_beyond _ _ within,List.getElem?_eq_none]
    simp only [padded,List.length_take]
    omega

theorem headerFound_filled {b : Seekbuf} (front : b.Front capacity) (small : capacity.toNat ≤ 2 ^ 62)
    (zeroed : b.storage.take capacity.toNat = List.replicate capacity.toNat 0) (bytes : List UInt8) :
    headerFound littleEndian capacity (slice (b.fill bytes).storage 0 4) =
      headerFound littleEndian capacity (padded 4 bytes) := by
  unfold headerFound
  split
  · next fits => rw [slice_filled front zeroed (fits.trans (rounded_bounds small).2.2)]
  · rfl

theorem messageFound_filled {N : Type} {blank : N} {value : List UInt8 → N} {b : Seekbuf}
    (front : b.Front capacity) (small : capacity.toNat ≤ 2 ^ 62)
    (zeroed : b.storage.take capacity.toNat = List.replicate capacity.toNat 0) (bytes : List UInt8) :
    messageFound blank count value capacity (slice (b.fill bytes).storage 0 count) =
      messageFound blank count value capacity (padded count bytes) := by
  unfold messageFound
  split
  · next fits => rw [slice_filled front zeroed (fits.trans (rounded_bounds small).2.2)]
  · rfl

theorem pos_of_headerFound (small : capacity.toNat ≤ 2 ^ 62) {front : List UInt8}
    (large : capacity.toNat < (headerFound littleEndian capacity front).toNat) : 0 < capacity.toNat := by
  unfold headerFound at large
  split at large
  · next fits => exact Nat.lt_of_lt_of_le (by decide) (fits.trans (rounded_bounds small).2.2)
  · simp at large

/-- Calls one after the other, each of which returned a message. -/
inductive Calls (littleEndian : Bool) (fresh : Nat → UInt8) (blank : M) : Reader → List M → Reader → Prop where
  | nil : Calls littleEndian fresh blank r [] r
  | cons : readNext littleEndian fresh blank r = .returned (.message m, r') →
      Calls littleEndian fresh blank r' ms r'' → Calls littleEndian fresh blank r (m :: ms) r''

theorem calls_done (filled : FilledFrom littleEndian blank count value) {r : Reader} (front : r.ctx.buf.Front capacity)
    (done : r.ctx.state = .done) (n : Nat) :
    Calls littleEndian fresh blank r
      (List.replicate n (messageFound blank count value capacity (slice r.ctx.buf.storage 0 count))) r := by
  induction n with
  | zero => exact .nil
  | succ n ih => exact .cons (readNext_done filled front done) ih

theorem readNextBody_new (allocated : capacity.toNat < 2 ^ 63)
    (small : capacity.toNat ≤ 2 ^ 62) (socket : List Arrival) :
    ∃ b, b.Front capacity ∧ b.storage.take capacity.toNat = List.replicate capacity.toNat 0 ∧
      readNextBody littleEndian fresh blank ⟨.new capacity allocated, socket⟩ =
        if (readSocket capacity.toNat socket).1 = 0 then
          .ret (.returned (.fellOff, Reader.afterRead capacity ⟨.new capacity allocated, socket⟩ b))
        else ofOutcome (takeMessage littleEndian fresh blank
          ⟨⟨b.fill (readSocket capacity.toNat socket).2.1, some
            ⟨headerFound littleEndian capacity (slice (b.fill (readSocket capacity.toNat socket).2.1).storage 0 4),
              ⟨headerFound littleEndian capacity (slice (b.fill (readSocket capacity.toNat socket).2.1).storage 0 4)⟩⟩⟩,
            (readSocket capacity.toNat socket).2.2⟩) := by
  obtain ⟨b,grown,front,zeroed⟩ := regrow_new allocated small fresh
  refine ⟨b,front,zeroed,?_⟩
  have waits : (BufferContext.new capacity allocated).state = .empty ∨ (BufferContext.new capacity allocated).state = .waitHeader := by
    simp only [BufferContext.state,show (BufferContext.new capacity allocated).header = none from rfl]
    split
    · exact .inl rfl
    · exact .inr rfl
  have undone : (BufferContext.new capacity allocated).state ≠ .done := by
    obtain h | h := waits <;> simp [h]
  rw [readNextBody,if_pos undone]
  simp only [waits]
  rw [show (BufferContext.new capacity allocated).buf = Seekbuf.new capacity allocated from rfl,grown,
    Outcome.returned_bind,front.size_eq]
  split
  · rfl
  · have header := @tryReadHeader_eq capacity ⟨b.fill (readSocket capacity.toNat socket).2.1,none⟩ (front.fill _) littleEndian
    rw [if_pos trivial,show (BufferContext.new capacity allocated).header = none from rfl,header]
    rfl

/-- A connection's messages, for any capacity up to `2 ^ 62`, any deliveries and any number of calls. If the first
read brings nothing, control runs off the end of the function. If what it brings declares more than the capacity,
the reads go on to the end of the stream, and control runs off as well. Otherwise every call returns what that
one read makes of the message, and the rest of the stream stays unread. -/
theorem read_next_repeats_first (filled : FilledFrom littleEndian blank count value) (allocated : capacity.toNat < 2 ^ 63)
    (small : capacity.toNat ≤ 2 ^ 62) (socket : List Arrival) :
    ((readSocket capacity.toNat socket).1 = 0 →
      ∃ r', readNext littleEndian fresh blank ⟨.new capacity allocated, socket⟩ = .returned (.fellOff, r') ∧
        r'.socket = (readSocket capacity.toNat socket).2.2) ∧
    ((readSocket capacity.toNat socket).1 ≠ 0 →
      capacity.toNat < (headerFound littleEndian capacity (padded 4 (readSocket capacity.toNat socket).2.1)).toNat →
      ∃ r', readNext littleEndian fresh blank ⟨.new capacity allocated, socket⟩ = .returned (.fellOff, r') ∧
        ((∀ arrival ∈ socket, arrival ≠ .data []) → r'.socket = [])) ∧
    ((readSocket capacity.toNat socket).1 ≠ 0 →
      (headerFound littleEndian capacity (padded 4 (readSocket capacity.toNat socket).2.1)).toNat ≤ capacity.toNat →
      ∀ n, ∃ r', Calls littleEndian fresh blank ⟨.new capacity allocated, socket⟩
        (List.replicate (n + 1) (messageFound blank count value capacity
          (padded count (readSocket capacity.toNat socket).2.1))) r' ∧
        r'.socket = (readSocket capacity.toNat socket).2.2) := by
  obtain ⟨b,front,zeroed,first⟩ := @readNextBody_new littleEndian fresh M _ blank capacity allocated small socket
  have roomy := @pos_of_headerFound littleEndian capacity small (padded 4 (readSocket capacity.toNat socket).2.1)
  have message := @messageFound_filled count capacity M blank value b front small zeroed (readSocket capacity.toNat socket).2.1
  rw [headerFound_filled front small zeroed] at first
  generalize headerFound littleEndian capacity (padded 4 (readSocket capacity.toNat socket).2.1) = len at first roomy ⊢
  generalize rest : (⟨⟨b.fill (readSocket capacity.toNat socket).2.1,some ⟨len,⟨len⟩⟩⟩,
    (readSocket capacity.toNat socket).2.2⟩ : Reader) = r at first
  have front' : r.ctx.buf.Front capacity := rest ▸ front.fill _
  have known : r.ctx.header = some ⟨len,⟨len⟩⟩ := rest ▸ rfl
  refine ⟨?_,?_,?_⟩
  · intro nothing
    rw [if_pos nothing] at first
    exact ⟨_,run_ret _ first,rfl⟩
  · intro ready large
    have notDone := mt (state_known front' known).mp (Nat.not_le.mpr large)
    rw [if_neg ready,takeMessage,if_neg notDone] at first
    obtain ⟨r',fell,rest'⟩ := @readNext_waits littleEndian fresh M _ blank capacity r _ front' known large (roomy large)
    refine ⟨r',(run_next _ first).trans fell,fun nonempty => rest' ?_⟩
    rw [← rest]
    exact readSocket_nonempty nonempty
  · intro ready declared n
    have done := (state_known front' known).mpr declared
    rw [if_neg ready,takeMessage_done filled front' done] at first
    have repeats : Calls littleEndian fresh blank r _ r := calls_done filled front' done n
    have returned : readNext littleEndian fresh blank ⟨.new capacity allocated,socket⟩ =
      .returned (.message (messageFound blank count value capacity (slice r.ctx.buf.storage 0 count)),r) := run_ret _ first
    have same : slice r.ctx.buf.storage 0 count = slice (b.fill (readSocket capacity.toNat socket).2.1).storage 0 count :=
      rest ▸ rfl
    rw [same,message] at repeats returned
    exact ⟨r,.cons returned repeats,by rw [← rest]⟩

end Calls

theorem read_next_repeats_first_short :
    (∃ r', Calls true (fun _ => 0) (⟨0⟩ : AllocRequest) ⟨.new 17 (by decide),[.data [16,0,0,0,0,0,0,0,5]]⟩
      [⟨16⟩,⟨16⟩,⟨16⟩] r' ∧ r'.socket = []) ∧
    ∃ r', readNext true (fun _ => 0) (⟨0⟩ : AllocRequest) ⟨.new 17 (by decide),[.data [18,0,0,0],.data [1,2,3]]⟩ =
      .returned (.fellOff,r') ∧ r'.socket = [] := by
  have repeats := @read_next_repeats_first true (fun _ => 0) _ _ _ _ _ 17 (messages_filled true).1 (by decide) (by decide)
  obtain ⟨r',fell,rest⟩ := (repeats [.data [18,0,0,0],.data [1,2,3]]).2.1 (by decide) (by decide)
  exact ⟨(repeats [.data [16,0,0,0,0,0,0,0,5]]).2.2 (by decide) (by decide) 2,r',fell,rest (by decide)⟩

end Ndp.Cpp
