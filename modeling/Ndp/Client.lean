import Ndp.ByteMemory
import Ndp.Codec

/-! The client's `write_read_throughput`. Between two replies it runs without waiting, so
it is a state machine driven by what `readNext` returns: each step says where the client
waits next and what it sends before. -/
namespace Ndp

open ByteMemory

/-- What a run of the client is about; the buffer is filled at random. -/
structure Workload where
  overflowChecks : Bool
  bufSize : UInt64
  chunkSize : UInt64
  buf : List UInt8
  filled : buf.length = bufSize.toNat

/-- The reasons of a `BadResponseError`, by the branch they are given in. -/
inductive BadResponse where
  | wrongAllocResponse (got : ResponseBodyOwned)
  | serverSideError (error : ErrorStatus) (message : String)
  | wrongReadResponse (kind : String)
  | readDidNotMatchWrite
  deriving DecidableEq, Repr

inductive CommandError (ε : Type) where
  | receiveError (source : MessageReadError ε)
  | badResponseError (reason : BadResponse)
  deriving DecidableEq, Repr

inductive Phase (ε : Type) where
  | connected
  | awaitAlloc
  | awaitWrite (handle : PageHandle) (i j : UInt64)
  | awaitRead (handle : PageHandle) (i j : UInt64)
  | returned (result : Except (CommandError ε) PageHandle)
  | panicked (panic : Panic)

structure Client (ε : Type) where
  phase : Phase ε
  chunks : List (UInt64 × UInt64)

def Phase.waits : Phase ε → Bool
  | .awaitAlloc | .awaitWrite _ _ _ | .awaitRead _ _ _ => true
  | _ => false

def Phase.ended : Phase ε → Bool
  | .returned _ | .panicked _ => true
  | _ => false

namespace Workload

variable (w : Workload)

/-- The capacity its `BufferContext` is given: one chunk and four pages. -/
def ctxCapacity : Nat := w.chunkSize.toNat + 4 * 4096

def chunk (i j : UInt64) : List UInt8 := slice w.buf i.toNat (j - i).toNat

/-- The first half of an iteration: the range is cut out of the buffer and written. -/
def writeChunk (chunks : List (UInt64 × UInt64)) (handle : PageHandle) (i : UInt64) :
    Client ε × Option RequestBody :=
  match addU64 w.overflowChecks i w.chunkSize with
  | .error panic => (⟨.panicked panic, chunks⟩, none)
  | .ok sum =>
    let j := min sum w.bufSize
    if j < i then (⟨.panicked .indexOutOfBounds, chunks⟩, none)
    else (⟨.awaitWrite handle i j, chunks ++ [(i, j)]⟩,
      some (.write ⟨handle, i, w.chunk i j⟩))

/-- The iterator's next index: it adds the step with a check, so the range also ends
where the sum would leave the 64 bits. -/
def nextChunk (chunks : List (UInt64 × UInt64)) (handle : PageHandle) (i : UInt64) :
    Client ε × Option RequestBody :=
  if i.toNat + w.chunkSize.toNat < w.bufSize.toNat then w.writeChunk chunks handle (i + w.chunkSize)
  else (⟨.returned (.ok handle), chunks⟩, none)

def enterLoop (handle : PageHandle) : Client ε × Option RequestBody :=
  if isizeMax < w.bufSize.toNat then (⟨.panicked .capacityOverflow, []⟩, none)
  else if w.chunkSize = 0 then (⟨.panicked (.explicit "assertion failed: step != 0"), []⟩, none)
  else if 0 < w.bufSize then w.writeChunk [] handle 0
  else (⟨.returned (.ok handle), []⟩, none)

def allocRequest : RequestBody := .alloc ⟨w.bufSize⟩

def fail (client : Client ε) (e : CommandError ε) : Client ε × Option RequestBody :=
  ({ client with phase := .returned (.error e) }, none)

/-- What the client does with the result of the call it waits in; the answer to a write is not looked at. -/
def receive (client : Client ε) (result : Except (MessageReadError ε) ResponseBodyOwned) :
    Client ε × Option RequestBody :=
  match client.phase, result with
  | .awaitAlloc, .ok (.okWithHandle response) => w.enterLoop response.handle
  | .awaitAlloc, .ok got => fail client (.badResponseError (.wrongAllocResponse got))
  | .awaitWrite handle i j, .ok _ =>
    ({ client with phase := .awaitRead handle i j }, some (.read ⟨handle, i, j - i⟩))
  | .awaitRead handle i j, .ok (.okWithBuffer response) =>
    if w.chunk i j = response.buf then w.nextChunk client.chunks handle i
    else fail client (.badResponseError .readDidNotMatchWrite)
  | .awaitRead _ _ _, .ok (.err response) =>
    fail client (.badResponseError (.serverSideError response.error response.message))
  | .awaitRead _ _ _, .ok got =>
    fail client (.badResponseError (.wrongReadResponse (MessageKindTagged.kind got)))
  | .awaitAlloc, .error e | .awaitWrite _ _ _, .error e | .awaitRead _ _ _, .error e =>
    fail client (.receiveError e)
  | .connected, _ | .returned _, _ | .panicked _, _ => (client, none)

end Workload

/-- Non-empty ranges that follow one another from 0 to `size`. -/
structure Partitions (chunks : List (UInt64 × UInt64)) (size : Nat) : Prop where
  nonempty : ∀ chunk ∈ chunks, chunk.1 < chunk.2
  cover : (chunks.flatMap fun chunk => List.range' chunk.1.toNat (chunk.2.toNat - chunk.1.toNat)) =
    List.range size

theorem partitions_nil : Partitions [] 0 := ⟨by simp,rfl⟩

theorem Partitions.extend {chunks : List (UInt64 × UInt64)} {i j : UInt64}
    (before : Partitions chunks i.toNat) (lt : i < j) : Partitions (chunks ++ [(i, j)]) j.toNat := by
  rw [UInt64.lt_iff_toNat_lt] at lt
  constructor
  · intro chunk member
    rcases List.mem_append.mp member with old | new
    · exact before.nonempty chunk old
    · rw [List.mem_singleton.mp new]
      exact UInt64.lt_iff_toNat_lt.mpr lt
  · have joined : List.range' 0 i.toNat ++ List.range' (0 + i.toNat) (j.toNat - i.toNat) =
        List.range' 0 (i.toNat + (j.toNat - i.toNat)) := List.range'_append_1
    rw [Nat.zero_add,Nat.add_sub_of_le (Nat.le_of_lt lt)] at joined
    rw [List.flatMap_append,before.cover,List.flatMap_singleton,List.range_eq_range',List.range_eq_range']
    exact joined

/-- Chunk and buffer sizes are positive, and the index sums stay within 64 bits. -/
structure Workload.Valid (w : Workload) : Prop where
  someBytes : 0 < w.bufSize.toNat
  someChunk : 0 < w.chunkSize.toNat
  fits : ∀ i, w.chunkSize.toNat ∣ i → i < w.bufSize.toNat → i + w.chunkSize.toNat < 2 ^ 64

/-- An iteration's range, of which the loop has so far taken up the predecessors. -/
structure Workload.Range (w : Workload) (i j : UInt64) : Prop where
  aligned : w.chunkSize.toNat ∣ i.toNat
  inside : i.toNat < w.bufSize.toNat
  stop : j.toNat = min (i.toNat + w.chunkSize.toNat) w.bufSize.toNat

theorem toNat_min (a b : UInt64) : (min a b).toNat = min a.toNat b.toNat := by
  by_cases le : a ≤ b
  · have := UInt64.le_iff_toNat_le.mp le
    rw [show min a b = a from if_pos le]
    omega
  · have : ¬a.toNat ≤ b.toNat := fun h => le (UInt64.le_iff_toNat_le.mpr h)
    rw [show min a b = b from if_neg le]
    omega

namespace Workload.Range

variable {w : Workload} {i j : UInt64}

theorem lt (valid : w.Valid) (range : w.Range i j) : i < j := by
  rw [UInt64.lt_iff_toNat_lt,range.stop]
  have := valid.someChunk
  have := range.inside
  omega

theorem stop_le (range : w.Range i j) : j.toNat ≤ w.bufSize.toNat := by
  rw [range.stop]
  omega

theorem len (valid : w.Valid) (range : w.Range i j) : (j - i).toNat = j.toNat - i.toNat :=
  UInt64.toNat_sub_of_le _ _ (UInt64.le_of_lt (range.lt valid))

theorem add_len (valid : w.Valid) (range : w.Range i j) : i.toNat + (j - i).toNat = j.toNat := by
  have := UInt64.lt_iff_toNat_lt.mp (range.lt valid)
  rw [range.len valid]
  omega

theorem chunk_length (valid : w.Valid) (range : w.Range i j) :
    (w.chunk i j).length = (j - i).toNat := by
  apply slice_length
  rw [w.filled,range.add_len valid]
  exact range.stop_le

end Workload.Range

theorem writeChunk_eq {w : Workload} (valid : w.Valid) (ε : Type) (chunks : List (UInt64 × UInt64))
    (handle : PageHandle) {i : UInt64} (aligned : w.chunkSize.toNat ∣ i.toNat)
    (inside : i.toNat < w.bufSize.toNat) : ∃ j, w.Range i j ∧
      (w.writeChunk chunks handle i : Client ε × Option RequestBody) =
        (⟨.awaitWrite handle i j, chunks ++ [(i, j)]⟩,
          some (.write ⟨handle, i, w.chunk i j⟩)) := by
  obtain ⟨sum,added,value⟩ := addU64_fits w.overflowChecks i w.chunkSize (valid.fits _ aligned inside)
  have range : w.Range i (min sum w.bufSize) := ⟨aligned,inside,by rw [toNat_min,value]⟩
  refine ⟨_,range,?_⟩
  simp only [Workload.writeChunk,added]
  rw [if_neg]
  have := UInt64.lt_iff_toNat_lt.mp (range.lt valid)
  rw [UInt64.lt_iff_toNat_lt]
  omega

end Ndp
