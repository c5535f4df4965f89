import Ndp.ByteMemory
import Ndp.RustStd

/-! Anonymous mappings and the cursors the handlers read and write them through. Where a
mapping lies and whether it can be had is the kernel's choice, handed in step by step. -/
namespace Ndp

open ByteMemory

/-- What the server is built for and runs on. -/
structure Machine where
  overflowChecks : Bool
  littleEndian : Bool
  pageShift : Nat
  pageShift_lt : pageShift < 64

/-- `util::page_size`: page sizes are powers of two. -/
def Machine.pageSize (machine : Machine) : UInt64 := UInt64.ofNat (2 ^ machine.pageShift)

theorem Machine.pageSize_toNat (machine : Machine) : machine.pageSize.toNat = 2 ^ machine.pageShift := by
  have := Nat.pow_lt_pow_right (show 1 < 2 by omega) machine.pageShift_lt
  simp only [Machine.pageSize,UInt64.toNat_ofNat']
  exact Nat.mod_eq_of_lt this

structure Errno where
  code : Int
  deriving DecidableEq, Repr

/-- What the world outside answers during one request: where the kernel puts a mapping of
a given length, which free index the arena takes, what a registered function does to
memory, and whether the allocator has all that is asked of it. -/
structure Env where
  mmap : UInt64 → Except Errno Nat
  freeIndex : UInt64
  call : (handler : UInt64) → (arg0 : UInt32) → Memory UInt8 → Memory UInt8
  allocates : Bool

structure MappedBufMut where
  ptr : Nat
  len : UInt64
  pageSize : UInt64
  deriving DecidableEq, Repr

namespace MappedBufMut

/-- An anonymous mapping comes zeroed. -/
def withNumPagesOfSize (machine : Machine) (env : Env) (memory : Memory UInt8)
    (numPages pageSize : UInt64) : Except Panic (Except Errno (MappedBufMut × Memory UInt8)) :=
  match mulU64 machine.overflowChecks numPages pageSize with
  | .error panic => .error panic
  | .ok size =>
    match env.mmap size with
    | .error e => .ok (.error e)
    | .ok ptr => .ok (.ok (⟨ptr, size, pageSize⟩, store memory ptr (List.replicate size.toNat 0)))

def withSize (machine : Machine) (env : Env) (memory : Memory UInt8) (size : UInt64) :
    Except Panic (Except Errno (MappedBufMut × Memory UInt8)) :=
  let pageSize := machine.pageSize
  let incr : UInt64 := if size % pageSize > 0 then 1 else 0
  let numPages := size / pageSize + incr
  withNumPagesOfSize machine env memory numPages pageSize

def numPages (buf : MappedBufMut) : UInt64 := buf.len / buf.pageSize

/-- The bytes behind a mapping. -/
def asSlice (memory : Memory UInt8) (buf : MappedBufMut) : List UInt8 := load memory buf.ptr buf.len.toNat

end MappedBufMut

structure Cursor where
  ptr : Nat
  len : UInt64
  position : UInt64
  deriving DecidableEq, Repr

def MappedBufMut.asCursor (buf : MappedBufMut) : Cursor := ⟨buf.ptr, buf.len, 0⟩

namespace Cursor

def setPosition (c : Cursor) (position : UInt64) : Cursor := { c with position := position }

/-- A position behind the end stands at the end. -/
def start (c : Cursor) : Nat := min c.position.toNat c.len.toNat

def readExact (memory : Memory UInt8) (c : Cursor) (count : Nat) : Except IoError (List UInt8 × Cursor) :=
  if count ≤ c.len.toNat - c.start then
    .ok (load memory (c.ptr + c.start) count, { c with position := c.position + UInt64.ofNat count })
  else .error .unexpectedEof

/-- As many bytes as fit are written; the rest is dropped without an error. -/
def write (memory : Memory UInt8) (c : Cursor) (buf : List UInt8) : Memory UInt8 × Nat :=
  let amount := min buf.length (c.len.toNat - c.start)
  (store memory (c.ptr + c.start) (buf.take amount), amount)

def readU32 (machine : Machine) (memory : Memory UInt8) (c : Cursor) : Except IoError (UInt32 × Cursor) :=
  match c.readExact memory 4 with
  | .error e => .error e
  | .ok (bytes, c) =>
    let digits := if machine.littleEndian then bytes.reverse else bytes
    .ok (UInt32.ofNat (digits.foldl (fun n b => n * 256 + b.toNat) 0), c)

end Cursor

theorem readExact_eq (memory : Memory UInt8) (buf : MappedBufMut) (offset : UInt64) (count : Nat) :
    ∃ c, (buf.asCursor.setPosition offset).readExact memory count =
      if count ≤ buf.len.toNat - offset.toNat then .ok (slice (buf.asSlice memory) offset.toNat count, c)
      else .error .unexpectedEof := by
  refine ⟨⟨buf.ptr,buf.len,offset + UInt64.ofNat count⟩,?_⟩
  have start : (buf.asCursor.setPosition offset).start = min offset.toNat buf.len.toNat := rfl
  have len : (buf.asCursor.setPosition offset).len = buf.len := rfl
  unfold Cursor.readExact
  by_cases enough : count ≤ buf.len.toNat - offset.toNat
  · rw [if_pos enough,if_pos (by rw [start,len]; omega)]
    congr 2
    by_cases inside : offset.toNat ≤ buf.len.toNat
    · rw [start,Nat.min_eq_left inside,MappedBufMut.asSlice,slice_load memory (by omega)]
      rfl
    · have empty : count = 0 := by omega
      simp [empty,slice,load]
  · rw [if_neg enough,if_neg (by rw [start,len]; omega)]

theorem write_own (memory : Memory UInt8) (buf : MappedBufMut) (offset : UInt64) (data : List UInt8) :
    buf.asSlice ((buf.asCursor.setPosition offset).write memory data).1 =
      splice (buf.asSlice memory) offset.toNat data := by
  simp only [Cursor.write,Cursor.start,Cursor.setPosition,MappedBufMut.asCursor,MappedBufMut.asSlice]
  rw [load_store,← splice_clip (load memory buf.ptr buf.len.toNat) data,load_length]

theorem write_other (memory : Memory UInt8) {buf other : MappedBufMut} (offset : UInt64) (data : List UInt8)
    (apart : Apart buf.ptr buf.len.toNat other.ptr other.len.toNat) :
    other.asSlice ((buf.asCursor.setPosition offset).write memory data).1 = other.asSlice memory := by
  apply load_store_apart
  apply apart.shrink
  · exact Nat.le_add_right _ _
  · simp only [Cursor.start,Cursor.setPosition,MappedBufMut.asCursor,List.length_take]
    omega

@[simp] theorem MappedBufMut.asSlice_length (memory : Memory UInt8) (buf : MappedBufMut) :
    (buf.asSlice memory).length = buf.len.toNat := load_length _ _ _

/-- The length a mapping of the requested size gets, as a natural number. -/
def roundedSize (machine : Machine) (size : Nat) : Nat :=
  (size / 2 ^ machine.pageShift + if 0 < size % 2 ^ machine.pageShift then 1 else 0) * 2 ^ machine.pageShift

/-- The length handed to the kernel: rounded up, and cut to 64 bits. -/
def mappingLen (machine : Machine) (size : UInt64) : UInt64 := UInt64.ofNat (roundedSize machine size.toNat)

section Sizes

variable (machine : Machine)

theorem Machine.pageSize_pos : 0 < 2 ^ machine.pageShift := Nat.pos_of_ne_zero (by simp)

theorem Machine.pages_fill : 2 ^ 64 = 2 ^ (64 - machine.pageShift) * 2 ^ machine.pageShift := by
  have := machine.pageShift_lt
  rw [← Nat.pow_add,Nat.sub_add_cancel (by omega)]

theorem le_roundedSize (size : Nat) : size ≤ roundedSize machine size := by
  have whole := Nat.div_add_mod size (2 ^ machine.pageShift)
  have part := Nat.mod_lt size machine.pageSize_pos
  unfold roundedSize
  rw [Nat.add_mul,Nat.mul_comm]
  split <;> omega

theorem roundedSize_lt (size : Nat) : roundedSize machine size < size + 2 ^ machine.pageShift := by
  have whole := Nat.div_add_mod size (2 ^ machine.pageShift)
  have pos := machine.pageSize_pos
  unfold roundedSize
  rw [Nat.add_mul,Nat.mul_comm]
  split <;> omega

theorem roundedSize_le (size : Nat) (small : size < 2 ^ 64) : roundedSize machine size ≤ 2 ^ 64 := by
  have part := roundedSize_lt machine size
  have filled := machine.pages_fill
  unfold roundedSize at *
  rw [filled] at small ⊢
  apply Nat.mul_le_mul_right
  by_contra more
  have := Nat.mul_le_mul_right (2 ^ machine.pageShift) (Nat.succ_le_of_lt (Nat.lt_of_not_le more))
  rw [Nat.succ_mul] at this
  omega

theorem roundedSize_fits_iff (size : Nat) :
    roundedSize machine size < 2 ^ 64 ↔ size + machine.pageSize.toNat ≤ 2 ^ 64 := by
  rw [machine.pageSize_toNat]
  constructor
  · intro fits
    have above := le_roundedSize machine size
    have filled := machine.pages_fill
    unfold roundedSize at *
    rw [filled] at fits ⊢
    have fewer := Nat.mul_le_mul_right (2 ^ machine.pageShift) (Nat.succ_le_of_lt (Nat.lt_of_mul_lt_mul_right fits))
    rw [Nat.succ_mul] at fewer
    omega
  · intro fits
    have := roundedSize_lt machine size
    omega

theorem roundedSize_eq_zero_iff (size : Nat) : roundedSize machine size = 0 ↔ size = 0 := by
  constructor
  · intro zero
    have := le_roundedSize machine size
    omega
  · rintro rfl
    simp [roundedSize]

/-- The length is lost exactly when there is nothing to map or the rounding overflows. -/
theorem mappingLen_eq_zero_iff (size : UInt64) :
    mappingLen machine size = 0 ↔ size = 0 ∨ 2 ^ 64 ≤ roundedSize machine size.toNat := by
  have small := roundedSize_le machine size.toNat size.toNat_lt
  have zero := roundedSize_eq_zero_iff machine size.toNat
  have cut : (mappingLen machine size).toNat = roundedSize machine size.toNat % 2 ^ 64 := UInt64.toNat_ofNat'
  rw [← UInt64.toNat_inj,cut,← UInt64.toNat_inj,UInt64.toNat_zero]
  omega

theorem mappingLen_toNat {size : UInt64} (fits : roundedSize machine size.toNat < 2 ^ 64) :
    (mappingLen machine size).toNat = roundedSize machine size.toNat := by
  rw [mappingLen,UInt64.toNat_ofNat',Nat.mod_eq_of_lt fits]

theorem numPages_toNat (size : UInt64) :
    (size / machine.pageSize + if size % machine.pageSize > 0 then 1 else 0).toNat =
      size.toNat / 2 ^ machine.pageShift + if 0 < size.toNat % 2 ^ machine.pageShift then 1 else 0 := by
  have rest : size % machine.pageSize > 0 ↔ 0 < size.toNat % 2 ^ machine.pageShift := by
    rw [gt_iff_lt,UInt64.lt_iff_toNat_lt,UInt64.toNat_mod,machine.pageSize_toNat,UInt64.toNat_zero]
  simp only [rest]
  have bound := size.toNat_lt
  split
  · next part =>
    have two : 2 ≤ 2 ^ machine.pageShift := by
      by_contra small
      have one : 2 ^ machine.pageShift = 1 := by have := machine.pageSize_pos; omega
      rw [one,Nat.mod_one] at part
      omega
    have half : size.toNat / 2 ^ machine.pageShift ≤ size.toNat / 2 := Nat.div_le_div_left two (by omega)
    rw [UInt64.toNat_add,UInt64.toNat_div,machine.pageSize_toNat,UInt64.toNat_one,Nat.mod_eq_of_lt (by omega)]
  · simp [UInt64.toNat_div,machine.pageSize_toNat]

theorem withSize_eq (env : Env) (memory : Memory UInt8) (size : UInt64) :
    MappedBufMut.withSize machine env memory size =
      if machine.overflowChecks ∧ 2 ^ 64 ≤ roundedSize machine size.toNat then .error .arithmeticOverflow
      else match env.mmap (mappingLen machine size) with
        | .error e => .ok (.error e)
        | .ok ptr => .ok (.ok (⟨ptr, mappingLen machine size, machine.pageSize⟩,
            store memory ptr (List.replicate (mappingLen machine size).toNat 0))) := by
  have total : (size / machine.pageSize + if size % machine.pageSize > 0 then 1 else 0).toNat *
      machine.pageSize.toNat = roundedSize machine size.toNat := by
    rw [numPages_toNat,machine.pageSize_toNat,roundedSize]
  have product : (size / machine.pageSize + if size % machine.pageSize > 0 then 1 else 0) * machine.pageSize =
      mappingLen machine size := by
    rw [← UInt64.toNat_inj,UInt64.toNat_mul,total,mappingLen,UInt64.toNat_ofNat']
  simp only [MappedBufMut.withSize,MappedBufMut.withNumPagesOfSize,mulU64,total,product]
  by_cases overflow : machine.overflowChecks ∧ 2 ^ 64 ≤ roundedSize machine size.toNat
  · rw [if_pos overflow,if_pos overflow]
  · rw [if_neg overflow,if_neg overflow]

theorem withSize_release {machine : Machine} (release : machine.overflowChecks = false) (env : Env)
    (memory : Memory UInt8) (size : UInt64) :
    MappedBufMut.withSize machine env memory size = match env.mmap (mappingLen machine size) with
      | .error e => .ok (.error e)
      | .ok ptr => .ok (.ok (⟨ptr, mappingLen machine size, machine.pageSize⟩,
          store memory ptr (List.replicate (mappingLen machine size).toNat 0))) := by
  rw [withSize_eq,if_neg (by simp [release])]

theorem mappingLen_lost_iff (size : UInt64) :
    mappingLen machine size = 0 ↔ size = 0 ∨ size.toNat > 2 ^ 64 - machine.pageSize.toNat := by
  have fits := roundedSize_fits_iff machine size.toNat
  have := machine.pageSize.toNat_lt
  rw [mappingLen_eq_zero_iff]
  exact or_congr_right (by omega)

end Sizes

/-- Pages of four bytes. -/
def Machine.small : Machine := ⟨false, true, 2, by decide⟩

/-- A kernel that puts every mapping with a length at one address. -/
def Env.mapsAt (ptr : Nat) (index : UInt64) : Env where
  mmap len := if len = 0 then .error ⟨22⟩ else .ok ptr
  freeIndex := index
  call _ _ memory := memory
  allocates := true

/-- No kernel that refuses an empty mapping grants this one. -/
def MappedBufMut.LacksLength (machine : Machine) (memory : Memory UInt8) (size : UInt64) : Prop :=
  ∀ env : Env, (∃ e, env.mmap 0 = .error e) → ∃ e, withSize machine env memory size = .ok (.error e)

theorem lacksLength_iff {machine : Machine} (release : machine.overflowChecks = false) (memory : Memory UInt8)
    (size : UInt64) : MappedBufMut.LacksLength machine memory size ↔ mappingLen machine size = 0 := by
  constructor
  · intro lacks
    by_contra asked
    obtain ⟨e,refused⟩ := lacks (.mapsAt 0 0) ⟨_,rfl⟩
    rw [withSize_release release] at refused
    simp [Env.mapsAt,asked] at refused
  · intro empty env ⟨e,refused⟩
    refine ⟨e,?_⟩
    rw [withSize_release release,empty,refused]

/-- The length of a mapping that was granted. -/
structure MappedBufMut.Rounded (machine : Machine) (size : UInt64) (buf : MappedBufMut) : Prop where
  enough : size.toNat ≤ buf.len.toNat
  tight : buf.len.toNat < size.toNat + machine.pageSize.toNat
  whole : machine.pageSize.toNat ∣ buf.len.toNat
  counted : buf.numPages.toNat * machine.pageSize.toNat = buf.len.toNat

theorem rounded_of_fits {machine : Machine} {size : UInt64} (fits : roundedSize machine size.toNat < 2 ^ 64)
    (ptr : Nat) : MappedBufMut.Rounded machine size ⟨ptr, mappingLen machine size, machine.pageSize⟩ := by
  have length := mappingLen_toNat machine fits
  have whole : machine.pageSize.toNat ∣ (mappingLen machine size).toNat := by
    rw [length,machine.pageSize_toNat]
    exact Nat.dvd_mul_left _ _
  refine ⟨?_,?_,whole,?_⟩
  · rw [length]
    exact le_roundedSize machine size.toNat
  · rw [length,machine.pageSize_toNat]
    exact roundedSize_lt machine size.toNat
  · rw [MappedBufMut.numPages,UInt64.toNat_div]
    exact Nat.div_mul_cancel whole

/-- A mapping that is granted has room for the size asked for and less than a page more, in
whole pages; it lacks a length when there is nothing to map or no room for the last page. -/
theorem page_rounding (machine : Machine) (release : machine.overflowChecks = false) (memory : Memory UInt8)
    (size : UInt64) :
    (∀ (env : Env) (buf : MappedBufMut) (memory' : Memory UInt8), (∃ e, env.mmap 0 = .error e) →
      MappedBufMut.withSize machine env memory size = .ok (.ok (buf, memory')) → buf.Rounded machine size) ∧
    (MappedBufMut.LacksLength machine memory size ↔
      size = 0 ∨ size.toNat > 2 ^ 64 - machine.pageSize.toNat) := by
  constructor
  · rintro env buf memory' ⟨e,refused⟩ granted
    rw [withSize_release release] at granted
    have nonzero : mappingLen machine size ≠ 0 := by
      intro empty
      rw [empty,refused] at granted
      simp at granted
    split at granted
    · simp at granted
    · next ptr mapped =>
      obtain ⟨rfl,-⟩ : _ ∧ _ := by simpa using granted
      rw [ne_eq,mappingLen_eq_zero_iff,not_or,Nat.not_le] at nonzero
      exact rounded_of_fits nonzero.2 ptr
  · rw [lacksLength_iff release,mappingLen_lost_iff]

theorem page_rounding_small :
    MappedBufMut.Rounded .small 5 ⟨100, 8, 4⟩ ∧ MappedBufMut.LacksLength .small (fun _ => 0) 0xfffffffffffffffd :=
  have rounding := page_rounding .small rfl fun _ => 0
  ⟨(rounding 5).1 (.mapsAt 100 0) _ _ ⟨_,rfl⟩ rfl,(rounding _).2.mpr (by decide)⟩

end Ndp
