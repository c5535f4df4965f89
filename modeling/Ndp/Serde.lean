import Ndp.MessagePack

/-! serde's data model for the derived structs, and rmp-serde as a parameter over it.
A derived struct is the sequence of its fields in declaration order; rmp-serde turns
such a sequence into bytes and back. Its documented behaviour is stated as separate
properties, so that each result names exactly what it relies on. -/
namespace Ndp

/-- Field types occurring in derived structs. A unit variant is known by its index. -/
inductive FieldTy where
  | u32
  | u64
  | str
  | bytes
  | unitVariant (count : UInt32)
  deriving DecidableEq, Repr

abbrev FieldTy.Val : FieldTy → Type
  | .u32 => UInt32
  | .u64 => UInt64
  | .str => String
  | .bytes => List UInt8
  | .unitVariant count => Fin count.toNat

abbrev Fields : List FieldTy → Type
  | [] => Unit
  | ty :: tys => ty.Val × Fields tys

/-- The `rmp_serde` crate as the repository calls it: a serializer into a growing
byte vector, and a deserializer over a cursor that reports its final position. -/
structure Rmps where
  Error : Type
  outOfRange : Error
  serialize : (tys : List FieldTy) → Fields tys → List UInt8
  deserialize : (tys : List FieldTy) → List UInt8 → Except Error (Fields tys × Nat)

namespace Rmps

variable (R : Rmps)

/-- Decoding an encoding gives the value back and stops right behind it. Lengths in
the format are 32 bits wide, so nothing is said of longer encodings. -/
def RoundTrips : Prop := ∀ tys (v : Fields tys) rest, (R.serialize tys v).length < 2 ^ 32 →
  R.deserialize tys (R.serialize tys v ++ rest) = .ok (v, (R.serialize tys v).length)

def RejectsPrefixes : Prop := ∀ tys (v : Fields tys) (count : Nat),
  (R.serialize tys v).length < 2 ^ 32 → count < (R.serialize tys v).length →
  ∃ e, R.deserialize tys ((R.serialize tys v).take count) = .error e

def RejectsEmpty : Prop := ∀ tys, ∃ e, R.deserialize tys [] = .error e

/-- A decode that succeeds does not depend on the bytes behind those it used. -/
def StableAt (tys : List FieldTy) : Prop := ∀ bytes more (v : Fields tys) count,
  R.deserialize tys bytes = .ok (v, count) → R.deserialize tys (bytes ++ more) = .ok (v, count)

def Stable : Prop := ∀ tys, R.StableAt tys

/-- A decode that succeeds consumes at least one byte and no more than it was given. -/
def Consumes : Prop := ∀ tys bytes (v : Fields tys) count,
  R.deserialize tys bytes = .ok (v, count) → 0 < count ∧ count ≤ bytes.length

/-- A decode that succeeds depends on nothing but the bytes it consumed. -/
def Confined : Prop := ∀ tys bytes more (v : Fields tys) count,
  R.deserialize tys bytes = .ok (v, count) →
  R.deserialize tys (bytes.take count ++ more) = .ok (v, count)

theorem Confined.stable {R : Rmps} (confined : R.Confined) : R.Stable := by
  intro tys bytes more v count h
  have again := confined tys bytes (bytes.drop count ++ more) v count h
  rwa [← List.append_assoc,List.take_append_drop] at again

theorem Consumes.rejectsEmpty {R : Rmps} (consumes : R.Consumes) : R.RejectsEmpty := by
  intro tys
  cases h : R.deserialize tys [] with
  | error e => exact ⟨e, rfl⟩
  | ok result =>
    have bounds := consumes tys [] result.1 result.2 h
    simp only [List.length_nil] at bounds
    omega

/-- Truncated encodings are refused by any decoder that is stable and round-trips:
an accepted prefix would be accepted again, at the same length, with the rest put back. -/
theorem rejectsPrefixes_of_stable {R : Rmps} (roundTrips : R.RoundTrips) (stable : R.Stable)
    (consumes : R.Consumes) : R.RejectsPrefixes := by
  intro tys v count short less
  cases h : R.deserialize tys ((R.serialize tys v).take count) with
  | error e => exact ⟨e, rfl⟩
  | ok result =>
    have again := stable tys _ ((R.serialize tys v).drop count) result.1 result.2 h
    have whole := roundTrips tys v [] short
    rw [List.take_append_drop] at again
    rw [List.append_nil,again] at whole
    have same := congrArg Prod.snd (Except.ok.inj whole)
    have bound := (consumes tys _ result.1 result.2 h).2
    simp only [List.length_take] at bound same
    omega

end Rmps

namespace MessagePackRmps

open ByteReader MessagePack

inductive DecodeError where
  | outOfRange
  | malformed
  deriving DecidableEq, Repr

def writeField : (ty : FieldTy) → ty.Val → List UInt8
  | .u32, n => writeUint n.toNat
  | .u64, n => writeUint n.toNat
  | .str, s => writeStr s
  | .bytes, b => writeBin b
  | .unitVariant _, i => writeUnitVariant i.val

def readField : (ty : FieldTy) → Reader ty.Val
  | .u32 => readUint.filterMap fun n => if n < 2 ^ 32 then some (UInt32.ofNat n) else none
  | .u64 => readUint.map UInt64.ofNat
  | .str => readStr
  | .bytes => readBin
  | .unitVariant count =>
    readUnitVariant.filterMap fun i => if h : i < count.toNat then some ⟨i, h⟩ else none

def writeFields : (tys : List FieldTy) → Fields tys → List UInt8
  | [], _ => []
  | ty :: tys, v => writeField ty v.1 ++ writeFields tys v.2

def readFields : (tys : List FieldTy) → Reader (Fields tys)
  | [] => .pure ()
  | ty :: tys => (readField ty).bind fun v => (readFields tys).map fun vs => (v, vs)

def write (tys : List FieldTy) (v : Fields tys) : List UInt8 :=
  writeArrayLen tys.length ++ writeFields tys v

def record (tys : List FieldTy) : Reader (Fields tys) :=
  readArrayLen.bind fun n => if n = tys.length then readFields tys else .fail

def deserialize (tys : List FieldTy) (bytes : List UInt8) : Except DecodeError (Fields tys × Nat) :=
  match (record tys).read bytes with
  | none => .error .malformed
  | some (v, rest) => .ok (v, bytes.length - rest.length)

/-- rmp-serde's own format, restricted to the markers its serializer writes. -/
def rmps : Rmps where
  Error := DecodeError
  outOfRange := .outOfRange
  serialize := write
  deserialize := deserialize

theorem readField_writeField (ty : FieldTy) (v : ty.Val) (rest : List UInt8)
    (fits : (writeField ty v).length < 2 ^ 32) :
    (readField ty).read (writeField ty v ++ rest) = some (v, rest) := by
  cases ty with
  | u32 =>
    have lt : v.toNat < 2 ^ 32 := UInt32.toNat_lt v
    exact Reader.read_filterMap (readUint_writeUint v.toNat rest (by omega)) (by rw [if_pos lt]; simp)
  | u64 =>
    have lt : v.toNat < 2 ^ 64 := UInt64.toNat_lt v
    exact (Reader.read_map (readUint_writeUint v.toNat rest lt)).trans (by simp)
  | str =>
    apply readStr_writeStr
    simp only [writeField,writeStr,List.length_append] at fits
    omega
  | bytes =>
    apply readBin_writeBin
    simp only [writeField,writeBin,List.length_append] at fits
    omega
  | unitVariant count =>
    have lt : v.val < 2 ^ 64 := by have := v.isLt; have := count.toNat_lt; omega
    exact Reader.read_filterMap (readUnitVariant_writeUnitVariant v.val rest lt) (by simp)

theorem writeField_pos (ty : FieldTy) (v : ty.Val) : 0 < (writeField ty v).length := by
  cases ty with
  | u32 => simp only [writeField,writeUint_length,uintSize]; split_ifs <;> omega
  | u64 => simp only [writeField,writeUint_length,uintSize]; split_ifs <;> omega
  | str =>
    simp only [writeField,writeStr,writeStrLen,List.length_append]
    split_ifs <;> simp
  | bytes =>
    simp only [writeField,writeBin,List.length_append,writeBinLen_length,binHeaderSize]
    split_ifs <;> omega
  | unitVariant count => simp [writeField,writeUnitVariant]

theorem length_le_writeFields (tys : List FieldTy) (v : Fields tys) :
    tys.length ≤ (writeFields tys v).length := by
  induction tys with
  | nil => simp
  | cons ty tys ih =>
    have head := writeField_pos ty v.1
    have tail := ih v.2
    simp only [writeFields,List.length_append,List.length_cons]
    omega

theorem readFields_writeFields (tys : List FieldTy) (v : Fields tys) (rest : List UInt8)
    (fits : (writeFields tys v).length < 2 ^ 32) :
    (readFields tys).read (writeFields tys v ++ rest) = some (v, rest) := by
  induction tys with
  | nil => rfl
  | cons ty tys ih =>
    simp only [writeFields,List.length_append] at fits
    have head := readField_writeField ty v.1 (writeFields tys v.2 ++ rest) (by omega)
    have tail := ih v.2 (by omega)
    rw [writeFields,List.append_assoc,readFields,Reader.read_bind head,Reader.read_map tail]

theorem record_write (tys : List FieldTy) (v : Fields tys) (rest : List UInt8)
    (fits : (write tys v).length < 2 ^ 32) :
    (record tys).read (write tys v ++ rest) = some (v, rest) := by
  have count := length_le_writeFields tys v
  simp only [write,List.length_append] at fits
  rw [write,List.append_assoc,record,
    Reader.read_bind (readArrayLen_writeArrayLen tys.length _ (by omega)),if_pos rfl]
  exact readFields_writeFields tys v rest (by omega)

theorem record_progress (tys : List FieldTy) (bytes rest : List UInt8) (v : Fields tys)
    (h : (record tys).read bytes = some (v, rest)) : rest.length < bytes.length := by
  have progresses : (record tys).Progresses := (Reader.byte_progresses.bind _).bind _
  exact progresses bytes v rest h

theorem deserialize_ok_iff (tys : List FieldTy) (bytes : List UInt8) (v : Fields tys) (count : Nat) :
    deserialize tys bytes = .ok (v, count) ↔
      ∃ rest, (record tys).read bytes = some (v, rest) ∧ count = bytes.length - rest.length := by
  unfold deserialize
  cases h : (record tys).read bytes with
  | none => simp
  | some result =>
    obtain ⟨value, rest⟩ := result
    simp only [Except.ok.injEq,Prod.mk.injEq,Option.some.injEq]
    constructor
    · rintro ⟨rfl,rfl⟩; exact ⟨rest,⟨rfl,rfl⟩,rfl⟩
    · rintro ⟨_,⟨rfl,rfl⟩,rfl⟩; exact ⟨rfl,rfl⟩

/-- An encoder that takes as many bytes as the format does. -/
def Sized (R : Rmps) : Prop := ∀ tys (v : Fields tys), (R.serialize tys v).length = (write tys v).length

theorem sized : Sized rmps := fun _ _ => rfl

theorem roundTrips : rmps.RoundTrips := by
  intro tys v rest fits
  apply (deserialize_ok_iff _ _ _ _).mpr
  exact ⟨rest,record_write tys v rest fits,by simp [rmps]⟩

theorem confined : rmps.Confined := by
  intro tys bytes more v count h
  obtain ⟨rest,accepted,rfl⟩ := (deserialize_ok_iff _ _ _ _).mp h
  obtain ⟨used,rfl,confined⟩ := (record tys).confined _ _ _ accepted
  apply (deserialize_ok_iff _ _ _ _).mpr
  refine ⟨more,?_,by simp⟩
  simpa using confined more

theorem stable : rmps.Stable := confined.stable

theorem consumes : rmps.Consumes := by
  intro tys bytes v count h
  obtain ⟨rest,accepted,rfl⟩ := (deserialize_ok_iff _ _ _ _).mp h
  have less := record_progress tys bytes rest v accepted
  omega

theorem rejectsPrefixes : rmps.RejectsPrefixes :=
  Rmps.rejectsPrefixes_of_stable roundTrips stable consumes

theorem rejectsEmpty : rmps.RejectsEmpty := consumes.rejectsEmpty

end MessagePackRmps

end Ndp
