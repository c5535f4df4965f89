import Mathlib.Data.List.Basic
import Mathlib.Tactic.Ring

/-! Readers of self-delimiting byte formats. Locality is a field of a reader: what
it accepts depends on the bytes it uses up and on nothing behind them. -/
namespace ByteReader

structure Reader (α : Type) where
  read : List UInt8 → Option (α × List UInt8)
  confined : ∀ bytes value rest, read bytes = some (value, rest) →
    ∃ used, bytes = used ++ rest ∧ ∀ more, read (used ++ more) = some (value, more)

variable {α β : Type}

def Reader.pure (value : α) : Reader α where
  read bytes := some (value, bytes)
  confined bytes v rest h := by
    obtain ⟨rfl,rfl⟩ := Prod.mk.inj (Option.some.inj h)
    exact ⟨[],rfl,fun _ => rfl⟩

def Reader.fail : Reader α where
  read _ := none
  confined _ _ _ h := by contradiction

def Reader.byte : Reader UInt8 where
  read
    | [] => none
    | b :: rest => some (b, rest)
  confined bytes v rest h := by
    cases bytes with
    | nil => contradiction
    | cons b tail =>
      obtain ⟨rfl,rfl⟩ := Prod.mk.inj (Option.some.inj h)
      exact ⟨[b],rfl,fun _ => rfl⟩

def Reader.take (count : Nat) : Reader (List UInt8) where
  read bytes := if count ≤ bytes.length then some (bytes.take count, bytes.drop count) else none
  confined bytes v rest h := by
    split at h
    · next fits =>
      obtain ⟨rfl,rfl⟩ := Prod.mk.inj (Option.some.inj h)
      refine ⟨bytes.take count,(List.take_append_drop count bytes).symm,?_⟩
      intro more
      have len : (bytes.take count).length = count := List.length_take_of_le fits
      simp [len]
    · contradiction

def Reader.bind (first : Reader α) (second : α → Reader β) : Reader β where
  read bytes := (first.read bytes).bind fun (a, rest) => (second a).read rest
  confined bytes v rest h := by
    obtain ⟨⟨a,middle⟩,ha,hb⟩ := Option.bind_eq_some_iff.mp h
    obtain ⟨used,rfl,stable⟩ := first.confined _ _ _ ha
    obtain ⟨used',rfl,stable'⟩ := (second a).confined _ _ _ hb
    refine ⟨used ++ used',by rw [List.append_assoc],?_⟩
    intro more
    rw [List.append_assoc,stable]
    exact stable' more

def Reader.map (f : α → β) (reader : Reader α) : Reader β :=
  reader.bind fun a => .pure (f a)

/-- Keep only the values a partial conversion accepts. -/
def Reader.filterMap (f : α → Option β) (reader : Reader α) : Reader β :=
  reader.bind fun a => match f a with
    | some b => .pure b
    | none => .fail

@[simp] theorem Reader.read_pure (value : α) (bytes : List UInt8) :
    (Reader.pure value).read bytes = some (value, bytes) := rfl

@[simp] theorem Reader.read_byte (b : UInt8) (rest : List UInt8) :
    Reader.byte.read (b :: rest) = some (b, rest) := rfl

theorem Reader.read_take (bytes rest : List UInt8) :
    (Reader.take bytes.length).read (bytes ++ rest) = some (bytes, rest) := by
  simp [Reader.take]

theorem Reader.read_bind {first : Reader α} {second : α → Reader β} {bytes rest : List UInt8} {a : α}
    (h : first.read bytes = some (a, rest)) : (first.bind second).read bytes = (second a).read rest := by
  simp [Reader.bind,h]

theorem Reader.read_map {f : α → β} {reader : Reader α} {bytes rest : List UInt8} {a : α}
    (h : reader.read bytes = some (a, rest)) : (reader.map f).read bytes = some (f a, rest) :=
  Reader.read_bind h

theorem Reader.read_filterMap {f : α → Option β} {reader : Reader α} {bytes rest : List UInt8}
    {a : α} {b : β} (h : reader.read bytes = some (a, rest)) (accepted : f a = some b) :
    (reader.filterMap f).read bytes = some (b, rest) := by
  rw [Reader.filterMap,Reader.read_bind h]
  simp [accepted]

/-- Whatever is accepted used up at least one byte. -/
def Reader.Progresses (reader : Reader α) : Prop :=
  ∀ bytes value rest, reader.read bytes = some (value, rest) → rest.length < bytes.length

theorem Reader.byte_progresses : Reader.byte.Progresses := by
  intro bytes value rest h
  cases bytes with
  | nil => contradiction
  | cons b tail =>
    obtain ⟨rfl,rfl⟩ := Prod.mk.inj (Option.some.inj h)
    simp

theorem Reader.Progresses.bind {first : Reader α} (progresses : first.Progresses)
    (second : α → Reader β) : (first.bind second).Progresses := by
  intro bytes value rest h
  obtain ⟨⟨a,middle⟩,ha,hb⟩ := Option.bind_eq_some_iff.mp h
  have less := progresses _ _ _ ha
  obtain ⟨used,rfl,_⟩ := (second a).confined _ _ _ hb
  simp only [List.length_append] at less
  omega

/-- Big-endian bytes, most significant first. -/
def bigEndian : Nat → Nat → List UInt8
  | 0, _ => []
  | width + 1, n => UInt8.ofNat (n / 256 ^ width) :: bigEndian width n

def ofBigEndian (bytes : List UInt8) : Nat := bytes.foldl (fun acc b => acc * 256 + b.toNat) 0

@[simp] theorem bigEndian_length (width n : Nat) : (bigEndian width n).length = width := by
  induction width with
  | zero => rfl
  | succ width ih => simp [bigEndian,ih]

theorem foldl_bigEndian (width n acc : Nat) :
    (bigEndian width n).foldl (fun acc b => acc * 256 + b.toNat) acc =
      acc * 256 ^ width + n % 256 ^ width := by
  induction width generalizing acc with
  | zero => simp [bigEndian,Nat.mod_one]
  | succ width ih =>
    have digit : (UInt8.ofNat (n / 256 ^ width)).toNat = n / 256 ^ width % 256 := by simp
    have split : n % 256 ^ (width + 1) = n / 256 ^ width % 256 * 256 ^ width + n % 256 ^ width := by
      rw [Nat.pow_succ,Nat.mod_mul]
      ring
    rw [bigEndian,List.foldl_cons,ih,digit,split]
    ring

theorem ofBigEndian_bigEndian (width n : Nat) (fits : n < 256 ^ width) :
    ofBigEndian (bigEndian width n) = n := by
  rw [ofBigEndian,foldl_bigEndian,Nat.zero_mul,Nat.zero_add,Nat.mod_eq_of_lt fits]

def Reader.word (width : Nat) : Reader Nat := (Reader.take width).map ofBigEndian

theorem Reader.read_word (width n : Nat) (rest : List UInt8) (fits : n < 256 ^ width) :
    (Reader.word width).read (bigEndian width n ++ rest) = some (n, rest) := by
  have taken := Reader.read_take (bigEndian width n) rest
  rw [bigEndian_length] at taken
  rw [Reader.word,Reader.read_map taken,ofBigEndian_bigEndian width n fits]

end ByteReader
