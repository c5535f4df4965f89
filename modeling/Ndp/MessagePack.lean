import Ndp.ByteReader

/-! The part of the MessagePack format that flat records need: unsigned integers,
strings, byte strings, array headers and unit variants, each written in its
shortest form. Payload lengths are written modulo 2^32. -/
namespace MessagePack

open ByteReader

def writeUint (n : Nat) : List UInt8 :=
  if n < 128 then [UInt8.ofNat n]
  else if n < 2 ^ 8 then 0xcc :: bigEndian 1 n
  else if n < 2 ^ 16 then 0xcd :: bigEndian 2 n
  else if n < 2 ^ 32 then 0xce :: bigEndian 4 n
  else 0xcf :: bigEndian 8 n

def readUint : Reader Nat :=
  Reader.byte.bind fun marker =>
    if marker.toNat < 128 then .pure marker.toNat
    else if marker = 0xcc then .word 1
    else if marker = 0xcd then .word 2
    else if marker = 0xce then .word 4
    else if marker = 0xcf then .word 8
    else .fail

theorem toNat_ofNat_lt (n : Nat) (h : n < 256) : (UInt8.ofNat n).toNat = n := by
  rw [UInt8.toNat_ofNat']
  omega

theorem readUint_writeUint (n : Nat) (rest : List UInt8) (fits : n < 2 ^ 64) :
    readUint.read (writeUint n ++ rest) = some (n, rest) := by
  unfold writeUint readUint
  split
  · next small =>
    have same := toNat_ofNat_lt n (by omega)
    rw [List.singleton_append,Reader.read_bind (Reader.read_byte _ _)]
    simp [same,small]
  split
  · next h => simpa [Reader.read_bind (Reader.read_byte _ _)] using Reader.read_word 1 n rest (by omega)
  split
  · next h => simpa [Reader.read_bind (Reader.read_byte _ _)] using Reader.read_word 2 n rest (by omega)
  split
  · next h => simpa [Reader.read_bind (Reader.read_byte _ _)] using Reader.read_word 4 n rest (by omega)
  · simpa [Reader.read_bind (Reader.read_byte _ _)] using Reader.read_word 8 n rest (by omega)

/-- Bytes a shortest-form unsigned integer takes. -/
def uintSize (n : Nat) : Nat :=
  if n < 128 then 1 else if n < 2 ^ 8 then 2 else if n < 2 ^ 16 then 3 else if n < 2 ^ 32 then 5 else 9

theorem writeUint_length (n : Nat) : (writeUint n).length = uintSize n := by
  unfold writeUint uintSize
  repeat' split
  all_goals simp

theorem uintSize_le (n : Nat) : uintSize n ≤ 9 := by
  unfold uintSize
  split_ifs <;> omega

/-- Length headers of strings and of byte strings: the markers differ, the widths do not. -/
def writeBinLen (n : Nat) : List UInt8 :=
  if n < 2 ^ 8 then 0xc4 :: bigEndian 1 n
  else if n < 2 ^ 16 then 0xc5 :: bigEndian 2 n
  else 0xc6 :: bigEndian 4 n

def readBinLen : Reader Nat :=
  Reader.byte.bind fun marker =>
    if marker = 0xc4 then .word 1
    else if marker = 0xc5 then .word 2
    else if marker = 0xc6 then .word 4
    else .fail

theorem readBinLen_writeBinLen (n : Nat) (rest : List UInt8) (fits : n < 2 ^ 32) :
    readBinLen.read (writeBinLen n ++ rest) = some (n, rest) := by
  unfold writeBinLen readBinLen
  split
  · next h => simpa [Reader.read_bind (Reader.read_byte _ _)] using Reader.read_word 1 n rest (by omega)
  split
  · next h => simpa [Reader.read_bind (Reader.read_byte _ _)] using Reader.read_word 2 n rest (by omega)
  · simpa [Reader.read_bind (Reader.read_byte _ _)] using Reader.read_word 4 n rest (by omega)

def binHeaderSize (n : Nat) : Nat := if n < 2 ^ 8 then 2 else if n < 2 ^ 16 then 3 else 5

theorem writeBinLen_length (n : Nat) : (writeBinLen n).length = binHeaderSize n := by
  unfold writeBinLen binHeaderSize
  repeat' split
  all_goals simp

theorem binHeaderSize_le (n : Nat) : binHeaderSize n ≤ 5 := by
  unfold binHeaderSize
  split_ifs <;> omega

def writeStrLen (n : Nat) : List UInt8 :=
  if n < 32 then [UInt8.ofNat (0xa0 + n)]
  else if n < 2 ^ 8 then 0xd9 :: bigEndian 1 n
  else if n < 2 ^ 16 then 0xda :: bigEndian 2 n
  else 0xdb :: bigEndian 4 n

def readStrLen : Reader Nat :=
  Reader.byte.bind fun marker =>
    if 0xa0 ≤ marker.toNat ∧ marker.toNat < 0xc0 then .pure (marker.toNat - 0xa0)
    else if marker = 0xd9 then .word 1
    else if marker = 0xda then .word 2
    else if marker = 0xdb then .word 4
    else .fail

theorem readStrLen_writeStrLen (n : Nat) (rest : List UInt8) (fits : n < 2 ^ 32) :
    readStrLen.read (writeStrLen n ++ rest) = some (n, rest) := by
  unfold writeStrLen readStrLen
  split
  · next small =>
    have same := toNat_ofNat_lt (0xa0 + n) (by omega)
    rw [List.singleton_append,Reader.read_bind (Reader.read_byte _ _)]
    simp only [same]
    rw [if_pos (by omega)]
    simp
  split
  · next h => simpa [Reader.read_bind (Reader.read_byte _ _)] using Reader.read_word 1 n rest (by omega)
  split
  · next h => simpa [Reader.read_bind (Reader.read_byte _ _)] using Reader.read_word 2 n rest (by omega)
  · simpa [Reader.read_bind (Reader.read_byte _ _)] using Reader.read_word 4 n rest (by omega)

def writeBin (bytes : List UInt8) : List UInt8 := writeBinLen (bytes.length % 2 ^ 32) ++ bytes

def readBin : Reader (List UInt8) := readBinLen.bind .take

theorem readBin_writeBin (bytes rest : List UInt8) (fits : bytes.length < 2 ^ 32) :
    readBin.read (writeBin bytes ++ rest) = some (bytes, rest) := by
  rw [writeBin,Nat.mod_eq_of_lt fits,List.append_assoc,readBin,
    Reader.read_bind (readBinLen_writeBinLen _ _ fits)]
  exact Reader.read_take bytes rest

def utf8 (s : String) : List UInt8 := s.toByteArray.data.toList

def ofUtf8 (bytes : List UInt8) : Option String := String.fromUTF8? ⟨bytes.toArray⟩

theorem ofUtf8_utf8 (s : String) : ofUtf8 (utf8 s) = some s := by
  have same : (⟨(utf8 s).toArray⟩ : ByteArray) = s.toByteArray := by simp [utf8]
  rw [ofUtf8,same,String.fromUTF8?,dif_pos s.isValidUTF8]
  rfl

def writeStr (s : String) : List UInt8 := writeStrLen ((utf8 s).length % 2 ^ 32) ++ utf8 s

def readStr : Reader String := (readStrLen.bind .take).filterMap ofUtf8

theorem readStr_writeStr (s : String) (rest : List UInt8) (fits : (utf8 s).length < 2 ^ 32) :
    readStr.read (writeStr s ++ rest) = some (s, rest) := by
  apply Reader.read_filterMap _ (ofUtf8_utf8 s)
  rw [writeStr,Nat.mod_eq_of_lt fits,List.append_assoc,
    Reader.read_bind (readStrLen_writeStrLen _ _ fits)]
  exact Reader.read_take (utf8 s) rest

def writeArrayLen (n : Nat) : List UInt8 :=
  if n < 16 then [UInt8.ofNat (0x90 + n)]
  else if n < 2 ^ 16 then 0xdc :: bigEndian 2 n
  else 0xdd :: bigEndian 4 n

def readArrayLen : Reader Nat :=
  Reader.byte.bind fun marker =>
    if 0x90 ≤ marker.toNat ∧ marker.toNat < 0xa0 then .pure (marker.toNat - 0x90)
    else if marker = 0xdc then .word 2
    else if marker = 0xdd then .word 4
    else .fail

theorem readArrayLen_writeArrayLen (n : Nat) (rest : List UInt8) (fits : n < 2 ^ 32) :
    readArrayLen.read (writeArrayLen n ++ rest) = some (n, rest) := by
  unfold writeArrayLen readArrayLen
  split
  · next small =>
    have same := toNat_ofNat_lt (0x90 + n) (by omega)
    rw [List.singleton_append,Reader.read_bind (Reader.read_byte _ _)]
    simp only [same]
    rw [if_pos (by omega)]
    simp
  split
  · next h => simpa [Reader.read_bind (Reader.read_byte _ _)] using Reader.read_word 2 n rest (by omega)
  · simpa [Reader.read_bind (Reader.read_byte _ _)] using Reader.read_word 4 n rest (by omega)

/-- A unit variant is a one-entry map from the variant's index to nil. -/
def writeUnitVariant (index : Nat) : List UInt8 := 0x81 :: (writeUint index ++ [0xc0])

def readUnitVariant : Reader Nat :=
  Reader.byte.bind fun marker =>
    if marker = 0x81 then
      readUint.bind fun index =>
        Reader.byte.bind fun nil => if nil = 0xc0 then .pure index else .fail
    else .fail

theorem readUnitVariant_writeUnitVariant (index : Nat) (rest : List UInt8) (fits : index < 2 ^ 64) :
    readUnitVariant.read (writeUnitVariant index ++ rest) = some (index, rest) := by
  rw [writeUnitVariant,List.cons_append,readUnitVariant,Reader.read_bind (Reader.read_byte _ _),
    if_pos rfl,List.append_assoc,Reader.read_bind (readUint_writeUint index _ fits)]
  rfl

end MessagePack
