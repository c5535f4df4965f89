import Mathlib.Data.List.Basic
import Ndp.RustStd

/-! The Merkle tree benchmark: a tree over the blocks of a blob, built from the root down. The
recursion halves a size until it equals that of a block, so it ends for some sizes only. -/
namespace Ndp.Merkle

def blockSize : UInt64 := 4096

/-- The methods of the trait that building a tree calls. -/
structure SetGettable where
  hash : UInt64 → UInt64 → Except Panic (List UInt8)
  size : UInt64

/-- Both children are there or none is. -/
inductive MerkleNode where
  | leaf (hash : List UInt8) (startOffset blobLen : UInt64)
  | branch (hash : List UInt8) (startOffset blobLen : UInt64) (left right : MerkleNode)
  deriving DecidableEq, Repr

namespace MerkleNode

def hash : MerkleNode → List UInt8
  | leaf hash _ _ => hash
  | branch hash _ _ _ _ => hash

def startOffset : MerkleNode → UInt64
  | leaf _ startOffset _ => startOffset
  | branch _ startOffset _ _ _ => startOffset

def blobLen : MerkleNode → UInt64
  | leaf _ _ blobLen => blobLen
  | branch _ _ blobLen _ _ => blobLen

def hashConcat (node other : MerkleNode) : List UInt8 := node.hash ++ other.hash

/-- Nothing while the recursion goes deeper than `depth`. -/
def new (checks : Bool) (data : SetGettable) : Nat → UInt64 → UInt64 → UInt64 → ExceptT Panic Option MerkleNode
  | 0, _, _, _ => (none : Option (Except Panic MerkleNode))
  | depth + 1, level, size, offset =>
    if size = blockSize then do
      let hash ← data.hash offset size
      return leaf hash offset size
    else do
      let below ← addU64 checks level 1
      let left ← new checks data depth below (size / 2) offset
      let below ← addU64 checks level 1
      let middle ← addU64 checks offset (size / 2)
      let right ← new checks data depth below (size / 2) middle
      return branch (left.hashConcat right) offset size left right

end MerkleNode

structure BinaryBlob where
  bytes : List UInt8
  len : UInt64

/-- `BinaryBlob::hash`, with any digest of a slice. -/
def BinaryBlob.hash (checks : Bool) (digest : List UInt8 → List UInt8) (blob : BinaryBlob) (offset size : UInt64) :
    Except Panic (List UInt8) := do
  let stop ← addU64 checks offset size
  if offset ≤ stop ∧ stop.toNat ≤ blob.bytes.length then
    return digest ((blob.bytes.take stop.toNat).drop offset.toNat)
  else throw .indexOutOfBounds

def BinaryBlob.data (checks : Bool) (digest : List UInt8 → List UInt8) (blob : BinaryBlob) : SetGettable :=
  ⟨blob.hash checks digest, blob.len⟩

def MerkleTree.root (checks : Bool) (data : SetGettable) (depth : Nat) : ExceptT Panic Option MerkleNode :=
  MerkleNode.new checks data depth 0 data.size 0

/-- What `main` does with the block count: refuse it, or go on with a blob of this size. The difference
and the product wrap, as in a build without overflow checks. -/
def checkBlockCount (blockCount : UInt64) : Except String UInt64 :=
  if (blockCount - 1) &&& blockCount ≠ 0 then .error "Must use a power of 2" else .ok (blockSize * blockCount)

namespace MerkleNode

def leaves : MerkleNode → List (Nat × Nat)
  | leaf _ startOffset blobLen => [(startOffset.toNat, blobLen.toNat)]
  | branch _ _ _ left right => left.leaves ++ right.leaves

def nodes : MerkleNode → List MerkleNode
  | leaf hash startOffset blobLen => [leaf hash startOffset blobLen]
  | branch hash startOffset blobLen left right =>
    branch hash startOffset blobLen left right :: (left.nodes ++ right.nodes)

def Perfect : Nat → MerkleNode → Prop
  | 0, leaf _ _ _ => True
  | k + 1, branch _ _ _ left right => left.Perfect k ∧ right.Perfect k
  | _, _ => False

end MerkleNode

/-- Blocks that follow one another from one offset to another. -/
def Tiles (start : Nat) : List (Nat × Nat) → Nat → Prop
  | [], stop => start = stop
  | (offset, length) :: rest, stop => offset = start ∧ length = blockSize.toNat ∧ Tiles (start + length) rest stop

theorem Tiles.append {start middle stop : Nat} {xs ys : List (Nat × Nat)} (first : Tiles start xs middle)
    (second : Tiles middle ys stop) : Tiles start (xs ++ ys) stop := by
  induction xs generalizing start with
  | nil =>
    cases first
    exact second
  | cons x xs ih => exact ⟨first.1,first.2.1,ih first.2.2⟩

/-- A node delimits its leaves and carries their digests. -/
structure Describes (digest : List UInt8 → List UInt8) (bytes : List UInt8) (node : MerkleNode) : Prop where
  tiles : Tiles node.startOffset.toNat node.leaves (node.startOffset.toNat + node.blobLen.toNat)
  hash : node.hash = node.leaves.flatMap fun block => digest ((bytes.drop block.1).take block.2)

theorem halves {k : Nat} {size : UInt64} (blocks : size.toNat = 2 ^ (k + 1) * blockSize.toNat) :
    size ≠ blockSize ∧ (size / 2).toNat = 2 ^ k * blockSize.toNat ∧
      size.toNat = 2 ^ k * blockSize.toNat + 2 ^ k * blockSize.toNat := by
  have twice : size.toNat = 2 ^ k * blockSize.toNat + 2 ^ k * blockSize.toNat := by
    rw [blocks,Nat.pow_succ,Nat.mul_two,Nat.add_mul]
  refine ⟨?_,?_,twice⟩
  · rintro rfl
    have least := Nat.le_mul_of_pos_left blockSize.toNat (Nat.two_pow_pos k)
    have block : 0 < blockSize.toNat := by decide
    omega
  · rw [UInt64.toNat_div,twice,← Nat.two_mul]
    exact Nat.mul_div_cancel_left _ (by decide)

theorem BinaryBlob.hash_inside (checks : Bool) (digest : List UInt8 → List UInt8) (blob : BinaryBlob) {offset size : UInt64}
    (inside : offset.toNat + size.toNat ≤ blob.bytes.length) (fits : offset.toNat + size.toNat < 2 ^ 64) :
    blob.hash checks digest offset size = .ok (digest ((blob.bytes.drop offset.toNat).take size.toNat)) := by
  obtain ⟨stop,added,sum⟩ := addU64_fits checks offset size fits
  have slice : offset ≤ stop ∧ stop.toNat ≤ blob.bytes.length := by
    rw [UInt64.le_iff_toNat_le,sum]
    omega
  simp only [BinaryBlob.hash,added,bind,Except.bind,if_pos slice]
  rw [sum,List.drop_take,Nat.add_sub_cancel_left]
  rfl

namespace MerkleNode

theorem new_leaf {checks : Bool} {data : SetGettable} {level offset : UInt64} {hash : List UInt8} (depth : Nat)
    (hashed : data.hash offset blockSize = .ok hash) :
    new checks data (depth + 1) level blockSize offset = some (.ok (leaf hash offset blockSize)) := by
  rw [new,if_pos rfl,hashed]
  rfl

theorem new_branch {checks : Bool} {data : SetGettable} {level size offset below middle : UInt64} {depth : Nat}
    {left right : MerkleNode} (other : size ≠ blockSize) (lower : addU64 checks level 1 = .ok below)
    (half : addU64 checks offset (size / 2) = .ok middle)
    (hl : new checks data depth below (size / 2) offset = some (.ok left))
    (hr : new checks data depth below (size / 2) middle = some (.ok right)) :
    new checks data (depth + 1) level size offset = some (.ok (branch (left.hashConcat right) offset size left right)) := by
  rw [new,if_neg other,lower,half]
  simp only [liftM,monadLift,MonadLift.monadLift,bind,ExceptT.bind,ExceptT.mk,pure,ExceptT.pure,Option.bind_some,
    ExceptT.bindCont,hl,hr]

theorem new_cut {checks : Bool} {data : SetGettable} {level size offset below : UInt64} {depth : Nat}
    (other : size ≠ blockSize) (lower : addU64 checks level 1 = .ok below)
    (cut : new checks data depth below (size / 2) offset = none) :
    new checks data (depth + 1) level size offset = none := by
  rw [new,if_neg other,lower]
  simp only [liftM,monadLift,MonadLift.monadLift,bind,ExceptT.bind,ExceptT.mk,pure,Option.bind_some,ExceptT.bindCont,cut,
    Option.bind_none]

theorem self_mem_nodes (node : MerkleNode) : node ∈ node.nodes := by
  cases node <;> exact List.mem_cons_self

theorem leaf_describes (digest : List UInt8 → List UInt8) (bytes : List UInt8) (offset : UInt64) :
    Describes digest bytes
      (leaf (digest ((bytes.drop offset.toNat).take blockSize.toNat)) offset blockSize) where
  tiles := ⟨rfl,rfl,rfl⟩
  hash := by simp [hash,leaves]

theorem branch_describes {digest : List UInt8 → List UInt8} {bytes : List UInt8} {size offset : UInt64}
    {left right : MerkleNode} (hl : Describes digest bytes left) (hr : Describes digest bytes right)
    (starts : left.startOffset = offset)
    (meets : right.startOffset.toNat = left.startOffset.toNat + left.blobLen.toNat)
    (ends : left.blobLen.toNat + right.blobLen.toNat = size.toNat) :
    Describes digest bytes (branch (left.hashConcat right) offset size left right) where
  tiles := by
    have whole := hl.tiles.append (meets ▸ hr.tiles)
    rwa [Nat.add_assoc,ends,starts] at whole
  hash := by
    show left.hash ++ right.hash = _
    rw [hl.hash,hr.hash,leaves,List.flatMap_append]

theorem new_builds (checks : Bool) (digest : List UInt8 → List UInt8) (blob : BinaryBlob)
    (fits : blob.bytes.length < 2 ^ 64) (k : Nat) {level size offset : UInt64}
    (blocks : size.toNat = 2 ^ k * blockSize.toNat) (inside : offset.toNat + size.toNat ≤ blob.bytes.length)
    (levels : level.toNat + k < 2 ^ 64) :
    ∃ node, (∀ depth, k < depth → new checks (blob.data checks digest) depth level size offset = some (.ok node)) ∧
      node.Perfect k ∧ node.startOffset = offset ∧ node.blobLen = size ∧
      ∀ n ∈ node.nodes, Describes digest blob.bytes n := by
  induction k generalizing level size offset with
  | zero =>
    have block : size = blockSize := UInt64.toNat_inj.mp (by rw [blocks]; rfl)
    subst block
    refine ⟨leaf (digest ((blob.bytes.drop offset.toNat).take blockSize.toNat)) offset blockSize,fun depth deep => ?_,
      trivial,rfl,rfl,?_⟩
    · obtain ⟨depth,rfl⟩ : ∃ d, depth = d + 1 := ⟨depth - 1,by omega⟩
      exact new_leaf depth (blob.hash_inside checks digest inside (by omega))
    · intro n mem
      rw [List.mem_singleton.mp mem]
      exact leaf_describes digest blob.bytes offset
  | succ k ih =>
    obtain ⟨other,half,twice⟩ := halves blocks
    have one : (1 : UInt64).toNat = 1 := rfl
    obtain ⟨below,lower,deeper⟩ := addU64_fits checks level 1 (by omega)
    obtain ⟨middle,added,sum⟩ := addU64_fits checks offset (size / 2) (by omega)
    obtain ⟨left,builtl,perfectl,startl,lenl,descl⟩ := @ih below (size / 2) offset half (by omega) (by omega)
    obtain ⟨right,builtr,perfectr,startr,lenr,descr⟩ := @ih below (size / 2) middle half (by omega) (by omega)
    refine ⟨branch (left.hashConcat right) offset size left right,fun depth deep => ?_,⟨perfectl,perfectr⟩,rfl,rfl,?_⟩
    · obtain ⟨depth,rfl⟩ : ∃ d, depth = d + 1 := ⟨depth - 1,by omega⟩
      exact new_branch other lower added (builtl depth (by omega)) (builtr depth (by omega))
    · intro n mem
      obtain rfl | below := List.mem_cons.mp mem
      · refine branch_describes (descl left left.self_mem_nodes) (descr right right.self_mem_nodes) startl ?_ ?_
        · rw [startl,startr,lenl,sum]
        · rw [lenl,lenr,twice,half]
      · obtain before | behind := List.mem_append.mp below
        · exact descl n before
        · exact descr n behind

end MerkleNode

theorem MerkleTree.root_builds (checks : Bool) (digest : List UInt8 → List UInt8) (blob : BinaryBlob) (k : Nat)
    (len : blob.len.toNat = blob.bytes.length) (blocks : blob.bytes.length = 2 ^ k * blockSize.toNat) :
    ∃ node, (∀ depth, k < depth → root checks (blob.data checks digest) depth = some (.ok node)) ∧ node.Perfect k ∧
      node.startOffset = 0 ∧ node.blobLen = blob.len ∧ ∀ n ∈ node.nodes, Describes digest blob.bytes n := by
  have fits : blob.bytes.length < 2 ^ 64 := len ▸ blob.len.toNat_lt
  have zero : (0 : UInt64).toNat = 0 := rfl
  have few : k < 2 ^ 64 := by
    have below : k < 2 ^ k := Nat.lt_two_pow_self
    have least := Nat.le_mul_of_pos_right (2 ^ k) (by decide : 0 < blockSize.toNat)
    omega
  exact @MerkleNode.new_builds checks digest blob fits k 0 blob.len 0 (len.trans blocks) (by omega) (by omega)

theorem merkleTree_describes (checks : Bool) (digest : List UInt8 → List UInt8) (blob : BinaryBlob) (k : Nat)
    (len : blob.len.toNat = blob.bytes.length) (blocks : blob.bytes.length = 2 ^ k * blockSize.toNat) :
    ∃ root, (∀ depth, k < depth → MerkleTree.root checks (blob.data checks digest) depth = some (.ok root)) ∧
      root.Perfect k ∧ Tiles 0 root.leaves blob.bytes.length ∧
      ∀ node ∈ root.nodes, Describes digest blob.bytes node := by
  obtain ⟨root,built,perfect,starts,ends,describes⟩ := MerkleTree.root_builds checks digest blob k len blocks
  refine ⟨root,built,perfect,?_,describes⟩
  have tiles := (describes root root.self_mem_nodes).tiles
  rwa [starts,ends,len,UInt64.toNat_zero,Nat.zero_add] at tiles

/-- Two blocks of one byte each repeated. -/
theorem merkleTree_describes_two :
    ∃ root, (∀ depth, 1 < depth →
        MerkleTree.root true (BinaryBlob.data true (·.take 2) ⟨List.replicate 4096 1 ++ List.replicate 4096 2, 8192⟩) depth
          = some (.ok root)) ∧ root.Perfect 1 := by
  obtain ⟨root,built,perfect,-⟩ := merkleTree_describes true (·.take 2)
    ⟨List.replicate 4096 1 ++ List.replicate 4096 2, 8192⟩ 1
    (by rw [List.length_append,List.length_replicate,List.length_replicate]; rfl)
    (by rw [List.length_append,List.length_replicate,List.length_replicate]; rfl)
  exact ⟨root,built,perfect⟩

/-- Masking with the predecessor, which wraps around at zero, admits the powers of two and zero. -/
theorem checkBlockCount_ok {blockCount size : UInt64} (admitted : checkBlockCount blockCount = .ok size) :
    (blockCount.toNat = 0 ∨ ∃ k, blockCount.toNat = 2 ^ k) ∧ size = blockSize * blockCount := by
  unfold checkBlockCount at admitted
  split at admitted
  · cases admitted
  · rename_i masked
    refine ⟨?_,(Except.ok.inj admitted).symm⟩
    by_cases zero : blockCount.toNat = 0
    · exact .inl zero
    · right
      have one : (1 : UInt64) ≤ blockCount := by
        rw [UInt64.le_iff_toNat_le]
        exact Nat.pos_of_ne_zero zero
      have bits := congrArg UInt64.toNat (not_not.mp masked)
      rw [UInt64.toNat_and,UInt64.toNat_sub_of_le _ _ one,Nat.and_comm] at bits
      exact (Nat.and_sub_one_eq_zero_iff_isPowerOfTwo zero).mp bits

/-- The halvings of a size come to that of a block. -/
inductive ReachesBase : UInt64 → Prop where
  | base : ReachesBase blockSize
  | halve : size ≠ blockSize → ReachesBase (size / 2) → ReachesBase size

theorem ReachesBase.ne_zero {size : UInt64} (reaches : ReachesBase size) : size ≠ 0 := by
  induction reaches with
  | base => decide
  | halve _ _ ih =>
    rintro rfl
    exact ih rfl

theorem reachesBase_of_blocks (k : Nat) {size : UInt64} (blocks : size.toNat = 2 ^ k * blockSize.toNat) :
    ReachesBase size := by
  induction k generalizing size with
  | zero =>
    have block : size = blockSize := UInt64.toNat_inj.mp (by rw [blocks]; rfl)
    exact block ▸ .base
  | succ k ih =>
    obtain ⟨other,half,-⟩ := halves blocks
    exact .halve other (ih half)

/-- The recursion on a size of zero never ends. -/
theorem MerkleNode.new_zero (data : SetGettable) (depth : Nat) (level offset : UInt64) :
    new false data depth level 0 offset = none := by
  induction depth generalizing level offset with
  | zero => rfl
  | succ depth ih => exact new_cut (by decide) (if_neg (by simp)) (ih _ _)

theorem blockSize_mul {blockCount : UInt64} {k : Nat} (power : blockCount.toNat = 2 ^ k) :
    (blockSize * blockCount).toNat = if k < 52 then 2 ^ k * blockSize.toNat else 0 := by
  have block : blockSize.toNat = 2 ^ 12 := rfl
  rw [UInt64.toNat_mul,power,block,← Nat.pow_add]
  split
  · rename_i small
    rw [← Nat.pow_add,Nat.add_comm k 12]
    exact Nat.mod_eq_of_lt (Nat.pow_lt_pow_right (by decide) (by omega))
  · rename_i large
    exact Nat.mod_eq_zero_of_dvd (Nat.pow_dvd_pow 2 (by omega))

/-- The tree over any blob of this size is built in a build without overflow checks. -/
def Builds (size : UInt64) : Prop :=
  ∀ digest blob, blob.len = size → blob.bytes.length = size.toNat →
    ∃ depth root, MerkleTree.root false (BinaryBlob.data false digest blob) depth = some (.ok root)

theorem builds_of_blocks (k : Nat) {size : UInt64} (blocks : size.toNat = 2 ^ k * blockSize.toNat) : Builds size := by
  intro digest blob len bytes
  obtain ⟨root,built,-⟩ := MerkleTree.root_builds false digest blob k (by rw [len,bytes]) (bytes.trans blocks)
  exact ⟨k + 1,root,built (k + 1) (Nat.lt_succ_self k)⟩

theorem admitted_builds_iff {blockCount size : UInt64} (admitted : checkBlockCount blockCount = .ok size) :
    ReachesBase size ∧ Builds size ↔ 0 < blockCount.toNat ∧ blockCount.toNat < 2 ^ 52 := by
  obtain ⟨power,rfl⟩ := checkBlockCount_ok admitted
  obtain zero | ⟨k,power⟩ := power
  · have empty : blockSize * blockCount = 0 := by
      rw [UInt64.toNat_inj.mp (zero.trans UInt64.toNat_zero.symm),UInt64.mul_zero]
    exact ⟨fun h => absurd empty h.1.ne_zero,fun h => absurd h.1 (zero ▸ Nat.lt_irrefl 0)⟩
  · have size := blockSize_mul power
    rw [power]
    by_cases small : k < 52
    · rw [if_pos small] at size
      refine ⟨fun _ => ⟨Nat.two_pow_pos k,Nat.pow_lt_pow_right (by decide) small⟩,fun _ => ?_⟩
      exact ⟨reachesBase_of_blocks k size,builds_of_blocks k size⟩
    · rw [if_neg small] at size
      refine ⟨fun h => absurd (UInt64.toNat_inj.mp size) h.1.ne_zero,fun h => ?_⟩
      have large : 2 ^ 52 ≤ 2 ^ k := Nat.pow_le_pow_right (by decide) (Nat.le_of_not_lt small)
      omega

theorem admitted_builds_two : ReachesBase 8192 ∧ Builds 8192 :=
  (admitted_builds_iff (rfl : checkBlockCount 2 = .ok 8192)).mpr (by decide)

/-- Zero is admitted, and so is a count for which the size in bytes comes to zero; the recursion then
goes down without end. -/
theorem admitted_without_end :
    checkBlockCount 0 = .ok 0 ∧ checkBlockCount 0x10000000000000 = .ok 0 ∧ ¬ReachesBase 0 ∧
      ∀ digest depth, MerkleTree.root false (BinaryBlob.data false digest ⟨[], 0⟩) depth = none :=
  ⟨rfl,rfl,fun reaches => reaches.ne_zero rfl,fun _ depth => MerkleNode.new_zero _ depth 0 0⟩

end Ndp.Merkle
