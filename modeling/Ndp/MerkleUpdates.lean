import Ndp.Merkle

/-! The tree when its data changes. Recomputing the nodes is left to be written in `update`, so a
`set` stores its byte and the nodes stay those of the blob the tree was built over. -/
namespace Ndp.Merkle

def BinaryBlob.set (blob : BinaryBlob) (idx : UInt64) (val : UInt8) : Except Panic BinaryBlob :=
  if idx.toNat < blob.bytes.length then .ok { blob with bytes := blob.bytes.set idx.toNat val }
  else .error .indexOutOfBounds

def BinaryBlob.get (blob : BinaryBlob) (idx : UInt64) : Except Panic UInt8 :=
  match blob.bytes[idx.toNat]? with
  | some val => .ok val
  | none => .error .indexOutOfBounds

/-- The fields of the tree that are read. -/
structure MerkleTree where
  data : BinaryBlob
  rootNode : MerkleNode

namespace MerkleTree

def new (checks : Bool) (digest : List UInt8 → List UInt8) (data : BinaryBlob) (depth : Nat) :
    ExceptT Panic Option MerkleTree := do
  let node ← root checks (data.data checks digest) depth
  return ⟨data, node⟩

/-- The number of the block is computed and nothing is done with it. -/
def update (tree : MerkleTree) (idx : UInt64) : MerkleTree :=
  let _blockNo := idx / blockSize
  tree

def set (tree : MerkleTree) (idx : UInt64) (val : UInt8) : Except Panic MerkleTree := do
  let data ← tree.data.set idx val
  return update { tree with data := data } idx

def get (tree : MerkleTree) (idx : UInt64) : Except Panic UInt8 := tree.data.get idx

/-- Calls of `set`, one after the other. -/
def setAll (tree : MerkleTree) (calls : List (UInt64 × UInt8)) : Except Panic MerkleTree :=
  calls.foldlM (fun tree call => tree.set call.1 call.2) tree

end MerkleTree

/-- The value last given to an index. -/
def lastSet (idx : UInt64) (calls : List (UInt64 × UInt8)) : Option UInt8 :=
  (calls.reverse.find? fun call => call.1 = idx).map Prod.snd

theorem BinaryBlob.get_set {blob blob' : BinaryBlob} {idx : UInt64} {val : UInt8} (stored : blob.set idx val = .ok blob')
    (other : UInt64) : blob'.get other = if idx = other then .ok val else blob.get other := by
  unfold BinaryBlob.set at stored
  split at stored
  · next inside =>
    obtain rfl := Except.ok.inj stored
    unfold BinaryBlob.get
    by_cases same : idx = other
    · subst same
      simp [inside]
    · have apart : idx.toNat ≠ other.toNat := fun equal => same (UInt64.toNat_inj.mp equal)
      simp [List.getElem?_set_ne apart,same]
  · contradiction

namespace MerkleTree

theorem set_ok {tree tree' : MerkleTree} {idx : UInt64} {val : UInt8} (done : tree.set idx val = .ok tree') :
    ∃ data, tree.data.set idx val = .ok data ∧ tree' = ⟨data, tree.rootNode⟩ := by
  obtain ⟨data,stored,rest⟩ := except_bind_ok_iff.mp done
  exact ⟨data,stored,(Except.ok.inj rest).symm⟩

theorem setAll_cons {tree tree' : MerkleTree} {call : UInt64 × UInt8} {calls : List (UInt64 × UInt8)}
    (done : tree.setAll (call :: calls) = .ok tree') :
    ∃ middle, tree.set call.1 call.2 = .ok middle ∧ middle.setAll calls = .ok tree' := by
  rw [setAll,List.foldlM_cons] at done
  exact except_bind_ok_iff.mp done

theorem setAll_node {tree tree' : MerkleTree} {calls : List (UInt64 × UInt8)} (done : tree.setAll calls = .ok tree') :
    tree'.rootNode = tree.rootNode := by
  induction calls generalizing tree with
  | nil =>
    obtain rfl := Except.ok.inj done
    rfl
  | cons call calls ih =>
    obtain ⟨middle,first,rest⟩ := setAll_cons done
    obtain ⟨_,_,rfl⟩ := set_ok first
    exact (ih rest).trans rfl

theorem setAll_get {tree tree' : MerkleTree} {calls : List (UInt64 × UInt8)} (done : tree.setAll calls = .ok tree')
    (idx : UInt64) : tree'.get idx = (lastSet idx calls).elim (tree.get idx) .ok := by
  induction calls generalizing tree with
  | nil =>
    obtain rfl := Except.ok.inj done
    rfl
  | cons call calls ih =>
    obtain ⟨middle,first,rest⟩ := setAll_cons done
    obtain ⟨data,stored,rfl⟩ := set_ok first
    have before : MerkleTree.get ⟨data,tree.rootNode⟩ idx = if call.1 = idx then .ok call.2 else tree.get idx :=
      BinaryBlob.get_set stored idx
    rw [ih rest,before,lastSet,lastSet,List.reverse_cons,List.find?_append]
    cases calls.reverse.find? fun call => call.1 = idx with
    | some later => rfl
    | none => by_cases own : call.1 = idx <;> simp [own]

end MerkleTree

/-- One block of the data. -/
def block (bytes : List UInt8) (i : Nat) : List UInt8 := (bytes.drop (i * blockSize.toNat)).take blockSize.toNat

theorem Tiles.leaves_eq {start stop : Nat} {leaves : List (Nat × Nat)} (tiles : Tiles start leaves stop) :
    leaves = (List.range leaves.length).map (fun i => (start + i * blockSize.toNat, blockSize.toNat)) ∧
      stop = start + leaves.length * blockSize.toNat := by
  induction leaves generalizing start with
  | nil => exact ⟨rfl,by simpa using tiles.symm⟩
  | cons leaf leaves ih =>
    obtain ⟨offset,length⟩ := leaf
    obtain ⟨rfl,rfl,rest⟩ := tiles
    obtain ⟨numbered,stops⟩ := ih rest
    refine ⟨?_,?_⟩
    · rw [List.length_cons,List.range_succ_eq_map,List.map_cons,List.map_map,Nat.zero_mul,Nat.add_zero]
      congr 1
      rw [numbered,List.length_map,List.length_range]
      apply List.map_congr_left
      intro i _
      simp only [Function.comp_apply,Nat.succ_eq_add_one,Nat.add_mul,Nat.one_mul]
      congr 1
      omega
    · rw [stops,List.length_cons,Nat.add_mul]
      omega

theorem flatMap_range_inj {width : Nat} {f g : Nat → List UInt8} (hf : ∀ i, (f i).length = width)
    (hg : ∀ i, (g i).length = width) (n : Nat) :
    (List.range n).flatMap f = (List.range n).flatMap g ↔ ∀ i, i < n → f i = g i := by
  induction n with
  | zero => simp
  | succ n ih =>
    have lengths : ((List.range n).flatMap f).length = ((List.range n).flatMap g).length := by
      simp [List.length_flatMap,hf,hg]
    rw [List.range_succ,List.flatMap_append,List.flatMap_append,List.flatMap_singleton,List.flatMap_singleton]
    constructor
    · intro same i below
      obtain ⟨before,last⟩ := List.append_inj same lengths
      rcases Nat.lt_succ_iff_lt_or_eq.mp below with less | rfl
      · exact ih.mp before i less
      · exact last
    · intro all
      rw [ih.mpr fun i below => all i (by omega),all n (Nat.lt_succ_self n)]

theorem MerkleNode.leaves_subset {node root : MerkleNode} (below : node ∈ root.nodes) : node.leaves ⊆ root.leaves := by
  induction root with
  | leaf hash startOffset blobLen =>
    rw [List.mem_singleton.mp below]
    exact List.Subset.refl _
  | branch hash startOffset blobLen left right hl hr =>
    rcases List.mem_cons.mp below with rfl | deeper
    · exact List.Subset.refl _
    · rcases List.mem_append.mp deeper with inLeft | inRight
      · exact List.Subset.trans (hl inLeft) (List.subset_append_left _ _)
      · exact List.Subset.trans (hr inRight) (List.subset_append_right _ _)

theorem Describes.hash_blocks {digest : List UInt8 → List UInt8} {bytes : List UInt8} {node : MerkleNode} {n : Nat}
    (describes : Describes digest bytes node) (starts : node.startOffset = 0)
    (blocks : node.blobLen.toNat = n * blockSize.toNat) :
    node.leaves = (List.range n).map (fun i => (i * blockSize.toNat, blockSize.toNat)) ∧
      node.hash = (List.range n).flatMap fun i => digest (block bytes i) := by
  obtain ⟨numbered,stops⟩ := describes.tiles.leaves_eq
  rw [starts,UInt64.toNat_zero,Nat.zero_add,Nat.zero_add,blocks] at stops
  have count : node.leaves.length = n := (Nat.eq_of_mul_eq_mul_right (by decide) stops).symm
  rw [count,starts] at numbered
  simp only [UInt64.toNat_zero,Nat.zero_add] at numbered
  refine ⟨numbered,?_⟩
  rw [describes.hash,numbered,List.flatMap_map]
  rfl

/-- A tree over some blob describes another exactly if all blocks have the digests they had. -/
theorem describes_iff {digest : List UInt8 → List UInt8} {width : Nat} (fixed : ∀ bytes, (digest bytes).length = width)
    {root : MerkleNode} {bytes : List UInt8} {n : Nat} (describes : ∀ node ∈ root.nodes, Describes digest bytes node)
    (starts : root.startOffset = 0) (size : root.blobLen.toNat = n * blockSize.toNat) (bytes' : List UInt8) :
    (∀ node ∈ root.nodes, Describes digest bytes' node) ↔
      ∀ i, i < n → digest (block bytes' i) = digest (block bytes i) := by
  obtain ⟨numbered,before⟩ := (describes root root.self_mem_nodes).hash_blocks starts size
  constructor
  · intro now
    obtain ⟨_,after⟩ := (now root root.self_mem_nodes).hash_blocks starts size
    exact (flatMap_range_inj (fun _ => fixed _) (fun _ => fixed _) _).mp (after.symm.trans before)
  · intro same node below
    refine ⟨(describes node below).tiles,?_⟩
    rw [(describes node below).hash]
    apply List.flatMap_congr
    intro leaf member
    have among := MerkleNode.leaves_subset below member
    rw [numbered] at among
    obtain ⟨i,inRange,rfl⟩ := List.mem_map.mp among
    exact (same i (List.mem_range.mp inRange)).symm

theorem exists_block_ne {bytes bytes' : List UInt8} {n : Nat} (length : bytes.length = n * blockSize.toNat)
    (length' : bytes'.length = n * blockSize.toNat) (differ : bytes' ≠ bytes) :
    ∃ i, i < n ∧ block bytes' i ≠ block bytes i := by
  by_contra none
  push Not at none
  apply differ
  apply List.ext_getElem?
  intro j
  have block : 0 < blockSize.toNat := by decide
  by_cases inside : j < n * blockSize.toNat
  · have same := none (j / blockSize.toNat) (Nat.div_lt_of_lt_mul (by rwa [Nat.mul_comm]))
    have part := congrArg (fun bytes => bytes[j % blockSize.toNat]?) same
    have position := Nat.div_add_mod' j blockSize.toNat
    simp only [Merkle.block,List.getElem?_take_of_lt (Nat.mod_lt j block),List.getElem?_drop,position] at part
    exact part
  · rw [List.getElem?_eq_none (by omega),List.getElem?_eq_none (by omega)]

theorem MerkleTree.setAll_length {tree tree' : MerkleTree} {calls : List (UInt64 × UInt8)}
    (done : tree.setAll calls = .ok tree') : tree'.data.bytes.length = tree.data.bytes.length := by
  induction calls generalizing tree with
  | nil =>
    obtain rfl := Except.ok.inj done
    rfl
  | cons call calls ih =>
    obtain ⟨middle,first,rest⟩ := setAll_cons done
    obtain ⟨data,stored,rfl⟩ := set_ok first
    unfold BinaryBlob.set at stored
    split at stored
    · obtain rfl := Except.ok.inj stored
      rw [ih rest,List.length_set]
    · contradiction

/-- A tree that was built over a blob of a power of two of blocks, after any calls of `set` that do
not panic: `get` returns what was last set; the nodes are those of the first blob; so they
describe the data if and only if no block's digest has changed, and if they do although the
data have changed, two blocks of one digest are at hand. -/
theorem tree_outdated_iff (checks : Bool) (digest : List UInt8 → List UInt8) (width : Nat)
    (fixed : ∀ bytes, (digest bytes).length = width) (blob : BinaryBlob) (k : Nat)
    (len : blob.len.toNat = blob.bytes.length) (blocks : blob.bytes.length = 2 ^ k * blockSize.toNat) :
    ∃ tree, tree.data = blob ∧ (∀ depth, k < depth → MerkleTree.new checks digest blob depth = some (.ok tree)) ∧
      ∀ calls tree', tree.setAll calls = .ok tree' → tree'.rootNode = tree.rootNode ∧
        (∀ idx, tree'.get idx = (lastSet idx calls).elim (tree.get idx) .ok) ∧
        ((∀ node ∈ tree'.rootNode.nodes, Describes digest tree'.data.bytes node) ↔
          ∀ i, i < 2 ^ k → digest (block tree'.data.bytes i) = digest (block blob.bytes i)) ∧
        ((∀ node ∈ tree'.rootNode.nodes, Describes digest tree'.data.bytes node) → tree'.data.bytes ≠ blob.bytes →
          ∃ i, i < 2 ^ k ∧ block tree'.data.bytes i ≠ block blob.bytes i ∧
            digest (block tree'.data.bytes i) = digest (block blob.bytes i)) := by
  obtain ⟨root,built,_,starts,ends,describes⟩ := MerkleTree.root_builds checks digest blob k len blocks
  refine ⟨⟨blob,root⟩,rfl,?_,?_⟩
  · intro depth deep
    rw [MerkleTree.new,built depth deep]
    rfl
  intro calls tree' done
  have node : tree'.rootNode = root := MerkleTree.setAll_node done
  have length := MerkleTree.setAll_length done
  have size : root.blobLen.toNat = 2 ^ k * blockSize.toNat := by rw [ends,len,blocks]
  rw [node]
  have current := describes_iff fixed describes starts size tree'.data.bytes
  refine ⟨rfl,MerkleTree.setAll_get done,current,?_⟩
  intro now differ
  obtain ⟨i,below,changed⟩ := exists_block_ne blocks (length.trans blocks) differ
  exact ⟨i,below,changed,current.mp now i below⟩

/-- One block of zeros, told by its first byte, which is then set. -/
theorem tree_outdated_first_byte : ∃ tree tree' : MerkleTree, tree.setAll [(0, 7)] = .ok tree' ∧ tree'.rootNode = tree.rootNode ∧
    ¬∀ node ∈ tree'.rootNode.nodes, Describes (fun bytes => [bytes.headD 0]) tree'.data.bytes node := by
  obtain ⟨tree,data,_,after⟩ := tree_outdated_iff true (fun bytes => [bytes.headD 0]) 1 (fun _ => rfl)
    ⟨List.replicate 4096 0,4096⟩ 0 (by rw [List.length_replicate]; rfl) (by rw [List.length_replicate]; rfl)
  have stored : tree.setAll [(0,7)] = .ok ⟨⟨(List.replicate 4096 0).set 0 7,4096⟩,tree.rootNode⟩ := by
    obtain ⟨_,root⟩ := tree
    obtain rfl := data
    have inside : (0 : UInt64).toNat < (List.replicate 4096 (0 : UInt8)).length := by rw [List.length_replicate]; decide
    rw [MerkleTree.setAll,List.foldlM_cons,MerkleTree.set,BinaryBlob.set,if_pos inside]
    rfl
  obtain ⟨kept,_,current,_⟩ := after _ _ stored
  refine ⟨tree,_,stored,kept,fun describes => ?_⟩
  have first (bytes : List UInt8) : (block bytes 0).headD 0 = bytes.headD 0 := by
    rw [block,Nat.zero_mul,List.drop_zero,List.headD_eq_head?_getD,List.head?_take,if_neg (by decide),
      List.headD_eq_head?_getD]
  have same := current.mp describes 0 (by decide)
  rw [first,first] at same
  change [(7 : UInt8)] = [0] at same
  contradiction

end Ndp.Merkle
