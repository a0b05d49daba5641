import Mathlib.Data.Int.Bitwise
import VerusCoin.Primitives

/-!
# Merkle trees of a block (`primitives/block.cpp`, `cc/eval.cpp`)

`BuildMerkleTree` stores every level of the tree in one vector, leaves first; a level of odd size pairs its last node
with itself. `GetMerkleBranch` reads one sibling per level from that vector, and `CheckMerkleBranch` folds a branch
back into a root, hashing on the left or the right by the bits of the index; `SafeCheckMerkleBranch` also refuses a
right step whose sibling equals the running hash. `Hash` is the double SHA-256 of two concatenated hashes, a
parameter here. A `vMerkleTree[k]` the code reads is `getD k 0`: every read is in range (`branchPositions_lt`). A
`CBlock` caches the vector in its `mutable` member: `CBlock::BuildMerkleTree` stores it, and `CBlock::GetMerkleBranch`
builds it first when the cache is empty.
-/

namespace VerusCoin

/-- What `BuildMerkleTree(fMutated, leaves, vMerkleTree)` produces: the returned root, the flag stored through
`fMutated`, and the vector. -/
structure MerkleBuild where
  root : Uint256
  fMutated : Bool
  vMerkleTree : List Uint256

/-- The part of a `CBlock` its Merkle methods read and write: the transactions, and the tree cached in the `mutable`
member `vMerkleTree`. -/
structure CBlock where
  vtx : List CTransaction
  vMerkleTree : List Uint256

section

variable (Hash : Uint256 → Uint256 → Uint256)

/-- The inner loop `for (int i = 0; i < nSize; i += 2)` of `BuildMerkleTree`, over the level of `nSize` nodes that
starts at `j`: hash node `i` with node `i2 = min(i + 1, nSize - 1)`, and flag two identical hashes at the end. -/
def buildLevel (nSize j i : Nat) (vMerkleTree : List Uint256) (mutated : Bool) : List Uint256 × Bool :=
  if i < nSize then
    let i2 := min (i + 1) (nSize - 1)
    let mutated := mutated ||
      (i2 == i + 1 && i2 + 1 == nSize && vMerkleTree.getD (j + i) 0 == vMerkleTree.getD (j + i2) 0)
    buildLevel nSize j (i + 2) (vMerkleTree ++ [Hash (vMerkleTree.getD (j + i) 0) (vMerkleTree.getD (j + i2) 0)])
      mutated
  else (vMerkleTree, mutated)
termination_by nSize - i

/-- The outer loop `for (int nSize = leaves.size(); nSize > 1; nSize = (nSize + 1) / 2)`, with `j += nSize`. -/
def buildLevels (j nSize : Nat) (vMerkleTree : List Uint256) (mutated : Bool) : List Uint256 × Bool :=
  if 1 < nSize then
    let r := buildLevel Hash nSize j 0 vMerkleTree mutated
    buildLevels (j + nSize) ((nSize + 1) / 2) r.1 r.2
  else (vMerkleTree, mutated)
termination_by nSize
decreasing_by omega

/-- `BuildMerkleTree(fMutated, leaves, vMerkleTree)`: the root is `vMerkleTree.back()`, or `uint256()` when the vector
is empty. -/
def BuildMerkleTree (leaves : List Uint256) : MerkleBuild :=
  let r := buildLevels Hash 0 leaves.length leaves false
  ⟨r.1.getLastD 0, r.2, r.1⟩

/-- `GetMerkleRoot(vLeaves)` (`cc/eval.cpp`): the root `BuildMerkleTree` returns. -/
def GetMerkleRoot (vLeaves : List Uint256) : Uint256 := (BuildMerkleTree Hash vLeaves).root

/-- The loop of `GetMerkleBranch(nIndex, nLeaves, vMerkleTree)`: at each level push `vMerkleTree[j + i]` for
`i = min(nIndex ^ 1, nSize - 1)`, then halve the index. The index is nonnegative. -/
def branchLevels (vMerkleTree : List Uint256) (nIndex j nSize : Nat) : List Uint256 :=
  if 1 < nSize then
    vMerkleTree.getD (j + min (nIndex ^^^ 1) (nSize - 1)) 0 ::
      branchLevels vMerkleTree (nIndex >>> 1) (j + nSize) ((nSize + 1) / 2)
  else []
termination_by nSize
decreasing_by omega

/-- `::GetMerkleBranch(nIndex, nLeaves, vMerkleTree)`. -/
def GetMerkleBranch (nIndex nLeaves : Nat) (vMerkleTree : List Uint256) : List Uint256 :=
  branchLevels vMerkleTree nIndex 0 nLeaves

namespace CBlock

/-- `CBlock::BuildMerkleTree(fMutated)`: the tree over the hashes of the transactions, its vector stored in the
cache. -/
def BuildMerkleTree (b : CBlock) : MerkleBuild × CBlock :=
  let r := VerusCoin.BuildMerkleTree Hash (b.vtx.map CTransaction.hash)
  (r, { b with vMerkleTree := r.vMerkleTree })

/-- `CBlock::GetMerkleBranch(nIndex)`: with an empty cache the tree is built first; the branch is read from the
cache. -/
def GetMerkleBranch (b : CBlock) (nIndex : Nat) : List Uint256 × CBlock :=
  let b := if b.vMerkleTree.isEmpty then (b.BuildMerkleTree Hash).2 else b
  (VerusCoin.GetMerkleBranch nIndex b.vtx.length b.vMerkleTree, b)

end CBlock

/-- A call of one of a block's Merkle methods; both are `const` and write only the cache. -/
inductive BlockMerkleCall where
  | BuildMerkleTree
  | GetMerkleBranch (nIndex : Nat)

/-- The block after a call. -/
def BlockMerkleCall.apply (b : CBlock) : BlockMerkleCall → CBlock
  | .BuildMerkleTree => (b.BuildMerkleTree Hash).2
  | .GetMerkleBranch nIndex => (b.GetMerkleBranch Hash nIndex).2

/-- The positions `GetMerkleBranch` reads, level by level. -/
def branchPositions (nIndex j nSize : Nat) : List Nat :=
  if 1 < nSize then
    (j + min (nIndex ^^^ 1) (nSize - 1)) :: branchPositions (nIndex >>> 1) (j + nSize) ((nSize + 1) / 2)
  else []
termination_by nSize
decreasing_by omega

/-- The loop of `CBlock::CheckMerkleBranch`: an odd index puts the sibling on the left. `nIndex & 1` is `nIndex % 2`
and `nIndex >>= 1` is an arithmetic shift, for every `int`. -/
def checkBranch (hash : Uint256) : List Uint256 → Int → Uint256
  | [], _ => hash
  | it :: rest, nIndex => checkBranch (if nIndex % 2 = 1 then Hash it hash else Hash hash it) rest (nIndex >>> 1)

/-- `CBlock::CheckMerkleBranch(hash, vMerkleBranch, nIndex)`. -/
def CheckMerkleBranch (hash : Uint256) (vMerkleBranch : List Uint256) (nIndex : Int) : Uint256 :=
  if nIndex = -1 then 0 else checkBranch Hash hash vMerkleBranch nIndex

/-- The loop of `SafeCheckMerkleBranch`; `none` is its early `return uint256()` on a right step whose sibling equals
the running hash. -/
def safeCheckBranch (hash : Uint256) : List Uint256 → Int → Option Uint256
  | [], _ => some hash
  | it :: rest, nIndex =>
    if nIndex % 2 = 1 then
      if it = hash then none else safeCheckBranch (Hash it hash) rest (nIndex >>> 1)
    else safeCheckBranch (Hash hash it) rest (nIndex >>> 1)

/-- `SafeCheckMerkleBranch(hash, vMerkleBranch, nIndex)` (`cc/eval.cpp`). -/
def SafeCheckMerkleBranch (hash : Uint256) (vMerkleBranch : List Uint256) (nIndex : Int) : Uint256 :=
  if nIndex = -1 then 0 else (safeCheckBranch Hash hash vMerkleBranch nIndex).getD 0

/-- `SafeCheckMerkleBranch` takes its early `return uint256()` inside the loop. -/
def SafeRejects (hash : Uint256) (vMerkleBranch : List Uint256) (nIndex : Int) : Prop :=
  nIndex ≠ -1 ∧ safeCheckBranch Hash hash vMerkleBranch nIndex = none

end

end VerusCoin
