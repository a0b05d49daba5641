import Mathlib.Data.Nat.Pairing
import VerusCoin.Lemmas.MerkleRefine

namespace VerusCoin

/-! ## Merkle branches of a block -/

section

variable (Hash : Uint256 → Uint256 → Uint256)

/-- For every hash function and every leaf list: the branch `GetMerkleBranch` reads from `BuildMerkleTree`'s vector
folds back, with `CheckMerkleBranch`, to the root `BuildMerkleTree` returns, and has one sibling per round
(`ceil(log2 n)`); for every index, the loop reads the vector at `branchPositions`, all inside the vector. -/
theorem merkle_branch_check_roundtrip (L : List Uint256) :
    (∀ i (hi : i < L.length),
      CheckMerkleBranch Hash L[i] (GetMerkleBranch i L.length (BuildMerkleTree Hash L).vMerkleTree) i =
          (BuildMerkleTree Hash L).root ∧
        (GetMerkleBranch i L.length (BuildMerkleTree Hash L).vMerkleTree).length = Nat.clog 2 L.length) ∧
    ∀ i, GetMerkleBranch i L.length (BuildMerkleTree Hash L).vMerkleTree =
        (branchPositions i 0 L.length).map (fun p => (BuildMerkleTree Hash L).vMerkleTree.getD p 0) ∧
      ∀ p ∈ branchPositions i 0 L.length, p < (BuildMerkleTree Hash L).vMerkleTree.length := by
  refine ⟨fun i hi => ⟨?_, ?_⟩, fun i => ⟨branchLevels_eq_map _ i 0 L.length, ?_⟩⟩
  · rw [GetMerkleBranch_BuildMerkleTree, BuildMerkleTree_root, CheckMerkleBranch, if_neg (by omega),
      ← List.getD_eq_getElem _ 0 hi]
    exact checkBranch_levelBranch Hash L i hi
  · rw [GetMerkleBranch_BuildMerkleTree, length_levelBranch]
  · simpa [BuildMerkleTree_vMerkleTree] using branchPositions_lt Hash L i 0

/-- Where `SafeCheckMerkleBranch` does not reject, it computes what `CheckMerkleBranch` computes; and with an injective
`Hash` and leaves without duplicates it never rejects a genuine branch (a left step on the self-paired last node of an
odd level included), so it returns `BuildMerkleTree`'s root. -/
theorem safe_check_accepts_genuine_branch :
    (∀ hash branch nIndex, ¬ SafeRejects Hash hash branch nIndex →
      SafeCheckMerkleBranch Hash hash branch nIndex = CheckMerkleBranch Hash hash branch nIndex) ∧
    (Function.Injective2 Hash → ∀ L : List Uint256, L.Nodup → ∀ i (hi : i < L.length),
      SafeCheckMerkleBranch Hash L[i] (GetMerkleBranch i L.length (BuildMerkleTree Hash L).vMerkleTree) i =
        (BuildMerkleTree Hash L).root) := by
  refine ⟨fun hash branch nIndex hrej => ?_, fun hH L hL i hi => ?_⟩
  · unfold SafeCheckMerkleBranch CheckMerkleBranch
    split_ifs with h
    · rfl
    · rcases safeCheckBranch_eq Hash hash branch nIndex with hn | hs
      · exact absurd ⟨h, hn⟩ hrej
      · rw [hs]
        rfl
  · rw [SafeCheckMerkleBranch, if_neg (by omega), GetMerkleBranch_BuildMerkleTree, BuildMerkleTree_root,
      ← List.getD_eq_getElem _ 0 hi, safeCheckBranch_levelBranch Hash hH L hL i hi]
    rfl

/-- With an injective `Hash`: two different nonempty leaf lists that take the same number of hashing rounds and get
the same root from `BuildMerkleTree` have the mutation flag set for at least one of them. -/
theorem root_collision_same_depth_flagged (hH : Function.Injective2 Hash) (L L' : List Uint256) (hL : L ≠ [])
    (hL' : L' ≠ []) (hne : L ≠ L') (hdepth : Nat.clog 2 L.length = Nat.clog 2 L'.length)
    (hroot : (BuildMerkleTree Hash L).root = (BuildMerkleTree Hash L').root) :
    (BuildMerkleTree Hash L).fMutated = true ∨ (BuildMerkleTree Hash L').fMutated = true := by
  rw [BuildMerkleTree_root, BuildMerkleTree_root] at hroot
  rw [BuildMerkleTree_fMutated, BuildMerkleTree_fMutated]
  exact any_lastPairEq_of_levelRoot_eq Hash hH L L' hL hL' hne hdepth hroot

/-! ## The tree a block caches -/

/-- A block's cache is coherent: empty, or the vector of the tree over its transactions' hashes. -/
def CBlock.CacheOk (b : CBlock) : Prop :=
  b.vMerkleTree = [] ∨ b.vMerkleTree = (VerusCoin.BuildMerkleTree Hash (b.vtx.map CTransaction.hash)).vMerkleTree

theorem CBlock.cacheOk_buildMerkleTree (b : CBlock) : ((b.BuildMerkleTree Hash).2).CacheOk Hash := .inr rfl

/-- With a coherent cache, `CBlock::GetMerkleBranch` keeps it coherent and reads the branch of the tree over the
transactions' hashes. -/
theorem CBlock.getMerkleBranch_of_cacheOk {b : CBlock} (hb : b.CacheOk Hash) (nIndex : Nat) :
    (b.GetMerkleBranch Hash nIndex).2.CacheOk Hash ∧ (b.GetMerkleBranch Hash nIndex).2.vtx = b.vtx ∧
      (b.GetMerkleBranch Hash nIndex).1 =
        VerusCoin.GetMerkleBranch nIndex b.vtx.length
          (VerusCoin.BuildMerkleTree Hash (b.vtx.map CTransaction.hash)).vMerkleTree := by
  simp only [GetMerkleBranch]
  split
  · exact ⟨.inr rfl, rfl, rfl⟩
  · rename_i hne
    have hc : b.vMerkleTree = (VerusCoin.BuildMerkleTree Hash (b.vtx.map CTransaction.hash)).vMerkleTree :=
      hb.resolve_left fun h => hne (by rw [h]; rfl)
    exact ⟨hb, rfl, by rw [hc]⟩

/-- A run of the block's Merkle calls keeps a coherent cache coherent and the transactions as they are. -/
theorem CBlock.cacheOk_foldl : ∀ (calls : List BlockMerkleCall) {b : CBlock}, b.CacheOk Hash →
    (calls.foldl (BlockMerkleCall.apply Hash) b).CacheOk Hash ∧ (calls.foldl (BlockMerkleCall.apply Hash) b).vtx = b.vtx
  | [], _, hb => ⟨hb, rfl⟩
  | .BuildMerkleTree :: calls, b, _ => CBlock.cacheOk_foldl calls (b.cacheOk_buildMerkleTree Hash)
  | .GetMerkleBranch nIndex :: calls, _, hb =>
    have h := CBlock.getMerkleBranch_of_cacheOk Hash hb nIndex
    (CBlock.cacheOk_foldl calls h.1).imp_right (·.trans h.2.1)

/-- For every hash function, every block whose cache is coherent (empty, or the tree over its transactions) and every
run of calls of `CBlock::BuildMerkleTree` and `CBlock::GetMerkleBranch`: the cache stays coherent and the
transactions unchanged, and afterwards the branch `GetMerkleBranch(i)` returns for every transaction `i` folds back,
with `CheckMerkleBranch`, to the root `CBlock::BuildMerkleTree` returns, which is `GetMerkleRoot` of the transactions'
hashes. -/
theorem cBlock_merkle_cache_sound (b : CBlock) (hb : b.CacheOk Hash) (calls : List BlockMerkleCall) :
    (calls.foldl (BlockMerkleCall.apply Hash) b).CacheOk Hash ∧
      (calls.foldl (BlockMerkleCall.apply Hash) b).vtx = b.vtx ∧
      ((calls.foldl (BlockMerkleCall.apply Hash) b).BuildMerkleTree Hash).1.root =
        GetMerkleRoot Hash (b.vtx.map CTransaction.hash) ∧
      ∀ i (hi : i < b.vtx.length),
        CheckMerkleBranch Hash b.vtx[i].hash ((calls.foldl (BlockMerkleCall.apply Hash) b).GetMerkleBranch Hash i).1 i =
          GetMerkleRoot Hash (b.vtx.map CTransaction.hash) := by
  obtain ⟨hok, hvtx⟩ := CBlock.cacheOk_foldl Hash calls hb
  refine ⟨hok, hvtx, by rw [CBlock.BuildMerkleTree, hvtx]; rfl, fun i hi => ?_⟩
  have hi' : i < (b.vtx.map CTransaction.hash).length := by rw [List.length_map]; exact hi
  rw [(CBlock.getMerkleBranch_of_cacheOk Hash hok i).2.2, hvtx, ← List.length_map b.vtx CTransaction.hash,
    GetMerkleBranch_BuildMerkleTree, GetMerkleRoot, BuildMerkleTree_root, CheckMerkleBranch, if_neg (by omega),
    ← List.getElem_map CTransaction.hash, ← List.getD_eq_getElem _ 0 hi']
  exact checkBranch_levelBranch Hash _ i hi'

end

theorem pair_injective2 : Function.Injective2 Nat.pair := fun _ _ _ _ h => Nat.pair_eq_pair.mp h

/-- With the Cantor pairing as `Hash`, the self-paired third leaf of three is accepted. -/
theorem safe_check_pair_last_leaf :
    SafeCheckMerkleBranch Nat.pair 3 (GetMerkleBranch 2 3 (BuildMerkleTree Nat.pair [1, 2, 3]).vMerkleTree) 2 =
      (BuildMerkleTree Nat.pair [1, 2, 3]).root :=
  (safe_check_accepts_genuine_branch Nat.pair).2 pair_injective2 [1, 2, 3] (by decide) 2 (by decide)

/-- The duplicated last leaf of the source comment's example: [1, 2, 3] and [1, 2, 3, 3] have the same root, and
the second is flagged. -/
theorem duplicated_leaf_collision_flagged :
    (BuildMerkleTree Nat.pair [1, 2, 3]).root = (BuildMerkleTree Nat.pair [1, 2, 3, 3]).root ∧
      ((BuildMerkleTree Nat.pair [1, 2, 3]).fMutated = true ∨ (BuildMerkleTree Nat.pair [1, 2, 3, 3]).fMutated = true) :=
  have hroot : (BuildMerkleTree Nat.pair [1, 2, 3]).root = (BuildMerkleTree Nat.pair [1, 2, 3, 3]).root := by
    simp [BuildMerkleTree_root, levelRoot, nextLevel]
  ⟨hroot, root_collision_same_depth_flagged Nat.pair pair_injective2 [1, 2, 3] [1, 2, 3, 3] (by simp) (by simp)
    (by decide) (by simp [Nat.clog_of_two_le]) hroot⟩

/-- A block of two transactions, of hashes `1` and `2`, with an empty cache. -/
def twoTxBlock : CBlock := ⟨[⟨1, [], [], [], [], false, false⟩, ⟨2, [], [], [], [], false, false⟩], []⟩

/-- `twoTxBlock` after `GetMerkleBranch(1)` and `BuildMerkleTree()`, with the Cantor pairing as `Hash`. -/
theorem cBlock_merkle_cache_sound_twoTxBlock :
    twoTxBlock.CacheOk Nat.pair ∧
    let calls := [BlockMerkleCall.GetMerkleBranch 1, .BuildMerkleTree]
    (calls.foldl (BlockMerkleCall.apply Nat.pair) twoTxBlock).CacheOk Nat.pair ∧
      (calls.foldl (BlockMerkleCall.apply Nat.pair) twoTxBlock).vtx = twoTxBlock.vtx ∧
      ((calls.foldl (BlockMerkleCall.apply Nat.pair) twoTxBlock).BuildMerkleTree Nat.pair).1.root =
        GetMerkleRoot Nat.pair (twoTxBlock.vtx.map CTransaction.hash) ∧
      ∀ i (hi : i < twoTxBlock.vtx.length),
        CheckMerkleBranch Nat.pair twoTxBlock.vtx[i].hash
            ((calls.foldl (BlockMerkleCall.apply Nat.pair) twoTxBlock).GetMerkleBranch Nat.pair i).1 i =
          GetMerkleRoot Nat.pair (twoTxBlock.vtx.map CTransaction.hash) :=
  ⟨.inl rfl, cBlock_merkle_cache_sound Nat.pair twoTxBlock (.inl rfl) _⟩

end VerusCoin
