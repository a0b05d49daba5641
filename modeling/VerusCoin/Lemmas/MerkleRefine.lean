import Mathlib.Data.List.Nodup
import VerusCoin.MerkleLevels

/-!
# `BuildMerkleTree` and `GetMerkleBranch` compute the level model

The vector `BuildMerkleTree` fills is the levels of `levels` concatenated; at each level the inner loop appends
`nextLevel` of the level and flags `lastPairEq`. `GetMerkleBranch`, reading that vector, returns `levelBranch`, and
every position it reads is inside the vector.
-/

namespace VerusCoin

namespace MerkleAux

variable (Hash : Uint256 → Uint256 → Uint256)

theorem getD_mid (pre lvl acc : List Uint256) {k : Nat} (hk : k < lvl.length) :
    (pre ++ lvl ++ acc).getD (pre.length + k) 0 = lvl.getD k 0 := by
  rw [List.getD_eq_getElem?_getD, List.getD_eq_getElem?_getD, List.append_assoc,
    List.getElem?_append_right (by omega), Nat.add_sub_cancel_left, List.getElem?_append_left hk]

/-- One iteration of the inner loop, read on the level from position `i` on. -/
theorem drop_step (lvl : List Uint256) {i : Nat} (hi : i < lvl.length) :
    nextLevel Hash (lvl.drop i) = Hash (lvl.getD i 0) (lvl.getD (min (i + 1) (lvl.length - 1)) 0) ::
        nextLevel Hash (lvl.drop (i + 2)) ∧
      lastPairEq (lvl.drop i) =
        ((min (i + 1) (lvl.length - 1) == i + 1 && min (i + 1) (lvl.length - 1) + 1 == lvl.length &&
          lvl.getD i 0 == lvl.getD (min (i + 1) (lvl.length - 1)) 0) || lastPairEq (lvl.drop (i + 2))) := by
  by_cases h : i + 1 < lvl.length
  · rw [List.drop_eq_getElem_cons hi, List.drop_eq_getElem_cons h, min_eq_left (by omega)]
    have he : (lvl.drop (i + 1 + 1)).isEmpty = (i + 1 + 1 == lvl.length) := by
      rw [Bool.eq_iff_iff, List.isEmpty_iff, List.drop_eq_nil_iff, beq_iff_eq]
      omega
    simp only [List.getD_eq_getElem?_getD, List.getElem?_eq_getElem hi, List.getElem?_eq_getElem h, Option.getD_some,
      nextLevel, lastPairEq, he, beq_self_eq_true, Bool.true_and, and_self]
  · have hl : lvl.length = i + 1 := by omega
    rw [List.drop_eq_getElem_cons hi, min_eq_right (by omega), List.drop_eq_nil_of_le (by omega : lvl.length ≤ i + 1),
      List.drop_eq_nil_of_le (by omega : lvl.length ≤ i + 2)]
    simp [nextLevel, lastPairEq, List.getD_eq_getElem?_getD, List.getElem?_eq_getElem hi, hl]

/-- The inner loop from an even position `i` appends the rest of the next level and flags the end of this one. -/
theorem buildLevel_eq (nSize j : Nat) : ∀ i v m, ∀ pre lvl acc : List Uint256, v = pre ++ lvl ++ acc →
    pre.length = j → lvl.length = nSize →
      buildLevel Hash nSize j i v m = (v ++ nextLevel Hash (lvl.drop i), m || lastPairEq (lvl.drop i)) := by
  intro i v m
  induction i, v, m using buildLevel.induct Hash nSize j with
  | case1 i v m hi i2 mutated ih =>
    intro pre lvl acc hv hpre hlvl
    subst hv hpre hlvl
    rw [buildLevel, if_pos hi]
    refine (ih pre lvl (acc ++ [_]) (List.append_assoc _ _ _) rfl rfl).trans ?_
    unfold mutated i2
    rw [getD_mid pre lvl acc hi, getD_mid pre lvl acc (by omega), (drop_step Hash lvl hi).1, (drop_step Hash lvl hi).2]
    simp [Bool.or_assoc]
  | case2 i v m hi =>
    intro pre lvl acc _ _ hlvl
    rw [buildLevel, if_neg hi, List.drop_eq_nil_of_le (by omega)]
    simp [nextLevel, lastPairEq]

/-- The outer loop over the levels from `lvl` on. -/
theorem buildLevels_eq : ∀ lvl pre : List Uint256, ∀ m,
    buildLevels Hash pre.length lvl.length (pre ++ lvl) m =
      (pre ++ (levels Hash lvl).flatten, m || (levels Hash lvl).any lastPairEq) := by
  intro lvl
  induction lvl using levels.induct Hash with
  | case1 lvl hl ih =>
    intro pre m
    rw [buildLevels, if_pos hl, levels, if_pos hl]
    dsimp only
    rw [buildLevel_eq Hash _ _ 0 _ m pre lvl [] (by simp) rfl rfl, List.drop_zero]
    dsimp only
    rw [show pre.length + lvl.length = (pre ++ lvl).length by simp, ← length_nextLevel, ih]
    simp [Bool.or_assoc]
  | case2 lvl hl =>
    intro pre m
    rw [buildLevels, if_neg hl, levels, if_neg hl]
    match lvl, hl with
    | [], _ => simp [lastPairEq]
    | [_], _ => simp [lastPairEq]
    | _ :: _ :: _, hl => simp at hl

theorem xor_one_eq (i : Nat) : i ^^^ 1 = 2 * (i / 2) + (1 - i % 2) := by
  have hd : (i ^^^ 1) / 2 = i / 2 := by rw [Nat.xor_div_two]; simp
  have hm : (i ^^^ 1) % 2 = (i + 1) % 2 := Nat.xor_mod_two_eq
  have := Nat.div_add_mod (i ^^^ 1) 2
  omega

/-- On a right step the sibling is the node just before. -/
theorem sibling_of_odd {l : List Uint256} {i : Nat} (hi : i < l.length) (h : i % 2 = 1) :
    min (i ^^^ 1) (l.length - 1) = i - 1 := by
  rw [xor_one_eq]
  omega

/-- One step of `CheckMerkleBranch` on a level: node `i` and its sibling, ordered by the parity of `i`, hash to node
`i / 2` of the next level. -/
theorem hash_sibling (l : List Uint256) {i : Nat} (hi : i < l.length) :
    (if (i : Int) % 2 = 1 then Hash (l.getD (min (i ^^^ 1) (l.length - 1)) 0) (l.getD i 0)
      else Hash (l.getD i 0) (l.getD (min (i ^^^ 1) (l.length - 1)) 0)) = (nextLevel Hash l).getD (i / 2) 0 := by
  rw [nextLevel_getD Hash l (i / 2) (by omega), xor_one_eq]
  rcases Nat.mod_two_eq_zero_or_one i with h | h
  · have e1 : 2 * (i / 2) = i := by omega
    rw [if_neg (by omega), e1, h]
  · have e1 : min (2 * (i / 2) + (1 - i % 2)) (l.length - 1) = 2 * (i / 2) := by omega
    have e2 : min (2 * (i / 2) + 1) (l.length - 1) = i := by omega
    rw [if_pos (by omega), e1, e2]

end MerkleAux

open MerkleAux

variable (Hash : Uint256 → Uint256 → Uint256)

theorem BuildMerkleTree_vMerkleTree (leaves : List Uint256) :
    (BuildMerkleTree Hash leaves).vMerkleTree = (levels Hash leaves).flatten := by
  simpa using congrArg Prod.fst (buildLevels_eq Hash leaves [] false)

theorem BuildMerkleTree_fMutated (leaves : List Uint256) :
    (BuildMerkleTree Hash leaves).fMutated = (levels Hash leaves).any lastPairEq := by
  simpa using congrArg Prod.snd (buildLevels_eq Hash leaves [] false)

theorem levels_eq_cons (l : List Uint256) : ∃ t, levels Hash l = l :: t := by
  rw [levels]
  split_ifs
  exacts [⟨_, rfl⟩, ⟨[], rfl⟩]

theorem getLastD_levels (l : List Uint256) : (levels Hash l).flatten.getLastD 0 = levelRoot Hash l := by
  induction l using levels.induct Hash with
  | case1 l hl ih =>
    rw [levels, if_pos hl, levelRoot, if_pos hl, List.flatten_cons, ← ih]
    have hne : (levels Hash (nextLevel Hash l)).flatten ≠ [] := by
      obtain ⟨t, ht⟩ := levels_eq_cons Hash (nextLevel Hash l)
      have : nextLevel Hash l ≠ [] := List.ne_nil_of_length_pos (by rw [length_nextLevel]; omega)
      simp [ht, this]
    rw [List.getLastD_eq_getLast?, List.getLastD_eq_getLast?, List.getLast?_append, List.getLast?_eq_getLast _ hne]
    rfl
  | case2 l hl =>
    rw [levels, if_neg hl, levelRoot, if_neg hl]
    match l, hl with
    | [], _ => rfl
    | [_], _ => rfl
    | _ :: _ :: _, hl => simp at hl

theorem BuildMerkleTree_root (leaves : List Uint256) : (BuildMerkleTree Hash leaves).root = levelRoot Hash leaves := by
  rw [← getLastD_levels, ← BuildMerkleTree_vMerkleTree]
  rfl

/-! ## Branches -/

/-- `GetMerkleBranch`'s loop reads the vector at `branchPositions`. -/
theorem branchLevels_eq_map (v : List Uint256) (i j nSize : Nat) :
    branchLevels v i j nSize = (branchPositions i j nSize).map (fun p => v.getD p 0) := by
  induction i, j, nSize using branchPositions.induct with
  | case1 i j nSize h ih => rw [branchLevels, if_pos h, branchPositions, if_pos h, ih, List.map_cons]
  | case2 i j nSize h => rw [branchLevels, if_neg h, branchPositions, if_neg h, List.map_nil]

theorem branchLevels_levels (l pre : List Uint256) (i : Nat) :
    branchLevels (pre ++ (levels Hash l).flatten) i pre.length l.length = levelBranch Hash l i := by
  induction l using levels.induct Hash generalizing pre i with
  | case1 l hl ih =>
    rw [branchLevels, if_pos hl, levelBranch, if_pos hl, levels, if_pos hl, List.flatten_cons, ← List.append_assoc,
      getD_mid pre l _ (by omega), ← length_nextLevel, show pre.length + l.length = (pre ++ l).length by simp,
      Nat.shiftRight_eq_div_pow, pow_one, ih]
  | case2 l hl => rw [branchLevels, if_neg hl, levelBranch, if_neg hl]

theorem GetMerkleBranch_BuildMerkleTree (leaves : List Uint256) (i : Nat) :
    GetMerkleBranch i leaves.length (BuildMerkleTree Hash leaves).vMerkleTree = levelBranch Hash leaves i := by
  rw [BuildMerkleTree_vMerkleTree]
  exact branchLevels_levels Hash leaves [] i

/-- Every position `GetMerkleBranch` reads at the level of `l` starting at `j` lies before the end of the levels. -/
theorem branchPositions_lt (l : List Uint256) (i j : Nat) :
    ∀ p ∈ branchPositions i j l.length, p < j + (levels Hash l).flatten.length := by
  induction l using levels.induct Hash generalizing i j with
  | case1 l hl ih =>
    rw [branchPositions, if_pos hl, levels, if_pos hl, List.flatten_cons, List.length_append]
    intro p hp
    rcases List.mem_cons.mp hp with rfl | hp
    · omega
    · have := ih (i >>> 1) (j + l.length) p (by rwa [length_nextLevel])
      omega
  | case2 l hl => simp [branchPositions, hl]

/-! ## Folding a branch -/

/-- Folding leaf `i`'s branch climbs the levels to the root. -/
theorem checkBranch_levelBranch (l : List Uint256) (i : Nat) (hi : i < l.length) :
    checkBranch Hash (l.getD i 0) (levelBranch Hash l i) i = levelRoot Hash l := by
  induction l using levels.induct Hash generalizing i with
  | case1 l hl ih =>
    rw [levelBranch, if_pos hl, levelRoot, if_pos hl, checkBranch, hash_sibling Hash l hi]
    exact ih (i / 2) (by rw [length_nextLevel]; omega)
  | case2 l hl =>
    rw [levelBranch, if_neg hl, levelRoot, if_neg hl, checkBranch]
    obtain rfl : i = 0 := by omega
    cases l <;> rfl

/-- `SafeCheckMerkleBranch`'s loop either rejects or computes what `CheckMerkleBranch`'s loop computes. -/
theorem safeCheckBranch_eq : ∀ (hash : Uint256) (branch : List Uint256) (n : Int),
    safeCheckBranch Hash hash branch n = none ∨
      safeCheckBranch Hash hash branch n = some (checkBranch Hash hash branch n)
  | _, [], _ => Or.inr rfl
  | hash, it :: rest, n => by
    simp only [safeCheckBranch, checkBranch]
    split_ifs
    · exact Or.inl rfl
    · exact safeCheckBranch_eq _ rest _
    · exact safeCheckBranch_eq _ rest _

/-- On a tree whose levels have no duplicates, no right step of a genuine branch meets a sibling equal to the running
hash, so `SafeCheckMerkleBranch`'s loop never rejects it. -/
theorem safeCheckBranch_levelBranch (hH : Function.Injective2 Hash) (l : List Uint256) (hl : l.Nodup) (i : Nat)
    (hi : i < l.length) : safeCheckBranch Hash (l.getD i 0) (levelBranch Hash l i) i = some (levelRoot Hash l) := by
  induction l using levels.induct Hash generalizing i with
  | case1 l hlen ih =>
    have hstep := hash_sibling Hash l hi
    have hnext : i / 2 < (nextLevel Hash l).length := by rw [length_nextLevel]; omega
    rw [levelBranch, if_pos hlen, levelRoot, if_pos hlen, safeCheckBranch]
    by_cases hodd : i % 2 = 1
    · have hne : l.getD (min (i ^^^ 1) (l.length - 1)) 0 ≠ l.getD i 0 := by
        rw [sibling_of_odd hi hodd, List.getD_eq_getElem _ _ (by omega), List.getD_eq_getElem _ _ hi]
        exact fun h => (by omega : i - 1 ≠ i) ((List.Nodup.getElem_inj_iff hl).mp h)
      rw [if_pos (by omega)] at hstep ⊢
      rw [if_neg hne, hstep]
      exact ih (nodup_nextLevel Hash hH hl) (i / 2) hnext
    · rw [if_neg (by omega)] at hstep ⊢
      rw [hstep]
      exact ih (nodup_nextLevel Hash hH hl) (i / 2) hnext
  | case2 l hlen =>
    rw [levelBranch, if_neg hlen, levelRoot, if_neg hlen, safeCheckBranch]
    obtain rfl : i = 0 := by omega
    cases l <;> rfl

end VerusCoin
