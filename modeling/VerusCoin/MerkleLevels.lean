import Mathlib.Data.Nat.Log
import VerusCoin.Merkle

/-!
# The Merkle tree level by level

The abstract tree: a list of levels, each obtained from the one below by `nextLevel`, which pairs neighbours and an odd
level's last node with itself. `BuildMerkleTree`'s vector is these levels concatenated, its flag says that some level
ends in two identical hashes, and `GetMerkleBranch` reads the sibling of the leaf's ancestor at each level.
-/

namespace VerusCoin

section

variable (Hash : Uint256 → Uint256 → Uint256)

/-- One round of hashing: neighbours paired, an odd level's last node with itself. -/
def nextLevel : List Uint256 → List Uint256
  | a :: b :: rest => Hash a b :: nextLevel rest
  | [a] => [Hash a a]
  | [] => []

theorem length_nextLevel : ∀ l : List Uint256, (nextLevel Hash l).length = (l.length + 1) / 2
  | _ :: _ :: rest => by simp only [nextLevel, List.length_cons, length_nextLevel rest]; omega
  | [_] => by simp [nextLevel]
  | [] => by simp [nextLevel]

/-- Node `k` of the next level hashes nodes `2k` and `min(2k + 1, size - 1)` of this one. -/
theorem nextLevel_getD : ∀ (l : List Uint256) (k : Nat), 2 * k < l.length →
    (nextLevel Hash l).getD k 0 = Hash (l.getD (2 * k) 0) (l.getD (min (2 * k + 1) (l.length - 1)) 0)
  | _ :: _ :: _, 0, _ => by simp [nextLevel]
  | a :: b :: rest, k + 1, h => by
    have hk : 2 * k < rest.length := by simp only [List.length_cons] at h; omega
    have hmin : min (2 * (k + 1) + 1) ((a :: b :: rest).length - 1) = min (2 * k + 1) (rest.length - 1) + 1 + 1 := by
      simp only [List.length_cons]; omega
    rw [hmin, show 2 * (k + 1) = 2 * k + 1 + 1 by omega]
    simp only [nextLevel, List.getD_cons_succ]
    exact nextLevel_getD rest k hk
  | [_], 0, _ => by simp [nextLevel]
  | [_], _ + 1, h => by simp only [List.length_singleton] at h; omega
  | [], _, h => by simp only [List.length_nil] at h; omega

/-- Every node of the next level is a hash whose left input is a node of this level. -/
theorem exists_of_mem_nextLevel : ∀ {l : List Uint256} {z : Uint256}, z ∈ nextLevel Hash l → ∃ x ∈ l, ∃ y, z = Hash x y
  | a :: b :: rest, z, h => by
    rcases List.mem_cons.mp h with rfl | h
    · exact ⟨a, by simp, b, rfl⟩
    · obtain ⟨x, hx, y, rfl⟩ := exists_of_mem_nextLevel h
      exact ⟨x, by simp [hx], y, rfl⟩
  | [a], z, h => ⟨a, by simp, a, by simpa [nextLevel] using h⟩
  | [], _, h => by simp [nextLevel] at h

/-- With an injective `Hash`, a level without duplicates hashes to a level without duplicates. -/
theorem nodup_nextLevel (hH : Function.Injective2 Hash) : ∀ {l : List Uint256}, l.Nodup → (nextLevel Hash l).Nodup
  | a :: b :: rest, h => by
    have ha : a ∉ rest := fun hm => (List.nodup_cons.mp h).1 (List.mem_cons_of_mem b hm)
    refine List.nodup_cons.mpr ⟨fun hm => ?_, nodup_nextLevel hH h.of_cons.of_cons⟩
    obtain ⟨x, hx, y, hxy⟩ := exists_of_mem_nextLevel Hash hm
    exact ha ((hH hxy).1 ▸ hx)
  | [_], _ => by simp [nextLevel]
  | [], _ => by simp [nextLevel]

/-- The levels of the tree over `l`, leaves first, the root's level last. -/
def levels (l : List Uint256) : List (List Uint256) :=
  if 1 < l.length then l :: levels (nextLevel Hash l) else [l]
termination_by l.length
decreasing_by rw [length_nextLevel]; omega

/-- The root: the node of the last level (`uint256()` for no leaves). -/
def levelRoot (l : List Uint256) : Uint256 :=
  if 1 < l.length then levelRoot (nextLevel Hash l) else l.headD 0
termination_by l.length
decreasing_by rw [length_nextLevel]; omega

/-- A level of even size whose last two hashes are identical: the case `BuildMerkleTree` flags. -/
def lastPairEq : List Uint256 → Bool
  | a :: b :: rest => (rest.isEmpty && a == b) || lastPairEq rest
  | _ => false

/-- With an injective `Hash`, a level of two nodes or more hashes to the next level of a single node only when it is
that node paired with itself. -/
theorem lastPairEq_of_nextLevel_eq_singleton (hH : Function.Injective2 Hash) {a a' b' : Uint256}
    {rest : List Uint256} (h : nextLevel Hash [a] = nextLevel Hash (a' :: b' :: rest)) :
    lastPairEq (a' :: b' :: rest) = true := by
  simp only [nextLevel, List.cons.injEq] at h
  obtain ⟨rfl, rfl⟩ := hH h.1
  have : rest = [] := by
    cases rest with
    | nil => rfl
    | cons c t => cases t <;> simp [nextLevel] at h
  simp [lastPairEq, this]

/-- With an injective `Hash`, two levels hash to the same next level only if they are equal or one of them ends in
two identical hashes. -/
theorem eq_of_nextLevel_eq (hH : Function.Injective2 Hash) : ∀ {l l' : List Uint256},
    nextLevel Hash l = nextLevel Hash l' → l = l' ∨ lastPairEq l = true ∨ lastPairEq l' = true
  | a :: b :: rest, a' :: b' :: rest', h => by
    simp only [nextLevel, List.cons.injEq] at h
    obtain ⟨rfl, rfl⟩ := hH h.1
    rcases eq_of_nextLevel_eq hH h.2 with rfl | hr | hr <;> simp [lastPairEq, *]
  | [a], [a'], h => by
    simp only [nextLevel, List.cons.injEq, and_true] at h
    simp [(hH h).1]
  | [_], _ :: _ :: _, h => .inr (.inr (lastPairEq_of_nextLevel_eq_singleton Hash hH h))
  | _ :: _ :: _, [_], h => .inr (.inl (lastPairEq_of_nextLevel_eq_singleton Hash hH h.symm))
  | [], [], _ => Or.inl rfl
  | [], _ :: _, h | _ :: _, [], h => by
    have := congrArg List.length h
    simp only [length_nextLevel, List.length_cons, List.length_nil] at this
    omega

/-- The branch of leaf `i`: at each level the node `min(i ^ 1, size - 1)`, the ancestor's sibling. -/
def levelBranch (l : List Uint256) (i : Nat) : List Uint256 :=
  if 1 < l.length then l.getD (min (i ^^^ 1) (l.length - 1)) 0 :: levelBranch (nextLevel Hash l) (i / 2) else []
termination_by l.length
decreasing_by rw [length_nextLevel]; omega

/-- A branch has one sibling per hashing round: `ceil(log2 size)` of them. -/
theorem length_levelBranch (l : List Uint256) (i : Nat) : (levelBranch Hash l i).length = Nat.clog 2 l.length := by
  induction l using levels.induct Hash generalizing i with
  | case1 l hl ih =>
    rw [levelBranch, if_pos hl, List.length_cons, ih, length_nextLevel, Nat.clog_of_two_le (by omega) hl]
    rfl
  | case2 l hl =>
    rw [levelBranch, if_neg hl, Nat.clog_of_right_le_one (by omega)]
    rfl

/-- With an injective `Hash`, two different nonempty leaf lists of the same depth and the same root have, one of them,
a level ending in two identical hashes: the collisions of the duplicated last node are the only ones. -/
theorem any_lastPairEq_of_levelRoot_eq (hH : Function.Injective2 Hash) (L L' : List Uint256) (hL : L ≠ [])
    (hL' : L' ≠ []) (hne : L ≠ L') (hdepth : Nat.clog 2 L.length = Nat.clog 2 L'.length)
    (hroot : levelRoot Hash L = levelRoot Hash L') :
    (levels Hash L).any lastPairEq = true ∨ (levels Hash L').any lastPairEq = true := by
  induction L using levels.induct Hash generalizing L' with
  | case1 L h1 ih =>
    have h1' : 1 < L'.length := by
      by_contra h
      rw [Nat.clog_of_right_le_one (by omega : L'.length ≤ 1) 2, Nat.clog_of_two_le (by omega) h1] at hdepth
      omega
    have hnext : ∀ l : List Uint256, 1 < l.length → nextLevel Hash l ≠ [] := fun l hl =>
      List.ne_nil_of_length_pos (by rw [length_nextLevel]; omega)
    rw [levelRoot.eq_1 Hash L, if_pos h1, levelRoot.eq_1 Hash L', if_pos h1'] at hroot
    rw [levels.eq_1 Hash L, if_pos h1, levels.eq_1 Hash L', if_pos h1', List.any_cons, List.any_cons]
    by_cases heq : nextLevel Hash L = nextLevel Hash L'
    · rcases eq_of_nextLevel_eq Hash hH heq with h | h | h
      · exact absurd h hne
      · simp [h]
      · simp [h]
    · have hd : Nat.clog 2 (nextLevel Hash L).length = Nat.clog 2 (nextLevel Hash L').length := by
        rw [Nat.clog_of_two_le (by omega) h1, Nat.clog_of_two_le (by omega) h1'] at hdepth
        rw [length_nextLevel, length_nextLevel]
        exact Nat.succ_injective hdepth
      rcases ih (nextLevel Hash L') (hnext L h1) (hnext L' h1') heq hd hroot with h | h <;> simp [h]
  | case2 L h1 =>
    obtain ⟨a, rfl⟩ := List.length_eq_one.mp (show L.length = 1 by have := List.length_pos.mpr hL; omega)
    have h1' : L'.length ≤ 1 := by
      by_contra h
      rw [Nat.clog_of_two_le (by omega) (by omega : 2 ≤ L'.length), List.length_singleton, Nat.clog_one_right] at hdepth
      omega
    obtain ⟨a', rfl⟩ := List.length_eq_one.mp (show L'.length = 1 by have := List.length_pos.mpr hL'; omega)
    simp only [levelRoot.eq_1 Hash [a], levelRoot.eq_1 Hash [a'], List.length_singleton, lt_self_iff_false, if_false,
      List.headD_cons] at hroot
    exact absurd (by rw [hroot]) hne

end

end VerusCoin
