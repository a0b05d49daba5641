import VerusCoin.Check
import VerusCoin.Lemmas.Counters
import VerusCoin.Lemmas.PruneSpent
import VerusCoin.Lemmas.StaleEntries
import VerusCoin.Theorems.Remove

/-!
# The assertions of `check()` after its replay

In a map whose keys are in strictly increasing order, `find` returns every entry under its key
(`Ordered.find_of_mem`), so the loops of `check()` over `mapNextTx` and over the nullifier indexes read exactly the
entries the invariants speak of. Every reachable pool keeps these indexes in key order. With the pool invariant, the
loop over `mapNextTx` and the totals pass in every reachable state; `checkNullifiers` passes in every state a run
without `clear()` reaches (`clear()` leaves the nullifier indexes stale).
-/

namespace VerusCoin

namespace StdMap

variable {K V : Type} [DecidableEq K] [Ord K]

/-- In a map in strictly increasing key order, `find` returns every entry under its key. -/
theorem Ordered.find_of_mem (hirr : ∀ a : K, compare a a ≠ .lt) {m : StdMap K V} (hm : m.Ordered) {p : K × V}
    (hp : p ∈ m.entries) : m.find p.1 = some p.2 := by
  obtain ⟨l⟩ := m
  simp only [Ordered, find] at hm hp ⊢
  induction l with
  | nil => cases hp
  | cons q l ih =>
    rw [List.pairwise_cons] at hm
    rcases List.mem_cons.1 hp with rfl | hp
    · simp
    · have hne : q.1 ≠ p.1 := fun h => hirr p.1 (h ▸ hm.1 p hp)
      simpa [List.find?_cons, hne] using ih hm.2 hp

end StdMap

theorem Uint256.compare_lt_irrefl (a : Uint256) : compare a a ≠ .lt := by simp [Nat.compare_eq_lt]

theorem COutPoint.compare_lt_irrefl (o : COutPoint) : compare o o ≠ .lt := by
  simp [COutPoint.compare_eq_lt]

namespace CTxMemPool

variable {s : CTxMemPool}

/-- Both nullifier indexes are in key order. -/
def NullifiersOrdered (s : CTxMemPool) : Prop := s.mapSproutNullifiers.Ordered ∧ s.mapSaplingNullifiers.Ordered

theorem nullifiersOrdered_removalClosed : RemovalClosed NullifiersOrdered :=
  ⟨fun s h e hs _ => by simpa [NullifiersOrdered] using ⟨hs.1.eraseAll _, hs.2.eraseAll _⟩, fun _ _ hs => hs⟩

theorem nullifiersOrdered_addUnchecked (h : s.NullifiersOrdered) (hash : Uint256) (entry : CTxMemPoolEntry) :
    (s.addUnchecked hash entry).NullifiersOrdered := by
  have htrans : ∀ a b c : Uint256, compare a b = .lt → compare b c = .lt → compare a c = .lt := by
    simp only [Nat.compare_eq_lt]
    exact fun _ _ _ => Nat.lt_trans
  have htotal : ∀ a b : Uint256, a ≠ b → compare a b ≠ .lt → compare b a = .lt := fun a b hne hlt => by
    rw [Ne, Nat.compare_eq_lt] at hlt
    exact Nat.compare_eq_lt.2 (Nat.lt_of_le_of_ne (Nat.le_of_not_lt hlt) (Ne.symm hne))
  exact ⟨h.1.insertAll htrans htotal _, h.2.insertAll htrans htotal _⟩

/-- Every reachable pool keeps both nullifier indexes in key order. -/
theorem nullifiersOrdered_of_reachable (h : Op.Reachable s) : s.NullifiersOrdered := by
  refine @Op.Reachable.induction NullifiersOrdered (fun _ _ => ⟨List.Pairwise.nil, List.Pairwise.nil⟩)
    (fun s op s' hs ha happ => ?_) _ h
  rcases step_cases ha happ with ⟨_, _, -, rfl⟩ | hrem | ⟨-, rfl⟩ | hb
  · exact nullifiersOrdered_addUnchecked hs _ _
  · exact hrem _ nullifiersOrdered_removalClosed hs
  · exact hs
  · rw [NullifiersOrdered, hb.same.sprout, hb.same.sapling]
    exact hs

/-- Under the pool invariant, with `mapNextTx` in key order, the loop over `mapNextTx` passes. -/
theorem checkNextTx_eq_true (hinv : s.PoolInv) (hord : s.mapNextTx.Ordered) : s.checkNextTx = true := by
  refine List.all_eq_true.2 fun p hp => ?_
  obtain ⟨hpool, hn, hin⟩ := hinv.sound p.1 p.2 (hord.find_of_mem COutPoint.compare_lt_irrefl hp)
  obtain ⟨e, he, hetx⟩ := Option.map_eq_some'.1 hpool
  simp [he, hetx, List.getElem?_eq_getElem hn, hin]

/-- With no stale nullifier entry and the nullifier indexes in key order, `checkNullifiers` passes. -/
theorem checkNullifiers_eq_true (hsound : s.NullifiersSound) (hord : s.NullifiersOrdered) (type : ShieldedType) :
    s.checkNullifiers type = true := by
  have hpooled : ∀ tx, s.Pooled tx → (s.mapTx.find tx.hash).any (·.tx == tx) = true := fun tx hpool => by
    obtain ⟨e, he, hetx⟩ := Option.map_eq_some'.1 hpool
    simp [he, hetx]
  refine List.all_eq_true.2 fun p hp => ?_
  cases type
  · exact hpooled _ (hsound.1 _ _ (hord.1.find_of_mem Uint256.compare_lt_irrefl hp)).1
  · exact hpooled _ (hsound.2 _ _ (hord.2.find_of_mem Uint256.compare_lt_irrefl hp)).1

end CTxMemPool

open CTxMemPool

/-- For every run without `clear()` from a freshly constructed pool, the assertions `check()` makes after its replay
pass: every `mapNextTx` entry names the transaction pooled under its hash and an input of it that spends the key,
every entry of either nullifier index names the transaction pooled under its hash, and the totals are the `uint64`
sums over `mapTx`. -/
theorem check_after_replay_passes {fAddressIndex fSpentIndex : Bool} {ops : List Op} {s : CTxMemPool}
    (hrun : Op.Run (CTxMemPool.empty fAddressIndex fSpentIndex) ops s) (hclear : ∀ op ∈ ops, op ≠ .clear) :
    s.checkAfterReplay = true := by
  have hr : Op.Reachable s := ⟨_, _, _, hrun⟩
  have hsound := NullifiersSound.of_run hrun hclear (NullifiersSound.empty _ _)
  have ht := TotalsExact.of_reachable hr
  simp only [checkAfterReplay, checkNextTx_eq_true (PoolInv.of_reachable hr) (nextTxOrdered_of_reachable hr),
    checkNullifiers_eq_true hsound (nullifiersOrdered_of_reachable hr), ht.1, ht.2, beq_self_eq_true, Bool.and_self]

/-- On the reachable pool holding `parentTx` and its child, `check()`'s assertions after the replay pass. -/
theorem check_after_replay_familyPool :
    Op.Run (CTxMemPool.empty false false) [.addUnchecked 20 (entryOf parentTx), .addUnchecked 21 (entryOf childTx)]
      familyPool ∧ familyPool.checkAfterReplay = true :=
  ⟨run_familyPool, check_after_replay_passes run_familyPool (by simp)⟩

end VerusCoin
