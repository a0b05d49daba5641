import VerusCoin.Lemmas.Conflicts
import VerusCoin.Lemmas.StaleEntries
import VerusCoin.Theorems.Indexes
import VerusCoin.Theorems.Remove

/-!
# What `removeConflicts` erases

In a pool satisfying `PoolInv` whose nullifier indexes name only pooled transactions revealing the nullifier,
`removeConflicts(tx)` erases exactly the descendants of the conflicts of `tx`, appends each of them once, and leaves no
pooled transaction of another hash sharing an outpoint (coin imports aside) or a nullifier with `tx`. Every state a run
without `clear()` reaches is such a pool.

After `clear()` it is not: `clear()` empties `mapTx` but leaves the nullifier indexes, whose entries still point at the
transactions of the destroyed entries. `removeConflicts` then follows such an entry (`*it->second`): the source reads
freed memory there, and the model, which keeps the transaction an index entry names by value, reads the transaction
that was pooled before `clear()` and removes its pooled children, which conflict with nothing. No theorem here reads
through a stale entry except the one that exhibits this state.
-/

namespace VerusCoin

open CTxMemPool

/-- In a pool satisfying `PoolInv` with no stale nullifier entry, for every `tx`: `removeConflicts(tx, removed)`
appends the descendants of the conflicts of `tx`, each once, erases exactly those from `mapTx`, and leaves no pooled
transaction of another hash sharing an outpoint (coin imports aside) or a nullifier with `tx`. -/
theorem removeConflicts_erases_conflict_descendants (s : CTxMemPool) (hinv : s.PoolInv) (hsound : s.NullifiersSound)
    (tx : CTransaction) (removed : List CTransaction) :
    ∃ ds, (s.removeConflicts tx removed).2 = removed ++ ds ∧ ds.Nodup ∧
      (∀ c, c ∈ ds ↔ ∃ C, s.ConflictOf tx C ∧ s.Descendant C c) ∧
      (s.removeConflicts tx removed).1.mapTx.entries = s.mapTx.entries.filter (fun e => e.tx ∉ ds) ∧
      ∀ C, (s.removeConflicts tx removed).1.Pooled C → C.hash ≠ tx.hash → ¬ SharesWith tx C := by
  obtain ⟨es, h, hr, hiff, -⟩ :=
    removeConflicts_spec hinv hsound (ErasedFrom.start s) tx removed (by simp [ClosedWithin])
  rw [List.nil_append] at h
  refine ⟨es.map (·.tx), hr, List.Nodup.of_map CTransaction.hash (by rw [List.map_map]; exact h.nodup),
    fun c => by simpa using hiff c, h.entries, fun C hC hne hsh => ?_⟩
  obtain ⟨hC₀, hCX⟩ := h.pooled_iff.1 hC
  exact hCX ((hiff C).2 ⟨by simp, C, ⟨hC₀, hne, hsh⟩, hC₀, by rw [rootOf_of_pooled hC₀]⟩)

/-- Every state a run without `clear()` reaches from a fresh pool, for every `tx`: `removeConflicts(tx, removed)`
appends the descendants of the conflicts of `tx`, each once, erases exactly those from `mapTx`, and leaves no pooled
transaction of another hash sharing an outpoint (coin imports aside) or a nullifier with `tx`. -/
theorem removeConflicts_without_clear {fA fS : Bool} {ops : List Op} {s : CTxMemPool}
    (h : Op.Run (CTxMemPool.empty fA fS) ops s) (hclear : ∀ op ∈ ops, op ≠ .clear)
    (tx : CTransaction) (removed : List CTransaction) :
    ∃ ds, (s.removeConflicts tx removed).2 = removed ++ ds ∧ ds.Nodup ∧
      (∀ c, c ∈ ds ↔ ∃ C, s.ConflictOf tx C ∧ s.Descendant C c) ∧
      (s.removeConflicts tx removed).1.mapTx.entries = s.mapTx.entries.filter (fun e => e.tx ∉ ds) ∧
      ∀ C, (s.removeConflicts tx removed).1.Pooled C → C.hash ≠ tx.hash → ¬ SharesWith tx C :=
  removeConflicts_erases_conflict_descendants s (PoolInv.of_reachable ⟨fA, fS, ops, h⟩)
    (NullifiersSound.of_run h hclear (NullifiersSound.empty fA fS)) tx removed

/-- A transaction spending the output of `parentTx`, as `childTx` does. -/
def rivalTx : CTransaction := ⟨25, [⟨⟨20, 0⟩⟩], [⟨3, []⟩], [], [], false, false⟩

/-- `removeConflicts(rivalTx)` on the pool a run without `clear()` reaches holding `parentTx` and its child. -/
theorem removeConflicts_without_clear_familyPool :
    Op.Run (CTxMemPool.empty false false) [.addUnchecked 20 (entryOf parentTx), .addUnchecked 21 (entryOf childTx)]
      familyPool ∧
    (∀ op ∈ [Op.addUnchecked 20 (entryOf parentTx), .addUnchecked 21 (entryOf childTx)], op ≠ .clear) ∧
    ∃ ds, (familyPool.removeConflicts rivalTx []).2 = [] ++ ds ∧ ds.Nodup ∧
      (∀ c, c ∈ ds ↔ ∃ C, familyPool.ConflictOf rivalTx C ∧ familyPool.Descendant C c) ∧
      (familyPool.removeConflicts rivalTx []).1.mapTx.entries = familyPool.mapTx.entries.filter (fun e => e.tx ∉ ds) ∧
      ∀ C, (familyPool.removeConflicts rivalTx []).1.Pooled C → C.hash ≠ rivalTx.hash → ¬ SharesWith rivalTx C :=
  ⟨run_familyPool, by simp, removeConflicts_without_clear run_familyPool (by simp) rivalTx []⟩

/-- A transaction spending the output of `sampleTx`. -/
def orphanTx : CTransaction := ⟨26, [⟨⟨10, 0⟩⟩], [⟨2, []⟩], [], [], false, false⟩

/-- A transaction revealing the Sprout nullifier `7` of `sampleTx`, with no input. -/
def nullifierTx : CTransaction := ⟨27, [], [], [⟨3, [7], []⟩], [], false, false⟩

/-- `sampleTx` pooled, the pool cleared, then `orphanTx` pooled. -/
def stalePool : CTxMemPool :=
  ((CTxMemPool.empty false false).addUnchecked 10 sampleEntry).clear.addUnchecked 26 (entryOf orphanTx)

theorem run_stalePool : Op.Run (CTxMemPool.empty false false)
    [.addUnchecked 10 sampleEntry, .clear, .addUnchecked 26 (entryOf orphanTx)] stalePool := by
  refine ⟨run_add_sample.1, _, rfl, trivial, _, rfl, ⟨rfl, rfl, by decide, ?_, ?_, ?_⟩, _, rfl, rfl⟩ <;>
    simp [CTxMemPool.clear, TxSet.empty]

/-- The recursive `remove(sampleTx)` on `stalePool`: `sampleTx` is not pooled, so its pooled spender is queued. -/
theorem stalePool_remove_sample :
    stalePool.remove sampleTx [] true = (stalePool.eraseEntry 26 (entryOf orphanTx), [orphanTx]) := by
  have h10 : stalePool.mapTx.find 10 = none := rfl
  have h26 : stalePool.mapTx.find 26 = some (entryOf orphanTx) := rfl
  show stalePool.removeLoop true [10, 26] [] = _
  rw [removeLoop_cons_none true [26] [] h10, removeLoop_cons_some true [] [] h26, if_pos rfl,
    show stalePool.spenders 26 (entryOf orphanTx).tx.vout.length = [] from rfl, List.nil_append, List.nil_append,
    removeLoop_nil]
  rfl

theorem stalePool_entries : stalePool.mapTx.entries = [entryOf orphanTx] := rfl

/-- `orphanTx` is the one pooled transaction of `stalePool`. -/
theorem stalePool_pooled {T : CTransaction} : stalePool.Pooled T ↔ T = orphanTx := by
  rw [pooled_iff, stalePool_entries]
  simp [entryOf, eq_comm]

/-- The Sprout nullifier index of `stalePool` still names `sampleTx`, which `clear()` took out of `mapTx`. -/
theorem stalePool_stale_nullifier : stalePool.mapSproutNullifiers.find 7 = some sampleTx ∧ ¬ stalePool.Pooled sampleTx :=
  ⟨rfl, fun h => absurd (stalePool_pooled.1 h) (by decide)⟩

theorem stalePool_outputsExist : stalePool.OutputsExist := by
  intro e he p hp n hn
  rw [stalePool_entries, List.mem_singleton] at he hp
  subst he hp
  simp [entryOf, orphanTx, CTransaction.prevouts, CTxMemPoolEntry.GetHash] at hn

/-- `nullifierTx` shares no outpoint or nullifier with the one pooled transaction of `stalePool`. -/
theorem stalePool_no_conflict : ¬ ∃ C, stalePool.ConflictOf nullifierTx C := by
  rintro ⟨C, hC, -, hsh⟩
  rw [stalePool_pooled.1 hC] at hsh
  simp [SharesWith, orphanTx, nullifierTx, CTransaction.prevouts, CTransaction.sproutNullifiers,
    CTransaction.saplingNullifiers] at hsh

/-- `removeConflicts(nullifierTx)` on `stalePool` meets `sampleTx` at the stale nullifier entry `7` and removes it
recursively. -/
theorem stalePool_removeConflicts :
    stalePool.removeConflicts nullifierTx [] = (stalePool.eraseEntry 26 (entryOf orphanTx), [orphanTx]) := by
  show (if sampleTx.hash ≠ nullifierTx.hash then stalePool.remove sampleTx [] true else (stalePool, [])) = _
  rw [if_pos (by decide), stalePool_remove_sample]

/-- The pool `stalePool` is reached by a run through `clear()` and satisfies the closure invariant and the
output-index condition, but its Sprout nullifier index still names `sampleTx`, which is no longer pooled;
`nullifierTx` conflicts with none of its transactions, yet `removeConflicts(nullifierTx)` removes the pooled
`orphanTx`, the child of `sampleTx`, through that entry. -/
theorem removeConflicts_evicts_after_clear :
    Op.Run (CTxMemPool.empty false false) [.addUnchecked 10 sampleEntry, .clear, .addUnchecked 26 (entryOf orphanTx)]
        stalePool ∧
      stalePool.ClosureInv ∧ stalePool.OutputsExist ∧
      stalePool.mapSproutNullifiers.find 7 = some sampleTx ∧ ¬ stalePool.Pooled sampleTx ∧
      ¬ (∃ C, stalePool.ConflictOf nullifierTx C) ∧
      stalePool.Pooled orphanTx ∧ (stalePool.removeConflicts nullifierTx []).2 = [orphanTx] ∧
      ¬ (stalePool.removeConflicts nullifierTx []).1.Pooled orphanTx :=
  ⟨run_stalePool, (PoolInv.of_reachable ⟨false, false, _, run_stalePool⟩).closure, stalePool_outputsExist,
    stalePool_stale_nullifier.1, stalePool_stale_nullifier.2, stalePool_no_conflict, rfl,
    by rw [stalePool_removeConflicts],
    by rw [stalePool_removeConflicts, pooled_eraseEntry]; exact fun h => h.2 rfl⟩

/-- Every state a run without `clear()` reaches from a fresh pool satisfies the assumptions of `removeConflicts` and
`removeForBlock`: the invariant, and no stale nullifier entry. -/
theorem run_without_clear_sound {fA fS : Bool} {ops : List Op} {s : CTxMemPool}
    (h : Op.Run (CTxMemPool.empty fA fS) ops s) (hclear : ∀ op ∈ ops, op ≠ .clear) : s.PoolInv ∧ s.NullifiersSound :=
  ⟨PoolInv.of_reachable ⟨fA, fS, ops, h⟩, NullifiersSound.of_run h hclear (NullifiersSound.empty fA fS)⟩

/-- The run to `familyPool` makes no `clear()` call. -/
theorem familyPool_sound : (∀ op ∈ [Op.addUnchecked 20 (entryOf parentTx), .addUnchecked 21 (entryOf childTx)],
    op ≠ .clear) ∧ familyPool.PoolInv ∧ familyPool.NullifiersSound :=
  ⟨by simp, run_without_clear_sound run_familyPool (by simp)⟩

end VerusCoin
