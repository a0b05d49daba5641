import Mathlib.Algebra.Order.BigOperators.Group.List
import Mathlib.Algebra.Order.Ring.Nat
import VerusCoin.Lemmas.Counters
import VerusCoin.Theorems.Remove

/-!
# Counter coherence

`totalTxSize` and `cachedInnerUsage` equal the sums `check()` recomputes in `uint64`, and the integer sums whenever
those stay below `2^64`, so `remove` never subtracts more than the total holds; `nTransactionsUpdated` counts the
structural changes of every run.
-/

namespace VerusCoin

open CTxMemPool

theorem run_updates {s₀ s : CTxMemPool} {ops : List Op} (h : Op.Run s₀ ops s) :
    s.nTransactionsUpdated.toNat = (s₀.nTransactionsUpdated.toNat + Op.updates s₀ ops) % 2 ^ 32 := by
  induction ops generalizing s₀ with
  | nil =>
    rw [show s = s₀ from h, Op.updates, Nat.add_zero]
    exact (Nat.mod_eq_of_lt (UInt32.toNat_lt_size _)).symm
  | cons op ops ih =>
    obtain ⟨-, s₁, happ, hrun⟩ := h
    have h₁ := counted_step happ
    simp only [ih hrun, Op.updates, happ, h₁]
    omega

/-- A `uint64` sum is the integer sum when that is below `2^64`. -/
theorem UInt64.toNat_sum_of_lt : ∀ l : List UInt64, (l.map UInt64.toNat).sum < 2 ^ 64 →
    l.sum.toNat = (l.map UInt64.toNat).sum
  | [], _ => rfl
  | x :: t, h => by
    rw [List.map_cons, List.sum_cons] at h
    rw [List.sum_cons, List.map_cons, List.sum_cons, show (x + t.sum).toNat = (x.toNat + t.sum.toNat) % 2 ^ 64 from rfl,
      UInt64.toNat_sum_of_lt t (by omega), Nat.mod_eq_of_lt h]

/-- A total kept as the `uint64` sum of a field over the entries is the integer sum when that is below `2^64`, and is
then at least the field of each entry: subtracting an entry's field, as `remove` does, does not wrap. -/
theorem toNat_total_of_lt {l : List CTxMemPoolEntry} {f : CTxMemPoolEntry → UInt64} {total : UInt64}
    (ht : total = (l.map f).sum) (hb : (l.map fun e => (f e).toNat).sum < 2 ^ 64) :
    total.toNat = (l.map fun e => (f e).toNat).sum ∧ ∀ e ∈ l, (f e).toNat ≤ total.toNat := by
  have hsum : total.toNat = (l.map fun e => (f e).toNat).sum := by
    rw [ht, UInt64.toNat_sum_of_lt _ (by rwa [List.map_map]), List.map_map]
    rfl
  exact ⟨hsum, fun e he => hsum ▸ List.le_sum_of_mem (List.mem_map_of_mem (fun e => (f e).toNat) he)⟩

/-- In every reachable pool `totalTxSize` and `cachedInnerUsage` are the `uint64` sums of the entries' sizes and
memory usages; when the integer sum is below `2^64`, as the serialized sizes of transactions held in memory always are,
the total is that integer sum and at least each pooled entry's part, so `remove`'s subtractions never wrap below zero.
Over every run of allowed calls `nTransactionsUpdated` advances by exactly one per `addUnchecked` and per `clear()`,
`n` per `AddTransactionsUpdated(n)`, and one per transaction a removal erases, modulo `2^32`. -/
theorem counter_coherence :
    (∀ s : CTxMemPool, Op.Reachable s → s.TotalsExact ∧
      ((s.mapTx.entries.map fun e => e.nTxSize.toNat).sum < 2 ^ 64 →
        s.totalTxSize.toNat = (s.mapTx.entries.map fun e => e.nTxSize.toNat).sum ∧
          ∀ e ∈ s.mapTx.entries, e.nTxSize.toNat ≤ s.totalTxSize.toNat) ∧
      ((s.mapTx.entries.map fun e => e.nUsageSize.toNat).sum < 2 ^ 64 →
        s.cachedInnerUsage.toNat = (s.mapTx.entries.map fun e => e.nUsageSize.toNat).sum ∧
          ∀ e ∈ s.mapTx.entries, e.nUsageSize.toNat ≤ s.cachedInnerUsage.toNat)) ∧
      ∀ (s₀ : CTxMemPool) (ops : List Op) (s : CTxMemPool), Op.Run s₀ ops s →
        s.nTransactionsUpdated.toNat = (s₀.nTransactionsUpdated.toNat + Op.updates s₀ ops) % 2 ^ 32 := by
  refine ⟨fun s h => ?_, fun _ _ _ h => run_updates h⟩
  have ht := TotalsExact.of_reachable h
  exact ⟨ht, toNat_total_of_lt ht.1, toNat_total_of_lt ht.2⟩

/-- The reachable pool holding `parentTx` and its child, whose sizes sum to far below `2^64`. -/
theorem counter_coherence_familyPool : Op.Reachable familyPool ∧
    (familyPool.mapTx.entries.map fun e => e.nTxSize.toNat).sum < 2 ^ 64 ∧
    familyPool.totalTxSize.toNat = (familyPool.mapTx.entries.map fun e => e.nTxSize.toNat).sum ∧
    ∀ e ∈ familyPool.mapTx.entries, e.nTxSize.toNat ≤ familyPool.totalTxSize.toNat :=
  have hs : Op.Reachable familyPool := ⟨false, false, _, run_familyPool⟩
  have hb : (familyPool.mapTx.entries.map fun e => e.nTxSize.toNat).sum < 2 ^ 64 := by decide
  ⟨hs, hb, (counter_coherence.1 familyPool hs).2.1 hb⟩

end VerusCoin
