import VerusCoin.Lemmas.Notify
import VerusCoin.Theorems.Remove

/-!
# Notifications: none lost, none repeated, and what `IsFullyNotified` promises

Along every run of calls without `clear()` from a freshly constructed pool, the batch `NotifyRecentlyAdded` hands to
the wallets is, in increasing hash order, exactly the pooled transactions that some call pooled since the last
notification: a transaction still pooled is never lost, one notified is not notified again unless it is pooled again,
and one removed before the notification is not notified. Along every run of the notifier thread interleaved with the
other calls in regtest, `nRecentlyAddedSequence` counts the transactions pooled, and when `IsFullyNotified()` answers
true nothing is pending, neither in `mapRecentlyAddedTx` nor in a batch the notifier holds, as long as fewer than
`2^64` transactions were pooled. A run of calls whose notifications are atomic is such a run, with the two critical
sections of each notification back to back (`NotifyEvent.run_flatMap_ofOp`).
-/

namespace VerusCoin

open CTxMemPool

/-- The batch of `NotifyRecentlyAdded`, in every state a run without `clear()` reaches, is in increasing hash order
(hence without repeats) and holds exactly the pooled transactions pooled since the last notification. -/
theorem notifyRecentlyAdded_exact {fA fS : Bool} {ops : List Op} {s : CTxMemPool}
    (hrun : Op.Run (CTxMemPool.empty fA fS) ops s) (hclear : ∀ op ∈ ops, op ≠ .clear) (regtest : Bool) :
    ((s.NotifyRecentlyAdded regtest).1.map CTransaction.hash).Pairwise (· < ·) ∧
      ∀ tx, tx ∈ (s.NotifyRecentlyAdded regtest).1 ↔ s.Pooled tx ∧ tx ∈ addedSinceNotify ops := by
  have hs : RecentExact ([] ++ ops) s := RecentExact.run hrun hclear (RecentExact.empty fA fS)
  rw [List.nil_append] at hs
  exact ⟨hs.batch_sorted regtest, hs.exact⟩

/-- `parentTx` pooled and notified in regtest, then `childTx` pooled. -/
def notifiedFamilyPool : CTxMemPool :=
  (((CTxMemPool.empty false false).addUnchecked 20 (entryOf parentTx)).NotifyRecentlyAdded true).2.addUnchecked 21
    (entryOf childTx)

theorem run_notifiedFamilyPool : Op.Run (CTxMemPool.empty false false)
    [.addUnchecked 20 (entryOf parentTx), .NotifyRecentlyAdded true, .addUnchecked 21 (entryOf childTx)]
    notifiedFamilyPool := by
  refine ⟨⟨rfl, rfl, by decide, ?_, ?_, ?_⟩, _, rfl, trivial, _, rfl, ⟨rfl, rfl, by decide, ?_, ?_, ?_⟩, _, rfl, rfl⟩ <;>
    simp [CTxMemPool.empty, TxSet.empty, CTxMemPool.addUnchecked, CTxMemPool.NotifyRecentlyAdded, TxSet.insert,
      TxSet.find, entryOf, parentTx, childTx, CTxMemPoolEntry.GetHash, CTransaction.prevouts,
      CTransaction.sproutNullifiers, CTransaction.saplingNullifiers]

theorem notifyRecentlyAdded_exact_notifiedFamily :
    (∀ op ∈ [Op.addUnchecked 20 (entryOf parentTx), .NotifyRecentlyAdded true, .addUnchecked 21 (entryOf childTx)],
      op ≠ .clear) ∧
    ((notifiedFamilyPool.NotifyRecentlyAdded true).1.map CTransaction.hash).Pairwise (· < ·) ∧
      ∀ tx, tx ∈ (notifiedFamilyPool.NotifyRecentlyAdded true).1 ↔ notifiedFamilyPool.Pooled tx ∧
        tx ∈ addedSinceNotify
          [.addUnchecked 20 (entryOf parentTx), .NotifyRecentlyAdded true, .addUnchecked 21 (entryOf childTx)] :=
  ⟨by simp, notifyRecentlyAdded_exact run_notifiedFamilyPool (by simp) true⟩

/-- The second notification delivers `childTx` alone: `parentTx`, still pooled, was notified by the first. -/
example : (notifiedFamilyPool.NotifyRecentlyAdded true).1 = [childTx] := by decide

/-- In regtest, along every run of the notifier interleaved with the other calls from a freshly constructed pool,
`nRecentlyAddedSequence` is the number of transactions pooled, and, while that number is below `2^64`, an answer
`true` of `IsFullyNotified()` means that nothing is pending: `mapRecentlyAddedTx` is empty and the notifier holds no
transaction. -/
theorem isFullyNotified_nothing_pending {fA fS : Bool} {evs : List NotifyEvent} {sys : NotifySystem}
    (hrun : NotifyEvent.Run true ⟨CTxMemPool.empty fA fS, .idle⟩ evs sys)
    (hwrap : (evs.filterMap NotifyEvent.pools).length < 2 ^ 64) :
    sys.pool.nRecentlyAddedSequence.toNat = (evs.filterMap NotifyEvent.pools).length ∧
      (sys.pool.IsFullyNotified true = some true →
        sys.pool.mapRecentlyAddedTx.entries = [] ∧ ∀ q txs, sys.notifier = .syncing q txs → txs = []) := by
  obtain ⟨L, N, hc⟩ := NotifyCounted.run hrun (NotifyCounted.empty fA fS)
  rw [Nat.zero_add] at hc
  have hNL := hc.le_began
  have hLS := hc.began_le
  have hseq : sys.pool.nRecentlyAddedSequence.toNat = _ := hc.seq.trans (Nat.mod_eq_of_lt hwrap)
  refine ⟨hseq, fun hfull => ?_⟩
  have hnot : sys.pool.nNotifiedSequence.toNat = N := hc.notified.trans (Nat.mod_eq_of_lt (by omega))
  -- fully notified: the two sequence numbers agree, so nothing was pooled since the last batch began
  have heq : (evs.filterMap NotifyEvent.pools).length = N := by
    simp only [IsFullyNotified, if_true, Option.some.injEq, beq_iff_eq] at hfull
    rw [← hseq, ← hnot, hfull]
  have hrec : sys.pool.mapRecentlyAddedTx.entries.length ≤ _ := hc.recent
  refine ⟨List.eq_nil_of_length_eq_zero (by omega), fun q txs hq => List.eq_nil_of_length_eq_zero ?_⟩
  have hn := hc.notifier
  rw [hq] at hn
  have := hn.2
  omega

/-- `parentTx` pooled, then a whole notification in regtest. -/
def notifiedParentSystem : NotifySystem :=
  ⟨(((CTxMemPool.empty false false).addUnchecked 20 (entryOf parentTx)).notifyBegin.2.2).notifyEnd true 1, .idle⟩

theorem run_notifiedParentSystem : NotifyEvent.Run true ⟨CTxMemPool.empty false false, .idle⟩
    [.call (.addUnchecked 20 (entryOf parentTx)), .begin, .finish] notifiedParentSystem := by
  refine ⟨⟨⟨rfl, rfl, by decide, ?_, ?_, ?_⟩, rfl⟩, _, rfl, trivial, _, rfl, trivial, _, rfl, rfl⟩ <;>
    simp [CTxMemPool.empty, TxSet.empty]

theorem isFullyNotified_nothing_pending_notifiedParent :
    ([NotifyEvent.call (.addUnchecked 20 (entryOf parentTx)), .begin, .finish].filterMap NotifyEvent.pools).length <
      2 ^ 64 ∧
    notifiedParentSystem.pool.nRecentlyAddedSequence.toNat =
        ([NotifyEvent.call (.addUnchecked 20 (entryOf parentTx)), .begin, .finish].filterMap NotifyEvent.pools).length ∧
      (notifiedParentSystem.pool.IsFullyNotified true = some true →
        notifiedParentSystem.pool.mapRecentlyAddedTx.entries = [] ∧
          ∀ q txs, notifiedParentSystem.notifier = .syncing q txs → txs = []) :=
  ⟨by decide, isFullyNotified_nothing_pending run_notifiedParentSystem (by decide)⟩

/-- After the whole notification, `IsFullyNotified()` answers `true`. -/
example : notifiedParentSystem.pool.IsFullyNotified true = some true := rfl

end VerusCoin
