import Mathlib.Algebra.BigOperators.Group.List
import Mathlib.Data.UInt
import VerusCoin.Lemmas.Closed

/-!
# The totals and the update counter

Erasing the entry of a hash leaves the other entries, so the sums over `mapTx` lose exactly that entry's sizes and
`remove`'s subtractions keep the totals equal to the sums. Each erasure also advances `nTransactionsUpdated` by one.
-/

namespace VerusCoin

namespace CTxMemPool

variable {s : CTxMemPool}

/-- A list of entries with distinct hashes is `e` followed by the entries of other hashes. -/
theorem perm_cons_filter_hash {l : List CTxMemPoolEntry} (hnd : (l.map CTxMemPoolEntry.GetHash).Nodup)
    {e : CTxMemPoolEntry} (he : e ∈ l) : l.Perm (e :: l.filter (fun x => x.GetHash ≠ e.GetHash)) := by
  induction l with
  | nil => cases he
  | cons x t ih =>
    rw [List.map_cons, List.nodup_cons] at hnd
    rcases List.mem_cons.1 he with rfl | he
    · have ht : ∀ y ∈ t, y.GetHash ≠ e.GetHash := fun y hy h => hnd.1 (h ▸ List.mem_map_of_mem _ hy)
      rw [List.filter_cons_of_neg (by simp), List.filter_eq_self.2 fun y hy => by simpa using ht y hy]
    · have hne : x.GetHash ≠ e.GetHash := fun h => hnd.1 (h ▸ List.mem_map_of_mem _ he)
      rw [List.filter_cons_of_pos (by simpa using hne)]
      exact ((ih hnd.2 he).cons x).trans (List.Perm.swap _ _ _)

/-- The entries of `mapTx` are the erased entry followed by the entries left after erasing its hash. -/
theorem TxSet.perm_erase {m : TxSet} {h : Uint256} {e : CTxMemPoolEntry} (hf : m.find h = some e) :
    m.entries.Perm (e :: (m.erase h).entries) := by
  obtain ⟨he, rfl⟩ := (TxSet.find_eq_some_iff _ _ _).1 hf
  exact perm_cons_filter_hash m.nodup he

/-- Erasing a pooled hash removes one entry. -/
theorem TxSet.length_erase {m : TxSet} {h : Uint256} {e : CTxMemPoolEntry} (hf : m.find h = some e) :
    (m.erase h).entries.length + 1 = m.entries.length := by
  simpa using (TxSet.perm_erase hf).length_eq.symm

/-- A sum over the entries of `mapTx` is the erased entry's term plus the sum over the entries left. -/
theorem TxSet.sum_erase {m : TxSet} {h : Uint256} {e : CTxMemPoolEntry} (hf : m.find h = some e)
    (f : CTxMemPoolEntry → UInt64) : (m.entries.map f).sum = f e + ((m.erase h).entries.map f).sum := by
  simpa using ((TxSet.perm_erase hf).map f).sum_eq

/-! ## The totals -/

/-- A call that leaves `mapTx` and the totals alone keeps the totals exact. -/
theorem TotalsExact.of_sameTotals {s' : CTxMemPool} (h : SameTotals s s') (ht : s.TotalsExact) : s'.TotalsExact := by
  rw [TotalsExact, h.mapTx, h.totalTxSize, h.cachedInnerUsage]
  exact ht

/-- Erasing a pooled entry subtracts exactly its sizes, and `ClearPrioritisation` touches no total. -/
theorem TotalsExact.removalClosed : RemovalClosed TotalsExact := by
  refine ⟨fun s h e ht hf => ?_, fun s h ht => ht.of_sameTotals (sameTotals_clearPrioritisation s h)⟩
  simp only [TotalsExact, eraseEntry_totalTxSize, eraseEntry_cachedInnerUsage, eraseEntry_mapTx]
  rw [ht.1, ht.2, TxSet.sum_erase hf, TxSet.sum_erase hf]
  exact ⟨add_sub_cancel_left _ _, add_sub_cancel_left _ _⟩

/-- Pooling an entry as the callers guarantee adds exactly its sizes. -/
theorem TotalsExact.addUnchecked {hash : Uint256} {entry : CTxMemPoolEntry} (ht : s.TotalsExact)
    (hok : Op.AddOk s hash entry) : (s.addUnchecked hash entry).TotalsExact := by
  rw [addUnchecked_eq hok.hash_eq hok.fresh]
  simp only [TotalsExact, insert_entries_of_fresh (hok.hash_eq ▸ hok.fresh : s.mapTx.find entry.GetHash = none),
    List.map_append, List.sum_append, List.map_singleton, List.sum_singleton, ht.1, ht.2, and_self]

/-- Every allowed call keeps the totals exact. -/
theorem TotalsExact.step {op : Op} {s' : CTxMemPool} (ht : s.TotalsExact) (ha : op.Allowed s)
    (h : op.apply s = some s') : s'.TotalsExact := by
  rcases step_cases ha h with ⟨_, _, hok, rfl⟩ | hrem | ⟨-, rfl⟩ | hb
  · exact ht.addUnchecked hok
  · exact hrem _ TotalsExact.removalClosed ht
  · exact ⟨rfl, rfl⟩
  · rw [TotalsExact, hb.same.mapTx, hb.totalTxSize, hb.cachedInnerUsage]
    exact ht

/-- Every reachable pool keeps its totals exact. -/
theorem TotalsExact.of_reachable (h : Op.Reachable s) : s.TotalsExact :=
  Op.Reachable.induction (fun _ _ => ⟨rfl, rfl⟩) (fun _ _ _ ht ha happ => ht.step ha happ) h

/-! ## The update counter -/

/-- Between the state `s₀` before a removal call and the current one: `mapTx` has only lost entries, and
`nTransactionsUpdated` has advanced by one for each, modulo `2^32`. -/
def Erases (s₀ s : CTxMemPool) : Prop :=
  s.mapTx.entries.Sublist s₀.mapTx.entries ∧
    (s.nTransactionsUpdated.toNat + s.mapTx.entries.length) % 2 ^ 32 =
      (s₀.nTransactionsUpdated.toNat + s₀.mapTx.entries.length) % 2 ^ 32

/-- Before a removal call nothing is erased. -/
theorem Erases.refl (s : CTxMemPool) : Erases s s := ⟨List.Sublist.refl _, rfl⟩

/-- Each erasure removes one entry and advances the counter by one; `ClearPrioritisation` does neither. -/
theorem Erases.removalClosed (s₀ : CTxMemPool) : RemovalClosed (Erases s₀) := by
  refine ⟨fun s h e hs hf => ⟨?_, ?_⟩, fun s h hs => hs⟩
  · rw [eraseEntry_mapTx]
    exact (List.filter_sublist _).trans hs.1
  · have hl := TxSet.length_erase hf
    have hn : (s.nTransactionsUpdated + 1).toNat = (s.nTransactionsUpdated.toNat + 1) % 2 ^ 32 := rfl
    rw [eraseEntry_nTransactionsUpdated, eraseEntry_mapTx, hn, ← hs.2]
    omega

/-- The counter after a removal call: advanced by the number of entries it erased. -/
theorem Erases.counter {s₀ s : CTxMemPool} (h : Erases s₀ s) :
    s.nTransactionsUpdated.toNat =
      (s₀.nTransactionsUpdated.toNat + (s₀.mapTx.entries.length - s.mapTx.entries.length)) % 2 ^ 32 := by
  have hle := h.1.length_le
  have hlt : s.nTransactionsUpdated.toNat < 2 ^ 32 := s.nTransactionsUpdated.toNat_lt_size
  have := h.2
  omega

/-- A call that leaves `mapTx` and the counter alone advances it by the zero entries it erased. -/
theorem counter_of_sameTotals {s' : CTxMemPool} (h : SameTotals s s') :
    s'.nTransactionsUpdated.toNat =
      (s.nTransactionsUpdated.toNat + (s.mapTx.entries.length - s'.mapTx.entries.length)) % 2 ^ 32 := by
  rw [h.nTransactionsUpdated, h.mapTx, Nat.sub_self, Nat.add_zero]
  exact (Nat.mod_eq_of_lt s.nTransactionsUpdated.toNat_lt_size).symm

/-- One call advances the counter by what it counts. -/
theorem counted_step {op : Op} {s' : CTxMemPool} (h : op.apply s = some s') :
    s'.nTransactionsUpdated.toNat = (s.nTransactionsUpdated.toNat + op.counted s s') % 2 ^ 32 := by
  have hc := Erases.removalClosed s
  have hr := Erases.refl s
  cases op <;> simp only [Op.apply, Option.some.injEq] at h <;> subst_vars <;> simp only [Op.counted]
  case addUnchecked => rfl
  case remove => exact (hc.remove _ _ _ hr).counter
  case removeConflicts => exact (hc.removeConflicts _ _ hr).counter
  case removeForBlock => exact (hc.removeForBlock _ _ hr).counter
  case removeForReorg => exact (hc.removeForReorg _ _ _ _ h hr).counter
  case removeWithAnchor => exact (hc.removeWithAnchor _ _ hr).counter
  case removeExpired => exact (hc.removeExpired _ _ hr).counter
  case removeWithoutBranchId => exact (hc.removeWithoutBranchId _ hr).counter
  case clear => rfl
  case PrioritiseTransaction => exact counter_of_sameTotals (sameTotals_prioritiseTransaction _ _ _ _)
  case ClearPrioritisation => exact counter_of_sameTotals (sameTotals_clearPrioritisation _ _)
  case PrioritiseReserveTransaction => exact counter_of_sameTotals (sameTotals_prioritiseReserveTransaction _ _ _)
  case IsKnownReserveTransaction => exact counter_of_sameTotals (sameTotals_isKnownReserveTransaction _ _)
  case AddTransactionsUpdated => rfl
  case NotifyRecentlyAdded => exact counter_of_sameTotals (sameTotals_notifyRecentlyAdded _ _)

end CTxMemPool

end VerusCoin
