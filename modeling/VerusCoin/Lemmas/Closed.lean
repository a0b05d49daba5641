import VerusCoin.Lemmas.Basic

/-!
# Properties every eviction policy preserves

Every eviction policy is a sequence of `remove` calls and `ClearPrioritisation` calls. A property of states that the
erasure of one pooled entry and `ClearPrioritisation` preserve (`RemovalClosed`) therefore holds after each of them.
Every policy but `removeForBlock` calls `ClearPrioritisation` only through `remove`, so a property that the erasure
alone preserves (`EraseClosed`) holds after those.
-/

namespace VerusCoin

namespace CTxMemPool

/-- A property preserved by erasing a pooled entry and by `ClearPrioritisation`. -/
structure RemovalClosed (P : CTxMemPool → Prop) : Prop where
  erase : ∀ s h e, P s → s.mapTx.find h = some e → P (s.eraseEntry h e)
  clearPrioritisation : ∀ s h, P s → P (s.ClearPrioritisation h)

/-- A property preserved by erasing a pooled entry. -/
structure EraseClosed (P : CTxMemPool → Prop) : Prop where
  erase : ∀ s h e, P s → s.mapTx.find h = some e → P (s.eraseEntry h e)

/-- A property that erasure and `ClearPrioritisation` preserve is preserved by erasure. -/
theorem RemovalClosed.toEraseClosed {P : CTxMemPool → Prop} (hP : RemovalClosed P) : EraseClosed P := ⟨hP.erase⟩

namespace EraseClosed

variable {P : CTxMemPool → Prop} (hP : EraseClosed P) {s : CTxMemPool}
include hP

/-- The property holds after `remove`. -/
theorem remove (tx : CTransaction) (removed : List CTransaction) (fR : Bool) (hs : P s) :
    P (s.remove tx removed fR).1 :=
  remove_preserves hP.erase tx removed fR hs

/-- The property holds after the recursive removal of each transaction of a list. -/
theorem removeAll (txs : List CTransaction) (hs : P s) : P (s.removeAll txs) := by
  induction txs generalizing s with
  | nil => exact hs
  | cons tx txs ih => exact ih (hP.remove tx [] true hs)

/-- The property holds after one loop of `removeConflicts`. -/
theorem removeConflictsBy {K : Type} (look : CTxMemPool → K → Option CTransaction) (tx : CTransaction)
    (ks : List K) (acc : CTxMemPool × List CTransaction) (hs : P acc.1) : P (removeConflictsBy look tx ks acc).1 := by
  induction ks generalizing acc with
  | nil => exact hs
  | cons k ks ih =>
    apply ih
    dsimp only
    split
    · split
      · exact hP.remove _ _ _ hs
      · exact hs
    · exact hs

/-- The property holds after `removeConflicts`. -/
theorem removeConflicts (tx : CTransaction) (removed : List CTransaction) (hs : P s) :
    P (s.removeConflicts tx removed).1 :=
  hP.removeConflictsBy _ _ _ _ (hP.removeConflictsBy _ _ _ _ (hP.removeConflictsBy _ _ _ _ hs))

/-- The property holds after `removeForReorg`, when its coins view answers. -/
theorem removeForReorg (ctx : ReorgContext) (pcoins : Uint256 → Option CCoins) (nMemPoolHeight : UInt32)
    (flags : Int) {s' : CTxMemPool} (h : CTxMemPool.removeForReorg ctx s pcoins nMemPoolHeight flags = some s')
    (hs : P s) : P s' := by
  obtain ⟨txs, -, rfl⟩ := Option.map_eq_some'.1 h
  exact hP.removeAll txs hs

/-- The property holds after `removeWithAnchor`. -/
theorem removeWithAnchor (invalidRoot : Uint256) (type : ShieldedType) (hs : P s) :
    P (s.removeWithAnchor invalidRoot type) := hP.removeAll _ hs

/-- The property holds after `removeExpired`. -/
theorem removeExpired (ctx : ExpiryContext) (nBlockHeight : UInt32) (hs : P s) :
    P (CTxMemPool.removeExpired ctx s nBlockHeight) := hP.removeAll _ hs

/-- The property holds after `removeWithoutBranchId`. -/
theorem removeWithoutBranchId (nMemPoolBranchId : UInt32) (hs : P s) : P (s.removeWithoutBranchId nMemPoolBranchId) :=
  hP.removeAll _ hs

end EraseClosed

namespace RemovalClosed

variable {P : CTxMemPool → Prop} (hP : RemovalClosed P) {s : CTxMemPool}
include hP

/-- The property holds after `remove`. -/
theorem remove (tx : CTransaction) (removed : List CTransaction) (fR : Bool) (hs : P s) :
    P (s.remove tx removed fR).1 :=
  hP.toEraseClosed.remove tx removed fR hs

/-- The property holds after the recursive removal of each transaction of a list. -/
theorem removeAll (txs : List CTransaction) (hs : P s) : P (s.removeAll txs) := hP.toEraseClosed.removeAll txs hs

/-- The property holds after `removeConflicts`. -/
theorem removeConflicts (tx : CTransaction) (removed : List CTransaction) (hs : P s) :
    P (s.removeConflicts tx removed).1 :=
  hP.toEraseClosed.removeConflicts tx removed hs

/-- The property holds after `removeForBlock`, which also calls `ClearPrioritisation` directly. -/
theorem removeForBlock (vtx : List CTransaction) (conflicts : List CTransaction) (hs : P s) :
    P (s.removeForBlock vtx conflicts).1 := by
  unfold CTxMemPool.removeForBlock
  revert s conflicts
  induction vtx with
  | nil => intro _ _ hs; exact hs
  | cons tx vtx ih =>
    intro _ _ hs
    exact ih _ (hP.clearPrioritisation _ _ (hP.removeConflicts tx _ (hP.remove tx [] false hs)))

/-- The property holds after `removeForReorg`, when its coins view answers. -/
theorem removeForReorg (ctx : ReorgContext) (pcoins : Uint256 → Option CCoins) (nMemPoolHeight : UInt32)
    (flags : Int) {s' : CTxMemPool} (h : CTxMemPool.removeForReorg ctx s pcoins nMemPoolHeight flags = some s')
    (hs : P s) : P s' :=
  hP.toEraseClosed.removeForReorg ctx pcoins nMemPoolHeight flags h hs

/-- The property holds after `removeWithAnchor`. -/
theorem removeWithAnchor (invalidRoot : Uint256) (type : ShieldedType) (hs : P s) :
    P (s.removeWithAnchor invalidRoot type) := hP.toEraseClosed.removeWithAnchor invalidRoot type hs

/-- The property holds after `removeExpired`. -/
theorem removeExpired (ctx : ExpiryContext) (nBlockHeight : UInt32) (hs : P s) :
    P (CTxMemPool.removeExpired ctx s nBlockHeight) := hP.toEraseClosed.removeExpired ctx nBlockHeight hs

/-- The property holds after `removeWithoutBranchId`. -/
theorem removeWithoutBranchId (nMemPoolBranchId : UInt32) (hs : P s) : P (s.removeWithoutBranchId nMemPoolBranchId) :=
  hP.toEraseClosed.removeWithoutBranchId nMemPoolBranchId hs

end RemovalClosed

/-! ## Operations that leave the indexes alone -/

/-- Two states with the same `mapTx`, `mapNextTx` and nullifier maps. -/
structure SameIndexes (s s' : CTxMemPool) : Prop where
  mapTx : s'.mapTx = s.mapTx
  mapNextTx : s'.mapNextTx = s.mapNextTx
  sprout : s'.mapSproutNullifiers = s.mapSproutNullifiers
  sapling : s'.mapSaplingNullifiers = s.mapSaplingNullifiers

/-- `ClearPrioritisation` leaves `mapTx` and the spend and nullifier indexes alone. -/
theorem sameIndexes_clearPrioritisation (s : CTxMemPool) (h : Uint256) : SameIndexes s (s.ClearPrioritisation h) :=
  ⟨rfl, rfl, rfl, rfl⟩

/-- Two states with the same `mapTx`, totals and update counter. -/
structure SameTotals (s s' : CTxMemPool) : Prop where
  mapTx : s'.mapTx = s.mapTx
  totalTxSize : s'.totalTxSize = s.totalTxSize
  cachedInnerUsage : s'.cachedInnerUsage = s.cachedInnerUsage
  nTransactionsUpdated : s'.nTransactionsUpdated = s.nTransactionsUpdated

/-- `ClearPrioritisation` leaves `mapTx`, the totals and the update counter alone. -/
theorem sameTotals_clearPrioritisation (s : CTxMemPool) (h : Uint256) : SameTotals s (s.ClearPrioritisation h) :=
  ⟨rfl, rfl, rfl, rfl⟩

/-- `PrioritiseTransaction` leaves `mapTx`, the totals and the update counter alone. -/
theorem sameTotals_prioritiseTransaction (s : CTxMemPool) (h : Uint256) (dp : Float) (df : Int) :
    SameTotals s (s.PrioritiseTransaction h dp df) := ⟨rfl, rfl, rfl, rfl⟩

/-- `PrioritiseReserveTransaction` leaves `mapTx`, the totals and the update counter alone. -/
theorem sameTotals_prioritiseReserveTransaction (s : CTxMemPool) (d : CReserveTransactionDescriptor)
    (f : Int → Int) : SameTotals s (s.PrioritiseReserveTransaction d f).1 := by
  unfold PrioritiseReserveTransaction
  split <;> exact ⟨rfl, rfl, rfl, rfl⟩

/-- `IsKnownReserveTransaction` leaves `mapTx`, the totals and the update counter alone. -/
theorem sameTotals_isKnownReserveTransaction (s : CTxMemPool) (h : Uint256) :
    SameTotals s (s.IsKnownReserveTransaction h).1 := by
  unfold IsKnownReserveTransaction
  repeat' split
  all_goals exact ⟨rfl, rfl, rfl, rfl⟩

/-- `NotifyRecentlyAdded` leaves `mapTx`, the totals and the update counter alone. -/
theorem sameTotals_notifyRecentlyAdded (s : CTxMemPool) (regtest : Bool) :
    SameTotals s (s.NotifyRecentlyAdded regtest).2 := ⟨rfl, rfl, rfl, rfl⟩

/-! ## What one call does -/

/-- `s'` differs from `s` in bookkeeping only: `mapTx`, the spend and nullifier indexes and the totals are the same,
and `mapRecentlyAddedTx` is the same or drained; the deltas, the reserve annotations and the counters may change. -/
structure Bookkeeping (s s' : CTxMemPool) : Prop where
  same : SameIndexes s s'
  totalTxSize : s'.totalTxSize = s.totalTxSize
  cachedInnerUsage : s'.cachedInnerUsage = s.cachedInnerUsage
  recent : ∀ p ∈ s'.mapRecentlyAddedTx.entries, p ∈ s.mapRecentlyAddedTx.entries

/-- What one allowed call can do: pool an entry as its callers guarantee, run a removal (built from the body of
`remove`'s loop and `ClearPrioritisation`, so that every `RemovalClosed` property survives it), empty the pool with
`clear()`, or do bookkeeping only. -/
theorem step_cases {op : Op} {s s' : CTxMemPool} (ha : op.Allowed s) (h : op.apply s = some s') :
    (∃ hash entry, Op.AddOk s hash entry ∧ s' = s.addUnchecked hash entry) ∨
      (∀ P, RemovalClosed P → P s → P s') ∨ (op = .clear ∧ s' = s.clear) ∨ Bookkeeping s s' := by
  cases op <;> simp only [Op.apply, Option.some.injEq] at h <;> subst_vars
  case addUnchecked => exact .inl ⟨_, _, ha, rfl⟩
  case remove => exact .inr (.inl fun P hP => hP.remove _ _ _)
  case removeConflicts => exact .inr (.inl fun P hP => hP.removeConflicts _ _)
  case removeForBlock => exact .inr (.inl fun P hP => hP.removeForBlock _ _)
  case removeForReorg => exact .inr (.inl fun P hP => hP.removeForReorg _ _ _ _ h)
  case removeWithAnchor => exact .inr (.inl fun P hP => hP.removeWithAnchor _ _)
  case removeExpired => exact .inr (.inl fun P hP => hP.removeExpired _ _)
  case removeWithoutBranchId => exact .inr (.inl fun P hP => hP.removeWithoutBranchId _)
  case clear => exact .inr (.inr (.inl ⟨rfl, rfl⟩))
  all_goals refine .inr (.inr (.inr ?_))
  case PrioritiseReserveTransaction =>
    unfold PrioritiseReserveTransaction
    split <;> exact ⟨⟨rfl, rfl, rfl, rfl⟩, rfl, rfl, fun _ => id⟩
  case IsKnownReserveTransaction =>
    unfold IsKnownReserveTransaction
    repeat' split
    all_goals exact ⟨⟨rfl, rfl, rfl, rfl⟩, rfl, rfl, fun _ => id⟩
  case NotifyRecentlyAdded => exact ⟨⟨rfl, rfl, rfl, rfl⟩, rfl, rfl, fun _ h => absurd h (List.not_mem_nil _)⟩
  all_goals exact ⟨⟨rfl, rfl, rfl, rfl⟩, rfl, rfl, fun _ => id⟩

/-- `s'` is `s` with only its deltas, its reserve annotations and its update counter changed. -/
def BookkeepingOnly (s s' : CTxMemPool) : Prop :=
  s' = { s with
    mapDeltas := s'.mapDeltas, mapReserveTransactions := s'.mapReserveTransactions,
    nTransactionsUpdated := s'.nTransactionsUpdated }

/-- What one allowed call does, told by the call: `addUnchecked` as its callers guarantee, `NotifyRecentlyAdded`,
`clear()`, or a call that pools and notifies nothing and either runs a removal or changes bookkeeping only. -/
theorem call_cases {op : Op} {s s' : CTxMemPool} (ha : op.Allowed s) (h : op.apply s = some s') :
    (∃ hash entry, op = .addUnchecked hash entry ∧ Op.AddOk s hash entry ∧ s' = s.addUnchecked hash entry) ∨
      (∃ regtest, op = .NotifyRecentlyAdded regtest ∧ s' = (s.NotifyRecentlyAdded regtest).2) ∨
      (op = .clear ∧ s' = s.clear) ∨
      (op.pools = none ∧ op.notifies = false ∧ ((∀ P, RemovalClosed P → P s → P s') ∨ BookkeepingOnly s s')) := by
  cases op <;> simp only [Op.apply, Option.some.injEq] at h <;> subst_vars
  case addUnchecked => exact .inl ⟨_, _, rfl, ha, rfl⟩
  case NotifyRecentlyAdded => exact .inr (.inl ⟨_, rfl, rfl⟩)
  case clear => exact .inr (.inr (.inl ⟨rfl, rfl⟩))
  all_goals refine .inr (.inr (.inr ⟨rfl, rfl, ?_⟩))
  case remove => exact .inl fun P hP => hP.remove _ _ _
  case removeConflicts => exact .inl fun P hP => hP.removeConflicts _ _
  case removeForBlock => exact .inl fun P hP => hP.removeForBlock _ _
  case removeForReorg => exact .inl fun P hP => hP.removeForReorg _ _ _ _ h
  case removeWithAnchor => exact .inl fun P hP => hP.removeWithAnchor _ _
  case removeExpired => exact .inl fun P hP => hP.removeExpired _ _
  case removeWithoutBranchId => exact .inl fun P hP => hP.removeWithoutBranchId _
  all_goals refine .inr ?_
  case PrioritiseReserveTransaction =>
    unfold PrioritiseReserveTransaction
    split <;> rfl
  case IsKnownReserveTransaction =>
    unfold IsKnownReserveTransaction
    repeat' split
    all_goals rfl
  all_goals rfl

end CTxMemPool

end VerusCoin
