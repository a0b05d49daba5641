import VerusCoin.Eviction

/-!
# Runs of the pool

The public operations of `CTxMemPool` that change its state, as one step function, and runs of them from a freshly
constructed pool. `addUnchecked` checks nothing: its callers (`AcceptToMemoryPool`) guarantee that the hash is the
entry's, is not pooled, and that the transaction double-spends no outpoint or nullifier of a pooled transaction
(`AddOk`). Every other operation may be called in any state.
-/

namespace VerusCoin

/-- A state-changing call on the pool. The `removed` and `conflicts` out-lists start empty; the caller's copies are
not pool state. -/
inductive Op where
  | addUnchecked (hash : Uint256) (entry : CTxMemPoolEntry)
  | remove (tx : CTransaction) (fRecursive : Bool)
  | removeConflicts (tx : CTransaction)
  | removeForBlock (vtx : List CTransaction)
  | removeForReorg (ctx : CTxMemPool.ReorgContext) (pcoins : Uint256 → Option CCoins) (nMemPoolHeight : UInt32)
      (flags : Int)
  | removeWithAnchor (invalidRoot : Uint256) (type : ShieldedType)
  | removeExpired (ctx : CTxMemPool.ExpiryContext) (nBlockHeight : UInt32)
  | removeWithoutBranchId (nMemPoolBranchId : UInt32)
  | clear
  | PrioritiseTransaction (hash : Uint256) (dPriorityDelta : Float) (nFeeDelta : Int)
  | ClearPrioritisation (hash : Uint256)
  | PrioritiseReserveTransaction (txDesc : CReserveTransactionDescriptor) (ReserveToNative : Int → Int)
  | IsKnownReserveTransaction (hash : Uint256)
  | AddTransactionsUpdated (n : UInt32)
  | NotifyRecentlyAdded (regtest : Bool)

namespace Op

open CTxMemPool

/-- The new state after a call; `none` when the call aborts on an assertion. -/
def apply (s : CTxMemPool) : Op → Option CTxMemPool
  | addUnchecked hash entry => some (s.addUnchecked hash entry)
  | remove tx fRecursive => some (s.remove tx [] fRecursive).1
  | removeConflicts tx => some (s.removeConflicts tx []).1
  | removeForBlock vtx => some (s.removeForBlock vtx []).1
  | removeForReorg ctx pcoins nMemPoolHeight flags => CTxMemPool.removeForReorg ctx s pcoins nMemPoolHeight flags
  | removeWithAnchor invalidRoot type => some (s.removeWithAnchor invalidRoot type)
  | removeExpired ctx nBlockHeight => some (CTxMemPool.removeExpired ctx s nBlockHeight)
  | removeWithoutBranchId nMemPoolBranchId => some (s.removeWithoutBranchId nMemPoolBranchId)
  | clear => some s.clear
  | PrioritiseTransaction hash dPriorityDelta nFeeDelta =>
    some (s.PrioritiseTransaction hash dPriorityDelta nFeeDelta)
  | ClearPrioritisation hash => some (s.ClearPrioritisation hash)
  | PrioritiseReserveTransaction txDesc ReserveToNative =>
    some (s.PrioritiseReserveTransaction txDesc ReserveToNative).1
  | IsKnownReserveTransaction hash => some (s.IsKnownReserveTransaction hash).1
  | AddTransactionsUpdated n => some (s.AddTransactionsUpdated n)
  | NotifyRecentlyAdded regtest => some (s.NotifyRecentlyAdded regtest).2

/-- What the callers of `addUnchecked(hash, entry)` guarantee: `hash` is the entry's and is not pooled, the inputs
spend pairwise distinct outpoints that no pooled transaction spends, and no pooled transaction reveals one of its
Sprout or Sapling nullifiers. -/
structure AddOk (s : CTxMemPool) (hash : Uint256) (entry : CTxMemPoolEntry) : Prop where
  hash_eq : hash = entry.GetHash
  fresh : s.mapTx.find hash = none
  prevouts_nodup : entry.tx.prevouts.Nodup
  prevouts_unspent : ∀ e ∈ s.mapTx.entries, ∀ o ∈ entry.tx.prevouts, o ∉ e.tx.prevouts
  sprout_unspent : ∀ e ∈ s.mapTx.entries, ∀ nf ∈ entry.tx.sproutNullifiers, nf ∉ e.tx.sproutNullifiers
  sapling_unspent : ∀ e ∈ s.mapTx.entries, ∀ nf ∈ entry.tx.saplingNullifiers, nf ∉ e.tx.saplingNullifiers

/-- A call is made as its callers guarantee. -/
def Allowed (s : CTxMemPool) : Op → Prop
  | addUnchecked hash entry => AddOk s hash entry
  | _ => True

/-- The transaction a call pools: `addUnchecked`'s entry's. -/
def pools : Op → Option CTransaction
  | addUnchecked _ entry => some entry.tx
  | _ => none

/-- Whether the call is `NotifyRecentlyAdded`. -/
def notifies : Op → Bool
  | NotifyRecentlyAdded _ => true
  | _ => false

/-- A run: the calls in order, each allowed in the state it meets and none aborting, from `s` to `s'`. -/
def Run : CTxMemPool → List Op → CTxMemPool → Prop
  | s, [], s' => s' = s
  | s, op :: ops, s' => op.Allowed s ∧ ∃ s₁, op.apply s = some s₁ ∧ Run s₁ ops s'

/-- A state some run reaches from a freshly constructed pool. -/
def Reachable (s : CTxMemPool) : Prop :=
  ∃ fAddressIndex fSpentIndex ops, Run (CTxMemPool.empty fAddressIndex fSpentIndex) ops s

/-- An invariant that every allowed call preserves holds along every run. -/
theorem Run.preserves {P : CTxMemPool → Prop}
    (hstep : ∀ s (op : Op) s', P s → op.Allowed s → op.apply s = some s' → P s') :
    ∀ {s ops s'}, Run s ops s' → P s → P s'
  | _, [], _, h, hP => h ▸ hP
  | _, _ :: _, _, ⟨ha, _, happ, hrun⟩, hP => Run.preserves hstep hrun (hstep _ _ _ hP ha happ)

/-- An invariant that every allowed call of some kind preserves holds along every run of calls of that kind. -/
theorem Run.preserves_of {P : CTxMemPool → Prop} {Q : Op → Prop}
    (hstep : ∀ s (op : Op) s', P s → Q op → op.Allowed s → op.apply s = some s' → P s') :
    ∀ {s ops s'}, Run s ops s' → (∀ op ∈ ops, Q op) → P s → P s'
  | _, [], _, h, _, hP => h ▸ hP
  | _, _ :: _, _, ⟨ha, _, happ, hrun⟩, hQ, hP =>
    Run.preserves_of hstep hrun (fun op hop => hQ op (List.mem_cons_of_mem _ hop))
      (hstep _ _ _ hP (hQ _ (List.mem_cons_self _ _)) ha happ)

/-- An invariant that holds of a fresh pool and that every allowed call preserves holds of every reachable state. -/
theorem Reachable.induction {P : CTxMemPool → Prop} (hempty : ∀ fA fS, P (CTxMemPool.empty fA fS))
    (hstep : ∀ s (op : Op) s', P s → op.Allowed s → op.apply s = some s' → P s') {s : CTxMemPool} (h : Reachable s) :
    P s := by
  obtain ⟨fA, fS, ops, hrun⟩ := h
  exact Run.preserves hstep hrun (hempty fA fS)

end Op

end VerusCoin
