import VerusCoin.Invariant

/-!
# Small lemmas about the pool's operations

Field lemmas for `eraseEntry` and `addUnchecked`, the two equations of the removal loop, and membership in the
lists the operations build. Later proofs cite these and never unfold an operation.
-/

namespace VerusCoin

namespace CTxMemPool

variable {s : CTxMemPool}

/-! ## Pooled transactions -/

/-- A transaction is pooled exactly when it is the transaction of an entry of `mapTx`. -/
theorem pooled_iff {tx : CTransaction} : s.Pooled tx ↔ ∃ e ∈ s.mapTx.entries, e.tx = tx := by
  simp only [Pooled, lookup, Option.map_eq_some']
  constructor
  · rintro ⟨e, hf, rfl⟩
    exact ⟨e, ((TxSet.find_eq_some_iff _ _ _).1 hf).1, rfl⟩
  · rintro ⟨e, he, rfl⟩
    exact ⟨e, (TxSet.find_eq_some_iff _ _ _).2 ⟨he, rfl⟩, rfl⟩

/-- The transaction of an entry of `mapTx` is pooled. -/
theorem pooled_of_mem {e : CTxMemPoolEntry} (he : e ∈ s.mapTx.entries) : s.Pooled e.tx :=
  pooled_iff.2 ⟨e, he, rfl⟩

/-- The transactions of a list of entries of `mapTx` are pooled. -/
theorem pooled_of_subset {es : List CTxMemPoolEntry} (hsub : ∀ e ∈ es, e ∈ s.mapTx.entries) :
    ∀ d ∈ es.map (·.tx), s.Pooled d := fun _ hd => by
  obtain ⟨e, he, rfl⟩ := List.mem_map.1 hd
  exact pooled_of_mem (hsub e he)

/-- Two entries of `mapTx` with one hash are one entry. -/
theorem entry_eq_of_hash_eq {e e' : CTxMemPoolEntry} (he : e ∈ s.mapTx.entries) (he' : e' ∈ s.mapTx.entries)
    (h : e.GetHash = e'.GetHash) : e = e' :=
  List.inj_on_of_nodup_map s.mapTx.nodup he he' h

/-- Erasing a hash from `mapTx` keeps exactly the entries of another hash. -/
theorem mem_erase_entries {m : TxSet} {h : Uint256} {e : CTxMemPoolEntry} :
    e ∈ (m.erase h).entries ↔ e ∈ m.entries ∧ e.GetHash ≠ h := by
  simp [TxSet.erase]

/-- An outpoint is spent by `tx` exactly when some input of `tx` names it. -/
theorem CTransaction.mem_prevouts {tx : CTransaction} {o : COutPoint} :
    o ∈ tx.prevouts ↔ ∃ i, ∃ hi : i < tx.vin.length, tx.vin[i].prevout = o := by
  simp only [CTransaction.prevouts, List.mem_map]
  constructor
  · rintro ⟨txin, hmem, rfl⟩
    obtain ⟨i, hi, rfl⟩ := List.getElem_of_mem hmem
    exact ⟨i, hi, rfl⟩
  · rintro ⟨i, hi, rfl⟩
    exact ⟨_, List.getElem_mem hi, rfl⟩

/-- The outpoint of each input is among the transaction's outpoints. -/
theorem CTransaction.prevout_mem (tx : CTransaction) (i : Nat) (hi : i < tx.vin.length) :
    tx.vin[i].prevout ∈ tx.prevouts :=
  CTransaction.mem_prevouts.2 ⟨i, hi, rfl⟩

/-- Inputs spending distinct outpoints sit at distinct positions. -/
theorem CTransaction.prevout_inj {tx : CTransaction} (hnd : tx.prevouts.Nodup) {i j : Nat} (hi : i < tx.vin.length)
    (hj : j < tx.vin.length) (h : tx.vin[i].prevout = tx.vin[j].prevout) : i = j := by
  have hi' : i < tx.prevouts.length := by simpa [CTransaction.prevouts] using hi
  have hj' : j < tx.prevouts.length := by simpa [CTransaction.prevouts] using hj
  exact (@List.Nodup.getElem_inj_iff _ _ hnd i hi' j hj').1 (by simpa [CTransaction.prevouts] using h)

/-! ## `eraseEntry` -/

/-- `eraseEntry` erases the spend-index entries of the transaction's inputs. -/
@[simp] theorem eraseEntry_mapNextTx (h : Uint256) (e : CTxMemPoolEntry) :
    (s.eraseEntry h e).mapNextTx = s.mapNextTx.eraseAll e.tx.prevouts := by rw [eraseEntry_eq]

/-- `eraseEntry` erases the Sprout nullifiers the transaction reveals. -/
@[simp] theorem eraseEntry_mapSproutNullifiers (h : Uint256) (e : CTxMemPoolEntry) :
    (s.eraseEntry h e).mapSproutNullifiers = s.mapSproutNullifiers.eraseAll e.tx.sproutNullifiers := by
  rw [eraseEntry_eq]

/-- `eraseEntry` erases the Sapling nullifiers the transaction reveals. -/
@[simp] theorem eraseEntry_mapSaplingNullifiers (h : Uint256) (e : CTxMemPoolEntry) :
    (s.eraseEntry h e).mapSaplingNullifiers = s.mapSaplingNullifiers.eraseAll e.tx.saplingNullifiers := by
  rw [eraseEntry_eq]

/-- `eraseEntry` erases the hash from the records of recently added transactions. -/
@[simp] theorem eraseEntry_mapRecentlyAddedTx (h : Uint256) (e : CTxMemPoolEntry) :
    (s.eraseEntry h e).mapRecentlyAddedTx = s.mapRecentlyAddedTx.erase h := by rw [eraseEntry_eq]

/-- `eraseEntry` clears the prioritisation of the transaction's hash. -/
@[simp] theorem eraseEntry_mapDeltas (h : Uint256) (e : CTxMemPoolEntry) :
    (s.eraseEntry h e).mapDeltas = s.mapDeltas.erase e.tx.hash := by rw [eraseEntry_eq]

/-- `eraseEntry` drops the reserve descriptor of the transaction's hash. -/
@[simp] theorem eraseEntry_mapReserveTransactions (h : Uint256) (e : CTxMemPoolEntry) :
    (s.eraseEntry h e).mapReserveTransactions = s.mapReserveTransactions.erase e.tx.hash := by rw [eraseEntry_eq]

/-- `eraseEntry` counts one update. -/
@[simp] theorem eraseEntry_nTransactionsUpdated (h : Uint256) (e : CTxMemPoolEntry) :
    (s.eraseEntry h e).nTransactionsUpdated = s.nTransactionsUpdated + 1 := by rw [eraseEntry_eq]

/-- `eraseEntry` subtracts the entry's size from `totalTxSize`, modulo 2^64. -/
@[simp] theorem eraseEntry_totalTxSize (h : Uint256) (e : CTxMemPoolEntry) :
    (s.eraseEntry h e).totalTxSize = s.totalTxSize - e.nTxSize := by rw [eraseEntry_eq]

/-- `eraseEntry` subtracts the entry's usage from `cachedInnerUsage`, modulo 2^64. -/
@[simp] theorem eraseEntry_cachedInnerUsage (h : Uint256) (e : CTxMemPoolEntry) :
    (s.eraseEntry h e).cachedInnerUsage = s.cachedInnerUsage - e.nUsageSize := by rw [eraseEntry_eq]

/-- `eraseEntry` leaves the address-index flag alone. -/
@[simp] theorem eraseEntry_fAddressIndex (h : Uint256) (e : CTxMemPoolEntry) :
    (s.eraseEntry h e).fAddressIndex = s.fAddressIndex := by rw [eraseEntry_eq]

/-- `eraseEntry` leaves the spent-index flag alone. -/
@[simp] theorem eraseEntry_fSpentIndex (h : Uint256) (e : CTxMemPoolEntry) :
    (s.eraseEntry h e).fSpentIndex = s.fSpentIndex := by rw [eraseEntry_eq]

/-- After `eraseEntry(h, e)` the pooled transactions are those of before with another hash than `h`. -/
theorem pooled_eraseEntry {h : Uint256} {e : CTxMemPoolEntry} {tx : CTransaction} :
    (s.eraseEntry h e).Pooled tx ↔ s.Pooled tx ∧ tx.hash ≠ h := by
  simp only [Pooled, lookup, eraseEntry_mapTx, TxSet.find_erase]
  split_ifs with hh <;> simp [hh]

/-! ## The removal loop -/

/-- The removal loop stops on an empty queue. -/
theorem removeLoop_nil (fR : Bool) (removed : List CTransaction) : s.removeLoop fR [] removed = (s, removed) := by
  rw [removeLoop]

/-- A queued hash that is not pooled is dropped. -/
theorem removeLoop_cons_none (fR : Bool) {hash : Uint256} (rest : List Uint256) (removed : List CTransaction)
    (hf : s.mapTx.find hash = none) : s.removeLoop fR (hash :: rest) removed = s.removeLoop fR rest removed := by
  rw [removeLoop]
  split <;> simp_all

/-- A queued pooled hash is erased and its transaction appended to `removed`; in a recursive removal its
spenders join the queue. -/
theorem removeLoop_cons_some (fR : Bool) {hash : Uint256} (rest : List Uint256) (removed : List CTransaction)
    {e : CTxMemPoolEntry} (hf : s.mapTx.find hash = some e) :
    s.removeLoop fR (hash :: rest) removed =
      (s.eraseEntry hash e).removeLoop fR (rest ++ if fR then s.spenders hash e.tx.vout.length else [])
        (removed ++ [e.tx]) := by
  rw [removeLoop]
  split <;> simp_all

/-- A relation between the state before the loop and the current one that every erasure extends holds at the end. -/
theorem removeLoop_rel {R : CTxMemPool → CTxMemPool → Prop} (fR : Bool)
    (hstep : ∀ s₀ s h e, R s₀ s → s.mapTx.find h = some e → R s₀ (s.eraseEntry h e))
    (s₀ : CTxMemPool) : ∀ s q removed, R s₀ s → R s₀ (s.removeLoop fR q removed).1 := by
  intro s q removed
  induction s, q, removed using removeLoop.induct fR with
  | case1 s removed => intro h; rwa [removeLoop_nil]
  | case2 s removed hash rest hf ih => intro h; rw [removeLoop_cons_none fR rest removed hf]; exact ih h
  | case3 s removed hash rest e hf _ ih =>
    intro h
    rw [removeLoop_cons_some fR rest removed hf]
    exact ih (hstep s₀ s hash e h hf)

/-- A property of states that every erasure of a pooled entry preserves holds after `remove`. -/
theorem remove_preserves {P : CTxMemPool → Prop}
    (hstep : ∀ s h e, P s → s.mapTx.find h = some e → P (s.eraseEntry h e))
    (tx : CTransaction) (removed : List CTransaction) (fR : Bool) (hs : P s) : P (s.remove tx removed fR).1 :=
  removeLoop_rel (R := fun _ s => P s) fR (fun _ s h e hP hf => hstep s h e hP hf) s s _ removed hs

/-! ## `addUnchecked` -/

/-- The assignments `addUnchecked` makes to `mapNextTx` map each input's outpoint to the input. -/
theorem mem_nextTxEntries {tx : CTransaction} {o : COutPoint} {p : CInPoint} :
    (o, p) ∈ nextTxEntries tx ↔ ∃ i, ∃ hi : i < tx.vin.length, tx.vin[i].prevout = o ∧ p = ⟨tx, i⟩ := by
  simp only [nextTxEntries, List.mem_map, Prod.mk.injEq, List.mem_enum_iff_getElem?, Prod.exists]
  constructor
  · rintro ⟨i, txin, hget, rfl, rfl⟩
    obtain ⟨hi, hx⟩ := List.getElem?_eq_some_iff.1 hget
    exact ⟨i, hi, by rw [hx], rfl⟩
  · rintro ⟨i, hi, rfl, rfl⟩
    exact ⟨i, _, List.getElem?_eq_getElem hi, rfl, rfl⟩

/-- The keys `addUnchecked` assigns in `mapNextTx` are the transaction's outpoints, in input order. -/
theorem nextTxEntries_map_fst (tx : CTransaction) : (nextTxEntries tx).map Prod.fst = tx.prevouts := by
  simp only [nextTxEntries, List.map_map, CTransaction.prevouts]
  conv_rhs => rw [← List.enum_map_snd tx.vin, List.map_map]
  rfl

/-- After the assignments, an input's outpoint maps to that input, when the transaction spends distinct outpoints. -/
theorem find_insertAll_nextTx {tx : CTransaction} (hnd : tx.prevouts.Nodup) (m : StdMap COutPoint CInPoint) (i : Nat)
    (hi : i < tx.vin.length) : (m.insertAll (nextTxEntries tx)).find tx.vin[i].prevout = some ⟨tx, i⟩ := by
  refine StdMap.find_insertAll_of_mem _ _ _ _ (mem_nextTxEntries.2 ⟨i, hi, rfl, rfl⟩) ?_
  rintro ⟨o, p⟩ hp (rfl : o = _)
  obtain ⟨j, hj, ho, rfl⟩ := mem_nextTxEntries.1 hp
  rw [CTransaction.prevout_inj hnd hj hi ho]

/-- The assignments leave every outpoint the transaction does not spend alone. -/
theorem find_insertAll_nextTx_of_not_mem {tx : CTransaction} (m : StdMap COutPoint CInPoint) {o : COutPoint}
    (ho : o ∉ tx.prevouts) : (m.insertAll (nextTxEntries tx)).find o = m.find o :=
  StdMap.find_insertAll_of_not_mem _ _ _ (by rwa [nextTxEntries_map_fst])

/-- Under the callers' guarantee the transaction `addUnchecked` indexes is the entry's own. -/
theorem addUnchecked_eq {hash : Uint256} {entry : CTxMemPoolEntry} (hh : hash = entry.GetHash)
    (hf : s.mapTx.find hash = none) :
    s.addUnchecked hash entry =
      { s with
        mapTx := s.mapTx.insert entry
        mapRecentlyAddedTx := s.mapRecentlyAddedTx.insert entry.tx.hash entry.tx
        nRecentlyAddedSequence := s.nRecentlyAddedSequence + 1
        mapNextTx := if entry.tx.isCoinImport then s.mapNextTx else s.mapNextTx.insertAll (nextTxEntries entry.tx)
        mapSproutNullifiers := s.mapSproutNullifiers.insertAll (entry.tx.sproutNullifiers.map (·, entry.tx))
        mapSaplingNullifiers := s.mapSaplingNullifiers.insertAll (entry.tx.saplingNullifiers.map (·, entry.tx))
        nTransactionsUpdated := s.nTransactionsUpdated + 1
        totalTxSize := s.totalTxSize + entry.nTxSize
        cachedInnerUsage := s.cachedInnerUsage + entry.nUsageSize } := by
  subst hh
  simp [addUnchecked, hf]

/-- Inserting an entry of a fresh hash appends it to `mapTx`. -/
theorem insert_entries_of_fresh {m : TxSet} {e : CTxMemPoolEntry} (hf : m.find e.GetHash = none) :
    (m.insert e).entries = m.entries ++ [e] := by
  simp [TxSet.insert, hf]

/-- A constant loop of assignments: every key of the list holds `v`. -/
theorem find_insertAll_const {K V : Type} [DecidableEq K] [Ord K] (m : StdMap K V) (ks : List K) (v : V) (k : K) :
    (m.insertAll (ks.map (·, v))).find k = if k ∈ ks then some v else m.find k := by
  split_ifs with hk
  · exact StdMap.find_insertAll_of_mem _ _ _ _ (List.mem_map.2 ⟨k, hk, rfl⟩) (by simp)
  · exact StdMap.find_insertAll_of_not_mem _ _ _ (by simpa [List.map_map] using hk)

end CTxMemPool

end VerusCoin
