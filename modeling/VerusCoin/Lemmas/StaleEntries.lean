import VerusCoin.Lemmas.PoolInv

/-!
# No stale entry in the secondary indexes, along runs without `clear`

`addUnchecked` indexes the nullifiers of the transaction it pools and records it in `mapRecentlyAddedTx` under its
hash; the body of `remove`'s loop erases the entries of the transaction it erases; `NotifyRecentlyAdded` drains the
records. So every other entry names a transaction that stays pooled, `nullifierExists` answers whether a pooled
transaction reveals the nullifier, and `NotifyRecentlyAdded` delivers pooled transactions only. Only `clear()`, which
empties `mapTx` and keeps these maps, leaves entries naming transactions no longer pooled.
-/

namespace VerusCoin

namespace CTxMemPool

variable {s : CTxMemPool}

theorem NullifiersSound.of_sameIndexes {s' : CTxMemPool} (h : SameIndexes s s') (hn : s.NullifiersSound) :
    s'.NullifiersSound := by
  have hp : ∀ tx, s'.Pooled tx ↔ s.Pooled tx := fun tx => by simp only [Pooled, lookup, h.mapTx]
  simpa only [NullifiersSound, h.sprout, h.sapling, hp] using hn

/-- The body of `remove`'s loop keeps the nullifier indexes sound. -/
theorem NullifiersSound.eraseEntry {h : Uint256} {e : CTxMemPoolEntry} (hn : s.NullifiersSound)
    (hf : s.mapTx.find h = some e) : (s.eraseEntry h e).NullifiersSound := by
  obtain ⟨he, rfl⟩ := (TxSet.find_eq_some_iff _ _ _).1 hf
  -- a transaction revealing a nullifier `e` does not reveal is not `e`'s, so it stays pooled
  have hkeep : ∀ (nfs : CTransaction → List Uint256) nf tx, s.Pooled tx → nf ∈ nfs tx → nf ∉ nfs e.tx →
      (s.eraseEntry e.GetHash e).Pooled tx := fun nfs nf tx hp hnf hne => by
    refine pooled_eraseEntry.2 ⟨hp, fun hh => hne ?_⟩
    obtain ⟨x, hx, rfl⟩ := pooled_iff.1 hp
    rwa [← entry_eq_of_hash_eq hx he hh]
  refine ⟨fun nf tx hf' => ?_, fun nf tx hf' => ?_⟩
  · rw [eraseEntry_mapSproutNullifiers, StdMap.find_eraseAll] at hf'
    split_ifs at hf' with hnf
    obtain ⟨hp, hin⟩ := hn.1 nf tx hf'
    exact ⟨hkeep _ nf tx hp hin hnf, hin⟩
  · rw [eraseEntry_mapSaplingNullifiers, StdMap.find_eraseAll] at hf'
    split_ifs at hf' with hnf
    obtain ⟨hp, hin⟩ := hn.2 nf tx hf'
    exact ⟨hkeep _ nf tx hp hin hnf, hin⟩

theorem NullifiersSound.removalClosed : RemovalClosed NullifiersSound :=
  ⟨fun _ _ _ hn hf => hn.eraseEntry hf, fun s h hn => hn.of_sameIndexes (sameIndexes_clearPrioritisation s h)⟩

/-- `addUnchecked`, made as its callers guarantee, indexes only the nullifiers of the transaction it pools. -/
theorem NullifiersSound.addUnchecked {hash : Uint256} {entry : CTxMemPoolEntry} (hn : s.NullifiersSound)
    (hok : Op.AddOk s hash entry) : (s.addUnchecked hash entry).NullifiersSound := by
  have hfind : ∀ (F : CTxMemPool → StdMap Uint256 CTransaction) (nfs : CTransaction → List Uint256),
      (∀ nf tx, (F s).find nf = some tx → s.Pooled tx ∧ nf ∈ nfs tx) →
      ∀ nf tx, ((F s).insertAll ((nfs entry.tx).map (·, entry.tx))).find nf = some tx →
        (s.addUnchecked hash entry).Pooled tx ∧ nf ∈ nfs tx := fun F nfs hF nf tx h => by
    rw [find_insertAll_const] at h
    rw [pooled_addUnchecked hok]
    split_ifs at h with hnf
    · cases h
      exact ⟨.inr rfl, hnf⟩
    · exact (hF nf tx h).imp_left .inl
  refine ⟨fun nf tx h => ?_, fun nf tx h => ?_⟩
  · rw [addUnchecked_eq hok.hash_eq hok.fresh] at h
    exact hfind mapSproutNullifiers CTransaction.sproutNullifiers hn.1 nf tx h
  · rw [addUnchecked_eq hok.hash_eq hok.fresh] at h
    exact hfind mapSaplingNullifiers CTransaction.saplingNullifiers hn.2 nf tx h

theorem NullifiersSound.empty (fA fS : Bool) : (CTxMemPool.empty fA fS).NullifiersSound := by
  simp [NullifiersSound, CTxMemPool.empty, StdMap.find_empty]

/-- Every allowed call other than `clear()` keeps the nullifier indexes sound. -/
theorem NullifiersSound.step {op : Op} {s' : CTxMemPool} (hn : s.NullifiersSound) (hop : op ≠ .clear)
    (ha : op.Allowed s) (h : op.apply s = some s') : s'.NullifiersSound := by
  rcases step_cases ha h with ⟨_, _, hok, rfl⟩ | hrem | ⟨rfl, -⟩ | hb
  · exact hn.addUnchecked hok
  · exact hrem _ NullifiersSound.removalClosed hn
  · exact absurd rfl hop
  · exact hn.of_sameIndexes hb.same

/-- A run without `clear()` keeps the nullifier indexes sound. -/
theorem NullifiersSound.of_run {s' : CTxMemPool} {ops : List Op} (h : Op.Run s ops s')
    (hclear : ∀ op ∈ ops, op ≠ .clear) (hn : s.NullifiersSound) : s'.NullifiersSound :=
  Op.Run.preserves_of (fun _ _ _ hn hop ha happ => hn.step hop ha happ) h hclear hn


/-- With no stale entries, a nullifier index names at `nf` exactly the pooled transaction that reveals `nf`. -/
theorem lookSprout_eq_some_iff (hinv : s.PoolInv) (hsound : s.NullifiersSound) {nf : Uint256} {C : CTransaction} :
    s.mapSproutNullifiers.find nf = some C ↔ s.Pooled C ∧ nf ∈ C.sproutNullifiers := by
  refine ⟨hsound.1 nf C, fun ⟨hpool, hnf⟩ => ?_⟩
  obtain ⟨eC, heC, rfl⟩ := pooled_iff.1 hpool
  exact (hinv.nullifiers eC heC).1 nf hnf

theorem lookSapling_eq_some_iff (hinv : s.PoolInv) (hsound : s.NullifiersSound) {nf : Uint256} {C : CTransaction} :
    s.mapSaplingNullifiers.find nf = some C ↔ s.Pooled C ∧ nf ∈ C.saplingNullifiers := by
  refine ⟨hsound.2 nf C, fun ⟨hpool, hnf⟩ => ?_⟩
  obtain ⟨eC, heC, rfl⟩ := pooled_iff.1 hpool
  exact (hinv.nullifiers eC heC).2 nf hnf

/-- With no stale entries, `nullifierExists` answers whether a pooled transaction reveals the nullifier. -/
theorem nullifierExists_iff (hinv : s.PoolInv) (hsound : s.NullifiersSound) (nf : Uint256) :
    (s.nullifierExists nf .SPROUT = true ↔ ∃ tx, s.Pooled tx ∧ nf ∈ tx.sproutNullifiers) ∧
      (s.nullifierExists nf .SAPLING = true ↔ ∃ tx, s.Pooled tx ∧ nf ∈ tx.saplingNullifiers) := by
  simp only [nullifierExists, StdMap.contains_eq, Option.isSome_iff_exists, lookSprout_eq_some_iff hinv hsound,
    lookSapling_eq_some_iff hinv hsound, and_self]

/-! ## The recently-added records -/

/-- Every record `h ↦ T` of `mapRecentlyAddedTx` names a pooled `T` whose hash is `h`. -/
def RecentlyAddedPooled (s : CTxMemPool) : Prop :=
  ∀ p ∈ s.mapRecentlyAddedTx.entries, s.Pooled p.2 ∧ p.2.hash = p.1

theorem RecentlyAddedPooled.sound (hr : s.RecentlyAddedPooled) : s.RecentlyAddedSound := fun _ _ hf => by
  obtain ⟨hp, hh⟩ := hr _ (StdMap.mem_of_find_eq_some hf)
  obtain ⟨e, he, rfl⟩ := pooled_iff.1 hp
  exact ⟨e, he, hh⟩

/-- The body of `remove`'s loop erases the record under the hash it erases. -/
theorem RecentlyAddedPooled.eraseEntry {h : Uint256} {e : CTxMemPoolEntry} (hr : s.RecentlyAddedPooled) :
    (s.eraseEntry h e).RecentlyAddedPooled := fun p hp => by
  rw [eraseEntry_mapRecentlyAddedTx, StdMap.mem_erase] at hp
  obtain ⟨hpool, hh⟩ := hr p hp.1
  exact ⟨pooled_eraseEntry.2 ⟨hpool, hh ▸ hp.2⟩, hh⟩

theorem RecentlyAddedPooled.removalClosed : RemovalClosed RecentlyAddedPooled :=
  ⟨fun _ _ _ hr _ => hr.eraseEntry, fun _ _ hr => hr⟩

/-- `addUnchecked`, made as its callers guarantee, records the transaction it pools under its hash. -/
theorem RecentlyAddedPooled.addUnchecked {hash : Uint256} {entry : CTxMemPoolEntry} (hr : s.RecentlyAddedPooled)
    (hok : Op.AddOk s hash entry) : (s.addUnchecked hash entry).RecentlyAddedPooled := fun p hp => by
  rw [addUnchecked_eq hok.hash_eq hok.fresh] at hp
  rw [pooled_addUnchecked hok]
  rcases StdMap.mem_insert hp with rfl | hp
  · exact ⟨.inr rfl, rfl⟩
  · exact (hr p hp).imp_left .inl

theorem RecentlyAddedPooled.empty (fA fS : Bool) : (CTxMemPool.empty fA fS).RecentlyAddedPooled :=
  fun _ hp => absurd hp (List.not_mem_nil _)

/-- Every allowed call other than `clear()` keeps every record naming a pooled transaction under its hash. -/
theorem RecentlyAddedPooled.step {op : Op} {s' : CTxMemPool} (hr : s.RecentlyAddedPooled) (hop : op ≠ .clear)
    (ha : op.Allowed s) (h : op.apply s = some s') : s'.RecentlyAddedPooled := by
  rcases step_cases ha h with ⟨_, _, hok, rfl⟩ | hrem | ⟨rfl, -⟩ | hb
  · exact hr.addUnchecked hok
  · exact hrem _ RecentlyAddedPooled.removalClosed hr
  · exact absurd rfl hop
  · intro p hp
    simpa only [Pooled, lookup, hb.same.mapTx] using hr p (hb.recent p hp)

/-- A run without `clear()` keeps every record naming a pooled transaction under its hash. -/
theorem RecentlyAddedPooled.of_run {s' : CTxMemPool} {ops : List Op} (h : Op.Run s ops s')
    (hclear : ∀ op ∈ ops, op ≠ .clear) (hr : s.RecentlyAddedPooled) : s'.RecentlyAddedPooled :=
  Op.Run.preserves_of (fun _ _ _ hr hop ha happ => hr.step hop ha happ) h hclear hr

/-- `NotifyRecentlyAdded` delivers the recorded transactions, so only pooled ones when every record names one. -/
theorem RecentlyAddedPooled.notify_pooled (hr : s.RecentlyAddedPooled) (regtest : Bool) :
    ∀ tx ∈ (s.NotifyRecentlyAdded regtest).1, s.Pooled tx := fun _ htx => by
  obtain ⟨p, hp, rfl⟩ := List.mem_map.1 htx
  exact (hr p hp).1

end CTxMemPool

end VerusCoin
