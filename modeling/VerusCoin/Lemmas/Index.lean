import Mathlib.Data.Prod.Lex
import VerusCoin.Index
import VerusCoin.Lemmas.PoolInv
import VerusCoin.Lemmas.PruneSpent

/-!
# The auxiliary indexes agree with the pool

An index and its per-transaction lists agree (`Listing`) when every listed key holds a record owned by the listing
hash and every record is listed under its owner: the key's transaction hash for the address index, the spender for the
spent index. The purge of `remove` keeps the agreement of any index (`Listing.eraseInserted`); an insertion keeps it
when its hash has no list yet and none of its keys has a record (`Listing.insertPairs`). Both insertions meet these
conditions, the spent index by the pool invariant (pooled transactions spend distinct outpoints). So every call of a
run without `clear()` keeps `IndexInv`, which also says that a listed hash is pooled and that the address index stays
in key order, where the scan of `getAddressIndex` from `lower_bound` reads exactly the records of one address.
-/

namespace VerusCoin

/-! ## The key order of the address index -/

namespace CMempoolAddressDeltaKey

theorem compare_eq (a b : CMempoolAddressDeltaKey) :
    compare a b = (compare a.type b.type).then ((compare a.addressBytes b.addressBytes).then
      ((compare a.txhash b.txhash).then ((compare a.index b.index).then
        ((compare a.spending b.spending).then .eq)))) := by
  cases a; cases b; rfl

/-- The key order of the address index is lexicographic: type, address, transaction hash, index, spending. -/
theorem compare_eq_lt {a b : CMempoolAddressDeltaKey} :
    compare a b = .lt ↔ a.type < b.type ∨ a.type = b.type ∧ (a.addressBytes < b.addressBytes ∨
      a.addressBytes = b.addressBytes ∧ (a.txhash < b.txhash ∨ a.txhash = b.txhash ∧ (a.index < b.index ∨
        a.index = b.index ∧ a.spending.toNat < b.spending.toNat))) := by
  have hlt : ∀ x y : Bool, compare x y = .lt ↔ x.toNat < y.toNat := by decide
  have heq : ∀ x y : Bool, compare x y = .eq ↔ x = y := by decide
  simp [compare_eq, Ordering.then_eq_lt, Nat.compare_eq_lt, Nat.compare_eq_eq, hlt, heq]

/-- A key as an element of the lexicographic product of its fields. -/
def lexKey (a : CMempoolAddressDeltaKey) : ℕ ×ₗ ℕ ×ₗ ℕ ×ₗ ℕ ×ₗ Bool :=
  toLex (a.type, toLex (a.addressBytes, toLex (a.txhash, toLex (a.index, a.spending))))

theorem compare_eq_lt_iff_lexKey {a b : CMempoolAddressDeltaKey} : compare a b = .lt ↔ a.lexKey < b.lexKey := by
  have hlt : ∀ x y : Bool, compare x y = .lt ↔ x < y := by decide
  have heq : ∀ x y : Bool, compare x y = .eq ↔ x = y := by decide
  simp [compare_eq, lexKey, Ordering.then_eq_lt, Nat.compare_eq_lt, Nat.compare_eq_eq, hlt, heq, Prod.Lex.lt_iff]

theorem lexKey_injective {a b : CMempoolAddressDeltaKey} (h : a.lexKey = b.lexKey) : a = b := by
  cases a; cases b; simpa [lexKey] using h

theorem compare_lt_trans {a b c : CMempoolAddressDeltaKey} (hab : compare a b = .lt) (hbc : compare b c = .lt) :
    compare a c = .lt := by
  rw [compare_eq_lt_iff_lexKey] at *
  exact lt_trans hab hbc

theorem compare_lt_of_ne {a b : CMempoolAddressDeltaKey} (hne : a ≠ b) (h : compare a b ≠ .lt) :
    compare b a = .lt := by
  rw [Ne, compare_eq_lt_iff_lexKey] at h
  rw [compare_eq_lt_iff_lexKey]
  exact lt_of_le_of_ne (not_lt.1 h) fun h' => hne (lexKey_injective h'.symm)

theorem compare_lt_irrefl (a : CMempoolAddressDeltaKey) : compare a a ≠ .lt := by
  simp [compare_eq_lt]

end CMempoolAddressDeltaKey

namespace StdMap

variable {K V : Type} [DecidableEq K] [Ord K]
  (htrans : ∀ a b c : K, compare a b = .lt → compare b c = .lt → compare a c = .lt)
  (htotal : ∀ a b : K, a ≠ b → compare a b ≠ .lt → compare b a = .lt)
include htrans htotal

/-- `std::map::insert` keeps a map in key order. -/
theorem Ordered.insertPairs {m : StdMap K V} (h : m.Ordered) (kvs : List (K × V)) : (m.insertPairs kvs).Ordered := by
  induction kvs generalizing m with
  | nil => exact h
  | cons p kvs ih =>
    refine ih ?_
    show (m.insertPair p.1 p.2).Ordered
    unfold insertPair
    split
    · exact h
    · exact pairwise_insertList htrans htotal p.1 p.2 h

end StdMap

theorem StdMap.Ordered.eraseInserted {K V : Type} [DecidableEq K] [Ord K] {records : StdMap K V}
    (h : records.Ordered) (inserted : StdMap Uint256 (List K)) (t : Uint256) :
    (CTxMemPool.eraseInserted records inserted t).1.Ordered := by
  unfold CTxMemPool.eraseInserted
  split
  · exact h.eraseAll _
  · exact h

/-! ## The scan from `lower_bound` -/

section Scan

variable {K V : Type} [Ord K] {lo : K} {P : K → Prop} [DecidablePred P]

/-- In a list in key order whose keys are all at least `lo`, the entries while `P` holds are those satisfying `P`,
when no key at least `lo` that fails `P` comes before one that satisfies it. -/
theorem takeWhile_eq_filter_of_block (hblock : ∀ a b, compare a lo ≠ .lt → ¬P a → P b → compare a b ≠ .lt) :
    ∀ {l : List (K × V)}, l.Pairwise (fun p q => compare p.1 q.1 = .lt) → (∀ p ∈ l, compare p.1 lo ≠ .lt) →
      l.takeWhile (fun p => P p.1) = l.filter (fun p => P p.1)
  | [], _, _ => rfl
  | p :: l, hl, hge => by
    rw [List.pairwise_cons] at hl
    by_cases hp : P p.1
    · simp only [List.takeWhile_cons, List.filter_cons, hp, decide_True, if_true]
      exact congrArg _ (takeWhile_eq_filter_of_block hblock hl.2 fun q hq => hge q (List.mem_cons_of_mem _ hq))
    · simp only [List.takeWhile_cons, List.filter_cons, hp, decide_False, Bool.false_eq_true, if_false]
      refine (List.filter_eq_nil_iff.2 fun q hq hPq => ?_).symm
      exact hblock p.1 q.1 (hge p (List.mem_cons_self _ _)) hp (by simpa using hPq) (hl.1 q hq)

/-- In a list in key order, the entries from the first key not less than `lo` while `P` holds are exactly the
entries satisfying `P`, when every key satisfying `P` is at least `lo` and those keys form one block. -/
theorem scan_eq_filter_of_block (htrans : ∀ a b c : K, compare a b = .lt → compare b c = .lt → compare a c = .lt)
    (hlo : ∀ k, P k → compare k lo ≠ .lt) (hblock : ∀ a b, compare a lo ≠ .lt → ¬P a → P b → compare a b ≠ .lt) :
    ∀ {l : List (K × V)}, l.Pairwise (fun p q => compare p.1 q.1 = .lt) →
      (l.dropWhile (fun p => compare p.1 lo = .lt)).takeWhile (fun p => P p.1) = l.filter (fun p => P p.1)
  | [], _ => rfl
  | p :: l, hl => by
    by_cases hlt : compare p.1 lo = .lt
    · have hp : ¬P p.1 := fun hp => hlo _ hp hlt
      simp only [List.dropWhile_cons, hlt, decide_True, if_true, List.filter_cons, hp, decide_False,
        Bool.false_eq_true, if_false]
      exact scan_eq_filter_of_block htrans hlo hblock (List.pairwise_cons.1 hl).2
    · simp only [List.dropWhile_cons, hlt, decide_False, Bool.false_eq_true, if_false]
      refine takeWhile_eq_filter_of_block hblock hl fun q hq => ?_
      rcases List.mem_cons.1 hq with rfl | hq
      · exact hlt
      · exact fun hq' => hlt (htrans _ _ _ ((List.pairwise_cons.1 hl).1 q hq) hq')

end Scan

namespace CTxMemPool

/-- With `mapAddress` in key order, the scan of `getAddressIndex` for an address and type reads exactly the records
with that address and type, in key order. -/
theorem addressScan_eq_filter {s : CTxMemPool} (hord : s.mapAddress.Ordered) (a : Nat × Nat) :
    s.addressScan a = s.mapAddress.entries.filter fun p => p.1.addressBytes = a.1 ∧ p.1.type = a.2 := by
  rw [addressScan, StdMap.lowerBound]
  refine scan_eq_filter_of_block (P := fun k => k.addressBytes = a.1 ∧ k.type = a.2)
    (fun _ _ _ => CMempoolAddressDeltaKey.compare_lt_trans) (fun k hk => ?_) (fun k k' hk hnk hk' => ?_) hord
  · simp only [Ne, CMempoolAddressDeltaKey.compare_eq_lt, Bool.toNat_false]
    dsimp only [Uint256] at *
    omega
  · simp only [Ne, CMempoolAddressDeltaKey.compare_eq_lt, Bool.toNat_false] at *
    dsimp only [Uint256] at *
    omega

/-- With `mapAddress` in key order, `getAddressIndex` appends, address by address, the records of `mapAddress` with
that address and type. -/
theorem getAddressIndex_eq_filter {s : CTxMemPool} (hord : s.mapAddress.Ordered) (addresses : List (Nat × Nat))
    (results : List (CMempoolAddressDeltaKey × CMempoolAddressDelta)) :
    s.getAddressIndex addresses results = results ++ addresses.flatMap fun a =>
      s.mapAddress.entries.filter fun p => p.1.addressBytes = a.1 ∧ p.1.type = a.2 := by
  rw [getAddressIndex]
  congr 2
  funext a
  exact addressScan_eq_filter hord a

/-! ## Records of the insertions -/

section Fields

variable (s : CTxMemPool) (entry : CTxMemPoolEntry) (ctx : IndexContext)

@[simp] theorem addAddressIndex_mapAddress : (s.addAddressIndex entry ctx).mapAddress =
    s.mapAddress.insertPairs (spendingAddressRecords ctx entry ++ receivingAddressRecords ctx entry) := rfl

@[simp] theorem addAddressIndex_mapAddressInserted : (s.addAddressIndex entry ctx).mapAddressInserted =
    s.mapAddressInserted.insertPair entry.tx.hash
      ((spendingAddressRecords ctx entry ++ receivingAddressRecords ctx entry).map Prod.fst) := rfl

@[simp] theorem addSpentIndex_mapSpent : (s.addSpentIndex entry ctx).mapSpent =
    s.mapSpent.insertPairs (spentRecords ctx entry) := rfl

@[simp] theorem addSpentIndex_mapSpentInserted : (s.addSpentIndex entry ctx).mapSpentInserted =
    s.mapSpentInserted.insertPair entry.tx.hash ((spentRecords ctx entry).map Prod.fst) := rfl

end Fields

theorem key_of_mem_spendingAddressRecords {ctx : IndexContext} {entry : CTxMemPoolEntry}
    {p : CMempoolAddressDeltaKey × CMempoolAddressDelta} (hp : p ∈ spendingAddressRecords ctx entry) :
    p.1.txhash = entry.tx.hash ∧ p.1.spending = true := by
  simp only [spendingAddressRecords] at hp
  split at hp
  · cases hp
  · obtain ⟨⟨j, input⟩, -, hj⟩ := List.mem_filterMap.1 hp
    split at hj
    · cases hj
    · cases hj
      exact ⟨rfl, rfl⟩

theorem key_of_mem_receivingAddressRecords {ctx : IndexContext} {entry : CTxMemPoolEntry}
    {p : CMempoolAddressDeltaKey × CMempoolAddressDelta} (hp : p ∈ receivingAddressRecords ctx entry) :
    p.1.txhash = entry.tx.hash ∧ p.1.spending = false := by
  simp only [receivingAddressRecords] at hp
  obtain ⟨⟨j, out⟩, -, hj⟩ := List.mem_filterMap.1 hp
  split at hj
  · cases hj
  · cases hj
    exact ⟨rfl, rfl⟩

theorem txhash_of_mem_addressRecords {ctx : IndexContext} {entry : CTxMemPoolEntry}
    {p : CMempoolAddressDeltaKey × CMempoolAddressDelta}
    (hp : p ∈ spendingAddressRecords ctx entry ++ receivingAddressRecords ctx entry) : p.1.txhash = entry.tx.hash :=
  (List.mem_append.1 hp).elim (fun hp => (key_of_mem_spendingAddressRecords hp).1)
    fun hp => (key_of_mem_receivingAddressRecords hp).1

/-- In a list built by a loop over the positions of another, a record that carries its position is fixed by it. -/
theorem eq_of_mem_filterMap_enum {α β : Type} {l : List α} {F : ℕ × α → Option β} {g : β → ℕ}
    (hg : ∀ j x b, F (j, x) = some b → g b = j) {p q : β} (hp : p ∈ l.enum.filterMap F)
    (hq : q ∈ l.enum.filterMap F) (h : g p = g q) : p = q := by
  obtain ⟨⟨j, x⟩, hjx, hp⟩ := List.mem_filterMap.1 hp
  obtain ⟨⟨j', x'⟩, hjx', hq⟩ := List.mem_filterMap.1 hq
  obtain rfl : j = j' := (hg _ _ _ hp).symm.trans (h.trans (hg _ _ _ hq))
  obtain rfl : x = x' := (List.mem_enum hjx).2.trans (List.mem_enum hjx').2.symm
  exact Option.some.inj (hp.symm.trans hq)

/-- The records `addAddressIndex` inserts have pairwise distinct keys: the `spending` flag of a key names its loop and
its index the position in that loop. -/
theorem eq_of_mem_addressRecords {ctx : IndexContext} {entry : CTxMemPoolEntry}
    {p q : CMempoolAddressDeltaKey × CMempoolAddressDelta}
    (hp : p ∈ spendingAddressRecords ctx entry ++ receivingAddressRecords ctx entry)
    (hq : q ∈ spendingAddressRecords ctx entry ++ receivingAddressRecords ctx entry) (h : p.1 = q.1) : p = q := by
  rcases List.mem_append.1 hp with hp' | hp' <;> rcases List.mem_append.1 hq with hq' | hq'
  · unfold spendingAddressRecords at hp' hq'
    split at hp'
    · cases hp'
    · rw [if_neg ‹_›] at hq'
      refine eq_of_mem_filterMap_enum (g := fun b => b.1.index) (fun j x b hb => ?_) hp' hq' (congrArg _ h)
      dsimp only at hb
      split at hb
      · cases hb
      · cases hb; rfl
  · have hs := (key_of_mem_spendingAddressRecords hp').2
    rw [h, (key_of_mem_receivingAddressRecords hq').2] at hs
    cases hs
  · have hs := (key_of_mem_receivingAddressRecords hp').2
    rw [h, (key_of_mem_spendingAddressRecords hq').2] at hs
    cases hs
  · refine eq_of_mem_filterMap_enum (g := fun b => b.1.index) (fun j x b hb => ?_) hp' hq' (congrArg _ h)
    dsimp only at hb
    split at hb
    · cases hb
    · cases hb; rfl

theorem spentRecords_map_fst (ctx : IndexContext) (entry : CTxMemPoolEntry) :
    (spentRecords ctx entry).map Prod.fst = entry.tx.vin.map fun input => ⟨input.prevout.hash, input.prevout.n⟩ := by
  conv_rhs => rw [← List.enum_map_snd entry.tx.vin, List.map_map]
  rw [spentRecords, List.map_map]
  rfl

theorem mem_spentRecords {ctx : IndexContext} {entry : CTxMemPoolEntry} {p : CSpentIndexKey × CSpentIndexValue}
    (hp : p ∈ spentRecords ctx entry) :
    p.2.txid = entry.tx.hash ∧ entry.tx.prevouts[p.2.inputIndex]? = some ⟨p.1.txid, p.1.outputIndex⟩ := by
  obtain ⟨⟨j, input⟩, hj, rfl⟩ := List.mem_map.1 hp
  obtain ⟨hlt, hin⟩ := List.mem_enum hj
  simp [CTransaction.prevouts, List.getElem?_eq_getElem hlt, hin]

/-- The records `addSpentIndex` inserts have pairwise distinct keys when the inputs spend distinct outpoints. -/
theorem eq_of_mem_spentRecords {ctx : IndexContext} {entry : CTxMemPoolEntry} (hnd : entry.tx.prevouts.Nodup)
    {p q : CSpentIndexKey × CSpentIndexValue} (hp : p ∈ spentRecords ctx entry) (hq : q ∈ spentRecords ctx entry)
    (h : p.1 = q.1) : p = q := by
  obtain ⟨⟨j, x⟩, hjx, rfl⟩ := List.mem_map.1 hp
  obtain ⟨⟨j', x'⟩, hjx', rfl⟩ := List.mem_map.1 hq
  obtain ⟨hj, hx⟩ := List.mem_enum hjx
  obtain ⟨hj', hx'⟩ := List.mem_enum hjx'
  have hpo : entry.tx.vin[j].prevout = entry.tx.vin[j'].prevout := by
    rw [← hx, ← hx']
    simp only [CSpentIndexKey.mk.injEq] at h
    cases hxp : x.prevout
    cases hxp' : x'.prevout
    simp_all
  obtain rfl := CTransaction.prevout_inj hnd hj hj' hpo
  obtain rfl : x = x' := hx.trans hx'.symm
  rfl

/-! ## An index and its lists -/

section Listing

variable {K V : Type} [DecidableEq K] {records : StdMap K V} {inserted : StdMap Uint256 (List K)}
  {owner : K → V → Uint256}

/-- An index and its lists agree: every key listed under a hash holds a record owned by that hash, and every record
is listed under its owner. -/
structure Listing (records : StdMap K V) (inserted : StdMap Uint256 (List K)) (owner : K → V → Uint256) : Prop where
  listed : ∀ t keys, inserted.find t = some keys → ∀ k ∈ keys, ∃ v, records.find k = some v ∧ owner k v = t
  record : ∀ k v, records.find k = some v → ∃ keys, inserted.find (owner k v) = some keys ∧ k ∈ keys

theorem Listing.empty : Listing (.empty : StdMap K V) .empty owner := ⟨by simp, by simp⟩

theorem find_eraseInserted_fst (records : StdMap K V) (inserted : StdMap Uint256 (List K)) (h : Uint256) (k : K) :
    (eraseInserted records inserted h).1.find k = if k ∈ (inserted.find h).getD [] then none else records.find k := by
  unfold eraseInserted
  cases inserted.find h <;> simp

theorem find_eraseInserted_snd (records : StdMap K V) (inserted : StdMap Uint256 (List K)) (h t : Uint256) :
    (eraseInserted records inserted h).2.find t = if t = h then none else inserted.find t := by
  unfold eraseInserted
  cases hf : inserted.find h with
  | none => by_cases ht : t = h <;> simp [ht, hf]
  | some keys => simp

/-- With no list while its index is off, the purge of `remove` does the same whether or not the index is on. -/
theorem ite_eraseInserted (records : StdMap K V) (inserted : StdMap Uint256 (List K)) (h : Uint256) {f : Bool}
    (hoff : ∀ t keys, inserted.find t = some keys → f = true) :
    (if f then (eraseInserted records inserted h).1 else records) = (eraseInserted records inserted h).1 ∧
      (if f then (eraseInserted records inserted h).2 else inserted) = (eraseInserted records inserted h).2 := by
  cases f
  · cases hf : inserted.find h with
    | none => simp [eraseInserted, hf]
    | some keys => exact absurd (hoff h keys hf) Bool.false_ne_true
  · exact ⟨rfl, rfl⟩

/-- The purge of `remove` keeps an index and its lists in agreement: a key listed under another hash is not purged,
since its record is owned by that hash. -/
theorem Listing.eraseInserted (hL : Listing records inserted owner) (h : Uint256) :
    Listing (eraseInserted records inserted h).1 (eraseInserted records inserted h).2 owner := by
  constructor
  · intro t keys ht k hk
    rw [find_eraseInserted_snd] at ht
    split_ifs at ht with hth
    obtain ⟨v, hv, hown⟩ := hL.listed t keys ht k hk
    refine ⟨v, ?_, hown⟩
    rw [find_eraseInserted_fst, if_neg, hv]
    intro hkh
    cases hf : inserted.find h with
    | none => simp [hf] at hkh
    | some kh =>
      rw [hf, Option.getD_some] at hkh
      obtain ⟨v', hv', hown'⟩ := hL.listed h kh hf k hkh
      rw [hv, Option.some.injEq] at hv'
      subst hv'
      exact hth (hown.symm.trans hown')
  · intro k v hkv
    rw [find_eraseInserted_fst] at hkv
    split_ifs at hkv with hkh
    obtain ⟨keys, hkeys, hk⟩ := hL.record k v hkv
    refine ⟨keys, ?_, hk⟩
    have hne : owner k v ≠ h := fun heq => hkh (by rw [← heq, hkeys]; exact hk)
    rw [find_eraseInserted_snd, if_neg hne]
    exact hkeys

/-- A loop of `std::map::insert` and the list of its keys under a fresh hash keep an index and its lists in
agreement, when every record is owned by that hash and none of its keys has a record yet. -/
theorem Listing.insertPairs [Ord K] (hL : Listing records inserted owner) {t : Uint256} {recs : List (K × V)}
    (hfresh : inserted.find t = none) (hown : ∀ p ∈ recs, owner p.1 p.2 = t)
    (hnew : ∀ p ∈ recs, records.find p.1 = none) :
    Listing (records.insertPairs recs) (inserted.insertPair t (recs.map Prod.fst)) owner := by
  constructor
  · intro t' keys ht' k hk
    rw [StdMap.find_insertPair] at ht'
    split_ifs at ht' with htt
    · rw [hfresh, Option.getD_none, Option.some.injEq] at ht'
      subst ht' htt
      obtain ⟨v, hv⟩ := Option.isSome_iff_exists.1 (StdMap.isSome_find_insertPairs records hk)
      refine ⟨v, hv, ?_⟩
      rcases StdMap.find_insertPairs_eq_some hv with hv' | hv'
      · obtain ⟨p, hp, rfl⟩ := List.mem_map.1 hk
        rw [hnew p hp] at hv'
        cases hv'
      · exact hown _ hv'
    · obtain ⟨v, hv, hown'⟩ := hL.listed t' keys ht' k hk
      exact ⟨v, StdMap.find_insertPairs_of_find hv recs, hown'⟩
  · intro k v hkv
    rcases StdMap.find_insertPairs_eq_some hkv with hkv | hkv
    · obtain ⟨keys, hkeys, hk⟩ := hL.record k v hkv
      refine ⟨keys, ?_, hk⟩
      rw [StdMap.find_insertPair, if_neg fun heq => by rw [heq, hfresh] at hkeys; cases hkeys]
      exact hkeys
    · refine ⟨recs.map Prod.fst, ?_, List.mem_map.2 ⟨_, hkv, rfl⟩⟩
      rw [StdMap.find_insertPair, if_pos (hown _ hkv), hfresh]
      rfl

end Listing

/-! ## The invariant of the auxiliary indexes -/

/-- The auxiliary indexes agree with the pool. Each index agrees with its lists: an address record is owned by its
key's transaction hash, a spent record by the spender it names. A hash has a list only with its index on and the hash
pooled, and the spent index lists the outpoints that transaction's inputs spend. A spent record names a pooled
transaction whose input at the recorded position spends the key. The address index is in key order. -/
structure IndexInv (s : CTxMemPool) : Prop where
  address : Listing s.mapAddress s.mapAddressInserted fun k _ => k.txhash
  addressPooled : ∀ t keys, s.mapAddressInserted.find t = some keys → s.fAddressIndex = true ∧ (s.mapTx.find t).isSome
  spent : Listing s.mapSpent s.mapSpentInserted fun _ v => v.txid
  spentPooled : ∀ t keys, s.mapSpentInserted.find t = some keys → s.fSpentIndex = true ∧
    ∃ e, s.mapTx.find t = some e ∧ keys = e.tx.vin.map fun input => ⟨input.prevout.hash, input.prevout.n⟩
  spender : ∀ k v, s.mapSpent.find k = some v →
    ∃ e, s.mapTx.find v.txid = some e ∧ e.tx.prevouts[v.inputIndex]? = some ⟨k.txid, k.outputIndex⟩
  addressOrdered : s.mapAddress.Ordered

variable {s : CTxMemPool}

theorem IndexInv.empty (fA fS : Bool) : (CTxMemPool.empty fA fS).IndexInv :=
  ⟨Listing.empty, by simp [CTxMemPool.empty], Listing.empty, by simp [CTxMemPool.empty],
    by simp [CTxMemPool.empty], List.Pairwise.nil⟩

/-- The body of `remove`'s loop keeps the indexes in agreement with the pool: it purges the lists of the erased hash. -/
theorem IndexInv.eraseEntry (hs : s.IndexInv) (h : Uint256) (e : CTxMemPoolEntry) : (s.eraseEntry h e).IndexInv := by
  have hA := ite_eraseInserted s.mapAddress s.mapAddressInserted h fun t k ht => (hs.addressPooled t k ht).1
  have hS := ite_eraseInserted s.mapSpent s.mapSpentInserted h fun t k ht => (hs.spentPooled t k ht).1
  rw [eraseEntry_eq, hA.1, hA.2, hS.1, hS.2]
  refine ⟨hs.address.eraseInserted h, fun t keys ht => ?_, hs.spent.eraseInserted h, fun t keys ht => ?_,
    fun k v hkv => ?_, hs.addressOrdered.eraseInserted _ h⟩
  · simp only [find_eraseInserted_snd] at ht
    split_ifs at ht with hth
    simpa [hth] using hs.addressPooled t keys ht
  · simp only [find_eraseInserted_snd] at ht
    split_ifs at ht with hth
    simpa [hth] using hs.spentPooled t keys ht
  · simp only [find_eraseInserted_fst] at hkv
    split_ifs at hkv with hkh
    obtain ⟨e', he', hin⟩ := hs.spender k v hkv
    have hne : v.txid ≠ h := by
      rintro rfl
      obtain ⟨keys, hkeys, hk⟩ := hs.spent.record k v hkv
      exact hkh (by simpa [hkeys] using hk)
    exact ⟨e', by simpa [hne] using he', hin⟩

theorem indexInv_removalClosed : RemovalClosed IndexInv :=
  ⟨fun _ h e hs _ => hs.eraseEntry h e, fun _ _ hs => ⟨hs.1, hs.2, hs.3, hs.4, hs.5, hs.6⟩⟩

/-- `addUnchecked` keeps every pooled hash pooled and leaves the indexes alone. -/
theorem IndexInv.addUnchecked (hs : s.IndexInv) (hash : Uint256) (entry : CTxMemPoolEntry) :
    (s.addUnchecked hash entry).IndexInv := by
  have hkeep : ∀ {t e}, s.mapTx.find t = some e → (s.addUnchecked hash entry).mapTx.find t = some e := fun hf => by
    show (s.mapTx.insert entry).find _ = _
    rw [TxSet.find_insert, if_neg (by simp [hf]), hf]
  refine ⟨hs.address, fun t keys ht => ?_, hs.spent, fun t keys ht => ?_, fun k v hkv => ?_, hs.addressOrdered⟩
  · obtain ⟨hon, hp⟩ := hs.addressPooled t keys ht
    obtain ⟨e, he⟩ := Option.isSome_iff_exists.1 hp
    exact ⟨hon, by simp [hkeep he]⟩
  · obtain ⟨hon, e, he, hkeys⟩ := hs.spentPooled t keys ht
    exact ⟨hon, e, hkeep he, hkeys⟩
  · obtain ⟨e, he, hin⟩ := hs.spender k v hkv
    exact ⟨e, hkeep he, hin⟩

/-- Every pool call but `clear()` keeps the indexes in agreement with the pool. -/
theorem IndexInv.callStep {op : Op} {s' : CTxMemPool} (hs : s.IndexInv) (hop : op ≠ .clear) (ha : op.Allowed s)
    (happ : op.apply s = some s') : s'.IndexInv := by
  rcases call_cases ha happ with ⟨_, _, -, -, rfl⟩ | ⟨_, -, rfl⟩ | ⟨rfl, -⟩ | ⟨-, -, hrem | hb⟩
  · exact hs.addUnchecked _ _
  · exact ⟨hs.1, hs.2, hs.3, hs.4, hs.5, hs.6⟩
  · exact absurd rfl hop
  · exact hrem _ indexInv_removalClosed hs
  -- bookkeeping leaves `mapTx`, the flags and the auxiliary indexes alone
  · rw [hb]
    exact ⟨hs.1, hs.2, hs.3, hs.4, hs.5, hs.6⟩

/-- A key of a hash with no list in the address index has no address record. -/
theorem IndexInv.find_mapAddress_of_unlisted (hs : s.IndexInv) {t : Uint256} (ht : s.mapAddressInserted.find t = none)
    {k : CMempoolAddressDeltaKey} (hk : k.txhash = t) : s.mapAddress.find k = none := by
  cases hf : s.mapAddress.find k with
  | none => rfl
  | some d =>
    obtain ⟨keys, hkeys, -⟩ := hs.address.record k d hf
    rw [hk, ht] at hkeys
    cases hkeys

/-- An outpoint spent by a pooled transaction with no list in the spent index has no spent record: a record would
name a pooled spender of it, by the pool invariant that transaction itself. -/
theorem IndexInv.find_mapSpent_of_unlisted (hi : s.PoolInv) (hs : s.IndexInv) {entry : CTxMemPoolEntry}
    (hpool : s.mapTx.find entry.GetHash = some entry) (hfresh : s.mapSpentInserted.find entry.GetHash = none)
    {o : COutPoint} (ho : o ∈ entry.tx.prevouts) : s.mapSpent.find ⟨o.hash, o.n⟩ = none := by
  cases hf : s.mapSpent.find ⟨o.hash, o.n⟩ with
  | none => rfl
  | some v =>
    obtain ⟨e', he', hin⟩ := hs.spender _ v hf
    obtain ⟨hmem', hhash'⟩ := (TxSet.find_eq_some_iff _ _ _).1 he'
    have hsame : e'.GetHash = entry.GetHash := by
      by_contra hne
      exact hi.disjoint e' hmem' entry ((TxSet.find_eq_some_iff _ _ _).1 hpool).1 hne o (List.getElem?_mem hin) ho
    obtain ⟨keys, hkeys, -⟩ := hs.spent.record _ v hf
    rw [← hhash', hsame, hfresh] at hkeys
    cases hkeys

/-- `addAddressIndex`, made as its callers guarantee, keeps the indexes in agreement with the pool: its keys carry
the entry's hash, which has no list yet. -/
theorem IndexInv.addAddressIndex (hs : s.IndexInv) {entry : CTxMemPoolEntry} {ctx : IndexContext}
    (ha : (IndexOp.addAddressIndex entry ctx).Allowed s) : (s.addAddressIndex entry ctx).IndexInv := by
  obtain ⟨hon, hpool, hfresh⟩ := ha
  have hfresh' : s.mapAddressInserted.find entry.tx.hash = none := hfresh
  have hown : ∀ p ∈ spendingAddressRecords ctx entry ++ receivingAddressRecords ctx entry,
      p.1.txhash = entry.tx.hash := fun _ hp => txhash_of_mem_addressRecords hp
  refine ⟨hs.address.insertPairs hfresh' hown fun p hp => hs.find_mapAddress_of_unlisted hfresh' (hown p hp),
    fun t keys ht => ?_, hs.spent, hs.spentPooled, hs.spender, hs.addressOrdered.insertPairs
      (fun _ _ _ => CMempoolAddressDeltaKey.compare_lt_trans) (fun _ _ => CMempoolAddressDeltaKey.compare_lt_of_ne) _⟩
  · rw [addAddressIndex_mapAddressInserted, StdMap.find_insertPair] at ht
    split_ifs at ht with htt
    · exact ⟨hon, by rw [htt]; exact Option.isSome_iff_exists.2 ⟨entry, hpool⟩⟩
    · exact hs.addressPooled t keys ht

/-- `addSpentIndex`, made as its callers guarantee, keeps the indexes in agreement with the pool: the outpoints the
entry spends have no record yet. -/
theorem IndexInv.addSpentIndex (hi : s.PoolInv) (hs : s.IndexInv) {entry : CTxMemPoolEntry} {ctx : IndexContext}
    (ha : (IndexOp.addSpentIndex entry ctx).Allowed s) : (s.addSpentIndex entry ctx).IndexInv := by
  obtain ⟨hon, hpool, hfresh⟩ := ha
  have hfresh' : s.mapSpentInserted.find entry.tx.hash = none := hfresh
  refine ⟨hs.address, hs.addressPooled, hs.spent.insertPairs hfresh' (fun p hp => (mem_spentRecords hp).1)
    fun p hp => ?_, fun t keys ht => ?_, fun k v hkv => ?_, hs.addressOrdered⟩
  · exact hs.find_mapSpent_of_unlisted hi hpool hfresh (List.getElem?_mem (mem_spentRecords hp).2)
  · rw [addSpentIndex_mapSpentInserted, StdMap.find_insertPair] at ht
    split_ifs at ht with htt
    · rw [hfresh', Option.getD_none, Option.some.injEq] at ht
      exact ⟨hon, entry, by rw [htt]; exact hpool, by rw [← ht, spentRecords_map_fst]⟩
    · exact hs.spentPooled t keys ht
  · rcases StdMap.find_insertPairs_eq_some hkv with hkv | hkv
    · exact hs.spender k v hkv
    · obtain ⟨hid, hin⟩ := mem_spentRecords hkv
      exact ⟨entry, hid ▸ hpool, hin⟩

/-! ## Runs with the index insertions -/

/-- Every allowed call but `clear()` keeps the indexes in agreement with the pool. -/
theorem IndexInv.indexStep {op : IndexOp} {s' : CTxMemPool} (hi : s.PoolInv) (hs : s.IndexInv)
    (hop : op ≠ .call .clear) (ha : op.Allowed s) (happ : op.apply s = some s') : s'.IndexInv := by
  cases op with
  | call op => exact hs.callStep (fun h => hop (h ▸ rfl)) ha happ
  | addAddressIndex entry ctx =>
    obtain rfl := Option.some.inj happ
    exact hs.addAddressIndex ha
  | addSpentIndex entry ctx =>
    obtain rfl := Option.some.inj happ
    exact hs.addSpentIndex hi ha

/-- The index insertions leave `mapTx` and the other indexes alone, so every allowed call keeps the pool invariant. -/
theorem PoolInv.indexStep {op : IndexOp} {s' : CTxMemPool} (hi : s.PoolInv) (ha : op.Allowed s)
    (happ : op.apply s = some s') : s'.PoolInv := by
  cases op with
  | call op => exact hi.step ha happ
  | addAddressIndex entry ctx =>
    obtain rfl := Option.some.inj happ
    exact hi.of_sameIndexes (show SameIndexes s (s.addAddressIndex entry ctx) from ⟨rfl, rfl, rfl, rfl⟩)
  | addSpentIndex entry ctx =>
    obtain rfl := Option.some.inj happ
    exact hi.of_sameIndexes (show SameIndexes s (s.addSpentIndex entry ctx) from ⟨rfl, rfl, rfl, rfl⟩)

/-- Every state a run without `clear()` reaches from a freshly constructed pool satisfies the pool invariant and keeps
its indexes in agreement with the pool. -/
theorem IndexInv.of_run {fA fS : Bool} {ops : List IndexOp} (hrun : IndexOp.Run (CTxMemPool.empty fA fS) ops s)
    (hclear : ∀ op ∈ ops, op ≠ .call .clear) : s.PoolInv ∧ s.IndexInv :=
  @IndexOp.Run.preserves_of (fun s => s.PoolInv ∧ s.IndexInv) (· ≠ .call .clear)
    (fun _ _ _ h hop ha happ => ⟨h.1.indexStep ha happ, h.2.indexStep h.1 hop ha happ⟩) _ _ _ hrun hclear
    ⟨PoolInv.empty fA fS, IndexInv.empty fA fS⟩

end CTxMemPool

end VerusCoin
