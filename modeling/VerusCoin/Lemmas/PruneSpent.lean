import VerusCoin.PruneSpent
import VerusCoin.Lemmas.PoolInv

/-!
# `pruneSpent`: the order of `mapNextTx` and what `Spend` does

`COutPoint` is ordered on the hash, then the index (`COutPoint.compare_eq_lt`). Every run keeps the entries of
`mapNextTx` in strictly increasing key order (`nextTxOrdered_of_reachable`): `operator[]` inserts in place and
`erase` keeps the order. In such a map the keys of one hash form one block starting at `lower_bound((hash, 0))`, so
the scan of `pruneSpent` visits exactly them (`scan_eq_filter`). `Spend(m)` makes output `m` unavailable and keeps
every other available output (`isAvailable_spend`, `getElem?_vout_spend`).
-/

namespace VerusCoin

/-! ## The order of `COutPoint` -/

theorem COutPoint.compare_eq (a b : COutPoint) :
    compare a b = (compare a.hash b.hash).then ((compare a.n b.n).then .eq) := by
  cases a; cases b; rfl

/-- `COutPoint`'s order is lexicographic: on the hash, then on the index. -/
theorem COutPoint.compare_eq_lt {a b : COutPoint} :
    compare a b = .lt ↔ a.hash < b.hash ∨ a.hash = b.hash ∧ a.n < b.n := by
  simp [COutPoint.compare_eq, Ordering.then_eq_lt, Nat.compare_eq_lt, Nat.compare_eq_eq]

theorem COutPoint.compare_lt_trans {a b c : COutPoint} (hab : compare a b = .lt) (hbc : compare b c = .lt) :
    compare a c = .lt := by
  rw [COutPoint.compare_eq_lt] at *
  dsimp only [Uint256] at *
  omega

theorem COutPoint.compare_lt_of_ne {a b : COutPoint} (hne : a ≠ b) (h : compare a b ≠ .lt) : compare b a = .lt := by
  obtain ⟨ha, na⟩ := a
  obtain ⟨hb, nb⟩ := b
  simp only [ne_eq, COutPoint.mk.injEq, COutPoint.compare_eq_lt] at *
  dsimp only [Uint256] at *
  omega

/-! ## Maps in key order -/

namespace StdMap

variable {K V : Type} [DecidableEq K] [Ord K]

/-- The entries of a map are in strictly increasing key order, as a `std::map` iterates them. -/
def Ordered (m : StdMap K V) : Prop := m.entries.Pairwise (fun p q => compare p.1 q.1 = .lt)

omit [Ord K] in
theorem exists_find_of_mem {m : StdMap K V} {p : K × V} (h : p ∈ m.entries) : ∃ v, m.find p.1 = some v := by
  cases hf : m.entries.find? (fun q => q.1 = p.1) with
  | none => exact absurd (List.find?_eq_none.1 hf p h) (by simp)
  | some q => exact ⟨q.2, by simp [find, hf]⟩

theorem Ordered.erase {m : StdMap K V} (h : m.Ordered) (k : K) : (m.erase k).Ordered := h.filter _

theorem Ordered.eraseAll {m : StdMap K V} (h : m.Ordered) (ks : List K) : (m.eraseAll ks).Ordered := by
  induction ks generalizing m with
  | nil => exact h
  | cons k ks ih => exact ih (h.erase k)

section Insert

variable (htrans : ∀ a b c : K, compare a b = .lt → compare b c = .lt → compare a c = .lt)
  (htotal : ∀ a b : K, a ≠ b → compare a b ≠ .lt → compare b a = .lt)
include htrans htotal

/-- `operator[]` keeps a map in key order. -/
theorem pairwise_insertList (k : K) (v : V) : ∀ {l : List (K × V)},
    l.Pairwise (fun p q => compare p.1 q.1 = .lt) → (insertList k v l).Pairwise (fun p q => compare p.1 q.1 = .lt)
  | [], _ => List.pairwise_singleton _ _
  | (k', v') :: t, h => by
    rw [List.pairwise_cons] at h
    unfold insertList
    split_ifs with heq hlt
    · subst heq
      exact List.pairwise_cons.2 h
    · refine List.pairwise_cons.2 ⟨fun q hq => ?_, List.pairwise_cons.2 h⟩
      rcases List.mem_cons.1 hq with rfl | hq
      · exact hlt
      · exact htrans _ _ _ hlt (h.1 q hq)
    · refine List.pairwise_cons.2 ⟨fun q hq => ?_, pairwise_insertList k v h.2⟩
      rcases mem_insertList hq with rfl | hq
      · exact htotal k k' heq hlt
      · exact h.1 q hq

theorem Ordered.insertAll {m : StdMap K V} (h : m.Ordered) (kvs : List (K × V)) : (m.insertAll kvs).Ordered := by
  induction kvs generalizing m with
  | nil => exact h
  | cons p kvs ih => exact ih (pairwise_insertList htrans htotal p.1 p.2 h)

end Insert

end StdMap

/-! ## `mapNextTx` stays in key order -/

namespace CTxMemPool

variable {s : CTxMemPool}

theorem nextTxOrdered_removalClosed : RemovalClosed (fun s : CTxMemPool => s.mapNextTx.Ordered) :=
  ⟨fun s h e hs _ => by simpa using hs.eraseAll e.tx.prevouts, fun _ _ hs => hs⟩

theorem nextTxOrdered_addUnchecked (h : s.mapNextTx.Ordered) (hash : Uint256) (entry : CTxMemPoolEntry) :
    (s.addUnchecked hash entry).mapNextTx.Ordered := by
  simp only [addUnchecked]
  split
  · exact h
  · exact h.insertAll (fun _ _ _ => COutPoint.compare_lt_trans) (fun _ _ => COutPoint.compare_lt_of_ne) _

/-- Every reachable pool keeps `mapNextTx` in key order. -/
theorem nextTxOrdered_of_reachable (h : Op.Reachable s) : s.mapNextTx.Ordered := by
  refine @Op.Reachable.induction (fun s => s.mapNextTx.Ordered) (fun _ _ => List.Pairwise.nil)
    (fun s op s' hs ha happ => ?_) _ h
  rcases step_cases ha happ with ⟨_, _, -, rfl⟩ | hrem | ⟨-, rfl⟩ | hb
  · exact nextTxOrdered_addUnchecked hs _ _
  · exact hrem _ nextTxOrdered_removalClosed hs
  · exact List.Pairwise.nil
  · rw [StdMap.Ordered, hb.same.mapNextTx]
    exact hs

/-- Under the pool invariant, the keys of `mapNextTx` are exactly the outpoints that pooled transactions other than
coin imports spend. -/
theorem mem_nextTx_keys_iff (hinv : s.PoolInv) {o : COutPoint} :
    (∃ p, (o, p) ∈ s.mapNextTx.entries) ↔ ∃ T, s.Pooled T ∧ T.isCoinImport = false ∧ o ∈ T.prevouts := by
  constructor
  · rintro ⟨p, hp⟩
    obtain ⟨v, hv⟩ := StdMap.exists_find_of_mem hp
    obtain ⟨hT, hn, ho⟩ := hinv.sound o v hv
    exact ⟨v.ptx, hT, hinv.notImport o v hv, ho ▸ CTransaction.prevout_mem _ _ hn⟩
  · rintro ⟨T, hT, himp, ho⟩
    obtain ⟨e, he, rfl⟩ := pooled_iff.1 hT
    obtain ⟨i, hi, rfl⟩ := CTransaction.mem_prevouts.1 ho
    exact ⟨_, StdMap.mem_of_find_eq_some (hinv.complete e he himp i hi)⟩

end CTxMemPool

/-! ## The scan of `pruneSpent` -/

section Scan

variable {V : Type} {h : Uint256}

/-- In a list in key order whose hashes are all at least `h`, the keys of hash `h` come first. -/
theorem takeWhile_eq_filter_of_ordered : ∀ {l : List (COutPoint × V)},
    l.Pairwise (fun p q => compare p.1 q.1 = .lt) → (∀ p ∈ l, h ≤ p.1.hash) →
      l.takeWhile (fun p => p.1.hash = h) = l.filter (fun p => p.1.hash = h)
  | [], _, _ => rfl
  | p :: l, hl, hge => by
    rw [List.pairwise_cons] at hl
    have hge' : ∀ q ∈ l, p.1.hash ≤ q.1.hash := fun q hq => by
      have := COutPoint.compare_eq_lt.1 (hl.1 q hq)
      dsimp only [Uint256] at *
      omega
    by_cases hp : p.1.hash = h
    · simp only [List.takeWhile_cons, List.filter_cons, hp, decide_True, if_true]
      exact congrArg _ (takeWhile_eq_filter_of_ordered hl.2 fun q hq => hp ▸ hge' q hq)
    · have hlt : h < p.1.hash := lt_of_le_of_ne (hge p (List.mem_cons_self _ _)) (Ne.symm hp)
      simp only [List.takeWhile_cons, List.filter_cons, hp, decide_False, Bool.false_eq_true, if_false]
      refine (List.filter_eq_nil_iff.2 fun q hq => ?_).symm
      have := hge' q hq
      simp only [decide_eq_true_eq]
      dsimp only [Uint256] at *
      omega

/-- In a list in key order, the entries from the first key not less than `(h, 0)` while the hash is `h` are exactly
the entries of hash `h`, in order. -/
theorem scan_eq_filter_of_ordered : ∀ {l : List (COutPoint × V)}, l.Pairwise (fun p q => compare p.1 q.1 = .lt) →
    (l.dropWhile (fun p => compare p.1 ⟨h, 0⟩ = .lt)).takeWhile (fun p => p.1.hash = h) =
      l.filter (fun p => p.1.hash = h)
  | [], _ => rfl
  | p :: l, hl => by
    have hl' := List.pairwise_cons.1 hl
    by_cases hlt : compare p.1 ⟨h, 0⟩ = .lt
    · have hne : p.1.hash ≠ h := by
        have := COutPoint.compare_eq_lt.1 hlt
        dsimp only [Uint256] at *
        omega
      simp only [List.dropWhile_cons, hlt, decide_True, if_true, List.filter_cons, hne, decide_False,
        Bool.false_eq_true, if_false, scan_eq_filter_of_ordered hl'.2]
    · simp only [List.dropWhile_cons, hlt, decide_False, Bool.false_eq_true, if_false]
      have hge : h ≤ p.1.hash := by
        by_contra hc
        exact hlt (COutPoint.compare_eq_lt.2 (.inl (by dsimp only [Uint256] at *; omega)))
      refine takeWhile_eq_filter_of_ordered hl fun q hq => ?_
      rcases List.mem_cons.1 hq with rfl | hq
      · exact hge
      · have := COutPoint.compare_eq_lt.1 (hl'.1 q hq)
        dsimp only [Uint256] at *
        omega

/-- In a map in key order, the scan of `pruneSpent` from `lower_bound((h, 0))` visits exactly the entries of hash
`h`, in order. -/
theorem scan_eq_filter {m : StdMap COutPoint V} (hm : m.Ordered) :
    (m.lowerBound ⟨h, 0⟩).takeWhile (fun p => p.1.hash = h) = m.entries.filter (fun p => p.1.hash = h) :=
  scan_eq_filter_of_ordered hm

/-- With `mapNextTx` in key order, `pruneSpent(h, coins)` spends the outputs the keys of hash `h` name. -/
theorem CTxMemPool.pruneSpent_eq {s : CTxMemPool} (hord : s.mapNextTx.Ordered) (coins : CCoins) :
    s.pruneSpent h coins = (s.mapNextTx.entries.filter (fun p => p.1.hash = h)).foldl (fun c p => c.Spend p.1.n) coins := by
  rw [CTxMemPool.pruneSpent, scan_eq_filter hord]

end Scan

/-! ## What `Spend` does -/

namespace CCoins

variable {c : CCoins} {m n : Nat}

theorem isAvailable_iff : c.IsAvailable n = true ↔ ∃ o, c.vout[n]? = some o ∧ o.IsNull = false := by
  unfold IsAvailable
  cases c.vout[n]? <;> simp

/-- `Cleanup` keeps output `n` when it is not null, and adds none. -/
theorem getElem?_rdropWhile {l : List CTxOut} {o : CTxOut} (ho : o.IsNull = false) :
    (l.rdropWhile CTxOut.IsNull)[n]? = some o ↔ l[n]? = some o := by
  refine ⟨fun h => ?_, fun h => ?_⟩
  · obtain ⟨t, ht⟩ := List.rdropWhile_prefix CTxOut.IsNull l
    rw [← ht, List.getElem?_append_left (List.getElem?_eq_some_iff.1 h).1, h]
  · induction l using List.reverseRecOn with
    | nil => simp at h
    | append_singleton l x ih =>
      rw [List.rdropWhile_concat]
      split
      · rename_i hx
        rcases Nat.lt_or_ge n l.length with hn | hn
        · exact ih (by rwa [List.getElem?_append_left hn] at h)
        · rw [List.getElem?_append_right hn] at h
          obtain ⟨-, rfl⟩ : n - l.length = 0 ∧ x = o := by simpa [List.getElem?_cons] using h
          rw [hx] at ho
          cases ho
      · exact h

/-- `Cleanup` changes no output's availability. -/
theorem isAvailable_cleanup (c : CCoins) (n : Nat) : c.Cleanup.IsAvailable n = c.IsAvailable n :=
  Bool.eq_iff_iff.2 <| by
    rw [isAvailable_iff, isAvailable_iff]
    exact exists_congr fun o => and_congr_left getElem?_rdropWhile

/-- After `Spend(m)`, output `n` is available exactly when it was and `n ≠ m`. -/
theorem isAvailable_spend (c : CCoins) (m n : Nat) : (c.Spend m).IsAvailable n = (c.IsAvailable n && n != m) := by
  unfold Spend
  split
  · rw [isAvailable_cleanup]
    by_cases hmn : m = n
    · subst hmn
      unfold IsAvailable
      simp only [List.getElem?_modify, if_true]
      cases c.vout[m]? <;> simp [CTxOut.SetNull, CTxOut.IsNull]
    · unfold IsAvailable
      simp [List.getElem?_modify, hmn, Ne.symm hmn]
  · rename_i hm
    by_cases hmn : n = m
    · subst hmn
      simp_all
    · simp [hmn]

/-- `Spend(m)` keeps every other available output. -/
theorem getElem?_vout_spend (hn : c.IsAvailable n = true) (hne : n ≠ m) : (c.Spend m).vout[n]? = c.vout[n]? := by
  unfold Spend
  split
  · obtain ⟨o, ho, hnull⟩ := isAvailable_iff.1 hn
    rw [ho]
    refine (getElem?_rdropWhile hnull).2 ?_
    simp [List.getElem?_modify, ho, Ne.symm hne]
  · rfl

@[simp] theorem spend_fCoinBase (c : CCoins) (m : Nat) : (c.Spend m).fCoinBase = c.fCoinBase := by
  unfold Spend; split <;> rfl

@[simp] theorem spend_nHeight (c : CCoins) (m : Nat) : (c.Spend m).nHeight = c.nHeight := by
  unfold Spend; split <;> rfl

section Foldl

variable {V : Type}

/-- Spending the outputs the keys `ks` name: output `n` stays available exactly when it was and no key names it. -/
theorem isAvailable_foldl_spend (ks : List (COutPoint × V)) (c : CCoins) (n : Nat) :
    (ks.foldl (fun c p => c.Spend p.1.n) c).IsAvailable n = true ↔ c.IsAvailable n = true ∧ ∀ p ∈ ks, p.1.n ≠ n := by
  induction ks generalizing c with
  | nil => simp
  | cons p ks ih =>
    rw [List.foldl_cons, ih, isAvailable_spend]
    simp only [Bool.and_eq_true, bne_iff_ne, ne_eq, List.forall_mem_cons]
    exact ⟨fun ⟨⟨h, hn⟩, hks⟩ => ⟨h, Ne.symm hn, hks⟩, fun ⟨h, hn, hks⟩ => ⟨⟨h, Ne.symm hn⟩, hks⟩⟩

/-- Spending the outputs the keys `ks` name keeps every available output no key names. -/
theorem getElem?_vout_foldl_spend (ks : List (COutPoint × V)) (c : CCoins) (n : Nat)
    (hn : c.IsAvailable n = true) (hks : ∀ p ∈ ks, p.1.n ≠ n) :
    (ks.foldl (fun c p => c.Spend p.1.n) c).vout[n]? = c.vout[n]? := by
  induction ks generalizing c with
  | nil => rfl
  | cons p ks ih =>
    have hne : n ≠ p.1.n := Ne.symm (hks p (List.mem_cons_self _ _))
    rw [List.foldl_cons, ih _ (by rw [isAvailable_spend]; simp [hn, hne])
      fun q hq => hks q (List.mem_cons_of_mem _ hq), getElem?_vout_spend hn hne]

theorem foldl_spend_fields (ks : List (COutPoint × V)) (c : CCoins) :
    (ks.foldl (fun c p => c.Spend p.1.n) c).fCoinBase = c.fCoinBase ∧
      (ks.foldl (fun c p => c.Spend p.1.n) c).nHeight = c.nHeight := by
  induction ks generalizing c with
  | nil => exact ⟨rfl, rfl⟩
  | cons p ks ih => simpa using ih (c.Spend p.1.n)

end Foldl

end CCoins

end VerusCoin
