import VerusCoin.Lemmas.EraseEntries

/-!
# The walk of a recursive `remove`

The loop of `remove(T, removed, true)` walks the spend index breadth first from `T`. `WalkInv` is its invariant: the
pool is the start pool with the entries erased so far, which are distinct descendants of `T`; a queued hash that
still names a pooled transaction names a descendant; and every child of a walked transaction (one erased, or the root
when it is not pooled) is erased or queued. When the queue is empty the erased transactions are exactly `D(T)`.
-/

namespace VerusCoin

namespace CTxMemPool

variable {s₀ s : CTxMemPool} {T c : CTransaction} {q rest : List Uint256} {es : List CTxMemPoolEntry}

theorem mem_spenders {hash : Uint256} {nOut : Nat} {h : Uint256} :
    h ∈ s.spenders hash nOut ↔ ∃ i < nOut, ∃ p, s.mapNextTx.find ⟨hash, i⟩ = some p ∧ p.ptx.hash = h := by
  simp [spenders]

/-- An entry of a pool carries the pooled transaction of its hash. -/
theorem tx_eq_of_hash_eq {e : CTxMemPoolEntry} (he : e ∈ s.mapTx.entries) (hc : s.Pooled c) (hh : e.GetHash = c.hash) :
    e.tx = c := by
  obtain ⟨ec, hec, rfl⟩ := pooled_iff.1 hc
  rw [entry_eq_of_hash_eq he hec hh]

theorem rootOf_hash (s : CTxMemPool) (T : CTransaction) : (s.rootOf T).hash = T.hash := by
  unfold rootOf lookup
  cases hf : s.mapTx.find T.hash with
  | none => rfl
  | some e => exact ((TxSet.find_eq_some_iff _ _ _).1 hf).2

/-- The root is not pooled only when no transaction of `T`'s hash is, and it is then `T`. -/
theorem rootOf_of_not_pooled (h : ¬ s.Pooled (s.rootOf T)) : s.mapTx.find T.hash = none ∧ s.rootOf T = T := by
  have hh := rootOf_hash s T
  unfold rootOf at h hh ⊢
  cases hl : s.lookup T.hash with
  | none => exact ⟨by simpa [lookup] using hl, rfl⟩
  | some P =>
    rw [hl, Option.getD_some] at h hh
    exact absurd (by rw [Pooled, hh, hl]) h

/-- `x` has been walked: erased, or the root when it is not pooled. -/
def Walked (s₀ : CTxMemPool) (T : CTransaction) (ds : List CTransaction) (x : CTransaction) : Prop :=
  x ∈ ds ∨ (x = s₀.rootOf T ∧ ¬ s₀.Pooled x)

/-- The invariant of the loop of `remove(T, removed, true)` started in `s₀`, at pool `s`, queue `q`, after erasing
the entries `es`. -/
structure WalkInv (s₀ : CTxMemPool) (T : CTransaction) (s : CTxMemPool) (q : List Uint256)
    (es : List CTxMemPoolEntry) : Prop where
  state : s = s₀.eraseEntries es
  sub : ∀ e ∈ es, e ∈ s₀.mapTx.entries
  nodup : (es.map CTxMemPoolEntry.GetHash).Nodup
  sound : ∀ e ∈ es, s₀.Descendant T e.tx
  queued : ∀ h ∈ q, ∀ e ∈ s.mapTx.entries, e.GetHash = h → s₀.Descendant T e.tx
  frontier : ∀ x, s₀.Walked T (es.map (·.tx)) x → ∀ c, s₀.ChildOf x c → c ∈ es.map (·.tx) ∨ c.hash ∈ q
  root : s₀.Pooled (s₀.rootOf T) → s₀.rootOf T ∈ es.map (·.tx) ∨ (s₀.rootOf T).hash ∈ q

theorem WalkInv.mem_entries (hw : WalkInv s₀ T s q es) {e : CTxMemPoolEntry} (he : e ∈ s.mapTx.entries) :
    e ∈ s₀.mapTx.entries ∧ e.GetHash ∉ es.map CTxMemPoolEntry.GetHash := by
  rw [hw.state, eraseEntries_mapTx] at he
  simpa using he

theorem WalkInv.mapNextTx (hw : WalkInv s₀ T s q es) :
    s.mapNextTx = s₀.mapNextTx.eraseAll (es.flatMap (·.tx.prevouts)) := by
  rw [hw.state, eraseEntries_index _ (·.tx.prevouts) (fun _ _ => eraseEntry_mapNextTx ..)]

/-- A transaction pooled at the start and not erased is still pooled under its hash. -/
theorem WalkInv.find_of_not_erased (hw : WalkInv s₀ T s q es) (hc : s₀.Pooled c) (hne : c ∉ es.map (·.tx)) :
    ∃ e, s.mapTx.find c.hash = some e ∧ e.tx = c := by
  obtain ⟨ec, hec, rfl⟩ := pooled_iff.1 hc
  refine ⟨ec, (TxSet.find_eq_some_iff _ _ _).2 ⟨?_, rfl⟩, rfl⟩
  rw [hw.state, eraseEntries_mapTx, List.mem_filter]
  refine ⟨hec, decide_eq_true fun hm => hne ?_⟩
  obtain ⟨e', he', hh⟩ := List.mem_map.1 hm
  exact List.mem_map.2 ⟨e', he', by rw [entry_eq_of_hash_eq (hw.sub e' he') hec hh]⟩

/-- The spender `mapNextTx` still records was recorded at the start. -/
theorem WalkInv.find_mapNextTx (hw : WalkInv s₀ T s q es) {o : COutPoint} {p : CInPoint}
    (h : s.mapNextTx.find o = some p) : s₀.mapNextTx.find o = some p := by
  rw [hw.mapNextTx, StdMap.find_eraseAll] at h
  split_ifs at h
  exact h

/-- The spend index records every child of `x` as the spender of an output of `x`. -/
theorem PoolInv.find_child (hinv : s₀.PoolInv) {x : CTransaction} (hc : s₀.ChildOf x c) :
    ∃ n < x.vout.length, (⟨x.hash, n⟩ : COutPoint) ∈ c.prevouts ∧ ∃ i, s₀.mapNextTx.find ⟨x.hash, n⟩ = some ⟨c, i⟩ := by
  obtain ⟨hpool, himp, n, hn, ho⟩ := hc
  obtain ⟨ec, hec, rfl⟩ := pooled_iff.1 hpool
  obtain ⟨i, hi, hio⟩ := CTransaction.mem_prevouts.1 ho
  exact ⟨n, hn, ho, i, hio ▸ hinv.complete ec hec himp i hi⟩

/-- A child of `x` that is not erased is recorded as a spender of an output of `x`. -/
theorem WalkInv.child_mem_spenders (hinv : s₀.PoolInv) (hw : WalkInv s₀ T s q es) {x : CTransaction}
    (hc : s₀.ChildOf x c) : c ∈ es.map (·.tx) ∨ c.hash ∈ s.spenders x.hash x.vout.length := by
  obtain ⟨n, hn, ho, i, h₀⟩ := hinv.find_child hc
  obtain ⟨ec, hec, rfl⟩ := pooled_iff.1 hc.1
  by_cases hm : (⟨x.hash, n⟩ : COutPoint) ∈ es.flatMap (·.tx.prevouts)
  · obtain ⟨e', he', ho'⟩ := List.mem_flatMap.1 hm
    refine .inl (List.mem_map.2 ⟨e', he', ?_⟩)
    by_contra hne
    have hh : e'.GetHash ≠ ec.GetHash := fun hh => hne (by rw [entry_eq_of_hash_eq (hw.sub e' he') hec hh])
    exact hinv.disjoint e' (hw.sub e' he') ec hec hh _ ho' ho
  · refine .inr (mem_spenders.2 ⟨n, hn, ⟨ec.tx, i⟩, ?_, rfl⟩)
    rw [hw.mapNextTx, StdMap.find_eraseAll, if_neg hm, h₀]

/-! ## One round of the loop -/

/-- A popped hash that names no pooled transaction names none that was pooled and not erased. -/
theorem WalkInv.erased_of_find_none (hw : WalkInv s₀ T s q es) {h : Uint256} (hf : s.mapTx.find h = none)
    (hc : s₀.Pooled c) (hh : c.hash = h) : c ∈ es.map (·.tx) := by
  by_contra hne
  obtain ⟨e, hfe, -⟩ := hw.find_of_not_erased hc hne
  rw [hh, hf] at hfe
  cases hfe

theorem WalkInv.skip (hw : WalkInv s₀ T s (h :: rest) es) (hf : s.mapTx.find h = none) : WalkInv s₀ T s rest es where
  state := hw.state
  sub := hw.sub
  nodup := hw.nodup
  sound := hw.sound
  queued h' hh' := hw.queued h' (List.mem_cons_of_mem _ hh')
  frontier x hx c hc := by
    rcases hw.frontier x hx c hc with h₁ | h₁
    · exact .inl h₁
    · rcases List.mem_cons.1 h₁ with h₂ | h₂
      · exact .inl (hw.erased_of_find_none hf hc.1 h₂)
      · exact .inr h₂
  root hr := by
    rcases hw.root hr with h₁ | h₁
    · exact .inl h₁
    · rcases List.mem_cons.1 h₁ with h₂ | h₂
      · exact .inl (hw.erased_of_find_none hf hr h₂)
      · exact .inr h₂

/-- After a popped hash is found, a transaction that was erased or queued is erased or still queued. -/
theorem WalkInv.erased_or_queued (hw : WalkInv s₀ T s (h :: rest) es) {e : CTxMemPoolEntry}
    (hf : s.mapTx.find h = some e) (hc : s₀.Pooled c) (added : List Uint256)
    (hq : c ∈ es.map (·.tx) ∨ c.hash ∈ h :: rest) : c ∈ (es ++ [e]).map (·.tx) ∨ c.hash ∈ rest ++ added := by
  rw [List.map_append, List.mem_append]
  rcases hq with h₁ | h₁
  · exact .inl (.inl h₁)
  · rcases List.mem_cons.1 h₁ with h₂ | h₂
    · by_cases hne : c ∈ es.map (·.tx)
      · exact .inl (.inl hne)
      · obtain ⟨e', hfe, rfl⟩ := hw.find_of_not_erased hc hne
        rw [h₂, hf] at hfe
        exact .inl (.inr (by simp [Option.some.inj hfe]))
    · exact .inr (List.mem_append_left _ h₂)

theorem WalkInv.pop (hinv : s₀.PoolInv) (hw : WalkInv s₀ T s (h :: rest) es) {e : CTxMemPoolEntry}
    (hf : s.mapTx.find h = some e) :
    WalkInv s₀ T (s.eraseEntry h e) (rest ++ s.spenders h e.tx.vout.length) (es ++ [e]) := by
  obtain ⟨he, rfl⟩ := (TxSet.find_eq_some_iff _ _ _).1 hf
  obtain ⟨he₀, hfresh⟩ := hw.mem_entries he
  have hD : s₀.Descendant T e.tx := hw.queued _ (List.mem_cons_self _ _) e he rfl
  refine ⟨by rw [hw.state, eraseEntries_append], ?_, ?_, ?_, ?_, ?_, ?_⟩
  · exact List.forall_mem_append.2 ⟨hw.sub, List.forall_mem_singleton.2 he₀⟩
  · rw [List.map_append, List.nodup_append]
    exact ⟨hw.nodup, List.nodup_singleton _, by simpa [List.disjoint_singleton] using hfresh⟩
  · exact List.forall_mem_append.2 ⟨hw.sound, List.forall_mem_singleton.2 hD⟩
  · intro h' hh' e' he'
    obtain ⟨he's, hne⟩ := mem_erase_entries.1 (by rwa [eraseEntry_mapTx] at he')
    rcases List.mem_append.1 hh' with h₁ | h₁
    · exact hw.queued h' (List.mem_cons_of_mem _ h₁) e' he's
    · rintro rfl
      obtain ⟨i, hi, p, hp, hph⟩ := mem_spenders.1 h₁
      obtain ⟨hpool, hn, ho⟩ := hinv.sound _ _ (hw.find_mapNextTx hp)
      have hchild : s₀.ChildOf e.tx p.ptx :=
        ⟨hpool, hinv.notImport _ _ (hw.find_mapNextTx hp), i, hi, ho ▸ CTransaction.prevout_mem _ _ hn⟩
      rw [tx_eq_of_hash_eq (hw.mem_entries he's).1 hpool hph.symm]
      exact ⟨hpool, hD.2.tail hchild⟩
  · intro x hx c hc
    rw [List.map_append] at hx
    rcases hx with hx | hx
    · rcases List.mem_append.1 hx with hx | hx
      · exact hw.erased_or_queued hf hc.1 _ (hw.frontier x (.inl hx) c hc)
      · rw [List.mem_singleton.1 hx] at hc
        rcases hw.child_mem_spenders hinv hc with h₁ | h₁
        · exact .inl (by simp only [List.map_append, List.mem_append]; exact .inl h₁)
        · exact .inr (List.mem_append_right _ h₁)
    · exact hw.erased_or_queued hf hc.1 _ (hw.frontier x (.inr hx) c hc)
  · exact fun hr => hw.erased_or_queued hf hr _ (hw.root hr)

/-! ## The whole walk -/

theorem WalkInv.start (hinv : s₀.PoolInv) (T : CTransaction) :
    WalkInv s₀ T s₀ (T.hash :: if (true && !s₀.mapTx.count T.hash) = true then s₀.spenders T.hash T.vout.length else [])
      [] := by
  refine ⟨rfl, by simp, List.nodup_nil, by simp, ?_, ?_, ?_⟩
  · intro h' hh' e he hh
    rcases List.mem_cons.1 hh' with rfl | h₁
    · have hroot : s₀.rootOf T = e.tx := by
        simp [rootOf, lookup, (TxSet.find_eq_some_iff _ _ _).2 ⟨he, hh⟩]
      exact ⟨pooled_of_mem he, hroot ▸ Relation.ReflTransGen.refl⟩
    · split_ifs at h₁ with hc
      · obtain ⟨i, hi, p, hp, hph⟩ := mem_spenders.1 h₁
        obtain ⟨hpool, hn, ho⟩ := hinv.sound _ _ hp
        have hnone : s₀.mapTx.find T.hash = none := by simpa [TxSet.count] using hc
        have hroot : s₀.rootOf T = T := by simp [rootOf, lookup, hnone]
        have hchild : s₀.ChildOf T p.ptx :=
          ⟨hpool, hinv.notImport _ _ hp, i, hi, ho ▸ CTransaction.prevout_mem _ _ hn⟩
        rw [tx_eq_of_hash_eq he hpool (hh.trans hph.symm)]
        exact ⟨hpool, by rw [hroot]; exact Relation.ReflTransGen.single hchild⟩
      · simp at h₁
  · rintro x (hx | ⟨rfl, hx⟩) c hc
    · simp at hx
    · obtain ⟨hnone, hroot⟩ := rootOf_of_not_pooled hx
      rw [hroot] at hc
      obtain ⟨n, hn, -, i, h₀⟩ := hinv.find_child hc
      refine .inr (List.mem_cons_of_mem _ ?_)
      simpa [TxSet.count, hnone] using mem_spenders.2 ⟨n, hn, ⟨c, i⟩, h₀, rfl⟩
  · intro _
    rw [rootOf_hash]
    exact .inr (List.mem_cons_self _ _)

/-- The loop keeps the invariant to its end, and appends the erased transactions to `removed`, in order. -/
theorem removeLoop_walk (hinv : s₀.PoolInv) (r : List CTransaction) :
    ∀ s q removed es, WalkInv s₀ T s q es → removed = r ++ es.map (·.tx) →
      ∃ es', WalkInv s₀ T (s.removeLoop true q removed).1 [] es' ∧
        (s.removeLoop true q removed).2 = r ++ es'.map (·.tx) := by
  intro s q removed
  induction s, q, removed using removeLoop.induct true with
  | case1 s removed => intro es hw hr; rw [removeLoop_nil]; exact ⟨es, hw, hr⟩
  | case2 s removed hash rest hf ih =>
    intro es hw hr
    rw [removeLoop_cons_none true rest removed hf]
    exact ih es (hw.skip hf) hr
  | case3 s removed hash rest e hf _ ih =>
    intro es hw hr
    rw [removeLoop_cons_some true rest removed hf]
    exact ih (es ++ [e]) (by simpa using hw.pop hinv hf) (by simp [hr])

/-- With the queue empty, the erased transactions are exactly `D(T)`. -/
theorem WalkInv.descendant_iff (hw : WalkInv s₀ T s [] es) (c : CTransaction) :
    s₀.Descendant T c ↔ c ∈ es.map (·.tx) := by
  constructor
  · rintro ⟨hpool, hpath⟩
    have hwalked : ∀ c, Relation.ReflTransGen s₀.ChildOf (s₀.rootOf T) c → s₀.Walked T (es.map (·.tx)) c := by
      intro c hpath
      induction hpath with
      | refl =>
        by_cases hr : s₀.Pooled (s₀.rootOf T)
        · exact .inl ((hw.root hr).resolve_right (List.not_mem_nil _))
        · exact .inr ⟨rfl, hr⟩
      | tail _ hbc ih => exact .inl ((hw.frontier _ ih _ hbc).resolve_right (List.not_mem_nil _))
    exact (hwalked c hpath).resolve_right fun h => h.2 hpool
  · intro hc
    obtain ⟨e, he, rfl⟩ := List.mem_map.1 hc
    exact hw.sound e he

/-! ## `remove` -/

/-- A recursive `remove` ends with the invariant and an empty queue, having appended the erased transactions. -/
theorem remove_true_walk (hinv : s.PoolInv) (T : CTransaction) (removed : List CTransaction) :
    ∃ es, WalkInv s T (s.remove T removed true).1 [] es ∧ (s.remove T removed true).2 = removed ++ es.map (·.tx) :=
  removeLoop_walk hinv removed s _ removed [] (WalkInv.start hinv T) (by simp)

/-- A non-recursive `remove` erases the pooled transaction of `T`'s hash, if any, and nothing else. -/
theorem remove_false_eq (s : CTxMemPool) (T : CTransaction) (removed : List CTransaction) :
    s.remove T removed false =
      (s.eraseEntries (s.mapTx.find T.hash).toList, removed ++ (s.lookup T.hash).toList) := by
  show s.removeLoop false [T.hash] removed = _
  cases hf : s.mapTx.find T.hash with
  | none => simp [removeLoop_cons_none false [] removed hf, removeLoop_nil, lookup, hf, eraseEntries]
  | some e =>
    rw [removeLoop_cons_some false [] removed hf]
    simp [removeLoop_nil, lookup, hf, eraseEntries, ((TxSet.find_eq_some_iff _ _ _).1 hf).2]

end CTxMemPool

end VerusCoin
