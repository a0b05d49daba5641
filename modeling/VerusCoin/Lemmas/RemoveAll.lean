import VerusCoin.Lemmas.Conflicts

/-!
# What removing a list of pooled transactions erases

`removeForReorg`, `removeWithAnchor`, `removeExpired` and `removeWithoutBranchId` end by removing recursively each
transaction of a list of pooled ones. A transaction that an earlier removal erased has its descendants erased too, so
its own removal changes nothing (`ErasedFrom.remove_of_erased`); the loop erases the union of `D(T)` over the list
(`removeAll_erases_descendants`).
-/

namespace VerusCoin

namespace CTxMemPool

variable {s₀ s : CTxMemPool} {es : List CTxMemPoolEntry} {T : CTransaction}

theorem removeAll_cons (s : CTxMemPool) (T : CTransaction) (txs : List CTransaction) :
    s.removeAll (T :: txs) = (s.remove T [] true).1.removeAll txs := rfl

/-- What `es` erases is closed under children. -/
def ChildClosed (s₀ : CTxMemPool) (es : List CTxMemPoolEntry) : Prop :=
  ∀ x ∈ es.map (·.tx), ∀ c, s₀.ChildOf x c → c ∈ es.map (·.tx)

/-- The recursive `remove` of an erased transaction whose children are erased changes nothing: its hash is gone from
`mapTx` and the spend index names no spender of its outputs. -/
theorem ErasedFrom.remove_of_erased (hinv : s₀.PoolInv) (h : ErasedFrom s₀ es s) (hT : s₀.Pooled T)
    (hTX : T ∈ es.map (·.tx)) (hcl : ∀ c, s₀.ChildOf T c → c ∈ es.map (·.tx)) (r : List CTransaction) :
    s.remove T r true = (s, r) := by
  have hfind : s.mapTx.find T.hash = none := by
    cases hf : s.mapTx.find T.hash with
    | none => rfl
    | some e =>
      have hl : s.lookup T.hash = some e.tx := by rw [lookup, hf]; rfl
      obtain ⟨hp, hh, hne⟩ := h.lookup_eq_some_iff.1 hl
      rw [Pooled, hh] at hp
      exact absurd (Option.some.inj (hp.symm.trans hT) ▸ hTX) hne
  have hsp : s.spenders T.hash T.vout.length = [] := by
    refine List.filterMap_eq_nil_iff.2 fun i hi => ?_
    have hnext := lookNext_erased hinv h ⟨T.hash, i⟩
    cases hf₀ : s₀.mapNextTx.find ⟨T.hash, i⟩ with
    | none => rw [hf₀] at hnext; simpa using hnext
    | some p =>
      obtain ⟨hpool, hn, ho⟩ := hinv.sound _ p hf₀
      have hchild : s₀.ChildOf T p.ptx :=
        ⟨hpool, hinv.notImport _ p hf₀, i, List.mem_range.1 hi, ho ▸ CTransaction.prevout_mem _ _ hn⟩
      rw [hf₀] at hnext
      simpa [Option.filter, hcl _ hchild] using hnext
  show s.removeLoop true (T.hash :: if true && !s.mapTx.count T.hash then s.spenders T.hash T.vout.length else []) r = _
  rw [hsp, ite_self, removeLoop_cons_none true [] r hfind, removeLoop_nil]

/-- Removing recursively, one after the other, transactions pooled at the start, after erasures closed under children:
the pool is the start pool with the union of their `D(T)` erased as well. -/
theorem removeAll_spec (hinv : s₀.PoolInv) :
    ∀ (txs : List CTransaction) es s, ErasedFrom s₀ es s → s = s₀.eraseEntries es → ChildClosed s₀ es →
      (∀ T ∈ txs, s₀.Pooled T) →
      ∃ es', ErasedFrom s₀ (es ++ es') (s.removeAll txs) ∧ s.removeAll txs = s₀.eraseEntries (es ++ es') ∧
        ChildClosed s₀ (es ++ es') ∧
        ∀ c, c ∈ (es ++ es').map (·.tx) ↔ c ∈ es.map (·.tx) ∨ ∃ T ∈ txs, s₀.Descendant T c
  | [], es, s, h, hs, hcl, _ => ⟨[], by simpa using h, by simpa using hs, by simpa using hcl, by simp⟩
  | T :: txs, es, s, h, hs, hcl, hpool => by
    have hT := hpool T (List.mem_cons_self _ _)
    have hpool' : ∀ T' ∈ txs, s₀.Pooled T' := fun T' hT' => hpool T' (List.mem_cons_of_mem _ hT')
    rw [removeAll_cons]
    by_cases hTX : T ∈ es.map (·.tx)
    · -- `T` and its descendants are erased already
      rw [h.remove_of_erased hinv hT hTX (hcl T hTX) []]
      obtain ⟨es', h', hs', hcl', hiff⟩ := removeAll_spec hinv txs es s h hs hcl hpool'
      refine ⟨es', h', hs', hcl', fun c => (hiff c).trans ?_⟩
      simp only [List.mem_cons, exists_eq_or_imp]
      exact ⟨fun h => h.imp_right .inr, fun h => h.elim .inl (·.elim
        (fun hD => .inl (descendant_mem_of_root_mem hT (fun x hx _ => hcl x hx) hTX hD)) .inr)⟩
    · obtain ⟨es₁, h₁, -, hiff₁, hs₁, hcl₁'⟩ := h.remove hinv (h.pooled_iff.2 ⟨hT, hTX⟩) (fun x hx _ => hcl x hx) []
      have hcl₁ : ChildClosed s₀ (es ++ es₁) := fun x hx c hc => by
        rw [List.map_append, List.mem_append] at hx
        exact hx.elim (fun hx => List.map_subset _ (List.subset_append_left _ _) (hcl x hx c hc)) (hcl₁' x · c hc)
      obtain ⟨es₂, h₂, hs₂, hcl₂, hiff₂⟩ :=
        removeAll_spec hinv txs (es ++ es₁) _ h₁ (by rw [hs₁, hs, eraseEntries_eraseEntries]) hcl₁ hpool'
      refine ⟨es₁ ++ es₂, by rwa [← List.append_assoc], by rw [hs₂, List.append_assoc], by rwa [← List.append_assoc],
        fun c => ?_⟩
      rw [← List.append_assoc, hiff₂, List.map_append, List.mem_append, hiff₁]
      simp only [List.mem_cons, exists_eq_or_imp]
      by_cases hcX : c ∈ es.map (·.tx) <;> simp [hcX]

/-- Removing recursively the transactions `txs`, pooled in a pool satisfying `PoolInv`, erases exactly the union of
their `D(T)` with all their index entries, and every other pooled transaction keeps its entries. -/
theorem removeAll_erases_descendants (hinv : s.PoolInv) (txs : List CTransaction) (hpool : ∀ T ∈ txs, s.Pooled T) :
    ∃ ds, ds.Nodup ∧ (∀ c, c ∈ ds ↔ ∃ T ∈ txs, s.Descendant T c) ∧ ErasedExactly s ds (s.removeAll txs) ∧
      KeepsOthers s ds (s.removeAll txs) := by
  obtain ⟨es, h, hs, -, hiff⟩ :=
    removeAll_spec hinv txs [] s (ErasedFrom.start s) (eraseEntries_nil s).symm (by simp [ChildClosed]) hpool
  simp only [List.nil_append] at h hs hiff
  have hE : ErasedExactly s (es.map (·.tx)) (s.removeAll txs) := hs ▸ erasedExactly_eraseEntries h.sub h.nodup
  refine ⟨es.map (·.tx), List.Nodup.of_map CTransaction.hash (by rw [List.map_map]; exact h.nodup),
    fun c => by simpa using hiff c, hE, hE.keepsOthers hinv (pooled_of_subset h.sub)⟩

theorem Descendant.self (h : s.Pooled T) : s.Descendant T T := ⟨h, by rw [rootOf_of_pooled h]⟩

/-- Removing recursively the transactions of the entries a test `p` selects, as `removeWithAnchor`, `removeExpired`
and `removeWithoutBranchId` do: exactly the union of `D(T)` over the selected entries is erased, with all their index
entries, every other pooled transaction keeps its entries, and no entry left passes the test. -/
theorem removeAll_filter_spec (hinv : s.PoolInv) (p : CTxMemPoolEntry → Bool) :
    ∃ ds, ds.Nodup ∧ (∀ c, c ∈ ds ↔ ∃ e ∈ s.mapTx.entries, p e = true ∧ s.Descendant e.tx c) ∧
      ErasedExactly s ds (s.removeAll ((s.mapTx.entries.filter p).map (·.tx))) ∧
      KeepsOthers s ds (s.removeAll ((s.mapTx.entries.filter p).map (·.tx))) ∧
      ∀ e ∈ (s.removeAll ((s.mapTx.entries.filter p).map (·.tx))).mapTx.entries, p e = false := by
  obtain ⟨ds, hnd, hiff, hE, hK⟩ := removeAll_erases_descendants hinv ((s.mapTx.entries.filter p).map (·.tx))
    (pooled_of_subset fun _ he => (List.mem_filter.1 he).1)
  have hiff' : ∀ c, c ∈ ds ↔ ∃ e ∈ s.mapTx.entries, p e = true ∧ s.Descendant e.tx c := fun c => by
    simp only [hiff, List.mem_map, List.mem_filter]
    exact ⟨fun ⟨_, ⟨e, ⟨he, hp⟩, h⟩, hD⟩ => ⟨e, he, hp, h ▸ hD⟩, fun ⟨e, he, hp, hD⟩ => ⟨e.tx, ⟨e, ⟨he, hp⟩, rfl⟩, hD⟩⟩
  refine ⟨ds, hnd, hiff', hE, hK, fun e he => ?_⟩
  rw [hE.mapTx, List.mem_filter, decide_eq_true_iff] at he
  exact Bool.eq_false_iff.2 fun hp => he.2 ((hiff' e.tx).2 ⟨e, he.1, hp, Descendant.self (pooled_of_mem he.1)⟩)

/-- `removeAll_filter_spec` for a test that reads only an entry's transaction, stated over pooled transactions. -/
theorem removeAll_filter_tx_spec (hinv : s.PoolInv) (q : CTransaction → Bool) :
    ∃ ds, ds.Nodup ∧ (∀ c, c ∈ ds ↔ ∃ T, s.Pooled T ∧ q T = true ∧ s.Descendant T c) ∧
      ErasedExactly s ds (s.removeAll ((s.mapTx.entries.filter (q ·.tx)).map (·.tx))) ∧
      KeepsOthers s ds (s.removeAll ((s.mapTx.entries.filter (q ·.tx)).map (·.tx))) ∧
      ∀ T, (s.removeAll ((s.mapTx.entries.filter (q ·.tx)).map (·.tx))).Pooled T → q T = false := by
  obtain ⟨ds, hnd, hiff, hE, hK, hleft⟩ := removeAll_filter_spec hinv (q ·.tx)
  refine ⟨ds, hnd, fun c => (hiff c).trans ⟨fun ⟨e, he, hq, hD⟩ => ⟨e.tx, pooled_of_mem he, hq, hD⟩, ?_⟩, hE, hK,
    fun T hT => ?_⟩
  · rintro ⟨T, hT, hq, hD⟩
    obtain ⟨e, he, rfl⟩ := pooled_iff.1 hT
    exact ⟨e, he, hq, hD⟩
  · obtain ⟨e, he, rfl⟩ := pooled_iff.1 hT
    exact hleft e he

/-- When no entry passes the test, removing the selected transactions leaves the pool as it was. -/
theorem removeAll_filter_of_none {p : CTxMemPoolEntry → Bool} (h : ∀ e ∈ s.mapTx.entries, p e = false) :
    s.removeAll ((s.mapTx.entries.filter p).map (·.tx)) = s := by
  rw [List.filter_eq_nil_iff.2 fun e he => by simp [h e he]]
  rfl

end CTxMemPool

end VerusCoin
