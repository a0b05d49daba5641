import VerusCoin.Lemmas.RemoveWalk
import VerusCoin.Lemmas.PoolInv

/-!
# Sequences of removals

The eviction policies are sequences of `remove` calls and `ClearPrioritisation` calls, which touch no index. After such
a sequence the pool is, as far as `mapTx`, the spend index and the nullifier indexes go, the start pool with a list of
distinct pooled entries erased (`ErasedFrom`). A recursive `remove` of a pooled `C` then erases `D(C)` of the start
pool less what is already erased, provided what is erased is closed under children within `D(C)`.
-/

namespace VerusCoin

namespace CTxMemPool

variable {s₀ s s' : CTxMemPool} {es : List CTxMemPoolEntry} {C c : CTransaction}

/-! ## `remove` reads only the indexes -/

theorem SameIndexes.refl (s : CTxMemPool) : SameIndexes s s := ⟨rfl, rfl, rfl, rfl⟩

theorem SameIndexes.trans {s'' : CTxMemPool} (h₁ : SameIndexes s s') (h₂ : SameIndexes s' s'') : SameIndexes s s'' :=
  ⟨h₂.mapTx.trans h₁.mapTx, h₂.mapNextTx.trans h₁.mapNextTx, h₂.sprout.trans h₁.sprout, h₂.sapling.trans h₁.sapling⟩

theorem SameIndexes.eraseEntry (h : SameIndexes s s') (hash : Uint256) (e : CTxMemPoolEntry) :
    SameIndexes (s.eraseEntry hash e) (s'.eraseEntry hash e) :=
  ⟨by simp [h.mapTx], by simp [h.mapNextTx], by simp [h.sprout], by simp [h.sapling]⟩

theorem SameIndexes.eraseEntries (h : SameIndexes s s') (es : List CTxMemPoolEntry) :
    SameIndexes (s.eraseEntries es) (s'.eraseEntries es) := by
  induction es generalizing s s' with
  | nil => exact h
  | cons e es ih => exact ih (h.eraseEntry e.GetHash e)

theorem SameIndexes.spenders (h : SameIndexes s s') : s'.spenders = s.spenders := by
  funext hash nOut
  simp only [CTxMemPool.spenders, h.mapNextTx]

/-- The loop of `remove` reads only `mapTx` and the spend index, and changes only what `eraseEntry` changes. -/
theorem SameIndexes.removeLoop (fR : Bool) : ∀ s q r, ∀ s', SameIndexes s s' →
    SameIndexes (s.removeLoop fR q r).1 (s'.removeLoop fR q r).1 ∧
      (s'.removeLoop fR q r).2 = (s.removeLoop fR q r).2 := by
  intro s q r
  induction s, q, r using CTxMemPool.removeLoop.induct fR with
  | case1 s r => intro s' h; rw [removeLoop_nil, removeLoop_nil]; exact ⟨h, rfl⟩
  | case2 s r hash rest hf ih =>
    intro s' h
    rw [removeLoop_cons_none fR rest r hf, removeLoop_cons_none fR rest r (h.mapTx ▸ hf)]
    exact ih s' h
  | case3 s r hash rest e hf _ ih =>
    intro s' h
    rw [removeLoop_cons_some fR rest r hf, removeLoop_cons_some fR rest r (h.mapTx ▸ hf), h.spenders]
    exact ih _ (h.eraseEntry hash e)

theorem SameIndexes.remove (h : SameIndexes s s') (T : CTransaction) (r : List CTransaction) (fR : Bool) :
    SameIndexes (s.remove T r fR).1 (s'.remove T r fR).1 ∧ (s'.remove T r fR).2 = (s.remove T r fR).2 := by
  unfold CTxMemPool.remove
  rw [h.mapTx, h.spenders]
  exact h.removeLoop fR s _ r s'

/-- Erasing distinct pooled entries preserves the invariant. -/
theorem PoolInv.eraseEntries : ∀ {s : CTxMemPool} {es : List CTxMemPoolEntry}, s.PoolInv →
    (∀ e ∈ es, e ∈ s.mapTx.entries) → (es.map CTxMemPoolEntry.GetHash).Nodup → (s.eraseEntries es).PoolInv
  | _, [], hi, _, _ => hi
  | s, e :: es, hi, hsub, hnd => by
    have hf : s.mapTx.find e.GetHash = some e :=
      (TxSet.find_eq_some_iff _ _ _).2 ⟨hsub e (List.mem_cons_self _ _), rfl⟩
    refine PoolInv.eraseEntries (s := s.eraseEntry e.GetHash e) (hi.eraseEntry hf) (fun e' he' => ?_)
      (List.nodup_cons.1 hnd).2
    rw [eraseEntry_mapTx, mem_erase_entries]
    exact ⟨hsub e' (List.mem_cons_of_mem _ he'), fun h => (List.nodup_cons.1 hnd).1 (h ▸ List.mem_map_of_mem _ he')⟩

theorem rootOf_of_pooled (h : s.Pooled T) : s.rootOf T = T := by
  simp only [rootOf, show s.lookup T.hash = some T from h, Option.getD_some]

/-! ## Erased entries -/

/-- `s` is `s₀` with the distinct pooled entries `es` erased, as far as `mapTx` and the indexes go. -/
structure ErasedFrom (s₀ : CTxMemPool) (es : List CTxMemPoolEntry) (s : CTxMemPool) : Prop where
  same : SameIndexes (s₀.eraseEntries es) s
  sub : ∀ e ∈ es, e ∈ s₀.mapTx.entries
  nodup : (es.map CTxMemPoolEntry.GetHash).Nodup

theorem ErasedFrom.start (s₀ : CTxMemPool) : ErasedFrom s₀ [] s₀ := ⟨SameIndexes.refl _, by simp, List.nodup_nil⟩

theorem ErasedFrom.clearPrioritisation (h : ErasedFrom s₀ es s) (hash : Uint256) :
    ErasedFrom s₀ es (s.ClearPrioritisation hash) :=
  ⟨h.same.trans (sameIndexes_clearPrioritisation s hash), h.sub, h.nodup⟩

theorem ErasedFrom.erased (h : ErasedFrom s₀ es s) : ErasedExactly s₀ (es.map (·.tx)) (s₀.eraseEntries es) :=
  erasedExactly_eraseEntries h.sub h.nodup

theorem ErasedFrom.entries (h : ErasedFrom s₀ es s) :
    s.mapTx.entries = s₀.mapTx.entries.filter (fun e => e.tx ∉ es.map (·.tx)) := by
  rw [h.same.mapTx, h.erased.mapTx]

theorem ErasedFrom.pooled_iff (h : ErasedFrom s₀ es s) : s.Pooled c ↔ s₀.Pooled c ∧ c ∉ es.map (·.tx) := by
  rw [CTxMemPool.pooled_iff, CTxMemPool.pooled_iff, h.entries]
  constructor
  · rintro ⟨e, he, rfl⟩
    obtain ⟨he, hne⟩ := List.mem_filter.1 he
    exact ⟨⟨e, he, rfl⟩, by simpa using hne⟩
  · rintro ⟨⟨e, he, rfl⟩, hne⟩
    exact ⟨e, List.mem_filter.2 ⟨he, by simpa using hne⟩, rfl⟩

theorem ErasedFrom.poolInv (hinv : s₀.PoolInv) (h : ErasedFrom s₀ es s) : s.PoolInv :=
  (PoolInv.eraseEntries hinv h.sub h.nodup).of_sameIndexes h.same

/-- An entry of `s` is an entry of `s₀` whose hash is not erased. -/
theorem ErasedFrom.mem_entries (h : ErasedFrom s₀ es s) {e : CTxMemPoolEntry} (he : e ∈ s.mapTx.entries) :
    e ∈ s₀.mapTx.entries ∧ e.GetHash ∉ es.map CTxMemPoolEntry.GetHash := by
  rw [h.entries, List.mem_filter] at he
  refine ⟨he.1, fun hm => ?_⟩
  obtain ⟨e', he', hh⟩ := List.mem_map.1 hm
  have : e.tx ∉ es.map (·.tx) := by simpa using he.2
  exact this (List.mem_map.2 ⟨e', he', by rw [entry_eq_of_hash_eq (h.sub e' he') he.1 hh]⟩)

/-- Erasing entries of `s` extends the erased list. -/
theorem ErasedFrom.eraseEntries (h : ErasedFrom s₀ es s) {es' : List CTxMemPoolEntry}
    (hsub : ∀ e ∈ es', e ∈ s.mapTx.entries) (hnd : (es'.map CTxMemPoolEntry.GetHash).Nodup) :
    ErasedFrom s₀ (es ++ es') (s.eraseEntries es') := by
  refine ⟨?_, fun e he => ?_, ?_⟩
  · rw [CTxMemPool.eraseEntries, List.foldl_append]
    exact h.same.eraseEntries es'
  · rcases List.mem_append.1 he with he | he
    · exact h.sub e he
    · exact (h.mem_entries (hsub e he)).1
  · rw [List.map_append, List.nodup_append]
    exact ⟨h.nodup, hnd, fun a ha hb => by
      obtain ⟨e, he, rfl⟩ := List.mem_map.1 hb
      exact (h.mem_entries (hsub e he)).2 ha⟩

/-- The transaction at a hash after erasures is one pooled at the start with that hash and not erased. -/
theorem ErasedFrom.lookup_eq_some_iff (h : ErasedFrom s₀ es s) {hh : Uint256} :
    s.lookup hh = some c ↔ s₀.Pooled c ∧ c.hash = hh ∧ c ∉ es.map (·.tx) := by
  have hhash : s.lookup hh = some c → c.hash = hh := fun hl => by
    obtain ⟨e, he, rfl⟩ := Option.map_eq_some'.1 hl
    exact ((TxSet.find_eq_some_iff _ _ _).1 he).2
  rw [← and_assoc, and_right_comm, ← h.pooled_iff]
  constructor
  · intro hl
    have hc := hhash hl
    exact ⟨by rw [Pooled, hc]; exact hl, hc⟩
  · rintro ⟨hp, rfl⟩
    exact hp

/-- Every step of a path from a pooled transaction leads to a pooled one. -/
theorem pooled_of_reflTransGen (hC : s₀.Pooled C) (h : Relation.ReflTransGen s₀.ChildOf C c) : s₀.Pooled c :=
  (Relation.ReflTransGen.cases_tail h).elim (fun h => h ▸ hC) fun ⟨_, _, h⟩ => h.1

/-- A descendant's child is a descendant. -/
theorem Descendant.child (hc : s₀.Descendant C c) {d : CTransaction} (hcd : s₀.ChildOf c d) : s₀.Descendant C d :=
  ⟨hcd.1, hc.2.tail hcd⟩

/-- Within `D(C)` of a pooled `C`, a child of an erased transaction is erased: then `D(C)` after the erasures is
`D(C)` before, less the erased transactions. -/
theorem ErasedFrom.descendant_iff (h : ErasedFrom s₀ es s) (hC : s.Pooled C)
    (hX : ∀ x ∈ es.map (·.tx), s₀.Descendant C x → ∀ c, s₀.ChildOf x c → c ∈ es.map (·.tx)) (c : CTransaction) :
    s.Descendant C c ↔ s₀.Descendant C c ∧ c ∉ es.map (·.tx) := by
  have hC₀ := (h.pooled_iff.1 hC).1
  have hchild : ∀ x y, s.ChildOf x y ↔ s₀.ChildOf x y ∧ y ∉ es.map (·.tx) := fun x y => by
    simp only [ChildOf, h.pooled_iff, and_assoc, and_comm, and_left_comm]
  have key : ∀ d, Relation.ReflTransGen s₀.ChildOf C d → d ∉ es.map (·.tx) → Relation.ReflTransGen s.ChildOf C d := by
    intro d hpath
    induction hpath with
    | refl => exact fun _ => .refl
    | @tail b d hb hbd ih =>
      intro hd
      have hbX : b ∉ es.map (·.tx) := fun hbX =>
        hd (hX b hbX ⟨pooled_of_reflTransGen hC₀ hb, by rw [rootOf_of_pooled hC₀]; exact hb⟩ d hbd)
      exact (ih hbX).tail ((hchild b d).2 ⟨hbd, hd⟩)
  simp only [Descendant, rootOf_of_pooled hC, rootOf_of_pooled hC₀, h.pooled_iff]
  constructor
  · rintro ⟨⟨hc, hne⟩, hpath⟩
    exact ⟨⟨hc, hpath.mono fun x y hxy => ((hchild x y).1 hxy).1⟩, hne⟩
  · rintro ⟨⟨hc, hpath⟩, hne⟩
    exact ⟨⟨hc, hne⟩, key c hpath hne⟩

/-- A recursive `remove` of a pooled `C` erases `D(C)` of the start pool less what is erased already, and appends
those transactions to `removed`; a child of a transaction it erases is erased, by it or before. -/
theorem ErasedFrom.remove (hinv : s₀.PoolInv) (h : ErasedFrom s₀ es s) (hC : s.Pooled C)
    (hX : ∀ x ∈ es.map (·.tx), s₀.Descendant C x → ∀ c, s₀.ChildOf x c → c ∈ es.map (·.tx)) (r : List CTransaction) :
    ∃ es', ErasedFrom s₀ (es ++ es') (s.remove C r true).1 ∧ (s.remove C r true).2 = r ++ es'.map (·.tx) ∧
      (∀ c, c ∈ es'.map (·.tx) ↔ s₀.Descendant C c ∧ c ∉ es.map (·.tx)) ∧
      (s.remove C r true).1 = s.eraseEntries es' ∧
      ∀ x ∈ es'.map (·.tx), ∀ c, s₀.ChildOf x c → c ∈ (es ++ es').map (·.tx) := by
  obtain ⟨es', hw, hr⟩ := remove_true_walk (h.poolInv hinv) C r
  have hiff : ∀ c, c ∈ es'.map (·.tx) ↔ s₀.Descendant C c ∧ c ∉ es.map (·.tx) :=
    fun c => (hw.descendant_iff c).symm.trans (h.descendant_iff hC hX c)
  refine ⟨es', ?_, hr, hiff, hw.state, fun x hx c hc => ?_⟩
  · rw [hw.state]
    exact h.eraseEntries hw.sub hw.nodup
  · rw [List.map_append, List.mem_append]
    by_cases hcX : c ∈ es.map (·.tx)
    · exact .inl hcX
    · exact .inr ((hiff c).2 ⟨((hiff x).1 hx).1.child hc, hcX⟩)

/-- A non-recursive `remove` erases the pooled transaction of `T`'s hash, if any. -/
theorem ErasedFrom.remove_false (h : ErasedFrom s₀ es s) (T : CTransaction) (r : List CTransaction) :
    ErasedFrom s₀ (es ++ (s.mapTx.find T.hash).toList) (s.remove T r false).1 ∧
      (s.remove T r false).2 = r ++ (s.lookup T.hash).toList := by
  rw [remove_false_eq]
  refine ⟨h.eraseEntries (fun e he => ?_) ?_, rfl⟩
  · exact ((TxSet.find_eq_some_iff _ _ _).1 (by simpa using he)).1
  · cases s.mapTx.find T.hash <;> simp

end CTxMemPool

end VerusCoin
