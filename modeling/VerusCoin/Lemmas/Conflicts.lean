import VerusCoin.Lemmas.RemoveSeq
import VerusCoin.Lemmas.StaleEntries

/-!
# What `removeConflicts` erases

Each loop of `removeConflicts` looks up, for every key of `tx`, the transaction an index records, and removes it
recursively when its hash is not `tx`'s. After erasures the indexes answer as at the start, except for erased
transactions (`find_filter_erased`); so each loop erases the descendants of the conflicts it meets that are not
erased yet (`removeConflictsBy_spec`), and the three loops together erase `D(C)` for every conflict `C`.
-/

namespace VerusCoin

namespace CTxMemPool

variable {s₀ s : CTxMemPool} {es : List CTxMemPoolEntry} {tx C c : CTransaction}

/-! ## The indexes after erasures -/

/-- An index cut at the keys of the erased transactions answers as at the start, except that it no longer names an
erased transaction; this needs the start index to name only pooled transactions holding the key, and to name the one
pooled transaction holding it. -/
theorem find_filter_erased {K V : Type} [DecidableEq K] (F : CTxMemPool → StdMap K V) (keysOf : CTransaction → List K)
    (val : V → CTransaction) (h : ErasedFrom s₀ es s) (hF : F s = (F s₀).eraseAll ((es.map (·.tx)).flatMap keysOf))
    (hsound : ∀ k v, (F s₀).find k = some v → s₀.Pooled (val v) ∧ k ∈ keysOf (val v))
    (huniq : ∀ k v x, (F s₀).find k = some v → s₀.Pooled x → k ∈ keysOf x → x = val v) (k : K) :
    ((F s).find k).map val = (((F s₀).find k).map val).filter (fun C => C ∉ es.map (·.tx)) := by
  rw [hF, StdMap.find_eraseAll]
  split_ifs with hk
  · obtain ⟨x, hx, hkx⟩ := List.mem_flatMap.1 hk
    cases hv : (F s₀).find k with
    | none => rfl
    | some v =>
      obtain ⟨e, he, rfl⟩ := List.mem_map.1 hx
      have := huniq k v e.tx hv (pooled_of_mem (h.sub e he)) hkx
      simp [Option.filter, ← this, hx]
  · cases hv : (F s₀).find k with
    | none => rfl
    | some v =>
      have hnot : val v ∉ es.map (·.tx) := fun hm => hk (List.mem_flatMap.2 ⟨_, hm, (hsound k v hv).2⟩)
      simp [Option.filter, hnot]

theorem lookNext_erased (hinv : s₀.PoolInv) (h : ErasedFrom s₀ es s) (o : COutPoint) :
    (s.mapNextTx.find o).map (·.ptx) = ((s₀.mapNextTx.find o).map (·.ptx)).filter (fun C => C ∉ es.map (·.tx)) := by
  refine find_filter_erased mapNextTx CTransaction.prevouts (·.ptx) h (by rw [h.same.mapNextTx, h.erased.mapNextTx])
    (fun k v hv => ?_) (fun k v x hv hx hkx => ?_) o
  · obtain ⟨hpool, hn, ho⟩ := hinv.sound k v hv
    exact ⟨hpool, ho ▸ CTransaction.prevout_mem _ _ hn⟩
  · obtain ⟨hpool, hn, ho⟩ := hinv.sound k v hv
    obtain ⟨ex, hex, rfl⟩ := pooled_iff.1 hx
    obtain ⟨ev, hev, hevt⟩ := pooled_iff.1 hpool
    by_contra hne
    have hh : ex.GetHash ≠ ev.GetHash := fun hh => hne (by rw [entry_eq_of_hash_eq hex hev hh, hevt])
    exact hinv.disjoint ex hex ev hev hh k hkx (hevt ▸ ho ▸ CTransaction.prevout_mem _ _ hn)

/-- A nullifier index that names only pooled transactions revealing the nullifier, and names every pooled one. -/
theorem lookNullifier_erased (F : CTxMemPool → StdMap Uint256 CTransaction) (nfsOf : CTransaction → List Uint256)
    (h : ErasedFrom s₀ es s) (hF : F s = (F s₀).eraseAll ((es.map (·.tx)).flatMap nfsOf))
    (hsound : ∀ nf C, (F s₀).find nf = some C → s₀.Pooled C ∧ nf ∈ nfsOf C)
    (hcomplete : ∀ nf C, s₀.Pooled C → nf ∈ nfsOf C → (F s₀).find nf = some C) (nf : Uint256) :
    (F s).find nf = ((F s₀).find nf).filter (fun C => C ∉ es.map (·.tx)) := by
  simpa using find_filter_erased F nfsOf id h hF hsound
    (fun k v x hv hx hkx => Option.some.inj ((hcomplete k x hx hkx).symm.trans hv)) nf

/-! ## Erasing the descendants of what a loop meets -/

/-- Within `D(C)`, a set closed under children that holds `C` holds all of `D(C)`. -/
theorem descendant_mem_of_root_mem {X : List CTransaction} (hC : s₀.Pooled C)
    (hX : ∀ x ∈ X, s₀.Descendant C x → ∀ c, s₀.ChildOf x c → c ∈ X) (hCX : C ∈ X) (hc : s₀.Descendant C c) : c ∈ X := by
  obtain ⟨-, hpath⟩ := hc
  rw [rootOf_of_pooled hC] at hpath
  induction hpath with
  | refl => exact hCX
  | @tail b d hb hbd ih =>
    exact hX b ih ⟨pooled_of_reflTransGen hC hb, by rw [rootOf_of_pooled hC]; exact hb⟩ d hbd

/-- What `es` erases is closed under children within the descendants of every transaction meeting `M`. -/
def ClosedWithin (s₀ : CTxMemPool) (M : CTransaction → Prop) (es : List CTxMemPoolEntry) : Prop :=
  ∀ C, M C → ∀ x ∈ es.map (·.tx), s₀.Descendant C x → ∀ c, s₀.ChildOf x c → c ∈ es.map (·.tx)

/-- What removals started at `(s, r)` after the erasures `es` leave in `res`: further erasures `es'`, appended to `r`,
that are the descendants of the transactions meeting `M` not erased before, and that are closed under children up to
what was erased before. -/
def ErasesMet (s₀ : CTxMemPool) (M : CTransaction → Prop) (es : List CTxMemPoolEntry) (r : List CTransaction)
    (res : CTxMemPool × List CTransaction) : Prop :=
  ∃ es', ErasedFrom s₀ (es ++ es') res.1 ∧ res.2 = r ++ es'.map (·.tx) ∧
    (∀ c, c ∈ es'.map (·.tx) ↔ c ∉ es.map (·.tx) ∧ ∃ C, M C ∧ s₀.Descendant C c) ∧
    ∀ x ∈ es'.map (·.tx), ∀ c, s₀.ChildOf x c → c ∈ (es ++ es').map (·.tx)

section

variable {M M₁ M₂ : CTransaction → Prop} {r : List CTransaction} {res : CTxMemPool × List CTransaction}

theorem ErasesMet.congr {M' : CTransaction → Prop} (h : ErasesMet s₀ M es r res) (hM : ∀ C, M C ↔ M' C) :
    ErasesMet s₀ M' es r res := by
  obtain ⟨es', h', hr, hiff, hcl⟩ := h
  exact ⟨es', h', hr, fun c => by simpa only [hM] using hiff c, hcl⟩

/-- Nothing more is erased when the descendants of what meets `M` are erased already. -/
theorem ErasesMet.of_erased (h : ErasedFrom s₀ es s) (hM : ∀ C, M C → ∀ c, s₀.Descendant C c → c ∈ es.map (·.tx)) :
    ErasesMet s₀ M es r (s, r) := by
  refine ⟨[], by simpa using h, by simp, fun c => ?_, by simp⟩
  simp only [List.map_nil, List.not_mem_nil, false_iff, not_and, not_exists]
  exact fun hc C hC hD => hc (hM C hC c hD)

/-- The recursive `remove(C)` of a pooled `C` erases the descendants of `C` not erased before. -/
theorem ErasesMet.remove (hinv : s₀.PoolInv) (h : ErasedFrom s₀ es s) (hC : s.Pooled C)
    (hX : ClosedWithin s₀ (· = C) es) : ErasesMet s₀ (· = C) es r (s.remove C r true) := by
  obtain ⟨es₁, h₁, hr₁, hiff₁, -, hcl₁⟩ := h.remove hinv hC (hX C rfl) r
  exact ⟨es₁, h₁, hr₁, fun c => by rw [hiff₁, exists_eq_left, and_comm], hcl₁⟩

theorem or_stage_iff {x a p q : Prop} (ha : a ↔ ¬x ∧ p) : a ∨ (¬(x ∨ a) ∧ q) ↔ ¬x ∧ (p ∨ q) := by
  rw [ha]
  tauto

/-- Removals meeting `M₁`, then, by `f`, removals meeting `M₂` from where the first left off. -/
theorem ErasesMet.seq (f : CTxMemPool × List CTransaction → CTxMemPool × List CTransaction)
    (h₁ : ErasesMet s₀ M₁ es r res) (hX : ClosedWithin s₀ M₂ es)
    (h₂ : ∀ es₁ s₁ r₁, ErasedFrom s₀ (es ++ es₁) s₁ → ClosedWithin s₀ M₂ (es ++ es₁) →
      ErasesMet s₀ M₂ (es ++ es₁) r₁ (f (s₁, r₁))) :
    ErasesMet s₀ (fun C => M₁ C ∨ M₂ C) es r (f res) := by
  obtain ⟨es₁, hE₁, hr₁, hiff₁, hcl₁⟩ := h₁
  have hX₁ : ClosedWithin s₀ M₂ (es ++ es₁) := by
    intro C hC x hx hD c hc
    rw [List.map_append, List.mem_append] at hx
    rcases hx with hx | hx
    · exact List.map_subset _ (List.subset_append_left _ _) (hX C hC x hx hD c hc)
    · exact hcl₁ x hx c hc
  obtain ⟨es₂, hE₂, hr₂, hiff₂, hcl₂⟩ := h₂ es₁ res.1 res.2 hE₁ hX₁
  refine ⟨es₁ ++ es₂, by rw [← List.append_assoc]; exact hE₂, by rw [hr₂, hr₁, List.map_append, List.append_assoc],
    fun c => ?_, fun x hx c hc => ?_⟩
  · rw [List.map_append, List.mem_append, hiff₂, List.map_append, List.mem_append]
    simp only [or_and_right, exists_or]
    exact or_stage_iff (hiff₁ c)
  · rw [← List.append_assoc]
    rw [List.map_append, List.mem_append] at hx
    rcases hx with hx | hx
    · exact List.map_subset _ (List.subset_append_left _ _) (hcl₁ x hx c hc)
    · exact hcl₂ x hx c hc

end

/-! ## One loop -/

section

variable {K : Type} (look : CTxMemPool → K → Option CTransaction) (hinv : s₀.PoolInv)
  (hlook : ∀ es s k, ErasedFrom s₀ es s → look s k = (look s₀ k).filter (fun C => C ∉ es.map (·.tx)))
  (hpool : ∀ k C, look s₀ k = some C → s₀.Pooled C) (tx : CTransaction)
include hinv hlook hpool

/-- The body of a loop of `removeConflicts` at the key `k`: it erases the descendants of what `look` meets at `k`, when
that is not `tx`. -/
theorem removeConflictsStep_spec (k : K) {r : List CTransaction} (h : ErasedFrom s₀ es s)
    (hX : ClosedWithin s₀ (fun C => look s₀ k = some C ∧ C.hash ≠ tx.hash) es) :
    ErasesMet s₀ (fun C => look s₀ k = some C ∧ C.hash ≠ tx.hash) es r
      (match look s k with
        | some txConflict => if txConflict.hash ≠ tx.hash then s.remove txConflict r true else (s, r)
        | none => (s, r)) := by
  rw [hlook es s k h]
  cases hC : look s₀ k with
  | none => exact ErasesMet.of_erased h fun C' ⟨h', _⟩ => absurd h' (by simp)
  | some C =>
    by_cases hCX : C ∈ es.map (·.tx)
    · simp only [Option.filter, hCX, not_true_eq_false, decide_False, Bool.false_eq_true, if_false]
      refine ErasesMet.of_erased h fun C' ⟨hC', hne⟩ c hD => ?_
      obtain rfl := Option.some.inj hC'
      exact descendant_mem_of_root_mem (hpool k C hC) (hX C ⟨hC, hne⟩) hCX hD
    have hpos : ((some C).filter fun C => decide (C ∉ es.map (·.tx))) = some C := by
      simp only [Option.filter, hCX, not_false_eq_true, decide_True, if_true]
    rw [hpos]
    dsimp only
    by_cases hne : C.hash = tx.hash
    · rw [if_neg (not_not_intro hne)]
      exact ErasesMet.of_erased h fun C' ⟨hC', hne'⟩ => absurd (Option.some.inj hC' ▸ hne) hne'
    · rw [if_pos hne]
      have hM : ∀ C', C' = C ↔ some C = some C' ∧ C'.hash ≠ tx.hash := fun C' =>
        ⟨fun h' => by subst h'; exact ⟨rfl, hne⟩, fun ⟨h', _⟩ => (Option.some.inj h').symm⟩
      exact (ErasesMet.remove hinv h (h.pooled_iff.2 ⟨hpool k C hC, hCX⟩)
        fun C' hC' => hX C' (hC ▸ (hM C').1 hC')).congr hM

/-- One loop of `removeConflicts`, with a lookup that after erasures answers as at the start except for erased
transactions, provided what is erased is closed under children within the descendants of what the loop meets. -/
theorem removeConflictsBy_spec : ∀ (ks : List K) es s r, ErasedFrom s₀ es s →
    ClosedWithin s₀ (fun C => ∃ k ∈ ks, look s₀ k = some C ∧ C.hash ≠ tx.hash) es →
    ErasesMet s₀ (fun C => ∃ k ∈ ks, look s₀ k = some C ∧ C.hash ≠ tx.hash) es r (removeConflictsBy look tx ks (s, r))
  | [], _, _, _, h, _ => ErasesMet.of_erased h fun _ ⟨k, hk, _⟩ => absurd hk (List.not_mem_nil k)
  | k :: ks, es, s, r, h, hX => by
    refine ((removeConflictsStep_spec look hinv hlook hpool tx k h fun C hC => hX C ⟨k, List.mem_cons_self _ _, hC⟩).seq
      (removeConflictsBy look tx ks) (fun C ⟨k', hk', hC⟩ => hX C ⟨k', List.mem_cons_of_mem _ hk', hC⟩)
      fun es₁ s₁ r₁ h₁ hX₁ => removeConflictsBy_spec ks (es ++ es₁) s₁ r₁ h₁ hX₁).congr fun C => ?_
    simp only [List.mem_cons, exists_eq_or_imp]

end

/-! ## The three loops -/

/-- In a pool satisfying `PoolInv`, the spend index names at `o` exactly the pooled transaction, not a coin import,
that spends `o`. -/
theorem lookNext_eq_some_iff (hinv : s₀.PoolInv) {o : COutPoint} :
    (s₀.mapNextTx.find o).map (·.ptx) = some C ↔ s₀.Pooled C ∧ C.isCoinImport = false ∧ o ∈ C.prevouts := by
  constructor
  · intro hf
    obtain ⟨p, hp, rfl⟩ := Option.map_eq_some'.1 hf
    obtain ⟨hpool, hn, ho⟩ := hinv.sound o p hp
    exact ⟨hpool, hinv.notImport o p hp, ho ▸ CTransaction.prevout_mem _ _ hn⟩
  · rintro ⟨hpool, himp, ho⟩
    obtain ⟨eC, heC, rfl⟩ := pooled_iff.1 hpool
    obtain ⟨i, hi, rfl⟩ := CTransaction.mem_prevouts.1 ho
    rw [hinv.complete eC heC himp i hi]
    rfl

/-- `removeConflicts(tx)` after the erasures `es`, where what is erased is closed under children within the
descendants of every conflict of `tx`: it erases, and appends to `removed`, the descendants of the conflicts of `tx`
not erased before. -/
theorem removeConflicts_spec (hinv : s₀.PoolInv) (hsound : s₀.NullifiersSound) (h : ErasedFrom s₀ es s)
    (tx : CTransaction) (r : List CTransaction) (hX : ClosedWithin s₀ (s₀.ConflictOf tx) es) :
    ErasesMet s₀ (s₀.ConflictOf tx) es r (s.removeConflicts tx r) := by
  -- what each loop meets is a conflict
  have hmet₁ : ∀ C, (∃ k ∈ tx.prevouts, (s₀.mapNextTx.find k).map (·.ptx) = some C ∧ C.hash ≠ tx.hash) →
      s₀.ConflictOf tx C := fun C ⟨k, hk, hC, hne⟩ => by
    obtain ⟨hpool, himp, hkC⟩ := (lookNext_eq_some_iff hinv).1 hC
    exact ⟨hpool, hne, .inl ⟨himp, k, hk, hkC⟩⟩
  have hmet₂ : ∀ C, (∃ k ∈ tx.sproutNullifiers, s₀.mapSproutNullifiers.find k = some C ∧ C.hash ≠ tx.hash) →
      s₀.ConflictOf tx C := fun C ⟨k, hk, hC, hne⟩ =>
    have ⟨hpool, hkC⟩ := (lookSprout_eq_some_iff hinv hsound).1 hC
    ⟨hpool, hne, .inr (.inl ⟨k, hk, hkC⟩)⟩
  have hmet₃ : ∀ C, (∃ k ∈ tx.saplingNullifiers, s₀.mapSaplingNullifiers.find k = some C ∧ C.hash ≠ tx.hash) →
      s₀.ConflictOf tx C := fun C ⟨k, hk, hC, hne⟩ =>
    have ⟨hpool, hkC⟩ := (lookSapling_eq_some_iff hinv hsound).1 hC
    ⟨hpool, hne, .inr (.inr ⟨k, hk, hkC⟩)⟩
  have hX' : ∀ {M : CTransaction → Prop}, (∀ C, M C → s₀.ConflictOf tx C) → ClosedWithin s₀ M es :=
    fun hM C hC => hX C (hM C hC)
  refine (((removeConflictsBy_spec (fun s o => (s.mapNextTx.find o).map (·.ptx)) hinv
    (fun _ _ k h => lookNext_erased hinv h k) (fun k C hC => ((lookNext_eq_some_iff hinv).1 hC).1) tx tx.prevouts es
      s r h (hX' hmet₁)).seq (removeConflictsBy (fun s nf => s.mapSproutNullifiers.find nf) tx tx.sproutNullifiers)
      (hX' hmet₂)
    fun es₁ s₁ r₁ h₁ hX₁ => removeConflictsBy_spec (fun s nf => s.mapSproutNullifiers.find nf) hinv
      (fun _ _ k h => lookNullifier_erased mapSproutNullifiers CTransaction.sproutNullifiers h
        (by rw [h.same.sprout, h.erased.mapSproutNullifiers]) hsound.1
        (fun nf C hC hnf => (lookSprout_eq_some_iff hinv hsound).2 ⟨hC, hnf⟩) k)
      (fun k C hC => ((lookSprout_eq_some_iff hinv hsound).1 hC).1) tx tx.sproutNullifiers (es ++ es₁) s₁ r₁ h₁ hX₁).seq
    (removeConflictsBy (fun s nf => s.mapSaplingNullifiers.find nf) tx tx.saplingNullifiers) (hX' hmet₃)
    fun es₁ s₁ r₁ h₁ hX₁ => removeConflictsBy_spec (fun s nf => s.mapSaplingNullifiers.find nf) hinv
      (fun _ _ k h => lookNullifier_erased mapSaplingNullifiers CTransaction.saplingNullifiers h
        (by rw [h.same.sapling, h.erased.mapSaplingNullifiers]) hsound.2
        (fun nf C hC hnf => (lookSapling_eq_some_iff hinv hsound).2 ⟨hC, hnf⟩) k)
      (fun k C hC => ((lookSapling_eq_some_iff hinv hsound).1 hC).1) tx tx.saplingNullifiers (es ++ es₁) s₁ r₁ h₁
      hX₁).congr fun C => ⟨fun h => ?_, fun hC => ?_⟩
  · rcases h with (h | h) | h
    exacts [hmet₁ C h, hmet₂ C h, hmet₃ C h]
  -- a conflict is met by one of the loops
  obtain ⟨hpool, hne, ⟨himp, o, ho, hoC⟩ | ⟨nf, hnf, hnfC⟩ | ⟨nf, hnf, hnfC⟩⟩ := hC
  · exact .inl (.inl ⟨o, ho, (lookNext_eq_some_iff hinv).2 ⟨hpool, himp, hoC⟩, hne⟩)
  · exact .inl (.inr ⟨nf, hnf, (lookSprout_eq_some_iff hinv hsound).2 ⟨hpool, hnfC⟩, hne⟩)
  · exact .inr ⟨nf, hnf, (lookSapling_eq_some_iff hinv hsound).2 ⟨hpool, hnfC⟩, hne⟩

end CTxMemPool

end VerusCoin
