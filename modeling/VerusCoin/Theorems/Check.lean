import VerusCoin.Lemmas.Check
import VerusCoin.Theorems.Remove

/-!
# The loop over `waitingOnDependants` in `check()`

Whenever the first pass of `check()` reaches the loop, its assertions have established that every input of a pooled
transaction is recorded in `mapNextTx` as that input, so the pooled transactions spend pairwise distinct outpoints,
and that every input spends an existing output of a pooled transaction or an outpoint `pcoins` holds. From there the
loop ends within `|waitingOnDependants|² + 1` rounds, fails its assertion exactly when some deferred transaction can
never get its inputs, and, when the dependencies between pooled transactions have no cycle, applies every deferred
transaction once, each with its inputs.
-/

namespace VerusCoin

open CTxMemPool

/-- For every pool, coins view and outcome of the shielded checks, once the first pass reaches the loop with the view
`view₁` and the deferred transactions `d`: the loop ends within `|d|² + 1` rounds; it fails its assertion exactly
when some deferred transaction can never get its inputs; and when the dependencies between pooled transactions have
no cycle, it applies every deferred transaction exactly once, each with its inputs available, and empties the list. -/
theorem check_waiting_loop (s : CTxMemPool) (pcoins : CoinsView) (shieldedOk : CTransaction → Bool)
    (view₁ : CoinsView) (d : List CTransaction)
    (hpass : s.checkFirstPass pcoins shieldedOk s.mapTx.entries pcoins [] = some (view₁, d))
    (fuel : Nat) (hfuel : d.length * d.length < fuel) :
    checkWaiting fuel view₁ d 0 ≠ .outOfFuel ∧
      (checkWaiting fuel view₁ d 0 = .assertFail ↔ ∃ T ∈ d, NeverReady view₁ d T) ∧
      ((∀ T, ¬ Relation.TransGen s.DependsOn T T) → ∃ order, order.Perm d ∧ Replays view₁ order = true ∧
        checkWaiting fuel view₁ d 0 = .done (order.foldl UpdateCoins view₁)) := by
  obtain ⟨F, D, -, hd, hperm, hc⟩ := s.checkFirstPass_spec hpass
  rw [List.nil_append] at hd
  subst hd
  have hpool : ∀ X ∈ d, X ∈ s.mapTx.entries.map (·.tx) := fun X hX => hperm.subset (List.mem_append_right _ hX)
  have hnd : d.Nodup := (List.nodup_append.1 (hperm.nodup_iff.2 s.entries_tx_nodup)).2.1
  exact ⟨checkWaiting_ne_outOfFuel fuel view₁ d 0 (.inr rfl) (by omega),
    checkWaiting_assertFail_iff hnd (fun X hX Y hY => inputs_disjoint_of_checked hc (hpool X hX) (hpool Y hY)) hfuel,
    fun hacyc => checkWaiting_done_of_acyclic hpass hacyc hfuel⟩

/-- `childTx` spends an output of `parentTx`, which spends nothing: the dependencies of `familyPool` go down in hash. -/
theorem familyPool_acyclic : ∀ T, ¬ Relation.TransGen familyPool.DependsOn T T := by
  refine acyclic_of_rank CTransaction.hash fun T P hT ⟨_, n, _, hn⟩ => ?_
  rcases familyPool_pooled hT with rfl | rfl <;> simp_all [parentTx, childTx, CTransaction.prevouts]

/-- On the reachable pool holding `parentTx` and its child, with an empty `pcoins` and passing shielded checks, the
first pass applies `parentTx` and defers `childTx`; the dependencies have no cycle, and the loop with two rounds of
fuel behaves as `check_waiting_loop` says. -/
theorem check_waiting_familyPool :
    familyPool.checkFirstPass (fun _ => false) (fun _ => true) familyPool.mapTx.entries (fun _ => false) [] =
        some (UpdateCoins (fun _ => false) parentTx, [childTx]) ∧ [childTx].length * [childTx].length < 2 ∧
      (∀ T, ¬ Relation.TransGen familyPool.DependsOn T T) ∧
      (checkWaiting 2 (UpdateCoins (fun _ => false) parentTx) [childTx] 0 ≠ .outOfFuel ∧
        (checkWaiting 2 (UpdateCoins (fun _ => false) parentTx) [childTx] 0 = .assertFail ↔
          ∃ T ∈ [childTx], NeverReady (UpdateCoins (fun _ => false) parentTx) [childTx] T) ∧
        ((∀ T, ¬ Relation.TransGen familyPool.DependsOn T T) → ∃ order, order.Perm [childTx] ∧
          Replays (UpdateCoins (fun _ => false) parentTx) order = true ∧
          checkWaiting 2 (UpdateCoins (fun _ => false) parentTx) [childTx] 0 =
            .done (order.foldl UpdateCoins (UpdateCoins (fun _ => false) parentTx)))) :=
  have hpass : familyPool.checkFirstPass (fun _ => false) (fun _ => true) familyPool.mapTx.entries (fun _ => false) [] =
      some (UpdateCoins (fun _ => false) parentTx, [childTx]) := rfl
  ⟨hpass, by decide, familyPool_acyclic,
    check_waiting_loop familyPool (fun _ => false) (fun _ => true) _ _ hpass 2 (by decide)⟩

end VerusCoin
