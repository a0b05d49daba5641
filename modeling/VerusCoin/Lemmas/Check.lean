import Mathlib.Data.Fintype.Card
import VerusCoin.Check
import VerusCoin.Lemmas.Basic

/-!
# The replay of `check()`: what the first pass and the loop do

`UpdateCoins` only spends the inputs of the transaction it applies, so an outpoint no applied transaction spends is
available after a replay exactly when the start view holds it or an applied transaction produces it
(`foldl_updateCoins_of_not_spent`). The loop over `waitingOnDependants` ends in one of two ways, whatever it is given
(`checkWaiting_outcome`): every transaction applied once, in an order in which each has its inputs, or a replay of
some of them after which none of the others has its inputs; and it always ends within `|q|² + 1` rounds
(`checkWaiting_ne_outOfFuel`). The first pass establishes that the pooled transactions spend pairwise distinct
outpoints, which makes availability monotone in what has been applied.
-/

namespace VerusCoin

/-- `order` replays from `view`: each transaction has its inputs available when it is applied. -/
def Replays : CoinsView → List CTransaction → Bool
  | _, [] => true
  | view, tx :: rest => HaveInputs view tx && Replays (UpdateCoins view tx) rest

/-- `tx` produces the outpoint `o`: `o` names an output of `tx`. -/
def Produces (tx : CTransaction) (o : COutPoint) : Bool := decide (o.hash = tx.hash ∧ o.n < tx.vout.length)

/-- `T` depends on the pooled `P`: it spends an output of `P`. -/
def CTxMemPool.DependsOn (s : CTxMemPool) (T P : CTransaction) : Prop :=
  s.Pooled P ∧ ∃ n < P.vout.length, (⟨P.hash, n⟩ : COutPoint) ∈ T.prevouts

theorem replays_append (view : CoinsView) (A B : List CTransaction) :
    Replays view (A ++ B) = (Replays view A && Replays (A.foldl UpdateCoins view) B) := by
  induction A generalizing view with
  | nil => simp [Replays]
  | cons tx A ih => simp [Replays, ih, Bool.and_assoc]

/-! ## Availability after a replay -/

section Availability

variable {view : CoinsView} {S S₁ S₂ : List CTransaction} {T : CTransaction}

/-- An outpoint no applied transaction spends is available after the replay exactly when the start view holds it or
an applied transaction produces it. -/
theorem foldl_updateCoins_of_not_spent (o : COutPoint) (h : ∀ Y ∈ S, o ∉ Y.prevouts) :
    S.foldl UpdateCoins view o = (view o || S.any (Produces · o)) := by
  induction S generalizing view with
  | nil => simp
  | cons Y S ih =>
    rw [List.foldl_cons, ih fun Y' hY' => h Y' (List.mem_cons_of_mem _ hY')]
    simp [UpdateCoins, Produces, h Y (List.mem_cons_self _ _), Bool.or_assoc]

/-- The inputs of `T`, when no applied transaction spends one: each held by the start view or produced. -/
theorem haveInputs_foldl (h : ∀ Y ∈ S, ∀ o ∈ T.prevouts, o ∉ Y.prevouts) :
    HaveInputs (S.foldl UpdateCoins view) T = T.prevouts.all (fun o => view o || S.any (Produces · o)) := by
  rw [HaveInputs, Bool.eq_iff_iff]
  simp only [List.all_eq_true]
  exact forall₂_congr fun o ho => by rw [foldl_updateCoins_of_not_spent o fun Y hY => h Y hY o ho]

/-- Replaying more transactions, none spending an input of `T`, keeps the inputs of `T` available. -/
theorem haveInputs_mono (hsub : ∀ Y ∈ S₁, Y ∈ S₂) (hdis : ∀ Y ∈ S₂, ∀ o ∈ T.prevouts, o ∉ Y.prevouts)
    (h : HaveInputs (S₁.foldl UpdateCoins view) T = true) : HaveInputs (S₂.foldl UpdateCoins view) T = true := by
  rw [haveInputs_foldl fun Y hY => hdis Y (hsub Y hY)] at h
  rw [haveInputs_foldl hdis]
  simp only [List.all_eq_true, Bool.or_eq_true, List.any_eq_true] at h ⊢
  exact fun o ho => (h o ho).imp_right fun ⟨Y, hY, hp⟩ => ⟨Y, hsub Y hY, hp⟩

end Availability

/-! ## The loop over `waitingOnDependants` -/

/-- How the loop may end from `view` with the list `q`: every transaction applied once, in an order that replays, or a
replay of part of them after which none of the rest has its inputs. -/
def WaitOutcome (view : CoinsView) (q : List CTransaction) : CheckResult → Prop
  | .done v => ∃ order, order.Perm q ∧ Replays view order = true ∧ v = order.foldl UpdateCoins view
  | .assertFail => ∃ A R, (A ++ R).Perm q ∧ R ≠ [] ∧ Replays view A = true ∧
      ∀ T ∈ R, HaveInputs (A.foldl UpdateCoins view) T = false
  | .outOfFuel => True

theorem WaitOutcome.perm {view : CoinsView} {q q' : List CTransaction} (hq : q.Perm q') :
    ∀ {r : CheckResult}, WaitOutcome view q r → WaitOutcome view q' r
  | .done _, ⟨order, hp, h⟩ => ⟨order, hp.trans hq, h⟩
  | .assertFail, ⟨A, R, hp, h⟩ => ⟨A, R, hp.trans hq, h⟩
  | .outOfFuel, _ => trivial

/-- The run of the loop from a replay `A` of `view`, with the list `fresh ++ tried`, where the transactions `tried`
have been pushed back since the last one applied and lack their inputs. -/
theorem checkWaiting_outcome (view : CoinsView) : ∀ (fuel : Nat) (A fresh tried : List CTransaction),
    Replays view A = true → (∀ T ∈ tried, HaveInputs (A.foldl UpdateCoins view) T = false) →
    WaitOutcome view (A ++ fresh ++ tried) (checkWaiting fuel (A.foldl UpdateCoins view) (fresh ++ tried) tried.length)
  | 0, _, _, _, _, _ => trivial
  | _ + 1, A, [], [], hA, _ => ⟨A, by simp, hA, rfl⟩
  | _ + 1, A, [], tx :: tried, hA, hst => by
    have hlen : ¬ (tried.length + 1 + 1 < (tried ++ [tx]).length) := by simp
    rw [List.nil_append]
    simp only [checkWaiting, hst tx (List.mem_cons_self _ _), List.length_cons, hlen, if_false]
    exact ⟨A, tx :: tried, by simp, List.cons_ne_nil _ _, hA, hst⟩
  | fuel + 1, A, tx :: fresh, tried, hA, hst => by
    rw [List.cons_append]
    simp only [checkWaiting]
    cases htx : HaveInputs (A.foldl UpdateCoins view) tx with
    | true =>
      -- `tx` has its inputs: it is applied
      have h := checkWaiting_outcome view fuel (A ++ [tx]) (fresh ++ tried) []
        (by simp [replays_append, Replays, hA, htx]) (by simp)
      simpa using h
    | false =>
      have hst' : ∀ T ∈ tried ++ [tx], HaveInputs (A.foldl UpdateCoins view) T = false := fun T hT =>
        (List.mem_append.1 hT).elim (hst T) fun h => (List.mem_singleton.1 h) ▸ htx
      simp only [Bool.false_eq_true, if_false]
      split
      · -- pushed back, with the assertion passed
        have h := checkWaiting_outcome view fuel A fresh (tried ++ [tx]) hA hst'
        rw [List.length_append, List.length_singleton, ← List.append_assoc fresh tried [tx]] at h
        refine h.perm ?_
        simpa only [List.append_assoc, List.cons_append] using
          (List.perm_append_singleton tx (fresh ++ tried)).append_left A
      · -- pushed back after every transaction was tried since the last one applied: the assertion fails
        rename_i hlen
        have hf : fresh.length = 0 := by
          simp only [List.length_append, List.length_singleton] at hlen
          omega
        obtain rfl := List.eq_nil_of_length_eq_zero hf
        exact ⟨A, tried ++ [tx], by simpa using (List.perm_append_singleton tx tried).append_left A, by simp, hA,
          hst'⟩

/-- The loop ends, by emptying the list or by a failed assertion, within `|q|² - steps + 1` rounds. -/
theorem checkWaiting_ne_outOfFuel : ∀ (fuel : Nat) (view : CoinsView) (q : List CTransaction) (steps : Nat),
    steps < q.length ∨ steps = 0 → q.length * q.length - steps < fuel → checkWaiting fuel view q steps ≠ .outOfFuel
  | 0, _, _, _, _, h => absurd h (Nat.not_lt_zero _)
  | _ + 1, _, [], _, _, _ => nofun
  | fuel + 1, view, tx :: rest, steps, hs, hf => by
    have hsq : (rest.length + 1) * (rest.length + 1) = rest.length * rest.length + 2 * rest.length + 1 := by
      simp only [Nat.mul_succ, Nat.succ_mul]
      omega
    simp only [List.length_cons, hsq] at hs hf
    simp only [checkWaiting]
    split
    · exact checkWaiting_ne_outOfFuel fuel _ rest 0 (.inr rfl) (by omega)
    split
    · have hl : (rest ++ [tx]).length = rest.length + 1 := by simp
      exact checkWaiting_ne_outOfFuel fuel view _ _ (.inl ‹_›) (by rw [hl, hsq]; omega)
    · nofun

/-! ## The first pass -/

namespace CTxMemPool

variable {s : CTxMemPool} {pcoins : CoinsView} {tx : CTransaction}

/-- The assertions of the first pass hold at input `i` of `tx`, which spends `o`: `mapNextTx` records it, and the
output it spends exists in the pooled transaction of its hash or, with none pooled, `pcoins` holds it. -/
def InputChecked (s : CTxMemPool) (pcoins : CoinsView) (tx : CTransaction) (i : Nat) (o : COutPoint) : Prop :=
  s.mapNextTx.find o = some ⟨tx, i⟩ ∧
    match s.mapTx.find o.hash with
    | some e2 => o.n < e2.tx.vout.length
    | none => pcoins o = true

/-- The first pass checks every input of every pooled transaction. -/
def FirstPassChecked (s : CTxMemPool) (pcoins : CoinsView) : Prop :=
  ∀ e ∈ s.mapTx.entries, ∀ i (hi : i < e.tx.vin.length), s.InputChecked pcoins e.tx i e.tx.vin[i].prevout

theorem inputChecked_of_checkInput {i : Nat} {txin : CTxIn} {d : Bool}
    (h : s.checkInput pcoins tx i txin = some d) : s.InputChecked pcoins tx i txin.prevout := by
  by_cases hn : s.mapNextTx.find txin.prevout = some ⟨tx, i⟩
  · refine ⟨hn, ?_⟩
    simp only [checkInput, hn, if_true] at h
    cases hf : s.mapTx.find txin.prevout.hash with
    | none =>
      simp only [hf] at h ⊢
      by_contra hp
      simp [hp] at h
    | some e2 =>
      simp only [hf] at h ⊢
      by_contra hlt
      rw [List.getElem?_eq_none (by omega)] at h
      simp at h
  · simp [checkInput, hn] at h

theorem inputChecked_of_checkInputs : ∀ {i : Nat} {vin : List CTxIn} {d : Bool},
    s.checkInputs pcoins tx i vin = some d →
      ∀ j (hj : j < vin.length), s.InputChecked pcoins tx (i + j) vin[j].prevout
  | _, [], _, _, _, hj => absurd hj (Nat.not_lt_zero _)
  | i, txin :: rest, d, h, j, hj => by
    simp only [checkInputs, Option.bind_eq_bind, Option.bind_eq_some] at h
    obtain ⟨d₁, h₁, d₂, h₂, -⟩ := h
    cases j with
    | zero => exact inputChecked_of_checkInput h₁
    | succ j =>
      rw [show i + (j + 1) = i + 1 + j by omega]
      exact inputChecked_of_checkInputs h₂ j (by simpa using hj)

/-- The first pass over the entries `es`, when no assertion fails: the view reached replays the transactions `F` it
applied, the list reached extends the one it started with by the transactions `D` it deferred, `F` and `D` split the
transactions of `es`, and every input of them passed its assertions. -/
theorem checkFirstPass_spec {shieldedOk : CTransaction → Bool} : ∀ {es : List CTxMemPoolEntry}
    {view view' : CoinsView} {waiting d : List CTransaction},
    s.checkFirstPass pcoins shieldedOk es view waiting = some (view', d) →
      ∃ F D, view' = F.foldl UpdateCoins view ∧ d = waiting ++ D ∧ (F ++ D).Perm (es.map (·.tx)) ∧
        ∀ e ∈ es, ∀ i (hi : i < e.tx.vin.length), s.InputChecked pcoins e.tx i e.tx.vin[i].prevout
  | [], _, _, _, _, h => by
    simp only [checkFirstPass, Option.some.injEq, Prod.mk.injEq] at h
    obtain ⟨rfl, rfl⟩ := h
    exact ⟨[], [], rfl, by simp, by simp, by simp⟩
  | e :: es, view, view', waiting, d, h => by
    unfold checkFirstPass at h
    cases hin : s.checkInputs pcoins e.tx 0 e.tx.vin with
    | none => simp [hin] at h
    | some fDependsWait =>
      have hchk : ∀ i (hi : i < e.tx.vin.length), s.InputChecked pcoins e.tx i e.tx.vin[i].prevout :=
        fun i hi => by simpa using inputChecked_of_checkInputs hin i hi
      simp only [hin] at h
      split at h
      · cases h
      split at h
      · -- deferred
        obtain ⟨F, D, rfl, rfl, hp, hc⟩ := checkFirstPass_spec h
        exact ⟨F, e.tx :: D, rfl, by simp, List.perm_middle.trans (hp.cons e.tx),
          List.forall_mem_cons.2 ⟨hchk, hc⟩⟩
      split at h
      · -- applied
        obtain ⟨F, D, rfl, rfl, hp, hc⟩ := checkFirstPass_spec h
        exact ⟨e.tx :: F, D, rfl, rfl, hp.cons e.tx, List.forall_mem_cons.2 ⟨hchk, hc⟩⟩
      · cases h

theorem entries_tx_nodup (s : CTxMemPool) : (s.mapTx.entries.map (·.tx)).Nodup :=
  List.Nodup.of_map CTransaction.hash (by rw [List.map_map]; exact s.mapTx.nodup)

section Checked

variable (hc : s.FirstPassChecked pcoins)
include hc

theorem inputChecked_of_mem {T : CTransaction} (hT : T ∈ s.mapTx.entries.map (·.tx)) {o : COutPoint}
    (ho : o ∈ T.prevouts) : ∃ i, s.InputChecked pcoins T i o := by
  obtain ⟨e, he, rfl⟩ := List.mem_map.1 hT
  obtain ⟨i, hi, rfl⟩ := CTransaction.mem_prevouts.1 ho
  exact ⟨i, hc e he i hi⟩

/-- Once the first pass has checked every input, distinct pooled transactions spend distinct outpoints:
`mapNextTx` records each outpoint for one of them. -/
theorem inputs_disjoint_of_checked {X Y : CTransaction} (hX : X ∈ s.mapTx.entries.map (·.tx))
    (hY : Y ∈ s.mapTx.entries.map (·.tx)) (hne : X ≠ Y) : ∀ o ∈ X.prevouts, o ∉ Y.prevouts := fun o hoX hoY => by
  obtain ⟨i, hi, -⟩ := inputChecked_of_mem hc hX hoX
  obtain ⟨j, hj, -⟩ := inputChecked_of_mem hc hY hoY
  exact hne (CInPoint.mk.inj (Option.some.inj (hi.symm.trans hj))).1

/-- A pooled transaction all of whose pooled parents are among the transactions `S` applied to `pcoins`, itself not
applied, has its inputs. -/
theorem haveInputs_of_parents_applied {T : CTransaction} {S : List CTransaction}
    (hT : T ∈ s.mapTx.entries.map (·.tx)) (hS : ∀ Y ∈ S, Y ∈ s.mapTx.entries.map (·.tx)) (hTS : T ∉ S)
    (hpar : ∀ P, s.DependsOn T P → P ∈ S) : HaveInputs (S.foldl UpdateCoins pcoins) T = true := by
  rw [haveInputs_foldl fun Y hY => inputs_disjoint_of_checked hc hT (hS Y hY) fun h => hTS (h ▸ hY)]
  refine List.all_eq_true.2 fun o ho => ?_
  obtain ⟨i, -, hpar'⟩ := inputChecked_of_mem hc hT ho
  cases hf : s.mapTx.find o.hash with
  | none => simp only [hf] at hpar'; simp [hpar']
  | some e2 =>
    simp only [hf] at hpar'
    obtain ⟨he2, hh⟩ := (TxSet.find_eq_some_iff _ _ _).1 hf
    have hh' : e2.tx.hash = o.hash := hh
    have hdep : s.DependsOn T e2.tx := ⟨pooled_of_mem he2, o.n, hpar', by rw [hh']; exact ho⟩
    simp only [Bool.or_eq_true, List.any_eq_true]
    exact .inr ⟨e2.tx, hpar _ hdep, by simp [Produces, hh', hpar']⟩

end Checked

end CTxMemPool

/-! ## When the loop fails -/

/-- `T` can never get its inputs from `view`: after any replay of other transactions of `q`, an input of `T` is
missing. -/
def NeverReady (view : CoinsView) (q : List CTransaction) (T : CTransaction) : Prop :=
  ∀ B : List CTransaction, B.Nodup → (∀ X ∈ B, X ∈ q ∧ X ≠ T) → Replays view B = true →
    HaveInputs (B.foldl UpdateCoins view) T = false

section Disjoint

variable {view : CoinsView} {q A R : List CTransaction}
  (hnd : q.Nodup) (hdis : ∀ X ∈ q, ∀ Y ∈ q, X ≠ Y → ∀ o ∈ X.prevouts, o ∉ Y.prevouts)
include hnd hdis

omit hnd in
/-- When the loop is stuck after replaying `A`, with the rest `R` lacking inputs, every replay of transactions of the
list stays within `A`. -/
theorem replay_sub_of_stuck (hAR : (A ++ R).Perm q) (hst : ∀ T ∈ R, HaveInputs (A.foldl UpdateCoins view) T = false)
    (B : List CTransaction) (hB : B.Nodup) (hBq : ∀ X ∈ B, X ∈ q) (hr : Replays view B = true) : ∀ X ∈ B, X ∈ A := by
  induction B using List.reverseRecOn with
  | nil => simp
  | append_singleton B X ih =>
    rw [replays_append] at hr
    simp only [Replays, Bool.and_true, Bool.and_eq_true] at hr
    have hBnd := (List.nodup_append.1 hB).1
    have hsub := ih hBnd (fun Y hY => hBq Y (List.mem_append_left _ hY)) hr.1
    refine List.forall_mem_append.2 ⟨hsub, List.forall_mem_singleton.2 (by_contra fun hXA => ?_)⟩
    have hXq := hBq X (List.mem_append_right _ (List.mem_singleton_self _))
    have hXR : X ∈ R := ((List.mem_append.1 (hAR.mem_iff.2 hXq)).resolve_left hXA)
    have hdisA : ∀ Y ∈ A, ∀ o ∈ X.prevouts, o ∉ Y.prevouts := fun Y hY =>
      hdis X hXq Y (hAR.subset (List.mem_append_left _ hY)) fun h => hXA (h ▸ hY)
    have := haveInputs_mono hsub hdisA hr.2
    rw [hst X hXR] at this
    cases this

/-- When the loop is stuck after replaying `A`, each transaction of the rest `R` can never get its inputs. -/
theorem neverReady_of_stuck (hAR : (A ++ R).Perm q) (hst : ∀ T ∈ R, HaveInputs (A.foldl UpdateCoins view) T = false) :
    ∀ T ∈ R, NeverReady view q T := by
  intro T hT B hB hBq hr
  have hsub := replay_sub_of_stuck hdis hAR hst B hB (fun X hX => (hBq X hX).1) hr
  have hTq : T ∈ q := hAR.subset (List.mem_append_right _ hT)
  have hTA : T ∉ A := fun h => List.disjoint_of_nodup_append (hAR.nodup_iff.2 hnd) h hT
  refine Bool.eq_false_iff.2 fun hB' => ?_
  have := haveInputs_mono hsub (fun Y hY => hdis T hTq Y (hAR.subset (List.mem_append_left _ hY))
    fun h => hTA (h ▸ hY)) hB'
  rw [hst T hT] at this
  cases this

omit hdis in
/-- A replay of every transaction of the list gives each of them its inputs. -/
theorem not_neverReady_of_replays {order : List CTransaction} (hp : order.Perm q) (hr : Replays view order = true) :
    ∀ T ∈ q, ¬ NeverReady view q T := by
  intro T hT hN
  obtain ⟨B, C, rfl⟩ := List.append_of_mem (hp.mem_iff.2 hT)
  have hond := hp.nodup_iff.2 hnd
  rw [replays_append] at hr
  simp only [Replays, Bool.and_eq_true] at hr
  have hTB : T ∉ B := fun h => List.disjoint_of_nodup_append hond h (List.mem_cons_self _ _)
  have := hN B (List.nodup_append.1 hond).1
    (fun X hX => ⟨hp.subset (List.mem_append_left _ hX), fun h => hTB (h ▸ hX)⟩) hr.1
  rw [hr.2.1] at this
  cases this

/-- On a list without repeats whose transactions spend pairwise distinct outpoints, with enough fuel, the loop fails
its assertion exactly when some transaction of the list can never get its inputs. -/
theorem checkWaiting_assertFail_iff {fuel : Nat} (hfuel : q.length * q.length < fuel) :
    checkWaiting fuel view q 0 = .assertFail ↔ ∃ T ∈ q, NeverReady view q T := by
  have hout : WaitOutcome view q (checkWaiting fuel view q 0) := by
    simpa using checkWaiting_outcome view fuel [] q [] rfl (fun _ h => absurd h (List.not_mem_nil _))
  have hterm := checkWaiting_ne_outOfFuel fuel view q 0 (.inr rfl) (by omega)
  generalize checkWaiting fuel view q 0 = r at hout hterm ⊢
  cases r with
  | done v =>
    obtain ⟨order, hp, hr, -⟩ := hout
    exact ⟨nofun, fun ⟨T, hT, hN⟩ => (not_neverReady_of_replays hnd hp hr T hT hN).elim⟩
  | assertFail =>
    obtain ⟨A, R, hAR, hR, -, hst⟩ := hout
    obtain ⟨T, hT⟩ := List.exists_mem_of_ne_nil R hR
    exact ⟨fun _ => ⟨T, hAR.subset (List.mem_append_right _ hT), neverReady_of_stuck hnd hdis hAR hst T hT⟩,
      fun _ => rfl⟩
  | outOfFuel => exact absurd rfl hterm

end Disjoint

/-- In a relation without cycles, a nonempty list has an element related to none of the list. -/
theorem exists_minimal_of_acyclic {α : Type} {r : α → α → Prop} (hacyc : ∀ a, ¬ Relation.TransGen r a a)
    {R : List α} (hR : R ≠ []) : ∃ a ∈ R, ∀ b ∈ R, ¬ r a b := by
  classical
  let rR : {x // x ∈ R} → {x // x ∈ R} → Prop := fun x y => Relation.TransGen r y.1 x.1
  have : IsTrans _ rR := ⟨fun _ _ _ h₁ h₂ => h₂.trans h₁⟩
  have : IsIrrefl _ rR := ⟨fun x => hacyc x.1⟩
  obtain ⟨T, hT⟩ := List.exists_mem_of_ne_nil R hR
  obtain ⟨a, -, ha⟩ := (Finite.wellFounded_of_trans_of_irrefl rR).has_min Set.univ ⟨⟨T, hT⟩, trivial⟩
  exact ⟨a.1, a.2, fun b hb hab => ha ⟨b, hb⟩ trivial (.single hab)⟩

/-- A pool whose dependencies all go from a pooled transaction to one of lower rank has no dependency cycle. -/
theorem CTxMemPool.acyclic_of_rank {s : CTxMemPool} (rank : CTransaction → Nat)
    (h : ∀ T P, s.Pooled T → s.DependsOn T P → rank P < rank T) : ∀ T, ¬ Relation.TransGen s.DependsOn T T := by
  have key : ∀ {a b}, Relation.TransGen s.DependsOn a b → (s.Pooled a → rank b < rank a) ∧ s.Pooled b := by
    intro a b hab
    induction hab with
    | single hab => exact ⟨fun ha => h _ _ ha hab, hab.1⟩
    | tail _ hbc ih => exact ⟨fun ha => (h _ _ ih.2 hbc).trans (ih.1 ha), hbc.1⟩
  exact fun T hT => absurd ((key hT).1 (key hT).2) (Nat.lt_irrefl _)

/-- When the first pass reaches the loop and the pool's dependencies have no cycle, the loop applies every deferred
transaction once, each with its inputs, and ends with the list emptied. -/
theorem CTxMemPool.checkWaiting_done_of_acyclic {s : CTxMemPool} {pcoins : CoinsView}
    {shieldedOk : CTransaction → Bool} {view₁ : CoinsView} {d : List CTransaction} {fuel : Nat}
    (hpass : s.checkFirstPass pcoins shieldedOk s.mapTx.entries pcoins [] = some (view₁, d))
    (hacyc : ∀ T, ¬ Relation.TransGen s.DependsOn T T) (hfuel : d.length * d.length < fuel) :
    ∃ order, order.Perm d ∧ Replays view₁ order = true ∧
      checkWaiting fuel view₁ d 0 = .done (order.foldl UpdateCoins view₁) := by
  obtain ⟨F, D, rfl, hd, hperm, hc⟩ := s.checkFirstPass_spec hpass
  rw [List.nil_append] at hd
  subst hd
  have hout : WaitOutcome (F.foldl UpdateCoins pcoins) d (checkWaiting fuel (F.foldl UpdateCoins pcoins) d 0) := by
    simpa using checkWaiting_outcome (F.foldl UpdateCoins pcoins) fuel [] d [] rfl
      (fun _ h => absurd h (List.not_mem_nil _))
  have hterm := checkWaiting_ne_outOfFuel fuel (F.foldl UpdateCoins pcoins) d 0 (.inr rfl) (by omega)
  generalize checkWaiting fuel (F.foldl UpdateCoins pcoins) d 0 = r at hout hterm ⊢
  cases r with
  | done v =>
    obtain ⟨order, hp, hr, rfl⟩ := hout
    exact ⟨order, hp, hr, rfl⟩
  | outOfFuel => exact absurd rfl hterm
  | assertFail =>
    exfalso
    obtain ⟨A, R, hAR, hR, -, hst⟩ := hout
    obtain ⟨T, hT, hmin⟩ := exists_minimal_of_acyclic hacyc hR
    have hpool : (F ++ A ++ R).Perm (s.mapTx.entries.map (·.tx)) := by
      rw [List.append_assoc]
      exact (hAR.append_left F).trans hperm
    have hnd := hpool.nodup_iff.2 s.entries_tx_nodup
    have hTFA : T ∉ F ++ A := fun h => List.disjoint_of_nodup_append hnd h hT
    have hready := s.haveInputs_of_parents_applied hc (hpool.subset (List.mem_append_right _ hT))
      (fun Y hY => hpool.subset (List.mem_append_left _ hY)) hTFA fun P hP => by
        have hPR : P ∉ R := fun h => hmin P h hP
        obtain ⟨e, he, rfl⟩ := pooled_iff.1 hP.1
        exact (List.mem_append.1 (hpool.symm.subset (List.mem_map_of_mem _ he))).resolve_right hPR
    rw [List.foldl_append, hst T hT] at hready
    cases hready

end VerusCoin
