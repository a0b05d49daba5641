import Mathlib.Data.List.Forall2
import Mathlib.Data.List.Perm.Subperm
import VerusCoin.Notary

/-!
# What `CheckNotaryInputs` accepts

The scripts `scriptKey` accepts are exactly a push of 33 bytes, a key and `OP_CHECKSIG` (`scriptKey_eq_some_iff`).
The marking of the notaries is first-fit, and first-fit is enough: marking a notary erases its key from the keys not
yet seen (`unseen_markNotary`), so the loop succeeds exactly when the inputs' keys are a sub-multiset of the notary
keys, that is, when they can be matched to pairwise distinct notaries (`checkNotaryVin_eq_true_iff`). The loop reads
past the end of a spent transaction's outputs only at an input naming `n = vout.size()`, which the bound test lets
through.
-/

namespace VerusCoin

/-! ## The script of a notary output -/

theorem PubKey.ext_bytes {k k' : PubKey} (h : k.bytes = k'.bytes) : k = k' := by
  cases k; cases k'; cases h; rfl

/-- The scripts `scriptKey` accepts are exactly the push of 33, a key and `OP_CHECKSIG`. -/
theorem scriptKey_eq_some_iff {spk : List UInt8} {k : PubKey} :
    scriptKey spk = some k ↔ spk = 33 :: k.bytes ++ [OP_CHECKSIG] := by
  constructor
  · intro h
    unfold scriptKey at h
    split at h
    · rename_i hlen
      split at h
      · rename_i hb
        obtain ⟨h0, h34⟩ := hb
        cases h
        obtain ⟨a, t, rfl⟩ : ∃ a t, spk = a :: t := List.exists_cons_of_ne_nil (by rintro rfl; simp at hlen)
        simp only [List.length_cons, Nat.add_right_cancel_iff] at hlen
        simp only [List.getElem?_cons_zero, Option.some.injEq] at h0
        subst h0
        have hd : t.drop 33 = [OP_CHECKSIG] := by
          rcases hd : t.drop 33 with _ | ⟨x, _ | ⟨y, r⟩⟩
          · have := congrArg List.length hd; simp at this; omega
          · have := congrArg (·[0]?) hd
            simp only [List.getElem?_drop, List.getElem?_cons_zero] at this
            simp only [List.getElem?_cons_succ] at h34
            rw [h34] at this
            cases this; rfl
          · have := congrArg List.length hd; simp at this; omega
        simp only [List.drop_succ_cons, List.drop_zero, List.cons_append, List.cons.injEq, true_and]
        conv_lhs => rw [← List.take_append_drop 33 t, hd]
      · cases h
    · cases h
  · rintro rfl
    have hk := k.length_bytes
    have h34 : (33 :: k.bytes ++ [OP_CHECKSIG])[34]? = some OP_CHECKSIG := by
      rw [List.cons_append, List.getElem?_cons_succ, List.getElem?_append_right (by omega)]
      simp [hk]
    unfold scriptKey
    rw [dif_pos (by simp [hk]), if_pos ⟨by simp, h34⟩]
    exact congrArg some (PubKey.ext_bytes (by simp [List.take_left' hk]))

/-! ## The notaries not yet seen -/

/-- The notary keys of the rows not yet seen, in order. -/
def unseen (rows : List (PubKey × Bool)) : List PubKey := rows.filterMap (fun r => if r.2 then none else some r.1)

@[simp] theorem unseen_nil : unseen [] = [] := rfl

theorem unseen_cons (key : PubKey) (seen : Bool) (rows : List (PubKey × Bool)) :
    unseen ((key, seen) :: rows) = if seen then unseen rows else key :: unseen rows := by
  cases seen <;> rfl

theorem unseen_map_false (keys : List PubKey) : unseen (keys.map (·, false)) = keys := by
  induction keys with
  | nil => rfl
  | cons k keys ih => simp only [List.map_cons, unseen_cons, ih, Bool.false_eq_true, if_false]

/-- The marking fails exactly when no row not yet seen has the key. -/
theorem markNotary_eq_none_iff {pk : PubKey} : ∀ {rows : List (PubKey × Bool)},
    markNotary pk rows = none ↔ pk ∉ unseen rows
  | [] => by simp [markNotary]
  | (key, seen) :: rows => by
    rw [markNotary, unseen_cons]
    by_cases hk : key = pk
    · subst hk
      cases seen <;> simp [markNotary_eq_none_iff]
    · cases seen <;> simp [hk, Ne.symm hk, markNotary_eq_none_iff]

/-- Marking a notary erases its key from the keys not yet seen. -/
theorem unseen_markNotary {pk : PubKey} : ∀ {rows rows' : List (PubKey × Bool)},
    markNotary pk rows = some rows' → unseen rows' = (unseen rows).erase pk
  | [], _, h => by simp [markNotary] at h
  | (key, seen) :: rows, rows', h => by
    rw [markNotary] at h
    split at h
    · rename_i hc
      simp only [Bool.and_eq_true, Bool.not_eq_true', beq_iff_eq] at hc
      obtain ⟨rfl, rfl⟩ := hc
      cases h
      simp [unseen_cons]
    · rename_i hc
      obtain ⟨r, hr, rfl⟩ := Option.map_eq_some'.1 h
      rw [unseen_cons, unseen_cons, unseen_markNotary hr]
      cases seen
      · have hk : key ≠ pk := by simpa using hc
        simp [hk]
      · rfl

theorem mem_unseen_of_markNotary {pk : PubKey} {rows rows' : List (PubKey × Bool)}
    (h : markNotary pk rows = some rows') : pk ∈ unseen rows := by
  by_contra hn
  rw [← markNotary_eq_none_iff] at hn
  simp [hn] at h

/-! ## The loop over the inputs -/

/-- An input makes the loop read `vout[n]` one past the end: the spent transaction is found and `n = vout.size()`. -/
def readsPastEnd (ctx : NotaryContext) (txIn : CTxIn) : Bool :=
  (ctx.GetTxUnconfirmed txIn.prevout.hash).any (fun prev => txIn.prevout.n == prev.vout.length)

/-- The key of the output an input spends: the spent transaction is found, the output exists (`n < vout.size()`) and
its script is pay-to-pubkey. -/
def spentNotaryKey (ctx : NotaryContext) (txIn : CTxIn) : Option PubKey :=
  (ctx.GetTxUnconfirmed txIn.prevout.hash).bind fun prev =>
    (prev.vout[txIn.prevout.n]?).bind fun out => scriptKey out.scriptPubKey

/-- One input of the loop: a read past the end, else the key of the spent output marked among the notaries. -/
theorem checkNotaryVin_cons (ctx : NotaryContext) (rows : List (PubKey × Bool)) (txIn : CTxIn) (rest : List CTxIn) :
    checkNotaryVin ctx rows (txIn :: rest) =
      if readsPastEnd ctx txIn then none
      else match spentNotaryKey ctx txIn with
        | none => some false
        | some pk =>
          match markNotary pk rows with
          | none => some false
          | some rows' => checkNotaryVin ctx rows' rest := by
  unfold readsPastEnd spentNotaryKey
  rcases hprev : ctx.GetTxUnconfirmed txIn.prevout.hash with _ | prev
  · simp [checkNotaryVin, hprev]
  · rcases Nat.lt_trichotomy txIn.prevout.n prev.vout.length with hlt | heq | hgt
    · have hget := List.getElem?_eq_getElem hlt
      rcases hk : scriptKey prev.vout[txIn.prevout.n].scriptPubKey with _ | pk
      · simp [checkNotaryVin, hprev, Nat.not_lt.2 hlt.le, hget, hk, Nat.ne_of_lt hlt]
      · rcases hm : markNotary pk rows with _ | rows' <;>
          simp [checkNotaryVin, hprev, Nat.not_lt.2 hlt.le, hget, hk, hm, Nat.ne_of_lt hlt]
    · simp [checkNotaryVin, hprev, heq]
    · simp [checkNotaryVin, hprev, hgt, Nat.ne_of_gt hgt, List.getElem?_eq_none hgt.le]

theorem readsPastEnd_eq_true_iff {ctx : NotaryContext} {txIn : CTxIn} : readsPastEnd ctx txIn = true ↔
    ∃ prev, ctx.GetTxUnconfirmed txIn.prevout.hash = some prev ∧ txIn.prevout.n = prev.vout.length := by
  unfold readsPastEnd
  cases ctx.GetTxUnconfirmed txIn.prevout.hash <;> simp

theorem spentNotaryKey_eq_some_iff {ctx : NotaryContext} {txIn : CTxIn} {k : PubKey} :
    spentNotaryKey ctx txIn = some k ↔ ∃ prev out, ctx.GetTxUnconfirmed txIn.prevout.hash = some prev ∧
      prev.vout[txIn.prevout.n]? = some out ∧ out.scriptPubKey = 33 :: k.bytes ++ [OP_CHECKSIG] := by
  simp [spentNotaryKey, Option.bind_eq_some, scriptKey_eq_some_iff]

theorem spentNotaryKey_of_readsPastEnd {ctx : NotaryContext} {txIn : CTxIn} (h : readsPastEnd ctx txIn = true) :
    spentNotaryKey ctx txIn = none := by
  unfold readsPastEnd at h
  unfold spentNotaryKey
  rcases hprev : ctx.GetTxUnconfirmed txIn.prevout.hash with _ | prev
  · rfl
  · simp only [hprev, Option.any_some, beq_iff_eq] at h
    simp [h]

theorem cons_subperm_iff_of_mem {a : PubKey} {l U : List PubKey} (h : a ∈ U) : (a :: l).Subperm U ↔ l.Subperm (U.erase a) := by
  rw [(List.perm_cons_erase h).subperm_left, List.subperm_cons]

/-- The loop returns true exactly when every input's spent output has a key and those keys can be matched to distinct
rows not yet seen. -/
theorem checkNotaryVin_eq_true_iff (ctx : NotaryContext) : ∀ (rows : List (PubKey × Bool)) (vin : List CTxIn),
    checkNotaryVin ctx rows vin = some true ↔
      ∃ keys, List.Forall₂ (fun txIn k => spentNotaryKey ctx txIn = some k) vin keys ∧ keys.Subperm (unseen rows)
  | rows, [] => by simp [checkNotaryVin]
  | rows, txIn :: rest => by
    simp only [checkNotaryVin_cons, List.forall₂_cons_left_iff]
    by_cases hr : readsPastEnd ctx txIn
    · simp [hr, spentNotaryKey_of_readsPastEnd hr]
    · rw [if_neg hr]
      rcases hk : spentNotaryKey ctx txIn with _ | pk
      · simp
      · rcases hm : markNotary pk rows with _ | rows'
        · simp only [hm, Option.some.injEq, Bool.false_eq_true, false_iff, not_exists, not_and]
          rintro _ ⟨_, _, rfl, _, rfl⟩ hsub
          exact markNotary_eq_none_iff.1 hm (hsub.subset (List.mem_cons_self _ _))
        · simp only [hm, checkNotaryVin_eq_true_iff ctx rows' rest, unseen_markNotary hm,
            ← cons_subperm_iff_of_mem (mem_unseen_of_markNotary hm)]
          exact ⟨fun ⟨ks, hf, hs⟩ => ⟨pk :: ks, ⟨pk, ks, rfl, hf, rfl⟩, hs⟩,
            fun ⟨_, ⟨_, ks, h, hf, rfl⟩, hs⟩ => ⟨ks, hf, Option.some.inj h ▸ hs⟩⟩

/-- The loop reads past the end only at an input naming `n = vout.size()` of a spent transaction it finds. -/
theorem readsPastEnd_of_checkNotaryVin_eq_none (ctx : NotaryContext) : ∀ (rows : List (PubKey × Bool))
    (vin : List CTxIn), checkNotaryVin ctx rows vin = none → ∃ txIn ∈ vin, readsPastEnd ctx txIn = true
  | rows, [] => by simp [checkNotaryVin]
  | rows, txIn :: rest => by
    rw [checkNotaryVin_cons]
    by_cases hr : readsPastEnd ctx txIn
    · exact fun _ => ⟨txIn, List.mem_cons_self _ _, hr⟩
    · rw [if_neg hr]
      split
      · simp
      · split
        · simp
        · intro h
          obtain ⟨t, ht, htr⟩ := readsPastEnd_of_checkNotaryVin_eq_none ctx _ rest h
          exact ⟨t, List.mem_cons_of_mem _ ht, htr⟩

/-! ## `CheckNotaryInputs` -/

/-- For every transaction, every answer of `GetTxUnconfirmed` and of `GetNotaries`, and every height and timestamp:
`CheckNotaryInputs` returns true exactly when `tx` has at least 11 inputs, every input's spent output exists and is a
push of a 33-byte key followed by `OP_CHECKSIG`, and those keys can be matched to pairwise distinct notaries (they are
a sub-multiset of the notary keys); and it reads past the end of a spent transaction's outputs only at an input naming
`n = vout.size()`. -/
theorem checkNotaryInputs_spec (ctx : NotaryContext) (tx : CTransaction) (height timestamp : UInt32) :
    (CheckNotaryInputs ctx tx height timestamp = some true ↔ 11 ≤ tx.vin.length ∧
      ∃ keys, List.Forall₂ (fun txIn k => ∃ prev out, ctx.GetTxUnconfirmed txIn.prevout.hash = some prev ∧
          prev.vout[txIn.prevout.n]? = some out ∧ out.scriptPubKey = 33 :: k.bytes ++ [OP_CHECKSIG]) tx.vin keys ∧
        keys.Subperm (ctx.GetNotaries height timestamp)) ∧
      (CheckNotaryInputs ctx tx height timestamp = none → ∃ txIn ∈ tx.vin, ∃ prev,
        ctx.GetTxUnconfirmed txIn.prevout.hash = some prev ∧ txIn.prevout.n = prev.vout.length) := by
  simp only [← spentNotaryKey_eq_some_iff]
  unfold CheckNotaryInputs
  split
  · rename_i hlt
    exact ⟨by simp only [Option.some.injEq, Bool.false_eq_true, false_iff]; omega, by simp⟩
  · rename_i hge
    refine ⟨by rw [checkNotaryVin_eq_true_iff, unseen_map_false, and_iff_right (by omega)], fun h => ?_⟩
    obtain ⟨t, ht, htr⟩ := readsPastEnd_of_checkNotaryVin_eq_none ctx _ _ h
    exact ⟨t, ht, readsPastEnd_eq_true_iff.1 htr⟩

/-- The transaction of hash 30, with one output. -/
def notaryPrevTx : CTransaction := ⟨30, [], [⟨0, []⟩], [], [], false, false⟩

/-- Eleven inputs spending output 1 of `notaryPrevTx`, one past its last output. -/
def pastEndTx : CTransaction := ⟨31, List.replicate 11 ⟨⟨30, 1⟩⟩, [], [], [], false, false⟩

/-- `GetTxUnconfirmed` finds `notaryPrevTx`; there are no notaries. -/
def pastEndCtx : NotaryContext := ⟨fun h => if h = 30 then some notaryPrevTx else none, fun _ _ => []⟩

theorem checkNotaryInputs_pastEndTx :
    (CheckNotaryInputs pastEndCtx pastEndTx 0 0 = some true ↔ 11 ≤ pastEndTx.vin.length ∧
      ∃ keys, List.Forall₂ (fun txIn k => ∃ prev out, pastEndCtx.GetTxUnconfirmed txIn.prevout.hash = some prev ∧
          prev.vout[txIn.prevout.n]? = some out ∧ out.scriptPubKey = 33 :: k.bytes ++ [OP_CHECKSIG]) pastEndTx.vin keys ∧
        keys.Subperm (pastEndCtx.GetNotaries 0 0)) ∧
      (CheckNotaryInputs pastEndCtx pastEndTx 0 0 = none → ∃ txIn ∈ pastEndTx.vin, ∃ prev,
        pastEndCtx.GetTxUnconfirmed txIn.prevout.hash = some prev ∧ txIn.prevout.n = prev.vout.length) :=
  checkNotaryInputs_spec pastEndCtx pastEndTx 0 0

/-- Every input of `pastEndTx` names output `n = vout.size()` of `notaryPrevTx`: the bound test lets the first one
through and `CheckNotaryInputs` reads `vout[1]` past the end instead of returning false. -/
theorem checkNotaryInputs_reads_past_end :
    pastEndTx.vin.length = 11 ∧ (∀ txIn ∈ pastEndTx.vin, txIn.prevout.n = notaryPrevTx.vout.length) ∧
      CheckNotaryInputs pastEndCtx pastEndTx 0 0 = none :=
  ⟨rfl, by decide, rfl⟩

end VerusCoin
