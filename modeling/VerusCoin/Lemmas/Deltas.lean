import VerusCoin.Lemmas.Closed

/-!
# The deltas of a hash

`ApplyDeltas(h, dp, df)` adds to `(dp, df)` the deltas `mapDeltas` holds for `h`, when it holds any; the fee part is
`feeDelta`. `PrioritiseTransaction` adds to them, starting from `(0, 0)` (`prioritised`), and `ClearPrioritisation`
clears them. Erasing pooled entries leaves them alone unless it erases `h` itself, which clears them with `h`'s
`mapTx` record (`DeltaTrack`); `removeForBlock` in addition clears them for each block transaction. The annotations in
`mapReserveTransactions` are always of valid descriptors (`ReserveValid`), so `IsKnownReserveTransaction` clears the
deltas of every annotated hash that is not pooled.
-/

namespace VerusCoin

namespace CTxMemPool

variable {s : CTxMemPool}

/-- The fee delta `mapDeltas` holds for `hash`, 0 when none. -/
def feeDelta (s : CTxMemPool) (hash : Uint256) : Int := ((s.mapDeltas.find hash).map Prod.snd).getD 0

theorem applyDeltas_snd (hash : Uint256) (dp : Float) (df : Int) :
    (s.ApplyDeltas hash dp df).2 = df + s.feeDelta hash := by
  cases hd : s.mapDeltas.find hash <;> simp [ApplyDeltas, feeDelta, hd]

/-- The deltas `PrioritiseTransaction(hash, dp, df)` stores over the deltas `d` held for `hash`: `(0, 0)` when none,
plus the arguments. -/
def prioritised (d : Option (Float × Int)) (dp : Float) (df : Int) : Float × Int :=
  ((d.getD (0, 0)).1 + dp, (d.getD (0, 0)).2 + df)

theorem find_deltas_prioritiseTransaction (hash : Uint256) (dp : Float) (df : Int) (h : Uint256) :
    (s.PrioritiseTransaction hash dp df).mapDeltas.find h =
      if hash = h then some (prioritised (s.mapDeltas.find h) dp df) else s.mapDeltas.find h := by
  by_cases hh : hash = h
  · subst hh
    simp [PrioritiseTransaction, prioritised]
  · simp [PrioritiseTransaction, hh, Ne.symm hh]

/-! ## Erasing pooled entries -/

/-- How erasing pooled entries from `s₀` leaves the hash `h`: its `mapTx` and `mapDeltas` records are those of `s₀`,
or `h` was pooled in `s₀` and both records are gone. -/
def DeltaTrack (s₀ : CTxMemPool) (h : Uint256) (s : CTxMemPool) : Prop :=
  (s.mapTx.find h = s₀.mapTx.find h ∧ s.mapDeltas.find h = s₀.mapDeltas.find h) ∨
    ((s₀.mapTx.find h).isSome ∧ s.mapTx.find h = none ∧ s.mapDeltas.find h = none)

theorem deltaTrack_refl (h : Uint256) : DeltaTrack s h s := .inl ⟨rfl, rfl⟩

/-- Erasing the entry pooled at `h'` clears the deltas of `h'` only: `eraseEntry` clears those of the entry's hash,
which is `h'`. -/
theorem deltaTrack_eraseClosed (s₀ : CTxMemPool) (h : Uint256) : EraseClosed (DeltaTrack s₀ h) := by
  refine ⟨fun s h' e hs he => ?_⟩
  have hh : e.tx.hash = h' := ((TxSet.find_eq_some_iff _ _ _).1 he).2
  simp only [DeltaTrack, eraseEntry_mapTx, eraseEntry_mapDeltas, hh, TxSet.find_erase, StdMap.find_erase]
  by_cases hk : h = h'
  · subst hk
    rcases hs with ⟨hx, -⟩ | ⟨-, hx, -⟩
    · exact .inr ⟨by rw [← hx, he]; rfl, if_pos rfl, if_pos rfl⟩
    · rw [hx] at he
      cases he
  · simpa only [if_neg hk] using hs

theorem deltaTrack_clearPrioritisation {s₀ : CTxMemPool} {hash h : Uint256} (hne : hash ≠ h)
    (hs : DeltaTrack s₀ h s) : DeltaTrack s₀ h (s.ClearPrioritisation hash) := by
  simpa only [DeltaTrack, ClearPrioritisation, StdMap.find_erase, if_neg (Ne.symm hne)] using hs

/-- After erasures from `s₀`, the deltas of `h` are cleared exactly when `h` was erased from `mapTx`. -/
theorem find_deltas_of_deltaTrack {s₀ : CTxMemPool} {h : Uint256} (hs : DeltaTrack s₀ h s) :
    s.mapDeltas.find h =
      if (s₀.mapTx.find h).isSome && (s.mapTx.find h).isNone then none else s₀.mapDeltas.find h := by
  rcases hs with ⟨hx, hd⟩ | ⟨hp, hx, hd⟩
  · rw [hx, hd, if_neg (by cases s₀.mapTx.find h <;> simp)]
  · simp [hp, hx, hd]

/-! ## `removeForBlock` -/

/-- One round of `removeForBlock`'s loop. -/
theorem removeForBlock_cons (tx : CTransaction) (vtx conflicts : List CTransaction) :
    s.removeForBlock (tx :: vtx) conflicts =
      ((((s.remove tx [] false).1.removeConflicts tx conflicts).1.ClearPrioritisation tx.hash).removeForBlock vtx
        ((s.remove tx [] false).1.removeConflicts tx conflicts).2) := rfl

/-- A hash without deltas gets none from erasures and `ClearPrioritisation`. -/
theorem noDeltas_removalClosed (h : Uint256) : RemovalClosed (fun s => s.mapDeltas.find h = none) := by
  refine ⟨fun s h' e hs _ => ?_, fun s h' hs => ?_⟩ <;>
    simp only [eraseEntry_mapDeltas, ClearPrioritisation, StdMap.find_erase, hs, ite_self]

/-- `removeForBlock` clears the deltas of every block transaction's hash. -/
theorem find_deltas_removeForBlock_of_mem {h : Uint256} (vtx conflicts : List CTransaction)
    (hmem : ∃ tx ∈ vtx, tx.hash = h) : (s.removeForBlock vtx conflicts).1.mapDeltas.find h = none := by
  induction vtx generalizing s conflicts with
  | nil => simp at hmem
  | cons tx vtx ih =>
    rw [removeForBlock_cons]
    by_cases hh : tx.hash = h
    · exact (noDeltas_removalClosed h).removeForBlock _ _ (by simp [ClearPrioritisation, hh])
    · exact ih _ (by simpa [hh] using hmem)

/-- `removeForBlock` for a block none of whose transactions has the hash `h` only erases pooled entries, as far as
`h` is concerned. -/
theorem deltaTrack_removeForBlock {s₀ : CTxMemPool} {h : Uint256} (vtx conflicts : List CTransaction)
    (hmem : ∀ tx ∈ vtx, tx.hash ≠ h) (hs : DeltaTrack s₀ h s) :
    DeltaTrack s₀ h (s.removeForBlock vtx conflicts).1 := by
  induction vtx generalizing s conflicts with
  | nil => exact hs
  | cons tx vtx ih =>
    rw [removeForBlock_cons]
    have hP := deltaTrack_eraseClosed s₀ h
    exact ih _ (fun tx' h' => hmem tx' (List.mem_cons_of_mem _ h'))
      (deltaTrack_clearPrioritisation (hmem tx (List.mem_cons_self _ _))
        (hP.removeConflicts tx _ (hP.remove tx [] false hs)))

/-- `removeForBlock` clears the deltas of `h` exactly when a block transaction has the hash `h` or it erases `h` from
`mapTx`. -/
theorem find_deltas_removeForBlock (vtx conflicts : List CTransaction) (h : Uint256) :
    (s.removeForBlock vtx conflicts).1.mapDeltas.find h =
      if vtx.any (·.hash = h) || ((s.mapTx.find h).isSome && ((s.removeForBlock vtx conflicts).1.mapTx.find h).isNone)
      then none else s.mapDeltas.find h := by
  by_cases hmem : ∃ tx ∈ vtx, tx.hash = h
  · rw [find_deltas_removeForBlock_of_mem vtx conflicts hmem, if_pos]
    simp only [Bool.or_eq_true, List.any_eq_true, decide_eq_true_eq]
    exact .inl hmem
  · push_neg at hmem
    have hany : vtx.any (·.hash = h) = false := List.any_eq_false.2 (by simpa using hmem)
    rw [find_deltas_of_deltaTrack (deltaTrack_removeForBlock vtx conflicts hmem (deltaTrack_refl h)), hany,
      Bool.false_or]

/-! ## Reserve annotations -/

/-- Every annotation in `mapReserveTransactions` is of a valid descriptor. -/
def ReserveValid (s : CTxMemPool) : Prop :=
  ∀ hash d, s.mapReserveTransactions.find hash = some d → d.valid = true

theorem reserveValid_removalClosed : RemovalClosed ReserveValid := by
  refine ⟨fun s h e hs _ hash d hd => ?_, fun s h hs hash d hd => ?_⟩ <;>
    simp only [eraseEntry_mapReserveTransactions, ClearPrioritisation, StdMap.find_erase] at hd <;>
    split at hd
  all_goals first | cases hd | exact hs _ _ hd

/-- With valid annotations, `IsKnownReserveTransaction(hash)` clears the deltas of `hash` when `hash` is annotated and
not pooled, and leaves every deltas alone otherwise. -/
theorem find_deltas_isKnownReserveTransaction (hv : s.ReserveValid) (hash h : Uint256) :
    (s.IsKnownReserveTransaction hash).1.mapDeltas.find h =
      if hash = h && (s.mapReserveTransactions.find h).isSome && (s.mapTx.find h).isNone then none
      else s.mapDeltas.find h := by
  unfold IsKnownReserveTransaction
  by_cases hh : hash = h
  · subst hh
    cases hr : s.mapReserveTransactions.find hash with
    | none => simp
    | some d => cases s.mapTx.find hash <;> simp [hv _ _ hr, ClearPrioritisation]
  · rw [if_neg (by simp [hh])]
    repeat' split
    all_goals simp [ClearPrioritisation, Ne.symm hh]

theorem ReserveValid.empty (fAddressIndex fSpentIndex : Bool) : (empty fAddressIndex fSpentIndex).ReserveValid :=
  fun _ _ hd => by cases hd

/-- Recording a valid descriptor keeps the annotations valid. -/
theorem ReserveValid.insert (hv : s.ReserveValid) {hash : Uint256} {d : CReserveTransactionDescriptor}
    (hd : d.valid = true) :
    ({ s with mapReserveTransactions := s.mapReserveTransactions.insert hash d }).ReserveValid := by
  intro hash' d' hd'
  simp only [StdMap.find_insert] at hd'
  split at hd'
  · exact Option.some.inj hd' ▸ hd
  · exact hv _ _ hd'

/-- Every call keeps the annotations valid: `PrioritiseReserveTransaction` records valid descriptors only, and
`IsKnownReserveTransaction` refreshes a valid one. -/
theorem ReserveValid.step {op : Op} {s' : CTxMemPool} (hv : s.ReserveValid) (happ : op.apply s = some s') :
    s'.ReserveValid := by
  have hR := reserveValid_removalClosed
  cases op <;> simp only [Op.apply, Option.some.injEq] at happ <;> subst_vars
  case remove => exact hR.remove _ _ _ hv
  case removeConflicts => exact hR.removeConflicts _ _ hv
  case removeForBlock => exact hR.removeForBlock _ _ hv
  case removeForReorg => exact hR.removeForReorg _ _ _ _ happ hv
  case removeWithAnchor => exact hR.removeWithAnchor _ _ hv
  case removeExpired => exact hR.removeExpired _ _ hv
  case removeWithoutBranchId => exact hR.removeWithoutBranchId _ hv
  case ClearPrioritisation => exact hR.clearPrioritisation _ _ hv
  case PrioritiseReserveTransaction =>
    unfold PrioritiseReserveTransaction
    split
    · exact hv.insert ‹_›
    · exact hv
  case IsKnownReserveTransaction =>
    unfold IsKnownReserveTransaction
    split
    · split
      · split
        · exact hR.clearPrioritisation _ _ hv
        · exact hv.insert ‹_›
      · exact hv
    · exact hv
  all_goals exact hv

end CTxMemPool

end VerusCoin
