import Mathlib.Algebra.BigOperators.Group.List
import Mathlib.Data.List.ReduceOption
import VerusCoin.Lemmas.Deltas

/-!
# The deltas over a run

`ApplyDeltas(h, dp, df)` adds to `(dp, df)` the arguments of the `PrioritiseTransaction(h, ...)` calls made since the
last reset of `h`. Each call of a run makes some `PrioritiseTransaction` calls (`Op.prioritiseArgs`, and their fee
deltas `Op.prioritiseCalls`) and may reset `h` (`Op.Resets`); `deltaLog` and `deltaEvents` list what the calls of a
run do to `h`, in order, and `sinceLastReset` and `sumSinceReset` read off the calls after the last reset. The deltas
`mapDeltas` holds are the left fold of the log (`find_deltas_run`). `CAmount` sums are integers: the law for the fee
delta holds as long as they fit in `int64`; the priority deltas are `double`s, added in call order from 0.
-/

namespace VerusCoin

open CTxMemPool

namespace Op

/-- The `PrioritiseTransaction(hash, dPriorityDelta, nFeeDelta)` calls a call makes, as `(hash, nFeeDelta)`: its own,
or the one `PrioritiseReserveTransaction` makes for a valid descriptor, for the descriptor's hash with the native value
of its fees. -/
def prioritiseCalls : Op → List (Uint256 × Int)
  | PrioritiseTransaction hash _ nFeeDelta => [(hash, nFeeDelta)]
  | PrioritiseReserveTransaction txDesc ReserveToNative =>
    if txDesc.valid then
      [(txDesc.ptx.hash,
        ReserveToNative (txDesc.reserveFees + txDesc.reserveConversionFees) + txDesc.nativeConversionFees)]
    else []
  | _ => []

/-- The `nFeeDelta` arguments of the `PrioritiseTransaction(h, ...)` calls a call makes. -/
def feesFor (h : Uint256) (op : Op) : List Int := (op.prioritiseCalls.filter (·.1 = h)).map Prod.snd

/-- Whether `h` is erased from `mapTx` between `s` and `s'`. -/
def erases (h : Uint256) (s s' : CTxMemPool) : Bool := (s.mapTx.find h).isSome && (s'.mapTx.find h).isNone

/-- Whether a call from `s` to `s'` resets `h`: `ClearPrioritisation(h)`; a removal that erases `h` from `mapTx`;
`removeForBlock` for a block with a transaction of hash `h`; `IsKnownReserveTransaction(h)` finding `h` annotated in
`mapReserveTransactions` but not pooled. -/
def Resets (h : Uint256) (s s' : CTxMemPool) : Op → Bool
  | ClearPrioritisation hash => hash = h
  | IsKnownReserveTransaction hash =>
    hash = h && (s.mapReserveTransactions.find h).isSome && (s.mapTx.find h).isNone
  | removeForBlock vtx => vtx.any (·.hash = h) || erases h s s'
  | remove .. | removeConflicts .. | removeForReorg .. | removeWithAnchor .. | removeExpired ..
  | removeWithoutBranchId .. => erases h s s'
  | addUnchecked .. | clear | PrioritiseTransaction .. | PrioritiseReserveTransaction .. | AddTransactionsUpdated ..
  | NotifyRecentlyAdded .. => false

end Op

/-- What the calls of a run from `s` do to the fee delta of `h`, in order: `none` for a reset of `h`, `some d` for a
call `PrioritiseTransaction(h, _, d)`. -/
def deltaEvents (h : Uint256) : CTxMemPool → List Op → List (Option Int)
  | _, [] => []
  | s, op :: ops =>
    match op.apply s with
    | some s' => ((if op.Resets h s s' then [none] else []) ++ (op.feesFor h).map some) ++ deltaEvents h s' ops
    | none => []

/-- The sum of the fee deltas after the last reset. -/
def sumSinceReset (evs : List (Option Int)) : Int := (evs.reverse.takeWhile Option.isSome).reduceOption.sum

namespace Op

/-- The `PrioritiseTransaction(hash, dPriorityDelta, nFeeDelta)` calls a call makes, with their three arguments: its
own, or the one `PrioritiseReserveTransaction` makes for a valid descriptor, with the native value of its fees as the
fee delta and `(double)feeDelta * 100.0` as the priority delta. -/
def prioritiseArgs : Op → List (Uint256 × Float × Int)
  | PrioritiseTransaction hash dPriorityDelta nFeeDelta => [(hash, dPriorityDelta, nFeeDelta)]
  | PrioritiseReserveTransaction txDesc ReserveToNative =>
    if txDesc.valid then
      let feeDelta := ReserveToNative (txDesc.reserveFees + txDesc.reserveConversionFees) + txDesc.nativeConversionFees
      [(txDesc.ptx.hash, Float.ofInt feeDelta * 100.0, feeDelta)]
    else []
  | _ => []

theorem prioritiseCalls_eq (op : Op) : op.prioritiseCalls = op.prioritiseArgs.map fun c => (c.1, c.2.2) := by
  cases op <;> simp only [prioritiseCalls, prioritiseArgs, List.map_nil, List.map_cons]
  split <;> rfl

theorem feesFor_eq (h : Uint256) (op : Op) : op.feesFor h = (op.prioritiseArgs.filter (·.1 = h)).map (·.2.2) := by
  rw [feesFor, prioritiseCalls_eq, List.filter_map, List.map_map]
  rfl

end Op

/-- What the calls of a run from `s` do to the deltas of `h`, in order: `none` for a reset of `h`, `some (dp, df)` for
a call `PrioritiseTransaction(h, dp, df)`. -/
def deltaLog (h : Uint256) : CTxMemPool → List Op → List (Option (Float × Int))
  | _, [] => []
  | s, op :: ops =>
    match op.apply s with
    | some s' =>
      ((if op.Resets h s s' then [none] else []) ++ (op.prioritiseArgs.filter (·.1 = h)).map (some ·.2)) ++
        deltaLog h s' ops
    | none => []

/-- The `(dPriorityDelta, nFeeDelta)` of the calls after the last reset, in order. -/
def sinceLastReset (evs : List (Option (Float × Int))) : List (Float × Int) :=
  (evs.reverse.takeWhile Option.isSome).reduceOption.reverse

/-! ## The deltas `mapDeltas` holds -/

/-- One event on the deltas held for a hash: a reset clears them, a call `PrioritiseTransaction` adds to them. -/
def stepDeltas (d : Option (Float × Int)) (e : Option (Float × Int)) : Option (Float × Int) :=
  e.map fun c => prioritised d c.1 c.2

theorem foldl_stepDeltas_resets (b : Bool) (d : Option (Float × Int)) :
    (if b then [none] else []).foldl stepDeltas d = if b then none else d := by
  cases b <;> rfl

/-- One call: the deltas of `h` are reset or kept, then the call's `PrioritiseTransaction(h, ...)` calls add to them. -/
theorem find_deltas_step {s s' : CTxMemPool} {op : Op} (hv : s.ReserveValid) (happ : op.apply s = some s')
    (h : Uint256) : s'.mapDeltas.find h =
      ((op.prioritiseArgs.filter (·.1 = h)).map (some ·.2)).foldl stepDeltas
        (if op.Resets h s s' then none else s.mapDeltas.find h) := by
  have hE := deltaTrack_eraseClosed s h
  cases op <;> simp only [Op.apply, Option.some.injEq] at happ <;> subst_vars <;>
    simp only [Op.Resets, Op.erases, Op.prioritiseArgs, List.filter_nil, List.map_nil, List.foldl_nil,
      Bool.false_eq_true, if_false]
  case remove tx fR => exact find_deltas_of_deltaTrack (hE.remove tx [] fR (deltaTrack_refl h))
  case removeConflicts tx => exact find_deltas_of_deltaTrack (hE.removeConflicts tx [] (deltaTrack_refl h))
  case removeForBlock vtx => exact find_deltas_removeForBlock vtx [] h
  case removeForReorg => exact find_deltas_of_deltaTrack (hE.removeForReorg _ _ _ _ happ (deltaTrack_refl h))
  case removeWithAnchor => exact find_deltas_of_deltaTrack (hE.removeWithAnchor _ _ (deltaTrack_refl h))
  case removeExpired => exact find_deltas_of_deltaTrack (hE.removeExpired _ _ (deltaTrack_refl h))
  case removeWithoutBranchId => exact find_deltas_of_deltaTrack (hE.removeWithoutBranchId _ (deltaTrack_refl h))
  case ClearPrioritisation hash =>
    by_cases hh : hash = h
    · simp [ClearPrioritisation, hh]
    · simp [ClearPrioritisation, hh, Ne.symm hh]
  case PrioritiseTransaction hash dp df =>
    rw [find_deltas_prioritiseTransaction]
    by_cases hh : hash = h <;> simp [hh, stepDeltas]
  case PrioritiseReserveTransaction txDesc R =>
    unfold PrioritiseReserveTransaction
    split
    · rename_i hvalid
      rw [find_deltas_prioritiseTransaction]
      by_cases hh : txDesc.ptx.hash = h <;> simp [hh, hvalid, stepDeltas]
    · rename_i hvalid
      simp [hvalid]
  case IsKnownReserveTransaction hash => exact find_deltas_isKnownReserveTransaction hv hash h
  all_goals rfl

/-- Along a run from `s₀`, the deltas of `h` are those of `s₀` folded with the run's log for `h`. -/
theorem find_deltas_run {s₀ s : CTxMemPool} {ops : List Op} (hrun : Op.Run s₀ ops s) (hv : s₀.ReserveValid)
    (h : Uint256) : s.mapDeltas.find h = (deltaLog h s₀ ops).foldl stepDeltas (s₀.mapDeltas.find h) := by
  induction ops generalizing s₀ with
  | nil => rw [hrun, deltaLog, List.foldl_nil]
  | cons op ops ih =>
    obtain ⟨-, s₁, happ, hrun⟩ := hrun
    rw [deltaLog, happ, List.foldl_append, List.foldl_append, foldl_stepDeltas_resets, ← find_deltas_step hv happ]
    exact ih hrun (hv.step happ)

theorem sinceLastReset_append_none (evs : List (Option (Float × Int))) : sinceLastReset (evs ++ [none]) = [] := by
  simp [sinceLastReset]

theorem sinceLastReset_append_some (evs : List (Option (Float × Int))) (c : Float × Int) :
    sinceLastReset (evs ++ [some c]) = sinceLastReset evs ++ [c] := by
  simp [sinceLastReset, List.reduceOption]

/-- From none, the log leaves no deltas when no call follows the last reset, and otherwise the priority deltas of
those calls added in order from 0 and the sum of their fee deltas. -/
theorem foldl_stepDeltas_none (evs : List (Option (Float × Int))) :
    evs.foldl stepDeltas none =
      if (sinceLastReset evs).isEmpty then none
      else some ((sinceLastReset evs).foldl (fun p c => p + c.1) 0, ((sinceLastReset evs).map Prod.snd).sum) := by
  induction evs using List.reverseRecOn with
  | nil => rfl
  | append_singleton evs e ih =>
    rw [List.foldl_append, ih]
    cases e with
    | none => rw [sinceLastReset_append_none]; rfl
    | some c =>
      rw [sinceLastReset_append_some]
      cases hcs : (sinceLastReset evs).isEmpty
      · simp [stepDeltas, prioritised]
      · simp [List.isEmpty_iff.1 hcs, stepDeltas, prioritised]

/-- The fee part of the log is `deltaEvents`. -/
theorem deltaEvents_eq_map (h : Uint256) (s : CTxMemPool) (ops : List Op) :
    deltaEvents h s ops = (deltaLog h s ops).map (Option.map Prod.snd) := by
  induction ops generalizing s with
  | nil => rfl
  | cons op ops ih =>
    simp only [deltaEvents, deltaLog]
    split
    · simp only [ih, List.map_append, Op.feesFor_eq, List.map_map]
      split <;> rfl
    · rfl

theorem sumSinceReset_map (evs : List (Option (Float × Int))) :
    sumSinceReset (evs.map (Option.map Prod.snd)) = ((sinceLastReset evs).map Prod.snd).sum := by
  have hp : Option.isSome ∘ Option.map (Prod.snd : Float × Int → Int) = Option.isSome :=
    funext fun _ => Option.isSome_map'
  rw [sumSinceReset, sinceLastReset, ← List.map_reverse, List.takeWhile_map, hp, List.reduceOption_map,
    List.map_reverse, List.sum_reverse]

/-! ## `ApplyDeltas` over a run -/

/-- For every run from a freshly constructed pool and every hash `h`, `ApplyDeltas(h, dp, df)` adds to `df` the sum of
the `nFeeDelta` arguments of the `PrioritiseTransaction(h, ...)` calls, direct or made by
`PrioritiseReserveTransaction`, issued after the last reset of `h`. -/
theorem applyDeltas_since_reset {fAddressIndex fSpentIndex : Bool} {ops : List Op} {s : CTxMemPool}
    (hrun : Op.Run (CTxMemPool.empty fAddressIndex fSpentIndex) ops s) (h : Uint256) (dp : Float) (df : Int) :
    (s.ApplyDeltas h dp df).2 =
      df + sumSinceReset (deltaEvents h (CTxMemPool.empty fAddressIndex fSpentIndex) ops) := by
  rw [applyDeltas_snd, feeDelta, find_deltas_run hrun (ReserveValid.empty _ _) h,
    show (CTxMemPool.empty fAddressIndex fSpentIndex).mapDeltas.find h = none from rfl, foldl_stepDeltas_none,
    deltaEvents_eq_map, sumSinceReset_map]
  split
  · rename_i hcs
    simp [List.isEmpty_iff.1 hcs]
  · rfl

/-- For every run from a freshly constructed pool and every hash `h`, `ApplyDeltas(h, dp, df)` returns `(dp, df)`
when no `PrioritiseTransaction(h, ...)` call, direct or made by `PrioritiseReserveTransaction`, was issued after the
last reset of `h`; otherwise it adds to `dp` the priority deltas of those calls, added as `double`s in call order from
0, and to `df` the sum of their fee deltas. -/
theorem applyDeltas_deltas_since_reset {fAddressIndex fSpentIndex : Bool} {ops : List Op} {s : CTxMemPool}
    (hrun : Op.Run (CTxMemPool.empty fAddressIndex fSpentIndex) ops s) (h : Uint256) (dp : Float) (df : Int) :
    s.ApplyDeltas h dp df =
      let cs := sinceLastReset (deltaLog h (CTxMemPool.empty fAddressIndex fSpentIndex) ops)
      if cs.isEmpty then (dp, df) else (dp + cs.foldl (fun p c => p + c.1) 0, df + (cs.map Prod.snd).sum) := by
  rw [ApplyDeltas, find_deltas_run hrun (ReserveValid.empty _ _) h,
    show (CTxMemPool.empty fAddressIndex fSpentIndex).mapDeltas.find h = none from rfl, foldl_stepDeltas_none]
  by_cases hcs : (sinceLastReset (deltaLog h (CTxMemPool.empty fAddressIndex fSpentIndex) ops)).isEmpty <;>
    simp only [hcs, if_true, if_false, Bool.false_eq_true]

/-- A prioritisation of hash 20 by 5, `ClearPrioritisation(20)`, then a prioritisation by 3. -/
def prioritiseOps : List Op :=
  [.PrioritiseTransaction 20 0.0 5, .ClearPrioritisation 20, .PrioritiseTransaction 20 0.0 3]

/-- The pool `prioritiseOps` reaches. -/
def prioritisedPool : CTxMemPool :=
  (((CTxMemPool.empty false false).PrioritiseTransaction 20 0.0 5).ClearPrioritisation 20).PrioritiseTransaction
    20 0.0 3

theorem run_prioritisedPool : Op.Run (CTxMemPool.empty false false) prioritiseOps prioritisedPool :=
  ⟨trivial, _, rfl, trivial, _, rfl, trivial, _, rfl, rfl⟩

/-- After `prioritiseOps`, `ApplyDeltas(20, 0, 7)` adds the fees since the reset. -/
theorem applyDeltas_prioritisedPool :
    Op.Run (CTxMemPool.empty false false) prioritiseOps prioritisedPool ∧
      (prioritisedPool.ApplyDeltas 20 0.0 7).2 =
        7 + sumSinceReset (deltaEvents 20 (CTxMemPool.empty false false) prioritiseOps) :=
  ⟨run_prioritisedPool, applyDeltas_since_reset run_prioritisedPool 20 0.0 7⟩

/-- After `prioritiseOps`, `ApplyDeltas(20, 0, 7)` adds the deltas of the one call since the reset. -/
theorem applyDeltas_deltas_prioritisedPool :
    Op.Run (CTxMemPool.empty false false) prioritiseOps prioritisedPool ∧
      prioritisedPool.ApplyDeltas 20 0.0 7 =
        let cs := sinceLastReset (deltaLog 20 (CTxMemPool.empty false false) prioritiseOps)
        if cs.isEmpty then (0.0, 7) else (0.0 + cs.foldl (fun p c => p + c.1) 0, 7 + (cs.map Prod.snd).sum) :=
  ⟨run_prioritisedPool, applyDeltas_deltas_since_reset run_prioritisedPool 20 0.0 7⟩

example : sumSinceReset (deltaEvents 20 (CTxMemPool.empty false false) prioritiseOps) = 3 ∧
    ((sinceLastReset (deltaLog 20 (CTxMemPool.empty false false) prioritiseOps)).map Prod.snd) = [3] ∧
    (prioritisedPool.ApplyDeltas 20 0.0 7).2 = 10 := by decide

end VerusCoin
