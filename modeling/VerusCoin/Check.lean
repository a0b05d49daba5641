import Mathlib.Data.UInt
import VerusCoin.Pool

/-!
# The replay of `CTxMemPool::check` (`txmempool.cpp`)

`check(pcoins)` replays the pool into a cache over `pcoins` (`mempoolDuplicate`). A first pass over `mapTx` checks
each input and defers each transaction that spends an output of a pooled one to `waitingOnDependants`; the others are
applied at once. The loop over `waitingOnDependants` then applies a deferred transaction whose inputs are available
and pushes any other back, asserting that it has not gone round the whole list since the last one applied.

`HaveInputs`, `UpdateCoins` and `CheckTxInputs` are not in this part of the source: a coins view is the set of
outpoints it holds available, `HaveInputs` asks for every input, `UpdateCoins` spends the inputs and adds the outputs,
and `CheckTxInputs` accepts a transaction whose inputs are available. The assertions of the first pass on the
nullifiers and anchors read only `pcoins`; they are one given test. The early returns (`nCheckFrequency`, the random
sample) are left out.

After the loop, `check()` asserts that every `mapNextTx` entry names the pooled transaction of its hash and one of
its inputs, that every nullifier entry names the pooled transaction of its hash (`checkNullifiers`), and that the
totals are the sums over `mapTx` it accumulated in the first pass (`checkAfterReplay`).
-/

namespace VerusCoin

/-- A coins view, as the outpoints it holds available. -/
abbrev CoinsView := COutPoint → Bool

/-- `view.HaveInputs(tx)`: every input of `tx` is available. -/
def HaveInputs (view : CoinsView) (tx : CTransaction) : Bool := tx.prevouts.all view

/-- `UpdateCoins(tx, view, height)`: the inputs of `tx` are spent and its outputs added. -/
def UpdateCoins (view : CoinsView) (tx : CTransaction) : CoinsView :=
  fun o => (view o && !decide (o ∈ tx.prevouts)) || decide (o.hash = tx.hash ∧ o.n < tx.vout.length)

/-- `Consensus::CheckTxInputs(tx, state, view, ...)`: it accepts a transaction whose inputs are available. -/
def CheckTxInputs (view : CoinsView) (tx : CTransaction) : Bool := HaveInputs view tx

namespace CTxMemPool

/-- The assertions of the first pass on input `i` of the pooled `tx`: when a pooled transaction has the hash the
input names, its output `n` exists and is not null (`fDependsWait`), else `pcoins` holds the outpoint available;
either way `mapNextTx` records the input as input `i` of `tx`. `some fDependsWait`, or `none` when an assertion
fails. -/
def checkInput (s : CTxMemPool) (pcoins : CoinsView) (tx : CTransaction) (i : Nat) (txin : CTxIn) : Option Bool :=
  let fDependsWait : Option Bool :=
    match s.mapTx.find txin.prevout.hash with
    | some e2 => if (e2.tx.vout[txin.prevout.n]?).any (fun out => !out.IsNull) then some true else none
    | none => if pcoins txin.prevout then some false else none
  if s.mapNextTx.find txin.prevout = some ⟨tx, i⟩ then fDependsWait else none

/-- The input loop of the first pass, from input `i` on: whether some input depends on a pooled transaction. -/
def checkInputs (s : CTxMemPool) (pcoins : CoinsView) (tx : CTransaction) : Nat → List CTxIn → Option Bool
  | _, [] => some false
  | i, txin :: rest => do
    let d ← s.checkInput pcoins tx i txin
    let d' ← s.checkInputs pcoins tx (i + 1) rest
    pure (d || d')

/-- The first pass of `check()` over the entries `es`, from the view `view` and the list `waitingOnDependants`:
a transaction whose inputs pass their assertions and the shielded ones (`shieldedOk`) is deferred when it depends on
a pooled transaction, and applied otherwise, after `assert(tx.IsCoinBase() || CheckTxInputs(...))`. `none` when an
assertion fails. -/
def checkFirstPass (s : CTxMemPool) (pcoins : CoinsView) (shieldedOk : CTransaction → Bool) :
    List CTxMemPoolEntry → CoinsView → List CTransaction → Option (CoinsView × List CTransaction)
  | [], view, waitingOnDependants => some (view, waitingOnDependants)
  | e :: rest, view, waitingOnDependants =>
    match s.checkInputs pcoins e.tx 0 e.tx.vin with
    | none => none
    | some fDependsWait =>
      if !shieldedOk e.tx then none
      else if fDependsWait then s.checkFirstPass pcoins shieldedOk rest view (waitingOnDependants ++ [e.tx])
      else if e.tx.isCoinBase || CheckTxInputs view e.tx then
        s.checkFirstPass pcoins shieldedOk rest (UpdateCoins view e.tx) waitingOnDependants
      else none

end CTxMemPool

/-- How the loop over `waitingOnDependants` ends: the list emptied with the view reached, the assertion
`stepsSinceLastRemove < waitingOnDependants.size()` failed, or the fuel ran out. -/
inductive CheckResult where
  | done (view : CoinsView)
  | assertFail
  | outOfFuel

/-- The loop over `waitingOnDependants`, with `fuel` rounds. The front transaction is popped; with its inputs
available it is applied and `stepsSinceLastRemove` reset (`assert(fCheckResult)` holds there, as `CheckTxInputs`
accepts it), otherwise it is pushed back and the assertion checked. -/
def checkWaiting : Nat → CoinsView → List CTransaction → Nat → CheckResult
  | 0, _, _, _ => .outOfFuel
  | _ + 1, view, [], _ => .done view
  | fuel + 1, view, tx :: rest, stepsSinceLastRemove =>
    if HaveInputs view tx then checkWaiting fuel (UpdateCoins view tx) rest 0
    else if stepsSinceLastRemove + 1 < (rest ++ [tx]).length then
      checkWaiting fuel view (rest ++ [tx]) (stepsSinceLastRemove + 1)
    else .assertFail

/-! ## The assertions after the replay -/

namespace CTxMemPool

/-- The loop over `mapNextTx` after the replay: for each entry `o ↦ (ptx, n)`, `mapTx` holds a transaction under the
hash of `ptx`, it is `ptx` itself (`&tx == it->second.ptx`), and `ptx` has an input `n` (`tx.vin.size() > n`) that
spends `o`. -/
def checkNextTx (s : CTxMemPool) : Bool :=
  s.mapNextTx.entries.all fun p =>
    match s.mapTx.find p.2.ptx.hash with
    | some e => e.tx == p.2.ptx && (p.2.ptx.vin[p.2.n]?).any (·.prevout == p.1)
    | none => false

/-- `checkNullifiers(type)`: every entry `nf ↦ tx` of the nullifier index of `type` names the transaction `mapTx`
holds under the hash of `tx`. -/
def checkNullifiers (s : CTxMemPool) (type : ShieldedType) : Bool :=
  let mapToUse := match type with
    | .SPROUT => s.mapSproutNullifiers
    | .SAPLING => s.mapSaplingNullifiers
  mapToUse.entries.all fun p => (s.mapTx.find p.2.hash).any (·.tx == p.2)

/-- The assertions of `check()` after the loop: over `mapNextTx`, `checkNullifiers(SPROUT)`,
`checkNullifiers(SAPLING)`, then `totalTxSize == checkTotal` and `innerUsage == cachedInnerUsage`, the sums of
`GetTxSize()` and `DynamicMemoryUsage()` over `mapTx` in `uint64`. -/
def checkAfterReplay (s : CTxMemPool) : Bool :=
  s.checkNextTx && s.checkNullifiers .SPROUT && s.checkNullifiers .SAPLING &&
    s.totalTxSize == (s.mapTx.entries.map (·.nTxSize)).sum &&
    (s.mapTx.entries.map (·.nUsageSize)).sum == s.cachedInnerUsage

end CTxMemPool

end VerusCoin
