import Mathlib.Data.UInt
import VerusCoin.Run

/-!
# The index invariants

What `check()` asserts of the spend index and of the nullifier indexes, as predicates on a pool state: the closure
invariant of the design (spend and nullifier indexes complete and exact), and the invariant `addUnchecked` and
`remove` maintain between them, which also says that a spend-index entry never names a coin import and that pooled
transactions spend pairwise distinct outpoints.
-/

namespace VerusCoin

namespace CTxMemPool

/-- `tx` is pooled: `mapTx` holds it under its hash. -/
def Pooled (s : CTxMemPool) (tx : CTransaction) : Prop := s.lookup tx.hash = some tx

/-- (a) Every input of a pooled transaction that is not a coin import is recorded in `mapNextTx`, with its position. -/
def NextTxComplete (s : CTxMemPool) : Prop :=
  ∀ e ∈ s.mapTx.entries, e.tx.isCoinImport = false → ∀ i (hi : i < e.tx.vin.length),
    s.mapNextTx.find e.tx.vin[i].prevout = some ⟨e.tx, i⟩

/-- (b) Every `mapNextTx` entry `o ↦ (T, i)` names a pooled `T` whose input `i` spends `o`. -/
def NextTxSound (s : CTxMemPool) : Prop :=
  ∀ o p, s.mapNextTx.find o = some p → s.Pooled p.ptx ∧ ∃ hn : p.n < p.ptx.vin.length, p.ptx.vin[p.n].prevout = o

/-- (c) Every Sprout and Sapling nullifier of a pooled transaction is mapped to it. -/
def NullifiersComplete (s : CTxMemPool) : Prop :=
  ∀ e ∈ s.mapTx.entries, (∀ nf ∈ e.tx.sproutNullifiers, s.mapSproutNullifiers.find nf = some e.tx) ∧
    ∀ nf ∈ e.tx.saplingNullifiers, s.mapSaplingNullifiers.find nf = some e.tx

/-- The spend-index closure invariant: (a), (b) and (c). -/
def ClosureInv (s : CTxMemPool) : Prop := s.NextTxComplete ∧ s.NextTxSound ∧ s.NullifiersComplete

/-- Pooled transactions spend pairwise distinct outpoints, coin imports included. -/
def InputsDisjoint (s : CTxMemPool) : Prop :=
  ∀ e₁ ∈ s.mapTx.entries, ∀ e₂ ∈ s.mapTx.entries, e₁.GetHash ≠ e₂.GetHash → ∀ o ∈ e₁.tx.prevouts, o ∉ e₂.tx.prevouts

/-- The invariant `addUnchecked` and `remove` maintain: the closure invariant, no spend-index entry for a coin import
(`addUnchecked` records none), and disjoint inputs. -/
structure PoolInv (s : CTxMemPool) : Prop where
  complete : s.NextTxComplete
  sound : s.NextTxSound
  notImport : ∀ o p, s.mapNextTx.find o = some p → p.ptx.isCoinImport = false
  disjoint : s.InputsDisjoint
  nullifiers : s.NullifiersComplete

theorem PoolInv.closure {s : CTxMemPool} (h : s.PoolInv) : s.ClosureInv := ⟨h.complete, h.sound, h.nullifiers⟩

/-- No stale nullifier entry: every entry `nf ↦ T` names a pooled `T` that reveals `nf` in that pool. -/
def NullifiersSound (s : CTxMemPool) : Prop :=
  (∀ nf tx, s.mapSproutNullifiers.find nf = some tx → s.Pooled tx ∧ nf ∈ tx.sproutNullifiers) ∧
    ∀ nf tx, s.mapSaplingNullifiers.find nf = some tx → s.Pooled tx ∧ nf ∈ tx.saplingNullifiers

/-- Every key of `mapRecentlyAddedTx` is the hash of a pooled transaction. -/
def RecentlyAddedSound (s : CTxMemPool) : Prop :=
  ∀ h tx, s.mapRecentlyAddedTx.find h = some tx → ∃ e ∈ s.mapTx.entries, e.GetHash = h

/-- The output-index condition: an input `(h, n)` of a pooled transaction where `h` is the hash of a pooled `P`
names an output of `P`. -/
def OutputsExist (s : CTxMemPool) : Prop :=
  ∀ e ∈ s.mapTx.entries, ∀ p ∈ s.mapTx.entries, ∀ n, ⟨p.GetHash, n⟩ ∈ e.tx.prevouts → n < p.tx.vout.length

/-- The totals are the sums over `mapTx`, computed in `uint64` as `check()` recomputes them. -/
def TotalsExact (s : CTxMemPool) : Prop :=
  s.totalTxSize = (s.mapTx.entries.map (·.nTxSize)).sum ∧ s.cachedInnerUsage = (s.mapTx.entries.map (·.nUsageSize)).sum

end CTxMemPool

namespace Op

/-- The structural changes one call makes, as `nTransactionsUpdated` should count them: one for `addUnchecked` and
for `clear()`, `n` for `AddTransactionsUpdated(n)`, and for every other call the number of transactions it erases
from `mapTx` (those calls only erase). -/
def counted : Op → CTxMemPool → CTxMemPool → Nat
  | addUnchecked .., _, _ => 1
  | clear, _, _ => 1
  | AddTransactionsUpdated n, _, _ => n.toNat
  | _, s, s' => s.mapTx.entries.length - s'.mapTx.entries.length

/-- The structural changes a sequence of calls makes from `s`, up to the first call that aborts. -/
def updates (s : CTxMemPool) : List Op → Nat
  | [] => 0
  | op :: ops =>
    match op.apply s with
    | some s₁ => op.counted s s₁ + updates s₁ ops
    | none => 0

end Op

end VerusCoin
