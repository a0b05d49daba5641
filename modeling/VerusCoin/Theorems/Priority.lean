import VerusCoin.Priority
import VerusCoin.Theorems.Remove

/-!
# The heights `GetPriority` computes with

The age factor of `GetPriority` is the `unsigned int` difference `currentHeight - nHeight`: below the entry's height,
as after a reorganisation to a shorter chain, it is the signed difference plus 2^32 (`age_toNat`). With `hasReserve`,
the currency state is read at height `currentHeight - 1`, again unsigned: at height 0 it is 2^32 - 1, not the clamped
`lastHeight` the function computes (`sub_one_eq`).
-/

namespace VerusCoin

namespace CTxMemPoolEntry

/-- `unsigned int` subtraction: the difference modulo 2^32. -/
theorem toNat_sub_uint32 (a b : UInt32) : (a - b).toNat = (2 ^ 32 - b.toNat + a.toNat) % 2 ^ 32 :=
  BitVec.toNat_sub _ _

/-- The age factor is the signed difference `currentHeight - nHeight`, plus 2^32 when `currentHeight < nHeight`. -/
theorem age_toNat (e : CTxMemPoolEntry) (currentHeight : UInt32) :
    ((e.age currentHeight).toNat : Int) =
      (currentHeight.toNat : Int) - e.nHeight.toNat + if e.nHeight ≤ currentHeight then 0 else 2 ^ 32 := by
  have hc := currentHeight.toNat_lt_size
  have hn := e.nHeight.toNat_lt_size
  have hle : e.nHeight ≤ currentHeight ↔ e.nHeight.toNat ≤ currentHeight.toNat := .rfl
  rw [age, toNat_sub_uint32]
  simp only [UInt32.size, Nat.reducePow, Int.reducePow] at hc hn ⊢
  split <;> rename_i h <;> rw [hle] at h <;> omega

/-- `currentHeight - 1` is `lastHeight`, except at height 0, where it wraps to 2^32 - 1. -/
theorem sub_one_eq (currentHeight : UInt32) :
    currentHeight - 1 = if currentHeight = 0 then 4294967295 else lastHeight currentHeight := by
  unfold lastHeight
  by_cases h : currentHeight = 0
  · subst h; decide
  · have : ¬ currentHeight < 1 := fun hl => h (UInt32.toNat.inj (by
      have : currentHeight.toNat < 1 := hl
      simp only [UInt32.toNat_zero]
      omega))
    simp [h, this]

end CTxMemPoolEntry

/-- The entry of `parentTx` (height 1) with `hasReserve`. -/
def reserveEntry : CTxMemPoolEntry := { entryOf parentTx with hasReserve := true }

/-- A value out of 10, a reserve value of 5, and a currency state valid at height 0 only, converting one for one. -/
def genesisCtx : PriorityContext := ⟨fun _ => 10, fun _ => 5, fun h => if h = 0 then some id else none⟩

/-- At the genesis height 0, for an entry of height 1 with `hasReserve`: the age factor is 2^32 - 1, not the signed
difference -1; and the currency state is read at 2^32 - 1, not at `lastHeight` = 0, so the reserve value is left out
of `nValueIn` although the state at height 0 is valid. -/
theorem getPriority_genesis_wraps :
    (reserveEntry.age 0).toNat = 4294967295 ∧ ((0 : UInt32).toNat : Int) - reserveEntry.nHeight.toNat = -1 ∧
      CTxMemPoolEntry.lastHeight 0 = 0 ∧ (0 : UInt32) - 1 = 4294967295 ∧
      (genesisCtx.GetCurrencyState (CTxMemPoolEntry.lastHeight 0)).isSome = true ∧
      reserveEntry.valueIn genesisCtx 0 = genesisCtx.GetValueOut reserveEntry.tx + reserveEntry.nFee := by
  decide

end VerusCoin
