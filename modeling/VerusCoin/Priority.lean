import VerusCoin.Primitives

/-!
# `CTxMemPoolEntry::GetPriority` (`txmempool.cpp`)

`GetPriority(currentHeight)` adds to the entry's seed priority the age term
`((double)(currentHeight - nHeight) * nValueIn) / nModSize`. Both heights are `unsigned int`, so the age is their
difference modulo 2^32 before the conversion to `double` (which is exact below 2^53). With `hasReserve`, `nValueIn`
gains the reserve value converted by the currency state of height `currentHeight - 1`, again an `unsigned int`
difference; the clamped `lastHeight` the function computes is not read.

`GetValueOut`, `GetReserveValueOut`, `ConnectedChains.GetCurrencyState` and `ReserveToNative` are not in this part of
the source: they are given functions, and the currency state is its `ReserveToNative` conversion when it `IsValid()`.
`CAmount` sums are integers (no `int64` overflow).
-/

namespace VerusCoin

/-- What `GetPriority` reads outside the entry: `tx.GetValueOut()`, `tx.GetReserveValueOut()`, and
`ConnectedChains.GetCurrencyState(height)` as the `ReserveToNative` conversion of the state when it `IsValid()`. -/
structure PriorityContext where
  GetValueOut : CTransaction → Int
  GetReserveValueOut : CTransaction → Int
  GetCurrencyState : UInt32 → Option (Int → Int)

namespace CTxMemPoolEntry

/-- `lastHeight = currentHeight < 1 ? 0 : currentHeight - 1`, computed by `GetPriority` and not read. -/
def lastHeight (currentHeight : UInt32) : UInt32 := if currentHeight < 1 then 0 else currentHeight - 1

/-- `nValueIn`: the value out plus the fee, plus with `hasReserve` the reserve value converted by the currency state of
height `currentHeight - 1` when that state is valid. -/
def valueIn (e : CTxMemPoolEntry) (ctx : PriorityContext) (currentHeight : UInt32) : Int :=
  let nValueIn := ctx.GetValueOut e.tx + e.nFee
  if e.hasReserve then
    match ctx.GetCurrencyState (currentHeight - 1) with
    | some reserveToNative => nValueIn + reserveToNative (ctx.GetReserveValueOut e.tx)
    | none => nValueIn
  else nValueIn

/-- The age factor `currentHeight - nHeight`, an `unsigned int` difference. -/
def age (e : CTxMemPoolEntry) (currentHeight : UInt32) : UInt32 := currentHeight - e.nHeight

/-- `CTxMemPoolEntry::GetPriority(currentHeight)`: `dPriority + ((double)age * nValueIn) / nModSize`. -/
def GetPriority (e : CTxMemPoolEntry) (ctx : PriorityContext) (currentHeight : UInt32) : Float :=
  e.dPriority + Float.ofNat (e.age currentHeight).toNat * Float.ofInt (e.valueIn ctx currentHeight) / e.nModSize.toFloat

end CTxMemPoolEntry

end VerusCoin
