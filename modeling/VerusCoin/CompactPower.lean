import VerusCoin.Primitives

/-!
# `GetCompactPower`

`GetCompactPower(nNonce, nBits, version)` decodes the work target from `nBits` and, for a proof-of-stake nonce, the
stake target from the nonce; it turns each target `x` into `2^256 / (x + 1)` computed as `~x / (x + 1) + 1` in
`arith_uint256`, adds the nonce's random stake `aNonce = nNonce | (bnStake << 1)` the same way, and packs work and
stake into the low and high 128 bits.

`arith_uint256` is `BitVec 256`; its `operator/` throws `uint_error` on a zero divisor, which the model returns as
`none`. `arith_uint256::SetCompact` is not in this part of the source: it is modelled as Bitcoin Core defines it.
`CPOSNonce::IsPOSNonce` and `CPOSNonce::GetPOSTarget` are not either: they are given functions.
-/

namespace VerusCoin

/-- `arith_uint256`. -/
abbrev ArithUint256 := BitVec 256

/-- `arith_uint256::SetCompact(nCompact, &fNegative, &fOverflow)`, as Bitcoin Core's `arith_uint256.cpp` defines it:
the size byte and the 23-bit word, the word shifted right to a size below 3 or the value shifted left above it; then
`fNegative` and `fOverflow`, both read from the shifted word. -/
def SetCompact (nCompact : UInt32) : ArithUint256 × Bool × Bool :=
  let nSize := nCompact.toNat / 2 ^ 24
  let nWord := if nSize ≤ 3 then nCompact.toNat % 2 ^ 23 / 2 ^ (8 * (3 - nSize)) else nCompact.toNat % 2 ^ 23
  let value : ArithUint256 :=
    if nSize ≤ 3 then BitVec.ofNat 256 nWord else BitVec.ofNat 256 nWord <<< (8 * (nSize - 3))
  (value, nWord ≠ 0 && nCompact.toNat / 2 ^ 23 % 2 = 1,
    nWord ≠ 0 && (nSize > 34 || (nWord > 0xff && nSize > 33) || (nWord > 0xffff && nSize > 32)))

/-- `x / y` in `arith_uint256`: `none` where `operator/` throws on a zero divisor. -/
def udiv (x y : ArithUint256) : Option ArithUint256 := if y = 0 then none else some (x / y)

/-- `(~x / (x + 1)) + 1`, the code's `2^256 / (x + 1)`. -/
def invWork (x : ArithUint256) : Option ArithUint256 := (udiv (~~~x) (x + 1)).map (· + 1)

/-- What `GetCompactPower` reads of the nonce outside this part of the source: `CPOSNonce::IsPOSNonce(version)` and
`CPOSNonce::GetPOSTarget()`. -/
structure PosNonceContext where
  IsPOSNonce : ArithUint256 → Int → Bool
  GetPOSTarget : ArithUint256 → UInt32

/-- `aNonce = UintToArith256(nNonce) | (bnStake << 1)`. -/
def aNonce (nNonce bnStake : ArithUint256) : ArithUint256 := nNonce ||| (bnStake <<< 1)

/-- `GetCompactPower(nNonce, nBits, version)`: `none` where a division throws. -/
def GetCompactPower (ctx : PosNonceContext) (nNonce : ArithUint256) (nBits : UInt32) (version : Int) :
    Option ArithUint256 :=
  let (bnWork, fNegative, fOverflow) := SetCompact nBits
  if fNegative || fOverflow || bnWork == 0 then some 0
  else if ctx.IsPOSNonce nNonce version then
    let (bnStake, fNegative, fOverflow) := SetCompact (ctx.GetPOSTarget nNonce)
    if fNegative || fOverflow || bnStake == 0 then some 0
    else do
      let work ← invWork bnWork
      let stake ← invWork bnStake
      let random ← invWork (aNonce nNonce bnStake)
      if !(work >>> 128 == 0 && (stake + random) >>> 128 == 0) then some 0
      else some (work + ((stake + random) <<< 128))
  else do
    let work ← invWork bnWork
    if !(work >>> 128 == 0) then some 0 else some work

end VerusCoin
