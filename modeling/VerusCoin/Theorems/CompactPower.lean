import VerusCoin.CompactPower

/-!
# What `GetCompactPower` computes

`~x / (x + 1) + 1` is `2^256 / (x + 1)` for `0 < x < 2^256 - 1` (`invWork_eq`). A target `SetCompact` decodes without
overflow is below `2^256 - 1` (`setCompact_lt`) and the two stake parts never wrap (`stake_sum_lt`), so the only
corners are the random stake `aNonce = nNonce | (bnStake << 1)`: at 0 its part wraps to 0, and at `2^256 - 1` its
divisor does (`getCompactPower_divides_by_zero`).
-/

namespace VerusCoin

/-! ## `~x / (x + 1) + 1` -/

/-- The trick of `GetCompactPower`: for `0 < x < 2^256 - 1`, `~x / (x + 1) + 1` is `2^256 / (x + 1)`. -/
theorem invWork_eq {x : ArithUint256} (h0 : 0 < x.toNat) (h1 : x.toNat + 1 < 2 ^ 256) :
    invWork x = some (BitVec.ofNat 256 (2 ^ 256 / (x.toNat + 1))) := by
  have hone : (1 : ArithUint256).toNat = 1 := rfl
  have hx1 : (x + 1).toNat = x.toNat + 1 := by
    rw [BitVec.toNat_add, hone, Nat.mod_eq_of_lt h1]
  have hne : x + 1 ≠ 0 := fun h => by
    rw [h] at hx1
    exact absurd hx1 (by simp)
  have hdiv : 2 ^ 256 / (x.toNat + 1) = (2 ^ 256 - 1 - x.toNat) / (x.toNat + 1) + 1 := by
    rw [Nat.div_eq_sub_div (by omega) (by omega)]
    congr 2
    omega
  simp only [invWork, udiv, hne, if_false, Option.map_some']
  congr 1
  apply BitVec.eq_of_toNat_eq
  rw [BitVec.toNat_add, BitVec.toNat_udiv, BitVec.toNat_not, hx1, hone, BitVec.toNat_ofNat, ← hdiv]

/-! ## The decoded targets -/

/-- A target `SetCompact` decodes without overflow is below `2^256 - 1`: adding one to it never wraps. -/
theorem setCompact_lt (nCompact : UInt32) (h : (SetCompact nCompact).2.2 = false) :
    (SetCompact nCompact).1.toNat + 1 < 2 ^ 256 := by
  unfold SetCompact at h ⊢
  simp only at h ⊢
  split_ifs at h ⊢ with hs
  · rw [BitVec.toNat_ofNat]
    have h1 := Nat.div_le_self (nCompact.toNat % 2 ^ 23) (2 ^ (8 * (3 - nCompact.toNat / 2 ^ 24)))
    have h2 := Nat.mod_lt nCompact.toNat (Nat.two_pow_pos 23)
    have h3 := Nat.mod_le (nCompact.toNat % 2 ^ 23 / 2 ^ (8 * (3 - nCompact.toNat / 2 ^ 24))) (2 ^ 256)
    omega
  · rw [BitVec.toNat_shiftLeft, BitVec.toNat_ofNat, Nat.shiftLeft_eq]
    generalize hw : nCompact.toNat % 2 ^ 23 = w at h ⊢
    generalize hk : nCompact.toNat / 2 ^ 24 = k at h hs ⊢
    have hw23 : w < 2 ^ 23 := hw ▸ Nat.mod_lt _ (Nat.two_pow_pos 23)
    have hwk : w = 0 ∨ k ≤ 34 ∧ (w ≤ 255 ∨ k ≤ 33) ∧ (w ≤ 65535 ∨ k ≤ 32) := by
      revert h
      simp only [Bool.and_eq_false_iff, Bool.or_eq_false_iff, decide_eq_false_iff_not]
      omega
    suffices hlt : w * 2 ^ (8 * (k - 3)) < 2 ^ 256 - 1 by
      rw [Nat.mod_eq_of_lt (by omega : w < 2 ^ 256), Nat.mod_eq_of_lt (by omega)]
      omega
    rcases hwk with rfl | ⟨hk34, h33, h32⟩
    · simp
    · rcases (show k ≤ 32 ∨ k = 33 ∨ k = 34 by omega) with hk | rfl | rfl
      · calc w * 2 ^ (8 * (k - 3)) < 2 ^ 23 * 2 ^ 232 :=
              Nat.mul_lt_mul_of_lt_of_le hw23 (Nat.pow_le_pow_right (by decide) (by omega)) (Nat.two_pow_pos _)
          _ < 2 ^ 256 - 1 := by decide
      · omega
      · omega

/-! ## Sums and the packing of work and stake -/

theorem toNat_ofNat_of_lt {n : Nat} (h : n < 2 ^ 256) : (BitVec.ofNat 256 n).toNat = n := by
  rw [BitVec.toNat_ofNat, Nat.mod_eq_of_lt h]

theorem toNat_add_ofNat {m n : Nat} (h : m + n < 2 ^ 256) : (BitVec.ofNat 256 m + BitVec.ofNat 256 n).toNat = m + n := by
  rw [BitVec.toNat_add, toNat_ofNat_of_lt (by omega), toNat_ofNat_of_lt (by omega), Nat.mod_eq_of_lt h]

/-- `x >> 128 == 0` tests that `x` is below `2^128`. -/
theorem shr128_eq_zero (x : ArithUint256) : (x >>> 128 == 0) = decide (x.toNat < 2 ^ 128) := by
  rw [Bool.eq_iff_iff, beq_iff_eq, decide_eq_true_iff, BitVec.toNat_eq, BitVec.toNat_ushiftRight,
    Nat.shiftRight_eq_div_pow]
  show x.toNat / 2 ^ 128 = 0 ↔ _
  rw [Nat.div_eq_zero_iff (Nat.two_pow_pos 128)]

/-- The work of a target of at least 1 is at most `2^255`. -/
theorem work_le (t : Nat) (ht : 0 < t) : 2 ^ 256 / (t + 1) ≤ 2 ^ 255 :=
  (Nat.div_le_div_left (show 2 ≤ t + 1 by omega) (by decide)).trans (by decide)

theorem le_or_right (n m : Nat) : m ≤ n ||| m := Nat.le_of_testBit fun i h => by simp [Nat.testBit_or, h]

/-- A target `SetCompact` decodes without overflow and not zero: `invWork` computes its work `2^256 / (t + 1)`. -/
theorem invWork_setCompact {nCompact : UInt32} (hO : (SetCompact nCompact).2.2 = false)
    (h0 : (SetCompact nCompact).1 ≠ 0) :
    invWork (SetCompact nCompact).1 = some (BitVec.ofNat 256 (2 ^ 256 / ((SetCompact nCompact).1.toNat + 1))) :=
  invWork_eq (Nat.pos_of_ne_zero fun h => h0 (BitVec.eq_of_toNat_eq h)) (setCompact_lt nCompact hO)

/-- The stake parts never wrap: `2^256 / (s + 1) + 2^256 / (a + 1) < 2^256` for `s ≥ 1` and
`a = nNonce | (s << 1) ≥ 1`, since `a ≥ 2` when `s = 1`. -/
theorem stake_sum_lt (nNonce s : ArithUint256) (hs : 0 < s.toNat) (ha : 0 < (aNonce nNonce s).toNat) :
    2 ^ 256 / (s.toNat + 1) + 2 ^ 256 / ((aNonce nNonce s).toNat + 1) < 2 ^ 256 := by
  by_cases h1 : s.toNat = 1
  · have h2 : 2 ≤ (aNonce nNonce s).toNat := by
      have hs2 : (s <<< 1).toNat = 2 := by rw [BitVec.toNat_shiftLeft, h1]; rfl
      rw [aNonce, BitVec.toNat_or]
      exact hs2 ▸ le_or_right _ _
    have h3 : 2 ^ 256 / ((aNonce nNonce s).toNat + 1) ≤ 2 ^ 256 / 3 := Nat.div_le_div_left (by omega) (by decide)
    rw [h1]
    omega
  · have h3 : 2 ^ 256 / (s.toNat + 1) ≤ 2 ^ 256 / 3 := Nat.div_le_div_left (by omega) (by decide)
    have := work_le _ ha
    omega

theorem pack_toNat {W S : ArithUint256} (hW : W.toNat < 2 ^ 128) (hS : S.toNat < 2 ^ 128) :
    (W + S <<< 128).toNat = W.toNat + S.toNat * 2 ^ 128 := by
  rw [BitVec.toNat_add, BitVec.toNat_shiftLeft, Nat.shiftLeft_eq, Nat.mod_eq_of_lt (by omega),
    Nat.mod_eq_of_lt (by omega)]

/-- The last test and the packing of work and stake. -/
theorem pack_eq (W S : ArithUint256) :
    (if (!(W >>> 128 == 0 && S >>> 128 == 0)) = true then some (0 : ArithUint256) else some (W + S <<< 128)).map
        BitVec.toNat =
      some (if W.toNat < 2 ^ 128 ∧ S.toNat < 2 ^ 128 then W.toNat + S.toNat * 2 ^ 128 else 0) := by
  rw [shr128_eq_zero, shr128_eq_zero]
  by_cases hW : W.toNat < 2 ^ 128
  · by_cases hS : S.toNat < 2 ^ 128
    · rw [decide_eq_true hW, decide_eq_true hS, if_neg (by decide), if_pos ⟨hW, hS⟩, Option.map_some',
        pack_toNat hW hS]
    · rw [decide_eq_false hS, Bool.and_false, if_pos (by decide), if_neg fun h => hS h.2]
      rfl
  · rw [decide_eq_false hW, Bool.false_and, if_pos (by decide), if_neg fun h => hW h.1]
    rfl

/-- The last test without stake. -/
theorem pack_work_eq (W : ArithUint256) :
    (if (!(W >>> 128 == 0)) = true then some (0 : ArithUint256) else some W).map BitVec.toNat =
      some (if W.toNat < 2 ^ 128 then W.toNat else 0) := by
  rw [shr128_eq_zero]
  by_cases hW : W.toNat < 2 ^ 128
  · rw [decide_eq_true hW, if_neg (by decide), if_pos hW]
    rfl
  · rw [decide_eq_false hW, if_pos (by decide), if_neg hW]
    rfl

/-! ## The value over the integers -/

/-- The integer value of `GetCompactPower`, without 256-bit wrapping: the work `W = 2^256 / (t + 1)` of the target
`t` that `nBits` decodes to, and for a proof-of-stake nonce the stake `S = 2^256 / (s + 1) + 2^256 / (a + 1)` of its
target `s` and of `a = nNonce | (s << 1)`; `W`, or `W + S·2^128`, when the parts are below `2^128`, and `0` for a
target that is negative, overflows or is zero, or for a part of `2^128` or more. -/
def compactPowerSpec (ctx : PosNonceContext) (nNonce : ArithUint256) (nBits : UInt32) (version : Int) : Nat :=
  let (t, fNegative, fOverflow) := SetCompact nBits
  if fNegative || fOverflow || t == 0 then 0
  else
    let W := 2 ^ 256 / (t.toNat + 1)
    if ctx.IsPOSNonce nNonce version then
      let (s, fNegative, fOverflow) := SetCompact (ctx.GetPOSTarget nNonce)
      if fNegative || fOverflow || s == 0 then 0
      else
        let S := 2 ^ 256 / (s.toNat + 1) + 2 ^ 256 / ((aNonce nNonce s).toNat + 1)
        if W < 2 ^ 128 ∧ S < 2 ^ 128 then W + S * 2 ^ 128 else 0
    else if W < 2 ^ 128 then W else 0

/-- For every proof-of-stake context, nonce, `nBits` and version whose random stake `a = nNonce | (s << 1)`, when the
nonce is a stake nonce, is neither 0 nor `2^256 - 1`: `GetCompactPower` throws no division by zero and returns
exactly the integer value `compactPowerSpec`. The work and stake targets need no hypothesis: `SetCompact` never
decodes a valid target to `2^256 - 1`, and the sums never wrap. -/
theorem getCompactPower_exact (ctx : PosNonceContext) (nNonce : ArithUint256) (nBits : UInt32) (version : Int)
    (ha : ctx.IsPOSNonce nNonce version = true →
      0 < (aNonce nNonce (SetCompact (ctx.GetPOSTarget nNonce)).1).toNat ∧
        (aNonce nNonce (SetCompact (ctx.GetPOSTarget nNonce)).1).toNat + 1 < 2 ^ 256) :
    (GetCompactPower ctx nNonce nBits version).map BitVec.toNat = some (compactPowerSpec ctx nNonce nBits version) := by
  unfold GetCompactPower compactPowerSpec
  by_cases hbad : ((SetCompact nBits).2.1 || (SetCompact nBits).2.2 || (SetCompact nBits).1 == 0) = true
  · simp only [hbad, if_true]
    rfl
  · rw [Bool.not_eq_true, Bool.or_eq_false_iff, Bool.or_eq_false_iff] at hbad
    obtain ⟨⟨hN, hO⟩, h0⟩ := hbad
    have h0' : (SetCompact nBits).1 ≠ 0 := by simpa using h0
    have hW := work_le _ (Nat.pos_of_ne_zero fun h => h0' (BitVec.eq_of_toNat_eq h))
    have hW' := toNat_ofNat_of_lt (show 2 ^ 256 / ((SetCompact nBits).1.toNat + 1) < 2 ^ 256 by omega)
    simp only [hN, hO, h0, Bool.or_false, invWork_setCompact hO h0', Option.bind_eq_bind,
      Option.some_bind, Bool.false_eq_true, if_false]
    by_cases hpos : ctx.IsPOSNonce nNonce version = true
    · obtain ⟨ha0, ha1⟩ := ha hpos
      simp only [hpos, if_true]
      by_cases hsbad : ((SetCompact (ctx.GetPOSTarget nNonce)).2.1 || (SetCompact (ctx.GetPOSTarget nNonce)).2.2 ||
          (SetCompact (ctx.GetPOSTarget nNonce)).1 == 0) = true
      · simp only [hsbad, if_true]
        rfl
      · rw [Bool.not_eq_true, Bool.or_eq_false_iff, Bool.or_eq_false_iff] at hsbad
        obtain ⟨⟨hsN, hsO⟩, hs0⟩ := hsbad
        have hs0' : (SetCompact (ctx.GetPOSTarget nNonce)).1 ≠ 0 := by simpa using hs0
        have hsum := stake_sum_lt nNonce _ (Nat.pos_of_ne_zero fun h => hs0' (BitVec.eq_of_toNat_eq h)) ha0
        simp only [hsN, hsO, hs0, Bool.or_false, Bool.false_eq_true, if_false, invWork_setCompact hsO hs0',
          invWork_eq ha0 ha1, Option.some_bind]
        rw [pack_eq, hW', toNat_add_ofNat hsum]
    · simp only [hpos, Bool.false_eq_true, if_false]
      rw [pack_work_eq, hW']

/-! ## The all-ones random stake -/

/-- `GetPOSTarget` reading the nonce's low 32 bits, and `IsPOSNonce` holding when they are not zero. -/
def lowBitsCtx : PosNonceContext := ⟨fun n _ => n.toNat % 2 ^ 32 != 0, fun n => (n.toNat % 2 ^ 32).toUInt32⟩

/-- A stake nonce whose low 32 bits are the compact target `0x047fffff` and whose other bits are all set. -/
def allOnesStakeNonce : ArithUint256 := BitVec.ofNat 256 (2 ^ 256 - 2 ^ 32 + 0x047fffff)

/-- With `nBits = 0x1d00ffff` and a stake nonce whose low 32 bits are the target `0x047fffff` (decoded to
`0x7fffff00`) and whose other bits are all set, `aNonce = nNonce | 0xfffffe00` is `2^256 - 1`: `aNonce + 1` wraps to 0
and `~aNonce / (aNonce + 1)` divides by zero. -/
theorem getCompactPower_divides_by_zero :
    SetCompact 0x1d00ffff = (BitVec.ofNat 256 (0xffff * 2 ^ 208), false, false) ∧
      lowBitsCtx.IsPOSNonce allOnesStakeNonce 0 = true ∧
      SetCompact (lowBitsCtx.GetPOSTarget allOnesStakeNonce) = (BitVec.ofNat 256 0x7fffff00, false, false) ∧
      aNonce allOnesStakeNonce 0x7fffff00 + 1 = 0 ∧
      GetCompactPower lowBitsCtx allOnesStakeNonce 0x1d00ffff 0 = none := by
  decide

theorem getCompactPower_exact_lowBits :
    (lowBitsCtx.IsPOSNonce 0x047fffff 0 = true →
      0 < (aNonce 0x047fffff (SetCompact (lowBitsCtx.GetPOSTarget 0x047fffff)).1).toNat ∧
        (aNonce 0x047fffff (SetCompact (lowBitsCtx.GetPOSTarget 0x047fffff)).1).toNat + 1 < 2 ^ 256) ∧
      (GetCompactPower lowBitsCtx 0x047fffff 0x1d00ffff 0).map BitVec.toNat =
        some (compactPowerSpec lowBitsCtx 0x047fffff 0x1d00ffff 0) :=
  have ha : lowBitsCtx.IsPOSNonce 0x047fffff 0 = true →
      0 < (aNonce 0x047fffff (SetCompact (lowBitsCtx.GetPOSTarget 0x047fffff)).1).toNat ∧
        (aNonce 0x047fffff (SetCompact (lowBitsCtx.GetPOSTarget 0x047fffff)).1).toNat + 1 < 2 ^ 256 :=
    fun _ => by decide
  ⟨ha, getCompactPower_exact lowBitsCtx 0x047fffff 0x1d00ffff 0 ha⟩

end VerusCoin
