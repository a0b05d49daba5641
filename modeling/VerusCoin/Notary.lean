import VerusCoin.Primitives

/-!
# `Eval::CheckNotaryInputs` (`cc/eval.cpp`)

`CheckNotaryInputs(tx, height, timestamp)` asks for at least 11 inputs; for each input, in order, it fetches the spent
transaction with `GetTxUnconfirmed`, reads the spent output's script, asks for a pay-to-pubkey script (35 bytes: the
push `33`, the key, `OP_CHECKSIG`) and marks the first notary not yet seen whose key is that key. Any failed test
returns false.

The bound test is `if (tx.vout.size() < txIn.prevout.n) return false`: an input naming `n = vout.size()` passes it,
and `tx.vout[n]` then reads one past the end. The model returns `none` there.

`GetTxUnconfirmed` and `komodo_notaries` are not in this part of the source: they are given functions, the second as
the first `nNotaries` rows it writes (none when `nNotaries ≤ 0`).
-/

namespace VerusCoin

/-- A public key: the 33 bytes `memcmp` compares. -/
structure PubKey where
  bytes : List UInt8
  length_bytes : bytes.length = 33
  deriving DecidableEq

/-- What `CheckNotaryInputs` reads outside `tx`: `GetTxUnconfirmed(hash)` and the notary keys
`GetNotaries(height, timestamp)` returns. -/
structure NotaryContext where
  GetTxUnconfirmed : Uint256 → Option CTransaction
  GetNotaries : UInt32 → UInt32 → List PubKey

/-- `OP_CHECKSIG`. -/
def OP_CHECKSIG : UInt8 := 0xac

/-- The key of a spent output's script: `spk.size() == 35`, `pk++[0] == 33` and `pk[33] == OP_CHECKSIG`, the key being
the 33 bytes after the push; `none` when a test returns false. -/
def scriptKey (spk : List UInt8) : Option PubKey :=
  if h : spk.length = 35 then
    if spk[0]? = some 33 ∧ spk[34]? = some OP_CHECKSIG then some ⟨(spk.drop 1).take 33, by simp [h]⟩ else none
  else none

/-- The loop over the notaries: the first row `i < nNotaries` not yet seen whose key is `pk` is marked seen
(`goto found`); `none` when there is none (`return false`). A row is a notary key with its `seenNotaries` flag. -/
def markNotary (pk : PubKey) : List (PubKey × Bool) → Option (List (PubKey × Bool))
  | [] => none
  | (key, seen) :: rows =>
    if !seen && key == pk then some ((key, true) :: rows) else (markNotary pk rows).map ((key, seen) :: ·)

/-- The `BOOST_FOREACH` over the inputs, with the notary rows: `some b` for `return b`, and `none` where `tx.vout[n]`
reads past the end. -/
def checkNotaryVin (ctx : NotaryContext) : List (PubKey × Bool) → List CTxIn → Option Bool
  | _, [] => some true
  | rows, txIn :: rest =>
    match ctx.GetTxUnconfirmed txIn.prevout.hash with
    | none => some false
    | some prev =>
      if prev.vout.length < txIn.prevout.n then some false
      else match prev.vout[txIn.prevout.n]? with
        | none => none
        | some out =>
          match scriptKey out.scriptPubKey with
          | none => some false
          | some pk =>
            match markNotary pk rows with
            | none => some false
            | some rows' => checkNotaryVin ctx rows' rest

/-- `Eval::CheckNotaryInputs(tx, height, timestamp)`: `some b` for `return b`, `none` for a read past the end of the
spent transaction's outputs. -/
def CheckNotaryInputs (ctx : NotaryContext) (tx : CTransaction) (height timestamp : UInt32) : Option Bool :=
  if tx.vin.length < 11 then some false
  else checkNotaryVin ctx ((ctx.GetNotaries height timestamp).map (·, false)) tx.vin

end VerusCoin
