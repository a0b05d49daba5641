import VerusCoin.StdMap

/-!
# Combining partial signatures (`script/sign.cpp`)

`CombineSignatures` merges the `scriptSig` stacks of two partial signings of one output. What it does depends on the
type `Solver` finds for the output script: for a script it does not know it keeps the longer stack, for a single-key
script the stack that holds a signature, for a pay-to-script-hash script it recurs on the redeem script the first
stack ends with, and for a multisig script it calls `CombineMultisig`.

`CombineMultisig` collects the non-empty elements of both stacks in a `std::set`, walks them in the set's order and
gives each to the first public key of the script not yet served whose `CheckSig` accepts it. It then builds the stack
`OP_0` (the extra element `CHECKMULTISIG` pops), the signatures of the served keys in key order up to the number the
script requires, and an empty element for each signature still missing.

`BaseSignatureChecker::CheckSig` and `Solver` are not in this part of the source: they are parameters. The consensus
branch id, which the source only passes on to `CheckSig`, is fixed for a call and folded into it; a script is its bytes.
The public `CombineSignatures` converts each `SignatureData` to its stack with `EvalScript`, which is not in the source
either, and back with `PushAll`: the model starts from the stacks.
-/

namespace VerusCoin

/-- `valtype`: a stack element. -/
abbrev valtype := List UInt8

/-- `operator<` of `std::vector<unsigned char>` as a three-way comparison: byte by byte, a proper prefix first. -/
def compareBytes : valtype → valtype → Ordering
  | [], [] => .eq
  | [], _ :: _ => .lt
  | _ :: _, [] => .gt
  | a :: as, b :: bs => (compare a.toNat b.toNat).then (compareBytes as bs)

/-- The order of `std::set<valtype>` and `std::map<valtype, valtype>`. -/
instance : Ord valtype := ⟨compareBytes⟩

/-- `allsigs.insert(v)` for an element `v` of a stack that is not empty. -/
def addSig (allsigs : StdMap valtype Unit) (v : valtype) : StdMap valtype Unit :=
  if v.isEmpty then allsigs else allsigs.insert v ()

/-- `allsigs`: the set of the non-empty elements of both stacks. -/
def allSigs (sigs1 sigs2 : List valtype) : StdMap valtype Unit :=
  sigs2.foldl addSig (sigs1.foldl addSig .empty)

/-- The inner loop for one signature: the first public key not yet served whose `CheckSig` accepts it is served. -/
def matchSig (CheckSig : valtype → valtype → Bool) (sig : valtype) (sigs : StdMap valtype valtype) :
    List valtype → StdMap valtype valtype
  | [] => sigs
  | pubkey :: pubkeys =>
    -- already got a sig for this pubkey
    if sigs.contains pubkey then matchSig CheckSig sig sigs pubkeys
    else if CheckSig sig pubkey then sigs.insert pubkey sig
    else matchSig CheckSig sig sigs pubkeys

/-- The map of public key to signature: each signature of the set, in the set's order, matched to the keys. -/
def matchSigs (CheckSig : valtype → valtype → Bool) (pubkeys : List valtype) (allsigs : StdMap valtype Unit) :
    StdMap valtype valtype :=
  allsigs.entries.foldl (fun sigs p => matchSig CheckSig p.1 sigs pubkeys) .empty

/-- The loop that builds the merged stack: the signature of each served key, in key order, while fewer than
`nSigsRequired` are in; it returns the stack and `nSigsHave`. -/
def pushSigs (sigs : StdMap valtype valtype) (nSigsRequired : Nat) :
    List valtype → List valtype × Nat → List valtype × Nat
  | [], acc => acc
  | pubkey :: pubkeys, (result, nSigsHave) =>
    if nSigsHave < nSigsRequired then
      match sigs.find pubkey with
      | some sig => pushSigs sigs nSigsRequired pubkeys (result ++ [sig], nSigsHave + 1)
      | none => pushSigs sigs nSigsRequired pubkeys (result, nSigsHave)
    else (result, nSigsHave)

/-- `CombineMultisig(scriptPubKey, checker, vSolutions, sigs1, sigs2, consensusBranchId)`, with `CheckSig(sig, pubkey)`
the checker's answer for the script. `vSolutions` is `[nSigsRequired, pubkey₁, ..., pubkeyₙ, n]` as `Solver` returns
it for a multisig script; `none` when `assert(vSolutions.size() > 1)` fails or `vSolutions.front()` is empty. -/
def CombineMultisig (CheckSig : valtype → valtype → Bool) (vSolutions sigs1 sigs2 : List valtype) :
    Option (List valtype) :=
  match vSolutions with
  | (nRequired :: _) :: rest@(_ :: _) =>
    let nSigsRequired := nRequired.toNat
    let pubkeys := rest.take (vSolutions.length - 2)
    let sigs := matchSigs CheckSig pubkeys (allSigs sigs1 sigs2)
    -- the empty first element is the pop-one-too-many workaround
    let (result, nSigsHave) := pushSigs sigs nSigsRequired pubkeys ([[]], 0)
    -- fill any missing with `OP_0`
    some (result ++ List.replicate (nSigsRequired - nSigsHave) [])
  | _ => none

/-- `txnouttype` (`script/standard.h`). -/
inductive txnouttype where
  | TX_NONSTANDARD
  | TX_PUBKEY
  | TX_PUBKEYHASH
  | TX_SCRIPTHASH
  | TX_MULTISIG
  | TX_CRYPTOCONDITION
  | TX_NULL_DATA
  deriving DecidableEq, Repr

/-- The static `CombineSignatures(scriptPubKey, checker, txType, vSolutions, sigs1, sigs2, consensusBranchId)` over
the two stacks, with `CheckSig(sig, pubkey, scriptCode)` the checker's answer and `Solver(script)` the type and the
solutions `Solver` finds; `none` when a `CombineMultisig` it reaches fails its assertion. -/
def CombineSignatures (CheckSig : valtype → valtype → valtype → Bool) (Solver : valtype → txnouttype × List valtype)
    (scriptPubKey : valtype) (txType : txnouttype) (vSolutions sigs1 sigs2 : List valtype) : Option (List valtype) :=
  match txType with
  -- don't know anything about this, assume bigger one is correct
  | .TX_NONSTANDARD | .TX_NULL_DATA => some (if sigs1.length ≥ sigs2.length then sigs1 else sigs2)
  -- signatures are bigger than placeholders or empty scripts
  | .TX_PUBKEY | .TX_PUBKEYHASH | .TX_CRYPTOCONDITION =>
    some (if sigs1.isEmpty || (sigs1.headD []).isEmpty then sigs2 else sigs1)
  | .TX_SCRIPTHASH =>
    if _h1 : sigs1.isEmpty || (sigs1.getLastD []).isEmpty then some sigs2
    else if sigs2.isEmpty || (sigs2.getLastD []).isEmpty then some sigs1
    else
      -- recur to combine
      let spk := sigs1.getLastD []
      let (txType2, vSolutions2) := Solver spk
      (CombineSignatures CheckSig Solver spk txType2 vSolutions2 sigs1.dropLast sigs2.dropLast).map (· ++ [spk])
  | .TX_MULTISIG => CombineMultisig (fun sig pubkey => CheckSig sig pubkey scriptPubKey) vSolutions sigs1 sigs2
termination_by sigs1.length
decreasing_by
  have hne : sigs1 ≠ [] := fun h => _h1 (by rw [h]; rfl)
  rw [List.length_dropLast]
  have := List.length_pos.2 hne
  omega

end VerusCoin
