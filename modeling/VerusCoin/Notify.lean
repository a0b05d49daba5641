import VerusCoin.Run

/-!
# Notifying the wallets (`txmempool.cpp`)

`addUnchecked` records each transaction it pools in `mapRecentlyAddedTx` under its hash and counts it in
`nRecentlyAddedSequence`; the body of `remove`'s loop erases the record. The thread that notifies the wallets calls
`NotifyRecentlyAdded`, which takes the lock twice: the first time it reads the sequence number, copies the recorded
transactions in map order and clears the map; then, without the lock, it hands each copy to `SyncWithWallets`; then,
in regtest only, it takes the lock again to store the number it read in `nNotifiedSequence`. `IsFullyNotified`
(regtest only) compares the two numbers.

`Op.NotifyRecentlyAdded` runs the two critical sections back to back. Between them any other call may run: a
`NotifySystem` is the pool together with the notifier thread, idle or holding the batch it is syncing, and a
`NotifyEvent` is a call by another thread or one of the notifier's two critical sections.
-/

namespace VerusCoin

namespace CTxMemPool

/-- The first critical section of `NotifyRecentlyAdded`: the sequence number read, the recorded transactions in map
order, and the pool with `mapRecentlyAddedTx` cleared. -/
def notifyBegin (s : CTxMemPool) : UInt64 × List CTransaction × CTxMemPool :=
  (s.nRecentlyAddedSequence, s.mapRecentlyAddedTx.entries.map Prod.snd, { s with mapRecentlyAddedTx := .empty })

/-- The second critical section of `NotifyRecentlyAdded`: in regtest, `nNotifiedSequence = recentlyAddedSequence`. -/
def notifyEnd (s : CTxMemPool) (regtest : Bool) (recentlyAddedSequence : UInt64) : CTxMemPool :=
  if regtest then { s with nNotifiedSequence := recentlyAddedSequence } else s

end CTxMemPool

/-- The transactions pooled by the calls of a history since its last `NotifyRecentlyAdded`, in call order. -/
def addedSinceNotify (ops : List Op) : List CTransaction :=
  ops.foldl (fun acc op => if op.notifies then [] else acc ++ op.pools.toList) []

/-- The notifier thread: idle, or between the two critical sections of `NotifyRecentlyAdded`, holding the sequence
number it read and the batch it hands to `SyncWithWallets`. -/
inductive Notifier where
  | idle
  | syncing (recentlyAddedSequence : UInt64) (txs : List CTransaction)
  deriving DecidableEq, Repr

/-- The pool and the notifier thread. -/
structure NotifySystem where
  pool : CTxMemPool
  notifier : Notifier

/-- A step of the system: a call by another thread, or a critical section of the notifier. -/
inductive NotifyEvent where
  | call (op : Op)
  | begin
  | finish

namespace NotifyEvent

/-- The new state after a step; `none` when the call aborts or the notifier is not at that section. -/
def apply (regtest : Bool) (sys : NotifySystem) : NotifyEvent → Option NotifySystem
  | call op => (op.apply sys.pool).map fun s => ⟨s, sys.notifier⟩
  | begin =>
    match sys.notifier with
    | .idle =>
      let (recentlyAddedSequence, txs, s) := sys.pool.notifyBegin
      some ⟨s, .syncing recentlyAddedSequence txs⟩
    | .syncing .. => none
  | finish =>
    match sys.notifier with
    | .syncing recentlyAddedSequence _ => some ⟨sys.pool.notifyEnd regtest recentlyAddedSequence, .idle⟩
    | .idle => none

/-- A call by another thread is allowed and is not `NotifyRecentlyAdded`, which only the notifier thread runs. -/
def Allowed (sys : NotifySystem) : NotifyEvent → Prop
  | call op => op.Allowed sys.pool ∧ op.notifies = false
  | _ => True

/-- The transaction a step pools. -/
def pools : NotifyEvent → Option CTransaction
  | call op => op.pools
  | _ => none

/-- The steps of the system one call makes: `NotifyRecentlyAdded` is the notifier's two critical sections back to
back, every other call is a call by another thread. -/
def ofOp : Op → List NotifyEvent
  | .NotifyRecentlyAdded _ => [begin, finish]
  | op => [call op]

/-- A run of the system: the steps in order, each allowed and none blocked or aborting, from `sys` to `sys'`. -/
def Run (regtest : Bool) : NotifySystem → List NotifyEvent → NotifySystem → Prop
  | sys, [], sys' => sys' = sys
  | sys, e :: es, sys' => e.Allowed sys ∧ ∃ sys₁, e.apply regtest sys = some sys₁ ∧ Run regtest sys₁ es sys'

end NotifyEvent

end VerusCoin
