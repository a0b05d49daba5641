import VerusCoin.Notify
import VerusCoin.Lemmas.StaleEntries
import VerusCoin.Lemmas.PruneSpent

/-!
# What each call does to the notification state

`mapTx`, `mapRecentlyAddedTx` and the two sequence numbers are the notification state. What an allowed call does to
it follows from `call_cases`: `addUnchecked` records and counts the transaction it pools, `NotifyRecentlyAdded` drains
the records, a removal erases records with the entries it erases, and every other call leaves the state alone. Two invariants follow. Along runs of calls without `clear()`, the records are, in hash order,
exactly the pooled transactions added since the last notification (`RecentExact`). Along runs of the notifier
interleaved with the other calls, the sequence numbers count the transactions pooled, and the records and the batch in
flight are bounded by those counts (`NotifyCounted`).
-/

namespace VerusCoin

/-! ## Histories -/

theorem addedSinceNotify_append_singleton (ops : List Op) (op : Op) :
    addedSinceNotify (ops ++ [op]) = if op.notifies then [] else addedSinceNotify ops ++ op.pools.toList :=
  List.foldl_append _ _ _ _

/-- A call that pools nothing and notifies nothing leaves the history's pending transactions as they are. -/
theorem addedSinceNotify_append_quiet {op : Op} (hp : op.pools = none) (hn : op.notifies = false) (ops : List Op) :
    addedSinceNotify (ops ++ [op]) = addedSinceNotify ops := by
  rw [addedSinceNotify_append_singleton, hn, hp, if_neg Bool.false_ne_true, Option.toList_none, List.append_nil]

theorem Uint256.compare_lt_trans (a b c : Uint256) (hab : compare a b = .lt) (hbc : compare b c = .lt) :
    compare a c = .lt :=
  Nat.compare_eq_lt.2 ((Nat.compare_eq_lt.1 hab).trans (Nat.compare_eq_lt.1 hbc))

theorem Uint256.compare_lt_total (a b : Uint256) (hne : a ≠ b) (hab : compare a b ≠ .lt) : compare b a = .lt := by
  rw [ne_eq, Nat.compare_eq_lt] at hab
  exact Nat.compare_eq_lt.2 (lt_of_le_of_ne (not_lt.1 hab) (Ne.symm hne))

theorem StdMap.length_insertList {K V : Type} [DecidableEq K] [Ord K] (k : K) (v : V) :
    ∀ l : List (K × V), (StdMap.insertList k v l).length ≤ l.length + 1
  | [] => le_refl _
  | _ :: t => by
    unfold StdMap.insertList
    split_ifs
    · exact Nat.le_succ _
    · exact le_refl _
    · exact Nat.succ_le_succ (length_insertList k v t)

namespace CTxMemPool

variable {s s' : CTxMemPool}

@[simp] theorem eraseEntry_nRecentlyAddedSequence (h : Uint256) (e : CTxMemPoolEntry) :
    (s.eraseEntry h e).nRecentlyAddedSequence = s.nRecentlyAddedSequence := by rw [eraseEntry_eq]

@[simp] theorem eraseEntry_nNotifiedSequence (h : Uint256) (e : CTxMemPoolEntry) :
    (s.eraseEntry h e).nNotifiedSequence = s.nNotifiedSequence := by rw [eraseEntry_eq]

/-! ## The records after a history of calls -/

/-- Under `RecentlyAddedPooled` a transaction is recorded exactly when it is recorded under its own hash. -/
theorem RecentlyAddedPooled.mem_iff (hr : s.RecentlyAddedPooled) {tx : CTransaction} :
    tx ∈ s.mapRecentlyAddedTx.entries.map Prod.snd ↔ (tx.hash, tx) ∈ s.mapRecentlyAddedTx.entries := by
  refine ⟨fun h => ?_, fun h => List.mem_map.2 ⟨_, h, rfl⟩⟩
  obtain ⟨p, hp, rfl⟩ := List.mem_map.1 h
  rw [(hr p hp).2]
  exact hp

/-- The records after the history `ops`: each names a pooled transaction under its hash, they are in hash order, and a
transaction is recorded exactly when it is pooled and some call since the last notification pooled it. -/
structure RecentExact (ops : List Op) (s : CTxMemPool) : Prop where
  pooled : s.RecentlyAddedPooled
  ordered : s.mapRecentlyAddedTx.Ordered
  exact : ∀ tx, tx ∈ s.mapRecentlyAddedTx.entries.map Prod.snd ↔ s.Pooled tx ∧ tx ∈ addedSinceNotify ops

variable {ops : List Op}

theorem RecentExact.empty (fA fS : Bool) : RecentExact [] (CTxMemPool.empty fA fS) :=
  ⟨RecentlyAddedPooled.empty fA fS, List.Pairwise.nil,
    fun _ => iff_of_false (List.not_mem_nil _) fun h => List.not_mem_nil _ h.2⟩

theorem RecentExact.of_added {ops' : List Op} (h : addedSinceNotify ops = addedSinceNotify ops')
    (hs : RecentExact ops s) : RecentExact ops' s :=
  ⟨hs.pooled, hs.ordered, fun tx => h ▸ hs.exact tx⟩

theorem RecentExact.of_bookkeepingOnly (h : BookkeepingOnly s s') (hs : RecentExact ops s) : RecentExact ops s' := by
  rw [h]
  exact ⟨hs.pooled, hs.ordered, hs.exact⟩

/-- Erasing a pooled entry erases its record and nothing else the invariant needs. -/
theorem RecentExact.removalClosed (ops : List Op) : RemovalClosed (RecentExact ops) := by
  refine ⟨fun s h e hs _ => ?_, fun s h hs => ⟨hs.pooled, hs.ordered, hs.exact⟩⟩
  have hr : (s.eraseEntry h e).RecentlyAddedPooled := hs.pooled.eraseEntry
  refine ⟨hr, by simpa only [eraseEntry_mapRecentlyAddedTx] using hs.ordered.erase h, fun tx => ?_⟩
  rw [hr.mem_iff, eraseEntry_mapRecentlyAddedTx, StdMap.mem_erase, pooled_eraseEntry, ← hs.pooled.mem_iff, hs.exact]
  exact and_right_comm

/-- `addUnchecked`, made as its callers guarantee, records the transaction it pools, which is pending from now on. -/
theorem RecentExact.addUnchecked {hash : Uint256} {entry : CTxMemPoolEntry} (hs : RecentExact ops s)
    (hok : Op.AddOk s hash entry) : RecentExact (ops ++ [.addUnchecked hash entry]) (s.addUnchecked hash entry) := by
  have hfresh : ∀ tx, s.Pooled tx → tx.hash ≠ entry.tx.hash := fun tx hp htx => by
    have hf : s.mapTx.find entry.GetHash = none := hok.hash_eq ▸ hok.fresh
    simp only [CTxMemPoolEntry.GetHash] at hf
    simp [Pooled, lookup, htx, hf] at hp
  have hr : (s.addUnchecked hash entry).RecentlyAddedPooled := hs.pooled.addUnchecked hok
  have hrec : (s.addUnchecked hash entry).mapRecentlyAddedTx = s.mapRecentlyAddedTx.insert entry.tx.hash entry.tx := by
    rw [addUnchecked_eq hok.hash_eq hok.fresh]
  refine ⟨hr, ?_, fun tx => ?_⟩
  · rw [StdMap.Ordered, hrec]
    exact StdMap.pairwise_insertList Uint256.compare_lt_trans Uint256.compare_lt_total _ _ hs.ordered
  rw [hr.mem_iff, pooled_addUnchecked hok, addedSinceNotify_append_singleton, hrec]
  simp only [Op.notifies, Op.pools, Bool.false_eq_true, if_false, Option.toList_some, List.mem_append,
    List.mem_singleton]
  constructor
  · intro h
    rcases StdMap.mem_insert h with h | h
    · obtain rfl : tx = entry.tx := (Prod.mk.inj h).2
      exact ⟨.inr rfl, .inr rfl⟩
    · obtain ⟨hp, ha⟩ := (hs.exact tx).1 (hs.pooled.mem_iff.2 h)
      exact ⟨.inl hp, .inl ha⟩
  · rintro ⟨hp, ha⟩
    rcases eq_or_ne tx entry.tx with rfl | hne
    · exact StdMap.mem_insertList_self _ _ _
    · have hp : s.Pooled tx := hp.resolve_right hne
      exact StdMap.mem_insertList_of_ne (hfresh tx hp)
        (hs.pooled.mem_iff.1 ((hs.exact tx).2 ⟨hp, ha.resolve_right hne⟩))

/-- `NotifyRecentlyAdded` drains the records, and nothing is pending after it. -/
theorem RecentExact.notify (regtest : Bool) :
    RecentExact (ops ++ [.NotifyRecentlyAdded regtest]) (s.NotifyRecentlyAdded regtest).2 := by
  refine ⟨fun _ hp => absurd hp (List.not_mem_nil _), List.Pairwise.nil, fun _ => iff_of_false (List.not_mem_nil _) ?_⟩
  rw [addedSinceNotify_append_singleton]
  exact fun h => List.not_mem_nil _ h.2

/-- Every allowed call other than `clear()` keeps the records exact, for the history grown by the call. -/
theorem RecentExact.step {op : Op} (hs : RecentExact ops s) (hop : op ≠ .clear) (ha : op.Allowed s)
    (h : op.apply s = some s') : RecentExact (ops ++ [op]) s' := by
  rcases call_cases ha h with ⟨_, _, rfl, hok, rfl⟩ | ⟨_, rfl, rfl⟩ | ⟨rfl, -⟩ | ⟨hp, hn, hrem | hb⟩
  · exact hs.addUnchecked hok
  · exact RecentExact.notify _
  · exact absurd rfl hop
  · exact (hrem _ (RecentExact.removalClosed ops) hs).of_added (addedSinceNotify_append_quiet hp hn ops).symm
  · exact (hs.of_bookkeepingOnly hb).of_added (addedSinceNotify_append_quiet hp hn ops).symm

/-- A run without `clear()` keeps the records exact, for the history grown by the run. -/
theorem RecentExact.run : ∀ {s ops' s'} {ops : List Op}, Op.Run s ops' s' → (∀ op ∈ ops', op ≠ .clear) → RecentExact ops s →
    RecentExact (ops ++ ops') s'
  | _, [], _, _, h, _, hs => by rw [List.append_nil]; exact h ▸ hs
  | _, op :: _, _, _, ⟨ha, _, happ, hrun⟩, hc, hs => by
    have := RecentExact.run hrun (fun o ho => hc o (List.mem_cons_of_mem _ ho))
      (hs.step (hc op (List.mem_cons_self _ _)) ha happ)
    rwa [List.append_assoc, List.singleton_append] at this

/-- The batch of `NotifyRecentlyAdded` is in increasing hash order when the records are exact. -/
theorem RecentExact.batch_sorted (hs : RecentExact ops s) (regtest : Bool) :
    ((s.NotifyRecentlyAdded regtest).1.map CTransaction.hash).Pairwise (· < ·) := by
  show ((s.mapRecentlyAddedTx.entries.map Prod.snd).map CTransaction.hash).Pairwise (· < ·)
  rw [List.map_map, List.pairwise_map]
  refine hs.ordered.imp_of_mem fun {p q} hp hq hpq => ?_
  rw [Function.comp_apply, Function.comp_apply, (hs.pooled p hp).2, (hs.pooled q hq).2]
  exact Nat.compare_eq_lt.1 hpq

end CTxMemPool

/-! ## The counts of the notifier protocol -/

/-- The notifier's part of the counting invariant, for `L` transactions pooled before it last began a batch and `N`
before the last batch it finished: idle, it has finished the batch it began last; syncing, it read `L` modulo `2^64`
and holds at most the `L - N` transactions pooled between the two. -/
def NotifierCounted : Notifier → Nat → Nat → Prop
  | .idle, L, N => N = L
  | .syncing recentlyAddedSequence txs, L, N => recentlyAddedSequence.toNat = L % 2 ^ 64 ∧ txs.length ≤ L - N

/-- The counting invariant of the notifier protocol in regtest, for `S` transactions pooled so far, `L` of them before
the notifier last began a batch and `N` before the last batch it finished: the sequence numbers hold `S` and `N`
modulo `2^64`, and the records are at most the `S - L` transactions pooled since the last batch began. -/
structure NotifyCounted (sys : NotifySystem) (S L N : Nat) : Prop where
  seq : sys.pool.nRecentlyAddedSequence.toNat = S % 2 ^ 64
  notified : sys.pool.nNotifiedSequence.toNat = N % 2 ^ 64
  le_began : N ≤ L
  began_le : L ≤ S
  recent : sys.pool.mapRecentlyAddedTx.entries.length ≤ S - L
  notifier : NotifierCounted sys.notifier L N

namespace NotifyCounted

open CTxMemPool

variable {s s' : CTxMemPool} {n : Notifier} {S L N : Nat}

theorem empty (fA fS : Bool) : NotifyCounted ⟨CTxMemPool.empty fA fS, .idle⟩ 0 0 0 :=
  ⟨rfl, rfl, le_refl _, le_refl _, le_refl _, rfl⟩

/-- The pool's part of the invariant, for fixed counts, survives a removal. -/
theorem removalClosed (seq notified : UInt64) (c : Nat) :
    RemovalClosed fun s : CTxMemPool => s.nRecentlyAddedSequence = seq ∧ s.nNotifiedSequence = notified ∧
      s.mapRecentlyAddedTx.entries.length ≤ c := by
  refine ⟨fun s h e hs _ => ?_, fun _ _ hs => hs⟩
  simp only [eraseEntry_nRecentlyAddedSequence, eraseEntry_nNotifiedSequence, eraseEntry_mapRecentlyAddedTx]
  exact ⟨hs.1, hs.2.1, (List.length_filter_le _ _).trans hs.2.2⟩

/-- A call by another thread: `addUnchecked` counts one more transaction and records at most one, and every other
call but `NotifyRecentlyAdded` leaves the counts and the number of records alone or lowers the latter. -/
theorem call {op : Op} (hc : NotifyCounted ⟨s, n⟩ S L N) (hn : op.notifies = false) (ha : op.Allowed s)
    (h : op.apply s = some s') : NotifyCounted ⟨s', n⟩ (S + op.pools.toList.length) L N := by
  rcases call_cases ha h with ⟨hash, entry, rfl, -, rfl⟩ | ⟨_, rfl, -⟩ | ⟨rfl, rfl⟩ | ⟨hp, -, hrem | hb⟩
  · have hseq : (s.nRecentlyAddedSequence + 1).toNat = (s.nRecentlyAddedSequence.toNat + 1) % 2 ^ 64 := rfl
    have hL := hc.began_le
    have hR : s.mapRecentlyAddedTx.entries.length ≤ S - L := hc.recent
    simp only [Op.pools, Option.toList_some, List.length_singleton]
    refine ⟨?_, hc.notified, hc.le_began, by omega, (StdMap.length_insertList _ _ _).trans (by omega), hc.notifier⟩
    show (s.nRecentlyAddedSequence + 1).toNat = _
    rw [hseq, hc.seq]
    omega
  · simp [Op.notifies] at hn
  · exact ⟨hc.seq, hc.notified, hc.le_began, hc.began_le, hc.recent, hc.notifier⟩
  · obtain ⟨hseq, hnot, hrec⟩ := hrem _ (removalClosed s.nRecentlyAddedSequence s.nNotifiedSequence (S - L))
      ⟨rfl, rfl, hc.recent⟩
    rw [hp, Option.toList_none, List.length_nil, Nat.add_zero]
    exact ⟨hseq ▸ hc.seq, hnot ▸ hc.notified, hc.le_began, hc.began_le, hrec, hc.notifier⟩
  · rw [hp, Option.toList_none, List.length_nil, Nat.add_zero, hb]
    exact ⟨hc.seq, hc.notified, hc.le_began, hc.began_le, hc.recent, hc.notifier⟩

/-- The notifier's first critical section: the batch is the records, and the last batch began now. -/
theorem begin (hc : NotifyCounted ⟨s, .idle⟩ S L N) :
    NotifyCounted ⟨s.notifyBegin.2.2, .syncing s.notifyBegin.1 s.notifyBegin.2.1⟩ S S N := by
  have hN : N = L := hc.notifier
  refine ⟨hc.seq, hc.notified, by have := hc.began_le; omega, le_refl _, Nat.zero_le _, hc.seq, ?_⟩
  show (s.mapRecentlyAddedTx.entries.map Prod.snd).length ≤ S - N
  rw [List.length_map, hN]
  exact hc.recent

/-- The notifier's second critical section, in regtest: the batch it began last is finished. -/
theorem finish {q : UInt64} {txs : List CTransaction} (hc : NotifyCounted ⟨s, .syncing q txs⟩ S L N) :
    NotifyCounted ⟨s.notifyEnd true q, .idle⟩ S L L :=
  ⟨hc.seq, hc.notifier.1, le_refl _, hc.began_le, hc.recent, rfl⟩

theorem length_filterMap_cons {α β : Type} (f : α → Option β) (a : α) (l : List α) :
    ((a :: l).filterMap f).length = (f a).toList.length + (l.filterMap f).length := by
  cases h : f a <;> simp [List.filterMap_cons, h, Nat.add_comm]

/-- Every run of the system in regtest keeps the invariant, counting the transactions the run pools. -/
theorem run : ∀ {sys es sys'} {S L N : Nat}, NotifyEvent.Run true sys es sys' → NotifyCounted sys S L N →
    ∃ L' N', NotifyCounted sys' (S + (es.filterMap NotifyEvent.pools).length) L' N'
  | _, [], _, _, L, N, h, hc => ⟨L, N, h ▸ hc⟩
  | ⟨s, n⟩, e :: es, _, S, L, N, ⟨ha, sys₁, happ, hrun⟩, hc => by
    rw [length_filterMap_cons, ← Nat.add_assoc]
    cases e with
    | call op =>
      obtain ⟨s₁, h₁, rfl⟩ := Option.map_eq_some'.1 happ
      exact run hrun (hc.call ha.2 ha.1 h₁)
    | begin =>
      cases n with
      | idle =>
        cases happ
        exact run hrun hc.begin
      | syncing => cases happ
    | finish =>
      cases n with
      | idle => cases happ
      | syncing q txs =>
        cases happ
        exact run hrun hc.finish

end NotifyCounted

/-! ## The atomic notification as a run of the system -/

namespace NotifyEvent

theorem Run.append {regtest : Bool} : ∀ {sys es₁ sys₁ es₂ sys₂}, Run regtest sys es₁ sys₁ → Run regtest sys₁ es₂ sys₂ →
    Run regtest sys (es₁ ++ es₂) sys₂
  | _, [], _, _, _, h₁, h₂ => h₁ ▸ h₂
  | _, _ :: _, _, _, _, ⟨ha, s₁, happ, hrun⟩, h₂ => ⟨ha, s₁, happ, Run.append hrun h₂⟩

/-- One allowed call, with `NotifyRecentlyAdded` made in the system's mode, is a run of the system from an idle
notifier to an idle notifier. -/
theorem run_ofOp {regtest : Bool} {op : Op} {s s' : CTxMemPool} (hr : ∀ r, op = .NotifyRecentlyAdded r → r = regtest)
    (ha : op.Allowed s) (h : op.apply s = some s') : Run regtest ⟨s, .idle⟩ (ofOp op) ⟨s', .idle⟩ := by
  cases op
  case NotifyRecentlyAdded r =>
    obtain rfl := hr r rfl
    simp only [Op.apply, Option.some.injEq] at h
    subst h
    exact ⟨trivial, _, rfl, trivial, _, rfl, by cases r <;> rfl⟩
  all_goals exact ⟨⟨ha, rfl⟩, _, by rw [apply, h]; rfl, rfl⟩

/-- Every run of calls whose notifications are made in the system's mode is a run of the system from an idle notifier
to an idle notifier, each notification being the notifier's two critical sections back to back. -/
theorem run_flatMap_ofOp {regtest : Bool} : ∀ {s ops s'}, Op.Run s ops s' →
    (∀ r, .NotifyRecentlyAdded r ∈ ops → r = regtest) →
    Run regtest ⟨s, .idle⟩ (ops.flatMap ofOp) ⟨s', .idle⟩
  | _, [], _, h, _ => h ▸ rfl
  | _, _ :: _, _, ⟨ha, _, happ, hrun⟩, hr => by
    rw [List.flatMap_cons]
    exact (run_ofOp (fun r hop => hr r (hop ▸ List.mem_cons_self _ _)) ha happ).append
      (run_flatMap_ofOp hrun fun r hm => hr r (List.mem_cons_of_mem _ hm))

end NotifyEvent

end VerusCoin
