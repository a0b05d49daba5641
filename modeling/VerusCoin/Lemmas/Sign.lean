import Mathlib.Data.List.Sort
import VerusCoin.Sign
import VerusCoin.Lemmas.PruneSpent

/-!
# The signature merge: the order, the set and the matching

`compareBytes` is a strict total order, so `allsigs` is the list of the non-empty elements of both stacks in that
order, whichever stack they come from (`allSigs_comm`). One pass of the outer loop of `CombineMultisig` serves at
most one key (`matchSig_cases`), and the loop keeps the map of key to signature a `Matching`: each served key is a key
of the script that accepts its signature, no signature serves two keys, and a signature a key accepts serves a key
unless that key is served. `pushSigs_eq` says what the loop that builds the stack pushes.
-/

namespace VerusCoin

/-! ## The order of `std::vector<unsigned char>` -/

theorem compare_valtype (a b : valtype) : compare a b = compareBytes a b := rfl

theorem compareBytes_swap : ∀ a b : valtype, (compareBytes a b).swap = compareBytes b a
  | [], [] => rfl
  | [], _ :: _ => rfl
  | _ :: _, [] => rfl
  | x :: xs, y :: ys => by
    rw [compareBytes, compareBytes, Ordering.swap_then, Nat.compare_swap, compareBytes_swap xs ys]

theorem compareBytes_eq_iff : ∀ {a b : valtype}, compareBytes a b = .eq ↔ a = b
  | [], [] => iff_of_true rfl rfl
  | [], _ :: _ => iff_of_false (fun h => by cases h) (List.cons_ne_nil _ _).symm
  | _ :: _, [] => iff_of_false (fun h => by cases h) (List.cons_ne_nil _ _)
  | x :: xs, y :: ys => by
    rw [compareBytes, Ordering.then_eq_eq, Nat.compare_eq_eq, compareBytes_eq_iff, List.cons.injEq]
    exact and_congr_left' ⟨UInt8.toNat.inj, congrArg _⟩

theorem compareBytes_lt_trans : ∀ {a b c : valtype}, compareBytes a b = .lt → compareBytes b c = .lt →
    compareBytes a c = .lt
  | [], _ :: _, _ :: _, _, _ => rfl
  | _, [], [], _, h => by cases h
  | _, _ :: _, [], _, h => by cases h
  | [], [], _ :: _, h, _ => by cases h
  | _ :: _, [], _ :: _, h, _ => by cases h
  | x :: xs, y :: ys, z :: zs, h1, h2 => by
    rw [compareBytes, Ordering.then_eq_lt, Nat.compare_eq_lt, Nat.compare_eq_eq] at h1 h2 ⊢
    rcases h1 with h1 | ⟨h1, h1'⟩ <;> rcases h2 with h2 | ⟨h2, h2'⟩
    · exact .inl (h1.trans h2)
    · exact .inl (h2 ▸ h1)
    · exact .inl (h1 ▸ h2)
    · exact .inr ⟨h1.trans h2, compareBytes_lt_trans h1' h2'⟩

theorem compareBytes_lt_asymm {a b : valtype} (h : compareBytes a b = .lt) : compareBytes b a ≠ .lt := by
  rw [← compareBytes_swap, h]
  decide

theorem compareBytes_lt_of_ne {a b : valtype} (hne : a ≠ b) (h : compareBytes a b ≠ .lt) :
    compareBytes b a = .lt := by
  rw [← compareBytes_swap]
  cases hab : compareBytes a b
  · exact absurd hab h
  · exact absurd (compareBytes_eq_iff.1 hab) hne
  · rfl

/-! ## The set of signatures -/

theorem find_addSig (m : StdMap valtype Unit) (v k : valtype) :
    (addSig m v).find k = if k = v ∧ v ≠ [] then some () else m.find k := by
  unfold addSig
  by_cases hv : v = []
  · simp [hv]
  · simp [hv, List.isEmpty_iff]

theorem find_foldl_addSig (k : valtype) : ∀ (l : List valtype) (m : StdMap valtype Unit),
    (l.foldl addSig m).find k = if k ∈ l ∧ k ≠ [] then some () else m.find k
  | [], m => by simp
  | v :: l, m => by
    rw [List.foldl_cons, find_foldl_addSig k l, find_addSig]
    by_cases hv : k = v
    · subst hv
      by_cases hk : k = [] <;> simp [hk]
    · simp [hv]

theorem find_allSigs (sigs1 sigs2 : List valtype) (k : valtype) :
    (allSigs sigs1 sigs2).find k = if k ∈ sigs1 ++ sigs2 ∧ k ≠ [] then some () else none := by
  rw [allSigs, find_foldl_addSig, find_foldl_addSig, StdMap.find_empty]
  by_cases hk : k = [] <;> by_cases h1 : k ∈ sigs1 <;> simp [hk, h1]

theorem ordered_foldl_addSig : ∀ (l : List valtype) {m : StdMap valtype Unit}, m.Ordered → (l.foldl addSig m).Ordered
  | [], _, h => h
  | v :: l, m, h => ordered_foldl_addSig l <| by
    unfold addSig
    split
    · exact h
    · exact StdMap.pairwise_insertList (fun _ _ _ => compareBytes_lt_trans) (fun _ _ => compareBytes_lt_of_ne) v () h

theorem ordered_allSigs (sigs1 sigs2 : List valtype) : (allSigs sigs1 sigs2).Ordered :=
  ordered_foldl_addSig _ (ordered_foldl_addSig _ List.Pairwise.nil)

/-- Keys in strictly increasing order are distinct. -/
theorem nodup_of_ordered {V : Type} {l : List (valtype × V)} (h : l.Pairwise fun p q => compare p.1 q.1 = .lt) :
    (l.map Prod.fst).Nodup :=
  have hk : (l.map Prod.fst).Pairwise fun a b => compare a b = .lt := List.pairwise_map.2 h
  hk.imp fun {a _} hab heq => by
    subst heq
    rw [compare_valtype, compareBytes_eq_iff.2 rfl] at hab
    cases hab

/-- A set of byte vectors kept in order is determined by its members. -/
theorem StdMap.entries_eq_of_find {m m' : StdMap valtype Unit} (h : m.Ordered) (h' : m'.Ordered)
    (hf : ∀ k, m.find k = m'.find k) : m.entries = m'.entries := by
  haveI : IsAntisymm (valtype × Unit) fun p q => compare p.1 q.1 = .lt :=
    ⟨fun _ _ hab hba => absurd hba (compareBytes_lt_asymm hab)⟩
  have hmem : ∀ {m : StdMap valtype Unit} (p : valtype × Unit), p ∈ m.entries ↔ m.find p.1 = some () :=
    fun p => ⟨fun hp => (StdMap.exists_find_of_mem hp).elim fun _ h => h, StdMap.mem_of_find_eq_some⟩
  refine List.eq_of_perm_of_sorted ((List.perm_ext_iff_of_nodup ?_ ?_).2 fun p => ?_) h h'
  · exact (nodup_of_ordered h).of_map _
  · exact (nodup_of_ordered h').of_map _
  · rw [hmem, hmem, hf]

/-- `allsigs` does not depend on which stack a signature comes from. -/
theorem allSigs_comm (sigs1 sigs2 : List valtype) : (allSigs sigs1 sigs2).entries = (allSigs sigs2 sigs1).entries :=
  StdMap.entries_eq_of_find (ordered_allSigs _ _) (ordered_allSigs _ _) fun k => by
    simp only [find_allSigs, List.mem_append, or_comm]

/-- The signatures `CombineMultisig` walks: the non-empty elements of both stacks, each once. -/
theorem mem_allSigs_keys {sigs1 sigs2 : List valtype} {s : valtype} :
    s ∈ (allSigs sigs1 sigs2).entries.map Prod.fst ↔ s ∈ sigs1 ++ sigs2 ∧ s ≠ [] := by
  constructor
  · intro hs
    obtain ⟨p, hp, rfl⟩ := List.mem_map.1 hs
    obtain ⟨_, hf⟩ := StdMap.exists_find_of_mem hp
    rw [find_allSigs] at hf
    split_ifs at hf with hk
    · exact hk
  · intro hs
    have hf := find_allSigs sigs1 sigs2 s
    rw [if_pos hs] at hf
    exact List.mem_map.2 ⟨_, StdMap.mem_of_find_eq_some hf, rfl⟩

/-! ## One signature -/

variable {CheckSig : valtype → valtype → Bool} {pubkeys done : List valtype} {sigs : StdMap valtype valtype}

/-- One pass of the outer loop: no key takes the signature, and then every key that accepts it is served already, or
the first key not yet served that accepts it takes it. -/
theorem matchSig_cases (sig : valtype) (sigs : StdMap valtype valtype) : ∀ pubkeys,
    (matchSig CheckSig sig sigs pubkeys = sigs ∧ ∀ pk ∈ pubkeys, CheckSig sig pk = true → (sigs.find pk).isSome) ∨
      ∃ pk ∈ pubkeys, sigs.find pk = none ∧ CheckSig sig pk = true ∧
        matchSig CheckSig sig sigs pubkeys = sigs.insert pk sig
  | [] => .inl ⟨rfl, fun _ h => absurd h (List.not_mem_nil _)⟩
  | pk :: pubkeys => by
    by_cases hserve : sigs.find pk = none ∧ CheckSig sig pk = true
    · refine .inr ⟨pk, List.mem_cons_self _ _, hserve.1, hserve.2, ?_⟩
      simp [matchSig, hserve.1, hserve.2]
    · -- `pk` is served already or does not accept the signature: the loop goes on
      have hpk : CheckSig sig pk = true → (sigs.find pk).isSome := fun hs =>
        Option.ne_none_iff_isSome.1 fun hn => hserve ⟨hn, hs⟩
      have hskip : matchSig CheckSig sig sigs (pk :: pubkeys) = matchSig CheckSig sig sigs pubkeys := by
        by_cases hc : (sigs.find pk).isSome <;> simp_all [matchSig]
      rw [hskip]
      rcases matchSig_cases sig sigs pubkeys with ⟨he, hall⟩ | ⟨pk', hm, hn, hs, he⟩
      · refine .inl ⟨he, fun q hq hs => ?_⟩
        rcases List.mem_cons.1 hq with rfl | hq
        exacts [hpk hs, hall q hq hs]
      · exact .inr ⟨pk', List.mem_cons_of_mem _ hm, hn, hs, he⟩

/-! ## The matching -/

/-- The map of key to signature after the signatures `done`: each served key is a key of the script that accepts its
signature, one of `done`; no signature serves two keys; and a signature of `done` that a key accepts serves a key,
unless that key is served. -/
structure Matching (CheckSig : valtype → valtype → Bool) (pubkeys done : List valtype)
    (sigs : StdMap valtype valtype) : Prop where
  sound : ∀ pk s, sigs.find pk = some s → pk ∈ pubkeys ∧ s ∈ done ∧ CheckSig s pk = true
  inj : ∀ pk pk' s, sigs.find pk = some s → sigs.find pk' = some s → pk = pk'
  maximal : ∀ s ∈ done, ∀ pk ∈ pubkeys, CheckSig s pk = true → (sigs.find pk).isSome ∨ ∃ pk', sigs.find pk' = some s

theorem Matching.empty : Matching CheckSig pubkeys [] .empty :=
  ⟨fun _ _ h => (by cases h), fun _ _ _ h => (by cases h), fun _ h => absurd h (List.not_mem_nil _)⟩

theorem Matching.sound_append (h : Matching CheckSig pubkeys done sigs) (s : valtype) {pk s'} (hf : sigs.find pk = some s') :
    pk ∈ pubkeys ∧ s' ∈ done ++ [s] ∧ CheckSig s' pk = true :=
  (h.sound pk s' hf).imp_right (And.imp_left (List.mem_append_left _))

/-- A signature no key takes: every key accepting it is served already. -/
theorem Matching.skip (h : Matching CheckSig pubkeys done sigs)
    (hall : ∀ pk ∈ pubkeys, CheckSig s pk = true → (sigs.find pk).isSome) : Matching CheckSig pubkeys (done ++ [s]) sigs := by
  refine ⟨fun _ _ => h.sound_append s, h.inj, fun s' hs' pk hpk hacc => ?_⟩
  rcases List.mem_append.1 hs' with hs' | hs'
  · exact h.maximal s' hs' pk hpk hacc
  · rw [List.mem_singleton.1 hs'] at hacc
    exact .inl (hall pk hpk hacc)

/-- A new signature taken by a key not yet served that accepts it. -/
theorem Matching.serve (h : Matching CheckSig pubkeys done sigs) (hs : s ∉ done) {pk : valtype} (hpk : pk ∈ pubkeys)
    (hfresh : sigs.find pk = none) (hacc : CheckSig s pk = true) :
    Matching CheckSig pubkeys (done ++ [s]) (sigs.insert pk s) := by
  have hnew : ∀ q, sigs.find q ≠ some s := fun q hq => hs (h.sound q s hq).2.1
  refine ⟨fun q s' hf => ?_, fun q q' s' hq hq' => ?_, fun s' hs' q hq hacc' => ?_⟩
  · rw [StdMap.find_insert] at hf
    split_ifs at hf with hqk
    · cases hf
      subst hqk
      exact ⟨hpk, List.mem_append_right _ (List.mem_singleton_self _), hacc⟩
    · exact h.sound_append s hf
  · rw [StdMap.find_insert] at hq hq'
    split_ifs at hq hq' with h1 h2 h2
    · exact h1.trans h2.symm
    · cases hq
      exact absurd hq' (hnew q')
    · cases hq'
      exact absurd hq (hnew q)
    · exact h.inj q q' s' hq hq'
  · simp only [StdMap.find_insert]
    rcases List.mem_append.1 hs' with hs' | hs'
    · rcases h.maximal s' hs' q hq hacc' with hq' | ⟨q', hq'⟩
      · exact .inl (by split_ifs <;> simp [hq'])
      · refine .inr ⟨q', ?_⟩
        rw [if_neg fun hqk => by rw [hqk, hfresh] at hq'; cases hq']
        exact hq'
    · exact .inr ⟨pk, by rw [List.mem_singleton.1 hs', if_pos rfl]⟩

theorem Matching.step (h : Matching CheckSig pubkeys done sigs) (hs : s ∉ done) :
    Matching CheckSig pubkeys (done ++ [s]) (matchSig CheckSig s sigs pubkeys) := by
  rcases matchSig_cases s sigs pubkeys with ⟨he, hall⟩ | ⟨pk, hpk, hfresh, hacc, he⟩
  · rw [he]
    exact h.skip hall
  · rw [he]
    exact h.serve hs hpk hfresh hacc

/-- The outer loop over distinct signatures keeps the map a matching. -/
theorem Matching.foldl : ∀ (l : List valtype) {done : List valtype} {sigs : StdMap valtype valtype},
    (done ++ l).Nodup → Matching CheckSig pubkeys done sigs →
      Matching CheckSig pubkeys (done ++ l) (l.foldl (fun sigs s => matchSig CheckSig s sigs pubkeys) sigs)
  | [], _, _, _, h => by rwa [List.append_nil]
  | s :: l, done, _, hnd, h => by
    have hs : s ∉ done := fun hs => (List.nodup_append.1 hnd).2.2 hs (List.mem_cons_self _ _)
    have := Matching.foldl l (by rwa [List.append_assoc, List.singleton_append]) (h.step hs)
    rwa [List.append_assoc, List.singleton_append] at this

theorem matching_matchSigs (CheckSig : valtype → valtype → Bool) (pubkeys sigs1 sigs2 : List valtype) :
    Matching CheckSig pubkeys ((allSigs sigs1 sigs2).entries.map Prod.fst)
      (matchSigs CheckSig pubkeys (allSigs sigs1 sigs2)) := by
  have h : Matching CheckSig pubkeys ([] ++ (allSigs sigs1 sigs2).entries.map Prod.fst)
      (((allSigs sigs1 sigs2).entries.map Prod.fst).foldl (fun sigs s => matchSig CheckSig s sigs pubkeys) .empty) :=
    Matching.foldl _ (nodup_of_ordered (ordered_allSigs sigs1 sigs2)) Matching.empty
  rwa [List.nil_append, List.foldl_map] at h

/-! ## The merged stack -/

/-- The building loop, from `nSigsHave = n ≤ nSigsRequired`, pushes the signatures of the served keys in key order
until `nSigsRequired` are in. -/
theorem pushSigs_eq (sigs : StdMap valtype valtype) (k : Nat) : ∀ (pubkeys result : List valtype) (n : Nat), n ≤ k →
    pushSigs sigs k pubkeys (result, n) =
      (result ++ (pubkeys.filterMap sigs.find).take (k - n), n + min (k - n) (pubkeys.filterMap sigs.find).length)
  | [], result, n, _ => by simp [pushSigs]
  | pk :: pubkeys, result, n, hn => by
    rw [pushSigs]
    by_cases hlt : n < k
    · rw [if_pos hlt, List.filterMap_cons]
      cases sigs.find pk with
      | none => exact pushSigs_eq sigs k pubkeys result n hn
      | some sig =>
        simp only
        rw [pushSigs_eq sigs k pubkeys _ (n + 1) hlt]
        obtain ⟨j, hj⟩ : ∃ j, k - n = j + 1 := ⟨k - n - 1, by omega⟩
        rw [hj, List.take_succ_cons, show k - (n + 1) = j by omega, List.append_assoc, List.singleton_append,
          List.length_cons, Prod.mk.injEq]
        exact ⟨rfl, by omega⟩
    · rw [if_neg hlt, show k - n = 0 by omega]
      simp

/-- `CombineMultisig` on a solution `[nRequired, pubkey₁, ..., pubkeyₙ, n]`: `OP_0`, the signatures of the served keys
in key order, at most `nRequired` of them, then empty elements up to `nRequired`. -/
theorem combineMultisig_eq (CheckSig : valtype → valtype → Bool) (nRequired : UInt8) (front : List UInt8)
    {rest : List valtype} (hrest : rest ≠ []) (sigs1 sigs2 : List valtype) :
    CombineMultisig CheckSig ((nRequired :: front) :: rest) sigs1 sigs2 =
      some ([] :: ((rest.dropLast.filterMap (matchSigs CheckSig rest.dropLast (allSigs sigs1 sigs2)).find).take
          nRequired.toNat ++
        List.replicate (nRequired.toNat -
          (rest.dropLast.filterMap (matchSigs CheckSig rest.dropLast (allSigs sigs1 sigs2)).find).length) [])) := by
  obtain ⟨r, rs, rfl⟩ := List.exists_cons_of_ne_nil hrest
  have hpk : (r :: rs).take (((nRequired :: front) :: r :: rs).length - 2) = (r :: rs).dropLast := by
    rw [List.dropLast_eq_take, List.length_cons, List.length_cons]
    rfl
  simp only [CombineMultisig, hpk, pushSigs_eq _ _ _ _ _ (Nat.zero_le _), Nat.sub_zero, Nat.zero_add,
    List.singleton_append, List.cons_append]
  rw [show ∀ k l : Nat, k - min k l = k - l from fun _ _ => by omega, List.nil_append]

/-- Every element of the stack `CombineMultisig` builds is an element of one of the two stacks, or empty. -/
theorem mem_combineMultisig {vSolutions sigs1 sigs2 result : List valtype}
    (h : CombineMultisig CheckSig vSolutions sigs1 sigs2 = some result) {v : valtype} (hv : v ∈ result) :
    v ∈ sigs1 ++ sigs2 ∨ v = [] := by
  match vSolutions, h with
  | [], h => cases h
  | [] :: _, h => cases h
  | (_ :: _) :: [], h => cases h
  | (nRequired :: front) :: r :: rs, h =>
    rw [combineMultisig_eq CheckSig nRequired front (List.cons_ne_nil r rs), Option.some.injEq] at h
    subst h
    rcases List.mem_cons.1 hv with rfl | hv
    · exact .inr rfl
    rcases List.mem_append.1 hv with hv | hv
    · obtain ⟨pk, -, hf⟩ := List.mem_filterMap.1 (List.mem_of_mem_take hv)
      exact .inl (mem_allSigs_keys.1 ((matching_matchSigs CheckSig _ sigs1 sigs2).sound pk v hf).2.1).1
    · exact .inr (List.eq_of_mem_replicate hv)

/-- Under a checker that accepts each signature for at most one key, the keys `CombineMultisig` serves are exactly the
keys of the script that a non-empty element of one of the two stacks signs. -/
theorem isSome_find_matchSigs_iff (hone : ∀ s pk pk', CheckSig s pk = true → CheckSig s pk' = true → pk = pk')
    {pk : valtype} (hpk : pk ∈ pubkeys) (sigs1 sigs2 : List valtype) :
    ((matchSigs CheckSig pubkeys (allSigs sigs1 sigs2)).find pk).isSome ↔
      ∃ s ∈ sigs1 ++ sigs2, s ≠ [] ∧ CheckSig s pk = true := by
  have hm := matching_matchSigs CheckSig pubkeys sigs1 sigs2
  constructor
  · intro hs
    obtain ⟨s, hf⟩ := Option.isSome_iff_exists.1 hs
    obtain ⟨-, hs, hacc⟩ := hm.sound pk s hf
    exact ⟨s, (mem_allSigs_keys.1 hs).1, (mem_allSigs_keys.1 hs).2, hacc⟩
  · rintro ⟨s, hs, hne, hacc⟩
    rcases hm.maximal s (mem_allSigs_keys.2 ⟨hs, hne⟩) pk hpk hacc with h | ⟨pk', hf⟩
    · exact h
    -- the key `s` serves accepts it, so it is `pk`
    · rw [hone s pk' pk (hm.sound pk' s hf).2.2 hacc] at hf
      rw [hf]
      rfl

end VerusCoin
