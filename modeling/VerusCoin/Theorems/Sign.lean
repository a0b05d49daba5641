import VerusCoin.Lemmas.Sign

/-!
# What merging two partial signings produces

For every checker and every two stacks, `CombineMultisig` serves the keys of a multisig script by a maximal matching
of the signatures to the keys that accept them, and builds `OP_0`, the signatures of the served keys in key order up
to the number required, and empty elements up to that number. The result does not depend on which stack a
signature comes from. Under a checker that accepts each signature for at most one key, the merged stack holds as many
signatures as required, or as many as the keys either stack signed. Whatever the output script's type,
`CombineSignatures` returns only elements of the two stacks and empty ones.
-/

namespace VerusCoin

/-- For every checker, every multisig solution `[nRequired, pubkey₁, ..., pubkeyₙ, n]` and every two stacks,
`CombineMultisig` serves the keys by a maximal matching: a served key is one of the script's and accepts its
signature, a non-empty element of one of the stacks; no signature serves two keys; and a non-empty element a key
accepts serves a key, unless that key is served. The merged stack is `OP_0`, the signatures of the served keys in key
order, at most `nRequired` of them, and empty elements up to `nRequired`. -/
theorem combineMultisig_maximal_matching (CheckSig : valtype → valtype → Bool) (nRequired : UInt8)
    (front : List UInt8) {rest : List valtype} (hrest : rest ≠ []) (sigs1 sigs2 : List valtype) :
    ∃ serve : valtype → Option valtype,
      (∀ pk s, serve pk = some s → pk ∈ rest.dropLast ∧ s ∈ sigs1 ++ sigs2 ∧ s ≠ [] ∧ CheckSig s pk = true) ∧
      (∀ pk pk' s, serve pk = some s → serve pk' = some s → pk = pk') ∧
      (∀ s ∈ sigs1 ++ sigs2, s ≠ [] → ∀ pk ∈ rest.dropLast, CheckSig s pk = true →
        (serve pk).isSome ∨ ∃ pk', serve pk' = some s) ∧
      CombineMultisig CheckSig ((nRequired :: front) :: rest) sigs1 sigs2 =
        some ([] :: ((rest.dropLast.filterMap serve).take nRequired.toNat ++
          List.replicate (nRequired.toNat - (rest.dropLast.filterMap serve).length) [])) := by
  have hm := matching_matchSigs CheckSig rest.dropLast sigs1 sigs2
  refine ⟨_, fun pk s hf => ?_, hm.inj, fun s hs hne => hm.maximal s (mem_allSigs_keys.2 ⟨hs, hne⟩),
    combineMultisig_eq CheckSig nRequired front hrest sigs1 sigs2⟩
  obtain ⟨hpk, hs, hacc⟩ := hm.sound pk s hf
  exact ⟨hpk, (mem_allSigs_keys.1 hs).1, (mem_allSigs_keys.1 hs).2, hacc⟩

/-- Two of three keys `[1]`, `[2]`, `[3]` (the last listed twice), a checker that accepts a signature equal to the
key, and two stacks signed by `[1]` and by `[3]` and `[1]`. -/
theorem combineMultisig_maximal_matching_twoOfThree : ([[1], [2], [3], [3]] : List valtype) ≠ [] ∧
    ∃ serve : valtype → Option valtype,
      (∀ pk s, serve pk = some s → pk ∈ ([[1], [2], [3], [3]] : List valtype).dropLast ∧
        s ∈ [[1], []] ++ [[3], [1]] ∧ s ≠ [] ∧ (s == pk) = true) ∧
      (∀ pk pk' s, serve pk = some s → serve pk' = some s → pk = pk') ∧
      (∀ s ∈ ([[1], []] ++ [[3], [1]] : List valtype), s ≠ [] →
        ∀ pk ∈ ([[1], [2], [3], [3]] : List valtype).dropLast, (s == pk) = true →
          (serve pk).isSome ∨ ∃ pk', serve pk' = some s) ∧
      CombineMultisig (fun s pk => s == pk) [[2], [1], [2], [3], [3]] [[1], []] [[3], [1]] =
        some ([] :: ((([[1], [2], [3], [3]] : List valtype).dropLast.filterMap serve).take (2 : UInt8).toNat ++
          List.replicate ((2 : UInt8).toNat - (([[1], [2], [3], [3]] : List valtype).dropLast.filterMap serve).length)
            [])) :=
  ⟨by decide, combineMultisig_maximal_matching (fun s pk => s == pk) 2 [] (by decide) [[1], []] [[3], [1]]⟩

/-- The merge serves `[1]` and `[3]`. -/
example : CombineMultisig (fun s pk => s == pk) [[2], [1], [2], [3], [3]] [[1], []] [[3], [1]] =
    some [[], [1], [3]] := by decide

/-- `CombineMultisig` does not depend on the order of the two stacks: `allsigs` is a `std::set`, walked in its own
order. -/
theorem combineMultisig_comm (CheckSig : valtype → valtype → Bool) (vSolutions sigs1 sigs2 : List valtype) :
    CombineMultisig CheckSig vSolutions sigs1 sigs2 = CombineMultisig CheckSig vSolutions sigs2 sigs1 := by
  unfold CombineMultisig matchSigs
  rw [allSigs_comm]

/-- Under a checker that accepts each signature for at most one key, the merged stack has `nRequired + 1` elements,
and its non-empty ones are as many as required, or as many as the keys of the script (counted as listed) that a
non-empty element of one of the two stacks signs. -/
theorem combineMultisig_signed_count (CheckSig : valtype → valtype → Bool) (nRequired : UInt8) (front : List UInt8)
    {rest : List valtype} (hrest : rest ≠ []) (sigs1 sigs2 : List valtype)
    (hone : ∀ s pk pk', CheckSig s pk = true → CheckSig s pk' = true → pk = pk') :
    ∃ result, CombineMultisig CheckSig ((nRequired :: front) :: rest) sigs1 sigs2 = some result ∧
      result.length = nRequired.toNat + 1 ∧
      (result.filter fun v => !v.isEmpty).length =
        min nRequired.toNat
          (rest.dropLast.filter fun pk => (sigs1 ++ sigs2).any fun s => !s.isEmpty && CheckSig s pk).length := by
  have hm := matching_matchSigs CheckSig rest.dropLast sigs1 sigs2
  refine ⟨_, combineMultisig_eq CheckSig nRequired front hrest sigs1 sigs2, ?_, ?_⟩
  · simp only [List.length_cons, List.length_append, List.length_take, List.length_replicate]
    omega
  -- the served keys' signatures are not empty, and the served keys are the signed ones
  have hne : ∀ v ∈ rest.dropLast.filterMap (matchSigs CheckSig rest.dropLast (allSigs sigs1 sigs2)).find,
      (!v.isEmpty) = true := fun v hv => by
    obtain ⟨pk, -, hf⟩ := List.mem_filterMap.1 hv
    simpa [List.isEmpty_iff] using (mem_allSigs_keys.1 (hm.sound pk v hf).2.1).2
  have hcount : (rest.dropLast.filterMap (matchSigs CheckSig rest.dropLast (allSigs sigs1 sigs2)).find).length =
      (rest.dropLast.filter fun pk => (sigs1 ++ sigs2).any fun s => !s.isEmpty && CheckSig s pk).length := by
    rw [List.length_filterMap_eq_countP, List.countP_eq_length_filter]
    congr 1
    refine List.filter_congr fun pk hpk => Bool.eq_iff_iff.2 ?_
    rw [isSome_find_matchSigs_iff hone hpk, List.any_eq_true]
    simp [List.isEmpty_iff]
  rw [List.filter_cons_of_neg (by simp), List.filter_append, List.filter_eq_self.2 fun v hv => hne v
    (List.mem_of_mem_take hv), List.filter_eq_nil_iff.2 fun v hv => by simp [List.eq_of_mem_replicate hv],
    List.append_nil, List.length_take, hcount]

/-- The checker that accepts a signature equal to the key accepts each for at most one key. -/
theorem combineMultisig_signed_count_twoOfThree : ([[1], [2], [3], [3]] : List valtype) ≠ [] ∧
    (∀ s pk pk' : valtype, (s == pk) = true → (s == pk') = true → pk = pk') ∧
    ∃ result, CombineMultisig (fun s pk => s == pk) [[2], [1], [2], [3], [3]] [[1], []] [[3], [1]] = some result ∧
      result.length = (2 : UInt8).toNat + 1 ∧
      (result.filter fun v => !v.isEmpty).length =
        min (2 : UInt8).toNat ((([[1], [2], [3], [3]] : List valtype).dropLast.filter fun pk =>
          ([[1], []] ++ [[3], [1]] : List valtype).any fun s => !s.isEmpty && s == pk).length) :=
  have hone : ∀ s pk pk' : valtype, (s == pk) = true → (s == pk') = true → pk = pk' := fun _ _ _ h h' =>
    (beq_iff_eq.1 h).symm.trans (beq_iff_eq.1 h')
  ⟨by decide, hone, combineMultisig_signed_count (fun s pk => s == pk) 2 [] (by decide) [[1], []] [[3], [1]] hone⟩

/-- Without that condition the greedy matching can miss: a checker that accepts `[1, 0]` for both keys `[1]` and `[2]`
and `[2, 0]` for `[1]` alone serves `[1]` with `[1, 0]` first, and `[2, 0]` finds no key left, although serving `[2]`
with `[1, 0]` and `[1]` with `[2, 0]` completes the two of two. -/
example : CombineMultisig (fun s pk => s.head? == some 1 || s == [2, 0] && pk == [1]) [[2], [1], [2], [2]]
    [[1, 0]] [[2, 0]] = some [[], [1, 0], []] := by decide

/-- Whatever the output script's type, its solutions, the checker and `Solver`, the stack `CombineSignatures` returns
holds only elements of the two stacks and empty elements: it keeps one stack, recurs on a redeem script the first
stack ends with and puts it back, or merges signatures with `CombineMultisig`. -/
theorem combineSignatures_from_inputs (CheckSig : valtype → valtype → valtype → Bool)
    (Solver : valtype → txnouttype × List valtype) (scriptPubKey : valtype) (txType : txnouttype)
    (vSolutions sigs1 sigs2 : List valtype) {result : List valtype}
    (h : CombineSignatures CheckSig Solver scriptPubKey txType vSolutions sigs1 sigs2 = some result) :
    ∀ v ∈ result, v ∈ sigs1 ∨ v ∈ sigs2 ∨ v = [] := by
  induction scriptPubKey, txType, vSolutions, sigs1, sigs2 using CombineSignatures.induct CheckSig Solver
    generalizing result with
  -- the types it does not know and the single-key types keep one of the two stacks
  | case1 | case2 | case3 | case4 | case5 =>
    rw [CombineSignatures, Option.some.injEq] at h
    subst h
    intro v hv
    split at hv
    all_goals first | exact .inl hv | exact .inr (.inl hv)
  | case6 _ _ _ _ h1 =>
    rw [CombineSignatures, dif_pos h1, Option.some.injEq] at h
    exact fun v hv => .inr (.inl (h ▸ hv))
  | case7 _ _ _ _ h1 h2 =>
    rw [CombineSignatures, dif_neg h1, if_pos h2, Option.some.injEq] at h
    exact fun v hv => .inl (h ▸ hv)
  | case8 scriptPubKey vSolutions sigs1 sigs2 h1 h2 spk txType2 vSolutions2 hsolve =>
    rename_i ih
    -- the redeem script is the first stack's last element, put back after the merge of the rest
    rw [CombineSignatures, dif_neg h1, if_neg h2] at h
    simp only [hsolve, Option.map_eq_some'] at h
    obtain ⟨inner, hinner, rfl⟩ := h
    intro v hv
    rcases List.mem_append.1 hv with hv | hv
    · rcases ih hinner v hv with hv | hv | hv
      exacts [.inl (List.dropLast_subset _ hv), .inr (.inl (List.dropLast_subset _ hv)), .inr (.inr hv)]
    · have hne : sigs1 ≠ [] := fun he => h1 (by rw [he]; rfl)
      rw [List.mem_singleton.1 hv, List.getLastD_eq_getLast?, List.getLast?_eq_getLast _ hne]
      exact .inl (List.getLast_mem hne)
  | case9 =>
    rw [CombineSignatures] at h
    intro v hv
    rcases mem_combineMultisig h hv with hv | hv
    · exact (List.mem_append.1 hv).elim .inl (.inr ∘ .inl)
    · exact .inr (.inr hv)

/-- A pay-to-script-hash output over two of three keys, the two stacks ending with the same redeem script. -/
theorem combineSignatures_from_inputs_scriptHash :
    CombineSignatures (fun s pk _ => s == pk) (fun _ => (.TX_MULTISIG, [[2], [1], [2], [3], [3]])) [] .TX_SCRIPTHASH []
        [[], [1], [9]] [[], [3], [9]] = some [[], [1], [3], [9]] ∧
      ∀ v ∈ ([[], [1], [3], [9]] : List valtype),
        v ∈ ([[], [1], [9]] : List valtype) ∨ v ∈ ([[], [3], [9]] : List valtype) ∨ v = [] :=
  have h : CombineSignatures (fun s pk _ => s == pk) (fun _ => (.TX_MULTISIG, [[2], [1], [2], [3], [3]])) []
      .TX_SCRIPTHASH [] [[], [1], [9]] [[], [3], [9]] = some [[], [1], [3], [9]] := by
    rw [CombineSignatures, dif_neg (by decide), if_neg (by decide)]
    simp only
    rw [CombineSignatures]
    decide
  ⟨h, combineSignatures_from_inputs _ _ _ _ _ _ _ h⟩

end VerusCoin
