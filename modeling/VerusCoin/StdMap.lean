import Mathlib.Data.List.Basic
import Mathlib.Algebra.Ring.Int.Defs

/-!
# `std::map` as an association list

The pool's secondary indexes (`mapNextTx`, the nullifier maps, `mapDeltas`, ...) are `std::map`s. A map is the list of
its entries in key order: `insert` walks to the place of the key (`operator[]` assigns there), `erase` drops the key,
`find` returns the first entry with the key. The laws `find_insert` and `find_erase` hold of every list, sorted or not,
so the pool's proofs never look inside a map.
-/

namespace VerusCoin

/-- A `std::map<K, V>`: its entries, in iteration order. -/
structure StdMap (K V : Type) where
  entries : List (K × V)
  deriving Repr, DecidableEq

namespace StdMap

variable {K V : Type} [DecidableEq K]

/-- The empty map. -/
def empty : StdMap K V := ⟨[]⟩

/-- `map.find(k)`: the value stored under `k`, if any. -/
def find (m : StdMap K V) (k : K) : Option V :=
  (m.entries.find? (fun p => p.1 = k)).map Prod.snd

/-- `map.count(k) != 0`. -/
def contains (m : StdMap K V) (k : K) : Bool := (m.find k).isSome

/-- The walk of `operator[]`: assign in place, or insert before the first greater key. -/
def insertList [Ord K] (k : K) (v : V) : List (K × V) → List (K × V)
  | [] => [(k, v)]
  | (k', v') :: t =>
    if k = k' then (k, v) :: t
    else if compare k k' = .lt then (k, v) :: (k', v') :: t
    else (k', v') :: insertList k v t

/-- `map[k] = v`. -/
def insert [Ord K] (m : StdMap K V) (k : K) (v : V) : StdMap K V := ⟨insertList k v m.entries⟩

/-- `map.erase(k)`. -/
def erase (m : StdMap K V) (k : K) : StdMap K V := ⟨m.entries.filter (fun p => p.1 ≠ k)⟩

/-- `map.clear()`. -/
def clear (_ : StdMap K V) : StdMap K V := empty

/-- Erase every key of a list, in order. -/
def eraseAll (m : StdMap K V) (ks : List K) : StdMap K V := ks.foldl erase m

theorem find_insertList [Ord K] (k k' : K) (v : V) (l : List (K × V)) :
    ((insertList k v l).find? (fun p => p.1 = k')).map Prod.snd =
      if k' = k then some v else (l.find? (fun p => p.1 = k')).map Prod.snd := by
  induction l with
  | nil => by_cases h : k' = k <;> simp [insertList, h, eq_comm]
  | cons p t ih =>
    obtain ⟨a, b⟩ := p
    simp only [insertList]
    by_cases hka : k = a
    · subst hka
      by_cases h : k' = k <;> simp [h, eq_comm]
    · split_ifs with hlt <;> by_cases h : k' = k <;> by_cases h' : a = k' <;> simp_all [eq_comm]

@[simp] theorem find_empty (k : K) : (empty : StdMap K V).find k = none := rfl

@[simp] theorem find_insert [Ord K] (m : StdMap K V) (k k' : K) (v : V) :
    (m.insert k v).find k' = if k' = k then some v else m.find k' :=
  find_insertList k k' v m.entries

@[simp] theorem find_erase (m : StdMap K V) (k k' : K) :
    (m.erase k).find k' = if k' = k then none else m.find k' := by
  simp only [erase, find, List.find?_filter]
  by_cases h : k' = k
  · subst h
    simp only [if_true]
    induction m.entries with
    | nil => rfl
    | cons p t ih => by_cases hp : p.1 = k' <;> simp_all [List.find?_cons]
  · simp only [h, if_false]
    congr 2
    funext p
    by_cases hp : p.1 = k' <;> simp_all

@[simp] theorem find_clear (m : StdMap K V) (k : K) : m.clear.find k = none := rfl

@[simp] theorem find_eraseAll (m : StdMap K V) (ks : List K) (k : K) :
    (m.eraseAll ks).find k = if k ∈ ks then none else m.find k := by
  induction ks generalizing m with
  | nil => simp [eraseAll]
  | cons a ks ih =>
    simp only [eraseAll, List.foldl_cons] at ih ⊢
    rw [ih, find_erase]
    by_cases h1 : k ∈ ks <;> by_cases h2 : k = a <;> simp [h1, h2]

theorem eraseAll_append (m : StdMap K V) (ks ks' : List K) : m.eraseAll (ks ++ ks') = (m.eraseAll ks).eraseAll ks' :=
  List.foldl_append _ _ _ _

/-- Erasing a key the map does not hold leaves the map as it is. -/
theorem erase_of_find_eq_none {m : StdMap K V} {k : K} (h : m.find k = none) : m.erase k = m := by
  obtain ⟨l⟩ := m
  simp only [find, Option.map_eq_none', List.find?_eq_none, decide_eq_true_eq] at h
  simp only [erase, StdMap.mk.injEq]
  exact List.filter_eq_self.2 (fun p hp => by simpa using h p hp)

/-- Assign every pair of a list, in order (a loop of `map[k] = v`). -/
def insertAll [Ord K] (m : StdMap K V) (kvs : List (K × V)) : StdMap K V := kvs.foldl (fun m p => m.insert p.1 p.2) m

/-- After a loop of assignments, a key holds the last value assigned to it, or its old value. -/
theorem find_insertAll [Ord K] (m : StdMap K V) (kvs : List (K × V)) (k : K) :
    (m.insertAll kvs).find k = ((kvs.reverse.find? (fun p => p.1 = k)).map Prod.snd).or (m.find k) := by
  induction kvs generalizing m with
  | nil => simp [insertAll]
  | cons p t ih =>
    simp only [insertAll, List.foldl_cons] at ih ⊢
    rw [ih, find_insert, List.reverse_cons, List.find?_append]
    by_cases h : p.1 = k
    · cases hf : t.reverse.find? (fun p => p.1 = k) <;> simp [h, eq_comm]
    · cases hf : t.reverse.find? (fun p => p.1 = k) <;> simp [h, Ne.symm h]

theorem find_insertAll_of_not_mem [Ord K] (m : StdMap K V) (kvs : List (K × V)) (k : K)
    (hk : k ∉ kvs.map Prod.fst) : (m.insertAll kvs).find k = m.find k := by
  rw [find_insertAll]
  have : kvs.reverse.find? (fun p => p.1 = k) = none := by
    rw [List.find?_eq_none]
    intro p hp hpk
    exact hk (List.mem_map.2 ⟨p, List.mem_reverse.1 hp, by simpa using hpk⟩)
  simp [this]

/-- A key assigned only the value `v` holds `v` after the loop. -/
theorem find_insertAll_of_mem [Ord K] (m : StdMap K V) (kvs : List (K × V)) (k : K) (v : V)
    (hk : (k, v) ∈ kvs) (hv : ∀ p ∈ kvs, p.1 = k → p.2 = v) : (m.insertAll kvs).find k = some v := by
  rw [find_insertAll]
  obtain ⟨p, hp⟩ : ∃ p, kvs.reverse.find? (fun p => p.1 = k) = some p := Option.ne_none_iff_exists'.1 (by
    rw [Ne, List.find?_eq_none]
    exact fun h => h (k, v) (List.mem_reverse.2 hk) (by simp))
  have hpk : p.1 = k := by simpa using List.find?_some hp
  simp [hp, hv p (List.mem_reverse.1 (List.mem_of_find?_eq_some hp)) hpk]

/-- `map.insert(make_pair(k, v))`: a key already present keeps its value. -/
def insertPair [Ord K] (m : StdMap K V) (k : K) (v : V) : StdMap K V := if m.contains k then m else m.insert k v

/-- A loop of `map.insert(make_pair(k, v))` over a list of pairs, in order. -/
def insertPairs [Ord K] (m : StdMap K V) (kvs : List (K × V)) : StdMap K V :=
  kvs.foldl (fun m p => m.insertPair p.1 p.2) m

@[simp] theorem find_insertPair [Ord K] (m : StdMap K V) (k k' : K) (v : V) :
    (m.insertPair k v).find k' = if k' = k then some ((m.find k).getD v) else m.find k' := by
  unfold insertPair contains
  cases hk : m.find k with
  | none => simp
  | some w => by_cases h : k' = k <;> simp [h, hk]

/-- After a loop of `insert`s, a key holds its old value or else the value the loop first offered it. -/
theorem find_insertPairs_eq_some [Ord K] {m : StdMap K V} {kvs : List (K × V)} {k : K} {v : V}
    (h : (m.insertPairs kvs).find k = some v) : m.find k = some v ∨ (k, v) ∈ kvs := by
  induction kvs generalizing m with
  | nil => exact .inl h
  | cons p kvs ih =>
    rcases ih h with h' | h'
    · rw [find_insertPair] at h'
      split_ifs at h' with hk
      · subst hk
        cases hf : m.find p.1 with
        | none => simp only [hf, Option.getD_none, Option.some.injEq] at h'; exact .inr (h' ▸ List.mem_cons_self _ _)
        | some w => simp only [hf, Option.getD_some] at h'; exact .inl h'
      · exact .inl h'
    · exact .inr (List.mem_cons_of_mem _ h')

/-- A loop of `insert`s keeps the value of every key already present. -/
theorem find_insertPairs_of_find [Ord K] {m : StdMap K V} {k : K} {v : V} (h : m.find k = some v) :
    ∀ kvs : List (K × V), (m.insertPairs kvs).find k = some v := by
  intro kvs
  induction kvs generalizing m with
  | nil => exact h
  | cons p kvs ih =>
    refine ih ?_
    rw [find_insertPair]
    split_ifs with hk
    · subst hk; simp [h]
    · exact h

/-- After a loop of `insert`s, every key the loop offered is present. -/
theorem isSome_find_insertPairs [Ord K] (m : StdMap K V) {kvs : List (K × V)} {k : K} (hk : k ∈ kvs.map Prod.fst) :
    ((m.insertPairs kvs).find k).isSome := by
  induction kvs generalizing m with
  | nil => cases hk
  | cons p kvs ih =>
    rcases List.mem_cons.1 hk with rfl | hk
    · obtain ⟨v, hv⟩ := Option.isSome_iff_exists.1 (show ((m.insertPair p.1 p.2).find p.1).isSome by simp)
      show (((m.insertPair p.1 p.2).insertPairs kvs).find p.1).isSome
      rw [find_insertPairs_of_find hv]
      rfl
    · exact ih _ hk

/-- A loop of `insert`s gives a key that was absent the one value the loop offers it. -/
theorem find_insertPairs_of_fresh [Ord K] {m : StdMap K V} {kvs : List (K × V)} {k : K} {v : V} (hm : m.find k = none)
    (hk : (k, v) ∈ kvs) (hv : ∀ p ∈ kvs, p.1 = k → p.2 = v) : (m.insertPairs kvs).find k = some v := by
  obtain ⟨w, hw⟩ := Option.isSome_iff_exists.1 (isSome_find_insertPairs m (List.mem_map.2 ⟨_, hk, rfl⟩))
  rcases find_insertPairs_eq_some hw with hw' | hw'
  · rw [hm] at hw'
    cases hw'
  · exact hw.trans (congrArg some (hv _ hw' rfl))

/-- The entry stored under a key is among the map's entries. -/
theorem mem_of_find_eq_some {m : StdMap K V} {k : K} {v : V} (h : m.find k = some v) : (k, v) ∈ m.entries := by
  obtain ⟨⟨k', v'⟩, hp, rfl⟩ := Option.map_eq_some'.1 h
  obtain rfl : k' = k := by simpa using List.find?_some hp
  exact List.mem_of_find?_eq_some hp

/-- The walk of `operator[]` keeps the old entries, but the one it overwrites, and adds the new one. -/
theorem mem_insertList [Ord K] {k : K} {v : V} {p : K × V} :
    ∀ {l : List (K × V)}, p ∈ insertList k v l → p = (k, v) ∨ p ∈ l
  | [], h => .inl (List.mem_singleton.1 h)
  | q :: t, h => by
    simp only [insertList] at h
    split_ifs at h
    · exact (List.mem_cons.1 h).imp_right (List.mem_cons_of_mem _)
    · exact List.mem_cons.1 h
    · rcases List.mem_cons.1 h with rfl | h
      · exact .inr (List.mem_cons_self _ _)
      · exact (mem_insertList h).imp_right (List.mem_cons_of_mem _)

/-- The walk of `operator[]` holds the pair it assigns. -/
theorem mem_insertList_self [Ord K] (k : K) (v : V) : ∀ l : List (K × V), (k, v) ∈ insertList k v l
  | [] => List.mem_singleton_self _
  | q :: t => by
    simp only [insertList]
    split_ifs
    · exact List.mem_cons_self _ _
    · exact List.mem_cons_self _ _
    · exact List.mem_cons_of_mem _ (mem_insertList_self k v t)

/-- The walk of `operator[]` keeps every entry under another key. -/
theorem mem_insertList_of_ne [Ord K] {k : K} {v : V} {p : K × V} (hp : p.1 ≠ k) :
    ∀ {l : List (K × V)}, p ∈ l → p ∈ insertList k v l
  | q :: t, h => by
    simp only [insertList]
    split_ifs with hq
    · rcases List.mem_cons.1 h with rfl | h
      · exact absurd hq.symm hp
      · exact List.mem_cons_of_mem _ h
    · exact List.mem_cons_of_mem _ h
    · rcases List.mem_cons.1 h with rfl | h
      · exact List.mem_cons_self _ _
      · exact List.mem_cons_of_mem _ (mem_insertList_of_ne hp h)

theorem mem_insert [Ord K] {m : StdMap K V} {k : K} {v : V} {p : K × V} (h : p ∈ (m.insert k v).entries) :
    p = (k, v) ∨ p ∈ m.entries :=
  mem_insertList h

@[simp] theorem mem_erase {m : StdMap K V} {k : K} {p : K × V} : p ∈ (m.erase k).entries ↔ p ∈ m.entries ∧ p.1 ≠ k := by
  simp [erase]

@[simp] theorem contains_eq (m : StdMap K V) (k : K) : m.contains k = (m.find k).isSome := rfl

end StdMap

end VerusCoin
