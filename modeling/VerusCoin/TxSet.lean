import Mathlib.Data.List.Nodup
import VerusCoin.Primitives

/-!
# `indexed_transaction_set`

`mapTx` is a `boost::multi_index_container` whose first index is `hashed_unique` on the transaction hash. The model
keeps its entries in iteration order together with the uniqueness of their hashes, so that no pool with two entries
for one hash can be built. The iteration order of a hashed index is unspecified: statements about scans of `mapTx`
hold for every order because they hold for every list.
-/

namespace VerusCoin

/-- The hash an entry is indexed by (`mempoolentry_txid`). -/
def CTxMemPoolEntry.GetHash (e : CTxMemPoolEntry) : Uint256 := e.tx.hash

/-- `indexed_transaction_set`: entries with pairwise distinct hashes. -/
structure TxSet where
  entries : List CTxMemPoolEntry
  nodup : (entries.map CTxMemPoolEntry.GetHash).Nodup

namespace TxSet

/-- The empty set. -/
def empty : TxSet := ⟨[], List.nodup_nil⟩

/-- `mapTx.find(hash)`. -/
def find (m : TxSet) (h : Uint256) : Option CTxMemPoolEntry := m.entries.find? (fun e => e.GetHash = h)

/-- `mapTx.count(hash) != 0`. -/
def count (m : TxSet) (h : Uint256) : Bool := (m.find h).isSome

theorem find_eq_none_iff (m : TxSet) (h : Uint256) : m.find h = none ↔ h ∉ m.entries.map CTxMemPoolEntry.GetHash := by
  simp [find, List.find?_eq_none]

/-- `mapTx.insert(entry)`: a hashed unique index refuses an entry whose hash it already holds. -/
def insert (m : TxSet) (e : CTxMemPoolEntry) : TxSet :=
  if hc : (m.find e.GetHash).isNone then
    ⟨m.entries ++ [e], by
      rw [List.map_append, List.nodup_append]
      exact ⟨m.nodup, List.nodup_singleton _, by
        simpa [List.disjoint_singleton] using (find_eq_none_iff m _).1 (Option.isNone_iff_eq_none.1 hc)⟩⟩
  else m

/-- `mapTx.erase(hash)`. -/
def erase (m : TxSet) (h : Uint256) : TxSet :=
  ⟨m.entries.filter (fun e => e.GetHash ≠ h), (m.nodup.sublist (List.filter_sublist _ |>.map _))⟩

theorem find_eq_some_iff (m : TxSet) (h : Uint256) (e : CTxMemPoolEntry) :
    m.find h = some e ↔ e ∈ m.entries ∧ e.GetHash = h := by
  constructor
  · intro hf
    exact ⟨List.mem_of_find?_eq_some hf, by simpa using List.find?_some hf⟩
  · rintro ⟨he, rfl⟩
    obtain ⟨e', he'⟩ : ∃ e', m.find e.GetHash = some e' := Option.ne_none_iff_exists'.1 (by
      rw [Ne, find_eq_none_iff, not_not]; exact List.mem_map_of_mem _ he)
    have he'm := List.mem_of_find?_eq_some he'
    have hh : e'.GetHash = e.GetHash := by simpa using List.find?_some he'
    rw [he', List.inj_on_of_nodup_map m.nodup he'm he hh]

@[simp] theorem find_empty (h : Uint256) : empty.find h = none := rfl

@[simp] theorem find_erase (m : TxSet) (h h' : Uint256) :
    (m.erase h).find h' = if h' = h then none else m.find h' := by
  simp only [erase, find, List.find?_filter]
  split_ifs with hh
  · subst hh
    rw [List.find?_eq_none]
    intro e _
    by_cases he : e.GetHash = h' <;> simp [he]
  · congr 1
    funext e
    by_cases he : e.GetHash = h' <;> simp_all

@[simp] theorem find_insert (m : TxSet) (e : CTxMemPoolEntry) (h : Uint256) :
    (m.insert e).find h = if h = e.GetHash ∧ (m.find h).isNone then some e else m.find h := by
  unfold insert
  by_cases hc : (m.find e.GetHash).isNone
  · rw [dif_pos hc]
    have hc' : m.entries.find? (fun x => x.GetHash = e.GetHash) = none := Option.isNone_iff_eq_none.1 hc
    by_cases hh : h = e.GetHash
    · subst hh
      simp [find, List.find?_append, hc', hc]
    · simp [find, List.find?_append, hh, Ne.symm hh]
  · rw [dif_neg hc]
    by_cases hh : h = e.GetHash
    · subst hh
      simp [hc]
    · simp [hc, hh]

theorem length_erase_lt {m : TxSet} {h : Uint256} {e : CTxMemPoolEntry} (hf : m.find h = some e) :
    (m.erase h).entries.length < m.entries.length := by
  have he := (find_eq_some_iff m h e).1 hf
  exact List.length_filter_lt_length_iff_exists.2 ⟨e, he.1, by simp [he.2]⟩

end TxSet

end VerusCoin
