import Mathlib.Algebra.Ring.Int.Defs
import Mathlib.Data.Finset.Card
import Mathlib.Data.List.AList

/-!
# Dictionaries that are summed up

A dictionary as an association list without repeated keys. The sum of a function
over its entries, and what storing and popping an entry does to the sum and to the
set of keys.
-/

namespace DictSums

universe u v

variable {α : Type u} {β : Type v} [DecidableEq α]

def total (f : β → Int) (d : AList fun _ : α => β) : Int := (d.entries.map fun e => f e.2).sum

def keySet (d : AList fun _ : α => β) : Finset α := d.keys.toFinset

theorem total_insert (f : β → Int) (d : AList fun _ : α => β) (a : α) (b : β) :
    total f (d.insert a b) = f b + total f (d.erase a) := by
  simp only [total, AList.entries_insert, List.map_cons, List.sum_cons]
  rfl

theorem erase_of_lookup_none {d : AList fun _ : α => β} {a : α} (h : d.lookup a = none) :
    d.erase a = d := by
  apply AList.ext
  exact List.kerase_of_notMem_keys (AList.lookup_eq_none.mp h)

theorem total_insert_new (f : β → Int) {d : AList fun _ : α => β} {a : α} (h : d.lookup a = none)
    (b : β) : total f (d.insert a b) = f b + total f d := by
  rw [total_insert, erase_of_lookup_none h]

theorem total_erase (f : β → Int) {d : AList fun _ : α => β} {a : α} {b : β}
    (h : d.lookup a = some b) : total f d = f b + total f (d.erase a) := by
  have hkey : a ∈ d.entries.keys := AList.lookup_isSome.mp (by simp [h])
  obtain ⟨b', before, after, hnot, hentries, herase⟩ := List.exists_of_kerase hkey
  have hmem : (⟨a, b'⟩ : Sigma fun _ : α => β) ∈ d.entries := by simp [hentries]
  have hval : b' = b := by
    have hlookup : d.lookup a = some b' := AList.mem_lookup_iff.mpr hmem
    exact Option.some.inj (hlookup.symm.trans h)
  have hrest : (d.erase a).entries = before ++ after := herase
  simp only [total, hrest, hentries, hval, List.map_append, List.map_cons, List.sum_append,
    List.sum_cons]
  omega

omit [DecidableEq α] in
/-- What adding the same amount for each entry does to the sum. -/
theorem total_shift (f : β → Int) (c : Int) (d : AList fun _ : α => β) :
    total (fun b => f b + c) d = total f d + d.keys.length * c := by
  have hlen : d.keys.length = d.entries.length := List.length_map _
  rw [hlen, total, total]
  induction d.entries with
  | nil => simp
  | cons e rest ih =>
    rw [List.map_cons, List.map_cons, List.sum_cons, List.sum_cons, ih, List.length_cons]
    push_cast
    rw [Int.add_mul]
    omega

theorem keySet_card (d : AList fun _ : α => β) : (keySet d).card = d.keys.length :=
  List.toFinset_card_of_nodup d.keys_nodup

theorem mem_keySet {d : AList fun _ : α => β} {a : α} : a ∈ keySet d ↔ (d.lookup a).isSome := by
  rw [keySet, List.mem_toFinset, ← AList.mem_keys, AList.lookup_isSome]

theorem keySet_insert (d : AList fun _ : α => β) (a : α) (b : β) :
    keySet (d.insert a b) = insert a (keySet d) := by
  ext c
  rw [Finset.mem_insert, keySet, keySet, List.mem_toFinset, List.mem_toFinset, ← AList.mem_keys,
    ← AList.mem_keys, AList.mem_insert]

theorem keySet_erase (d : AList fun _ : α => β) (a : α) :
    keySet (d.erase a) = (keySet d).erase a := by
  ext c
  rw [Finset.mem_erase, keySet, keySet, List.mem_toFinset, List.mem_toFinset, ← AList.mem_keys,
    ← AList.mem_keys, AList.mem_erase]

end DictSums
