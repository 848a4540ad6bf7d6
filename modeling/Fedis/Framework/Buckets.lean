import Mathlib.Data.List.Perm.Basic
import Mathlib.Data.Finmap

/-!
# Tables of buckets, and the map they hold

A table of buckets is a list of lists; its entries are their concatenation.
`flatten_set` says what replacing one bucket does to the entries, in order;
`Placed home` that every entry is in the bucket `home` gives it.

The second part reads a finite map off a bag of key-value pairs: if the pairs of
a map are `⟨a, b⟩` and the rest, then looking up, overwriting or erasing `a`
concerns that pair alone.
-/

namespace Fedis.Framework

open List

variable {α : Type*}

/-! ## Buckets -/

/-- The entries around bucket `i`, which replacing the bucket keeps. -/
theorem flatten_set {table : List (List α)} {i : Nat} {c : List α} (h : table[i]? = some c) :
    table.flatten = (table.take i).flatten ++ c ++ (table.drop (i + 1)).flatten ∧
      ∀ c', (table.set i c').flatten =
        (table.take i).flatten ++ c' ++ (table.drop (i + 1)).flatten := by
  obtain ⟨hi, rfl⟩ := List.getElem?_eq_some_iff.mp h
  refine ⟨?_, fun c' => ?_⟩
  · conv_lhs => rw [← List.take_append_drop i table]
    rw [List.flatten_append, List.drop_eq_getElem_cons hi, List.flatten_cons, List.append_assoc]
  · rw [List.set_eq_take_append_cons_drop, if_pos hi]
    simp

/-- `flatten_set`, up to the order of the entries. -/
theorem flatten_set_perm {table : List (List α)} {i : Nat} {c : List α} (h : table[i]? = some c) :
    ∃ rest, table.flatten ~ c ++ rest ∧ ∀ c', (table.set i c').flatten ~ c' ++ rest := by
  obtain ⟨h₁, h₂⟩ := flatten_set h
  have swap : ∀ pre c post : List α, pre ++ c ++ post ~ c ++ (pre ++ post) := fun pre c post =>
    (List.perm_append_comm.append_right post).trans (by rw [List.append_assoc])
  exact ⟨_, h₁ ▸ swap _ _ _, fun c' => h₂ c' ▸ swap _ _ _⟩

theorem flatten_take_eq_nil {table : List (List α)} {i : Nat}
    (h : ∀ j < i, table[j]? = some []) : (table.take i).flatten = [] := by
  rw [List.flatten_eq_nil_iff]
  intro c hc
  obtain ⟨j, hj, rfl⟩ := List.mem_iff_getElem.mp hc
  have hj' : j < i ∧ j < table.length := by simpa using hj
  simpa [hj'.2] using h j hj'.1

/-- The first entry is the head of the first non-empty bucket. -/
theorem flatten_eq_cons {table : List (List α)} {i : Nat} {a : α} {c : List α}
    (hb : ∀ j < i, table[j]? = some []) (h : table[i]? = some (a :: c)) :
    table.flatten = a :: (table.set i c).flatten := by
  obtain ⟨h₁, h₂⟩ := flatten_set h
  rw [h₁, h₂, flatten_take_eq_nil hb]
  rfl

/-- Every entry of bucket `i` has `i` as its home. -/
def Placed (home : α → Nat) (table : List (List α)) : Prop :=
  ∀ i c, table[i]? = some c → ∀ a ∈ c, home a = i

theorem Placed.mem_bucket {home : α → Nat} {table : List (List α)} (h : Placed home table) {a : α}
    (ha : a ∈ table.flatten) : ∃ c, table[home a]? = some c ∧ a ∈ c := by
  obtain ⟨c, hc, hac⟩ := List.mem_flatten.mp ha
  obtain ⟨i, hi, rfl⟩ := List.mem_iff_getElem.mp hc
  have hh := h i _ (List.getElem?_eq_getElem hi) a hac
  exact ⟨_, by rw [hh]; exact List.getElem?_eq_getElem hi, hac⟩

theorem Placed.set {home : α → Nat} {table : List (List α)} (h : Placed home table) {i : Nat}
    {c : List α} (hc : ∀ a ∈ c, home a = i) : Placed home (table.set i c) := by
  intro j c' hj a ha
  by_cases e : i = j
  · subst e
    rw [List.getElem?_set_self'] at hj
    cases hg : table[i]? with
    | none => simp [hg] at hj
    | some _ => simp [hg] at hj; subst hj; exact hc a ha
  · rw [List.getElem?_set_ne e] at hj
    exact h j c' hj a ha

theorem placed_replicate (home : α → Nat) (n : Nat) : Placed home (List.replicate n []) := by
  intro i c hc a ha
  obtain ⟨_, rfl⟩ := List.getElem?_eq_some_iff.mp hc
  simp at ha

/-! ## The map of a bag of pairs -/

section Map

variable {κ ν : Type*} {m : Finmap fun _ : κ => ν}

theorem nodup_keys_of_entries {a : κ} {b : ν} {s : Multiset (Σ _ : κ, ν)}
    (h : m.entries = ⟨a, b⟩ ::ₘ s) : a ∉ s.keys ∧ s.NodupKeys := by
  have hm := m.nodupKeys
  rw [h] at hm
  obtain ⟨l, rfl⟩ := Quot.exists_rep s
  exact List.nodupKeys_cons.mp (show (⟨a, b⟩ :: l).NodupKeys from hm)

theorem card_keys (m : Finmap fun _ : κ => ν) : m.keys.card = m.entries.card := by
  obtain ⟨s, hs⟩ := m
  exact Multiset.card_map _ _

variable [DecidableEq κ]

/-- A map is its pair for `a` inserted in the map of the others. -/
theorem eq_insert_of_entries {a : κ} {b : ν} {s : Multiset (Σ _ : κ, ν)}
    (h : m.entries = ⟨a, b⟩ ::ₘ s) :
    ∃ m' : Finmap fun _ : κ => ν, m'.entries = s ∧ a ∉ m' ∧ m = m'.insert a b := by
  obtain ⟨ha, hs⟩ := nodup_keys_of_entries h
  refine ⟨⟨s, hs⟩, rfl, ha, Finmap.ext ?_⟩
  rw [Finmap.entries_insert_of_notMem (s := ⟨s, hs⟩) ha, h]

theorem entries_erase {a : κ} {b : ν} {s : Multiset (Σ _ : κ, ν)}
    (h : m.entries = ⟨a, b⟩ ::ₘ s) : (m.erase a).entries = s := by
  obtain ⟨m', rfl, ha, rfl⟩ := eq_insert_of_entries h
  refine congrArg Finmap.entries (Finmap.ext_lookup fun x => ?_)
  by_cases hx : x = a
  · subst hx
    rw [Finmap.lookup_erase, Finmap.lookup_eq_none.mpr ha]
  · rw [Finmap.lookup_erase_ne hx, Finmap.lookup_insert_of_ne _ hx]

theorem entries_overwrite {a : κ} {b b' : ν} {s : Multiset (Σ _ : κ, ν)}
    (h : m.entries = ⟨a, b⟩ ::ₘ s) : (m.insert a b').entries = ⟨a, b'⟩ ::ₘ s := by
  obtain ⟨m', rfl, ha, rfl⟩ := eq_insert_of_entries h
  rw [Finmap.insert_insert, Finmap.entries_insert_of_notMem ha]

end Map

end Fedis.Framework
