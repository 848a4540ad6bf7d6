import Fedis.Framework.Buckets
import Fedis.Spec.DictMap

/-!
# One hash table

What the operations on one table (`link`, `find`, `setVal`, `unlink`) do to its
entries, given that it is well formed (`Wf`): a power of two of buckets, the
matching mask, an exact counter, and every entry in the bucket of its hash. The
bucket of a key is then always inside the table (`Wf.bucket`).
-/

namespace Fedis.Proof.Dict

open List Fedis.Framework

universe u v

variable {K : Type u} {V : Type v}

/-- The entries of a table, in bucket order. -/
def entries (ht : DictHT K V) : List (DictEntry K V) := ht.table.flatten

/-- A well-formed allocated table. -/
structure Wf (t : DictType K) (ht : DictHT K V) : Prop where
  pow : ∃ k, ht.size = 2 ^ k
  length : ht.table.length = ht.size
  mask : ht.sizemask = ht.size - 1
  used : ht.used = (entries ht).length
  placed : Placed (fun e => ht.idx t e.key) ht.table

/-- An allocated table, whatever entries its buckets hold. -/
structure Allocated (ht : DictHT K V) : Prop where
  pow : ∃ k, ht.size = 2 ^ k
  length : ht.table.length = ht.size
  mask : ht.sizemask = ht.size - 1
  used : ht.used = (entries ht).length

namespace Allocated

variable {ht : DictHT K V}

theorem size_pos (h : Allocated ht) : 0 < ht.size := by
  obtain ⟨k, e⟩ := h.pow
  rw [e]
  exact Nat.two_pow_pos k

theorem idx_lt (h : Allocated ht) (t : DictType K) (key : K) : ht.idx t key < ht.table.length := by
  have := h.size_pos
  have := Nat.and_le_right (n := (t.hashFunction key).toUInt32.toNat) (m := ht.sizemask)
  rw [h.length, DictHT.idx]
  rw [h.mask] at this ⊢
  omega

/-- The bucket of a key is inside the table. -/
theorem bucket (h : Allocated ht) (t : DictType K) (key : K) :
    ∃ c, ht.table[ht.idx t key]? = some c :=
  ⟨_, List.getElem?_eq_getElem (h.idx_lt t key)⟩

/-- A table with one bucket replaced, and the counter with it. -/
theorem set (h : Allocated ht) {i : Nat} {c c' : List (DictEntry K V)} {n : Nat}
    (hc : ht.table[i]? = some c) (hn : n + c.length = ht.used + c'.length) :
    Allocated { ht with table := ht.table.set i c', used := n } where
  pow := h.pow
  length := by rw [List.length_set, h.length]
  mask := h.mask
  used := by
    obtain ⟨rest, h₁, h₂⟩ := flatten_set_perm hc
    have e₁ := h₁.length_eq
    have e₂ := (h₂ c').length_eq
    have := h.used
    simp only [entries, List.length_append] at *
    omega

end Allocated

namespace Wf

variable {t : DictType K} {ht : DictHT K V}

theorem allocated (h : Wf t ht) : Allocated ht := ⟨h.pow, h.length, h.mask, h.used⟩

theorem size_pos (h : Wf t ht) : 0 < ht.size := h.allocated.size_pos

theorem idx_lt (h : Wf t ht) (key : K) : ht.idx t key < ht.table.length := h.allocated.idx_lt t key

theorem bucket (h : Wf t ht) (key : K) : ∃ c, ht.table[ht.idx t key]? = some c :=
  h.allocated.bucket t key

theorem ne_nil (h : Wf t ht) : ht.table ≠ [] := by
  intro e
  have := h.length
  have := h.size_pos
  simp_all

/-- A table with one bucket replaced, and the counter with it. -/
theorem set (h : Wf t ht) {i : Nat} {c c' : List (DictEntry K V)} {n : Nat}
    (hc : ht.table[i]? = some c) (hp : ∀ e ∈ c', ht.idx t e.key = i)
    (hn : n + c.length = ht.used + c'.length) :
    Wf t { ht with table := ht.table.set i c', used := n } :=
  have hset := h.allocated.set hc hn
  ⟨hset.pow, hset.length, hset.mask, hset.used, h.placed.set hp⟩

theorem home (h : Wf t ht) {i : Nat} {c : List (DictEntry K V)} (hc : ht.table[i]? = some c) :
    ∀ e ∈ c, ht.idx t e.key = i := h.placed i c hc

end Wf

/-! ## Allocation -/

theorem entries_dictReset : entries (dictReset : DictHT K V) = [] := rfl

theorem entries_dictAlloc (n : Nat) : entries (dictAlloc n : DictHT K V) = [] := by
  simp [entries, dictAlloc]

theorem wf_dictAlloc (t : DictType K) (k : Nat) : Wf t (dictAlloc (2 ^ k) : DictHT K V) where
  pow := ⟨k, rfl⟩
  length := List.length_replicate
  mask := rfl
  used := by rw [entries_dictAlloc]; rfl
  placed := placed_replicate _ _

/-! ## Operations -/

/-- Linking an entry adds it to the table. -/
theorem link_ok {t : DictType K} {ht : DictHT K V} (h : Wf t ht) (e : DictEntry K V) :
    ∃ ht', ht.link t e = some ht' ∧ Wf t ht' ∧ entries ht' ~ e :: entries ht ∧
      ht'.size = ht.size ∧ ht'.used = ht.used + 1 := by
  obtain ⟨c, hc⟩ := h.bucket e.key
  refine ⟨_, by rw [DictHT.link, hc]; rfl, h.set hc ?_ ?_, ?_, rfl, rfl⟩
  · intro e' he'
    rcases List.mem_cons.mp he' with rfl | he'
    · rfl
    · exact h.home hc e' he'
  · simp only [List.length_cons]
    omega
  · obtain ⟨rest, h₁, h₂⟩ := flatten_set_perm hc
    exact (h₂ (e :: c)).trans (h₁.symm.cons e)

/-- The entries that `key` finds, searched for in its bucket only. -/
theorem find_ok {t : KeyType K} {ht : DictHT K V} (h : Wf t.toDictType ht) (key : K) :
    ∃ r, ht.find t.toDictType key = some r ∧
      (∀ e, r = some e → e ∈ entries ht ∧ t.cls e.key = t.cls key) ∧
      (r = none → ∀ e ∈ entries ht, t.cls e.key ≠ t.cls key) := by
  obtain ⟨c, hc⟩ := h.bucket key
  refine ⟨_, by rw [DictHT.find, hc]; rfl, fun e he => ?_, fun hn e he hk => ?_⟩
  · refine ⟨List.mem_flatten.mpr ⟨c, List.mem_of_getElem? hc, List.mem_of_find?_eq_some he⟩, ?_⟩
    exact t.hits_iff.mp (List.find?_some he)
  · obtain ⟨c', hc', hm⟩ := h.placed.mem_bucket he
    rw [t.idx_eq ht hk, hc] at hc'
    cases hc'
    exact List.find?_eq_none.mp hn e hm (t.hits_iff.mpr hk)

/-- Some entry compares equal in a chain: the first one, and the others. -/
theorem chain_split {t : DictType K} {key : K} {c : List (DictEntry K V)}
    (h : c.any (t.hits key)) :
    ∃ e rest, t.hits key e = true ∧ c ~ e :: rest ∧ c.eraseP (t.hits key) ~ rest ∧
      ∀ val, chainSetVal t key val c ~ { e with val := val } :: rest := by
  induction c with
  | nil => simp at h
  | cons a c ih =>
    by_cases ha : t.hits key a = true
    · exact ⟨a, c, ha, .refl _, by rw [List.eraseP_cons_of_pos ha],
        fun val => by rw [chainSetVal, if_pos ha]⟩
    · obtain ⟨e, rest, he, h₁, h₂, h₃⟩ := ih (by simpa [ha] using h)
      refine ⟨e, a :: rest, he, (h₁.cons a).trans (.swap _ _ _), ?_, fun val => ?_⟩
      · rw [List.eraseP_cons_of_neg ha]
        exact h₂.cons a
      · rw [chainSetVal, if_neg ha]
        exact ((h₃ val).cons a).trans (.swap _ _ _)

/-- The keys of a chain survive `chainSetVal`. -/
theorem mem_chainSetVal {t : DictType K} {key : K} {val : V} {c : List (DictEntry K V)}
    {e : DictEntry K V} (h : e ∈ chainSetVal t key val c) : ∃ e' ∈ c, e'.key = e.key := by
  induction c with
  | nil => cases h
  | cons a c ih =>
    rw [chainSetVal] at h
    split at h
    · rcases List.mem_cons.mp h with rfl | h
      · exact ⟨a, List.mem_cons_self, rfl⟩
      · exact ⟨e, List.mem_cons_of_mem _ h, rfl⟩
    · rcases List.mem_cons.mp h with rfl | h
      · exact ⟨_, List.mem_cons_self, rfl⟩
      · obtain ⟨e', he', hk⟩ := ih h
        exact ⟨e', List.mem_cons_of_mem _ he', hk⟩

theorem length_chainSetVal (t : DictType K) (key : K) (val : V) (c : List (DictEntry K V)) :
    (chainSetVal t key val c).length = c.length := by
  induction c with
  | nil => rfl
  | cons a c ih => rw [chainSetVal]; split <;> simp [ih]

/-- A key that is in the table is in its bucket. -/
theorem any_of_mem {t : KeyType K} {ht : DictHT K V} (h : Wf t.toDictType ht) {key : K}
    {c : List (DictEntry K V)} (hc : ht.table[ht.idx t.toDictType key]? = some c)
    {e : DictEntry K V} (he : e ∈ entries ht) (hk : t.cls e.key = t.cls key) :
    c.any (t.hits key) := by
  obtain ⟨c', hc', hm⟩ := h.placed.mem_bucket he
  rw [t.idx_eq ht hk, hc] at hc'
  cases hc'
  exact List.any_eq_true.mpr ⟨e, hm, t.hits_iff.mpr hk⟩

/-- Storing a value leaves the table well formed. -/
theorem wf_setVal {t : DictType K} {ht : DictHT K V} (h : Wf t ht) (key : K) (val : V) :
    Wf t (ht.setVal t key val) ∧ ∃ c, ht.table[ht.idx t key]? = some c ∧
      ht.setVal t key val =
        { ht with table := ht.table.set (ht.idx t key) (chainSetVal t key val c) } := by
  obtain ⟨c, hc⟩ := h.bucket key
  have hset : ht.setVal t key val =
      { ht with table := ht.table.set (ht.idx t key) (chainSetVal t key val c)
                used := ht.used } := by
    rw [DictHT.setVal, List.modify_eq_set_getElem?, hc]
    rfl
  refine ⟨hset ▸ h.set hc (fun a ha => ?_) (by rw [length_chainSetVal]), c, hc, hset⟩
  obtain ⟨a', ha', hkey⟩ := mem_chainSetVal ha
  rw [← hkey]
  exact h.home hc a' ha'

/-- Storing a value leaves empty buckets empty. -/
theorem setVal_below {t : DictType K} {ht : DictHT K V} {i : Nat}
    (hb : ∀ j < i, ht.table[j]? = some []) (key : K) (val : V) :
    ∀ j < i, (ht.setVal t key val).table[j]? = some [] := by
  intro j hj
  rw [DictHT.setVal, List.getElem?_modify, hb j hj]
  split <;> rfl

/-- Storing a value changes that entry only. -/
theorem setVal_ok {t : KeyType K} {ht : DictHT K V} (h : Wf t.toDictType ht) {key : K}
    {e : DictEntry K V} (he : e ∈ entries ht) (hk : t.cls e.key = t.cls key) (val : V) :
    Wf t.toDictType (ht.setVal t.toDictType key val) ∧
      ∃ e' rest, t.cls e'.key = t.cls key ∧ entries ht ~ e' :: rest ∧
        entries (ht.setVal t.toDictType key val) ~ { e' with val := val } :: rest := by
  obtain ⟨w, c, hc, hset⟩ := wf_setVal h key val
  obtain ⟨e', rest', hs, h₁, -, h₃⟩ := chain_split (any_of_mem h hc he hk)
  obtain ⟨rest, g₁, g₂⟩ := flatten_set_perm hc
  refine ⟨w, e', rest' ++ rest, t.hits_iff.mp hs, g₁.trans (h₁.append_right rest), ?_⟩
  rw [hset]
  exact (g₂ _).trans ((h₃ val).append_right rest)

/-- Unlinking removes an entry of the key's bucket that compares equal, or none. -/
theorem unlink_total {t : DictType K} {ht : DictHT K V} (h : Wf t ht) (key : K) :
    ∃ r, ht.unlink t key = some r ∧ ∀ ht', r = some ht' → Wf t ht' ∧ ht'.size = ht.size ∧
      ∃ e, t.hits key e = true ∧ ht.idx t e.key = ht.idx t key ∧
        entries ht ~ e :: entries ht' := by
  obtain ⟨c, hc⟩ := h.bucket key
  refine ⟨_, by rw [DictHT.unlink, hc, Option.map_some], fun ht' hr => ?_⟩
  by_cases ha : c.any (t.hits key)
  · rw [if_pos ha] at hr
    obtain ⟨e, rest', hs, h₁, h₂, -⟩ := chain_split ha
    obtain ⟨rest, g₁, g₂⟩ := flatten_set_perm hc
    cases hr
    refine ⟨h.set hc (fun a ha => h.home hc a (List.mem_of_mem_eraseP ha)) ?_, rfl, e, hs,
      h.home hc e (h₁.mem_iff.mpr List.mem_cons_self), ?_⟩
    · have e₁ := h₁.length_eq
      have e₂ := h₂.length_eq
      have e₃ := g₁.length_eq
      have := h.used
      simp only [entries, List.length_append, List.length_cons] at *
      omega
    · exact (g₁.trans (h₁.append_right rest)).trans
        (((g₂ _).trans (h₂.append_right rest)).symm.cons e)
  · rw [if_neg ha] at hr
    cases hr

/-- Under a lawful comparison, unlinking removes the entry that the key finds,
and says so. -/
theorem unlink_ok {t : KeyType K} {ht : DictHT K V} (h : Wf t.toDictType ht) (key : K) :
    ∃ r, ht.unlink t.toDictType key = some r ∧
      (∀ ht', r = some ht' → Wf t.toDictType ht' ∧ ht'.size = ht.size ∧
        ∃ e, t.cls e.key = t.cls key ∧ entries ht ~ e :: entries ht') ∧
      (r = none → ∀ e ∈ entries ht, t.cls e.key ≠ t.cls key) := by
  obtain ⟨r, hr, hf⟩ := unlink_total h key
  refine ⟨r, hr, fun ht' e => ?_, fun hn e he hk => ?_⟩
  · obtain ⟨w, hs, e, hk, -, hp⟩ := hf ht' e
    exact ⟨w, hs, e, t.hits_iff.mp hk, hp⟩
  · obtain ⟨c, hc⟩ := h.bucket key
    rw [DictHT.unlink, hc, Option.map_some, if_pos (any_of_mem h hc he hk)] at hr
    cases hr
    cases hn

/-- Unlinking leaves empty buckets empty. -/
theorem unlink_below {t : DictType K} {ht ht' : DictHT K V} {key : K} {i : Nat}
    (h : ht.unlink t key = some (some ht')) (hb : ∀ j < i, ht.table[j]? = some []) :
    ∀ j < i, ht'.table[j]? = some [] := by
  obtain ⟨c, hc, hr⟩ := Option.map_eq_some_iff.mp h
  by_cases ha : c.any (t.hits key)
  · rw [if_pos ha] at hr
    cases hr
    intro j hj
    by_cases hij : ht.idx t key = j
    · -- an empty chain has no such entry
      rw [hij, hb j hj] at hc
      cases hc
      cases ha
    · simp only [List.getElem?_set_ne hij, hb j hj]
  · rw [if_neg ha] at hr
    cases hr

end Fedis.Proof.Dict
