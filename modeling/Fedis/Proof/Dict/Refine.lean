import Fedis.Framework.Run
import Fedis.Proof.Dict.Step

/-!
# A dict refines a finite map

`Holds t d m`: the entries of the two tables, together, are the pairs of `m`.
Every call from a dict that holds `m` replies as the call on `m` does, and
leaves a dict that holds the new map (`add_ok`, `replace_ok`, `fetch_ok`,
`delete_ok`), unless it starts a migration step while `ht0` has no entry left
(`StartsEmptyStep`). Hence a whole run does (`run_ok`, `dict_refines_map`).
-/

namespace Fedis.Proof.Dict

open List Fedis.Framework

universe u v

variable {K : Type u} {V : Type v}

/-- The pairs of key class and value of some entries. -/
def pairs (t : KeyType K) (es : List (DictEntry K V)) : Multiset (Σ _ : t.Class, V) :=
  ↑(es.map fun e => (⟨t.cls e.key, e.val⟩ : Σ _ : t.Class, V))

/-- No entry of the map is missing from the dict, and none is there twice. -/
def Holds (t : KeyType K) (d : Dict K V) (m : KeyMap t V) : Prop :=
  m.entries = pairs t (allEntries d)

/-- The call starts a migration step while `ht0` holds no entry. -/
def StartsEmptyStep (t : DictType K) (d : Dict K V) : DictOp K V → Prop
  | .add key _ => dictContains t d key = some false ∧ dictIsRehashing (dictExpandIfNeed d) = true ∧
      entries (dictExpandIfNeed d).ht0 = []
  | .fetchValue _ => dictIsRehashing d = true ∧ entries d.ht0 = []
  | .delete _ => dictIsRehashing (dictExpandIfNeed d) = true ∧ entries (dictExpandIfNeed d).ht0 = []
  | .replace _ _ | .contains _ | .size => False

instance (t : DictType K) (d : Dict K V) : DecidablePred (StartsEmptyStep t d)
  | .add .. => instDecidableAnd
  | .fetchValue _ | .delete _ => instDecidableAnd
  | .replace .. | .contains _ | .size => instDecidableFalse

section Pairs

variable {t : KeyType K}

theorem pairs_perm {es es' : List (DictEntry K V)} (h : es ~ es') : pairs t es = pairs t es' :=
  Multiset.coe_eq_coe.mpr (h.map _)

theorem pairs_cons (e : DictEntry K V) (es : List (DictEntry K V)) :
    pairs t (e :: es) = ⟨t.cls e.key, e.val⟩ ::ₘ pairs t es := rfl

theorem mem_pairs {e : DictEntry K V} {es : List (DictEntry K V)} (h : e ∈ es) :
    ⟨t.cls e.key, e.val⟩ ∈ pairs t es :=
  List.mem_map.mpr ⟨e, h, rfl⟩

end Pairs

section Holds

variable {t : KeyType K} {d d' : Dict K V} {m : KeyMap t V}

theorem holds_dictCreate : Holds t (dictCreate : Dict K V) ∅ := rfl

theorem Holds.perm (h : Holds t d m) (hp : allEntries d' ~ allEntries d) : Holds t d' m :=
  h.trans (pairs_perm hp.symm)

theorem Holds.lookup (h : Holds t d m) {e : DictEntry K V} (he : e ∈ allEntries d) :
    m.lookup (t.cls e.key) = some e.val :=
  Finmap.lookup_eq_some_iff.mpr (h ▸ mem_pairs he)

theorem Holds.not_mem (h : Holds t d m) {key : K}
    (hk : ∀ e ∈ allEntries d, t.cls e.key ≠ t.cls key) : t.cls key ∉ m := by
  intro hm
  obtain ⟨v, hv⟩ := Finmap.mem_iff.mp hm
  obtain ⟨e, he, heq⟩ := List.mem_map.mp (h ▸ Finmap.lookup_eq_some_iff.mp hv)
  exact hk e he (congrArg Sigma.fst heq)

/-- Removing the entry that a key finds erases the key from the map. -/
theorem Holds.erase (h : Holds t d m) {e : DictEntry K V} (hp : allEntries d ~ e :: allEntries d') :
    Holds t d' (m.erase (t.cls e.key)) :=
  entries_erase (h.trans (pairs_perm hp))

/-- Adding an entry with a new key inserts it in the map. -/
theorem Holds.insert (h : Holds t d m) {e : DictEntry K V} (hn : t.cls e.key ∉ m)
    (hp : allEntries d' ~ e :: allEntries d) : Holds t d' (m.insert (t.cls e.key) e.val) := by
  rw [Holds, Finmap.entries_insert_of_notMem hn, pairs_perm hp, pairs_cons, h]

/-- Giving an entry another value overwrites it in the map. -/
theorem Holds.overwrite (h : Holds t d m) {e : DictEntry K V} {val : V}
    {rest : List (DictEntry K V)} (hp : allEntries d ~ e :: rest)
    (hp' : allEntries d' ~ { e with val := val } :: rest) :
    Holds t d' (m.insert (t.cls e.key) val) := by
  have hm : m.entries = ⟨t.cls e.key, e.val⟩ ::ₘ pairs t rest := h.trans (pairs_perm hp)
  rw [Holds, entries_overwrite hm, pairs_perm hp', pairs_cons]

/-- The keys of the two tables are distinct. -/
theorem Holds.disjoint (h : Holds t d m) {a b : DictEntry K V} (ha : a ∈ entries d.ht0)
    (hb : b ∈ entries d.ht1) : t.keyCompare a.key b.key ≠ 0 := by
  intro hk
  have hnd := m.nodupKeys
  rw [h] at hnd
  have hnd : ((entries d.ht0 ++ entries d.ht1).map fun e =>
      (⟨t.cls e.key, e.val⟩ : Σ _ : t.Class, V)).NodupKeys := hnd
  rw [List.NodupKeys, List.keys, List.map_map, List.map_append, List.nodup_append] at hnd
  exact hnd.2.2 _ (List.mem_map_of_mem ha) _ (List.mem_map_of_mem hb) (t.cls_eq_iff.mpr hk)

end Holds

/-! ## The calls -/

/-- What `dictFind` finds is an entry of the table it names; where it finds
nothing, the key is in neither table. -/
theorem find_spec {t : KeyType K} {d : Dict K V} (h : Inv t.toDictType d) (key : K) :
    ∃ r, dictFind t.toDictType d key = some r ∧
      (∀ i e, r = some (i, e) → t.cls e.key = t.cls key ∧
        ((i = 0 ∧ e ∈ entries d.ht0) ∨
          (i = 1 ∧ e ∈ entries d.ht1 ∧ dictIsRehashing d = true))) ∧
      (r = none → ∀ e ∈ allEntries d, t.cls e.key ≠ t.cls key) := by
  cases h with
  | fresh => exact ⟨none, rfl, (fun _ _ e => by cases e), fun _ e he => absurd he List.not_mem_nil⟩
  | @idle ht wf hs =>
    obtain ⟨r, hr, hf, hn⟩ := find_ok wf key
    have hz : ht.size ≠ 0 := by have := wf.size_pos; omega
    cases r with
    | none =>
      refine ⟨none, by simp [dictFind, hz, hr], (fun _ _ e => by cases e), fun _ => ?_⟩
      simpa [allEntries, entries_dictReset] using hn rfl
    | some e =>
      refine ⟨some (0, e), by simp [dictFind, hz, hr], fun i e' he => ?_, (fun e => by cases e)⟩
      cases he
      exact ⟨(hf e rfl).2, .inl ⟨rfl, (hf e rfl).1⟩⟩
  | @rehashing ht0 ht1 i wf0 wf1 hs hb =>
    obtain ⟨r, hr, hf, hn⟩ := find_ok wf0 key
    have hz : ht0.size ≠ 0 := by have := wf0.size_pos; omega
    cases r with
    | some e =>
      refine ⟨some (0, e), by simp [dictFind, hz, hr], fun i e' he => ?_, (fun e => by cases e)⟩
      cases he
      exact ⟨(hf e rfl).2, .inl ⟨rfl, (hf e rfl).1⟩⟩
    | none =>
      obtain ⟨r', hr', hf', hn'⟩ := find_ok wf1 key
      cases r' with
      | none =>
        refine ⟨none, by simp [dictFind, hz, hr, hr'], (fun _ _ e => by cases e), fun _ e he => ?_⟩
        exact (List.mem_append.mp he).elim (hn rfl e) (hn' rfl e)
      | some e =>
        refine ⟨some (1, e), by simp [dictFind, hz, hr, hr'], fun i e' he => ?_, (fun e => by cases e)⟩
        cases he
        exact ⟨(hf' e rfl).2, .inr ⟨rfl, (hf' e rfl).1, by simp⟩⟩

/-- `dictFind` looks the key up in the map. -/
theorem find_lookup {t : KeyType K} {d : Dict K V} {m : KeyMap t V} (h : Inv t.toDictType d)
    (hm : Holds t d m) (key : K) :
    ∃ r, dictFind t.toDictType d key = some r ∧
      m.lookup (t.cls key) = r.map fun r => r.2.val := by
  obtain ⟨r, hr, hf, hn⟩ := find_spec h key
  refine ⟨r, hr, ?_⟩
  cases r with
  | none => exact Finmap.lookup_eq_none.mpr (hm.not_mem (hn rfl))
  | some r =>
    obtain ⟨i, e⟩ := r
    obtain ⟨hk, hi⟩ := hf i e rfl
    have he : e ∈ allEntries d := by
      rcases hi with ⟨-, he⟩ | ⟨-, he, -⟩
      · exact List.mem_append_left _ he
      · exact List.mem_append_right _ he
    rw [← hk, hm.lookup he]
    rfl

variable [Inhabited V]

/-- `dictAdd` on a dict that holds `m`. -/
theorem add_ok {t : KeyType K} {d : Dict K V} {m : KeyMap t V} (h : Inv t.toDictType d)
    (hm : Holds t d m) (key : K) (val : V)
    (hne : ¬ StartsEmptyStep t.toDictType d (.add key val)) :
    ∃ d', dictCall t.toDictType d (.add key val) = some ((mapCall t m (.add key val)).1, d') ∧
      Inv t.toDictType d' ∧ Holds t d' (mapCall t m (.add key val)).2 := by
  obtain ⟨r, hr, hl⟩ := find_lookup h hm key
  cases r with
  | some r =>
    have hmem : t.cls key ∈ m := Finmap.mem_of_lookup_eq_some hl
    exact ⟨d, by simp [dictCall, dictAdd, hr, mapCall, mapAdd, hmem], h,
      by simpa [mapCall, mapAdd, hmem] using hm⟩
  | none =>
    have hmem : t.cls key ∉ m := Finmap.lookup_eq_none.mp hl
    obtain ⟨d', hd, hi, -, hp⟩ := addEntry_ok h { key := key, val := val }
      fun hre he => hne ⟨by rw [dictContains, hr]; rfl, hre, he⟩
    exact ⟨d', by simp [dictCall, dictAdd, hr, hd, mapCall, mapAdd, hmem], hi,
      by simpa [mapCall, mapAdd, hmem] using hm.insert (e := ⟨key, val⟩) hmem hp⟩

/-- `dictReplace` on a dict that holds `m`. -/
theorem replace_ok {t : KeyType K} {d : Dict K V} {m : KeyMap t V} (h : Inv t.toDictType d)
    (hm : Holds t d m) (key : K) (val : V) :
    ∃ d', dictCall t.toDictType d (.replace key val) =
        some ((mapCall t m (.replace key val)).1, d') ∧
      Inv t.toDictType d' ∧ Holds t d' (mapCall t m (.replace key val)).2 := by
  obtain ⟨r, hr, hf, hn⟩ := find_spec h key
  cases r with
  | none =>
    have hmem : t.cls key ∉ m := hm.not_mem (hn rfl)
    exact ⟨d, by simp [dictCall, dictReplace, hr, mapCall, mapReplace, hmem], h,
      by simpa [mapCall, mapReplace, hmem] using hm⟩
  | some r =>
    obtain ⟨i, e⟩ := r
    obtain ⟨hk, hi⟩ := hf i e rfl
    have hmem : t.cls key ∈ m := by
      rw [← hk]
      refine Finmap.mem_of_lookup_eq_some (hm.lookup ?_)
      exact List.mem_append.mpr (hi.imp (·.2) (·.2.1))
    simp only [dictCall, dictReplace, hr, mapCall, mapReplace, if_pos hmem, Option.map_some]
    refine ⟨_, rfl, ?_⟩
    rcases hi with ⟨rfl, he⟩ | ⟨rfl, he, hre⟩
    · rw [if_pos rfl]
      cases h with
      | fresh => cases he
      | idle wf hs =>
        obtain ⟨w, e', rest, hk', p, p'⟩ := setVal_ok wf he hk val
        rw [← hk']
        exact ⟨.idle w hs, hm.overwrite (p.append_right _) (p'.append_right _)⟩
      | rehashing wf0 wf1 hs hb =>
        obtain ⟨w, e', rest, hk', p, p'⟩ := setVal_ok wf0 he hk val
        rw [← hk']
        exact ⟨.rehashing w wf1 hs (setVal_below hb key val),
          hm.overwrite (p.append_right _) (p'.append_right _)⟩
    · rw [if_neg (by decide)]
      cases h with
      | fresh => cases he
      | idle => cases hre
      | @rehashing ht0 ht1 i wf0 wf1 hs hb =>
        obtain ⟨w, e', rest, hk', p, p'⟩ := setVal_ok wf1 he hk val
        rw [← hk']
        exact ⟨.rehashing wf0 w hs hb, hm.overwrite
          ((p.append_left (entries ht0)).trans List.perm_middle)
          ((p'.append_left (entries ht0)).trans List.perm_middle)⟩

/-- `dictFetchValue` on a dict that holds `m`. -/
theorem fetch_ok {t : KeyType K} {d : Dict K V} {m : KeyMap t V} (h : Inv t.toDictType d)
    (hm : Holds t d m) (key : K) (hne : ¬ StartsEmptyStep t.toDictType d (.fetchValue key)) :
    ∃ d', dictCall t.toDictType d (.fetchValue key) =
        some ((mapCall t m (.fetchValue key)).1, d') ∧
      Inv t.toDictType d' ∧ Holds t d' m := by
  obtain ⟨d₁, h₁, i₁, -, -, p₁⟩ := rehashIfNeed_ok h fun hr he => hne ⟨hr, he⟩
  obtain ⟨r, hr, hl⟩ := find_lookup i₁ (hm.perm p₁) key
  refine ⟨d₁, ?_, i₁, hm.perm p₁⟩
  simp only [dictCall, dictFetchValue, h₁, hr, Option.bind_some, Option.map_some, mapCall,
    mapFetchValue, hl]
  cases r <;> rfl

/-- `dictDelete` on a dict that holds `m`. -/
theorem delete_ok {t : KeyType K} {d : Dict K V} {m : KeyMap t V} (h : Inv t.toDictType d)
    (hm : Holds t d m) (key : K) (hne : ¬ StartsEmptyStep t.toDictType d (.delete key)) :
    ∃ d', dictCall t.toDictType d (.delete key) = some ((mapCall t m (.delete key)).1, d') ∧
      Inv t.toDictType d' ∧ Holds t d' (mapCall t m (.delete key)).2 := by
  obtain ⟨i₁, w₁, a₁, -, -⟩ := expandIfNeed_ok h
  obtain ⟨d₂, h₂, i₂, w₂, -, p₂⟩ := rehashIfNeed_ok i₁ fun hr he => hne ⟨hr, he⟩
  have hm₂ : Holds t d₂ m := hm.perm (a₁ ▸ p₂)
  have w₂ := w₂ w₁
  simp only [dictCall, dictDelete, h₂, Option.bind_some]
  -- the entry is unlinked from one of the tables, or is in none
  have found : ∀ (d' : Dict K V) (e : DictEntry K V), t.cls e.key = t.cls key →
      allEntries d₂ ~ e :: allEntries d' → t.cls key ∈ m ∧ Holds t d' (m.erase (t.cls key)) := by
    intro d' e hk hp
    rw [← hk]
    exact ⟨Finmap.mem_of_lookup_eq_some (hm₂.lookup (hp.mem_iff.mpr List.mem_cons_self)),
      hm₂.erase hp⟩
  cases i₂ with
  | fresh => exact absurd rfl w₂.ne_nil
  | @idle ht wf hs =>
    obtain ⟨r, hr, hf, hn⟩ := unlink_ok wf key
    cases r with
    | some ht' =>
      obtain ⟨w', s', e, hk, hp⟩ := hf ht' rfl
      obtain ⟨hmem, hm'⟩ := found { ht0 := ht', ht1 := dictReset, rehashidx := -1 } e hk
        (by simpa [allEntries, entries_dictReset] using hp)
      exact ⟨_, by simp [hr, mapCall, mapDelete, hmem], .idle w' (s' ▸ hs),
        by simpa [mapCall, mapDelete, hmem] using hm'⟩
    | none =>
      have hmem : t.cls key ∉ m := hm₂.not_mem (by simpa [allEntries, entries_dictReset] using hn rfl)
      exact ⟨_, by simp [hr, mapCall, mapDelete, hmem], .idle wf hs,
        by simpa [mapCall, mapDelete, hmem] using hm₂⟩
  | @rehashing ht0 ht1 i wf0 wf1 hs hb =>
    obtain ⟨r, hr, hf, hn⟩ := unlink_ok wf0 key
    cases r with
    | some ht' =>
      obtain ⟨w', -, e, hk, hp⟩ := hf ht' rfl
      obtain ⟨hmem, hm'⟩ := found { ht0 := ht', ht1 := ht1, rehashidx := i } e hk (hp.append_right _)
      exact ⟨_, by simp [hr, mapCall, mapDelete, hmem], .rehashing w' wf1 hs (unlink_below hr hb),
        by simpa [mapCall, mapDelete, hmem] using hm'⟩
    | none =>
      obtain ⟨r', hr', hf', hn'⟩ := unlink_ok wf1 key
      cases r' with
      | some ht' =>
        obtain ⟨w', s', e, hk, hp⟩ := hf' ht' rfl
        obtain ⟨hmem, hm'⟩ := found { ht0 := ht0, ht1 := ht', rehashidx := i } e hk
          ((hp.append_left (entries ht0)).trans List.perm_middle)
        exact ⟨_, by simp [hr, hr', mapCall, mapDelete, hmem], .rehashing wf0 w' (s' ▸ hs) hb,
          by simpa [mapCall, mapDelete, hmem] using hm'⟩
      | none =>
        have hmem : t.cls key ∉ m := hm₂.not_mem fun e he =>
          (List.mem_append.mp he).elim (hn rfl e) (hn' rfl e)
        exact ⟨_, by simp [hr, hr', mapCall, mapDelete, hmem], .rehashing wf0 wf1 hs hb,
          by simpa [mapCall, mapDelete, hmem] using hm₂⟩

/-- Every call on a dict that holds `m`. -/
theorem call_ok {t : KeyType K} {d : Dict K V} {m : KeyMap t V} (h : Inv t.toDictType d)
    (hm : Holds t d m) (op : DictOp K V) (hne : ¬ StartsEmptyStep t.toDictType d op) :
    ∃ d', dictCall t.toDictType d op = some ((mapCall t m op).1, d') ∧
      Inv t.toDictType d' ∧ Holds t d' (mapCall t m op).2 := by
  cases op with
  | add key val => exact add_ok h hm key val hne
  | replace key val => exact replace_ok h hm key val
  | fetchValue key => exact fetch_ok h hm key hne
  | delete key => exact delete_ok h hm key hne
  | contains key =>
    obtain ⟨r, hr, hl⟩ := find_lookup h hm key
    have hb : r.isSome = decide (t.cls key ∈ m) := by
      rw [Bool.eq_iff_iff, decide_eq_true_iff, ← Finmap.lookup_isSome, hl, Option.isSome_map]
    exact ⟨d, by simp [dictCall, dictContains, hr, mapCall, mapContains, hb], h, hm⟩
  | size =>
    have hs : dictSize d = m.keys.card := by
      rw [card_keys, hm, pairs, Multiset.coe_card, List.length_map, allEntries, List.length_append,
        dictSize]
      cases h with
      | fresh => rfl
      | idle wf _ => rw [wf.used]; rfl
      | rehashing wf0 wf1 _ _ => rw [wf0.used, wf1.used]
    exact ⟨d, by simp [dictCall, mapCall, mapSize, hs], h, hm⟩

/-- Every run of calls that never starts a migration step with an empty `ht0`. -/
theorem run_ok {t : KeyType K} {d : Dict K V} {m : KeyMap t V} (h : Inv t.toDictType d)
    (hm : Holds t d m) (ops : List (DictOp K V))
    (hne : Along (dictCall t.toDictType) (fun d op => ¬ StartsEmptyStep t.toDictType d op) d ops) :
    ∃ d', run (dictCall t.toDictType) d ops = some ((runTotal (mapCall t) m ops).1, d') ∧
      Inv t.toDictType d' ∧ Holds t d' (runTotal (mapCall t) m ops).2 :=
  run_simulates (R := fun (d : Dict K V) m => Inv t.toDictType d ∧ Holds t d m)
    (fun _ _ op hr hne => call_ok hr.1 hr.2 op hne) ops ⟨h, hm⟩ hne

/-- **A dict refines a finite map.** A run of calls from `dictCreate` that never
starts a migration step with an empty `ht0` is defined, replies as the run on
the finite map does, and ends in a dict that holds that map, no key of which is
in both tables. -/
theorem dict_refines_map (t : KeyType K) (ops : List (DictOp K V))
    (h : Along (dictCall t.toDictType) (fun d op => ¬ StartsEmptyStep t.toDictType d op)
      dictCreate ops) :
    ∃ d, run (dictCall t.toDictType) dictCreate ops =
        some ((runTotal (mapCall t) ∅ ops).1, d) ∧
      Holds t d (runTotal (mapCall t) ∅ ops).2 ∧
      ∀ a ∈ entries d.ht0, ∀ b ∈ entries d.ht1, t.keyCompare a.key b.key ≠ 0 := by
  obtain ⟨d, hd, -, hm⟩ := run_ok .fresh holds_dictCreate ops h
  exact ⟨d, hd, hm, fun a ha b hb => hm.disjoint ha hb⟩

/-- A dict of five numbers, asked and changed while it grows. -/
theorem dict_refines_map_grow : ∃ d, run (dictCall natKeys.toDictType) dictCreate
      [.add 0 7, .add 1 7, .add 2 7, .add 3 7, .add 4 7, .add 3 8, .replace 3 9, .fetchValue 3,
        .delete 0, .contains 0, .size] =
      some ([.status 0, .status 0, .status 0, .status 0, .status 0, .status (-1), .status 0,
        .value 9, .status 0, .bool false, .count 4], d) := by
  obtain ⟨d, hd, -⟩ := dict_refines_map natKeys
    [.add 0 7, .add 1 7, .add 2 7, .add 3 7, .add 4 7, .add 3 8, .replace 3 9, .fetchValue 3,
      .delete 0, .contains 0, .size] (by decide)
  exact ⟨d, hd⟩

end Fedis.Proof.Dict
