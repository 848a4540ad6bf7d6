import Fedis.Proof.Dict.Iter

/-!
# The load of a dict

A table grows when it has as many entries as buckets, which is tested by equality only. While
the dict grows, every add moves an entry, so that the entries reach the new table's size with
the last of them at the earliest (`2 * ht0.used + ht1.used ≤ ht1.size`). The table that a dict
shrinks to has room for its entries but not for all that can be added before they have moved.

* `Loaded`: the bound, also while the dict rehashes;
* `call_loaded`: every call keeps it that does not crowd the smaller table (`Crowds`);
* `load_bounded`: the bound in every state reached, and what follows from it for growing;
* `crowds_breaks`: a call that crowds, and the fetches after which the bound fails.
-/

namespace Fedis.Proof.Dict

open List Fedis.Framework

universe u v

variable {K : Type u} {V : Type v} {t : DictType K} {d d' : Dict K V}

/-- A table that is not being rehashed has no more entries than buckets. -/
def Bounded (d : Dict K V) : Prop :=
  dictIsRehashing d = false → d.ht0.table ≠ [] → d.ht0.used ≤ d.ht0.size

/-- A new key is added while the dict shrinks, or starts to, and the smaller table has no
bucket left for another entry. -/
def Crowds (t : DictType K) (d : Dict K V) : DictOp K V → Prop
  | .add key _ => dictContains t d key = some false ∧ dictIsRehashing (dictExpandIfNeed d) = true ∧
      (dictExpandIfNeed d).ht1.size < (dictExpandIfNeed d).ht0.size ∧
      (dictExpandIfNeed d).ht1.size ≤ dictSize d
  | .replace .. | .fetchValue _ | .contains _ | .delete _ | .size => False

instance (t : DictType K) (d : Dict K V) : DecidablePred (Crowds t d)
  | .add .. => instDecidableAnd
  | .replace .. | .fetchValue _ | .contains _ | .delete _ | .size => instDecidableFalse

/-- The load is bounded now, and will be when the rehash ends. -/
def Loaded (d : Dict K V) : Prop :=
  if dictIsRehashing d = true then
    (d.ht1.size < d.ht0.size ∧ dictSize d ≤ d.ht1.size) ∨ 2 * d.ht0.used + d.ht1.used ≤ d.ht1.size
  else d.ht0.used ≤ d.ht0.size

/-! ## Counters and sizes -/

theorem link_counts {ht ht' : DictHT K V} {e : DictEntry K V} (h : ht.link t e = some ht') :
    ht'.used = ht.used + 1 ∧ ht'.size = ht.size := by
  obtain ⟨c, -, rfl⟩ := Option.map_eq_some_iff.mp h
  exact ⟨rfl, rfl⟩

theorem unlink_counts {ht ht' : DictHT K V} {key : K} (h : ht.unlink t key = some (some ht')) :
    ht'.used ≤ ht.used ∧ ht'.size = ht.size := by
  obtain ⟨c, -, h⟩ := Option.map_eq_some_iff.mp h
  split at h
  · cases h
    exact ⟨Nat.sub_le _ _, rfl⟩
  · cases h

/-- A migration step moves one entry, and with the last one the table. -/
theorem rehashStep_counts (h : Counted d.ht0) (e : dictRehashStep t d = some d') :
    (d.ht0.used = 1 ∧ dictIsRehashing d' = false ∧ d'.ht0.used = d.ht1.used + 1 ∧
        d'.ht0.size = d.ht1.size) ∨
      (dictIsRehashing d' = true ∧ d'.ht0.used + 1 = d.ht0.used ∧ d'.ht1.used = d.ht1.used + 1 ∧
        d'.ht0.size = d.ht0.size ∧ d'.ht1.size = d.ht1.size ∧ d'.ht0.used ≠ 0) := by
  rw [dictRehashStep] at e
  dsimp only at e
  generalize skipEmpty d.ht0 (d.ht0.size - d.rehashidx.toNat) d.rehashidx.toNat = i at e
  cases hc : d.ht0.table[i]? with
  | none => rw [hc] at e; cases e
  | some c =>
    cases c with
    | nil => rw [hc] at e; cases e
    | cons a c =>
      rw [hc] at e
      obtain ⟨ht1, hl, e⟩ := Option.map_eq_some_iff.mp e
      obtain ⟨hu, hs⟩ := link_counts hl
      have hpos : d.ht0.used ≠ 0 := fun hz => by
        have hmem : a ∈ entries d.ht0 :=
          List.mem_flatten.mpr ⟨_, List.mem_of_getElem? hc, List.mem_cons_self⟩
        rw [h.entries_eq_nil.mpr hz] at hmem
        cases hmem
      split at e
      · cases e
        exact .inl ⟨by omega, rfl, hu, hs⟩
      · cases e
        exact .inr ⟨isRehashing_ofNat _ _ _, by dsimp only; omega, hu, rfl, hs, ‹_›⟩

/-! ## Growing and shrinking -/

/-- `dictExpandIfNeed` keeps the load bounded, and leaves room in a dict that stays idle. -/
theorem expandIfNeed_loaded (h : Inv t d) (hl : Loaded d) :
    Loaded (dictExpandIfNeed d) ∧ dictSize (dictExpandIfNeed d) = dictSize d ∧
      (dictIsRehashing (dictExpandIfNeed d) = false →
        (dictExpandIfNeed d).ht0.used < (dictExpandIfNeed d).ht0.size) := by
  cases h with
  | fresh => exact ⟨Nat.zero_le _, rfl, fun _ => Nat.zero_lt_succ _⟩
  | @idle ht wf hs =>
    have hle : ht.used ≤ ht.size := hl
    rcases expandIfNeed_idle wf hs with ⟨e, hne⟩ | ⟨k, -, -, e, hk⟩
    · rw [e]
      exact ⟨hl, rfl, fun _ => Nat.lt_of_le_of_ne hle hne⟩
    · rw [e]
      refine ⟨?_, rfl, fun hr => absurd hr (by rw [isRehashing_ofNat]; decide)⟩
      rw [Loaded, if_pos (isRehashing_ofNat _ _ _)]
      simp only [dictSize, dictAlloc]
      omega
  | @rehashing ht0 ht1 i wf0 wf1 hs hb =>
    have e : dictExpandIfNeed { ht0 := ht0, ht1 := ht1, rehashidx := i } =
        { ht0 := ht0, ht1 := ht1, rehashidx := i } := by simp [dictExpandIfNeed]
    rw [e]
    exact ⟨hl, rfl, fun hr => by simp at hr⟩

/-- A migration step keeps the load bounded; in a dict that grows it makes room for an entry. -/
theorem rehashStep_loaded (h : Counted d.ht0)
    (hl : (d.ht1.size < d.ht0.size ∧ dictSize d ≤ d.ht1.size) ∨
      2 * d.ht0.used + d.ht1.used ≤ d.ht1.size + 1)
    (e : dictRehashStep t d = some d') : Loaded d' := by
  rw [dictSize] at hl
  rcases rehashStep_counts h e with ⟨hu, hr, hu', hs⟩ | ⟨hr, hu, hu', hs, hs', -⟩
  · rw [Loaded, if_neg (by simp [hr])]
    omega
  · rw [Loaded, if_pos hr, dictSize]
    omega

theorem rehashIfNeed_loaded (h : Inv t d) (hl : Loaded d) (e : dictRehashIfNeed t d = some d') :
    Loaded d' := by
  rw [dictRehashIfNeed] at e
  split at e
  · rename_i hr
    rw [Loaded, if_pos hr] at hl
    exact rehashStep_loaded h.counted.1 (by omega) e
  · cases e
    exact hl

/-- Fewer entries in the same tables. -/
theorem Loaded.fewer (hl : Loaded d) (hi : d'.rehashidx = d.rehashidx)
    (u₀ : d'.ht0.used ≤ d.ht0.used) (s₀ : d'.ht0.size = d.ht0.size)
    (u₁ : d'.ht1.used ≤ d.ht1.used) (s₁ : d'.ht1.size = d.ht1.size) : Loaded d' := by
  have hr : dictIsRehashing d' = dictIsRehashing d := by rw [dictIsRehashing, hi, dictIsRehashing]
  rw [Loaded, dictSize] at hl ⊢
  rw [hr]
  split
  · rename_i hr
    rw [if_pos hr] at hl
    omega
  · rename_i hr
    rw [if_neg hr] at hl
    omega

/-! ## The calls -/

theorem add_loaded (h : Inv t d) (hl : Loaded d) {key : K} {val : V} {r : Int}
    (hc : ¬ Crowds t d (.add key val)) (e : dictAdd t d key val = some (r, d')) : Loaded d' := by
  rw [dictAdd] at e
  cases hf : dictFind t d key with
  | none => rw [hf] at e; cases e
  | some f =>
    rw [hf] at e
    cases f with
    | some f =>
      cases e
      exact hl
    | none =>
      have hnew : dictContains t d key = some false := by rw [dictContains, hf]; rfl
      obtain ⟨d₁, e, hd⟩ := Option.map_eq_some_iff.mp e
      cases hd
      obtain ⟨hl₁, hsize, hroom⟩ := expandIfNeed_loaded h hl
      have hx := expandIfNeed_ok h
      rw [dictAddEntry] at e
      split at e
      · rename_i hr
        obtain ⟨ht1, hlink, e⟩ := Option.bind_eq_some_iff.mp e
        obtain ⟨hu, hs⟩ := link_counts hlink
        have hfits : (dictExpandIfNeed d).ht1.size < (dictExpandIfNeed d).ht0.size →
            dictSize d < (dictExpandIfNeed d).ht1.size := fun hlt =>
          Nat.lt_of_not_le fun hle => hc ⟨hnew, hr, hlt, hle⟩
        rw [Loaded, if_pos hr] at hl₁
        refine rehashStep_loaded (d := { dictExpandIfNeed d with ht1 := ht1 }) hx.inv.counted.1 ?_ e
        simp only [dictSize] at hsize hl₁ hfits ⊢
        omega
      · rename_i hr
        obtain ⟨ht0, hlink, e⟩ := Option.map_eq_some_iff.mp e
        obtain ⟨hu, hs⟩ := link_counts hlink
        have hroom := hroom (by simpa using hr)
        cases e
        rw [Loaded]
        split
        · exact absurd ‹_› hr
        · dsimp only
          omega

theorem replace_loaded (hl : Loaded d) {key : K} {val : V} {r : Int}
    (e : dictReplace t d key val = some (r, d')) : Loaded d' := by
  rw [dictReplace] at e
  split at e
  · cases e
  · cases e
    exact hl
  · cases e
    split
    · exact hl
    · exact hl

theorem delete_loaded (h : Inv t d) (hl : Loaded d) {key : K} {r : Int}
    (e : dictDelete t d key = some (r, d')) : Loaded d' := by
  rw [dictDelete] at e
  obtain ⟨d₂, e₂, e⟩ := Option.bind_eq_some_iff.mp e
  have hl₂ := rehashIfNeed_loaded (expandIfNeed_ok h).inv (expandIfNeed_loaded h hl).1 e₂
  cases hu : d₂.ht0.unlink t key with
  | none => rw [hu] at e; cases e
  | some q =>
    rw [hu] at e
    cases q with
    | some ht0 =>
      obtain ⟨hu₀, hs₀⟩ := unlink_counts hu
      cases e
      exact hl₂.fewer rfl hu₀ hs₀ (Nat.le_refl _) rfl
    | none =>
      dsimp only at e
      split at e
      · obtain ⟨q, hu₁, e⟩ := Option.map_eq_some_iff.mp e
        cases q with
        | some ht1 =>
          obtain ⟨hu₁, hs₁⟩ := unlink_counts hu₁
          cases e
          exact hl₂.fewer rfl (Nat.le_refl _) rfl hu₁ hs₁
        | none =>
          cases e
          exact hl₂
      · cases e
        exact hl₂

/-- Every call that does not crowd keeps the load bounded. -/
theorem call_loaded [Inhabited V] (h : Inv t d) (hl : Loaded d) {op : DictOp K V} {r : DictReply V}
    (hc : ¬ Crowds t d op) (e : dictCall t d op = some (r, d')) : Loaded d' := by
  cases op with
  | size =>
    cases e
    exact hl
  | contains key =>
    obtain ⟨b, -, hb⟩ := Option.map_eq_some_iff.mp e
    cases hb
    exact hl
  | fetchValue key =>
    obtain ⟨q, hq, hd⟩ := Option.map_eq_some_iff.mp e
    obtain ⟨d₁, e₁, e₂⟩ := Option.bind_eq_some_iff.mp hq
    obtain ⟨f, -, hf⟩ := Option.map_eq_some_iff.mp e₂
    cases hf
    cases hd
    exact rehashIfNeed_loaded h hl e₁
  | add key val =>
    obtain ⟨q, hq, hd⟩ := Option.map_eq_some_iff.mp e
    cases hd
    exact add_loaded h hl hc hq
  | replace key val =>
    obtain ⟨q, hq, hd⟩ := Option.map_eq_some_iff.mp e
    cases hd
    exact replace_loaded hl hq
  | delete key =>
    obtain ⟨q, hq, hd⟩ := Option.map_eq_some_iff.mp e
    cases hd
    exact delete_loaded h hl hq

/-! ## Runs -/

theorem loaded_dictCreate : Loaded (dictCreate : Dict K V) := Nat.zero_le _

theorem run_loaded [Inhabited V] {ops : List (DictOp K V)} {rs : List (DictReply V)}
    (h : run (dictCall t) dictCreate ops = some (rs, d))
    (hc : Along (dictCall t) (fun d op => ¬ Crowds t d op) dictCreate ops) : Inv t d ∧ Loaded d :=
  run_invariant (I := fun d => Inv t d ∧ Loaded d)
    (fun _ _ _ _ hi hc e => ⟨call_inv hi.1 e, call_loaded hi.1 hi.2 hc e⟩) ops
    ⟨.fresh, loaded_dictCreate⟩ hc h

/-- Adding a new key to an idle dict fills one more of its buckets, or starts a rehash. -/
theorem add_idle {ht : DictHT K V} (wf : Wf t ht) (hs : DICT_INITIAL_SIZE ≤ ht.size) {key : K}
    {val : V}
    (e : dictAdd t { ht0 := ht, ht1 := dictReset, rehashidx := -1 } key val = some (DICT_OK, d')) :
    dictIsRehashing d' = true ∨
      (dictIsRehashing d' = false ∧ d'.ht0.used = ht.used + 1 ∧ d'.ht0.size = ht.size ∧
        ht.used ≠ ht.size) := by
  rw [dictAdd] at e
  split at e
  · cases e
  · exact absurd (Prod.mk.inj (Option.some.inj e)).1 (by decide)
  · obtain ⟨d₁, e, hd⟩ := Option.map_eq_some_iff.mp e
    cases hd
    rw [dictAddEntry] at e
    rcases expandIfNeed_idle wf hs with ⟨hx, hne⟩ | ⟨k, -, h4, hx, -⟩
    · rw [hx] at e
      obtain ⟨ht', hl, hd⟩ := Option.map_eq_some_iff.mp e
      obtain ⟨hu, hsz⟩ := link_counts hl
      cases hd
      exact .inr ⟨rfl, hu, hsz, hne⟩
    · rw [hx] at e
      simp only [isRehashing_ofNat, if_true] at e
      obtain ⟨ht1, -, e⟩ := Option.bind_eq_some_iff.mp e
      -- a rehash starts with four entries or more
      rcases rehashStep_counts wf.counted e with ⟨hu, -⟩ | ⟨hr, -⟩
      · dsimp only at hu
        omega
      · exact .inl hr

/-- An idle dict to which more new keys are added than it has room for starts a rehash. -/
theorem adds_rehash [Inhabited V] : ∀ (adds : List (K × V)) {d d' : Dict K V}, Inv t d → Loaded d →
    dictIsRehashing d = false → d.ht0.table ≠ [] → d.ht0.size < d.ht0.used + adds.length →
    run (dictCall t) d (adds.map fun a => .add a.1 a.2) =
      some (List.replicate adds.length (.status DICT_OK), d') →
    ∃ k d₁, k ≤ adds.length ∧ run (dictCall t) d ((adds.take k).map fun a => .add a.1 a.2) =
      some (List.replicate k (.status DICT_OK), d₁) ∧ dictIsRehashing d₁ = true
  | [], d, _, _, hl, hr, _, hlen, _ => by
    rw [Loaded, if_neg (by simp [hr])] at hl
    rw [List.length_nil] at hlen
    omega
  | a :: adds, d, d', h, hl, hr, hne, hlen, hrun => by
    obtain ⟨b, d₁, bs, e, hrest, hbs⟩ := run_cons_eq_some.mp hrun
    obtain ⟨rfl, rfl⟩ := List.cons_eq_cons.mp (hbs.symm.trans List.replicate_succ)
    obtain ⟨q, hq, hd⟩ := Option.map_eq_some_iff.mp e
    obtain ⟨hq₁, rfl⟩ := Prod.mk.inj hd
    have hq : dictAdd t d a.1 a.2 = some (DICT_OK, q.2) := by
      rw [hq, ← DictReply.status.inj hq₁]
    cases h with
    | fresh => exact absurd rfl hne
    | rehashing => rw [isRehashing_ofNat] at hr; cases hr
    | @idle ht wf hs =>
      have hle : ht.used ≤ ht.size := hl
      rcases add_idle wf hs hq with hr₁ | ⟨hr₁, hu, hsz, hroom⟩
      · exact ⟨1, q.2, by simp, run_cons_eq_some.mpr ⟨_, q.2, [], e, rfl, rfl⟩, hr₁⟩
      · have hi₁ : Inv t q.2 := add_inv (.idle wf hs) hq
        have hl₁ : Loaded q.2 := by
          rw [Loaded, if_neg (by simp [hr₁])]
          omega
        have hne₁ : q.2.ht0.table ≠ [] := by
          rw [← List.length_pos_iff, hi₁.counted.1.length, hsz]
          exact wf.size_pos
        rw [List.length_cons] at hlen
        obtain ⟨k, d₂, hk, hrun₂, hr₂⟩ :=
          adds_rehash adds hi₁ hl₁ hr₁ hne₁ (by dsimp only at hlen; omega) hrest
        exact ⟨k + 1, d₂, Nat.succ_le_succ hk,
          run_cons_eq_some.mpr ⟨_, q.2, _, e, hrun₂, rfl⟩, hr₂⟩

/-- **The load of a dict stays bounded** in every run without an add that crowds; and an idle
dict that it leads to starts a rehash when more new keys are added than it has room for. -/
theorem load_bounded [Inhabited V] {ops : List (DictOp K V)} {rs : List (DictReply V)}
    (h : run (dictCall t) dictCreate ops = some (rs, d))
    (hc : Along (dictCall t) (fun d op => ¬ Crowds t d op) dictCreate ops) :
    Bounded d ∧ ∀ (adds : List (K × V)) d', dictIsRehashing d = false → d.ht0.table ≠ [] →
      d.ht0.size < d.ht0.used + adds.length →
      run (dictCall t) d (adds.map fun a => .add a.1 a.2) =
        some (List.replicate adds.length (.status DICT_OK), d') →
      ∃ k d₁, k ≤ adds.length ∧ run (dictCall t) d ((adds.take k).map fun a => .add a.1 a.2) =
        some (List.replicate k (.status DICT_OK), d₁) ∧ dictIsRehashing d₁ = true := by
  obtain ⟨hi, hl⟩ := run_loaded h hc
  refine ⟨fun hr _ => ?_, fun adds d' hr hne hlen hrun => adds_rehash adds hi hl hr hne hlen hrun⟩
  rwa [Loaded, if_neg (by simp [hr])] at hl

/-- A dict of five numbers, and a delete while it grows. -/
theorem load_bounded_grow : ∃ rs d, run (dictCall natKeys.toDictType) dictCreate
      [.add 0 7, .add 1 7, .add 2 7, .add 3 7, .add 4 7, .delete 4, .fetchValue 3] = some (rs, d) ∧
    Bounded d :=
  have hc : Along (dictCall natKeys.toDictType) (fun d op => ¬ Crowds natKeys.toDictType d op) dictCreate
      [.add 0 7, .add 1 7, .add 2 7, .add 3 7, .add 4 7, .delete 4, .fetchValue 3] := by decide
  ⟨_, _, rfl, (load_bounded rfl hc).1⟩

/-! ## Crowding -/

/-- More entries than there are buckets in the table that they are in, or are moved to. -/
def Overfull (d : Dict K V) : Prop :=
  if dictIsRehashing d = true then d.ht1.size < dictSize d else d.ht0.size < d.ht0.used

theorem rehashStep_overfull (h : Counted d.ht0) (ho : d.ht1.size < dictSize d)
    (e : dictRehashStep t d = some d') :
    Overfull d' ∧ (dictIsRehashing d' = true → d'.ht0.used + 1 = d.ht0.used ∧ d'.ht0.used ≠ 0) := by
  rw [dictSize] at ho
  rcases rehashStep_counts h e with ⟨hu, hr, hu', hs⟩ | ⟨hr, hu, hu', hs, hs', hne⟩
  · rw [Overfull, if_neg (by simp [hr])]
    exact ⟨by omega, fun hr' => by rw [hr] at hr'; cases hr'⟩
  · rw [Overfull, if_pos hr, dictSize]
    exact ⟨by omega, fun _ => ⟨hu, hne⟩⟩

theorem Overfull.not_bounded (h : Inv t d) (ho : Overfull d) (hr : dictIsRehashing d = false) :
    ¬ Bounded d := by
  rw [Overfull, if_neg (by simp [hr])] at ho
  refine fun hb => absurd (hb hr fun hnil => ?_) (Nat.not_le.mpr ho)
  have hc := h.counted.1
  have := hc.used
  rw [entries, hnil, List.flatten_nil, List.length_nil] at this
  omega

/-- Fetches end the rehash of an overfull dict. -/
theorem fetches_break [Inhabited V] (key : K) : ∀ (n : Nat) {d : Dict K V}, Inv t d → Overfull d →
    (dictIsRehashing d = true → d.ht0.used ≠ 0 ∧ d.ht0.used ≤ n) →
    ∃ k rs d', run (dictCall t) d (List.replicate k (.fetchValue key)) = some (rs, d') ∧ ¬ Bounded d'
  | n, d, h, ho, hn => by
    cases hr : dictIsRehashing d with
    | false => exact ⟨0, [], d, rfl, ho.not_bounded h hr⟩
    | true =>
      obtain ⟨hne, hle⟩ := hn hr
      cases n with
      | zero => omega
      | succ n =>
        have hwork : entries d.ht0 ≠ [] := fun hnil => hne (h.counted.1.entries_eq_nil.mp hnil)
        obtain ⟨d₁, e₁, m⟩ := rehash_ok h hr hwork
        rw [Overfull, if_pos hr] at ho
        obtain ⟨ho₁, hn₁⟩ := rehashStep_overfull h.counted.1 ho e₁
        obtain ⟨r, hf, -⟩ := find_total m.inv key
        obtain ⟨k, rs, d', hrun, hb⟩ := fetches_break key n m.inv ho₁
          fun hr₁ => ⟨(hn₁ hr₁).2, by have := hn₁ hr₁; omega⟩
        have hcall : ∃ b, dictCall t d (.fetchValue key) = some (b, d₁) := by
          simp only [dictCall, dictFetchValue, dictRehashIfNeed, if_pos hr, e₁, Option.bind_some, hf,
            Option.map_some]
          exact ⟨_, rfl⟩
        obtain ⟨b, hcall⟩ := hcall
        exact ⟨k + 1, b :: rs, d', run_cons_eq_some.mpr ⟨b, d₁, rs, hcall, hrun, rfl⟩, hb⟩

/-- **Every call that crowds breaks the bound**: fetches can follow that end the rehash with
more entries than buckets. -/
theorem crowds_breaks [Inhabited V] (h : Inv t d) {op : DictOp K V} {r : DictReply V}
    (hc : Crowds t d op) (e : dictCall t d op = some (r, d')) (key : K) :
    ∃ k rs d₂, run (dictCall t) d' (List.replicate k (.fetchValue key)) = some (rs, d₂) ∧
      ¬ Bounded d₂ := by
  cases op with
  | replace | fetchValue | contains | delete | size => exact absurd hc id
  | add key' val =>
    obtain ⟨hnew, hr, hlt, hle⟩ := hc
    have hi := call_inv h e
    obtain ⟨q, hq, hd⟩ := Option.map_eq_some_iff.mp e
    cases hd
    obtain ⟨f, hf, hnone⟩ := Option.map_eq_some_iff.mp hnew
    rw [dictAdd, hf] at hq
    cases f with
    | some => cases hnone
    | none =>
      obtain ⟨d₁, hadd, hd⟩ := Option.map_eq_some_iff.mp hq
      cases hd
      have hx := expandIfNeed_ok h
      rw [dictAddEntry] at hadd
      simp only [hr, if_true] at hadd
      obtain ⟨ht1, hlink, hstep⟩ := Option.bind_eq_some_iff.mp hadd
      obtain ⟨hu, hs⟩ := link_counts hlink
      have hsize : dictSize (dictExpandIfNeed d) = dictSize d := by
        have hc := hx.inv.counted
        have hc' := h.counted
        have := congrArg List.length hx.all
        simp only [allEntries, List.length_append] at this
        rw [dictSize, dictSize, hc.1.used, hc.2.used, hc'.1.used, hc'.2.used, this]
      obtain ⟨ho, hn⟩ := rehashStep_overfull (d := { dictExpandIfNeed d with ht1 := ht1 })
        hx.inv.counted.1 (by simp only [dictSize] at hsize hle ⊢; omega) hstep
      exact fetches_break key d₁.ht0.used hi ho fun hr₁ => ⟨(hn hr₁).2, Nat.le_refl _⟩

/-- Adds of the keys from `i` on. -/
def addKeys (i n : Nat) : List (DictOp Nat Nat) := (List.range' i n).map fun k => .add k 0

/-- A dict with 17 keys in 32 buckets, of which 11 are deleted. The first add behind them starts
to shrink it to 8 buckets, and behind the sixth it has 12 keys in them. -/
def crowdingRun : List (DictOp Nat Nat) :=
  addKeys 0 17 ++ List.replicate 15 (.fetchValue 0) ++ (List.range 11).map .delete ++ addKeys 20 6

/-- The dict has more entries than buckets, and more adds do not let it grow. -/
theorem load_unbounded : ∃ rs d d', run (dictCall natKeys.toDictType) dictCreate crowdingRun =
      some (rs, d) ∧ ¬ Bounded d ∧ d.ht0.size = 8 ∧ d.ht0.used = 12 ∧
    run (dictCall natKeys.toDictType) d (addKeys 30 8) = some (List.replicate 8 (.status 0), d') ∧
    dictIsRehashing d' = false ∧ d'.ht0.size = 8 ∧ d'.ht0.used = 20 := by
  have hrun : ((run (dictCall natKeys.toDictType) dictCreate crowdingRun).bind fun q =>
      (run (dictCall natKeys.toDictType) q.2 (addKeys 30 8)).map fun q' =>
        ((dictIsRehashing q.2, q.2.ht0.table == [], q.2.ht0.size, q.2.ht0.used), q'.1,
          (dictIsRehashing q'.2, q'.2.ht0.size, q'.2.ht0.used))) =
      some ((false, false, 8, 12), List.replicate 8 (.status 0), (false, 8, 20)) := by decide
  obtain ⟨⟨rs, d⟩, h₁, hrun⟩ := Option.bind_eq_some_iff.mp hrun
  obtain ⟨⟨rs', d'⟩, h₂, hrun⟩ := Option.map_eq_some_iff.mp hrun
  simp only [Prod.mk.injEq] at hrun
  obtain ⟨⟨hr, hne, hs, hu⟩, rfl, hr', hs', hu'⟩ := hrun
  refine ⟨rs, d, d', h₁, fun hb => ?_, hs, hu, h₂, hr', hs', hu'⟩
  have := hb hr (by simpa using hne)
  omega

end Fedis.Proof.Dict
