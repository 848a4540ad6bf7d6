import Fedis.Impl.DbDicts
import Fedis.Proof.Dict.Keys
import Fedis.Proof.Server.Command

/-!
# Lazy expiration

`expireIfNeed` on the dicts does what it does on the maps that they hold, unless it starts a
migration step in a dict whose `ht0` has no entry (`expireIfNeed_refines`). It never removes a
deadline, because `dictDelete` does not return more than 0: so it removes the key completely on
no input where it is to, and leaves both maps alone on every other (`expires_removed_iff`).
-/

namespace Fedis.Proof.Dict

open Fedis.Framework

variable {db db' : DbDicts} {m : RedisDb} {key : Bytes} {now : Int}

/-- The dicts of a database, and the maps that they hold. -/
structure Represents (db : DbDicts) (m : RedisDb) : Prop where
  kvInv : Inv dbDictType db.kv
  kv : Holds dbKeys db.kv m.kv
  expiresInv : Inv dbDictType db.expires
  expires : Holds dbKeys db.expires m.expires

/-! ## The calls on a map that is held -/

section Holds

universe u v

variable {K : Type u} {V : Type v} {t : KeyType K} {d : Dict K V} {m m' : KeyMap t V} {key : K}

/-- A dict holds one map only. -/
theorem Holds.unique (h : Holds t d m) (h' : Holds t d m') : m = m' := Finmap.ext (h.trans h'.symm)

theorem contains_holds (h : Inv t.toDictType d) (hm : Holds t d m) (key : K) :
    dictContains t.toDictType d key = some (mapContains m (t.cls key)) := by
  obtain ⟨r, hr, hl⟩ := find_lookup h hm key
  rw [dictContains, hr, Option.map_some, mapContains, Option.some.injEq, Bool.eq_iff_iff,
    decide_eq_true_iff, ← Finmap.lookup_isSome, hl, Option.isSome_map]

/-- `dictDelete` returns 0 or -1. -/
theorem not_lt_delete {t : DictType K} {d d' : Dict K V} {r : Int}
    (e : dictDelete t d key = some (r, d')) : ¬ 0 < r := by
  rw [dictDelete] at e
  obtain ⟨d₂, -, e⟩ := Option.bind_eq_some_iff.mp e
  split at e
  · cases e
  · cases e
    decide
  · split at e
    · obtain ⟨q, -, e⟩ := Option.map_eq_some_iff.mp e
      cases q with
      | some ht1 =>
        cases e
        decide
      | none =>
        cases e
        decide
    · cases e
      decide

variable [Inhabited V]

theorem fetch_holds (h : Inv t.toDictType d) (hm : Holds t d m)
    (hne : ¬ StartsEmptyStep t.toDictType d (.fetchValue key)) :
    ∃ d', dictFetchValue t.toDictType d key = some (mapFetchValue m (t.cls key), d') ∧
      Inv t.toDictType d' ∧ Holds t d' m := by
  obtain ⟨d', e, hi, hm'⟩ := fetch_ok h hm key hne
  obtain ⟨⟨v, d₁⟩, hq, hr⟩ := Option.map_eq_some_iff.mp e
  obtain ⟨hv, rfl⟩ := Prod.mk.inj hr
  have hv : v = mapFetchValue m (t.cls key) := DictReply.value.inj hv
  exact ⟨d₁, by rw [hq, hv], hi, hm'⟩

theorem delete_holds (h : Inv t.toDictType d) (hm : Holds t d m)
    (hne : ¬ StartsEmptyStep t.toDictType d (.delete key)) :
    ∃ d', dictDelete t.toDictType d key = some ((mapDelete m (t.cls key)).1, d') ∧
      Inv t.toDictType d' ∧ Holds t d' (mapDelete m (t.cls key)).2 := by
  obtain ⟨d', e, hi, hm'⟩ := delete_ok h hm key hne
  obtain ⟨⟨v, d₁⟩, hq, hr⟩ := Option.map_eq_some_iff.mp e
  obtain ⟨hv, rfl⟩ := Prod.mk.inj hr
  have hv : v = (mapDelete m (t.cls key)).1 := DictReply.status.inj hv
  exact ⟨d₁, by rw [hq, hv], hi, hm'⟩

/-- A migration step with an empty `ht0` is not defined. -/
theorem fetch_empty (h : Inv t.toDictType d)
    (hs : StartsEmptyStep t.toDictType d (.fetchValue key)) :
    dictFetchValue t.toDictType d key = none := by
  obtain ⟨hr, he⟩ := hs
  cases h with
  | fresh => cases hr
  | idle => cases hr
  | rehashing wf0 wf1 hsz hb =>
    rw [dictFetchValue, dictRehashIfNeed, if_pos hr, rehashStep_empty wf0 hb he, Option.bind_none]

end Holds

/-! ## `expireIfNeed` -/

/-- The deadline of the key is over. -/
def Passed (m : RedisDb) (key : Bytes) (now : Int) : Prop :=
  ∃ expireAt, m.expires.lookup (cstr key) = some expireAt ∧ expireAt < now

/-- A call on the dicts starts no migration step in a dict with an empty `ht0`. -/
def NoEmptyStep (db : DbDicts) (m : RedisDb) (key : Bytes) (now : Int) : Prop :=
  (cstr key ∈ m.expires → ¬ StartsEmptyStep dbDictType db.expires (.fetchValue key)) ∧
    (Passed m key now → ¬ StartsEmptyStep dbDictType db.kv (.delete key : DictOp Bytes Robj))

theorem passed_iff : Passed m key now ↔
    cstr key ∈ m.expires ∧ mapFetchValue m.expires (cstr key) < now := by
  rw [← Finmap.lookup_isSome, mapFetchValue, Passed]
  cases m.expires.lookup (cstr key) <;> simp

/-- `expireIfNeed` on the dicts is `expireIfNeed` on the maps. -/
theorem expireIfNeed_refines (h : Represents db m) (hne : NoEmptyStep db m key now) :
    ∃ db', expireIfNeedDicts db key now = some db' ∧
      Represents db' (expireIfNeed m (cstr key) now) := by
  have hc : dictContains dbDictType db.expires key = some (mapContains m.expires (cstr key)) :=
    contains_holds (t := dbKeys) h.expiresInv h.expires key
  rw [expireIfNeedDicts, hc, Server.expireIfNeed_eq]
  by_cases hk : cstr key ∈ m.expires
  · obtain ⟨expires, e₁, hi, hm⟩ :=
      fetch_holds (t := dbKeys) h.expiresInv h.expires (hne.1 hk)
    have e₁ : dictFetchValue dbDictType db.expires key =
      some (mapFetchValue m.expires (cstr key), expires) := e₁
    simp only [Option.bind_eq_bind, Option.bind_some, mapContains, decide_eq_true hk, if_true, e₁]
    by_cases hp : mapFetchValue m.expires (cstr key) < now
    · have : Inhabited Robj := ⟨.int 0⟩
      obtain ⟨kv, e₂, hi', hm'⟩ :=
        delete_holds (t := dbKeys) h.kvInv h.kv (hne.2 (passed_iff.mpr ⟨hk, hp⟩))
      have e₂ : dictDelete dbDictType db.kv key = some ((mapDelete m.kv (cstr key)).1, kv) := e₂
      -- the first deletion says 0 or -1
      have hle : ¬ 0 < (mapDelete m.kv (cstr key)).1 := not_lt_delete e₂
      have herase : (mapDelete m.kv (cstr key)).2 = m.kv.erase (cstr key) := by
        rw [mapDelete]
        split
        · rfl
        · exact (Server.erase_of_notMem ‹_›).symm
      rw [if_pos hp, e₂, Option.bind_some, if_neg hle, if_pos ⟨hk, hp⟩]
      exact ⟨_, rfl, hi', herase ▸ hm', hi, hm⟩
    · rw [if_neg hp, if_neg fun h => hp h.2]
      exact ⟨_, rfl, h.kvInv, h.kv, hi, hm⟩
  · rw [if_neg fun h => hk h.1]
    simp only [Option.bind_eq_bind, Option.bind_some, mapContains, decide_eq_false hk,
      Bool.false_eq_true, if_false]
    exact ⟨db, rfl, h⟩

/-- `expireIfNeed` returns, and leaves the maps without the key where its deadline is over, and
as they were where it is not. -/
def Expires (db : DbDicts) (m : RedisDb) (key : Bytes) (now : Int) : Prop :=
  ∃ db' m', expireIfNeedDicts db key now = some db' ∧ Represents db' m' ∧
    (Passed m key now → m'.kv = m.kv.erase (cstr key) ∧ m'.expires = m.expires.erase (cstr key)) ∧
    (¬ Passed m key now → m'.kv = m.kv ∧ m'.expires = m.expires)

/-- **The key is removed completely, and nothing else, only where it is not to be removed**: if
it has a deadline, this is not over, and looking for it starts no migration step with an empty
`ht0`. -/
theorem expires_iff (h : Represents db m) :
    Expires db m key now ↔ ∀ expireAt, m.expires.lookup (cstr key) = some expireAt →
      now ≤ expireAt ∧ ¬ StartsEmptyStep dbDictType db.expires (.fetchValue key) := by
  constructor
  · rintro ⟨db', m', e, hr, hpassed, -⟩ expireAt hat
    have hk : cstr key ∈ m.expires := Finmap.mem_of_lookup_eq_some hat
    have hc : dictContains dbDictType db.expires key = some (mapContains m.expires (cstr key)) :=
      contains_holds (t := dbKeys) h.expiresInv h.expires key
    rw [expireIfNeedDicts, hc] at e
    simp only [Option.bind_eq_bind, Option.bind_some, mapContains, decide_eq_true hk, if_true] at e
    have hne : ¬ StartsEmptyStep dbDictType db.expires (.fetchValue key) := fun hs => by
      rw [show dictFetchValue dbDictType db.expires key = none from
        fetch_empty (t := dbKeys) h.expiresInv hs] at e
      cases e
    refine ⟨Int.not_lt.mp fun hlt => ?_, hne⟩
    obtain ⟨expires, e₁, -, hm⟩ := fetch_holds (t := dbKeys) h.expiresInv h.expires hne
    have e₁ : dictFetchValue dbDictType db.expires key =
      some (mapFetchValue m.expires (cstr key), expires) := e₁
    have hp : Passed m key now := ⟨expireAt, hat, hlt⟩
    rw [e₁, Option.bind_some, if_pos (passed_iff.mp hp).2] at e
    obtain ⟨⟨r, kv⟩, e₂, e⟩ := Option.bind_eq_some_iff.mp e
    simp only [if_neg (not_lt_delete e₂)] at e
    -- the deadlines are what they were
    cases e
    have hsame : m.expires = m'.expires := Holds.unique (t := dbKeys) hm hr.expires
    rw [(hpassed hp).2] at hsame
    rw [hsame] at hk
    exact Finmap.notMem_erase_self hk
  · intro hall
    have hnot : ¬ Passed m key now := by
      rintro ⟨expireAt, hat, hlt⟩
      exact absurd hlt (Int.not_lt.mpr (hall expireAt hat).1)
    have hne : NoEmptyStep db m key now := by
      refine ⟨fun hk => ?_, fun hp => absurd hp hnot⟩
      obtain ⟨expireAt, hat⟩ := Finmap.mem_iff.mp hk
      exact (hall expireAt hat).2
    obtain ⟨db', e, hr⟩ := expireIfNeed_refines h hne
    refine ⟨db', _, e, hr, fun hp => absurd hp hnot, fun _ => ?_⟩
    rw [Server.expireIfNeed_eq, if_neg fun hp => hnot (passed_iff.mpr hp)]
    exact ⟨rfl, rfl⟩

/-- A dict with one key. -/
def dictOf {V : Type} (key : Bytes) (val : V) : Dict Bytes V :=
  ((dictAdd dbDictType dictCreate key val).map Prod.snd).getD dictCreate

theorem dictOf_holds {V : Type} [Inhabited V] (key : Bytes) (val : V) :
    Inv dbDictType (dictOf key val) ∧
      Holds dbKeys (dictOf key val) ((∅ : DbMap V).insert (cstr key) val) := by
  obtain ⟨d, e, hi, hm⟩ := add_ok (t := dbKeys) .fresh holds_dictCreate key val fun h => by
    cases h.2.1
  obtain ⟨⟨r, d'⟩, hq, hr⟩ := Option.map_eq_some_iff.mp e
  obtain ⟨-, rfl⟩ := Prod.mk.inj hr
  have hd : dictOf key val = d' := by
    rw [dictOf, show dictAdd dbDictType dictCreate key val = _ from hq]
    rfl
  rw [hd]
  exact ⟨hi, hm⟩

/-- The key `k` with a value, and a deadline of 10. -/
def sampleDicts : DbDicts := { kv := dictOf [107] (.int 1), expires := dictOf [107] 10 }

def sampleMaps : RedisDb where
  kv := (∅ : DbMap Robj).insert [107] (.int 1)
  expires := (∅ : DbMap Int).insert [107] 10
  watchedKeys := ∅

theorem represents_sample : Represents sampleDicts sampleMaps := by
  have : Inhabited Robj := ⟨.int 0⟩
  obtain ⟨hi, hm⟩ := dictOf_holds [107] (Robj.int 1)
  obtain ⟨hi', hm'⟩ := dictOf_holds [107] (10 : Int)
  exact ⟨hi, hm, hi', hm'⟩

/-- Before its deadline the key is left alone. -/
theorem expires_iff_before : Expires sampleDicts sampleMaps [107] 5 :=
  (expires_iff represents_sample).mpr fun expireAt hat => by
    have hat : some 10 = some expireAt := (Finmap.lookup_insert _).symm.trans hat
    cases hat
    exact ⟨by decide, fun h => by cases h.1⟩

/-- Behind its deadline the key loses its value but not its deadline. -/
theorem expires_keeps_deadline : ¬ Expires sampleDicts sampleMaps [107] 20 ∧
    ∃ db', expireIfNeedDicts sampleDicts [107] 20 = some db' ∧
      dictContains dbDictType db'.kv [107] = some false ∧
      dictContains dbDictType db'.expires [107] = some true := by
  constructor
  · intro h
    have := (expires_iff represents_sample).mp h 10 (Finmap.lookup_insert _)
    exact absurd this.1 (by decide)
  · have hrun : ((expireIfNeedDicts sampleDicts [107] 20).bind fun db' =>
        (dictContains dbDictType db'.kv [107]).bind fun a =>
          (dictContains dbDictType db'.expires [107]).map fun b => (a, b)) = some (false, true) := by
      decide
    obtain ⟨db', h, hrun⟩ := Option.bind_eq_some_iff.mp hrun
    obtain ⟨a, ha, hrun⟩ := Option.bind_eq_some_iff.mp hrun
    obtain ⟨b, hb, hab⟩ := Option.map_eq_some_iff.mp hrun
    cases hab
    exact ⟨db', h, ha, hb⟩

end Fedis.Proof.Dict
