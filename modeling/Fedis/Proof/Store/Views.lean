import Fedis.Proof.Server.Command
import Fedis.Spec.Store

/-!
# What a database holds of a store

A key whose deadline has passed is deleted when it is next asked for; until then the database holds
what is not seen any more (`Views`). So expiration changes nothing (`Views.expire`), and what
commands do to the database they do to the store.
-/

namespace Fedis.Proof.Server

open Framework

variable {db : RedisDb} {st st' : Store} {i : Nat} {now : Int}

/-- The database holds what is seen, and all deadlines. -/
structure Views (st : Store) (i : Nat) (db : RedisDb) : Prop where
  deadline : ∀ k, db.expires.lookup k = st.deadline i k
  value : ∀ k, ¬ st.Passed i k → db.kv.lookup k = (st.value i k).map robjCreateStringObject
  unwatched : db.watchedKeys = ∅

theorem passed_later (h : st.Passed i k) (hle : st.now ≤ now) : { st with now := now }.Passed i k := by
  obtain ⟨d, hd, hlt⟩ := h
  exact ⟨d, hd, by simpa using hlt.trans_le hle⟩

theorem Views.later (h : Views st i db) (hle : st.now ≤ now) : Views { st with now := now } i db where
  deadline := h.deadline
  value k hp := h.value k fun hpassed => hp (passed_later hpassed hle)
  unwatched := h.unwatched

theorem Views.expired (h : Views st i db) (key : Bytes) :
    (key ∈ db.expires ∧ mapFetchValue db.expires key < st.now) ↔ st.Passed i key := by
  unfold Store.Passed
  rw [← h.deadline key, mapFetchValue, ← Finmap.lookup_isSome]
  cases db.expires.lookup key <;> simp

/-- Expiration takes away only what is not seen. -/
theorem Views.expire (h : Views st i db) (key : Bytes) :
    Views st i (expireIfNeed db key st.now) ∧
      (expireIfNeed db key st.now).kv.lookup key = (st.seen i key).map robjCreateStringObject := by
  rw [expireIfNeed_eq, Store.seen]
  by_cases hp : st.Passed i key
  · rw [if_pos ((h.expired key).mpr hp), if_pos hp]
    refine ⟨⟨h.deadline, fun k hk => ?_, h.unwatched⟩, ?_⟩
    · have hne : k ≠ key := fun e => hk (e ▸ hp)
      rw [Finmap.lookup_erase_ne hne]
      exact h.value k hk
    · exact Finmap.lookup_erase _ _
  · rw [if_neg (mt (h.expired key).mp hp), if_neg hp]
    exact ⟨h, h.value key hp⟩

theorem setValue_value (st : Store) (i j : Nat) (k k' : Bytes) (v : Option Bytes) :
    (st.setValue i k v).value j k' = if j = i ∧ k' = k then v else st.value j k' := by
  rw [Store.setValue]
  by_cases hj : j = i
  · subst hj
    by_cases hk : k' = k
    · subst hk
      simp
    · simp [hk]
  · simp [hj]

theorem setDeadline_deadline (st : Store) (i j : Nat) (k k' : Bytes) (d : Int) :
    (st.setDeadline i k d).deadline j k' = if j = i ∧ k' = k then some d else st.deadline j k' := by
  rw [Store.setDeadline]
  by_cases hj : j = i
  · subst hj
    by_cases hk : k' = k
    · subst hk
      simp
    · simp [hk]
  · simp [hj]

/-- Another database. -/
theorem Views.congr {j : Nat} (h : Views st j db) (hd : st'.deadline j = st.deadline j)
    (hv : st'.value j = st.value j) (hn : st'.now = st.now) : Views st' j db where
  deadline k := by rw [h.deadline, hd]
  value k hp := by
    rw [hv]
    refine h.value k fun hpassed => hp ?_
    rwa [Store.Passed, hd, hn]
  unwatched := h.unwatched

theorem Views.insert (h : Views st i db) (k v : Bytes) :
    Views (st.setValue i k (some v)) i { db with kv := db.kv.insert k (robjCreateStringObject v) } where
  deadline := h.deadline
  value k' hp := by
    rw [setValue_value]
    by_cases hk : k' = k
    · rw [if_pos ⟨rfl, hk⟩, hk]
      exact Finmap.lookup_insert _
    · rw [if_neg fun e => hk e.2, Finmap.lookup_insert_of_ne _ hk]
      exact h.value k' hp
  unwatched := h.unwatched

theorem Views.erase (h : Views st i db) (k : Bytes) :
    Views (st.setValue i k none) i { db with kv := db.kv.erase k } where
  deadline := h.deadline
  value k' hp := by
    rw [setValue_value]
    by_cases hk : k' = k
    · rw [if_pos ⟨rfl, hk⟩, hk]
      exact Finmap.lookup_erase _ _
    · rw [if_neg fun e => hk e.2, Finmap.lookup_erase_ne hk]
      exact h.value k' hp
  unwatched := h.unwatched

/-- A key that gets a deadline had none, and was seen. -/
theorem Views.setDeadline (h : Views st i db) (hk : st.deadline i k = none) (d : Int) :
    Views (st.setDeadline i k d) i { db with expires := db.expires.insert k d } where
  deadline k' := by
    rw [setDeadline_deadline]
    by_cases hkk : k' = k
    · rw [if_pos ⟨rfl, hkk⟩, hkk]
      exact Finmap.lookup_insert _
    · rw [if_neg fun e => hkk e.2, Finmap.lookup_insert_of_ne _ hkk]
      exact h.deadline k'
  value k' hp := by
    refine h.value k' fun hpassed => hp ?_
    obtain ⟨d', hd', hlt⟩ := hpassed
    refine ⟨d', ?_, hlt⟩
    rw [setDeadline_deadline, if_neg]
    · exact hd'
    · rintro ⟨-, rfl⟩
      rw [hk] at hd'
      cases hd'
  unwatched := h.unwatched

theorem unwatch_nobody (h : db.watchedKeys = ∅) (k : Bytes) : unwatch db k = db := by
  rw [unwatch, if_neg]
  rw [h]
  exact Finmap.notMem_empty

/-- What is not there can be deleted. -/
theorem Views.erase_unseen (h : Views st i db) (hseen : st.seen i k = none) :
    Views st i { db with kv := db.kv.erase k } where
  deadline := h.deadline
  value k' hp := by
    by_cases hk : k' = k
    · rw [Store.seen, if_neg (hk ▸ hp)] at hseen
      rw [hk, hseen]
      exact Finmap.lookup_erase _ _
    · rw [Finmap.lookup_erase_ne hk]
      exact h.value k' hp
  unwatched := h.unwatched

end Fedis.Proof.Server
