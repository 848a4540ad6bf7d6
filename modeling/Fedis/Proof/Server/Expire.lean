import Fedis.Proof.Server.SetGet

/-!
# EXPIRE

`commandExpireProc` does not look whether the key is there, and stores the deadline with
`dictAdd`, which refuses a key that has one. So EXPIRE does what it is to do if and only if the
key has either a value or a deadline, but not both, and the sum is a `long`
(`setsDeadline_iff`); and a sequence of them does if and only if each finds the key so
(`last_expire_iff`).
-/

namespace Fedis.Proof.Server

open Framework

variable {s s' : RedisServer} {c : ClientId} {key : Bytes} {a : Env × Bytes} {db : RedisDb}

/-- A call of EXPIRE's handler for a key, at a time and with a number. -/
def expireCall (c : ClientId) (key : Bytes) (s : RedisServer) (a : Env × Bytes) :
    Option (Unit × RedisServer) :=
  match commandExpireProc a.1 s c [bytes "EXPIRE", key, a.2] with
  | .ok s' => some ((), s')
  | .error _ => none

/-- The client has got this reply. -/
def Gets (c : ClientId) (s s' : RedisServer) (reply : Bytes) : Prop :=
  (s'.client c).writeBuf.content = (s.client c).writeBuf.content ++ reply

/-- A call with a number sets the deadline, new or not, where the key has a value and the
deadline is a `long`; otherwise it replies an error and leaves the database as it is. -/
def ExpiresAsAsked (c : ClientId) (key : Bytes) (s : RedisServer) (a : Env × Bytes) : Prop :=
  ∀ n, string2long a.2 = some n → ∃ s' db, expireCall c key s a = some ((), s') ∧
    s.getDb (s.client c).db = .ok db ∧
    if cstr key ∈ db.kv ∧ inLong (n + a.1.now) then
      Gets c s s' resp.ok ∧ s'.getDb (s.client c).db =
        .ok { db with expires := db.expires.insert (cstr key) (n + a.1.now) }
    else Gets c s s' resp.err ∧ s'.getDb (s.client c).db = .ok db

/-- The deadline of the call is a `long`, and the key has a value or a deadline, but not both. -/
def Settable (c : ClientId) (key : Bytes) (s : RedisServer) (a : Env × Bytes) : Prop :=
  ∀ n, string2long a.2 = some n → inLong (n + a.1.now) ∧
    ∃ db, s.getDb (s.client c).db = .ok db ∧ (cstr key ∈ db.kv ↔ cstr key ∉ db.expires)

theorem expireCall_ok : expireCall c key s a = some ((), s') ↔
    commandExpireProc a.1 s c [bytes "EXPIRE", key, a.2] = .ok s' := by
  rw [expireCall]
  cases commandExpireProc a.1 s c [bytes "EXPIRE", key, a.2] <;> simp

/-- A key that has a deadline keeps it. -/
theorem afterExpire_has (hdb : s.getDb (s.client c).db = .ok db) (h : cstr key ∈ db.expires)
    (n : Int) : Gets c s (afterExpire s c db key n) resp.err ∧
      (afterExpire s c db key n).getDb (s.client c).db = .ok db := by
  rw [afterExpire, if_pos h]
  refine ⟨?_, getDb_setDb hdb db⟩
  rw [Gets, addWrite_content, setDb_client]
  rfl

/-- A key that has none gets one. -/
theorem afterExpire_new {k : Bytes} (hdb : s.getDb (s.client c).db = .ok db) (h : cstr k ∉ db.expires)
    (n : Int) : Gets c s (afterExpire s c db k n) resp.ok ∧
      (afterExpire s c db k n).getDb (s.client c).db =
        .ok { db with expires := db.expires.insert (cstr k) n } := by
  rw [afterExpire, if_neg h]
  refine ⟨?_, getDb_setDb hdb _⟩
  show ((addWrite _ c resp.ok).client c).writeBuf.content = _
  rw [addWrite_content, setDb_client]
  rfl

theorem afterExpire_selected {d : RedisDb} {k : Bytes} (n : Int) :
    ((afterExpire s c d k n).client c).db = (s.client c).db := by
  rw [afterExpire]
  split
  · exact addWrite_field _ c _ (·.db) (fun _ _ => rfl) c
  · exact addWrite_field _ c _ (·.db) (fun _ _ => rfl) c

/-- The two replies are different. -/
theorem Gets.ne (h : Gets c s s' resp.ok) (h' : Gets c s s' resp.err) : False := by
  have := List.append_cancel_left (h.symm.trans h')
  exact absurd this (by decide)

/-- What a call with a number leaves. -/
theorem expireCall_number {n : Int} (hn : string2long a.2 = some n)
    (hdb : s.getDb (s.client c).db = .ok db) : expireCall c key s a = some ((), s') ↔
      inLong (n + a.1.now) ∧ s' = afterExpire s c db key (n + a.1.now) := by
  rw [expireCall_ok, commandExpireProc_ok]
  constructor
  · rintro ⟨key', arg, hk, ha, ⟨hnone, -⟩ | ⟨n', db', hn', hin, hdb', rfl⟩⟩
    · cases ha
      rw [hn] at hnone
      cases hnone
    · cases hk
      cases ha
      cases hn.symm.trans hn'
      cases hdb.symm.trans hdb'
      exact ⟨hin, rfl⟩
  · rintro ⟨hin, rfl⟩
    exact ⟨key, a.2, rfl, rfl, .inr ⟨n, db, hn, hin, hdb, rfl⟩⟩

/-- **One EXPIRE does what it is to do** if and only if the key has a value or a deadline, but
not both, and the deadline is a `long`. -/
theorem setsDeadline_iff (hdb : s.getDb (s.client c).db = .ok db) :
    ExpiresAsAsked c key s a ↔ Settable c key s a := by
  refine forall_congr' fun n => imp_congr_right fun hn => ?_
  constructor
  · rintro ⟨s', db', e, hdb', h⟩
    cases hdb.symm.trans hdb'
    obtain ⟨hin, rfl⟩ := (expireCall_number hn hdb).mp e
    refine ⟨hin, db, hdb, ?_⟩
    by_cases hk : cstr key ∈ db.kv
    · rw [if_pos ⟨hk, hin⟩] at h
      exact iff_of_true hk fun hx => h.1.ne (afterExpire_has hdb hx _).1
    · rw [if_neg fun hp => hk hp.1] at h
      exact iff_of_false hk fun hx => (afterExpire_new hdb hx _).1.ne h.1
  · rintro ⟨hin, db', hdb', hx⟩
    cases hdb.symm.trans hdb'
    refine ⟨_, db, (expireCall_number hn hdb).mpr ⟨hin, rfl⟩, hdb, ?_⟩
    by_cases hk : cstr key ∈ db.kv
    · rw [if_pos ⟨hk, hin⟩]
      exact afterExpire_new hdb (hx.mp hk) _
    · rw [if_neg fun hp => hk hp.1]
      exact afterExpire_has hdb (not_not.mp (mt hx.mpr hk)) _

/-- A call keeps the client's database selected, and there. -/
theorem expireCall_keeps {r : Unit} (h : ∃ db, s.getDb (s.client c).db = .ok db)
    (e : expireCall c key s a = some (r, s')) : ∃ db, s'.getDb (s'.client c).db = .ok db := by
  obtain ⟨db, hdb⟩ := h
  obtain ⟨key', arg, -, -, ⟨-, rfl⟩ | ⟨n, db', -, -, hdb', rfl⟩⟩ :=
    commandExpireProc_ok.mp (expireCall_ok.mp e)
  · exact ⟨db, by rw [addWrite_field s c _ (·.db) (fun _ _ => rfl) c]; exact hdb⟩
  · rw [afterExpire_selected]
    by_cases hx : cstr key' ∈ db'.expires
    · exact ⟨_, (afterExpire_has hdb' hx _).2⟩
    · exact ⟨_, (afterExpire_new hdb' hx _).2⟩

/-- **The last EXPIRE wins** in a sequence of them for one key if and only if each finds the key
with a value or a deadline, but not both, and its deadline is a `long`. -/
theorem last_expire_iff (hdb : s.getDb (s.client c).db = .ok db) (as : List (Env × Bytes)) :
    Along (expireCall c key) (ExpiresAsAsked c key) s as ↔
      Along (expireCall c key) (Settable c key) s as :=
  along_congr (I := fun s => ∃ db, s.getDb (s.client c).db = .ok db)
    (fun _ _ _ _ hi e => expireCall_keeps hi e) (fun _ _ ⟨_, hdb⟩ => setsDeadline_iff hdb) as ⟨db, hdb⟩

/-- A server whose only key has a value. -/
def sampleTimed : RedisServer :=
  { sampleServer false with db := [{ dbInit with
    kv := (∅ : DbMap Robj).insert (bytes "k") (robjCreateStringObject (bytes "v")) }] }

/-- The first EXPIRE of a key with a value. -/
theorem last_expire_iff_first : Along (expireCall 7 (bytes "k")) (ExpiresAsAsked 7 (bytes "k")) sampleTimed
    [(⟨1000, none⟩, bytes "100")] := by
  refine (last_expire_iff (show sampleTimed.getDb (sampleTimed.client 7).db = .ok _ from rfl) _).mpr
    ⟨fun n hn => ?_, fun _ _ _ => trivial⟩
  cases (show string2long (bytes "100") = some 100 by decide).symm.trans hn
  refine ⟨by decide, _, rfl, iff_of_true ?_ Finmap.notMem_empty⟩
  exact Finmap.mem_of_lookup_eq_some (Finmap.lookup_insert _)

/-- The second EXPIRE is refused, and an EXPIRE of a key that is not there is not. -/
theorem second_expire_refused :
    ¬ Along (expireCall 7 (bytes "k")) (ExpiresAsAsked 7 (bytes "k")) sampleTimed
        [(⟨1000, none⟩, bytes "100"), (⟨1000, none⟩, bytes "200")] ∧
      ¬ ExpiresAsAsked 7 (bytes "x") sampleTimed (⟨1000, none⟩, bytes "100") := by
  have hdb : sampleTimed.getDb (sampleTimed.client 7).db = .ok { dbInit with
    kv := (∅ : DbMap Robj).insert (bytes "k") (robjCreateStringObject (bytes "v")) } := rfl
  have hn₁ : string2long (bytes "100") = some 100 := by decide
  have hn₂ : string2long (bytes "200") = some 200 := by decide
  have hk : cstr (bytes "k") = bytes "k" := by decide
  constructor
  · intro h
    obtain ⟨hsecond, -⟩ := h.2 _ _ ((expireCall_number hn₁ hdb).mpr ⟨by decide, rfl⟩)
    have hnew := (afterExpire_new (k := bytes "k") hdb Finmap.notMem_empty (100 + 1000)).2
    rw [← afterExpire_selected (k := bytes "k") (d := { dbInit with
      kv := (∅ : DbMap Robj).insert (bytes "k") (robjCreateStringObject (bytes "v")) })
        (100 + 1000)] at hnew
    obtain ⟨-, db, hdb', hx⟩ := (setsDeadline_iff hnew).mp hsecond 200 hn₂
    cases hnew.symm.trans hdb'
    refine hx.mp ?_ ?_
    · exact Finmap.mem_of_lookup_eq_some (by rw [hk]; exact Finmap.lookup_insert _)
    · exact Finmap.mem_of_lookup_eq_some (by rw [hk]; exact Finmap.lookup_insert _)
  · intro h
    obtain ⟨-, db, hdb', hx⟩ := (setsDeadline_iff hdb).mp h 100 hn₁
    cases hdb.symm.trans hdb'
    refine absurd (hx.mpr Finmap.notMem_empty) fun hm => ?_
    have hne : cstr (bytes "x") ≠ bytes "k" := by decide
    rcases Finmap.mem_insert.mp hm with hm | hm
    · exact hne hm
    · exact Finmap.notMem_empty hm

end Fedis.Proof.Server
