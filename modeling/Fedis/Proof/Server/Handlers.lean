import Fedis.Proof.Encode

/-!
# What each handler does

One lemma per handler that can fail: it returns `s'` iff the arguments and the
database that it touches exist, and `s'` is what it then leaves
(`commandSetProc_ok`, …). The other handlers are their own description.
-/

namespace Fedis.Proof.Server

open Framework Resp

variable {env : Env} {s s' : RedisServer} {c : ClientId} {argv : List Bytes}

/-- What SET leaves. -/
def afterSet (s : RedisServer) (c : ClientId) (db : RedisDb) (key value : Bytes) : RedisServer :=
  { addWrite (s.setDb (s.client c).db
      { db with kv := db.kv.insert (cstr key) (robjCreateStringObject value) }) c resp.ok with
    dirty := s.dirty + 1 }

/-- `dbAdd` never fails. -/
theorem dbAdd_eq (db : RedisDb) (key : Bytes) (value : Robj) :
    dbAdd db key value = (DICT_OK, { db with kv := db.kv.insert key value }) := by
  unfold dbAdd mapContains mapReplace mapAdd
  by_cases h : key ∈ db.kv <;> simp [h]

theorem commandSetProc_ok : commandSetProc s c argv = .ok s' ↔
    ∃ key, argv[1]? = some key ∧
      ((argv.length = 2 ∧ s' = addWrite s c resp.valmissed) ∨
        ∃ value db, argv[2]? = some value ∧ s.getDb (s.client c).db = .ok db ∧
          s' = afterSet s c db key value) := by
  simp only [commandSetProc, bind_ok, argAt_ok]
  refine exists_congr fun key => and_congr_right fun _ => ?_
  by_cases hl : argv.length = 2
  · have : argv[2]? = none := List.getElem?_eq_none (by omega)
    rw [if_pos hl, pure_ok]
    simp [hl, eq_comm]
  · rw [if_neg hl]
    simp only [bind_ok, argAt_ok, dbAdd_eq, if_true, pure_ok, hl, false_and, false_or]
    constructor
    · rintro ⟨value, hv, db, hdb, rfl⟩
      exact ⟨value, db, hv, hdb, rfl⟩
    · rintro ⟨value, db, hv, hdb, rfl⟩
      exact ⟨value, hv, db, hdb, rfl⟩

theorem commandGetProc_ok : commandGetProc s c argv = .ok s' ↔
    ∃ key db, argv[1]? = some key ∧ s.getDb (s.client c).db = .ok db ∧
      ((db.kv.lookup (cstr key) = none ∧ s' = addWrite s c resp.keyNotFound) ∨
        ∃ res, db.kv.lookup (cstr key) = some res ∧ addWriteBulk s c (robjGetValStr res) = .ok s') := by
  simp only [commandGetProc, bind_ok, argAt_ok, dbGet]
  constructor
  · rintro ⟨key, hk, db, hdb, h⟩
    refine ⟨key, db, hk, hdb, ?_⟩
    cases hres : db.kv.lookup (cstr key) with
    | none => exact .inl ⟨rfl, by simpa [hres] using h.symm⟩
    | some res => exact .inr ⟨res, rfl, by simpa [hres] using h⟩
  · rintro ⟨key, db, hk, hdb, ⟨hres, rfl⟩ | ⟨res, hres, h⟩⟩
    · exact ⟨key, hk, db, hdb, by simp [hres]⟩
    · exact ⟨key, hk, db, hdb, by simp [hres, h]⟩

/-- What DEL leaves. -/
def afterDel (s : RedisServer) (c : ClientId) (db : RedisDb) (key : Bytes) : RedisServer :=
  if cstr key ∈ db.kv then
    { addWrite (s.setDb (s.client c).db { db with kv := db.kv.erase (cstr key) }) c resp.ok with
      dirty := s.dirty + 1 }
  else addWrite (s.setDb (s.client c).db db) c resp.keyNotFound

theorem commandDelProc_ok : commandDelProc s c argv = .ok s' ↔
    ∃ key db, argv[1]? = some key ∧ s.getDb (s.client c).db = .ok db ∧ s' = afterDel s c db key := by
  simp only [commandDelProc, bind_ok, argAt_ok, dbDelete, mapDelete]
  have same : ∀ key db, ((if (if cstr key ∈ db.kv then (DICT_OK, db.kv.erase (cstr key))
        else (DICT_ERR, db.kv)).1 = DICT_OK then
      pure { addWrite (s.setDb (s.client c).db { db with kv :=
        (if cstr key ∈ db.kv then (DICT_OK, db.kv.erase (cstr key)) else (DICT_ERR, db.kv)).2 }) c
          resp.ok with dirty := s.dirty + 1 }
      else pure (addWrite (s.setDb (s.client c).db { db with kv :=
        (if cstr key ∈ db.kv then (DICT_OK, db.kv.erase (cstr key)) else (DICT_ERR, db.kv)).2 }) c
          resp.keyNotFound) : Except Fault RedisServer) = .ok s') ↔ s' = afterDel s c db key := by
    intro key db
    unfold afterDel
    by_cases h : cstr key ∈ db.kv
    · simp [h, eq_comm]
    · simp [h, eq_comm, DICT_OK, DICT_ERR]
  constructor
  · rintro ⟨key, hk, db, hdb, h⟩
    exact ⟨key, db, hk, hdb, (same key db).mp h⟩
  · rintro ⟨key, db, hk, hdb, h⟩
    exact ⟨key, hk, db, hdb, (same key db).mpr h⟩

theorem commandObjectProc_ok : commandObjectProc s c argv = .ok s' ↔
    ∃ key op, argv[2]? = some key ∧ argv[1]? = some op ∧
      if strcaseeq op (bytes "ENCODING") then
        ∃ db, s.getDb (s.client c).db = .ok db ∧
          ((db.kv.lookup (cstr key) = none ∧ s' = addWrite s c resp.keyNotFound) ∨
            ∃ val, db.kv.lookup (cstr key) = some val ∧ addWriteBulk s c (encodingStr val) = .ok s')
      else s' = s := by
  simp only [commandObjectProc, bind_ok, argAt_ok, dbGet]
  constructor
  · rintro ⟨key, hk, op, hop, h⟩
    refine ⟨key, op, hk, hop, ?_⟩
    split at h
    · obtain ⟨db, hdb, h⟩ := bind_ok.mp h
      rw [if_pos ‹_›]
      refine ⟨db, hdb, ?_⟩
      cases hres : db.kv.lookup (cstr key) with
      | none => exact .inl ⟨rfl, by simpa [hres] using h.symm⟩
      | some res => exact .inr ⟨res, rfl, by simpa [hres] using h⟩
    · rw [if_neg ‹_›]
      exact (pure_ok.mp h).symm
  · rintro ⟨key, op, hk, hop, h⟩
    refine ⟨key, hk, op, hop, ?_⟩
    split at h
    · obtain ⟨db, hdb, ⟨hres, rfl⟩ | ⟨res, hres, h⟩⟩ := h
      · rw [if_pos ‹_›, hdb]
        simp [hres]
      · rw [if_pos ‹_›, hdb]
        simp [hres, h]
    · rw [if_neg ‹_›, h]
      rfl

theorem commandSlaveofProc_ok : commandSlaveofProc env s c argv = .ok s' ↔
    ∃ arg ip port rest, argv[1]? = some arg ∧ strtok arg 58 = ip :: port :: rest ∧ s.master = none ∧
      s' = connectMaster env (addWrite { s with
        flags := { s.flags with master := false, slave := true }
        masterhost := ip, masterport := atoi port } c resp.ok) := by
  simp only [commandSlaveofProc, bind_ok, argAt_ok, masterToSlave]
  constructor
  · rintro ⟨arg, ha, h⟩
    split at h
    · rename_i ip port rest hst
      obtain ⟨s₁, h₁, h⟩ := bind_ok.mp h
      split at h₁
      · cases h₁
      · rename_i hm
        cases h₁
        exact ⟨arg, ip, port, rest, ha, hst, by simpa using hm, (pure_ok.mp h).symm⟩
    · cases h
  · rintro ⟨arg, ip, port, rest, ha, hst, hm, rfl⟩
    exact ⟨arg, ha, by simp [hst, hm]⟩

/-- What an accepted SYNC leaves. -/
def afterSync (s : RedisServer) (c : ClientId) (offset : Int) : RedisServer :=
  if s.backlog.accepts offset then
    addWriteBuf (addWrite (s.modifyClient c fun client =>
      { client with replState := .masterSendAppendsync }) c resp.appendsync) c
      (s.backlog.read offset.toNat)
  else addWrite (s.modifyClient c fun client => { client with replState := .masterSendFullsync }) c
    resp.fullsync

theorem accepts_iff {b : Backlog} {offset : Int} : b.accepts offset = true ↔
    0 ≤ offset ∧ b.beginOffset ≤ offset ∧ offset < b.lastOffset := by
  simp only [Backlog.accepts, Bool.not_eq_true', Bool.or_eq_false_iff, decide_eq_false_iff_not]
  omega

theorem commandSyncProc_ok : commandSyncProc s c argv = .ok s' ↔
    ∃ arg, argv[1]? = some arg ∧
      (s.backlog.accepts (atoi (cstr arg)) → s.backlog.ReadInside (atoi (cstr arg)).toNat) ∧
      s' = afterSync s c (atoi (cstr arg)) := by
  simp only [commandSyncProc, bind_ok, argAt_ok]
  refine exists_congr fun arg => and_congr_right fun _ => ?_
  unfold afterSync
  cases ha : s.backlog.accepts (atoi (cstr arg)) with
  | false => simp [pure, Except.pure, eq_comm]
  | true =>
    have hin := (accepts_iff.mp ha).2
    by_cases hr : s.backlog.ReadInside (atoi (cstr arg)).toNat
    · simp [hin, hr, eq_comm]
    · simp [hin, hr]

theorem commandInfoProc_ok : commandInfoProc s c = .ok s' ↔ s.flags.master = true ∧
    ∃ str, respEncodeArrayStringBuf (generateInfoRespContent s) = .ok str ∧
      s' = addWrite s c str := by
  rw [commandInfoProc]
  by_cases hm : s.flags.master = true
  · rw [if_pos hm, bind_ok, and_iff_right hm]
    exact exists_congr fun str => and_congr_right fun _ => pure_ok.trans eq_comm
  · rw [if_neg hm]
    exact iff_of_false nofun fun h => hm h.1

/-- Each line of INFO is short, so that a master always replies. -/
theorem commandInfoProc_returns (hm : s.flags.master = true) : ∃ s', commandInfoProc s c = .ok s' := by
  have hs : ∀ arg ∈ generateInfoRespContent s, arg.length < 256 := by
    intro arg ha
    obtain ⟨line, -, rfl⟩ := List.mem_map.mp ha
    rw [List.length_take]
    omega
  obtain ⟨str, h, -⟩ := encode_returns hs
  exact ⟨_, commandInfoProc_ok.mpr ⟨hm, str, h, rfl⟩⟩

theorem commandSelectProc_ok : commandSelectProc s c argv = .ok s' ↔
    ∃ arg, argv[1]? = some arg ∧
      ((string2long arg = none ∧ s' = addWrite s c resp.err) ∨
        ∃ dbid, string2long arg = some dbid ∧
          addWriteBulk (s.modifyClient c fun client => { client with db := dbid }) c
            (bytes "OK, db is " ++ decimalInt (toInt32 dbid)) = .ok s') := by
  simp only [commandSelectProc, bind_ok, argAt_ok]
  refine exists_congr fun arg => and_congr_right fun _ => ?_
  cases string2long arg <;> simp [pure, Except.pure, eq_comm]

/-- What EXPIRE leaves. -/
def afterExpire (s : RedisServer) (c : ClientId) (db : RedisDb) (key : Bytes) (deadline : Int) :
    RedisServer :=
  if cstr key ∈ db.expires then addWrite (s.setDb (s.client c).db db) c resp.err
  else { addWrite (s.setDb (s.client c).db
      { db with expires := db.expires.insert (cstr key) deadline }) c resp.ok with
    dirty := s.dirty + 1 }

theorem commandExpireProc_ok : commandExpireProc env s c argv = .ok s' ↔
    ∃ key arg, argv[1]? = some key ∧ argv[2]? = some arg ∧
      ((string2long arg = none ∧ s' = addWrite s c resp.err) ∨
        ∃ n db, string2long arg = some n ∧ inLong (n + env.now) ∧ s.getDb (s.client c).db = .ok db ∧
          s' = afterExpire s c db key (n + env.now)) := by
  simp only [commandExpireProc, bind_ok, argAt_ok, dbSetExpire, mapAdd]
  constructor
  · rintro ⟨key, hk, arg, ha, h⟩
    refine ⟨key, arg, hk, ha, ?_⟩
    cases hn : string2long arg with
    | none => exact .inl ⟨rfl, by simpa [hn] using h.symm⟩
    | some n =>
      right
      simp only [hn] at h
      split at h
      · cases h
      · rename_i hin
        obtain ⟨db, hdb, h⟩ := bind_ok.mp h
        refine ⟨n, db, rfl, not_not.mp hin, hdb, ?_⟩
        unfold afterExpire
        by_cases hm : cstr key ∈ db.expires
        · simpa [hm, DICT_ERR] using h.symm
        · simpa [hm, DICT_OK] using h.symm
  · rintro ⟨key, arg, hk, ha, ⟨hn, rfl⟩ | ⟨n, db, hn, hin, hdb, rfl⟩⟩
    · exact ⟨key, hk, arg, ha, by simp [hn]⟩
    · refine ⟨key, hk, arg, ha, ?_⟩
      unfold afterExpire
      by_cases hm : cstr key ∈ db.expires
      · simp [hn, hin, hdb, hm, DICT_ERR]
      · simp [hn, hin, hdb, hm, DICT_OK]

theorem commandTtlProc_ok : commandTtlProc env s c argv = .ok s' ↔
    ∃ key db0, argv[1]? = some key ∧ s.getDb 0 = .ok db0 ∧
      ((cstr key ∉ db0.expires ∧ s' = addWrite s c resp.keyNotFound) ∨
        ∃ db, cstr key ∈ db0.expires ∧ s.getDb (s.client c).db = .ok db ∧
          inLong (dbGetTTL db (cstr key) env.now) ∧
          addWriteBulk s c (bytes "ttl:" ++ decimalInt (dbGetTTL db (cstr key) env.now) ++ bytes "s") =
            .ok s') := by
  simp only [commandTtlProc, bind_ok, argAt_ok, mapContains, decide_eq_true_eq]
  constructor
  · rintro ⟨key, hk, db0, hdb0, h⟩
    refine ⟨key, db0, hk, hdb0, ?_⟩
    split at h
    · rename_i hm
      obtain ⟨db, hdb, h⟩ := bind_ok.mp h
      split at h
      · exact .inr ⟨db, hm, hdb, ‹_›, h⟩
      · cases h
    · exact .inl ⟨‹_›, (pure_ok.mp h).symm⟩
  · rintro ⟨key, db0, hk, hdb0, ⟨hm, rfl⟩ | ⟨db, hm, hdb, hin, h⟩⟩
    · exact ⟨key, hk, db0, hdb0, by simp [hm]⟩
    · exact ⟨key, hk, db0, hdb0, by rw [if_pos hm, hdb, ok_bind, if_pos hin, h]⟩

/-- One key of WATCH. -/
def watchKey (s : RedisServer) (c : ClientId) (arg : Bytes) : Except Fault RedisServer := do
  let db ← s.getDb (s.client c).db
  return s.setDb (s.client c).db (dbAddWatch db (cstr arg) c)

theorem watchKey_ok {arg : Bytes} : watchKey s c arg = .ok s' ↔
    ∃ db, s.getDb (s.client c).db = .ok db ∧
      s' = s.setDb (s.client c).db (dbAddWatch db (cstr arg) c) := by
  simp only [watchKey, bind_ok, pure_ok, @eq_comm _ s']

theorem commandWatchProc_ok : commandWatchProc s c argv = .ok s' ↔
    ∃ s₁, (argv.drop 1).foldlM (fun s arg => watchKey s c arg) s = .ok s₁ ∧
      s' = addWrite s₁ c resp.ok := by
  simp only [commandWatchProc, bind_ok, pure_ok, @eq_comm _ s']
  rfl

end Fedis.Proof.Server
