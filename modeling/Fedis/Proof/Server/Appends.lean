import Fedis.Proof.Server.Args
import Fedis.Proof.Server.Strings

/-!
# What each handler answers

The answers of the handlers but EXEC and SLAVEOF, as functions of the state before (`answer`).
A handler returns iff it has an answer, and appends that (`answer_returns`, `callProc_answer`).
-/

namespace Fedis.Proof.Server

open Framework Resp

variable {query : RedisServer → ClientId → Except Fault RedisServer} {env : Env}
  {s s' t : RedisServer} {c : ClientId} {argv : List Bytes} {proc : Proc} {str : Bytes}
  {out : List Bytes}

/-- The database that the client has selected. -/
def clientDb (s : RedisServer) (c : ClientId) : Option RedisDb :=
  if 0 ≤ (s.client c).db then s.db[(s.client c).db.toNat]? else none

theorem clientDb_some {db : RedisDb} : clientDb s c = some db ↔ s.getDb (s.client c).db = .ok db := by
  rw [clientDb, Option.ite_none_right_eq_some, getDb_ok]

/-- A bulk string, where the buffer that it is written to holds it. -/
def bulk (str : Bytes) : Option (List Bytes) :=
  if (bulkString (cstr str)).length < 1024 then some [bulkString (cstr str)] else none

/-- What a handler appends to its client's output, one after the other. It fails without a
database or an argument that it needs, and OBJECT and TTL may answer with a bulk string. -/
def answer (env : Env) (s : RedisServer) (c : ClientId) (argv : List Bytes) :
    Proc → Option (List Bytes)
  | .set => do
    let _ ← argv[1]?
    if argv.length = 2 then some [resp.valmissed]
    else do
      let _ ← argv[2]?
      let _ ← clientDb s c
      some [resp.ok]
  | .get => do
    let key ← argv[1]?
    let db ← clientDb s c
    match db.kv.lookup (cstr key) with
    | none => some [resp.keyNotFound]
    | some res => bulk (robjGetValStr res)
  | .del => do
    let key ← argv[1]?
    let db ← clientDb s c
    some [if cstr key ∈ db.kv then resp.ok else resp.keyNotFound]
  | .object => do
    let key ← argv[2]?
    let op ← argv[1]?
    if strcaseeq op (bytes "ENCODING") then do
      let db ← clientDb s c
      match db.kv.lookup (cstr key) with
      | none => some [resp.keyNotFound]
      | some val => bulk (encodingStr val)
    else some []
  | .bye => some [resp.bye]
  | .ping => some [resp.pong]
  | .sync => do
    let offset := atoi (cstr (← argv[1]?))
    if s.backlog.accepts offset then
      if s.backlog.ReadInside offset.toNat then
        some [resp.appendsync, s.backlog.read offset.toNat]
      else none
    else some [resp.fullsync]
  | .info =>
    if s.flags.master then
      match respEncodeArrayStringBuf (generateInfoRespContent s) with
      | .ok str => some [cstr str]
      | .error _ => none
    else none
  | .select => do
    match string2long (← argv[1]?) with
    | none => some [resp.err]
    | some dbid => bulk (bytes "OK, db is " ++ decimalInt (toInt32 dbid))
  | .expire => do
    let key ← argv[1]?
    match string2long (← argv[2]?) with
    | none => some [resp.err]
    | some n =>
      if inLong (n + env.now) then do
        let db ← clientDb s c
        some [if cstr key ∈ db.expires then resp.err else resp.ok]
      else none
  | .ttl => do
    let key ← argv[1]?
    let db0 ← s.db[0]?
    if cstr key ∈ db0.expires then do
      let db ← clientDb s c
      let ttl := dbGetTTL db (cstr key) env.now
      if inLong ttl then bulk (bytes "ttl:" ++ decimalInt ttl ++ bytes "s") else none
    else some [resp.keyNotFound]
  | .watch => if argv.length ≤ 1 then some [resp.ok] else (clientDb s c).map fun _ => [resp.ok]
  | .replconf | .replack | .heartbeat | .multi => some [resp.ok]
  | .exec | .slaveof => none

/-! ## Output buffers -/

/-- Strings appended to a buffer. -/
def appendAll (buf : Sds) (out : List Bytes) : Sds := out.foldl sdscatlen buf

theorem appendAll_len (buf : Sds) (out : List Bytes) :
    (appendAll buf out).len = buf.len + out.flatten.length := by
  induction out generalizing buf with
  | nil => rfl
  | cons p ps ih =>
    have hp : (sdscatlen buf p).len = buf.len + p.length := by simp
    rw [appendAll, List.foldl_cons, ← appendAll, ih, hp, List.flatten_cons, List.length_append]
    omega

theorem content_appendAll (buf : Sds) (out : List Bytes) :
    (appendAll buf out).content = buf.content ++ out.flatten := by
  induction out generalizing buf with
  | nil => exact (List.append_nil _).symm
  | cons p ps ih =>
    rw [appendAll, List.foldl_cons, ← appendAll, ih, content_sdscatlen, List.flatten_cons,
      List.append_assoc]

/-- The output of the client has grown by these strings. -/
def Says (s : RedisServer) (c : ClientId) (out : List Bytes) (s' : RedisServer) : Prop :=
  (s'.client c).writeBuf = appendAll (s.client c).writeBuf out

theorem says_addWrite (str : Bytes) (h : (s'.client c).writeBuf = ((addWrite t c str).client c).writeBuf)
    (ht : (t.client c).writeBuf = (s.client c).writeBuf) : Says s c [cstr str] s' := by
  rw [Says, h, addWrite, modifyClient_self, ← ht]
  rfl

/-- The fixed replies are C strings. -/
theorem says_reply (hz : cstr str = str)
    (h : (s'.client c).writeBuf = ((addWrite t c str).client c).writeBuf)
    (ht : (t.client c).writeBuf = (s.client c).writeBuf) : Says s c [str] s' := by
  have := says_addWrite str h ht
  rwa [hz] at this

theorem says_bulk (h : addWriteBulk t c str = .ok s')
    (ht : (t.client c).writeBuf = (s.client c).writeBuf) :
    ∃ out, bulk str = some out ∧ Says s c out s' := by
  obtain ⟨hlen, rfl⟩ := addWriteBulk_ok.mp h
  refine ⟨_, by rw [bulk, if_pos hlen], ?_⟩
  exact says_reply (cstr_eq_self (bulkString_ne_zero cstr_ne_zero)) rfl ht

theorem bulk_returns (h : bulk str = some out) : ∃ s', addWriteBulk s c str = .ok s' := by
  obtain ⟨hlen, -⟩ := Option.ite_none_right_eq_some.mp h
  exact ⟨_, addWriteBulk_ok.mpr ⟨hlen, rfl⟩⟩

/-! ## Handlers -/

theorem watchKeys_client {args : List Bytes}
    (h : args.foldlM (fun s arg => watchKey s c arg) s = .ok s') : s'.client = s.client := by
  induction args generalizing s with
  | nil =>
    cases h
    rfl
  | cons arg args ih =>
    obtain ⟨t, ht, h⟩ := bind_ok.mp h
    obtain ⟨db, -, rfl⟩ := watchKey_ok.mp ht
    have e := ih h
    exact e

/-- **A handler appends its answer.** -/
theorem callProc_answer (hp : proc ≠ .exec) (hs : proc ≠ .slaveof)
    (h : callProc query env proc s c argv = .ok s') :
    ∃ out, answer env s c argv proc = some out ∧ Says s c out s' := by
  cases proc with
  | exec => exact absurd rfl hp
  | slaveof => exact absurd rfl hs
  | set =>
    obtain ⟨key, hk, ⟨hl, rfl⟩ | ⟨value, db, hv, hdb, rfl⟩⟩ := commandSetProc_ok.mp h
    · exact ⟨[resp.valmissed], by simp [answer, hl], says_reply (by decide) rfl rfl⟩
    · have hl : argv.length ≠ 2 := by
        have := lt_of_getElem? hv
        omega
      exact ⟨[resp.ok], by simp [answer, hk, hl, hv, clientDb_some.mpr hdb],
        says_reply (by decide) rfl rfl⟩
  | get =>
    obtain ⟨key, db, hk, hdb, ⟨hv, rfl⟩ | ⟨res, hv, hw⟩⟩ := commandGetProc_ok.mp h
    · exact ⟨[resp.keyNotFound], by simp [answer, hk, clientDb_some.mpr hdb, hv],
        says_reply (by decide) rfl rfl⟩
    · obtain ⟨out, hout, ho⟩ := says_bulk hw rfl
      exact ⟨out, by simp [answer, hk, clientDb_some.mpr hdb, hv, hout], ho⟩
  | del =>
    obtain ⟨key, db, hk, hdb, rfl⟩ := commandDelProc_ok.mp h
    refine ⟨_, by simp only [answer, hk, clientDb_some.mpr hdb]; rfl, ?_⟩
    rw [afterDel]
    split <;> exact says_reply (by decide) rfl rfl
  | object =>
    obtain ⟨key, op, hk, hop, h⟩ := commandObjectProc_ok.mp h
    by_cases he : strcaseeq op (bytes "ENCODING") = true
    · rw [if_pos he] at h
      obtain ⟨db, hdb, ⟨hv, rfl⟩ | ⟨val, hv, hw⟩⟩ := h
      · exact ⟨[resp.keyNotFound], by simp [answer, hk, hop, he, clientDb_some.mpr hdb, hv],
          says_reply (by decide) rfl rfl⟩
      · obtain ⟨out, hout, ho⟩ := says_bulk hw rfl
        exact ⟨out, by simp [answer, hk, hop, he, clientDb_some.mpr hdb, hv, hout], ho⟩
    · rw [if_neg he] at h
      exact ⟨[], by simp [answer, hk, hop, he], by rw [h]; rfl⟩
  | sync =>
    obtain ⟨arg, ha, hin, rfl⟩ := commandSyncProc_ok.mp h
    rw [afterSync]
    by_cases hacc : s.backlog.accepts (atoi (cstr arg)) = true
    · refine ⟨[resp.appendsync, s.backlog.read (atoi (cstr arg)).toNat],
        by simp [answer, ha, hacc, hin hacc], ?_⟩
      rw [if_pos hacc, Says, addWriteBuf, modifyClient_self, addWrite, modifyClient_self,
        modifyClient_self]
      rfl
    · rw [if_neg hacc]
      exact ⟨[resp.fullsync], by simp [answer, ha, hacc],
        says_reply (by decide) rfl (by rw [modifyClient_self])⟩
  | info =>
    obtain ⟨hm, str, henc, rfl⟩ := commandInfoProc_ok.mp h
    refine ⟨[cstr str], ?_, says_addWrite str rfl rfl⟩
    rw [answer, if_pos hm, henc]
  | select =>
    obtain ⟨arg, ha, ⟨hn, rfl⟩ | ⟨dbid, hn, hw⟩⟩ := commandSelectProc_ok.mp h
    · exact ⟨[resp.err], by simp [answer, ha, hn], says_reply (by decide) rfl rfl⟩
    · obtain ⟨out, hout, ho⟩ := says_bulk (s := s) hw (by rw [modifyClient_self])
      exact ⟨out, by simp [answer, ha, hn, hout], ho⟩
  | expire =>
    obtain ⟨key, arg, hk, ha, ⟨hn, rfl⟩ | ⟨n, db, hn, hin, hdb, rfl⟩⟩ := commandExpireProc_ok.mp h
    · exact ⟨[resp.err], by simp [answer, hk, ha, hn], says_reply (by decide) rfl rfl⟩
    · refine ⟨_, by simp only [answer, hk, ha, hn, Option.bind_eq_bind, Option.bind_some,
        if_pos hin, clientDb_some.mpr hdb]; rfl, ?_⟩
      rw [afterExpire]
      split <;> exact says_reply (by decide) rfl rfl
  | ttl =>
    obtain ⟨key, db0, hk, hdb0, ⟨hm, rfl⟩ | ⟨db, hm, hdb, hin, hw⟩⟩ := commandTtlProc_ok.mp h
    · have hz : s.db[0]? = some db0 := (getDb_ok.mp hdb0).2
      exact ⟨[resp.keyNotFound], by simp [answer, hk, hz, hm], says_reply (by decide) rfl rfl⟩
    · have hz : s.db[0]? = some db0 := (getDb_ok.mp hdb0).2
      obtain ⟨out, hout, ho⟩ := says_bulk hw rfl
      exact ⟨out, by simp only [answer, hk, hz, hm, clientDb_some.mpr hdb, Option.bind_eq_bind,
        Option.bind_some, if_true, if_pos hin, hout], ho⟩
  | watch =>
    obtain ⟨u, hu, rfl⟩ := commandWatchProc_ok.mp h
    have ho : Says s c [resp.ok] (addWrite u c resp.ok) :=
      says_reply (by decide) rfl (by rw [watchKeys_client hu])
    by_cases hl : argv.length ≤ 1
    · exact ⟨[resp.ok], by simp [answer, hl], ho⟩
    · obtain ⟨arg, args, hd⟩ : ∃ arg args, argv.drop 1 = arg :: args :=
        List.exists_cons_of_ne_nil fun e => hl (List.drop_eq_nil_iff.mp e)
      rw [hd] at hu
      obtain ⟨u₁, h₁, -⟩ := bind_ok.mp hu
      obtain ⟨db, hdb, -⟩ := watchKey_ok.mp h₁
      exact ⟨[resp.ok], by simp [answer, hl, clientDb_some.mpr hdb], ho⟩
  | bye | ping | multi =>
    cases h
    exact ⟨_, rfl, says_reply (by decide) rfl (by rw [modifyClient_self])⟩
  | replconf =>
    cases h
    exact ⟨_, rfl, says_reply (by decide) (by rw [modifyClient_self]) rfl⟩
  | replack | heartbeat =>
    cases h
    exact ⟨_, rfl, says_reply (by decide) rfl rfl⟩

theorem watchKeys_returns (args : List Bytes) {db : RedisDb} (hdb : clientDb s c = some db) :
    ∃ u, args.foldlM (fun s arg => watchKey s c arg) s = .ok u := by
  induction args generalizing s db with
  | nil => exact ⟨s, rfl⟩
  | cons arg args ih =>
    have hget := clientDb_some.mp hdb
    set s₁ := s.setDb (s.client c).db (dbAddWatch db (cstr arg) c) with hs₁
    have hdb₁ : clientDb s₁ c = some (dbAddWatch db (cstr arg) c) := by
      refine clientDb_some.mpr (getDb_ok.mpr ⟨(getDb_ok.mp hget).1, ?_⟩)
      rw [hs₁, setDb_db _ hget, setDb_client, if_pos (Int.toNat_of_nonneg (getDb_ok.mp hget).1).symm]
    obtain ⟨u, hu⟩ := ih hdb₁
    exact ⟨u, bind_ok.mpr ⟨s₁, watchKey_ok.mpr ⟨db, hget, rfl⟩, hu⟩⟩

theorem answer_sync {arg : Bytes} (ha : argv[1]? = some arg) : answer env s c argv .sync =
    if s.backlog.accepts (atoi (cstr arg)) then
      if s.backlog.ReadInside (atoi (cstr arg)).toNat then
        some [resp.appendsync, s.backlog.read (atoi (cstr arg)).toNat]
      else none
    else some [resp.fullsync] := by
  rw [answer, ha]
  rfl

/-- **A handler that has an answer returns.** -/
theorem answer_returns (h : answer env s c argv proc = some out) :
    ∃ s', callProc query env proc s c argv = .ok s' := by
  cases proc with
  | exec | slaveof => cases h
  | set =>
    obtain ⟨key, hk, h⟩ := Option.bind_eq_some_iff.mp h
    split at h
    · exact ⟨_, commandSetProc_ok.mpr ⟨key, hk, .inl ⟨‹_›, rfl⟩⟩⟩
    · obtain ⟨value, hv, h⟩ := Option.bind_eq_some_iff.mp h
      obtain ⟨db, hdb, -⟩ := Option.bind_eq_some_iff.mp h
      exact ⟨_, commandSetProc_ok.mpr ⟨key, hk, .inr ⟨value, db, hv, clientDb_some.mp hdb, rfl⟩⟩⟩
  | get =>
    obtain ⟨key, hk, h⟩ := Option.bind_eq_some_iff.mp h
    obtain ⟨db, hdb, h⟩ := Option.bind_eq_some_iff.mp h
    split at h
    · exact ⟨_, commandGetProc_ok.mpr ⟨key, db, hk, clientDb_some.mp hdb, .inl ⟨‹_›, rfl⟩⟩⟩
    · obtain ⟨s', hw⟩ := bulk_returns (s := s) (c := c) h
      exact ⟨s', commandGetProc_ok.mpr ⟨key, db, hk, clientDb_some.mp hdb, .inr ⟨_, ‹_›, hw⟩⟩⟩
  | del =>
    obtain ⟨key, hk, h⟩ := Option.bind_eq_some_iff.mp h
    obtain ⟨db, hdb, -⟩ := Option.bind_eq_some_iff.mp h
    exact ⟨_, commandDelProc_ok.mpr ⟨key, db, hk, clientDb_some.mp hdb, rfl⟩⟩
  | object =>
    obtain ⟨key, hk, h⟩ := Option.bind_eq_some_iff.mp h
    obtain ⟨op, hop, h⟩ := Option.bind_eq_some_iff.mp h
    split at h
    · rename_i he
      obtain ⟨db, hdb, h⟩ := Option.bind_eq_some_iff.mp h
      split at h
      · refine ⟨addWrite s c resp.keyNotFound, commandObjectProc_ok.mpr ⟨key, op, hk, hop, ?_⟩⟩
        rw [if_pos he]
        exact ⟨db, clientDb_some.mp hdb, .inl ⟨‹_›, rfl⟩⟩
      · obtain ⟨s', hw⟩ := bulk_returns (s := s) (c := c) h
        refine ⟨s', commandObjectProc_ok.mpr ⟨key, op, hk, hop, ?_⟩⟩
        rw [if_pos he]
        exact ⟨db, clientDb_some.mp hdb, .inr ⟨_, ‹_›, hw⟩⟩
    · rename_i he
      refine ⟨s, commandObjectProc_ok.mpr ⟨key, op, hk, hop, ?_⟩⟩
      rw [if_neg he]
  | sync =>
    obtain ⟨arg, ha, h⟩ := Option.bind_eq_some_iff.mp h
    refine ⟨_, commandSyncProc_ok.mpr ⟨arg, ha, fun hacc => ?_, rfl⟩⟩
    rw [if_pos hacc] at h
    exact (Option.ite_none_right_eq_some.mp h).1
  | info =>
    rw [answer] at h
    by_cases hm : s.flags.master = true
    · exact commandInfoProc_returns hm
    · rw [if_neg hm] at h
      cases h
  | select =>
    obtain ⟨arg, ha, h⟩ := Option.bind_eq_some_iff.mp h
    split at h
    · exact ⟨_, commandSelectProc_ok.mpr ⟨arg, ha, .inl ⟨‹_›, rfl⟩⟩⟩
    · rename_i dbid hn
      obtain ⟨s', hw⟩ := bulk_returns
        (s := s.modifyClient c fun client => { client with db := dbid }) (c := c) h
      exact ⟨s', commandSelectProc_ok.mpr ⟨arg, ha, .inr ⟨dbid, hn, hw⟩⟩⟩
  | expire =>
    obtain ⟨key, hk, h⟩ := Option.bind_eq_some_iff.mp h
    obtain ⟨arg, ha, h⟩ := Option.bind_eq_some_iff.mp h
    split at h
    · exact ⟨_, commandExpireProc_ok.mpr ⟨key, arg, hk, ha, .inl ⟨‹_›, rfl⟩⟩⟩
    · obtain ⟨hin, h⟩ := Option.ite_none_right_eq_some.mp h
      obtain ⟨db, hdb, -⟩ := Option.bind_eq_some_iff.mp h
      exact ⟨_, commandExpireProc_ok.mpr ⟨key, arg, hk, ha,
        .inr ⟨_, db, ‹_›, hin, clientDb_some.mp hdb, rfl⟩⟩⟩
  | ttl =>
    obtain ⟨key, hk, h⟩ := Option.bind_eq_some_iff.mp h
    obtain ⟨db0, hdb0, h⟩ := Option.bind_eq_some_iff.mp h
    split at h
    · rename_i hm
      obtain ⟨db, hdb, h⟩ := Option.bind_eq_some_iff.mp h
      obtain ⟨hin, h⟩ := Option.ite_none_right_eq_some.mp h
      obtain ⟨s', hw⟩ := bulk_returns (s := s) (c := c) h
      exact ⟨s', commandTtlProc_ok.mpr ⟨key, db0, hk, getDb_zero hdb0,
        .inr ⟨db, hm, clientDb_some.mp hdb, hin, hw⟩⟩⟩
    · exact ⟨_, commandTtlProc_ok.mpr ⟨key, db0, hk, getDb_zero hdb0, .inl ⟨‹_›, rfl⟩⟩⟩
  | watch =>
    rw [answer] at h
    by_cases hl : argv.length ≤ 1
    · refine ⟨_, commandWatchProc_ok.mpr ⟨s, ?_, rfl⟩⟩
      rw [List.drop_eq_nil_of_le hl]
      rfl
    · rw [if_neg hl] at h
      obtain ⟨db, hdb, -⟩ := Option.map_eq_some_iff.mp h
      obtain ⟨u, hu⟩ := watchKeys_returns (argv.drop 1) hdb
      exact ⟨_, commandWatchProc_ok.mpr ⟨u, hu, rfl⟩⟩
  | bye | ping | multi | replconf | replack | heartbeat => exact ⟨_, rfl⟩

/-! ## One string -/

/-- The answer, if there is one, is one string, or nothing. -/
def Single (o : Option (List Bytes)) : Prop := ∀ out ∈ o, out.length ≤ 1

theorem Single.bind {α : Type} {x : Option α} {f : α → Option (List Bytes)}
    (h : ∀ a, Single (f a)) : Single (x >>= f) := fun out ho => by
  obtain ⟨a, -, ho⟩ := Option.bind_eq_some_iff.mp ho
  exact h a out ho

theorem single_some {str : Bytes} : Single (some [str]) := fun out ho => by
  cases ho
  exact le_refl 1

theorem single_none : Single none := nofun

theorem single_bulk : Single (bulk str) := by
  rw [bulk]
  split
  · exact single_some
  · exact single_none

/-- All answer at once, but SYNC. -/
theorem answer_single (hp : proc ≠ .sync) : Single (answer env s c argv proc) := by
  cases proc with
  | sync => exact absurd rfl hp
  | exec | slaveof => exact single_none
  | bye | ping | multi | replconf | replack | heartbeat => exact single_some
  | set =>
    refine Single.bind fun _ => ?_
    split
    · exact single_some
    · exact Single.bind fun _ => Single.bind fun _ => single_some
  | get =>
    refine Single.bind fun key => Single.bind fun db => ?_
    split
    · exact single_some
    · exact single_bulk
  | del => exact Single.bind fun key => Single.bind fun db => single_some
  | object =>
    refine Single.bind fun key => Single.bind fun op => ?_
    split
    · refine Single.bind fun db => ?_
      split
      · exact single_some
      · exact single_bulk
    · intro out ho
      cases ho
      exact Nat.zero_le 1
  | info =>
    rw [answer]
    split
    · split
      · exact single_some
      · exact single_none
    · exact single_none
  | select =>
    refine Single.bind fun arg => ?_
    split
    · exact single_some
    · exact single_bulk
  | expire =>
    refine Single.bind fun key => Single.bind fun arg => ?_
    split
    · exact single_some
    · split
      · exact Single.bind fun db => single_some
      · exact single_none
  | ttl =>
    refine Single.bind fun key => Single.bind fun db0 => ?_
    split
    · refine Single.bind fun db => ?_
      dsimp only
      split
      · exact single_bulk
      · exact single_none
    · exact single_some
  | watch =>
    rw [answer]
    split
    · exact single_some
    · intro out ho
      obtain ⟨db, -, rfl⟩ := Option.map_eq_some_iff.mp ho
      exact le_refl 1

end Fedis.Proof.Server
