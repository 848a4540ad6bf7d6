import Fedis.Proof.Machine.Dicts
import Fedis.Proof.Server.Appends
import Fedis.Proof.Server.Output

/-!
# When a command returns

A command other than EXEC and SLAVEOF returns iff its handler has an answer, its calls on the
dicts find an entry wherever they migrate, and what it appends has room: to the AOF buffer, to
its client's output, and to that of every slave (`processCommand_returns`).
-/

namespace Fedis.Proof.Machine

open Framework Server Proof.Dict Resp

variable {env : Env} {m m' : Machine} {s t : RedisServer} {c x : ClientId} {argv : List Bytes}
  {cmd : RedisCommand} {i : Int} {call : DbCall} {calls : List DbCall} {proc : Proc}
  {mquery : Machine → ClientId → Except Fault Machine} {out : List Bytes}
  {tables tables' : List DbTables}

/-! ## Dicts -/

/-- One call on the dicts of a database. -/
def useTable (i : Int) (tables : List DbTables) (call : DbCall) : Option (List DbTables) :=
  if i < 0 then none
  else do
    let db ← tables[i.toNat]?
    let r ← db.call call
    some (tables.set i.toNat r.2)

/-- Calls on the dicts of a database, one after the other. -/
def useTables (i : Int) (tables : List DbTables) (calls : List DbCall) : Option (List DbTables) :=
  calls.foldlM (useTable i) tables

theorem useDb_tables : (∃ reply, m.useDb i call = .ok (reply, m')) ↔
    useTable i m.tables call = some m'.tables ∧ m'.server = m.server := by
  constructor
  · rintro ⟨reply, h⟩
    obtain ⟨hi, db, db', ht, hc, rfl⟩ := useDb_ok.mp h
    refine ⟨?_, rfl⟩
    rw [useTable, if_neg (Int.not_lt.mpr hi)]
    simp [ht, hc]
  · rintro ⟨h, hs⟩
    obtain ⟨hi, h⟩ := Option.ite_none_left_eq_some.mp h
    obtain ⟨db, ht, h⟩ := Option.bind_eq_some_iff.mp h
    obtain ⟨r, hc, h⟩ := Option.bind_eq_some_iff.mp h
    refine ⟨r.1, useDb_ok.mpr ⟨Int.not_lt.mp hi, db, r.2, ht, hc, ?_⟩⟩
    obtain ⟨server, tables⟩ := m'
    cases h
    cases hs
    rfl

theorem useDbs_tables : m.useDbs i calls = .ok m' ↔
    useTables i m.tables calls = some m'.tables ∧ m'.server = m.server := by
  induction calls generalizing m with
  | nil =>
    obtain ⟨server, tables⟩ := m
    obtain ⟨server', tables'⟩ := m'
    show Except.ok _ = Except.ok _ ↔ some _ = some _ ∧ _
    simp only [Except.ok.injEq, Machine.mk.injEq, Option.some.injEq]
    exact ⟨fun ⟨h₁, h₂⟩ => ⟨h₂, h₁.symm⟩, fun ⟨h₁, h₂⟩ => ⟨h₂.symm, h₁⟩⟩
  | cons call calls ih =>
    rw [Machine.useDbs, List.foldlM_cons, bind_ok, useTables, List.foldlM_cons]
    constructor
    · rintro ⟨m₁, h₁, h⟩
      obtain ⟨r, hr, h₁⟩ := bind_ok.mp h₁
      cases h₁
      obtain ⟨ht, hs⟩ := useDb_tables.mp ⟨r.1, hr⟩
      obtain ⟨hts, hs'⟩ := ih.mp h
      exact ⟨Option.bind_eq_some_iff.mpr ⟨_, ht, hts⟩, hs'.trans hs⟩
    · rintro ⟨h, hs⟩
      obtain ⟨ts, ht, hts⟩ := Option.bind_eq_some_iff.mp h
      obtain ⟨reply, hr⟩ : ∃ reply, m.useDb i call = .ok (reply, ⟨m.server, ts⟩) :=
        useDb_tables.mpr ⟨ht, rfl⟩
      exact ⟨⟨m.server, ts⟩, bind_ok.mpr ⟨_, hr, rfl⟩, ih.mpr ⟨hts, hs⟩⟩

theorem useTables_append {calls' : List DbCall} : useTables i tables (calls ++ calls') =
    (useTables i tables calls).bind fun ts => useTables i ts calls' := by
  rw [useTables, List.foldlM_append]
  rfl

theorem useTables_eq (hi : 0 ≤ i) {db : DbTables} (hdb : tables[i.toNat]? = some db) :
    useTables i tables calls =
      (run DbTables.call db calls).map fun r => tables.set i.toNat r.2 := by
  induction calls generalizing tables db with
  | nil =>
    obtain ⟨hlt, rfl⟩ := List.getElem?_eq_some_iff.mp hdb
    rw [run_nil, Option.map_some, List.set_getElem_self hlt]
    rfl
  | cons call calls ih =>
    have hlt := (List.getElem?_eq_some_iff.mp hdb).1
    have hone : useTable i tables call =
        (db.call call).map fun r => tables.set i.toNat r.2 := by
      rw [useTable, if_neg (Int.not_lt.mpr hi), hdb]
      show (db.call call).bind _ = _
      cases db.call call <;> rfl
    rw [useTables, List.foldlM_cons, hone, run_cons]
    cases db.call call with
    | none => rfl
    | some r =>
      have hset : (tables.set i.toNat r.2)[i.toNat]? = some r.2 := List.getElem?_set_self hlt
      refine (ih hset).trans ?_
      simp only [List.set_set, Option.bind_some]
      cases run DbTables.call r.2 calls <;> rfl

/-- The calls find an entry to move wherever a dict of the database migrates. -/
def Runs (tables : List DbTables) (i : Int) (calls : List DbCall) : Prop :=
  calls ≠ [] → 0 ≤ i ∧ ∃ db, tables[i.toNat]? = some db ∧ Along DbTables.call Defined db calls

/-- Calls on one database are a run on its dicts. -/
theorem runs_iff {dbs : List RedisDb} (hold : Hold tables dbs) :
    (useTables i tables calls).isSome ↔ Runs tables i calls := by
  rw [Runs]
  cases calls with
  | nil => simp [useTables]
  | cons call calls =>
    rw [forall_prop_of_true (List.cons_ne_nil _ _)]
    by_cases hi : 0 ≤ i
    swap
    · rw [useTables, List.foldlM_cons, useTable, if_pos (Int.not_le.mp hi)]
      simp [hi]
    cases hdb : tables[i.toNat]? with
    | none =>
      rw [useTables, List.foldlM_cons, useTable, if_neg (Int.not_lt.mpr hi), hdb]
      simp
    | some db =>
      obtain ⟨map, -, hb⟩ := forall₂_getElem? hold.backs.flip hdb
      rw [useTables_eq hi hdb, Option.isSome_map]
      simp only [hi, true_and, Option.some.injEq, exists_eq_left']
      exact (tables_run_isSome hb).symm

/-! ## Output -/

/-- Strings have room behind a buffer. SYNC appends two, one after the other. -/
def RoomFor (buf : Sds) : List Bytes → Prop
  | [a, b] => buf.Fits a.length ∧ (sdscatlen buf a).Fits b.length
  | out => buf.Fits out.flatten.length

/-- A handler has the room for its answer. -/
theorem answers_room {query : RedisServer → ClientId → Except Fault RedisServer}
    (hp : proc ≠ .exec) (hs : proc ≠ .slaveof) (h : callProc query env proc s c argv = .ok t)
    (ho : answer env s c argv proc = some out) :
    Machine.Answers proc (s.client c) (t.client c) ↔ RoomFor (s.client c).writeBuf out := by
  obtain ⟨out', ho', hout⟩ := callProc_answer hp hs h
  cases ho.symm.trans ho'
  have hlen : (t.client c).writeBuf.len = (s.client c).writeBuf.len + out.flatten.length := by
    rw [hout, appendAll_len]
  by_cases hsync : proc = .sync
  · subst hsync
    obtain ⟨arg, ha, hin, rfl⟩ := commandSyncProc_ok.mp h
    rw [Machine.Answers]
    rw [answer_sync ha] at ho
    by_cases hacc : s.backlog.accepts (atoi (cstr arg)) = true
    · have hst : ((afterSync s c (atoi (cstr arg))).client c).replState = .masterSendAppendsync := by
        rw [afterSync, if_pos hacc, addWriteBuf, modifyClient_self, addWrite, modifyClient_self,
          modifyClient_self]
      have hz : sdscat (s.client c).writeBuf resp.appendsync =
          sdscatlen (s.client c).writeBuf resp.appendsync := by
        rw [sdscat, show cstr resp.appendsync = resp.appendsync by decide]
      rw [if_pos hacc, if_pos (hin hacc)] at ho
      cases ho
      rw [if_pos ⟨rfl, hst⟩, hz, hlen, RoomFor, len_sdscatlen, List.flatten_cons,
        List.length_append, ← Nat.add_assoc, Nat.add_sub_cancel_left, List.flatten_cons,
        List.flatten_nil, List.append_nil]
    · have hst : ((afterSync s c (atoi (cstr arg))).client c).replState ≠ .masterSendAppendsync := by
        rw [afterSync, if_neg hacc, addWrite, modifyClient_self, modifyClient_self]
        exact ReplState.noConfusion
      rw [if_neg hacc] at ho
      cases ho
      rw [if_neg fun e => hst e.2, hlen, Nat.add_sub_cancel_left]
      rfl
  · have hone := answer_single hsync out ho
    rw [Machine.Answers, if_neg fun e => hsync e.1, hlen, Nat.add_sub_cancel_left]
    obtain _ | ⟨p, _ | ⟨q, ps⟩⟩ := out
    · rfl
    · rfl
    · simp at hone

/-! ## The parts of a command -/

/-- The AOF buffer has room for a write. -/
def RoomForAof (s : RedisServer) (c : ClientId) (cmd : RedisCommand) : Prop :=
  (!(s.client c).flags.fake && s.aofOn && cmd.write) = true →
    s.activeBuf.Fits (s.client c).readBuf.len

/-- A command that reads or writes has a key, and its client a database. -/
def Keyed (s : RedisServer) (c : ClientId) (argv : List Bytes) (cmd : RedisCommand) : Prop :=
  (cmd.read || cmd.write) = true → (argv[1]?).isSome ∧ (clientDb s c).isSome

/-- The server when the handler of a command is called. -/
def ready (env : Env) (s : RedisServer) (c : ClientId) (argv : List Bytes) (cmd : RedisCommand) :
    RedisServer :=
  { feedAof s c cmd with
    db := if cmd.read || cmd.write then
        s.db.modify (s.client c).db.toNat fun db => expireIfNeed db (keyOf argv) env.now
      else s.db }

/-- The expiry of the key. -/
def expireCalls (env : Env) (argv : List Bytes) (cmd : RedisCommand) : List DbCall :=
  if cmd.read || cmd.write then argv[1]?.toList.map fun key => .expireIfNeed key env.now else []

/-- The end of what watches the key. -/
def touchCalls (argv : List Bytes) (cmd : RedisCommand) : List DbCall :=
  if cmd.write then argv[1]?.toList.map .touchWatchKey else []

/-- The first database has a deadline for the key. -/
def deadline (s : RedisServer) (argv : List Bytes) : Bool :=
  match argv[1]?, (s.db[0]?).map (·.expires) with
  | some key, some expires => cstr key ∈ expires
  | _, _ => false

/-- What a command asks of its client's database. -/
def commandCalls (env : Env) (s : RedisServer) (c : ClientId) (argv : List Bytes)
    (cmd : RedisCommand) : List DbCall :=
  expireCalls env argv cmd ++ Machine.procCalls env cmd.proc c argv (deadline s argv) ++
    touchCalls argv cmd

theorem feedAof_clientDb : (((feedAof s c cmd).client c).db) = (s.client c).db :=
  core_db feedAof_core

theorem expireArg_ready : expireArg env (feedAof s c cmd) c cmd argv = .ok t ↔
    Keyed s c argv cmd ∧ t = ready env s c argv cmd := by
  rw [expireArg_ok, Keyed, ready]
  by_cases hrw : (cmd.read || cmd.write) = true
  · rw [if_pos hrw, if_pos hrw, forall_prop_of_true hrw]
    have hget : ∀ db, (feedAof s c cmd).getDb ((feedAof s c cmd).client c).db = .ok db ↔
        clientDb s c = some db := fun db => by
      rw [clientDb_some, getDb_ok, getDb_ok, feedAof_db, feedAof_clientDb]
    simp only [hget, Option.isSome_iff_exists]
    have hset : ∀ key db, argv[1]? = some key → clientDb s c = some db →
        (feedAof s c cmd).setDb ((feedAof s c cmd).client c).db (expireIfNeed db (cstr key) env.now) =
          { feedAof s c cmd with
            db := s.db.modify (s.client c).db.toNat fun db => expireIfNeed db (keyOf argv) env.now } := by
      intro key db hk hdb
      have hmod := setDb_modify ((hget db).mpr hdb) fun db => expireIfNeed db (cstr key) env.now
      rw [feedAof_db, feedAof_clientDb] at hmod
      rw [keyOf_eq hk, ← hmod, feedAof_clientDb]
      rfl
    constructor
    · rintro ⟨key, db, hk, hdb, rfl⟩
      exact ⟨⟨⟨key, hk⟩, ⟨db, hdb⟩⟩, hset key db hk hdb⟩
    · rintro ⟨⟨⟨key, hk⟩, ⟨db, hdb⟩⟩, rfl⟩
      exact ⟨key, db, hk, hdb, (hset key db hk hdb).symm⟩
  · rw [if_neg hrw, if_neg hrw]
    have hself : ({ feedAof s c cmd with db := s.db } : RedisServer) = feedAof s c cmd := by
      rw [← @feedAof_db s c cmd]
    rw [hself]
    exact ⟨fun h => ⟨fun h' => absurd h' hrw, h⟩, And.right⟩

theorem expireArg_tables : m.expireArg env c cmd argv = .ok m' ↔
    expireArg env m.server c cmd argv = .ok m'.server ∧
      useTables (m.server.client c).db m.tables (expireCalls env argv cmd) = some m'.tables := by
  rw [Machine.expireArg, bind_ok, expireCalls]
  by_cases hrw : (cmd.read || cmd.write) = true
  · simp only [hrw, if_true]
    constructor
    · rintro ⟨s, hs, h⟩
      obtain ⟨key, hk, h⟩ := bind_ok.mp h
      obtain ⟨r, hr, h⟩ := bind_ok.mp h
      cases h
      obtain ⟨ht, -⟩ := useDb_tables.mp ⟨r.1, hr⟩
      refine ⟨hs, ?_⟩
      rw [argAt_ok.mp hk]
      exact Option.bind_eq_some_iff.mpr ⟨_, ht, rfl⟩
    · rintro ⟨hs, ht⟩
      have he := expireArg_ok.mp hs
      rw [if_pos hrw] at he
      obtain ⟨key, db, hk, -⟩ := he
      rw [hk] at ht
      obtain ⟨ts, ht, hts⟩ := Option.bind_eq_some_iff.mp ht
      cases hts
      obtain ⟨reply, hr⟩ : ∃ reply, Machine.useDb _ _ _ = .ok (reply, ⟨m.server, m'.tables⟩) :=
        useDb_tables.mpr ⟨ht, rfl⟩
      exact ⟨m'.server, hs, bind_ok.mpr ⟨key, argAt_ok.mpr hk, bind_ok.mpr ⟨_, hr, rfl⟩⟩⟩
  · simp only [hrw]
    constructor
    · rintro ⟨s, hs, h⟩
      cases h
      exact ⟨hs, rfl⟩
    · rintro ⟨hs, ht⟩
      refine ⟨m'.server, hs, ?_⟩
      obtain ⟨server', tables'⟩ := m'
      cases ht
      rfl

theorem handler_tables : m.handler env proc c argv = .ok m' ↔
    callProc (fun _ _ => .error .undefined) env proc m.server c argv = .ok m'.server ∧
      useTables (m.server.client c).db m.tables
        (Machine.procCalls env proc c argv (m.hasDeadline argv)) = some m'.tables ∧
      Machine.Answers proc (m.server.client c) (m'.server.client c) := by
  rw [Machine.handler, bind_ok]
  constructor
  · rintro ⟨m₁, h₁, h⟩
    obtain ⟨s, hs, h⟩ := bind_ok.mp h
    obtain ⟨hans, rfl⟩ := next_ok.mp h
    obtain ⟨ht, hserver⟩ := useDbs_tables.mp h₁
    rw [hserver] at hs hans
    exact ⟨hs, ht, hans⟩
  · rintro ⟨hs, ht, hans⟩
    refine ⟨⟨m.server, m'.tables⟩, useDbs_tables.mpr ⟨ht, rfl⟩, bind_ok.mpr ⟨m'.server, hs, ?_⟩⟩
    exact next_ok.mpr ⟨hans, rfl⟩

theorem touch_tables : (if cmd.write then m.touchWatchKey c argv else .ok m) = .ok m' ↔
    (if cmd.write then touchWatchKey m.server c argv else .ok m.server) = .ok m'.server ∧
      useTables (m.server.client c).db m.tables (touchCalls argv cmd) = some m'.tables := by
  rw [touchCalls]
  by_cases hw : cmd.write = true
  · simp only [hw, if_true]
    rw [Machine.touchWatchKey, bind_ok]
    constructor
    · rintro ⟨s, hs, h⟩
      obtain ⟨key, hk, h⟩ := bind_ok.mp h
      obtain ⟨r, hr, h⟩ := bind_ok.mp h
      cases h
      obtain ⟨ht, -⟩ := useDb_tables.mp ⟨r.1, hr⟩
      refine ⟨hs, ?_⟩
      rw [argAt_ok.mp hk]
      exact Option.bind_eq_some_iff.mpr ⟨_, ht, rfl⟩
    · rintro ⟨hs, ht⟩
      obtain ⟨key, db, hk, -⟩ := touchWatchKey_ok.mp hs
      rw [hk] at ht
      obtain ⟨ts, ht, hts⟩ := Option.bind_eq_some_iff.mp ht
      cases hts
      obtain ⟨reply, hr⟩ : ∃ reply, Machine.useDb _ _ _ = .ok (reply, ⟨m.server, m'.tables⟩) :=
        useDb_tables.mpr ⟨ht, rfl⟩
      exact ⟨m'.server, hs, bind_ok.mpr ⟨key, argAt_ok.mpr hk, bind_ok.mpr ⟨_, hr, rfl⟩⟩⟩
  · simp only [hw]
    obtain ⟨server, tables⟩ := m
    obtain ⟨server', tables'⟩ := m'
    show Except.ok _ = Except.ok _ ↔ Except.ok _ = Except.ok _ ∧ some _ = some _
    simp only [Except.ok.injEq, Machine.mk.injEq, Option.some.injEq]

/-- The dicts find the deadline that the maps have. -/
theorem hasDeadline_coherent (hb : Coherent m) : m.hasDeadline argv = deadline m.server argv := by
  rw [Machine.hasDeadline, deadline]
  cases argv[1]? with
  | none => rfl
  | some key =>
    cases hdb : m.server.db[0]? with
    | none =>
      have hlen := hb.backs.length_eq
      have : m.tables[0]? = none := by
        rw [List.getElem?_eq_none_iff] at hdb ⊢
        omega
      simp [this]
    | some map =>
      obtain ⟨db, hdb', hback⟩ := forall₂_getElem? hb.backs hdb
      obtain ⟨db', hcall, -⟩ := tables_call_ok hback (.hasExpire key) ⟨id, nofun⟩
      have hreply : ((m.tables[0]?).bind fun db => db.call (.hasExpire key)).map Prod.fst =
          some (.bool (decide (cstr key ∈ map.expires))) := by
        rw [hdb', Option.bind_some, hcall]
        rfl
      simp only [hreply, Option.map_some]
      by_cases hk : cstr key ∈ map.expires
      · simp only [hk, decide_true]
      · simp only [hk, decide_false]
        rfl

/-! ## A command -/

theorem clientDb_isSome : (clientDb s c).isSome ↔
    0 ≤ (s.client c).db ∧ (s.client c).db.toNat < s.db.length := by
  rw [clientDb]
  by_cases hi : 0 ≤ (s.client c).db
  · rw [if_pos hi, isSome_getElem?]
    exact ⟨fun h => ⟨hi, h⟩, And.right⟩
  · simp [hi]

@[simp] theorem ready_length : (ready env s c argv cmd).db.length = s.db.length := by
  rw [ready]
  dsimp only
  split
  · exact List.length_modify ..
  · rfl

theorem ready_clientDb : (((ready env s c argv cmd).client c).db) = (s.client c).db :=
  feedAof_clientDb

theorem ready_writeBuf : ((ready env s c argv cmd).client c).writeBuf = (s.client c).writeBuf :=
  feedAof_writeBuf ..

theorem ready_deadline : deadline (ready env s c argv cmd) argv = deadline s argv := by
  have hexp : ((ready env s c argv cmd).db[0]?).map (·.expires) = (s.db[0]?).map (·.expires) := by
    rw [ready]
    dsimp only
    split
    · have hkeep : ∀ db, (expireIfNeed db (keyOf argv) env.now).expires = db.expires := fun db => by
        rw [expireIfNeed_eq]
        split <;> rfl
      rw [List.getElem?_modify]
      cases s.db[0]? with
      | none => rfl
      | some db =>
        show Option.map _ (Option.map _ (some db)) = _
        rw [Option.map_some, Option.map_some]
        split
        · rw [hkeep]
          rfl
        · rfl
    · rfl
  rw [deadline, deadline, hexp]

theorem ready_procCalls {m₁ : Machine} (hb : Coherent m₁) (e : m₁.server = ready env s c argv cmd) :
    Machine.procCalls env cmd.proc c argv (m₁.hasDeadline argv) =
      Machine.procCalls env cmd.proc c argv (deadline s argv) := by
  rw [hasDeadline_coherent hb, e, ready_deadline]

section Command

variable (hc : cmd ∈ commandsTable) (hp : cmd.proc ≠ .exec) (hs : cmd.proc ≠ .slaveof)
include hc hp hs

/-- After the handler of a write the client's database is still there. -/
theorem touch_returns {query : RedisServer → ClientId → Except Fault RedisServer} {s₂ : RedisServer}
    (hw : cmd.write = true) (hk : Keyed s c argv cmd)
    (h : callProc query env cmd.proc (ready env s c argv cmd) c argv = .ok s₂) :
    (s₂.client c).db = (s.client c).db ∧ ∃ t, touchWatchKey s₂ c argv = .ok t := by
  obtain ⟨hkey, hdb⟩ := hk (by rw [hw, Bool.or_true])
  obtain ⟨key, hkey⟩ := Option.isSome_iff_exists.mp hkey
  have hi : (s₂.client c).db = (s.client c).db := by
    have hcore := (callProc_frame hp h).core fun e => absurd e hs
    rw [write_client hc hw] at hcore
    exact (core_db hcore).trans ready_clientDb
  obtain ⟨db, hdb⟩ : ∃ db, clientDb s₂ c = some db := by
    rw [← Option.isSome_iff_exists, clientDb_isSome, hi, callProc_db hp h, List.length_modify,
      ready_length]
    exact clientDb_isSome.mp hdb
  exact ⟨hi, _, touchWatchKey_ok.mpr ⟨key, db, hkey, clientDb_some.mp hdb, rfl⟩⟩

/-- A write leaves its client in the database, and what is no write does not touch the dicts. -/
theorem touch_useTables {query : RedisServer → ClientId → Except Fault RedisServer}
    {s₂ : RedisServer} (ts : List DbTables) (hk : Keyed s c argv cmd)
    (h : callProc query env cmd.proc (ready env s c argv cmd) c argv = .ok s₂) :
    useTables (s₂.client c).db ts (touchCalls argv cmd) =
      useTables (s.client c).db ts (touchCalls argv cmd) := by
  by_cases hw : cmd.write = true
  · rw [(touch_returns hc hp hs hw hk h).1]
  · simp [touchCalls, hw, useTables]

/-- The command returns iff it has its key and an answer. -/
theorem executed_answers {query : RedisServer → ClientId → Except Fault RedisServer} :
    (∃ t, Server.executed query env s c cmd argv = .ok t) ↔
      Keyed s c argv cmd ∧ (answer env (ready env s c argv cmd) c argv cmd.proc).isSome := by
  constructor
  · rintro ⟨t, h⟩
    obtain ⟨s₁, h₁, h⟩ := bind_ok.mp h
    obtain ⟨s₂, h₂, -⟩ := bind_ok.mp h
    obtain ⟨hk, rfl⟩ := expireArg_ready.mp h₁
    obtain ⟨out, ho, -⟩ := callProc_answer hp hs h₂
    exact ⟨hk, by rw [ho]; rfl⟩
  · rintro ⟨hk, ho⟩
    obtain ⟨out, ho⟩ := Option.isSome_iff_exists.mp ho
    obtain ⟨s₂, h₂⟩ : ∃ s₂, callProc query env cmd.proc (ready env s c argv cmd) c argv = .ok s₂ :=
      answer_returns ho
    by_cases hw : cmd.write = true
    · obtain ⟨-, t, ht⟩ := touch_returns hc hp hs hw hk h₂
      refine ⟨t, bind_ok.mpr ⟨_, expireArg_ready.mpr ⟨hk, rfl⟩, bind_ok.mpr ⟨s₂, h₂, ?_⟩⟩⟩
      rw [if_pos hw]
      exact ht
    · refine ⟨s₂, bind_ok.mpr ⟨_, expireArg_ready.mpr ⟨hk, rfl⟩, bind_ok.mpr ⟨s₂, h₂, ?_⟩⟩⟩
      rw [if_neg hw]
      rfl

/-- What the memory adds to it. -/
theorem executed_returns (query : RedisServer → ClientId → Except Fault RedisServer)
    (hb : Coherent m) : (∃ m', m.executed mquery env c argv cmd = .ok m' ∧ m'.server = t) ↔
      Server.executed query env m.server c cmd argv = .ok t ∧ RoomForAof m.server c cmd ∧
        Runs m.tables (m.server.client c).db (commandCalls env m.server c argv cmd) ∧
        ∃ out, answer env (ready env m.server c argv cmd) c argv cmd.proc = some out ∧
          RoomFor (m.server.client c).writeBuf out := by
  -- the dicts of the database go through the calls of the three parts
  rw [← runs_iff hb, commandCalls, useTables_append, useTables_append]
  constructor
  · rintro ⟨m', h, rfl⟩
    obtain ⟨m₀, h₀, hrest⟩ := bind_ok.mp h
    obtain ⟨m₁, h₁, hrest⟩ := bind_ok.mp hrest
    obtain ⟨m₂, h₂, h₃⟩ := bind_ok.mp hrest
    obtain ⟨hlog, rfl⟩ := next_ok.mp h₀
    have hb₀ : Coherent { m with server := feedAof m.server c cmd } := next_coherent hb feedAof_db h₀
    have hb₁ : Coherent m₁ := expireArg_coherent hb₀ h₁
    obtain ⟨hs₁, ht₁⟩ := expireArg_tables.mp h₁
    rw [callProc_handler hp hs] at h₂
    obtain ⟨hs₂, ht₂, hans⟩ := handler_tables.mp h₂
    obtain ⟨hs₃, ht₃⟩ := touch_tables.mp h₃
    obtain ⟨hk, e₁⟩ := expireArg_ready.mp hs₁
    rw [ready_procCalls hb₁ e₁, e₁, ready_clientDb] at ht₂
    rw [e₁] at hs₂ hans
    rw [touch_useTables hc hp hs _ hk hs₂] at ht₃
    obtain ⟨out, ho, -⟩ := callProc_answer hp hs hs₂
    have hroom := (answers_room hp hs hs₂ ho).mp hans
    rw [ready_writeBuf] at hroom
    refine ⟨bind_ok.mpr ⟨_, hs₁, bind_ok.mpr ⟨m₂.server, ?_, hs₃⟩⟩, hlog, ?_, out, ho, hroom⟩
    · rw [callProc_query hp, e₁]
      exact hs₂
    · have ht₁ : useTables (m.server.client c).db m.tables (expireCalls env argv cmd) =
          some m₁.tables := by
        rw [← @feedAof_clientDb m.server c cmd]
        exact ht₁
      rw [ht₁, Option.bind_some, ht₂, Option.bind_some, ht₃]
      rfl
  · rintro ⟨h, hlog, ht, out, ho, hroom⟩
    obtain ⟨s₁, hs₁, hrest⟩ := bind_ok.mp h
    obtain ⟨s₂, hs₂, hs₃⟩ := bind_ok.mp hrest
    obtain ⟨hk, rfl⟩ := expireArg_ready.mp hs₁
    obtain ⟨ts₃, ht⟩ := Option.isSome_iff_exists.mp ht
    obtain ⟨ts₂, ht₁₂, ht₃⟩ := Option.bind_eq_some_iff.mp ht
    obtain ⟨ts₁, ht₁, ht₂⟩ := Option.bind_eq_some_iff.mp ht₁₂
    have h₀ : m.feedAof c cmd = .ok { m with server := feedAof m.server c cmd } :=
      next_ok.mpr ⟨hlog, rfl⟩
    have h₁ : Machine.expireArg env { m with server := feedAof m.server c cmd } c cmd argv =
        .ok ⟨ready env m.server c argv cmd, ts₁⟩ := by
      refine expireArg_tables.mpr ⟨hs₁, ?_⟩
      dsimp only
      rw [feedAof_clientDb]
      exact ht₁
    have hb₁ : Coherent ⟨ready env m.server c argv cmd, ts₁⟩ :=
      expireArg_coherent (next_coherent hb feedAof_db h₀) h₁
    rw [@callProc_query _ _ _ _ _ (fun _ _ => .error .undefined) _ hp] at hs₂
    have h₂ : Machine.callProc mquery env cmd.proc ⟨ready env m.server c argv cmd, ts₁⟩ c argv =
        .ok ⟨s₂, ts₂⟩ := by
      rw [callProc_handler hp hs]
      refine handler_tables.mpr ⟨hs₂, ?_, (answers_room hp hs hs₂ ho).mpr ?_⟩
      · rw [ready_procCalls hb₁ rfl]
        dsimp only
        rw [ready_clientDb]
        exact ht₂
      · rw [ready_writeBuf]
        exact hroom
    refine ⟨⟨t, ts₃⟩, bind_ok.mpr ⟨_, h₀, bind_ok.mpr ⟨_, h₁, bind_ok.mpr ⟨_, h₂, ?_⟩⟩⟩, rfl⟩
    refine touch_tables.mpr ⟨hs₃, ?_⟩
    dsimp only
    rw [touch_useTables hc hp hs _ hk hs₂]
    exact ht₃

end Command

/-! ## The slaves -/

theorem roomForAll_congr {str : Bytes} {xs : List ClientId} (h : ∀ x, (s.client x).writeBuf =
    (t.client x).writeBuf) : RoomForAll str s xs ↔ RoomForAll str t xs := by
  induction xs generalizing s t with
  | nil => exact Iff.rfl
  | cons y xs ih =>
    rw [RoomForAll, RoomForAll, h y]
    refine and_congr_right fun _ => ih fun x => ?_
    rw [addWrite, addWrite, modifyClient_client, modifyClient_client]
    split
    · dsimp only
      rw [h]
    · exact h x

theorem slaves_congr (hc : s.clients = t.clients) (hf : ∀ x, (s.client x).flags = (t.client x).flags) :
    slaves s = slaves t := by
  rw [slaves, slaves, hc]
  exact List.filter_congr fun x _ => by rw [hf]

theorem propagate_room {xs : List ClientId} {str : Bytes} :
    (∃ m', xs.foldlM (fun m x => Machine.addWrite m x str) m = .ok m') ↔
      RoomForAll str m.server xs := by
  induction xs generalizing m with
  | nil => exact iff_of_true ⟨m, rfl⟩ trivial
  | cons x xs ih =>
    rw [RoomForAll, List.foldlM_cons]
    constructor
    · rintro ⟨m', h⟩
      obtain ⟨m₁, h₁, h₂⟩ := bind_ok.mp h
      obtain ⟨hfit, rfl⟩ := addWrite_ok.mp h₁
      exact ⟨hfit, ih.mp ⟨m', h₂⟩⟩
    · rintro ⟨hfit, hroom⟩
      obtain ⟨m', h⟩ := (ih (m := { m with server := addWrite m.server x str })).mpr hroom
      exact ⟨m', bind_ok.mpr ⟨_, addWrite_ok.mpr ⟨hfit, rfl⟩, h⟩⟩

/-- A string goes to every slave, if there are any: it is a C string, and has room. -/
def RoomForSlaves (s : RedisServer) (buf : Sds) : Prop :=
  (slaves s = [] ∨ 0 ∈ buf.buf.take buf.alloc) ∧ RoomForAll buf.buf s (slaves s)

theorem roomForSlaves_congr {buf : Sds} (hc : s.clients = t.clients)
    (hf : ∀ x, (s.client x).flags = (t.client x).flags)
    (hw : ∀ x, (s.client x).writeBuf = (t.client x).writeBuf) : RoomForSlaves s buf ↔ RoomForSlaves t buf := by
  rw [RoomForSlaves, RoomForSlaves, slaves_congr hc hf, roomForAll_congr hw]

theorem commandPropagate_room {buf : Sds} :
    (∃ m', m.commandPropagate buf = .ok m') ↔ RoomForSlaves m.server buf := by
  rw [Machine.commandPropagate, RoomForSlaves]
  by_cases hstr : slaves m.server ≠ [] ∧ 0 ∉ buf.buf.take buf.alloc
  · rw [if_pos hstr]
    refine iff_of_false ?_ fun h => hstr.2 (h.1.resolve_left hstr.1)
    rintro ⟨m', h⟩
    cases h
  · rw [if_neg hstr, propagate_room]
    refine (and_iff_right ?_).symm
    by_contra hno
    exact hstr (not_or.mp hno)

theorem replicate_room : (∃ m', m.replicate c cmd = .ok m') ↔
    (cmd.write = true → m.server.flags.master = true →
      RoomForSlaves m.server (m.server.client c).readBuf) := by
  have hprop : (∃ m', m.replicate c cmd = .ok m') ↔ ∃ m', m.propagate c cmd = .ok m' := by
    constructor
    · rintro ⟨m', h⟩
      obtain ⟨m₁, h₁, -⟩ := bind_ok.mp h
      exact ⟨m₁, h₁⟩
    · rintro ⟨m₁, h₁⟩
      by_cases hw : (cmd.write && m₁.server.flags.slave) = true
      · exact ⟨_, bind_ok.mpr ⟨m₁, h₁, by rw [if_pos hw]; rfl⟩⟩
      · exact ⟨_, bind_ok.mpr ⟨m₁, h₁, by rw [if_neg hw]; rfl⟩⟩
  rw [hprop, Machine.propagate]
  by_cases hw : (cmd.write && m.server.flags.master) = true
  · obtain ⟨hwrite, hm⟩ := (Bool.and_eq_true _ _).mp hw
    rw [if_pos hw, commandPropagate_room, forall_prop_of_true hwrite, forall_prop_of_true hm]
    exact roomForSlaves_congr rfl (fun _ => rfl) fun _ => rfl
  · rw [if_neg hw]
    refine iff_of_true ⟨m, rfl⟩ fun hwrite hm => ?_
    rw [hwrite, hm] at hw
    exact absurd rfl hw

/-- The server when it passes a write on, as far as its slaves are concerned: the client has its
answer, and what watched the key is marked. -/
def told (s : RedisServer) (c : ClientId) (argv : List Bytes) (out : List Bytes) : RedisServer :=
  { s with client := fun x => { s.client x with
      writeBuf := if x = c then appendAll (s.client c).writeBuf out else (s.client x).writeBuf
      flags := if x ∈ watchersAt s (s.client c).db.toNat (keyOf argv)
        then { (s.client x).flags with dirtyCas := true } else (s.client x).flags } }

theorem executed_told {query : RedisServer → ClientId → Except Fault RedisServer}
    (hc : cmd ∈ commandsTable) (hw : cmd.write = true)
    (h : Server.executed query env s c cmd argv = .ok t)
    (ho : answer env (ready env s c argv cmd) c argv cmd.proc = some out) :
    t.clients = (told s c argv out).clients ∧
      (∀ x, (t.client x).flags = ((told s c argv out).client x).flags) ∧
      (∀ x, (t.client x).writeBuf = ((told s c argv out).client x).writeBuf) ∧
      (t.client c).readBuf = ((feedAof s c cmd).client c).readBuf ∧ t.flags = s.flags := by
  obtain ⟨hp, hslave, -⟩ := write_plain cmd hc hw
  have hap : ∀ x, Apart env cmd.proc x := fun x e => absurd e hslave
  have hserver := Server.executed_server hp h
  have hcore := executed_core_write hc hw h
  refine ⟨hserver.clients, fun x => ?_, fun x => ?_, executed_readBuf hp (hap c) h,
    hserver.flags.trans (if_neg hslave)⟩
  · rw [core_flags (hcore x), told]
    dsimp only
    split <;> rfl
  · obtain ⟨s₁, h₁, hrest⟩ := bind_ok.mp h
    obtain ⟨s₂, h₂, h₃⟩ := bind_ok.mp hrest
    obtain ⟨-, rfl⟩ := expireArg_ready.mp h₁
    rw [if_pos hw] at h₃
    have htouch := touchWatchKey_field (·.writeBuf) (fun _ => rfl) h₃ x
    refine htouch.trans ?_
    rw [told]
    dsimp only
    by_cases hx : x = c
    · obtain ⟨out', ho', hout⟩ := callProc_answer hp hslave h₂
      cases ho.symm.trans ho'
      rw [if_pos hx, hx, hout, ready_writeBuf]
    · rw [if_neg hx, (callProc_frame hp h₂).other x hx (hap x), ready]
      exact congrArg RedisClient.writeBuf (feedAof_other hx s cmd)

/-! ## A command -/

/-- What a command needs to return: its key, an answer, and room for all that it appends. -/
structure ReturnsWith (env : Env) (m : Machine) (c : ClientId) (argv : List Bytes) (cmd : RedisCommand)
    (out : List Bytes) : Prop where
  keyed : Keyed m.server c argv cmd
  answer : answer env (ready env m.server c argv cmd) c argv cmd.proc = some out
  runs : Runs m.tables (m.server.client c).db (commandCalls env m.server c argv cmd)
  logs : RoomForAof m.server c cmd
  output : RoomFor (m.server.client c).writeBuf out
  slaves : cmd.write = true → m.server.flags.master = true →
    RoomForSlaves (told m.server c argv out) ((feedAof m.server c cmd).client c).readBuf

/-- The history is not looked at. -/
theorem ready_calls (l : List Call) :
    ready env { s with calls := l } c argv cmd = { ready env s c argv cmd with calls := l } := by
  rw [ready, ready, feedAof, feedAof]
  dsimp only
  split <;> rfl

theorem answer_calls (l : List Call) :
    answer env { s with calls := l } c argv proc = answer env s c argv proc := by
  cases proc with
  | info =>
    have hinfo : generateInfoRespContent { s with calls := l } = generateInfoRespContent s := rfl
    rw [answer, answer, hinfo]
  | _ => rfl

/-- **When a command returns.** -/
theorem processCommand_returns (hb : Coherent m) (hf : foundCommand m.server c argv = some cmd)
    (hp : cmd.proc ≠ .exec) (hs : cmd.proc ≠ .slaveof) :
    (∃ m', m.processCommand mquery env c argv = .ok m') ↔ ∃ out, ReturnsWith env m c argv cmd out := by
  obtain ⟨name, hname, hlook⟩ : ∃ name, argAt argv 0 = .ok name ∧
      lookupCommand m.server c name = some cmd := by
    obtain ⟨name, hname, hlook⟩ := Option.bind_eq_some_iff.mp hf
    exact ⟨name, argAt_ok.mpr hname, hlook⟩
  have hc := mem_table hf
  have hbl : Coherent (m.logCall c argv (some cmd)) := hb
  have hready : ∀ out, answer env (ready env (m.logCall c argv (some cmd)).server c argv cmd) c argv
      cmd.proc = some out ↔ answer env (ready env m.server c argv cmd) c argv cmd.proc = some out :=
    fun out => by rw [Machine.logCall, ready_calls, answer_calls]
  have hshape : (∃ m', m.processCommand mquery env c argv = .ok m') ↔
      ∃ m₁, (m.logCall c argv (some cmd)).executed mquery env c argv cmd = .ok m₁ ∧
        ∃ m₂, m₁.replicate c cmd = .ok m₂ := by
    rw [Machine.processCommand, hname, ok_bind]
    dsimp only
    rw [hlook]
    constructor
    · rintro ⟨m', h⟩
      obtain ⟨m₂, h₂, -⟩ := bind_ok.mp h
      obtain ⟨m₁, h₁, h₂⟩ := bind_ok.mp h₂
      exact ⟨m₁, h₁, m₂, h₂⟩
    · rintro ⟨m₁, h₁, m₂, h₂⟩
      exact ⟨_, bind_ok.mpr ⟨m₂, bind_ok.mpr ⟨m₁, h₁, h₂⟩, rfl⟩⟩
  -- the slaves get what the command leaves in the read buffer
  have hslaves : ∀ {query : RedisServer → ClientId → Except Fault RedisServer} {m₁ : Machine} {out},
      executed query env (m.logCall c argv (some cmd)).server c cmd argv = .ok m₁.server →
      answer env (ready env m.server c argv cmd) c argv cmd.proc = some out →
      ((∃ m₂, m₁.replicate c cmd = .ok m₂) ↔ (cmd.write = true → m.server.flags.master = true →
        RoomForSlaves (told m.server c argv out) ((feedAof m.server c cmd).client c).readBuf)) := by
    intro query m₁ out h ho
    rw [replicate_room]
    refine forall_congr' fun hw => ?_
    obtain ⟨hcl, hfl, hwb, hrb, hfs⟩ := executed_told hc hw h ((hready out).mpr ho)
    have hfeed : ((feedAof (m.logCall c argv (some cmd)).server c cmd).client c).readBuf =
        ((feedAof m.server c cmd).client c).readBuf := by
      rw [Machine.logCall, feedAof, feedAof]
      dsimp only
      split <;> rfl
    rw [hfs, hrb, hfeed, roomForSlaves_congr hcl hfl hwb]
    exact imp_congr_right fun _ => roomForSlaves_congr rfl (fun _ => rfl) fun _ => rfl
  rw [hshape]
  constructor
  · rintro ⟨m₁, h₁, h₂⟩
    obtain ⟨hexec, hlog, hruns, out, ho, hroom⟩ :=
      (executed_returns hc hp hs (fun _ _ => .error .undefined) hbl).mp ⟨m₁, h₁, rfl⟩
    have ho := (hready out).mp ho
    have hk := ((executed_answers hc hp hs).mp ⟨_, hexec⟩).1
    exact ⟨out, hk, ho, hruns, hlog, hroom, (hslaves hexec ho).mp h₂⟩
  · rintro ⟨out, h⟩
    have ho := (hready out).mpr h.answer
    obtain ⟨t, ht⟩ : ∃ t, executed (fun _ _ => .error .undefined) env
        (m.logCall c argv (some cmd)).server c cmd argv = .ok t :=
      (executed_answers hc hp hs).mpr ⟨h.keyed, Option.isSome_iff_exists.mpr ⟨out, ho⟩⟩
    have hroom : RoomFor (m.server.client c).writeBuf out := h.output
    obtain ⟨m₁, h₁, rfl⟩ : ∃ m₁, (m.logCall c argv (some cmd)).executed mquery env c argv cmd =
        .ok m₁ ∧ m₁.server = t :=
      (executed_returns hc hp hs _ hbl).mpr ⟨ht, h.logs, h.runs, out, ho, hroom⟩
    exact ⟨m₁, h₁, (hslaves ht h.answer).mpr h.slaves⟩

/-- What a command that is no write appends to its client's output. -/
theorem processCommand_says {query : RedisServer → ClientId → Except Fault RedisServer}
    {s' : RedisServer} (hf : foundCommand s c argv = some cmd) (hw : cmd.write = false)
    (hp : cmd.proc ≠ .exec) (hs : cmd.proc ≠ .slaveof)
    (h : processCommand query env s c argv = .ok s') :
    ∃ out, answer env (ready env s c argv cmd) c argv cmd.proc = some out ∧ Says s c out s' := by
  obtain ⟨-, t, ht, rfl⟩ := (processCommand_found hf).mp h
  obtain ⟨s₁, h₁, hrest⟩ := bind_ok.mp ht
  obtain ⟨s₂, h₂, h₃⟩ := bind_ok.mp hrest
  obtain ⟨-, rfl⟩ := expireArg_ready.mp h₁
  rw [if_neg (by rw [hw]; exact Bool.false_ne_true)] at h₃
  cases h₃
  obtain ⟨out, ho, hout⟩ := callProc_answer hp hs h₂
  rw [logCall, ready_calls, answer_calls] at ho
  refine ⟨out, ho, ?_⟩
  rw [Says, writeBuf_clearReadBuf, replicate_read hw, hout, ready_writeBuf]
  rfl

/-- The room for an answer that is one string. -/
theorem roomFor_says {buf : Sds} {s' : RedisServer} {rep : Bytes} (hsync : proc ≠ .sync)
    (ho : answer env s c argv proc = some out) (hs : Says s' c out t)
    (e : (t.client c).writeBuf.content = (s'.client c).writeBuf.content ++ rep) :
    RoomFor buf out ↔ buf.Fits rep.length := by
  rw [hs, content_appendAll] at e
  have hflat : out.flatten = rep := List.append_cancel_left e
  have hone := answer_single hsync out ho
  obtain _ | ⟨p, _ | ⟨q, ps⟩⟩ := out
  · rw [← hflat]
    exact Iff.rfl
  · rw [← hflat]
    exact Iff.rfl
  · simp at hone

/-- A command that is no write and that the server answers is answered iff the dicts take its
calls and the answer has room. -/
theorem processCommand_lookup (slack : Nat) {depth : Nat} {s' : RedisServer} {rep : Bytes} (hb : Coherent m)
    (hf : foundCommand m.server c argv = some cmd) (hw : cmd.write = false)
    (hp : cmd.proc ≠ .exec) (hs : cmd.proc ≠ .slaveof) (hsync : cmd.proc ≠ .sync)
    (h : processCommand (processClientQueryBuf env depth) env m.server c argv = .ok s')
    (e : (s'.client c).writeBuf.content = (m.server.client c).writeBuf.content ++ rep) :
    (∃ m', m.processCommand (Machine.processClientQueryBuf slack env depth) env c argv = .ok m' ∧
        m'.server = s') ↔
      Runs m.tables (m.server.client c).db (commandCalls env m.server c argv cmd) ∧
        (m.server.client c).writeBuf.Fits rep.length := by
  have hreturns : (∃ m', m.processCommand (Machine.processClientQueryBuf slack env depth) env c argv =
      .ok m') ↔ ∃ out, ReturnsWith env m c argv cmd out := processCommand_returns hb hf hp hs
  obtain ⟨out, ho, hsays⟩ := processCommand_says hf hw hp hs h
  have hroom : RoomFor (m.server.client c).writeBuf out ↔
      (m.server.client c).writeBuf.Fits rep.length := roomFor_says hsync ho hsays e
  constructor
  · rintro ⟨m', h', -⟩
    obtain ⟨out', hret⟩ := hreturns.mp ⟨m', h'⟩
    cases ho.symm.trans hret.answer
    exact ⟨hret.runs, hroom.mp hret.output⟩
  · rintro ⟨hruns, hfits⟩
    obtain ⟨-, t, ht, -⟩ := (processCommand_found hf).mp h
    have hkeyed : Keyed m.server c argv cmd :=
      ((executed_answers (s := logCall m.server c argv) (mem_table hf) hp hs).mp ⟨t, ht⟩).1
    obtain ⟨m', h'⟩ := hreturns.mpr ⟨out, hkeyed, ho, hruns, fun h => by simp [hw] at h,
      hroom.mpr hfits, fun h => absurd h (by simp [hw])⟩
    have hcall := processCommand_server (fun h => query_server h) h'
    rw [h] at hcall
    exact ⟨m', h', (Except.ok.inj hcall).symm⟩

end Fedis.Proof.Machine
