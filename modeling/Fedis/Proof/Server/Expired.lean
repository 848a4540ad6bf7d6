import Fedis.Proof.Machine.Requests

/-!
# Reads of a key past its deadline

A command that reads removes the value of its first argument, if that is a key past its
deadline, and leaves the deadline (`processCommand_read`). So GET does not find the key;
OBJECT ENCODING, whose key is its second argument, finds the value; and TTL finds the
deadline, which it looks for in the first database (`call_expired_iff`). The reply comes if the
dicts and the output buffer take it (`expired_notFound_iff`).
-/

namespace Fedis.Proof.Server

open Framework Resp

variable {query : RedisServer → ClientId → Except Fault RedisServer} {env : Env}
  {s s' t : RedisServer} {c : ClientId} {argv : List Bytes} {cmd : RedisCommand} {db : RedisDb}
  {arg key : Bytes}

/-! ## Replies -/

/-- The call returns, and the client is told that there is no such key. -/
def NotFound (s : RedisServer) (c : ClientId) (r : Except Fault RedisServer) : Prop :=
  ∃ s', r = .ok s' ∧
    (s'.client c).writeBuf.content = (s.client c).writeBuf.content ++ resp.keyNotFound

/-- A bulk string is another reply. -/
theorem not_notFound_bulk {str : Bytes} (h : addWriteBulk s c str = .ok s') :
    (s'.client c).writeBuf.content ≠ (s.client c).writeBuf.content ++ resp.keyNotFound := by
  obtain ⟨-, rfl⟩ := addWriteBulk_ok.mp h
  rw [addWrite_content]
  intro e
  have e := congrArg List.head? (List.append_cancel_left e)
  have hb : (cstr (bulkString (cstr str))).head? = some 36 := rfl
  rw [hb] at e
  exact absurd e (by decide)

/-! ## Handlers -/

theorem get_notFound (hk : argv[1]? = some arg) (hdb : s.getDb (s.client c).db = .ok db) :
    NotFound s c (commandGetProc s c argv) ↔ db.kv.lookup (cstr arg) = none := by
  constructor
  · rintro ⟨s', h, e⟩
    obtain ⟨key, db', hk', hdb', ⟨hn, -⟩ | ⟨res, -, hw⟩⟩ := commandGetProc_ok.mp h
    · cases hk.symm.trans hk'
      cases hdb.symm.trans hdb'
      exact hn
    · exact absurd e (not_notFound_bulk hw)
  · intro hn
    exact ⟨_, commandGetProc_ok.mpr ⟨arg, db, hk, hdb, .inl ⟨hn, rfl⟩⟩, addWrite_content ..⟩

theorem object_notFound (hk : argv[2]? = some arg)
    (hop : ∃ op, argv[1]? = some op ∧ strcaseeq op (bytes "ENCODING") = true)
    (hdb : s.getDb (s.client c).db = .ok db) :
    NotFound s c (commandObjectProc s c argv) ↔ db.kv.lookup (cstr arg) = none := by
  obtain ⟨op, hop, he⟩ := hop
  constructor
  · rintro ⟨s', h, e⟩
    obtain ⟨key, op', hk', hop', h⟩ := commandObjectProc_ok.mp h
    cases hk.symm.trans hk'
    cases hop.symm.trans hop'
    rw [if_pos he] at h
    obtain ⟨db', hdb', ⟨hn, -⟩ | ⟨val, -, hw⟩⟩ := h
    · cases hdb.symm.trans hdb'
      exact hn
    · exact absurd e (not_notFound_bulk hw)
  · intro hn
    refine ⟨addWrite s c resp.keyNotFound, commandObjectProc_ok.mpr ⟨arg, op, hk, hop, ?_⟩,
      addWrite_content ..⟩
    rw [if_pos he]
    exact ⟨db, hdb, .inl ⟨hn, rfl⟩⟩

theorem ttl_notFound (hk : argv[1]? = some arg) (hdb : s.getDb 0 = .ok db) :
    NotFound s c (commandTtlProc env s c argv) ↔ cstr arg ∉ db.expires := by
  constructor
  · rintro ⟨s', h, e⟩
    obtain ⟨key, db', hk', hdb', ⟨hn, -⟩ | ⟨_, -, -, -, hbulk⟩⟩ := commandTtlProc_ok.mp h
    · cases hk.symm.trans hk'
      cases hdb.symm.trans hdb'
      exact hn
    · exact absurd e (not_notFound_bulk hbulk)
  · intro hn
    exact ⟨_, commandTtlProc_ok.mpr ⟨arg, db, hk, hdb, .inl ⟨hn, rfl⟩⟩, addWrite_content ..⟩

/-! ## Calls -/

/-- The server that the handler of a command that reads is called in. -/
def looked (now : Int) (s : RedisServer) (c : ClientId) (argv : List Bytes) (db : RedisDb) :
    RedisServer :=
  (logCall s c argv).setDb (s.client c).db (expireIfNeed db (keyOf argv) now)

theorem processCommand_read (hf : foundCommand s c argv = some cmd) (hr : cmd.read = true)
    (hw : cmd.write = false) (hk : argv[1]? = some arg) (hdb : s.getDb (s.client c).db = .ok db) :
    processCommand query env s c argv = .ok s' ↔
      ∃ t, callProc query env cmd.proc (looked env.now s c argv db) c argv = .ok t ∧
        s' = clearReadBuf t c := by
  have hfeed : feedAof (logCall s c argv) c cmd = logCall s c argv := by simp [feedAof, hw]
  have hlook : expireArg env (logCall s c argv) c cmd argv = .ok (looked env.now s c argv db) := by
    refine expireArg_ok.mpr ?_
    rw [if_pos (by simp [hr])]
    exact ⟨arg, db, hk, hdb, by rw [looked, keyOf_eq hk]; rfl⟩
  have hne : argv ≠ [] := by
    rintro rfl
    cases hk
  rw [processCommand_found hf, executed, hfeed, hlook, ok_bind]
  constructor
  · rintro ⟨-, t, h, rfl⟩
    obtain ⟨u, hu, h⟩ := bind_ok.mp h
    rw [hw] at h
    obtain rfl := pure_ok.mp h
    exact ⟨u, hu, by rw [replicate_read hw]⟩
  · rintro ⟨t, h, rfl⟩
    refine ⟨hne, t, bind_ok.mpr ⟨t, h, ?_⟩, by rw [replicate_read hw]⟩
    rw [hw]
    rfl

/-- The reply of the call is that of the handler. -/
theorem call_notFound (hf : foundCommand s c argv = some cmd) (hr : cmd.read = true)
    (hw : cmd.write = false) (hk : argv[1]? = some arg) (hdb : s.getDb (s.client c).db = .ok db) :
    NotFound s c (processCommand query env s c argv) ↔ NotFound (looked env.now s c argv db) c
      (callProc query env cmd.proc (looked env.now s c argv db) c argv) := by
  constructor
  · rintro ⟨s', h, e⟩
    obtain ⟨t, ht, rfl⟩ := (processCommand_read hf hr hw hk hdb).mp h
    rw [writeBuf_clearReadBuf] at e
    exact ⟨t, ht, e⟩
  · rintro ⟨t, ht, e⟩
    refine ⟨_, (processCommand_read hf hr hw hk hdb).mpr ⟨t, ht, rfl⟩, ?_⟩
    rw [writeBuf_clearReadBuf]
    exact e

/-- The key that GET, OBJECT ENCODING and TTL are asked about. -/
def askedKey (cmd : RedisCommand) (argv : List Bytes) : Option Bytes :=
  match cmd.proc with
  | .get | .ttl => argv[1]?.map cstr
  | .object => if (argv[1]?.map (strcaseeq · (bytes "ENCODING"))).getD false then argv[2]?.map cstr
    else none
  | _ => none

/-- What the command looks for is not there: for OBJECT a value, unless the key is its
subcommand too; for TTL a deadline in the first database. -/
def Overlooks (s : RedisServer) (c : ClientId) (cmd : RedisCommand) (argv : List Bytes)
    (key : Bytes) : Prop :=
  match cmd.proc with
  | .object => kvAt s (s.client c).db.toNat key = none ∨ keyOf argv = key
  | .ttl => expireAt s 0 key = none
  | _ => True

theorem read_entry : ∀ cmd ∈ commandsTable,
    cmd.proc = .get ∨ cmd.proc = .object ∨ cmd.proc = .ttl → cmd.read = true ∧ cmd.write = false := by
  decide

/-- What is left of a value when the first argument has been looked at. -/
theorem looked_kv {now deadline : Int} (hd : db.expires.lookup key = some deadline)
    (hp : deadline < now) : (expireIfNeed db arg now).kv.lookup key = none ↔
      db.kv.lookup key = none ∨ arg = key := by
  rw [expireIfNeed_eq]
  by_cases hk : arg = key
  · subst hk
    have hpast : arg ∈ db.expires ∧ mapFetchValue db.expires arg < now :=
      ⟨Finmap.mem_of_lookup_eq_some hd, by rwa [mapFetchValue, hd]⟩
    rw [if_pos hpast]
    exact iff_of_true (Finmap.lookup_erase ..) (.inr rfl)
  · rw [or_iff_left hk]
    split
    · rw [Finmap.lookup_erase_ne (Ne.symm hk)]
    · rfl

theorem ttl_expired (hf : foundCommand s c argv = some cmd) (hdb : s.getDb (s.client c).db = .ok db)
    (hproc : cmd.proc = .ttl) (hk : argv[1]? = some arg) (hkey : cstr arg = key) :
    NotFound s c (processCommand query env s c argv) ↔ expireAt s 0 key = none := by
  obtain ⟨hr, hw⟩ := read_entry cmd (mem_table hf) (.inr (.inr hproc))
  -- the first database has the deadlines it had
  obtain ⟨hi, hmem⟩ := getDb_ok.mp hdb
  obtain ⟨db0, h0⟩ : ∃ db0, s.db[0]? = some db0 :=
    ⟨_, List.getElem?_eq_getElem (Nat.zero_lt_of_lt (List.getElem?_eq_some_iff.mp hmem).1)⟩
  obtain ⟨db0', h0', hexp⟩ : ∃ db0', (looked env.now s c argv db).db[0]? = some db0' ∧
      db0'.expires = db0.expires := by
    rw [looked, setDb_db (logCall s c argv) hdb]
    split
    · rename_i hz
      rw [hz, Int.toNat_natCast, h0] at hmem
      cases hmem
      exact ⟨_, rfl, expireIfNeed_expires ..⟩
    · exact ⟨db0, h0, rfl⟩
  rw [call_notFound hf hr hw hk hdb, hproc]
  refine (ttl_notFound hk (getDb_zero h0')).trans ?_
  rw [hexp, hkey, expireAt, h0]
  exact Finmap.lookup_eq_none.symm

section Call

variable {deadline : Int} (hf : foundCommand s c argv = some cmd)
  (hdb : s.getDb (s.client c).db = .ok db) (hd : db.expires.lookup key = some deadline)
  (hp : deadline < env.now)
include hf hdb hd hp

theorem get_expired (hproc : cmd.proc = .get) (hk : argv[1]? = some arg) (hkey : cstr arg = key) :
    NotFound s c (processCommand query env s c argv) := by
  obtain ⟨hr, hw⟩ := read_entry cmd (mem_table hf) (.inl hproc)
  have hget := getDb_setDb (s := logCall s c argv) hdb (expireIfNeed db (keyOf argv) env.now)
  rw [call_notFound hf hr hw hk hdb, hproc]
  refine (get_notFound hk hget).mpr ?_
  rw [keyOf_eq hk, hkey]
  exact (looked_kv hd hp).mpr (.inr rfl)

theorem object_expired (hproc : cmd.proc = .object) {op : Bytes} (hop : argv[1]? = some op)
    (he : strcaseeq op (bytes "ENCODING") = true) (hk : argv[2]? = some arg)
    (hkey : cstr arg = key) : NotFound s c (processCommand query env s c argv) ↔
      db.kv.lookup key = none ∨ keyOf argv = key := by
  obtain ⟨hr, hw⟩ := read_entry cmd (mem_table hf) (.inr (.inl hproc))
  have hget := getDb_setDb (s := logCall s c argv) hdb (expireIfNeed db (keyOf argv) env.now)
  rw [call_notFound hf hr hw hop hdb, hproc]
  refine (object_notFound hk ⟨op, hop, he⟩ hget).trans ?_
  rw [hkey]
  exact looked_kv hd hp

/-- GET does not find the key, and OBJECT ENCODING and TTL do not iff what they look for is not
there. -/
theorem call_expired_iff (hk : askedKey cmd argv = some key) :
    NotFound s c (processCommand query env s c argv) ↔ Overlooks s c cmd argv key := by
  have hkv : kvAt s (s.client c).db.toNat key = db.kv.lookup key := by
    rw [kvAt, (getDb_ok.mp hdb).2]
    rfl
  unfold askedKey at hk
  unfold Overlooks
  split at hk
  · rename_i hproc
    obtain ⟨arg, ha, hkey⟩ := Option.map_eq_some_iff.mp hk
    rw [hproc]
    exact iff_of_true (get_expired hf hdb hd hp hproc ha hkey) trivial
  · rename_i hproc
    obtain ⟨arg, ha, hkey⟩ := Option.map_eq_some_iff.mp hk
    rw [hproc]
    exact ttl_expired hf hdb hproc ha hkey
  · rename_i hproc
    obtain ⟨he, hk⟩ := Option.ite_none_right_eq_some.mp hk
    obtain ⟨arg, ha, hkey⟩ := Option.map_eq_some_iff.mp hk
    obtain ⟨op, hop, he⟩ : ∃ op, argv[1]? = some op ∧ strcaseeq op (bytes "ENCODING") = true := by
      cases hop : argv[1]? with
      | none =>
        rw [hop] at he
        cases he
      | some op =>
        rw [hop] at he
        exact ⟨op, rfl, he⟩
    rw [hproc]
    dsimp only
    rw [hkv]
    exact object_expired hf hdb hd hp hproc hop he ha hkey
  · cases hk

end Call

/-- **Keys past their deadline** are not found by GET, and by OBJECT ENCODING and TTL if and
only if what they look for is not there, if the dicts find an entry wherever they migrate, and
the reply has room. -/
theorem expired_notFound_iff {m : Machine} {slack depth : Nat} {deadline : Int}
    (hb : Machine.Coherent m) (hf : foundCommand m.server c argv = some cmd)
    (hdb : m.server.getDb (m.server.client c).db = .ok db)
    (hd : db.expires.lookup key = some deadline) (hp : deadline < env.now)
    (hk : askedKey cmd argv = some key) :
    (∃ m', m.processCommand (Machine.processClientQueryBuf slack env depth) env c argv = .ok m' ∧
        (m'.server.client c).writeBuf.content =
          (m.server.client c).writeBuf.content ++ resp.keyNotFound) ↔
      Overlooks m.server c cmd argv key ∧
        Machine.Runs m.tables (m.server.client c).db
          (Machine.commandCalls env m.server c argv cmd) ∧
        (m.server.client c).writeBuf.Fits resp.keyNotFound.length := by
  have hproc : cmd.proc = .get ∨ cmd.proc = .object ∨ cmd.proc = .ttl := by
    rw [askedKey] at hk
    split at hk
    · exact .inl ‹_›
    · exact .inr (.inr ‹_›)
    · exact .inr (.inl ‹_›)
    · cases hk
  have hexec : cmd.proc ≠ .exec := by rcases hproc with e | e | e <;> rw [e] <;> decide
  have hslave : cmd.proc ≠ .slaveof := by rcases hproc with e | e | e <;> rw [e] <;> decide
  have hsync : cmd.proc ≠ .sync := by rcases hproc with e | e | e <;> rw [e] <;> decide
  obtain ⟨hr, hw⟩ := read_entry cmd (mem_table hf) hproc
  have hserver : NotFound m.server c (processCommand (processClientQueryBuf env depth) env m.server c
      argv) ↔ Overlooks m.server c cmd argv key := call_expired_iff hf hdb hd hp hk
  constructor
  · rintro ⟨m', h, e⟩
    have hcall := Machine.processCommand_server (fun h => Machine.query_server h) h
    exact ⟨hserver.mp ⟨_, hcall, e⟩,
      (Machine.processCommand_lookup slack hb hf hw hexec hslave hsync hcall e).mp ⟨m', h, rfl⟩⟩
  · rintro ⟨hover, hroom⟩
    obtain ⟨s', hcall, e⟩ := hserver.mpr hover
    obtain ⟨m', h, rfl⟩ :=
      (Machine.processCommand_lookup slack hb hf hw hexec hslave hsync hcall e).mpr hroom
    exact ⟨m', h, e⟩

/-- A client sets a key at time 0 that expires behind time 9, and takes both replies. -/
def sampleExpired : List MachineEvent :=
  [.read (sampleRead 7 [bytes "SET", bytes "k", bytes "v"]), .send 7 5 [] ⟨false, 0, 0, 0⟩,
    .read (sampleRead 7 [bytes "EXPIRE", bytes "k", bytes "9"]), .send 7 5 [] ⟨false, 0, 0, 0⟩]

theorem expired_notFound_get : ∃ us m m',
    run (machineStep 64) (initMachine samplePair) sampleExpired = some (us, m) ∧
    m.processCommand (Machine.processClientQueryBuf 64 ⟨10, none⟩ 11) ⟨10, none⟩ 8
      [bytes "GET", bytes "k"] = .ok m' ∧
    (m'.server.client 8).writeBuf.content =
      (m.server.client 8).writeBuf.content ++ resp.keyNotFound := by
  have hall : (run (machineStep 64) (initMachine samplePair) sampleExpired).map (fun r =>
      (foundCommand r.2.server 8 [bytes "GET", bytes "k"], expireAt r.2.server 0 (bytes "k"),
        (r.2.server.client 8).db,
        (Machine.useTables 0 r.2.tables
          (Machine.commandCalls ⟨10, none⟩ r.2.server 8 [bytes "GET", bytes "k"] getEntry)).isSome,
        decide ((r.2.server.client 8).writeBuf.Fits resp.keyNotFound.length))) =
      some (some getEntry, some 9, 0, true, true) := by decide +kernel
  obtain ⟨⟨us, m⟩, hrun, hm⟩ := Option.map_eq_some_iff.mp hall
  simp only [Prod.mk.injEq, decide_eq_true_eq] at hm
  obtain ⟨hf, hexp, hsel, hruns, hroom⟩ := hm
  have hb : Machine.Coherent m := Machine.run_coherent (Machine.coherent_init fun db h => List.mem_singleton.mp h) hrun
  obtain ⟨db, hdb, hd⟩ := Option.bind_eq_some_iff.mp hexp
  have hget : m.server.getDb (m.server.client 8).db = .ok db := by
    rw [hsel]
    exact getDb_zero hdb
  have hcalls := (Machine.runs_iff hb).mp hruns
  rw [← hsel] at hcalls
  obtain ⟨m', h, e⟩ := (@expired_notFound_iff ⟨10, none⟩ 8 [bytes "GET", bytes "k"] getEntry db
    (bytes "k") m 64 11 9 hb hf hget hd (by decide) (by decide)).mpr ⟨trivial, hcalls, hroom⟩
  exact ⟨us, m, m', hrun, h, e⟩

/-- OBJECT ENCODING tells how the value is stored, and TTL that its time is up. -/
theorem expired_found : ∃ us m m₁ m₂,
    run (machineStep 64) (initMachine samplePair) sampleExpired = some (us, m) ∧
    expireAt m.server 0 (bytes "k") = some 9 ∧ (m.server.client 8).writeBuf.content = [] ∧
    m.processCommand (Machine.processClientQueryBuf 64 ⟨10, none⟩ 11) ⟨10, none⟩ 8
      [bytes "OBJECT", bytes "ENCODING", bytes "k"] = .ok m₁ ∧
    (m₁.server.client 8).writeBuf.content = bulkString (bytes "embstr") ∧
    m.processCommand (Machine.processClientQueryBuf 64 ⟨10, none⟩ 11) ⟨10, none⟩ 8
      [bytes "TTL", bytes "k"] = .ok m₂ ∧
    (m₂.server.client 8).writeBuf.content = bulkString (bytes "ttl:-1s") := by
  have hall : (run (machineStep 64) (initMachine samplePair) sampleExpired).map (fun r =>
      (expireAt r.2.server 0 (bytes "k"), (r.2.server.client 8).writeBuf.content,
        [[bytes "OBJECT", bytes "ENCODING", bytes "k"], [bytes "TTL", bytes "k"]].map fun argv =>
          (r.2.processCommand (Machine.processClientQueryBuf 64 ⟨10, none⟩ 11) ⟨10, none⟩ 8
            argv).toOption.map fun m => (m.server.client 8).writeBuf.content)) =
      some (some 9, [], [some (bulkString (bytes "embstr")), some (bulkString (bytes "ttl:-1s"))]) := by
    decide +kernel
  obtain ⟨⟨us, m⟩, hrun, hm⟩ := Option.map_eq_some_iff.mp hall
  simp only [Prod.mk.injEq, List.map_cons, List.map_nil, List.cons.injEq, and_true] at hm
  obtain ⟨hexp, hnil, hobject, httl⟩ := hm
  obtain ⟨m₁, h₁, e₁⟩ := Option.map_eq_some_iff.mp hobject
  obtain ⟨m₂, h₂, e₂⟩ := Option.map_eq_some_iff.mp httl
  exact ⟨us, m, m₁, m₂, hrun, hexp, hnil, Machine.toOption_ok h₁, e₁, Machine.toOption_ok h₂, e₂⟩

end Fedis.Proof.Server
