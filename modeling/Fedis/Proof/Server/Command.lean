import Fedis.Proof.Server.Effects

/-!
# One call of `processCommand`

`processCommand_ok` cuts a call into the part that executes the command
(`executed`) and the replication; around the handler little else is changed
(`executed_frame`, `replied_field`). For a command other than EXEC,
`processCommand_db` and `processCommand_core` say what becomes of the databases
and the clients.
-/

namespace Fedis.Proof.Server

open Framework Resp

variable {query : RedisServer → ClientId → Except Fault RedisServer} {env : Env}
  {s s' t : RedisServer} {c x : ClientId} {argv : List Bytes} {cmd : RedisCommand}

/-! ## The parts -/

/-- The command that a request finds. -/
def foundCommand (s : RedisServer) (c : ClientId) (argv : List Bytes) : Option RedisCommand :=
  argv[0]?.bind (lookupCommand s c)

/-- The entry of a call in the history. -/
def callOf (s : RedisServer) (c : ClientId) (argv : List Bytes) : Call :=
  ⟨c, argv, (s.client c).db, (foundCommand s c argv).map (·.proc)⟩

def logCall (s : RedisServer) (c : ClientId) (argv : List Bytes) : RedisServer :=
  { s with calls := s.calls ++ [callOf s c argv] }

def clearReadBuf (s : RedisServer) (c : ClientId) : RedisServer :=
  s.modifyClient c fun client => { client with readBuf := sdsclear client.readBuf }

/-- Everything up to the replication. -/
def executed (query : RedisServer → ClientId → Except Fault RedisServer) (env : Env)
    (s : RedisServer) (c : ClientId) (cmd : RedisCommand) (argv : List Bytes) :
    Except Fault RedisServer := do
  let s ← expireArg env (feedAof s c cmd) c cmd argv
  let s ← callProc query env cmd.proc s c argv
  if cmd.write then touchWatchKey s c argv else pure s

/-- A command is looked up, executed and replicated. -/
theorem processCommand_eq (hne : argv ≠ []) : processCommand query env s c argv =
    match foundCommand s c argv with
    | none => .ok (clearReadBuf (addWrite (logCall s c argv) c resp.invalidCommand) c)
    | some cmd => do
      let t ← executed query env (logCall s c argv) c cmd argv
      return clearReadBuf (replicate t c cmd) c := by
  obtain ⟨name, args, rfl⟩ := List.exists_cons_of_ne_nil hne
  have hn : argAt (name :: args) 0 = .ok name := rfl
  have hf : foundCommand s c (name :: args) = lookupCommand s c name := rfl
  have hlog : { s with calls := s.calls ++ [⟨c, name :: args, (s.client c).db,
      (lookupCommand s c name).map (·.proc)⟩] } = logCall s c (name :: args) := rfl
  unfold processCommand
  rw [hn, ok_bind, hf]
  dsimp only
  rw [hlog]
  cases lookupCommand s c name with
  | none => rfl
  | some cmd =>
    simp only [executed, bind_assoc, pure_bind]
    cases cmd.write
    · rfl
    · rfl

theorem processCommand_ok : processCommand query env s c argv = .ok s' ↔
    argv ≠ [] ∧
      ((foundCommand s c argv = none ∧
          s' = clearReadBuf (addWrite (logCall s c argv) c resp.invalidCommand) c) ∨
        ∃ cmd t, foundCommand s c argv = some cmd ∧
          executed query env (logCall s c argv) c cmd argv = .ok t ∧
          s' = clearReadBuf (replicate t c cmd) c) := by
  by_cases hne : argv = []
  · subst hne
    simp [processCommand, argAt]
  · rw [processCommand_eq hne]
    cases foundCommand s c argv with
    | none => simp [hne, eq_comm]
    | some cmd => simp [bind_ok, hne, @eq_comm _ s']

/-- A call of a command that is found. -/
theorem processCommand_found (hf : foundCommand s c argv = some cmd) :
    processCommand query env s c argv = .ok s' ↔
      argv ≠ [] ∧ ∃ t, executed query env (logCall s c argv) c cmd argv = .ok t ∧
        s' = clearReadBuf (replicate t c cmd) c := by
  rw [processCommand_ok, hf]
  simp

/-- A command that is not found gets its reply. -/
theorem processCommand_error {e : Fault} (hne : argv ≠ []) :
    processCommand query env s c argv = .error e ↔
      ∃ cmd, foundCommand s c argv = some cmd ∧
        executed query env (logCall s c argv) c cmd argv = .error e := by
  rw [processCommand_eq hne]
  cases foundCommand s c argv with
  | none => simp
  | some cmd => simp [bind_error]

/-! ## The first key -/

/-- What the expiry of a key leaves of a database. -/
theorem expireIfNeed_eq (db : RedisDb) (key : Bytes) (now : Int) :
    expireIfNeed db key now =
      if key ∈ db.expires ∧ mapFetchValue db.expires key < now then
        { db with kv := db.kv.erase key }
      else db := by
  unfold expireIfNeed mapContains mapDelete
  by_cases h : key ∈ db.expires ∧ mapFetchValue db.expires key < now
  · by_cases hk : key ∈ db.kv
    · simp [h, hk, DICT_OK]
    · simp [h, hk, DICT_ERR, erase_of_notMem hk]
  · simp [h]

theorem expireArg_ok : expireArg env s c cmd argv = .ok s' ↔
    if cmd.read || cmd.write then
      ∃ key db, argv[1]? = some key ∧ s.getDb (s.client c).db = .ok db ∧
        s' = s.setDb (s.client c).db (expireIfNeed db (cstr key) env.now)
    else s' = s := by
  unfold expireArg
  split
  · simp only [bind_ok, argAt_ok, pure_ok, @eq_comm _ s']
    constructor
    · rintro ⟨key, hk, db, hdb, rfl⟩
      exact ⟨key, db, hk, hdb, rfl⟩
    · rintro ⟨key, db, hk, hdb, rfl⟩
      exact ⟨key, hk, db, hdb, rfl⟩
  · simp [eq_comm]

/-- Marks a client's transaction as failed. -/
def markDirty (client : RedisClient) : RedisClient :=
  { client with flags := { client.flags with dirtyCas := true } }

/-- Marking clients changes nothing else. -/
theorem markAll_eq (l : List ClientId) (s : RedisServer) :
    l.foldl (fun s x => s.modifyClient x markDirty) s = { s with
      client := fun x => if x ∈ l then markDirty (s.client x) else s.client x } := by
  induction l generalizing s with
  | nil => simp
  | cons y l ih =>
    rw [List.foldl_cons, ih]
    simp only [RedisServer.modifyClient, RedisServer.mk.injEq, true_and, and_true]
    funext x
    by_cases hy : x = y
    · subst hy
      simp [markDirty]
    · simp [hy]

/-- Empties the watch list of a key. -/
def unwatch (db : RedisDb) (key : Bytes) : RedisDb :=
  if key ∈ db.watchedKeys then { db with watchedKeys := db.watchedKeys.insert key [] } else db

theorem touchWatchKey_ok : touchWatchKey s c argv = .ok s' ↔
    ∃ key db, argv[1]? = some key ∧ s.getDb (s.client c).db = .ok db ∧
      s' = ({ s with client := fun x =>
        if x ∈ (db.watchedKeys.lookup (cstr key)).getD [] then markDirty (s.client x)
        else s.client x } : RedisServer).setDb (s.client c).db (unwatch db (cstr key)) := by
  simp only [touchWatchKey, bind_ok, argAt_ok]
  have same : ∀ key db, s.getDb (s.client c).db = .ok db →
      ((if dbIsWatching db (cstr key) then
        pure (((mapFetchValue db.watchedKeys (cstr key)).foldl
          (fun s x => s.modifyClient x markDirty) s).setDb (s.client c).db
            { db with watchedKeys := db.watchedKeys.insert (cstr key) [] })
        else pure s : Except Fault RedisServer) = .ok s' ↔
      s' = ({ s with client := fun x =>
        if x ∈ (db.watchedKeys.lookup (cstr key)).getD [] then markDirty (s.client x)
        else s.client x } : RedisServer).setDb (s.client c).db (unwatch db (cstr key))) := by
    intro key db hdb
    unfold dbIsWatching mapContains mapFetchValue unwatch
    by_cases h : cstr key ∈ db.watchedKeys
    · rw [if_pos (by simpa using h), if_pos h, pure_ok, markAll_eq,
        @eq_comm _ s']
      rfl
    · rw [if_neg (by simpa using h), if_neg h, pure_ok, Finmap.lookup_eq_none.mpr h]
      obtain ⟨-, hi⟩ := getDb_ok.mp hdb
      have : s.db.set (s.client c).db.toNat db = s.db := by
        obtain ⟨hlt, rfl⟩ := List.getElem?_eq_some_iff.mp hi
        exact List.set_getElem_self hlt
      simp only [RedisServer.setDb, this, Option.getD_none, List.not_mem_nil, if_false,
        @eq_comm _ s']
  constructor
  · rintro ⟨key, hk, db, hdb, h⟩
    exact ⟨key, db, hk, hdb, (same key db hdb).mp h⟩
  · rintro ⟨key, db, hk, hdb, h⟩
    exact ⟨key, hk, db, hdb, (same key db hdb).mpr h⟩

/-! ## The databases -/

theorem mem_table (h : foundCommand s c argv = some cmd) : cmd ∈ commandsTable := by
  cases argv with
  | nil => cases h
  | cons name args =>
    have h : lookupCommand s c name = some cmd := h
    exact List.mem_of_find?_eq_some h

theorem write_proc : ∀ cmd ∈ commandsTable, cmd.write = true →
    cmd.proc = .set ∨ cmd.proc = .del ∨ cmd.proc = .expire := by decide

theorem write_plain : ∀ cmd ∈ commandsTable, cmd.write = true →
    cmd.proc ≠ .exec ∧ cmd.proc ≠ .slaveof ∧ cmd.proc ≠ .watch := by decide

/-- The handler of a write command leaves its client as it is. -/
theorem write_client (hc : cmd ∈ commandsTable) (hw : cmd.write = true) (argv : List Bytes)
    (client : RedisClient) : clientEffect cmd.proc argv client = client := by
  rcases write_proc cmd hc hw with e | e | e <;> rw [e] <;> rfl

/-- The first argument, as a key. -/
def keyOf (argv : List Bytes) : Bytes := cstr (argv.getD 1 [])

theorem keyOf_eq {key : Bytes} (h : argv[1]? = some key) : keyOf argv = cstr key := by
  rw [keyOf, List.getD_eq_getElem?_getD, h]
  rfl

/-- What a command other than EXEC does to the selected database. -/
def cmdEffect (now : Int) (cmd : RedisCommand) (c : ClientId) (argv : List Bytes) (db : RedisDb) :
    RedisDb :=
  let db := if cmd.read || cmd.write then expireIfNeed db (keyOf argv) now else db
  let db := dbEffect now cmd.proc c argv db
  if cmd.write then unwatch db (keyOf argv) else db

@[simp] theorem feedAof_db : (feedAof s c cmd).db = s.db := by
  unfold feedAof
  split <;> rfl

@[simp] theorem feedAof_core : core ((feedAof s c cmd).client x) = core (s.client x) := by
  unfold feedAof
  split
  · refine modifyClient_field s c (fun client => { client with readBuf := _ }) core (fun _ => ?_) x
    rfl
  · rfl

theorem feedAof_other (hx : x ≠ c) (s : RedisServer) (cmd : RedisCommand) :
    (feedAof s c cmd).client x = s.client x := by
  unfold feedAof
  split
  · dsimp only
    rw [modifyClient_of_ne _ _ _ hx]
  · rfl

theorem expireArg_db (h : expireArg env s c cmd argv = .ok s') :
    s'.db = s.db.modify (s.client c).db.toNat fun db =>
      if cmd.read || cmd.write then expireIfNeed db (keyOf argv) env.now else db := by
  have h := expireArg_ok.mp h
  split at h
  · obtain ⟨key, db, hk, hdb, rfl⟩ := h
    rename_i hrw
    simp only [hrw, if_true, keyOf_eq hk]
    exact setDb_modify hdb fun db => expireIfNeed db (cstr key) env.now
  · rename_i hrw
    simp only [hrw, h]
    exact (modify_id _ _ fun _ => rfl).symm

theorem expireArg_client (h : expireArg env s c cmd argv = .ok s') : s'.client = s.client := by
  have h := expireArg_ok.mp h
  split at h
  · obtain ⟨key, db, -, -, rfl⟩ := h
    rfl
  · rw [h]

theorem touchWatchKey_db (h : touchWatchKey s c argv = .ok s') :
    s'.db = s.db.modify (s.client c).db.toNat fun db => unwatch db (keyOf argv) := by
  obtain ⟨key, db, hk, hdb, rfl⟩ := touchWatchKey_ok.mp h
  rw [keyOf_eq hk]
  exact setDb_modify (s := { s with client := _ }) hdb fun db => unwatch db (cstr key)

/-- A field of a client's object that is not a flag. -/
theorem touchWatchKey_field {α : Type} (g : RedisClient → α)
    (hg : ∀ client, g (markDirty client) = g client) (h : touchWatchKey s c argv = .ok s')
    (x : ClientId) : g (s'.client x) = g (s.client x) := by
  obtain ⟨key, db, -, -, rfl⟩ := touchWatchKey_ok.mp h
  rw [setDb_client]
  dsimp only
  split
  · exact hg _
  · rfl

/-- What stands around a handler changes databases, clients and the AOF only. -/
theorem executed_frame (h : executed query env s c cmd argv = .ok t) :
    ∃ s₁ s₂, callProc query env cmd.proc s₁ c argv = .ok s₂ ∧
      (∃ db client activeBuf, s₁ = { s with db := db, client := client, activeBuf := activeBuf }) ∧
      ∃ db client, t = { s₂ with db := db, client := client } := by
  obtain ⟨s₁, h₁, h⟩ := bind_ok.mp h
  obtain ⟨s₂, h₂, h⟩ := bind_ok.mp h
  have hfeed : ∃ client activeBuf, feedAof s c cmd =
      { s with client := client, activeBuf := activeBuf } := by
    unfold feedAof
    split
    · exact ⟨_, _, rfl⟩
    · exact ⟨s.client, s.activeBuf, rfl⟩
  obtain ⟨client, activeBuf, hfeed⟩ := hfeed
  refine ⟨s₁, s₂, h₂, ?_, ?_⟩
  · have h₁ := expireArg_ok.mp h₁
    rw [hfeed] at h₁
    split at h₁
    · obtain ⟨key, db, -, -, rfl⟩ := h₁
      exact ⟨_, _, _, rfl⟩
    · exact ⟨_, _, _, h₁⟩
  · split at h
    · obtain ⟨key, db, -, -, rfl⟩ := touchWatchKey_ok.mp h
      exact ⟨_, _, rfl⟩
    · exact ⟨s₂.db, s₂.client, (pure_ok.mp h).symm⟩

theorem executed_db (hc : cmd ∈ commandsTable) (hp : cmd.proc ≠ .exec)
    (h : executed query env s c cmd argv = .ok t) :
    t.db = s.db.modify (s.client c).db.toNat (cmdEffect env.now cmd c argv) := by
  obtain ⟨s₁, h₁, h⟩ := bind_ok.mp h
  obtain ⟨s₂, h₂, h⟩ := bind_ok.mp h
  have e₁ : s₁.db = _ := expireArg_db h₁
  rw [feedAof_db, core_db feedAof_core] at e₁
  have i₁ : (s₁.client c).db = (s.client c).db := by
    rw [expireArg_client h₁]
    exact core_db feedAof_core
  have e₂ : s₂.db = _ := callProc_db hp h₂
  rw [i₁, e₁, List.modify_modify_eq] at e₂
  cases hw : cmd.write with
  | false =>
    rw [hw] at h e₂
    obtain rfl : s₂ = t := pure_ok.mp h
    rw [e₂]
    congr 1
    funext db
    simp [cmdEffect, hw]
  | true =>
    have i₂ : (s₂.client c).db = (s.client c).db := by
      rw [← i₁]
      have hcore := (callProc_frame hp h₂).core fun e => absurd e (write_plain cmd hc hw).2.1
      rw [write_client hc hw] at hcore
      exact core_db hcore
    rw [hw] at h e₂
    rw [touchWatchKey_db h, i₂, e₂, List.modify_modify_eq]
    congr 1
    funext db
    simp [cmdEffect, hw]

/-! ## The clients -/

@[simp] theorem expireIfNeed_watchedKeys (db : RedisDb) (key : Bytes) (now : Int) :
    (expireIfNeed db key now).watchedKeys = db.watchedKeys := by
  rw [expireIfNeed_eq]
  split <;> rfl

theorem dbEffect_watchedKeys {proc : Proc} (hp : proc ≠ .watch) (now : Int) (db : RedisDb) :
    (dbEffect now proc c argv db).watchedKeys = db.watchedKeys := by
  unfold dbEffect
  split
  · rfl
  · rfl
  · split
    · rfl
    · split <;> rfl
  · exact absurd rfl hp
  · rfl

theorem watchersAt_of_getDb {i : Int} {db : RedisDb} (h : s.getDb i = .ok db) (key : Bytes) :
    watchersAt s i.toNat key = (db.watchedKeys.lookup key).getD [] := by
  rw [watchersAt, (getDb_ok.mp h).2]
  rfl

/-- Databases that changed in other fields have the same watch lists. -/
theorem watchersAt_modify {i : Nat} {f : RedisDb → RedisDb} (h : s'.db = s.db.modify i f)
    (hf : ∀ db, (f db).watchedKeys = db.watchedKeys) (j : Nat) (key : Bytes) :
    watchersAt s' j key = watchersAt s j key := by
  rw [watchersAt, watchersAt, h, List.getElem?_modify]
  cases s.db[j]? with
  | none => rfl
  | some db =>
    simp only [Option.map_eq_map, Option.map_some, Option.bind_some]
    split
    · rw [hf]
    · rfl

/-- A write command marks the clients that watch its key, and changes no other
client in its core. -/
theorem executed_core_write (hc : cmd ∈ commandsTable) (hw : cmd.write = true)
    (h : executed query env s c cmd argv = .ok t) (x : ClientId) :
    core (t.client x) = core (if x ∈ watchersAt s (s.client c).db.toNat (keyOf argv)
      then markDirty (s.client x) else s.client x) := by
  obtain ⟨s₁, h₁, h⟩ := bind_ok.mp h
  obtain ⟨s₂, h₂, h⟩ := bind_ok.mp h
  obtain ⟨hp, hslave, hwatch⟩ := write_plain cmd hc hw
  have hslave : ∀ x, Apart env cmd.proc x := fun x e => absurd e hslave
  have hf := callProc_frame hp h₂
  have k₂ : ∀ x, core (s₂.client x) = core (s.client x) := by
    intro x
    have k₁ : core (s₁.client x) = core (s.client x) := by
      rw [expireArg_client h₁]
      exact feedAof_core
    by_cases hx : x = c
    · rw [hx, hf.core (hslave c), write_client hc hw, ← hx, k₁]
    · rw [hf.other x hx (hslave x), k₁]
  have i₁ : (s₁.client c).db = (s.client c).db := by
    rw [expireArg_client h₁]
    exact core_db feedAof_core
  have w : watchersAt s₂ (s.client c).db.toNat (keyOf argv) =
      watchersAt s (s.client c).db.toNat (keyOf argv) := by
    rw [watchersAt_modify (callProc_db hp h₂) (dbEffect_watchedKeys hwatch _),
      watchersAt_modify (expireArg_db h₁)]
    · simp [watchersAt]
    · intro db
      split
      · exact expireIfNeed_watchedKeys ..
      · rfl
  rw [hw] at h
  obtain ⟨key, db, hk, hdb, rfl⟩ := touchWatchKey_ok.mp h
  rw [keyOf_eq hk] at w ⊢
  rw [← w, ← core_db (k₂ c), watchersAt_of_getDb hdb]
  rw [setDb_client]
  dsimp only
  split
  · exact congrArg markDirty (k₂ x)
  · exact k₂ x

theorem executed_core_read (hw : cmd.write = false) (hp : cmd.proc ≠ .exec)
    (h : executed query env s c cmd argv = .ok t) (hx : Apart env cmd.proc x) :
    core (t.client x) =
      core (if x = c then clientEffect cmd.proc argv (s.client c) else s.client x) := by
  obtain ⟨s₁, h₁, h⟩ := bind_ok.mp h
  obtain ⟨s₂, h₂, h⟩ := bind_ok.mp h
  have hf := callProc_frame hp h₂
  rw [hw] at h
  obtain rfl : s₂ = t := pure_ok.mp h
  have e₁ : s₁.client = s.client := by
    rw [expireArg_client h₁]
    simp [feedAof, hw]
  split
  · subst x
    rw [hf.core hx, e₁]
  · rw [hf.other x ‹_› hx, e₁]

/-- The parts of the server that a command leaves alone; SLAVEOF makes it a
slave. -/
structure ServerFrame (env : Env) (proc : Proc) (s t : RedisServer) : Prop where
  calls : t.calls = s.calls
  clients : t.clients = s.clients
  backlog : t.backlog = s.backlog
  aofOn : t.aofOn = s.aofOn
  flags : t.flags =
    if proc = .slaveof then { s.flags with master := false, slave := true } else s.flags
  master : t.master = if proc = .slaveof then env.connect else s.master
  replState : proc ≠ .slaveof → t.replState = s.replState

theorem executed_server (hp : cmd.proc ≠ .exec) (h : executed query env s c cmd argv = .ok t) :
    ServerFrame env cmd.proc s t := by
  obtain ⟨s₁, s₂, h₂, ⟨db, client, activeBuf, rfl⟩, db', client', rfl⟩ := executed_frame h
  have hf := callProc_frame hp h₂
  exact ⟨hf.calls, hf.clients, hf.backlog, hf.aofOn, hf.flags, hf.master, hf.replState⟩

/-! ## The replication -/

/-- Writes to several clients change output buffers only. -/
theorem addWrites_frame (l : List ClientId) (b : Bytes) (s : RedisServer) :
    ∃ w : ClientId → Sds, l.foldl (fun s x => addWrite s x b) s =
      { s with client := fun x => { s.client x with writeBuf := w x } } := by
  induction l generalizing s with
  | nil => exact ⟨fun x => (s.client x).writeBuf, rfl⟩
  | cons y l ih =>
    obtain ⟨w, e⟩ := ih (addWrite s y b)
    refine ⟨w, e.trans ?_⟩
    simp only [addWrite, RedisServer.modifyClient, RedisServer.mk.injEq, true_and, and_true]
    funext x
    split <;> rfl

theorem replicate_frame (s : RedisServer) (c : ClientId) (cmd : RedisCommand) :
    ∃ (w : ClientId → Sds) (b : Backlog) (o : Int) (p : Option Int), replicate s c cmd = { s with
      client := fun x => { s.client x with writeBuf := w x }, backlog := b, offset := o
      cfgOffset := p } := by
  unfold replicate commandPropagate
  dsimp only
  obtain ⟨w, e⟩ := addWrites_frame (slaves s) (s.client c).readBuf.buf
    { s with backlog := addRepliBuf s.backlog (s.client c).readBuf.content }
  by_cases hm : (cmd.write && s.flags.master) = true
  · rw [if_pos hm]
    have hs : slaves { s with backlog := addRepliBuf s.backlog (s.client c).readBuf.content } =
      slaves s := rfl
    rw [hs, e]
    split
    · exact ⟨w, _, _, _, rfl⟩
    · exact ⟨w, _, _, _, rfl⟩
  · rw [if_neg hm]
    split
    · exact ⟨fun x => (s.client x).writeBuf, _, _, _, rfl⟩
    · exact ⟨fun x => (s.client x).writeBuf, _, _, _, rfl⟩

/-! ## A call that is not EXEC -/

/-- The request does not find EXEC. -/
def NotExec (s : RedisServer) (c : ClientId) (argv : List Bytes) : Prop :=
  ∀ cmd, foundCommand s c argv = some cmd → cmd.proc ≠ .exec

theorem notExec_found (hf : foundCommand s c argv = some cmd) :
    NotExec s c argv ↔ cmd.proc ≠ .exec := by
  simp [NotExec, hf]

theorem exec_found (h : ¬ NotExec s c argv) :
    ∃ cmd, foundCommand s c argv = some cmd ∧ cmd.proc = .exec := by
  simpa [NotExec] using h

/-- What a call does to the selected database. -/
def callEffect (env : Env) (s : RedisServer) (c : ClientId) (argv : List Bytes) (db : RedisDb) :
    RedisDb :=
  match foundCommand s c argv with
  | none => db
  | some cmd => cmdEffect env.now cmd c argv db

/-- What a call makes of a client, buffers and connection states apart. -/
def clientAfter (s : RedisServer) (c : ClientId) (argv : List Bytes) (x : ClientId) : RedisClient :=
  match foundCommand s c argv with
  | none => s.client x
  | some cmd =>
    if cmd.write then
      if x ∈ watchersAt s (s.client c).db.toNat (keyOf argv) then markDirty (s.client x)
      else s.client x
    else if x = c then clientEffect cmd.proc argv (s.client c)
    else s.client x

@[simp] theorem clearReadBuf_core : core ((clearReadBuf s c).client x) = core (s.client x) := by
  refine modifyClient_field s c (fun client => { client with readBuf := _ }) core (fun _ => ?_) x
  rfl

@[simp] theorem clearReadBuf_db : (clearReadBuf s c).db = s.db := rfl
@[simp] theorem clearReadBuf_calls : (clearReadBuf s c).calls = s.calls := rfl
@[simp] theorem clearReadBuf_flags : (clearReadBuf s c).flags = s.flags := rfl
@[simp] theorem clearReadBuf_clients : (clearReadBuf s c).clients = s.clients := rfl
@[simp] theorem clearReadBuf_backlog : (clearReadBuf s c).backlog = s.backlog := rfl
@[simp] theorem clearReadBuf_master : (clearReadBuf s c).master = s.master := rfl

@[simp] theorem clearReadBuf_len : ((clearReadBuf s c).client c).readBuf.len = 0 := by
  simp [clearReadBuf]

/-- A field of the server that neither the replication nor the end of a call touches. -/
theorem replied_field {α : Type} (g : RedisServer → α)
    (hg : ∀ s client b o p,
      g { s with client := client, backlog := b, offset := o, cfgOffset := p } = g s) :
    g (clearReadBuf (replicate s c cmd) c) = g s := by
  obtain ⟨w, b, o, p, e⟩ := replicate_frame s c cmd
  rw [e]
  exact hg s _ b o p

theorem replied_core : core ((clearReadBuf (replicate s c cmd) c).client x) = core (s.client x) := by
  obtain ⟨w, b, o, p, e⟩ := replicate_frame s c cmd
  rw [clearReadBuf_core, e]
  rfl

theorem replicate_readBuf (s : RedisServer) (c : ClientId) (cmd : RedisCommand) (x : ClientId) :
    ((replicate s c cmd).client x).readBuf = (s.client x).readBuf := by
  obtain ⟨w, b, o, p, e⟩ := replicate_frame s c cmd
  rw [e]

section Call

variable (hne : NotExec s c argv) (h : processCommand query env s c argv = .ok s')
include hne h

theorem processCommand_db :
    s'.db = s.db.modify (s.client c).db.toNat (callEffect env s c argv) := by
  obtain ⟨-, ⟨hf, rfl⟩ | ⟨cmd, t, hf, ht, rfl⟩⟩ := processCommand_ok.mp h
  · exact (modify_id _ _ fun db => by simp [callEffect, hf]).symm
  · refine (replied_field (·.db) fun _ _ _ _ _ => rfl).trans ?_
    refine (executed_db (mem_table hf) (hne cmd hf) ht).trans ?_
    congr 1
    funext db
    simp [callEffect, hf]

theorem processCommand_calls : s'.calls = s.calls ++ [callOf s c argv] := by
  obtain ⟨-, ⟨hf, rfl⟩ | ⟨cmd, t, hf, ht, rfl⟩⟩ := processCommand_ok.mp h
  · rfl
  · exact (replied_field (·.calls) fun _ _ _ _ _ => rfl).trans (executed_server (hne cmd hf) ht).calls

theorem processCommand_flags (hs : ∀ cmd, foundCommand s c argv = some cmd → cmd.proc ≠ .slaveof) :
    s'.flags = s.flags := by
  obtain ⟨-, ⟨hf, rfl⟩ | ⟨cmd, t, hf, ht, rfl⟩⟩ := processCommand_ok.mp h
  · rfl
  · refine (replied_field (·.flags) fun _ _ _ _ _ => rfl).trans ?_
    exact (executed_server (hne cmd hf) ht).flags.trans (if_neg (hs cmd hf))

theorem processCommand_core
    (hx : ∀ cmd, foundCommand s c argv = some cmd → Apart env cmd.proc x) :
    core (s'.client x) = core (clientAfter s c argv x) := by
  obtain ⟨-, ⟨hf, rfl⟩ | ⟨cmd, t, hf, ht, rfl⟩⟩ := processCommand_ok.mp h
  · rw [clearReadBuf_core, addWrite_core]
    simp [clientAfter, hf, logCall]
  · rw [replied_core]
    cases hw : cmd.write with
    | true =>
      refine (executed_core_write (mem_table hf) hw ht x).trans ?_
      simp only [clientAfter, hf, hw, if_true]
      rfl
    | false =>
      refine (executed_core_read hw (hne cmd hf) ht (hx cmd hf)).trans ?_
      simp only [clientAfter, hf, hw, Bool.false_eq_true, if_false]
      rfl

end Call

/-- A command leaves a read buffer as the AOF left it. -/
theorem executed_readBuf (hp : cmd.proc ≠ .exec) (hx : Apart env cmd.proc x)
    (h : executed query env s c cmd argv = .ok t) :
    (t.client x).readBuf = ((feedAof s c cmd).client x).readBuf := by
  obtain ⟨s₁, h₁, h⟩ := bind_ok.mp h
  obtain ⟨s₂, h₂, h⟩ := bind_ok.mp h
  have hf := callProc_frame hp h₂
  have e₂ : (s₂.client x).readBuf = ((feedAof s c cmd).client x).readBuf := by
    rw [← expireArg_client h₁]
    by_cases hxc : x = c
    · subst hxc
      exact hf.readBuf hx
    · rw [hf.other x hxc hx]
  split at h
  · exact (touchWatchKey_field (·.readBuf) (fun _ => rfl) h x).trans e₂
  · rwa [← pure_ok.mp h]

theorem executed_readBufs (hp : cmd.proc ≠ .exec)
    (h : executed query env s c cmd argv = .ok t) (hx : x ≠ c)
    (hl : (s.client x).readBuf.len = 0) : (t.client x).readBuf.len = 0 := by
  obtain ⟨s₁, h₁, h⟩ := bind_ok.mp h
  obtain ⟨s₂, h₂, h⟩ := bind_ok.mp h
  have l₁ : (s₁.client x).readBuf.len = 0 := by
    rwa [expireArg_client h₁, feedAof_other hx]
  have l₂ := (callProc_frame hp h₂).readBufs x hx l₁
  split at h
  · exact (touchWatchKey_field (·.readBuf.len) (fun _ => rfl) h x).trans l₂
  · rwa [← pure_ok.mp h]

/-- A call puts nothing into the read buffers of other clients. -/
theorem processCommand_readBufs (hne : NotExec s c argv)
    (h : processCommand query env s c argv = .ok s') (hx : x ≠ c)
    (hl : (s.client x).readBuf.len = 0) : (s'.client x).readBuf.len = 0 := by
  obtain ⟨-, ⟨hf, rfl⟩ | ⟨cmd, t, hf, ht, rfl⟩⟩ := processCommand_ok.mp h
  · rw [clearReadBuf, modifyClient_of_ne _ _ _ hx, addWrite_of_ne _ hx]
    exact hl
  · rw [clearReadBuf, modifyClient_of_ne _ _ _ hx, replicate_readBuf]
    exact executed_readBufs (hne cmd hf) ht hx hl

/-- Every call leaves the issuer's read buffer empty. -/
theorem processCommand_readBuf (h : processCommand query env s c argv = .ok s') :
    (s'.client c).readBuf.len = 0 := by
  obtain ⟨-, ⟨hf, rfl⟩ | ⟨cmd, t, hf, ht, rfl⟩⟩ := processCommand_ok.mp h
  · exact clearReadBuf_len
  · exact clearReadBuf_len

end Fedis.Proof.Server
