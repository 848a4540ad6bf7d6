import Fedis.Proof.Server.Handlers

/-!
# What a command other than EXEC changes

* `callProc_db`: the selected database becomes its `dbEffect`, and no other
  database changes.
* `callProc_frame`: no other client changes, the issuer's core (what is not a
  buffer or a state of a connection) becomes its `clientEffect`, and the rest of
  the server stays. SLAVEOF alone touches the connection to the master
  (`connectMaster_fresh`, `connectMaster_field`).
-/

namespace Fedis.Proof.Server

open Framework Resp

variable {query : RedisServer → ClientId → Except Fault RedisServer} {env : Env} {proc : Proc}
  {s s' : RedisServer} {c x : ClientId} {argv : List Bytes}

/-! ## Databases -/

theorem setDb_modify {i : Int} {db : RedisDb} (h : s.getDb i = .ok db) (f : RedisDb → RedisDb) :
    (s.setDb i (f db)).db = s.db.modify i.toNat f := by
  obtain ⟨-, hdb⟩ := getDb_ok.mp h
  rw [RedisServer.setDb, List.modify_eq_set_getElem?, hdb]
  rfl

theorem modify_id (l : List RedisDb) (i : Nat) {f : RedisDb → RedisDb} (h : ∀ db, f db = db) :
    l.modify i f = l := by
  rw [show f = id from funext h, List.modify_id]

theorem erase_of_notMem {V : Type} {m : DbMap V} {k : Bytes} (h : k ∉ m) : m.erase k = m := by
  refine Finmap.ext_lookup fun k' => ?_
  by_cases hk : k' = k
  · rw [hk, Finmap.lookup_erase, Finmap.lookup_eq_none.mpr h]
  · rw [Finmap.lookup_erase_ne hk]

/-- What a handler does to the database that its client has selected. -/
def dbEffect (now : Int) (proc : Proc) (c : ClientId) (argv : List Bytes) (db : RedisDb) : RedisDb :=
  match proc, argv[1]?, argv[2]? with
  | .set, some key, some value =>
    { db with kv := db.kv.insert (cstr key) (robjCreateStringObject value) }
  | .del, some key, _ => { db with kv := db.kv.erase (cstr key) }
  | .expire, some key, some arg =>
    match string2long arg with
    | none => db
    | some n =>
      if cstr key ∈ db.expires then db
      else { db with expires := db.expires.insert (cstr key) (n + now) }
  | .watch, _, _ => (argv.drop 1).foldl (fun db arg => dbAddWatch db (cstr arg) c) db
  | _, _, _ => db

theorem addWriteBulk_db {str : Bytes} (h : addWriteBulk s c str = .ok s') : s'.db = s.db := by
  obtain ⟨-, rfl⟩ := addWriteBulk_ok.mp h
  rfl

theorem connectMaster_db (env : Env) (s : RedisServer) : (connectMaster env s).db = s.db := by
  unfold connectMaster
  cases env.connect with
  | none => rfl
  | some fresh => cases hm : s.master <;> simp

/-- Without a master, the connection's object is a new one. -/
theorem connectMaster_fresh {x : ClientId} (hm : s.master = none) (hx : env.connect = some x) :
    (connectMaster env s).client x =
      { redisClientCreate s.masterhost s.masterport with
        flags := { ClientFlags.REDIS_CLIENT_NORMAL with normal := false, master := true } } := by
  unfold connectMaster
  rw [hx, hm]
  simp [redisClientCreate]

/-- A field that is not of the flags is as it was, or as in a new object. -/
theorem connectMaster_field {α : Type} (g : RedisClient → α)
    (hg : ∀ (client : RedisClient) flags, g { client with flags := flags } = g client)
    (env : Env) (s : RedisServer) (x : ClientId) :
    g ((connectMaster env s).client x) = g (s.client x) ∨
      g ((connectMaster env s).client x) = g (redisClientCreate s.masterhost s.masterport) := by
  unfold connectMaster
  split
  · exact .inl rfl
  · rename_i fresh _
    cases hm : s.master with
    | none =>
      by_cases hx : x = fresh
      · right
        simp [hx, hg]
      · left
        simp [hx]
    | some m =>
      left
      by_cases hx : x = m
      · simp [hx, hg]
      · simp [hx]

theorem commandWatchProc_db (h : commandWatchProc s c argv = .ok s') :
    s'.db = s.db.modify (s.client c).db.toNat fun db =>
      (argv.drop 1).foldl (fun db arg => dbAddWatch db (cstr arg) c) db := by
  obtain ⟨s₁, hw, rfl⟩ := commandWatchProc_ok.mp h
  rw [addWrite_db]
  clear h
  revert hw
  generalize argv.drop 1 = args
  intro h
  induction args generalizing s with
  | nil =>
    cases h
    exact (modify_id _ _ fun _ => rfl).symm
  | cons arg args ih =>
    obtain ⟨s₂, h₂, h⟩ := bind_ok.mp h
    obtain ⟨db, hdb, rfl⟩ := watchKey_ok.mp h₂
    rw [ih h, setDb_modify hdb fun db => dbAddWatch db (cstr arg) c, setDb_client,
      List.modify_modify_eq]
    rfl

theorem callProc_db (hp : proc ≠ .exec) (h : callProc query env proc s c argv = .ok s') :
    s'.db = s.db.modify (s.client c).db.toNat (dbEffect env.now proc c argv) := by
  have same : ∀ {s' : RedisServer}, s'.db = s.db → (∀ db, dbEffect env.now proc c argv db = db) →
      s'.db = s.db.modify (s.client c).db.toNat (dbEffect env.now proc c argv) :=
    fun e hid => e.trans (modify_id _ _ hid).symm
  cases proc with
  | exec => exact absurd rfl hp
  | set =>
    obtain ⟨key, hk, ⟨hl, rfl⟩ | ⟨value, db, hv, hdb, rfl⟩⟩ := commandSetProc_ok.mp h
    · have : argv[2]? = none := List.getElem?_eq_none (by omega)
      exact same rfl fun db => by simp [dbEffect, this]
    · rw [afterSet, addWrite_db, setDb_modify hdb fun db =>
        { db with kv := db.kv.insert (cstr key) (robjCreateStringObject value) }]
      congr 1
      funext db
      simp [dbEffect, hk, hv]
  | del =>
    obtain ⟨key, db, hk, hdb, rfl⟩ := commandDelProc_ok.mp h
    have e : dbEffect env.now .del c argv = fun db => { db with kv := db.kv.erase (cstr key) } := by
      funext db
      simp [dbEffect, hk]
    rw [e, ← setDb_modify hdb, afterDel]
    split
    · rfl
    · rename_i hm
      rw [addWrite_db, erase_of_notMem hm]
  | expire =>
    obtain ⟨key, arg, hk, ha, ⟨hn, rfl⟩ | ⟨n, db, hn, -, hdb, rfl⟩⟩ := commandExpireProc_ok.mp h
    · exact same rfl fun db => by simp [dbEffect, hk, ha, hn]
    · have e : dbEffect env.now .expire c argv = fun db => if cstr key ∈ db.expires then db
          else { db with expires := db.expires.insert (cstr key) (n + env.now) } := by
        funext db
        simp [dbEffect, hk, ha, hn]
      rw [e, ← setDb_modify hdb, afterExpire]
      split <;> rfl
  | watch =>
    rw [commandWatchProc_db h]
    congr 1
  | get =>
    obtain ⟨key, db, -, -, ⟨-, rfl⟩ | ⟨res, -, h⟩⟩ := commandGetProc_ok.mp h
    · exact same rfl fun db => rfl
    · exact same (addWriteBulk_db h) fun db => rfl
  | object =>
    obtain ⟨key, op, -, -, h⟩ := commandObjectProc_ok.mp h
    split at h
    · obtain ⟨db, -, ⟨-, rfl⟩ | ⟨res, -, h⟩⟩ := h
      · exact same rfl fun db => rfl
      · exact same (addWriteBulk_db h) fun db => rfl
    · exact same (congrArg _ h) fun db => rfl
  | slaveof =>
    obtain ⟨arg, ip, port, rest, -, -, -, rfl⟩ := commandSlaveofProc_ok.mp h
    exact same (connectMaster_db _ _) fun db => rfl
  | sync =>
    obtain ⟨arg, -, -, rfl⟩ := commandSyncProc_ok.mp h
    refine same ?_ fun db => rfl
    unfold afterSync
    split <;> rfl
  | select =>
    obtain ⟨arg, -, ⟨-, rfl⟩ | ⟨dbid, -, h⟩⟩ := commandSelectProc_ok.mp h
    · exact same rfl fun db => rfl
    · exact same ((addWriteBulk_db h).trans (modifyClient_db _ _ _)) fun db => rfl
  | ttl =>
    obtain ⟨key, db0, -, -, ⟨-, rfl⟩ | ⟨db, -, -, -, h⟩⟩ := commandTtlProc_ok.mp h
    · exact same rfl fun db => rfl
    · exact same (addWriteBulk_db h) fun db => rfl
  | info =>
    obtain ⟨-, str, -, rfl⟩ := commandInfoProc_ok.mp h
    exact same rfl fun db => rfl
  | bye | ping | replconf | replack | heartbeat | multi =>
    cases h
    exact same rfl fun db => rfl

/-! ## Clients -/

/-- A client without its buffers and the states of its connection. -/
def core (client : RedisClient) : RedisClient :=
  { client with
    readBuf := sdsempty, writeBuf := sdsempty, toclose := false, replState := .slaveNone }

section Core

variable {a b : RedisClient} (h : core a = core b)
include h

theorem core_flags : a.flags = b.flags := (RedisClient.mk.inj h).1
theorem core_db : a.db = b.db := (RedisClient.mk.inj h).2.2.2.2.2.2.1
theorem core_multcmds : a.multcmds = b.multcmds := (RedisClient.mk.inj h).2.2.2.2.2.2.2.2.1
theorem core_multiCmdCount : a.multiCmdCount = b.multiCmdCount :=
  (RedisClient.mk.inj h).2.2.2.2.2.2.2.2.2

end Core

@[simp] theorem addWrite_core (s : RedisServer) (c x : ClientId) (b : Bytes) :
    core ((addWrite s c b).client x) = core (s.client x) :=
  addWrite_field s c b core (fun _ _ => rfl) x

theorem addWrite_of_ne (b : Bytes) (h : x ≠ c) : (addWrite s c b).client x = s.client x :=
  modifyClient_of_ne _ _ _ h

/-- What a handler does to the client that issued the command. -/
def clientEffect (proc : Proc) (argv : List Bytes) (client : RedisClient) : RedisClient :=
  match proc with
  | .replconf => { client with flags := .REDIS_CLIENT_SLAVE }
  | .multi => { client with flags := { client.flags with multi := true } }
  | .select =>
    match argv[1]?.bind string2long with
    | none => client
    | some dbid => { client with db := dbid }
  | _ => client

/-- SLAVEOF takes a client object for the connection to the master; this is not
the one. -/
def Apart (env : Env) (proc : Proc) (x : ClientId) : Prop := proc = .slaveof → env.connect ≠ some x

/-- What a command other than EXEC leaves as it was. -/
structure CallFrame (env : Env) (proc : Proc) (s : RedisServer) (c : ClientId) (argv : List Bytes)
    (s' : RedisServer) : Prop where
  other : ∀ x, x ≠ c → Apart env proc x → s'.client x = s.client x
  core : Apart env proc c → core (s'.client c) = core (clientEffect proc argv (s.client c))
  readBuf : Apart env proc c → (s'.client c).readBuf = (s.client c).readBuf
  readBufs : ∀ x, x ≠ c → (s.client x).readBuf.len = 0 → (s'.client x).readBuf.len = 0
  clients : s'.clients = s.clients
  backlog : s'.backlog = s.backlog
  aofOn : s'.aofOn = s.aofOn
  activeBuf : s'.activeBuf = s.activeBuf
  calls : s'.calls = s.calls
  flags : s'.flags =
    if proc = .slaveof then { s.flags with master := false, slave := true } else s.flags
  master : s'.master = if proc = .slaveof then env.connect else s.master
  replState : proc ≠ .slaveof → s'.replState = s.replState

namespace CallFrame

theorem modify (hp : proc ≠ .slaveof) {f : RedisClient → RedisClient}
    (hc : Server.core (f (s.client c)) = Server.core (clientEffect proc argv (s.client c)))
    (hr : (f (s.client c)).readBuf = (s.client c).readBuf) :
    CallFrame env proc s c argv (s.modifyClient c f) where
  other _ hx _ := modifyClient_of_ne _ _ _ hx
  core _ := by rw [modifyClient_self, hc]
  readBuf _ := by rw [modifyClient_self, hr]
  readBufs x hx h := by rwa [modifyClient_of_ne _ _ _ hx]
  clients := rfl
  backlog := rfl
  aofOn := rfl
  activeBuf := rfl
  calls := rfl
  flags := (if_neg hp).symm
  master := (if_neg hp).symm
  replState _ := rfl

theorem same (hp : proc ≠ .slaveof) (hc : clientEffect proc argv (s.client c) = s.client c) :
    CallFrame env proc s c argv s where
  other _ _ _ := rfl
  core _ := by rw [hc]
  readBuf _ := rfl
  readBufs _ _ h := h
  clients := rfl
  backlog := rfl
  aofOn := rfl
  activeBuf := rfl
  calls := rfl
  flags := (if_neg hp).symm
  master := (if_neg hp).symm
  replState _ := rfl

theorem reply (h : CallFrame env proc s c argv s') (b : Bytes) :
    CallFrame env proc s c argv (addWrite s' c b) where
  other x hx hn := (addWrite_of_ne b hx).trans (h.other x hx hn)
  core hn := (addWrite_core ..).trans (h.core hn)
  readBuf hn := (addWrite_field s' c b (·.readBuf) (fun _ _ => rfl) c).trans (h.readBuf hn)
  readBufs x hx hl := by
    rw [addWrite_of_ne _ hx]
    exact h.readBufs x hx hl
  clients := h.clients
  backlog := h.backlog
  aofOn := h.aofOn
  activeBuf := h.activeBuf
  calls := h.calls
  flags := h.flags
  master := h.master
  replState := h.replState

theorem replyBulk {s₁ : RedisServer} {str : Bytes} (h : CallFrame env proc s c argv s₁)
    (hw : addWriteBulk s₁ c str = .ok s') : CallFrame env proc s c argv s' := by
  obtain ⟨-, rfl⟩ := addWriteBulk_ok.mp hw
  exact h.reply _

theorem replyBuf (h : CallFrame env proc s c argv s') (b : Bytes) :
    CallFrame env proc s c argv (addWriteBuf s' c b) where
  other x hx hn := (modifyClient_of_ne _ _ _ hx).trans (h.other x hx hn)
  core hn := (modifyClient_field s' c (fun client => { client with
    writeBuf := sdscatlen client.writeBuf b }) Server.core (fun _ => rfl) c).trans (h.core hn)
  readBuf hn := (modifyClient_field s' c (fun client => { client with
    writeBuf := sdscatlen client.writeBuf b }) (·.readBuf) (fun _ => rfl) c).trans (h.readBuf hn)
  readBufs x hx hl := by
    rw [addWriteBuf, modifyClient_of_ne _ _ _ hx]
    exact h.readBufs x hx hl
  clients := h.clients
  backlog := h.backlog
  aofOn := h.aofOn
  activeBuf := h.activeBuf
  calls := h.calls
  flags := h.flags
  master := h.master
  replState := h.replState

/-- Only parts that the frame does not speak of differ. -/
theorem congr {s₁ : RedisServer} (h : CallFrame env proc s c argv s₁) (db : List RedisDb)
    (dirty : Int) : CallFrame env proc s c argv { s₁ with db := db, dirty := dirty } :=
  ⟨h.other, h.core, h.readBuf, h.readBufs, h.clients, h.backlog, h.aofOn, h.activeBuf, h.calls, h.flags,
    h.master, h.replState⟩

end CallFrame

theorem commandWatchProc_frame (h : commandWatchProc s c argv = .ok s') :
    CallFrame env .watch s c argv s' := by
  obtain ⟨s₁, hw, rfl⟩ := commandWatchProc_ok.mp h
  have only : ∀ (args : List Bytes) (s : RedisServer),
      args.foldlM (fun s arg => watchKey s c arg) s = .ok s₁ → ∃ db, s₁ = { s with db := db } := by
    intro args
    induction args with
    | nil =>
      rintro s ⟨⟩
      exact ⟨_, rfl⟩
    | cons arg args ih =>
      intro s h
      obtain ⟨s₂, h₂, h⟩ := bind_ok.mp h
      obtain ⟨db, -, rfl⟩ := watchKey_ok.mp h₂
      have := ih _ h
      exact this
  obtain ⟨db, rfl⟩ := only _ _ hw
  exact ((CallFrame.same (by decide) rfl).congr db s.dirty).reply _

theorem commandSlaveofProc_frame (h : commandSlaveofProc env s c argv = .ok s') :
    CallFrame env .slaveof s c argv s' := by
  obtain ⟨arg, ip, port, rest, -, -, hm, rfl⟩ := commandSlaveofProc_ok.mp h
  unfold connectMaster
  cases hc : env.connect with
  | none =>
    exact ⟨fun x hx _ => addWrite_of_ne _ hx, fun _ => addWrite_core .., fun _ =>
      addWrite_field _ _ _ (·.readBuf) (fun _ _ => rfl) c, fun x hx hl => by
      rwa [addWrite_of_ne _ hx], rfl, rfl, rfl, rfl, rfl, rfl, by simp [hm, hc],
      fun hp => absurd rfl hp⟩
  | some fresh =>
    have hne : ∀ x, Apart env .slaveof x → x ≠ fresh := fun x hx e => hx rfl (by rw [hc, e])
    refine ⟨fun x hx hn => ?_, fun hn => ?_, fun hn => ?_, fun x hx hl => ?_, ?_, ?_, ?_, ?_, ?_, ?_,
      ?_, fun hp => absurd rfl hp⟩
    · simp [hm, hne x hn, addWrite_of_ne _ hx]
    · simp [hm, hne c hn, clientEffect]
    · simp [hm, hne c hn, addWrite_field _ _ _ (·.readBuf)]
    · by_cases hf : x = fresh
      · subst hf
        simp [hm, redisClientCreate, sdsempty, sdsnewWithLen]
      · simp [hm, hf, addWrite_of_ne _ hx, hl]
    all_goals simp [hm, hc]

theorem commandReplconfProc_frame (env : Env) (s : RedisServer) (c : ClientId) (argv : List Bytes) :
    CallFrame env .replconf s c argv ((addWrite s c resp.ok).modifyClient c fun client =>
      { client with flags := .REDIS_CLIENT_SLAVE }) where
  other _ hx _ := (modifyClient_of_ne _ _ _ hx).trans (addWrite_of_ne _ hx)
  core _ := by
    rw [modifyClient_self]
    simp [addWrite, clientEffect, core]
  readBuf _ := by
    rw [modifyClient_self]
    simp [addWrite]
  readBufs x hx h := by rwa [modifyClient_of_ne _ _ _ hx, addWrite_of_ne _ hx]
  clients := rfl
  backlog := rfl
  aofOn := rfl
  activeBuf := rfl
  calls := rfl
  flags := rfl
  master := rfl
  replState _ := rfl

theorem callProc_frame (hp : proc ≠ .exec) (h : callProc query env proc s c argv = .ok s') :
    CallFrame env proc s c argv s' := by
  cases proc with
  | exec => exact absurd rfl hp
  | set =>
    obtain ⟨key, -, ⟨-, rfl⟩ | ⟨value, db, -, -, rfl⟩⟩ := commandSetProc_ok.mp h
    · exact (CallFrame.same (by decide) rfl).reply _
    · exact ((CallFrame.same (by decide) rfl).congr _ _).reply _ |>.congr _ _
  | del =>
    obtain ⟨key, db, -, -, rfl⟩ := commandDelProc_ok.mp h
    unfold afterDel
    split
    · exact ((CallFrame.same (by decide) rfl).congr _ _).reply _ |>.congr _ _
    · exact ((CallFrame.same (by decide) rfl).congr _ s.dirty).reply _
  | expire =>
    obtain ⟨key, arg, -, -, ⟨-, rfl⟩ | ⟨n, db, -, -, -, rfl⟩⟩ := commandExpireProc_ok.mp h
    · exact (CallFrame.same (by decide) rfl).reply _
    · unfold afterExpire
      split
      · exact ((CallFrame.same (by decide) rfl).congr _ s.dirty).reply _
      · exact ((CallFrame.same (by decide) rfl).congr _ _).reply _ |>.congr _ _
  | watch => exact commandWatchProc_frame h
  | slaveof => exact commandSlaveofProc_frame h
  | get =>
    obtain ⟨key, db, -, -, ⟨-, rfl⟩ | ⟨res, -, h⟩⟩ := commandGetProc_ok.mp h
    · exact (CallFrame.same (by decide) rfl).reply _
    · exact (CallFrame.same (by decide) rfl).replyBulk h
  | object =>
    obtain ⟨key, op, -, -, h⟩ := commandObjectProc_ok.mp h
    split at h
    · obtain ⟨db, -, ⟨-, rfl⟩ | ⟨res, -, h⟩⟩ := h
      · exact (CallFrame.same (by decide) rfl).reply _
      · exact (CallFrame.same (by decide) rfl).replyBulk h
    · subst h
      exact CallFrame.same (by decide) rfl
  | sync =>
    obtain ⟨arg, -, -, rfl⟩ := commandSyncProc_ok.mp h
    unfold afterSync
    split
    · refine ((CallFrame.modify ?_ ?_ ?_).reply _).replyBuf _
      exacts [by decide, rfl, rfl]
    · refine (CallFrame.modify ?_ ?_ ?_).reply _
      exacts [by decide, rfl, rfl]
  | select =>
    obtain ⟨arg, ha, ⟨hn, rfl⟩ | ⟨dbid, hn, h⟩⟩ := commandSelectProc_ok.mp h
    · exact (CallFrame.same (by decide) (by simp [clientEffect, ha, hn])).reply _
    · refine CallFrame.replyBulk (CallFrame.modify (by decide) ?_ rfl) h
      simp [clientEffect, ha, hn]
  | ttl =>
    obtain ⟨key, db0, -, -, ⟨-, rfl⟩ | ⟨db, -, -, -, h⟩⟩ := commandTtlProc_ok.mp h
    · exact (CallFrame.same (by decide) rfl).reply _
    · exact (CallFrame.same (by decide) rfl).replyBulk h
  | info =>
    obtain ⟨-, str, -, rfl⟩ := commandInfoProc_ok.mp h
    exact (CallFrame.same (by decide) rfl).reply _
  | replconf =>
    cases h
    exact commandReplconfProc_frame ..
  | bye | ping | multi =>
    cases h
    refine (CallFrame.modify ?_ ?_ ?_).reply _
    exacts [by decide, rfl, rfl]
  | replack | heartbeat =>
    cases h
    exact CallFrame.reply (CallFrame.same (by decide) rfl) _

end Fedis.Proof.Server
