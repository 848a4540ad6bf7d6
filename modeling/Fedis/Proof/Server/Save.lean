import Fedis.Impl.Save
import Fedis.Proof.Machine.Dicts
import Fedis.Proof.Rdb.Walk
import Fedis.Proof.Server.Deadlines
import Fedis.Proof.Server.Reads

/-!
# Writes and saves

`dirty` counts the write commands that succeed (`succeeds_dirty`). The handler of
`SIGCHLD` sets it back to 0 at every exit of a save: that is right if the child has
written all of the dicts of its fork, and nothing was written since (`Timely`), and wrong
else (`untimely_breaks`). `saved_ok` is the run of any commands, replies, ticks and exits.
-/

namespace Fedis.Proof.Server

open Framework Resp

variable {query : RedisServer → ClientId → Except Fault RedisServer} {env : Env}
  {s s' t : RedisServer} {c : ClientId} {argv : List Bytes} {cmd : RedisCommand} {db : RedisDb}
  {sha256 : Sha256} {slack : Nat}

/-! ## Commands -/

/-- A write command that is answered with `+OK`. -/
def Succeeds (now : Int) (cmd : RedisCommand) (argv : List Bytes) (db : RedisDb) : Prop :=
  cmd.proc = .set ∧ argv[2]? ≠ none ∨
    cmd.proc = .del ∧ keyOf argv ∈ (lookedAt now cmd argv db).kv ∨
    cmd.proc = .expire ∧ argv[2]?.bind string2long ≠ none ∧ keyOf argv ∉ db.expires

instance decidableSucceeds (now : Int) (cmd : RedisCommand) (argv : List Bytes) (db : RedisDb) :
    Decidable (Succeeds now cmd argv db) :=
  inferInstanceAs (Decidable (cmd.proc = .set ∧ argv[2]? ≠ none ∨
    cmd.proc = .del ∧ keyOf argv ∈ (lookedAt now cmd argv db).kv ∨
    cmd.proc = .expire ∧ argv[2]?.bind string2long ≠ none ∧ keyOf argv ∉ db.expires))

/-- Everything but the handler leaves `dirty` alone. -/
theorem executed_dirty (h : executed query env s c cmd argv = .ok t) :
    ∃ s₁ s₂, expireArg env (feedAof s c cmd) c cmd argv = .ok s₁ ∧ s₁.dirty = s.dirty ∧
      callProc query env cmd.proc s₁ c argv = .ok s₂ ∧ t.dirty = s₂.dirty := by
  obtain ⟨s₁, h₁, h⟩ := bind_ok.mp h
  obtain ⟨s₂, h₂, h⟩ := bind_ok.mp h
  refine ⟨s₁, s₂, h₁, ?_, h₂, ?_⟩
  · have hfeed : (feedAof s c cmd).dirty = s.dirty := by
      unfold feedAof
      split <;> rfl
    have h₁ := expireArg_ok.mp h₁
    split at h₁
    · obtain ⟨key, db, -, -, rfl⟩ := h₁
      exact hfeed
    · rw [h₁, hfeed]
  · split at h
    · obtain ⟨key, db, -, -, rfl⟩ := touchWatchKey_ok.mp h
      rfl
    · rw [← pure_ok.mp h]

theorem expireArg_key (hw : cmd.write = true) (h : expireArg env s c cmd argv = .ok s') :
    ∃ key db, argv[1]? = some key ∧ s.getDb (s.client c).db = .ok db ∧
      s' = s.setDb (s.client c).db (expireIfNeed db (cstr key) env.now) := by
  have h := expireArg_ok.mp h
  rwa [if_pos (by simp [hw])] at h

/-- A write command that succeeds is counted. -/
theorem succeeds_dirty (hf : foundCommand s c argv = some cmd) (hw : cmd.write = true)
    (hdb : s.getDb (s.client c).db = .ok db) (hs : Succeeds env.now cmd argv db)
    (h : processCommand query env s c argv = .ok s') : s'.dirty = s.dirty + 1 := by
  obtain ⟨-, t, ht, rfl⟩ := (processCommand_found hf).mp h
  have hrep : (clearReadBuf (replicate t c cmd) c).dirty = t.dirty :=
    replied_field (·.dirty) fun _ _ _ _ _ => rfl
  obtain ⟨s₁, s₂, h₁, hd₁, h₂, hd₂⟩ := executed_dirty ht
  obtain ⟨key, db', hk, hdb', rfl⟩ := expireArg_key hw h₁
  have hsel : ((feedAof (logCall s c argv) c cmd).client c).db = (s.client c).db :=
    core_db feedAof_core
  obtain rfl : db' = db := by
    have : (feedAof (logCall s c argv) c cmd).getDb (s.client c).db = s.getDb (s.client c).db := by
      simp only [RedisServer.getDb, feedAof_db, logCall]
    rw [hsel, this, hdb] at hdb'
    exact (Except.ok.inj hdb').symm
  set u := (feedAof (logCall s c argv) c cmd).setDb
    ((feedAof (logCall s c argv) c cmd).client c).db (expireIfNeed db' (cstr key) env.now) with hu
  have hget : u.getDb (u.client c).db = .ok (expireIfNeed db' (cstr key) env.now) := getDb_setDb hdb' _
  have hlook : lookedAt env.now cmd argv db' = expireIfNeed db' (cstr key) env.now := by
    rw [lookedAt, if_pos (by simp [hw]), keyOf_eq hk]
  rw [hrep, hd₂, ← show u.dirty = s.dirty from hd₁]
  rcases hs with ⟨hproc, harg⟩ | ⟨hproc, hmem⟩ | ⟨hproc, hn, hfree⟩
  · rw [hproc] at h₂
    obtain ⟨key', -, ⟨hl, -⟩ | ⟨value, db₁, -, -, rfl⟩⟩ := commandSetProc_ok.mp h₂
    · exact absurd (List.getElem?_eq_none (by omega)) harg
    · rfl
  · rw [hproc] at h₂
    obtain ⟨key', db₁, hk', hdb₁, rfl⟩ := commandDelProc_ok.mp h₂
    obtain rfl : key' = key := Option.some.inj (hk'.symm.trans hk)
    obtain rfl : db₁ = _ := Except.ok.inj (hdb₁.symm.trans hget)
    rw [hlook, keyOf_eq hk] at hmem
    rw [afterDel, if_pos hmem]
  · rw [hproc] at h₂
    obtain ⟨key', arg, hk', harg, h₂⟩ := commandExpireProc_ok.mp h₂
    obtain rfl : key' = key := Option.some.inj (hk'.symm.trans hk)
    rw [harg, Option.bind_some] at hn
    rw [keyOf_eq hk] at hfree
    obtain ⟨hnone, -⟩ | ⟨n, db₁, -, -, hdb₁, rfl⟩ := h₂
    · exact absurd hnone hn
    · obtain rfl : db₁ = _ := Except.ok.inj (hdb₁.symm.trans hget)
      rw [afterExpire, if_neg (by rwa [expireIfNeed_expires])]

/-- A read of such a command. -/
theorem read_dirty (hr : Request argv) (hl : (s.client c).readBuf.len = 0)
    (hm : (s.client c).flags.multi = false) (hf : foundCommand s c argv = some cmd)
    (hw : cmd.write = true) (hdb : s.getDb (s.client c).db = .ok db)
    (hs : Succeeds env.now cmd argv db)
    (h : readFromClient env s c (respEncodeArrayString argv) = .ok s') : s'.dirty = s.dirty + 1 := by
  obtain ⟨t, ⟨hq, -⟩ | ⟨-, ht⟩, rfl⟩ := (read_request hr (read_length h) hl).mp h
  · exact absurd hq (not_queues hm)
  have hsel : ((received s c (respEncodeArrayString argv)).client c).db = (s.client c).db := by
    rw [received_client]
  have hf' := (foundCommand_received s c (respEncodeArrayString argv) argv).trans hf
  have hget : (received s c (respEncodeArrayString argv)).getDb
      ((received s c (respEncodeArrayString argv)).client c).db = .ok db := by
    rw [hsel, ← hdb]
    rfl
  have hd : t.dirty = (received s c (respEncodeArrayString argv)).dirty + 1 :=
    succeeds_dirty hf' hw hget hs ht
  exact hd

/-! ## Commands, ticks and exits -/

inductive SaveEvent where
  | command (a : Issue)
  | send (c : ClientId) (nwritten : Int) (file : Bytes) (w : RdbWrites)
  | tick (now pid : Int)
  | exit (e : ChildEnd)

section Step

variable (slack : Nat) (sha256 : Sha256)

/-- One event. A command is a request that is read as a whole. -/
def saveStep (s : Saver) : SaveEvent → Option (Unit × Saver)
  | .command a =>
    (machineStep slack s.toMachine (.read ⟨a.env, a.client, respEncodeArrayString a.argv⟩)).map
      fun r => ((), { s with
        toMachine := r.2, writes := s.writes + 1, sinceFork := s.sinceFork + 1 })
  | .send c nwritten file w =>
    (machineStep slack s.toMachine (.send c nwritten file w)).map fun r =>
      ((), { s with toMachine := r.2 })
  | .tick now pid => some ((), masterCron s now pid)
  | .exit e => (childExit sha256 s e).map fun s => ((), s)

end Step

instance decidableRequest (argv : List Bytes) : Decidable (Request argv) :=
  decidable_of_iff (argv ≠ [] ∧ argv.length < 2 ^ 31 ∧ (∀ arg ∈ argv, 0 ∉ arg) ∧
    ∀ arg ∈ argv, arg.length < 2 ^ 31)
    ⟨fun h => ⟨h.1, h.2.1, fun arg ha _ hb e => h.2.2.1 arg ha (e ▸ hb), h.2.2.2⟩,
      fun h => ⟨h.ne_nil, h.argc, fun arg ha h0 => h.cstr arg ha 0 h0 rfl, h.len⟩⟩

/-- The commands are writes that succeed, outside transactions. -/
def Writing (s : Saver) : SaveEvent → Prop
  | .command a => Request a.argv ∧ (s.server.client a.client).flags.multi = false ∧
    ∃ cmd ∈ foundCommand s.server a.client a.argv, cmd.write = true ∧
      ∃ db ∈ (s.server.getDb (s.server.client a.client).db).toOption,
        Succeeds a.env.now cmd a.argv db
  | _ => True

instance decidableWriting (s : Saver) : ∀ e, Decidable (Writing s e)
  | .command a => inferInstanceAs (Decidable (Request a.argv ∧
      (s.server.client a.client).flags.multi = false ∧
      ∃ cmd ∈ foundCommand s.server a.client a.argv, cmd.write = true ∧
        ∃ db ∈ (s.server.getDb (s.server.client a.client).db).toOption,
          Succeeds a.env.now cmd a.argv db))
  | .send .. | .tick .. | .exit _ => isTrue trivial

/-- A child writes its whole file, sees all keys, and exits before a write. -/
def Timely (s : Saver) : SaveEvent → Prop
  | .exit e => ∀ child ∈ s.child, e = .saved ∧ s.sinceFork = 0 ∧
    ∀ db ∈ child.2, Rdb.Walked db.kv
  | _ => True

instance decidableTimely (s : Saver) : ∀ e, Decidable (Timely s e)
  | .exit e => inferInstanceAs (Decidable (∀ child ∈ s.child, e = .saved ∧ s.sinceFork = 0 ∧
      ∀ db ∈ child.2, Rdb.Walked db.kv))
  | .command _ | .send .. | .tick .. => isTrue trivial

/-- The RDB file holds these databases. Empty ones need none. -/
def Reflects (sha256 : Sha256) (disk : Option Bytes) (dbs : List RedisDb) : Prop :=
  (disk = none ∧ ∀ db ∈ dbs, db.kv = ∅) ∨
    ∃ srcs, disk = some (rdbSave sha256 stringCodec srcs) ∧
      srcs.map RdbDb.id = List.range' 0 dbs.length ∧ List.Forall₂ Rdb.Saved dbs srcs

/-- No write is forgotten. -/
def Saved (sha256 : Sha256) (s : Saver) : Prop :=
  (s.writes : Int) ≤ s.server.dirty ∧
    (s.server.dirty = 0 → s.child = none ∧ Reflects sha256 s.disk s.server.db)

/-- The dicts of a fork, and the databases that they hold. -/
structure Forked (dbs : List DbDicts) (ms : List RedisDb) : Prop where
  represents : List.Forall₂ Proof.Dict.Represents dbs ms
  work : ∀ db ∈ dbs, Proof.Dict.HasWork db.expires

/-- Between events: the file is what `writes` says, or a child with what `sinceFork`
says is about to write it. -/
structure Saving (sha256 : Sha256) (s : Saver) : Prop where
  coherent : Machine.Coherent s.toMachine
  idle : Idle s.server
  writes : (s.writes : Int) = s.server.dirty
  free : s.child = none → s.writes = 0 → Reflects sha256 s.disk s.server.db
  busy : ∀ pid dbs, s.child = some (pid, dbs) → s.isBgSaving = true ∧ s.rdbChildPid = pid ∧
    0 < s.writes ∧ ∃ ms, Forked dbs ms ∧ (s.sinceFork = 0 → ms = s.server.db)

theorem Saving.saved {s : Saver} (h : Saving sha256 s) : Saved sha256 s := by
  have hw := h.writes
  refine ⟨hw.le, fun hd => ?_⟩
  have hzero : s.writes = 0 := by omega
  cases hc : s.child with
  | none => exact ⟨rfl, h.free hc hzero⟩
  | some child =>
    have := (h.busy child.1 child.2 hc).2.2.1
    omega

theorem saveParams_changes : ∀ p ∈ saveParams, 1 ≤ p.2 := by decide

theorem snapshot_forked {m : Machine} (h : Machine.Coherent m) : Forked (snapshot m) m.server.db := by
  refine ⟨List.forall₂_map_left_iff.mpr (h.backs.imp fun _ _ hb => hb.dicts), fun db hdb => ?_⟩
  obtain ⟨tables, ht, rfl⟩ := List.mem_map.mp hdb
  exact h.work tables ht

theorem tick_saving {s : Saver} (now pid : Int) (h : Saving sha256 s) :
    Saving sha256 (masterCron s now pid) := by
  have hneeded : Saving sha256 (bgSaveIfNeeded s now pid) := by
    unfold bgSaveIfNeeded
    split
    · exact h
    · rename_i hfree
      have hidle : s.child = none := by
        cases hc : s.child with
        | none => rfl
        | some child => exact absurd (h.busy child.1 child.2 hc).1 hfree
      split
      · rename_i hany
        obtain ⟨p, hp, hdue⟩ := List.any_eq_true.mp hany
        have hwrites : 0 < s.writes := by
          have h₁ := saveParams_changes p hp
          have h₂ := (of_decide_eq_true hdue).2
          have h₃ := h.writes
          omega
        unfold bgsave
        dsimp only
        split
        · refine ⟨h.coherent, h.idle, h.writes, nofun, fun pid' dbs e => ?_⟩
          cases e
          exact ⟨rfl, rfl, hwrites, s.server.db, snapshot_forked h.coherent, fun _ => rfl⟩
        · exact ⟨h.coherent, h.idle, h.writes, h.free, fun pid' dbs e => by rw [hidle] at e; cases e⟩
      · exact h
  unfold masterCron
  split
  · exact ⟨hneeded.coherent, hneeded.idle, hneeded.writes, hneeded.free, hneeded.busy⟩
  · exact ⟨h.coherent, h.idle, h.writes, h.free, h.busy⟩

/-- What the exit of a child leaves. -/
theorem childExit_some {s s' : Saver} (h : Saving sha256 s) {child : Int × List DbDicts}
    (hc : s.child = some child) {e : ChildEnd} (hx : childExit sha256 s e = some s') :
    ∃ r, rdbChild sha256 child.2 s.disk e = some r ∧ s'.tables = s.tables ∧
      s'.server = { s.server with dirty := 0 } ∧ s'.child = none ∧ s'.disk = r.1 ∧
      s'.writes = if e = .saved then s.sinceFork else s.writes := by
  have hpid := (h.busy child.1 child.2 hc).2.1
  rw [childExit, hc] at hx
  obtain ⟨r, hr, rfl⟩ := Option.map_eq_some_iff.mp hx
  refine ⟨r, hr, ?_⟩
  simp only [sigChildHandler, hpid, if_true, and_self]

theorem exit_saving {s s' : Saver} {e : ChildEnd} (h : Saving sha256 s) (ht : Timely s (.exit e))
    (hx : childExit sha256 s e = some s') : Saving sha256 s' := by
  cases hc : s.child with
  | none =>
    rw [childExit, hc] at hx
    cases hx
    exact h
  | some child =>
    obtain ⟨rfl, hf, hwalk⟩ := ht child hc
    obtain ⟨r, hr, etables, eserver, echild, edisk, ewrites⟩ := childExit_some h hc hx
    obtain ⟨ms, hms, heq⟩ := (h.busy child.1 child.2 hc).2.2.2
    obtain rfl := heq hf
    obtain ⟨srcs, hsave, hids, hs⟩ : Rdb.SavesAll sha256 stringCodec child.2 s.server.db :=
      (Rdb.savesAll_iff hms.represents hms.work).mpr hwalk
    rw [if_pos rfl, hf] at ewrites
    refine ⟨?_, ?_, ?_, fun _ _ => .inr ⟨srcs, ?_, ?_, ?_⟩, fun pid dbs e => ?_⟩
    · rw [Machine.Coherent, etables, eserver]
      exact h.coherent
    · rw [eserver]
      exact h.idle
    · rw [ewrites, eserver]
      rfl
    · rw [rdbChild, hsave] at hr
      cases hr
      exact edisk
    · rw [eserver]
      exact hids
    · rw [eserver]
      exact hs
    · rw [echild] at e
      cases e

/-- Any other exit forgets a write, or a key. -/
theorem untimely_breaks {s s' : Saver} {e : ChildEnd} (h : Saving sha256 s)
    (ht : ¬ Timely s (.exit e)) (hx : childExit sha256 s e = some s') : ¬ Saved sha256 s' := by
  rintro ⟨hw, hd⟩
  refine ht fun child hc => ?_
  obtain ⟨r, hr, -, eserver, -, edisk, ewrites⟩ := childExit_some h hc hx
  obtain ⟨-, -, hpos, ms, hms, heq⟩ := h.busy child.1 child.2 hc
  rw [eserver, ewrites] at hw
  dsimp only at hw
  by_cases he : e = .saved
  swap
  · rw [if_neg he] at hw
    omega
  subst he
  rw [if_pos rfl] at hw
  have hf : s.sinceFork = 0 := by omega
  refine ⟨rfl, hf, ?_⟩
  obtain rfl := heq hf
  obtain ⟨file, hfile, rfl⟩ := Option.map_eq_some_iff.mp hr
  obtain ⟨-, hreflects⟩ := hd (by rw [eserver])
  rw [edisk, eserver] at hreflects
  obtain ⟨hnone, -⟩ | ⟨srcs, hdisk, hids, hs⟩ := hreflects
  · cases hnone
  · have hsaves : Rdb.SavesAll sha256 stringCodec child.2 s.server.db :=
      ⟨srcs, by rw [hfile, Option.some.inj hdisk], hids, hs⟩
    exact (Rdb.savesAll_iff hms.represents hms.work).mp hsaves

theorem command_saving {s s' : Saver} {a : Issue} {u : Unit} (h : Saving sha256 s)
    (ha : Writing s (.command a)) (hs : saveStep slack sha256 s (.command a) = some (u, s')) :
    Saving sha256 s' := by
  obtain ⟨⟨u', m⟩, hm, e⟩ := Option.map_eq_some_iff.mp hs
  obtain ⟨-, rfl⟩ := Prod.mk.inj e
  obtain ⟨hr, hmulti, cmd, hf, hw, db, hdb, hsucc⟩ := ha
  have hget : s.server.getDb (s.server.client a.client).db = .ok db := by
    cases hg : s.server.getDb (s.server.client a.client).db with
    | error _ => rw [hg] at hdb; cases hdb
    | ok db' => rw [hg] at hdb; cases hdb; rfl
  have hd : m.server.dirty = s.server.dirty + 1 := read_dirty hr (h.idle a.client) hmulti hf hw hget
    hsucc (Machine.read_server (Machine.machineStep_read.mp hm))
  have hwrites := h.writes
  refine ⟨Machine.machineStep_coherent h.coherent hm, Machine.machineStep_idle h.idle hm, ?_, nofun,
    fun pid dbs hc => ?_⟩
  · dsimp only
    omega
  · obtain ⟨h₁, h₂, -, ms, hms, -⟩ := h.busy pid dbs hc
    exact ⟨h₁, h₂, Nat.succ_pos _, ms, hms, nofun⟩

theorem send_saving {s s' : Saver} {nwritten : Int} {file : Bytes} {w : RdbWrites} {u : Unit}
    (h : Saving sha256 s) (hs : saveStep slack sha256 s (.send c nwritten file w) = some (u, s')) :
    Saving sha256 s' := by
  obtain ⟨⟨u', m⟩, hm, e⟩ := Option.map_eq_some_iff.mp hs
  obtain ⟨-, rfl⟩ := Prod.mk.inj e
  have hb := Machine.machineStep_coherent h.coherent hm
  have hi := Machine.machineStep_idle h.idle hm
  obtain ⟨-, rfl⟩ := Machine.machineStep_send.mp hm
  obtain ⟨f, e, -⟩ := Machine.send_client s.server c nwritten file w
  rw [e] at hb hi ⊢
  exact ⟨hb, hi, h.writes, h.free, h.busy⟩

/-- A state without a child, in which the file holds the databases. -/
structure Fresh (sha256 : Sha256) (s : Saver) : Prop where
  coherent : Machine.Coherent s.toMachine
  idle : Idle s.server
  dirty : s.server.dirty = 0
  writes : s.writes = 0
  child : s.child = none
  disk : Reflects sha256 s.disk s.server.db

/-- **Writes and saves.** In every run of write commands, replies, ticks and exits of children
no write is forgotten, if every child writes all the keys of its fork and exits before a
write. -/
theorem saved_ok {s₀ s : Saver} (hs : Fresh sha256 s₀) {es : List SaveEvent} {us : List Unit}
    (hp : Along (saveStep slack sha256) (fun s e => Writing s e ∧ Timely s e) s₀ es)
    (h : run (saveStep slack sha256) s₀ es = some (us, s)) : Saved sha256 s := by
  refine (run_invariant (I := Saving sha256) (fun s e u s' hs hp h => ?_) es ?_ hp h).saved
  · cases e with
    | command a => exact command_saving hs hp.1 h
    | send c nwritten file w => exact send_saving hs h
    | tick now pid =>
      cases h
      exact tick_saving now pid hs
    | exit e =>
      obtain ⟨t, ht, e⟩ := Option.map_eq_some_iff.mp h
      obtain ⟨-, rfl⟩ := Prod.mk.inj e
      exact exit_saving hs hp.2 ht
  · refine ⟨hs.coherent, hs.idle, ?_, fun _ _ => hs.disk, fun pid dbs e => ?_⟩
    · rw [hs.writes, hs.dirty]
      rfl
    · rw [hs.child] at e
      cases e

/-- The state that `initServer` leaves without an RDB file. -/
def startSaver (server : RedisServer) (rdbOn : Bool) (now : Int) : Saver where
  server := { server with dirty := 0 }
  tables := initTables server.db.length
  rdbOn := rdbOn
  unixtime := now
  lastSave := now
  rdbChildPid := -1
  isBgSaving := false
  child := none
  disk := none
  writes := 0
  sinceFork := 0

theorem startSaver_fresh (server : RedisServer) (rdbOn : Bool) (now : Int) (hi : Idle server)
    (hdb : ∀ db ∈ server.db, db = dbInit) : Fresh sha256 (startSaver server rdbOn now) where
  coherent := Machine.coherent_init (s := { server with dirty := 0 }) hdb
  idle := hi
  dirty := rfl
  writes := rfl
  child := rfl
  disk := .inl ⟨rfl, fun db hm => by rw [hdb db hm]; rfl⟩

theorem sampleServer_db (aofOn : Bool) : ∀ db ∈ (sampleServer aofOn).db, db = dbInit := by
  intro db hm
  exact List.mem_singleton.mp hm

theorem saved_ok_two : ∃ us s, run (saveStep 64 (Rdb.tells [])) (startSaver (sampleServer false) true 0)
      [.command (sampleIssue 0 [bytes "SET", bytes "k", bytes "v"]), .tick 10 5, .exit .saved,
        .command (sampleIssue 11 [bytes "SET", bytes "k", bytes "w"])] = some (us, s) ∧
      Saved (Rdb.tells []) s := by
  have hall : (run (saveStep 64 (Rdb.tells [])) (startSaver (sampleServer false) true 0)
      [.command (sampleIssue 0 [bytes "SET", bytes "k", bytes "v"]), .tick 10 5, .exit .saved,
        .command (sampleIssue 11 [bytes "SET", bytes "k", bytes "w"])]).isSome = true := by
    decide +kernel
  obtain ⟨⟨us, s⟩, hrun⟩ := Option.isSome_iff_exists.mp hall
  exact ⟨us, s, hrun, saved_ok (startSaver_fresh _ _ _ (idle_sampleServer false)
    (sampleServer_db false)) (by decide +kernel) hrun⟩

/-- SET k v, a tick that forks, and these events. -/
def sampleSave (events : List SaveEvent) : Option (List Unit × Saver) :=
  run (saveStep 64 (Rdb.tells [])) (startSaver (sampleServer false) true 0)
    ([.command (sampleIssue 0 [bytes "SET", bytes "k", bytes "v"]), .tick 10 5] ++ events)

theorem sampleSave_forgets {events : List SaveEvent}
    (h : (sampleSave events).map (fun r => (r.2.server.dirty, r.2.writes)) = some (0, 1)) :
    ∃ us s, sampleSave events = some (us, s) ∧ ¬ Saved (Rdb.tells []) s := by
  obtain ⟨⟨us, s⟩, hrun, hs⟩ := Option.map_eq_some_iff.mp h
  obtain ⟨hd, hn⟩ : s.server.dirty = 0 ∧ s.writes = 1 := Prod.mk.inj hs
  refine ⟨us, s, hrun, fun ⟨hw, _⟩ => ?_⟩
  omega

/-- The second write comes between the fork and the exit; or the child cannot open the file; or it
fails. -/
theorem save_forgets :
    (∃ us s, sampleSave [.command (sampleIssue 11 [bytes "SET", bytes "k", bytes "w"]),
      .exit .saved] = some (us, s) ∧ ¬ Saved (Rdb.tells []) s) ∧
    (∃ us s, sampleSave [.exit .unopened] = some (us, s) ∧ ¬ Saved (Rdb.tells []) s) ∧
    ∃ us s, sampleSave [.exit (.cut (bytes "REDIS") false)] = some (us, s) ∧
      ¬ Saved (Rdb.tells []) s :=
  ⟨sampleSave_forgets (by decide +kernel), sampleSave_forgets (by decide +kernel),
    sampleSave_forgets (by decide +kernel)⟩

end Fedis.Proof.Server
