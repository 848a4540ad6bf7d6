import Fedis.Proof.Server.Deadlines
import Fedis.Proof.Server.Split

/-!
# What a replayed log restores

A log does not say which database a command was for, nor when it was issued. If each
logged command was for the first database, and no EXPIRE depends on its time
(`Restorable`), the databases of the run and of its replay stay related
(`restores_cmdEffect`, `logging_command`). `aof_restores` is the run of any commands, turns of
the thread and replies with a restart behind it.
-/

namespace Fedis.Proof.Server

open Framework Resp

variable {query : RedisServer → ClientId → Except Fault RedisServer} {env : Env}
  {s s' t : RedisServer} {c fkc : ClientId} {argv : List Bytes} {cmd : RedisCommand} {db D : RedisDb}
  {now load : Int} {log : List (List Bytes)} {file : Bytes} {slack : Nat}

/-! ## One database -/

/-- `D` has what `db` has, but for the keys past their deadline at `load`. -/
structure Restores (load : Int) (db D : RedisDb) : Prop where
  deadlines : ∀ k, k ∈ D.expires ↔ k ∈ db.expires
  live : ∀ k, Live db k load →
    D.kv.lookup k = db.kv.lookup k ∧ D.expires.lookup k = db.expires.lookup k

theorem restores_refl (load : Int) (db : RedisDb) : Restores load db db :=
  ⟨fun _ => Iff.rfl, fun _ _ => ⟨rfl, rfl⟩⟩

/-- An EXPIRE gives the key no deadline, or the same one at both times, or one that has
passed at `load`. -/
def Dated (load now : Int) (cmd : RedisCommand) (argv : List Bytes) (deadline : Option Int) : Prop :=
  cmd.proc = .expire → ∀ n ∈ argv[2]?.bind string2long,
    inLong (n + load) ∧ (deadline ≠ none ∨ now = load ∨ n + now < load)

instance decidableDated (load now : Int) (cmd : RedisCommand) (argv : List Bytes)
    (deadline : Option Int) : Decidable (Dated load now cmd argv deadline) :=
  inferInstanceAs (Decidable (cmd.proc = .expire → ∀ n ∈ argv[2]?.bind string2long,
    inLong (n + load) ∧ (deadline ≠ none ∨ now = load ∨ n + now < load)))

theorem restores_lookedAt (hr : Restores load db D) (hnow : now ≤ load) :
    Restores load (lookedAt now cmd argv db) (lookedAt load cmd argv D) := by
  refine ⟨fun k => by rw [lookedAt_expires, lookedAt_expires]; exact hr.deadlines k, fun k hl => ?_⟩
  have hl : Live db k load := by rwa [Live, lookedAt_expires] at hl
  obtain ⟨hkv, he⟩ := hr.live k hl
  have hlD : Live D k load := fun d hd => hl d (by rwa [← he])
  have hlnow : Live db k now := fun d hd => Int.le_trans hnow (hl d hd)
  refine ⟨?_, by rw [lookedAt_expires, lookedAt_expires, he]⟩
  unfold lookedAt
  split
  · rw [expireIfNeed_live hlD, expireIfNeed_live hlnow, hkv]
  · exact hkv

theorem restores_dbEffect (hw : cmd.proc = .set ∨ cmd.proc = .del ∨ cmd.proc = .expire)
    (hr : Restores load db D) (hd : Dated load now cmd argv (db.expires.lookup (keyOf argv))) :
    Restores load (dbEffect now cmd.proc c argv db) (dbEffect load cmd.proc fkc argv D) := by
  cases hk : argv[1]? with
  | none => rcases hw with hp | hp | hp <;> simpa [dbEffect, hk, hp] using hr
  | some key =>
    rcases hw with hp | hp | hp
    · cases hv : argv[2]? with
      | none => simpa [dbEffect, hk, hv, hp] using hr
      | some value =>
        simp only [dbEffect, hk, hv, hp]
        refine ⟨hr.deadlines, fun k hl => ⟨?_, (hr.live k hl).2⟩⟩
        by_cases he : k = cstr key
        · rw [he, Finmap.lookup_insert, Finmap.lookup_insert]
        · rw [Finmap.lookup_insert_of_ne _ he, Finmap.lookup_insert_of_ne _ he]
          exact (hr.live k hl).1
    · simp only [dbEffect, hk, hp]
      refine ⟨hr.deadlines, fun k hl => ⟨?_, (hr.live k hl).2⟩⟩
      by_cases he : k = cstr key
      · rw [he, Finmap.lookup_erase, Finmap.lookup_erase]
      · rw [Finmap.lookup_erase_ne he, Finmap.lookup_erase_ne he]
        exact (hr.live k hl).1
    · cases hv : argv[2]? with
      | none => simpa [dbEffect, hk, hv, hp] using hr
      | some arg =>
        cases hn : string2long arg with
        | none => simpa [dbEffect, hk, hv, hp, hn] using hr
        | some n =>
          simp only [dbEffect, hk, hv, hp, hn]
          by_cases hm : cstr key ∈ db.expires
          · rw [if_pos hm, if_pos ((hr.deadlines _).mpr hm)]
            exact hr
          · rw [if_neg hm, if_neg fun h => hm ((hr.deadlines _).mp h)]
            have hdated := (hd hp n (by rw [hv]; exact hn)).2.resolve_left (by
              rw [keyOf_eq hk, Finmap.lookup_eq_none.mpr hm]
              simp)
            refine ⟨fun k => ?_, fun k hl => ?_⟩
            · rw [Finmap.mem_insert, Finmap.mem_insert, hr.deadlines]
            · by_cases he : k = cstr key
              · subst he
                have hlive : load ≤ n + now := hl _ (Finmap.lookup_insert _)
                obtain rfl : now = load := hdated.resolve_right (by omega)
                have hl : Live db (cstr key) now := fun d h => by
                  rw [Finmap.lookup_eq_none.mpr hm] at h
                  cases h
                exact ⟨(hr.live _ hl).1, by rw [Finmap.lookup_insert, Finmap.lookup_insert]⟩
              · have hl : Live db k load := fun d h =>
                  hl d (by rwa [Finmap.lookup_insert_of_ne _ he])
                rw [Finmap.lookup_insert_of_ne _ he, Finmap.lookup_insert_of_ne _ he]
                exact hr.live k hl

/-- A write command and its replay. -/
theorem restores_cmdEffect (hc : cmd ∈ commandsTable) (hw : cmd.write = true) (hnow : now ≤ load)
    (hr : Restores load db D) (hd : Dated load now cmd argv (db.expires.lookup (keyOf argv))) :
    Restores load (cmdEffect now cmd c argv db) (cmdEffect load cmd fkc argv D) := by
  have he : Restores load (dbEffect now cmd.proc c argv (lookedAt now cmd argv db))
      (dbEffect load cmd.proc fkc argv (lookedAt load cmd argv D)) :=
    restores_dbEffect (write_proc cmd hc hw) (restores_lookedAt hr hnow)
      (by rwa [lookedAt_expires])
  obtain ⟨kv₁, ex₁⟩ := cmdEffect_eq now cmd c argv db
  obtain ⟨kv₂, ex₂⟩ := cmdEffect_eq load cmd fkc argv D
  refine ⟨fun k => by rw [ex₁, ex₂]; exact he.deadlines k, fun k hl => ?_⟩
  rw [kv₁, ex₁, kv₂, ex₂]
  exact he.live k (by rwa [Live, ex₁] at hl)

/-! ## Commands and their log -/

/-- A SELECT, SET, DEL or EXPIRE. -/
def Workload (argv : List Bytes) : Prop :=
  ∃ name ∈ [bytes "SELECT", bytes "SET", bytes "DEL", bytes "EXPIRE"],
    strcaseeq name (argv.headD []) = true

/-- What happens to a server with an AOF: a command that is read as a whole, a socket that is
ready to be written, and a turn of the thread. -/
inductive AofServerEvent where
  | command (a : Issue)
  | send (c : ClientId) (nwritten : Int) (file : Bytes) (w : RdbWrites)
  | turn

/-- One event. -/
def aofServerStep (slack : Nat) (s : AofServer) : AofServerEvent → Option (Unit × AofServer)
  | .command a =>
    (machineStep slack s.toMachine (.read ⟨a.env, a.client, respEncodeArrayString a.argv⟩)).map
      fun r => ((), { s with toMachine := r.2 })
  | .send c nwritten file w =>
    (machineStep slack s.toMachine (.send c nwritten file w)).map fun r =>
      ((), { s with toMachine := r.2 })
  | .turn => some ((), s.turn)

/-- Where a call of a write command finds its database, and its time, in the log too. -/
def Restorable (load : Int) (s : RedisServer) (a : Issue) : Prop :=
  ∀ cmd ∈ foundCommand s a.client a.argv, cmd.write = true →
    (s.client a.client).db = 0 ∧ Dated load a.env.now cmd a.argv (expireAt s 0 (keyOf a.argv))

instance decidableRestorable (load : Int) (s : RedisServer) (a : Issue) :
    Decidable (Restorable load s a) :=
  inferInstanceAs (Decidable (∀ cmd ∈ foundCommand s a.client a.argv, cmd.write = true →
    (s.client a.client).db = 0 ∧ Dated load a.env.now cmd a.argv (expireAt s 0 (keyOf a.argv))))

/-- The commands of a run can be restored. -/
def Restoring (load : Int) (s : AofServer) : AofServerEvent → Prop
  | .command a => Restorable load s.server a
  | _ => True

instance decidableRestoring (load : Int) (s : AofServer) : ∀ e, Decidable (Restoring load s e)
  | .command a => inferInstanceAs (Decidable (Restorable load s.server a))
  | .send .. | .turn => isTrue trivial

/-- What a call puts into the log. -/
def logged (s : RedisServer) (c : ClientId) (argv : List Bytes) : List (List Bytes) :=
  if ∃ cmd ∈ foundCommand s c argv, cmd.write = true then [argv] else []

theorem workload_found (ha : Workload argv) (hf : foundCommand s c argv = some cmd) :
    cmd.write = true ∨ cmd.proc = .select ∧ cmd.read = false := by
  have table : ∀ name ∈ [bytes "SELECT", bytes "SET", bytes "DEL", bytes "EXPIRE"],
      ∃ entry ∈ commandsTable, entry.name = name ∧
        (entry.write = true ∨ entry.proc = .select ∧ entry.read = false) := by decide
  obtain ⟨name, hname, hcase⟩ := ha
  obtain ⟨entry, hentry, rfl, hkind⟩ := table name hname
  rwa [foundCommand_eq hf hentry hcase]

theorem workload_plain (ha : Workload argv) (hf : foundCommand s c argv = some cmd) :
    cmd.proc ≠ .exec ∧ cmd.proc ≠ .slaveof := by
  rcases workload_found ha hf with hw | ⟨hp, -⟩
  · obtain ⟨hexec, hslave, -⟩ := write_plain cmd (mem_table hf) hw
    exact ⟨hexec, hslave⟩
  · rw [hp]
    decide

/-- The log gets the read buffer of a write command. -/
theorem processCommand_aof (ha : Workload argv) (hon : s.aofOn = true)
    (hfake : (s.client c).flags.fake = false)
    (hbuf : (s.client c).readBuf.content = respEncodeArrayString argv)
    (h : processCommand query env s c argv = .ok s') :
    s'.aofOn = true ∧ s'.activeBuf.content =
      s.activeBuf.content ++ (logged s c argv).flatMap respEncodeArrayString := by
  obtain ⟨-, ⟨hf, rfl⟩ | ⟨cmd, t, hf, ht, rfl⟩⟩ := processCommand_ok.mp h
  · simp [logged, hf, clearReadBuf, logCall, hon]
  · obtain ⟨hexec, -⟩ := workload_plain ha hf
    have haof : (clearReadBuf (replicate t c cmd) c).aofOn = t.aofOn :=
      replied_field (·.aofOn) fun _ _ _ _ _ => rfl
    have hactive : (clearReadBuf (replicate t c cmd) c).activeBuf = t.activeBuf :=
      replied_field (·.activeBuf) fun _ _ _ _ _ => rfl
    rw [haof, hactive]
    refine ⟨(executed_server hexec ht).aofOn.trans hon, ?_⟩
    cases hw : cmd.write with
    | true =>
      have he := (executed_write (mem_table hf) hw (s := logCall s c argv) hfake ht).activeBuf
      have hlog : logged s c argv = [argv] := if_pos ⟨cmd, hf, hw⟩
      rw [he, hlog]
      simp [logCall, hon, hbuf]
    | false =>
      have hnone : ¬ ∃ cmd ∈ foundCommand s c argv, cmd.write = true := by
        rintro ⟨cmd', hf', hw'⟩
        obtain rfl : cmd = cmd' := Option.some.inj (hf.symm.trans hf')
        rw [hw] at hw'
        cases hw'
      obtain hw' | ⟨-, hr⟩ := workload_found ha hf
      · rw [hw] at hw'
        cases hw'
      · rw [executed_handler hr hw] at ht
        rw [(callProc_frame hexec ht).activeBuf, logged, if_neg hnone]
        simp [logCall]

/-- Client objects that log what they write. -/
def Logs (s : RedisServer) : Prop :=
  ∀ x, (s.client x).flags.fake = false ∧ (s.client x).flags.multi = false

theorem processCommand_logs (ha : Workload argv) (hs : Logs s)
    (h : processCommand query env s c argv = .ok s') : Logs s' := by
  intro x
  have hne : NotExec s c argv := fun cmd hf => (workload_plain ha hf).1
  have hcore := processCommand_core (x := x) hne h fun cmd hf e =>
    absurd e (workload_plain ha hf).2
  rw [core_flags hcore]
  unfold clientAfter
  split
  · exact hs x
  · rename_i cmd hf
    split
    · split
      · exact hs x
      · exact hs x
    · rename_i hw
      obtain ⟨hp, -⟩ := (workload_found ha hf).resolve_left hw
      split
      · simp only [hp, clientEffect]
        split
        · exact hs c
        · exact hs c
      · exact hs x

/-- What a command leaves of a server that logs. -/
structure Requested (s : RedisServer) (a : Issue) (s' : RedisServer) : Prop where
  request : Request a.argv
  aofOn : s'.aofOn = true
  idle : Idle s'
  logs : Logs s'
  active : s'.activeBuf.content =
    s.activeBuf.content ++ (logged s a.client a.argv).flatMap respEncodeArrayString
  length : s'.db.length = s.db.length
  getElem : ∀ i : Nat, s'.db[i]? = if (s.client a.client).db = i then
    s.db[i]?.map (callEffect a.env s a.client a.argv) else s.db[i]?
  write : ∀ cmd ∈ foundCommand s a.client a.argv, cmd.write = true →
    Suits a.env.now cmd a.argv ∧ ∃ db, s.getDb (s.client a.client).db = .ok db

theorem read_requested {a : Issue} (ha : Workload a.argv) (hz : NulFree a.argv)
    (hon : s.aofOn = true) (hi : Idle s) (hs : Logs s)
    (h : readFromClient a.env s a.client (respEncodeArrayString a.argv) = .ok s') :
    Requested s a s' := by
  have hne : a.argv ≠ [] := by
    obtain ⟨name, hname, hcase⟩ := ha
    intro e
    rw [e] at hcase
    revert name
    decide
  have hidle := readFromClient_idle h hi
  have hlen : (respEncodeArrayString a.argv).length < 1024 := by
    obtain ⟨e, -⟩ | ⟨-, hlt, -⟩ := readFromClient_ok.mp h
    · exact absurd e (encode_ne_nil _)
    · rwa [cstr_eq_self (encode_ne_zero _)] at hlt
  have hreq : Request a.argv := request_of_fits hne hz (by omega)
  obtain ⟨t, ⟨hq, -⟩ | ⟨-, ht⟩, rfl⟩ := (read_request hreq hlen (hi a.client)).mp h
  · exact absurd hq (not_queues (hs a.client).2)
  set s₁ := received s a.client (respEncodeArrayString a.argv) with hs₁
  have hfound : foundCommand s₁ a.client a.argv = foundCommand s a.client a.argv :=
    foundCommand_received ..
  have hcore : ∀ x, core (s₁.client x) = core (s.client x) := fun x => received_core _
  have hlogs₁ : Logs s₁ := fun x => by
    rw [core_flags (hcore x)]
    exact hs x
  have hbuf : (s₁.client a.client).readBuf.content = respEncodeArrayString a.argv := by
    rw [hs₁, received_content (hi a.client), cstr_eq_self (encode_ne_zero _)]
  obtain ⟨hon', hactive⟩ := processCommand_aof ha (s := s₁) hon (hlogs₁ a.client).1 hbuf ht
  have hexec : NotExec s₁ a.client a.argv := fun cmd hf => (workload_plain ha hf).1
  have heffect : callEffect a.env s₁ a.client a.argv = callEffect a.env s a.client a.argv := by
    funext db
    rw [callEffect, callEffect, hfound]
  rw [logged, hfound] at hactive
  refine ⟨hreq, hon', hidle, fun x => ?_, hactive, ?_, fun i => ?_, fun cmd hf hw => ?_⟩
  · rw [core_flags clearReadBuf_core]
    exact processCommand_logs ha hlogs₁ ht x
  · rw [clearReadBuf_db, processCommand_db hexec ht, List.length_modify]
    rfl
  · rw [clearReadBuf_db, processCommand_getElem hexec ht, core_db (hcore a.client), heffect]
    rfl
  · obtain ⟨-, u, hu, -⟩ := (processCommand_found (hfound.trans hf)).mp ht
    obtain ⟨-, db, -, hdb⟩ := executed_getDb hu (by simp [hw])
    exact ⟨executed_suits hw hu, db, by rwa [← core_db (hcore a.client)]⟩

/-! ## Runs -/

/-- A server whose databases are what the replay of its log will be related to. The thread has
written the bytes `file` of the log. -/
structure Logging (load : Int) (fkc : ClientId) (n : Nat) (file : Bytes) (s : RedisServer)
    (log : List (List Bytes)) : Prop where
  aofOn : s.aofOn = true
  idle : Idle s
  logs : Logs s
  active : file ++ s.activeBuf.content = log.flatMap respEncodeArrayString
  replayable : ∀ argv ∈ log, Replayable load argv
  length : s.db.length = n
  pos : log ≠ [] → 0 < n
  restores : ∀ (i : Nat) (db : RedisDb), s.db[i]? = some db →
    Restores load db (if i = 0 then log.foldl (replayed load fkc) dbInit else dbInit)

theorem dated_suits (hd : Dated load now cmd argv (db.expires.lookup k)) (ha : Suits now cmd argv) :
    Suits load cmd argv := by
  refine ⟨ha.key, fun hp => ?_⟩
  obtain ⟨arg, harg, -⟩ := ha.deadline hp
  exact ⟨arg, harg, fun n hn => (hd hp n (by rw [harg]; exact hn)).1⟩

/-- A command that is not logged does nothing to a database. -/
theorem callEffect_silent (ha : Workload argv)
    (hw : ¬ ∃ cmd ∈ foundCommand s c argv, cmd.write = true) (db : RedisDb) :
    callEffect env s c argv db = db := by
  unfold callEffect
  split
  · rfl
  · rename_i cmd hf
    have hw : cmd.write = false := by
      cases hcmd : cmd.write with
      | false => rfl
      | true => exact absurd ⟨cmd, hf, hcmd⟩ hw
    obtain h | ⟨hp, hr⟩ := workload_found ha hf
    · rw [hw] at h
      cases h
    · simp [cmdEffect, hw, hr, hp, dbEffect]

theorem logging_write {a : Issue} {n : Nat} (hf : foundCommand s a.client a.argv = some cmd)
    (hw : cmd.write = true) (hnow : a.env.now ≤ load) (hr : Restorable load s a)
    (hq : Requested s a s') (hs : Logging load fkc n file s log) :
    Logging load fkc n file s' (log ++ [a.argv]) := by
  have hlog : logged s a.client a.argv = [a.argv] := if_pos ⟨cmd, hf, hw⟩
  obtain ⟨hsel, hdated⟩ := hr cmd hf hw
  obtain ⟨hsuits, db₀, hdb₀⟩ := hq.write cmd hf hw
  rw [hsel] at hdb₀
  have hzero : s.db[0]? = some db₀ := (getDb_ok.mp hdb₀).2
  have hexpire : expireAt s 0 (keyOf a.argv) = db₀.expires.lookup (keyOf a.argv) := by
    rw [expireAt, hzero]
    rfl
  rw [hexpire] at hdated
  have hentry : Replayable load a.argv :=
    ⟨hq.request, cmd, entryOf_found hf, hw, dated_suits hdated hsuits⟩
  refine ⟨hq.aofOn, hq.idle, hq.logs, ?_, fun argv hm => ?_, hq.length.trans hs.length, fun _ => ?_,
    fun i db hdb => ?_⟩
  · rw [hq.active, ← List.append_assoc, hs.active, hlog, List.flatMap_append]
  · rcases List.mem_append.mp hm with hm | hm
    · exact hs.replayable argv hm
    · rwa [List.mem_singleton.mp hm]
  · rw [← hs.length]
    exact (List.getElem?_eq_some_iff.mp hzero).1
  · rw [hq.getElem, hsel] at hdb
    by_cases hi : i = 0
    · subst hi
      rw [if_pos (by rfl), hzero] at hdb
      obtain rfl : callEffect a.env s a.client a.argv db₀ = db := Option.some.inj hdb
      have hold := hs.restores 0 db₀ hzero
      rw [if_pos rfl] at hold
      rw [if_pos rfl, List.foldl_concat, callEffect, hf, replayed, entryOf_found hf]
      exact restores_cmdEffect (mem_table hf) hw hnow hold hdated
    · rw [if_neg (by omega)] at hdb
      have hold := hs.restores i db hdb
      rw [if_neg hi] at hold ⊢
      exact hold

theorem logging_silent {a : Issue} {n : Nat} (ha : Workload a.argv)
    (hw : ¬ ∃ cmd ∈ foundCommand s a.client a.argv, cmd.write = true) (hq : Requested s a s')
    (hs : Logging load fkc n file s log) : Logging load fkc n file s' log := by
  have hlog : logged s a.client a.argv = [] := if_neg hw
  refine ⟨hq.aofOn, hq.idle, hq.logs, ?_, hs.replayable, hq.length.trans hs.length, hs.pos,
    fun i db hdb => hs.restores i db ?_⟩
  · rw [hq.active, ← List.append_assoc, hs.active, hlog, List.flatMap_nil, List.append_nil]
  · rw [hq.getElem] at hdb
    split at hdb
    · obtain ⟨db', hdb', rfl⟩ := Option.map_eq_some_iff.mp hdb
      rw [hdb', callEffect_silent ha hw]
    · exact hdb

theorem logging_command {a : Issue} {n : Nat} (ha : Workload a.argv)
    (hz : NulFree a.argv) (hnow : a.env.now ≤ load) (hr : Restorable load s a)
    (h : readFromClient a.env s a.client (respEncodeArrayString a.argv) = .ok s')
    (hs : Logging load fkc n file s log) : ∃ log', Logging load fkc n file s' log' := by
  have hq := read_requested ha hz hs.aofOn hs.idle hs.logs h
  by_cases hw : ∃ cmd ∈ foundCommand s a.client a.argv, cmd.write = true
  · obtain ⟨cmd, hf, hw⟩ := hw
    exact ⟨_, logging_write hf hw hnow hr hq hs⟩
  · exact ⟨_, logging_silent ha hw hq hs⟩

/-- What a client is sent does not touch the databases, nor the log. -/
theorem logging_sent {n : Nat} (nwritten : Int) (bs : Bytes) (w : RdbWrites)
    (hs : Logging load fkc n file s log) :
    Logging load fkc n file (sendToClient (initOutputs s) c nwritten bs w).server log := by
  obtain ⟨f, e, hf⟩ := Machine.send_client s c nwritten bs w
  rw [e]
  refine ⟨hs.aofOn, fun x => ?_, fun x => ?_, hs.active, hs.replayable, hs.length, hs.pos, hs.restores⟩
  · have hbuf := modifyClient_field s c f (·.readBuf) (fun client => by
      obtain ⟨_, _, _, e⟩ := hf client
      rw [e]) x
    rw [show ((s.modifyClient c f).client x).readBuf = _ from hbuf]
    exact hs.idle x
  · have hflags := modifyClient_field s c f (fun client => (client.flags.fake, client.flags.multi))
      (fun client => by
        obtain ⟨_, _, _, e⟩ := hf client
        rw [e]) x
    obtain ⟨hfake, hmulti⟩ := Prod.mk.inj hflags
    rw [hfake, hmulti]
    exact hs.logs x

/-- A server whose thread has an empty buffer. -/
structure AofLogging (load : Int) (fkc : ClientId) (n : Nat) (s : AofServer)
    (log : List (List Bytes)) : Prop where
  logging : Logging load fkc n s.file s.server log
  ioBuf : s.ioBuf.len = 0

/-- A turn of the thread keeps the bytes together. -/
theorem logging_turn {n : Nat} {s : AofServer} (hs : AofLogging load fkc n s log) :
    AofLogging load fkc n s.turn log := by
  refine ⟨⟨hs.logging.aofOn, hs.logging.idle, hs.logging.logs, ?_, hs.logging.replayable,
    hs.logging.length, hs.logging.pos, hs.logging.restores⟩, rfl⟩
  show (s.file ++ s.server.activeBuf.content) ++ s.ioBuf.content = _
  rw [content_of_len hs.ioBuf, List.append_nil]
  exact hs.logging.active

theorem logging_step {s s' : AofServer} {e : AofServerEvent} {u : Unit} {n : Nat}
    (ha : ∀ a, e = .command a → Workload a.argv ∧ NulFree a.argv ∧ a.env.now ≤ load)
    (hr : Restoring load s e) (h : aofServerStep slack s e = some (u, s'))
    (hs : AofLogging load fkc n s log) : ∃ log', AofLogging load fkc n s' log' := by
  cases e with
  | command a =>
    obtain ⟨hwork, hz, hnow⟩ := ha a rfl
    obtain ⟨⟨v, m⟩, hm, e⟩ := Option.map_eq_some_iff.mp h
    cases e
    obtain ⟨log', hlog'⟩ := logging_command hwork hz hnow hr
      (Machine.read_server (Machine.machineStep_read.mp hm)) hs.logging
    exact ⟨log', hlog', hs.ioBuf⟩
  | send c nwritten file w =>
    obtain ⟨⟨v, m⟩, hm, e⟩ := Option.map_eq_some_iff.mp h
    cases e
    obtain ⟨-, rfl⟩ := Machine.machineStep_send.mp hm
    exact ⟨log, logging_sent nwritten file w hs.logging, hs.ioBuf⟩
  | turn =>
    cases h
    exact ⟨log, logging_turn hs⟩

theorem logging_run {s s' : AofServer} {events : List AofServerEvent} {us : List Unit} {n : Nat}
    (ha : ∀ a, .command a ∈ events → Workload a.argv ∧ NulFree a.argv ∧ a.env.now ≤ load)
    (hr : Along (aofServerStep slack) (Restoring load) s events)
    (h : run (aofServerStep slack) s events = some (us, s')) (hs : AofLogging load fkc n s log) :
    ∃ log', AofLogging load fkc n s' log' := by
  refine run_invariant (I := fun s => ∃ log, AofLogging load fkc n s log)
    (P := fun s e => Restoring load s e ∧ e ∈ events) (fun s e u s' ⟨_, hs⟩ ⟨hr, he⟩ h =>
      logging_step (fun a ea => ha a (ea ▸ he)) hr h hs) events ⟨log, hs⟩
    (along_and.mpr ⟨hr, along_of_forall fun e he _ => he⟩) h

/-! ## The restart -/

/-- A server that has started with empty databases, an AOF and clients. -/
structure Started (s : AofServer) : Prop where
  aofOn : s.server.aofOn = true
  db : ∃ n, s.server.db = List.replicate n dbInit
  appended : s.appended = []
  ioBuf : s.ioBuf.len = 0
  idle : Idle s.server
  logs : Logs s.server

/-- A server that has started, with the buffers that `aof_init` makes. -/
def initAofServer (s : RedisServer) : AofServer where
  toMachine := initMachine s
  ioBuf := sdsempty
  file := []

theorem initServer_started (id : Int) (flags : ServerFlags) (dbnum : Nat) :
    Started (initAofServer (initServer id flags dbnum true)) :=
  ⟨rfl, ⟨dbnum, rfl⟩, content_of_len rfl, rfl, fun _ => rfl, fun _ => ⟨rfl, rfl⟩⟩

theorem acceptTcpHandler_started (h : Started (initAofServer s)) (c : ClientId) (ip : Bytes)
    (port : Int) : Started (initAofServer (acceptTcpHandler s c ip port)) := by
  refine ⟨h.aofOn, h.db, h.appended, rfl, fun x => ?_, fun x => ?_⟩
  · show ((acceptTcpHandler s c ip port).client x).readBuf.len = 0
    rw [acceptTcpHandler]
    dsimp only
    rw [modifyClient_client]
    split
    · rfl
    · exact h.idle x
  · show ((acceptTcpHandler s c ip port).client x).flags.fake = false ∧
      ((acceptTcpHandler s c ip port).client x).flags.multi = false
    rw [acceptTcpHandler]
    dsimp only
    rw [modifyClient_client]
    split
    · exact ⟨rfl, rfl⟩
    · exact h.logs x

theorem Started.logging {s : AofServer} (h : Started s) (load : Int) (fkc : ClientId) :
    AofLogging load fkc s.server.db.length s [] := by
  refine ⟨⟨h.aofOn, h.idle, h.logs, h.appended, fun argv hm => absurd hm List.not_mem_nil, rfl,
    fun hne => absurd rfl hne, fun i db hdb => ?_⟩, h.ioBuf⟩
  obtain ⟨n, hn⟩ := h.db
  rw [hn] at hdb
  obtain rfl : db = dbInit := List.eq_of_mem_replicate (List.mem_of_getElem? hdb)
  rw [List.foldl_nil, ite_self]
  exact restores_refl load dbInit

/-- The restarted server has the databases, keys, values and deadlines of the old one,
but for the keys past their deadline. -/
def Restored (load : Int) (s r : RedisServer) : Prop :=
  r.db.length = s.db.length ∧ ∀ i k, (∀ d, expireAt s i k = some d → load ≤ d) →
    kvAt r i k = kvAt s i k ∧ expireAt r i k = expireAt s i k

theorem logging_restored {n : Nat} {r₀ r : RedisServer} (hs : Logging env.now fkc n file s log)
    (hr₀ : r₀.db = List.replicate n dbInit) (hf : FakeReady r₀ fkc)
    (hr : log.foldlM (handTo env fkc) r₀ = .ok r) : Restored env.now s r := by
  have hdb : r.db = r₀.db.modify 0 fun db => log.foldl (replayed env.now fkc) db := by
    obtain ⟨r', hr', hdb⟩ := hands_ok hs.replayable hf fun hne => by
      obtain ⟨m, rfl⟩ : ∃ m, n = m + 1 := ⟨n - 1, by have := hs.pos hne; omega⟩
      exact ⟨dbInit, by rw [hr₀]; rfl⟩
    cases hr.symm.trans hr'
    exact hdb
  refine ⟨?_, fun i k hlive => ?_⟩
  · rw [hdb, List.length_modify, hr₀, List.length_replicate, hs.length]
  · rw [hr₀] at hdb
    have hlen := hs.length
    cases hi : s.db[i]? with
    | none =>
      have hnone : r.db[i]? = none := by
        have := List.getElem?_eq_none_iff.mp hi
        rw [hdb]
        exact List.getElem?_eq_none (by rw [List.length_modify, List.length_replicate]; omega)
      simp [kvAt, expireAt, hi, hnone]
    | some db =>
      have hlt := (List.getElem?_eq_some_iff.mp hi).1
      have hri : r.db[i]? =
          some (if i = 0 then log.foldl (replayed env.now fkc) dbInit else dbInit) := by
        rw [hdb, List.getElem?_modify, List.getElem?_replicate, if_pos (by omega)]
        by_cases h0 : i = 0
        · subst h0
          rfl
        · simp [h0, Ne.symm h0]
      simp only [kvAt, expireAt, hi, hri, Option.bind_some] at hlive ⊢
      exact (hs.restores i db hi).live k hlive

/-- A server with two databases, and a client. -/
def sampleDatabases : RedisServer :=
  acceptTcpHandler (initServer 1 ⟨true, false, false⟩ 2 true) 7 (bytes "127.0.0.1") 5000

end Fedis.Proof.Server
