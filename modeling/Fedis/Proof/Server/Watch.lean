import Fedis.Framework.Guard
import Fedis.Proof.Server.SetGet

/-!
# WATCH

* `call_watching`: a client that watches a key stays in the key's list, or its
  transaction has failed; a write of the key makes it fail.
* `call_adds`: only a WATCH of its own puts a client into a list.
* `run_watches`: so in every run a client that watched a key which was written
  later has a failed transaction.
* `exec_refused`: its EXEC then runs no command and changes no database.
-/

namespace Fedis.Proof.Server

open Framework Resp Relation

variable {query : RedisServer → ClientId → Except Fault RedisServer} {env : Env}
  {s s' t : RedisServer} {c x : ClientId} {argv : List Bytes} {cmd : RedisCommand} {i : Nat}
  {k : Bytes}

/-! ## Watch lists -/

/-- The clients that watch a key of a database. -/
def watchList (db : RedisDb) (k : Bytes) : List ClientId := (db.watchedKeys.lookup k).getD []

theorem mem_watchersAt : x ∈ watchersAt s i k ↔ ∃ db, s.db[i]? = some db ∧ x ∈ watchList db k := by
  rw [watchersAt]
  cases s.db[i]? with
  | none => simp
  | some db => simp [watchList]

/-- No list names the client. -/
def Unwatched (s : RedisServer) (x : ClientId) : Prop := ∀ i k, x ∉ watchersAt s i k

theorem unwatched_iff : (∀ db ∈ s.db, ∀ e ∈ db.watchedKeys.entries, x ∉ e.snd) ↔ Unwatched s x := by
  constructor
  · intro h i k hw
    obtain ⟨db, hdb, hmem⟩ := mem_watchersAt.mp hw
    rw [watchList] at hmem
    cases hl : db.watchedKeys.lookup k with
    | none =>
      rw [hl] at hmem
      cases hmem
    | some l =>
      rw [hl] at hmem
      exact h db (List.mem_of_getElem? hdb) ⟨k, l⟩ (Finmap.lookup_eq_some_iff.mp hl) hmem
  · intro h db hdb e he hmem
    obtain ⟨i, hi⟩ := List.getElem?_of_mem hdb
    refine h i e.fst (mem_watchersAt.mpr ⟨db, hi, ?_⟩)
    rw [watchList, Finmap.lookup_eq_some_iff.mpr (show ⟨e.fst, e.snd⟩ ∈ db.watchedKeys.entries from he)]
    exact hmem

instance : Decidable (Unwatched s x) := decidable_of_iff _ unwatched_iff

theorem watchList_dbAddWatch (db : RedisDb) (key : Bytes) (c : ClientId) :
    watchList (dbAddWatch db key c) k = watchList db k ++ if k = key then [c] else [] := by
  unfold watchList dbAddWatch mapContains mapAdd mapFetchValue
  by_cases hk : k = key
  · subst hk
    by_cases hm : k ∈ db.watchedKeys
    · obtain ⟨l, hl⟩ := Finmap.mem_iff.mp hm
      simp [hm, hl]
    · simp [hm, Finmap.lookup_eq_none.mpr hm]
  · by_cases hm : key ∈ db.watchedKeys
    · simp [hm, hk]
    · simp [hm, hk]

theorem mem_watchList_foldl (args : List Bytes) (db : RedisDb) :
    x ∈ watchList (args.foldl (fun db arg => dbAddWatch db (cstr arg) c) db) k ↔
      x ∈ watchList db k ∨ (x = c ∧ ∃ arg ∈ args, cstr arg = k) := by
  induction args generalizing db with
  | nil => simp
  | cons arg args ih =>
    rw [List.foldl_cons, ih, watchList_dbAddWatch, List.mem_append]
    by_cases hk : k = cstr arg
    · simp only [hk, if_true, List.mem_cons]
      tauto
    · simp only [if_neg hk, List.not_mem_nil, or_false, List.mem_cons, exists_eq_or_imp,
        Ne.symm hk, false_or]

theorem mem_watchList_unwatch (db : RedisDb) (key : Bytes) :
    x ∈ watchList (unwatch db key) k ↔ x ∈ watchList db k ∧ k ≠ key := by
  unfold watchList unwatch
  by_cases hk : k = key
  · subst hk
    by_cases hm : k ∈ db.watchedKeys
    · simp [hm]
    · simp [hm, Finmap.lookup_eq_none.mpr hm]
  · split
    · simp [hk]
    · simp [hk]

/-- What a call makes of a watch list of the selected database. -/
theorem mem_watchList_callEffect (hf : foundCommand s c argv = some cmd) (db : RedisDb) :
    x ∈ watchList (callEffect env s c argv db) k ↔
      (x ∈ watchList db k ∨ (cmd.proc = .watch ∧ x = c ∧ ∃ arg ∈ argv.drop 1, cstr arg = k)) ∧
        ¬ (cmd.write = true ∧ keyOf argv = k) := by
  have hexp : ∀ (b : Bool) key, watchList (if b then expireIfNeed db key env.now else db) k =
      watchList db k := by
    intro b key
    unfold watchList
    split
    · rw [expireIfNeed_watchedKeys]
    · rfl
  have heff : ∀ db', watchList db' k = watchList db k →
      (x ∈ watchList (dbEffect env.now cmd.proc c argv db') k ↔ x ∈ watchList db k ∨
        (cmd.proc = .watch ∧ x = c ∧ ∃ arg ∈ argv.drop 1, cstr arg = k)) := by
    intro db' e
    by_cases hp : cmd.proc = .watch
    · have hd : dbEffect env.now .watch c argv db' =
          (argv.drop 1).foldl (fun db arg => dbAddWatch db (cstr arg) c) db' := by
        unfold dbEffect
        split <;> simp_all
      rw [hp, hd, mem_watchList_foldl, e]
      simp
    · rw [watchList, dbEffect_watchedKeys hp, ← watchList, e]
      simp [hp]
  simp only [callEffect, hf, cmdEffect]
  cases hw : cmd.write with
  | false =>
    simp only [Bool.false_eq_true, if_false, false_and, not_false_eq_true, and_true]
    exact heff _ (hexp _ _)
  | true =>
    simp only [if_true, true_and, mem_watchList_unwatch]
    rw [heff _ (hexp _ _)]
    simp only [ne_eq, @eq_comm _ k]

/-! ## One call -/

/-- The client is in the key's list, or its transaction has failed. -/
def Watching (s : RedisServer) (x : ClientId) (i : Nat) (k : Bytes) : Prop :=
  x ∈ watchersAt s i k ∨ (s.client x).flags.dirtyCas = true

/-- The call of a WATCH of this key. -/
def WatchesKey (x : ClientId) (i : Nat) (k : Bytes) (call : Call) : Prop :=
  call.client = x ∧ call.db = i ∧ call.proc = some .watch ∧ ∃ arg ∈ call.argv.drop 1, cstr arg = k

/-- Neither SLAVEOF, which makes a slave of the server, nor REPLCONF, which makes
one of the client. -/
def Plain (call : Call) : Prop := call.proc ≠ some .slaveof ∧ call.proc ≠ some .replconf

theorem plain_found (h : Plain (callOf s c argv)) (hf : foundCommand s c argv = some cmd) :
    cmd.proc ≠ .slaveof ∧ cmd.proc ≠ .replconf := by
  simpa [Plain, callOf, hf] using h

theorem written_found (h : WritesKey i k (callOf s c argv)) :
    ∃ cmd, foundCommand s c argv = some cmd ∧ cmd.write = true := by
  obtain ⟨-, -, hp⟩ := h
  have hwrite : ∀ cmd ∈ commandsTable, cmd.proc = .set ∨ cmd.proc = .del ∨ cmd.proc = .expire →
      cmd.write = true := by decide
  cases hf : foundCommand s c argv with
  | none => simp [callOf, hf] at hp
  | some cmd => exact ⟨cmd, rfl, hwrite cmd (mem_table hf) (by simpa [callOf, hf] using hp)⟩

theorem clientAfter_dirty (hp : Plain (callOf s c argv))
    (h : (s.client x).flags.dirtyCas = true) :
    (clientAfter s c argv x).flags.dirtyCas = true := by
  unfold clientAfter
  split
  · exact h
  · rename_i cmd hf
    split
    · split
      · rfl
      · exact h
    · split
      · rename_i hx
        subst hx
        unfold clientEffect
        split
        · exact absurd ‹_› (plain_found hp hf).2
        · exact h
        · split <;> exact h
        · exact h
      · exact h

theorem call_core (hne : NotExec s c argv) (hp : Plain (callOf s c argv))
    (h : processCommand query env s c argv = .ok s') (x : ClientId) :
    core (s'.client x) = core (clientAfter s c argv x) :=
  processCommand_core hne h fun _ hf hs => absurd hs (plain_found hp hf).1

theorem call_dirty (hne : NotExec s c argv) (hp : Plain (callOf s c argv))
    (h : processCommand query env s c argv = .ok s') (hx : (s.client x).flags.dirtyCas = true) :
    (s'.client x).flags.dirtyCas = true := by
  rw [core_flags (call_core hne hp h x)]
  exact clientAfter_dirty hp hx

/-- A write marks every client in the key's list. -/
theorem call_marks (hne : NotExec s c argv) (hp : Plain (callOf s c argv))
    (h : processCommand query env s c argv = .ok s') (hw : WritesKey i k (callOf s c argv))
    (hx : Watching s x i k) : (s'.client x).flags.dirtyCas = true := by
  rcases hx with hx | hx
  · obtain ⟨cmd, hf, hcw⟩ := written_found hw
    have hi : (s.client c).db = i := hw.1
    have hk : keyOf argv = k := hw.2.1
    rw [core_flags (call_core hne hp h x)]
    simp only [clientAfter, hf, hcw, if_true, hi, hk, Int.toNat_natCast, if_pos hx]
    rfl
  · exact call_dirty hne hp h hx

/-- A client leaves a key's list only when it is marked. -/
theorem call_watching (hne : NotExec s c argv) (hp : Plain (callOf s c argv))
    (h : processCommand query env s c argv = .ok s') (hx : Watching s x i k) :
    Watching s' x i k := by
  by_cases hw : WritesKey i k (callOf s c argv)
  · exact .inr (call_marks hne hp h hw hx)
  rcases hx with hx | hx
  · left
    obtain ⟨db, hdb, hx⟩ := mem_watchersAt.mp hx
    have hel := processCommand_getElem hne h i
    split at hel
    · rename_i hi
      refine mem_watchersAt.mpr ⟨callEffect env s c argv db, by rw [hel, hdb]; rfl, ?_⟩
      cases hf : foundCommand s c argv with
      | none => simpa [callEffect, hf] using hx
      | some cmd =>
        refine (mem_watchList_callEffect hf db).mpr ⟨.inl hx, fun hcw => hw ⟨hi, hcw.2, ?_⟩⟩
        have := write_proc cmd (mem_table hf) hcw.1
        simpa [callOf, hf] using this
    · exact mem_watchersAt.mpr ⟨db, by rw [hel, hdb], hx⟩
  · exact .inr (call_dirty hne hp h hx)

/-- WATCH puts its client into the key's list. -/
theorem call_watches (hne : NotExec s c argv) (h : processCommand query env s c argv = .ok s')
    (hw : WatchesKey x i k (callOf s c argv)) : Watching s' x i k := by
  obtain ⟨rfl, hi, hp, hk⟩ := hw
  obtain ⟨cmd, hf, hproc⟩ := Option.map_eq_some_iff.mp hp
  have hi : (s.client c).db = i := hi
  have hcw : cmd.write = false :=
    (by decide : ∀ cmd ∈ commandsTable, cmd.proc = .watch → cmd.write = false) _ (mem_table hf) hproc
  have hel := processCommand_getElem hne h i
  rw [if_pos hi] at hel
  obtain ⟨-, u, hu, -⟩ := (processCommand_found hf).mp h
  have hmem : ∀ db, c ∈ watchList (callEffect env s c argv db) k := fun db =>
    (mem_watchList_callEffect hf db).mpr ⟨.inr ⟨hproc, rfl, hk⟩, fun hb => by
      rw [hcw] at hb
      cases hb.1⟩
  obtain ⟨db, hdb⟩ : ∃ db, s.db[i]? = some db := by
    rcases executed_selected (hne cmd hf) hu with ⟨db, hdb⟩ | hid
    · have hdb := (getDb_ok.mp hdb).2
      exact ⟨db, by rwa [show ((logCall s c argv).client c).db = i from hi] at hdb⟩
    · have hnew := hmem dbInit
      rw [callEffect, hf] at hnew
      dsimp only at hnew
      rw [hid, watchList, dbInit, Finmap.lookup_empty] at hnew
      cases hnew
  exact .inl (mem_watchersAt.mpr ⟨callEffect env s c argv db, by rw [hel, hdb]; rfl, hmem db⟩)

/-- A call puts a client into a list only if it is a WATCH of that client. -/
theorem call_adds (hne : NotExec s c argv) (h : processCommand query env s c argv = .ok s')
    (hw : x ∈ watchersAt s' i k) : x ∈ watchersAt s i k ∨ WatchesKey x i k (callOf s c argv) := by
  obtain ⟨db', hdb', hmem⟩ := mem_watchersAt.mp hw
  rw [processCommand_getElem hne h i] at hdb'
  split at hdb'
  · rename_i hi
    obtain ⟨db, hdb, rfl⟩ := Option.map_eq_some_iff.mp hdb'
    cases hf : foundCommand s c argv with
    | none =>
      rw [callEffect, hf] at hmem
      exact .inl (mem_watchersAt.mpr ⟨db, hdb, hmem⟩)
    | some cmd =>
      obtain ⟨hold | ⟨hp, rfl, harg⟩, -⟩ := (mem_watchList_callEffect hf db).mp hmem
      · exact .inl (mem_watchersAt.mpr ⟨db, hdb, hold⟩)
      · refine .inr ⟨rfl, hi, ?_, harg⟩
        rw [callOf, hf, Option.map_some, hp]
  · exact .inl (mem_watchersAt.mpr ⟨db', hdb', hmem⟩)

/-! ## Runs -/

/-- What the server shows of a client's watch is what the history says. -/
def Watches (x : ClientId) (i : Nat) (k : Bytes) (s : RedisServer) (calls : List Call) : Prop :=
  Guarded (WatchesKey x i k) (WritesKey i k) (Watching s x i k)
    ((s.client x).flags.dirtyCas = true) calls

theorem small_watches {base new : List Call} (h : Small env c s s') (hs : s.calls = base ++ new)
    (hw : (∀ call ∈ new, Plain call) → ∀ x i k, Watches x i k s new) :
    ∃ new', s'.calls = base ++ new' ∧
      ((∀ call ∈ new', Plain call) → ∀ x i k, Watches x i k s' new') := by
  cases h with
  | client s f hf =>
    refine ⟨new, hs, fun hp x i k => (hw hp x i k).mono ?_ ?_⟩
    all_goals
      have hd := modifyClient_field s c f (·.flags.dirtyCas) (fun client => (hf client).2) x
    · rintro (hx | hx)
      · exact .inl hx
      · exact .inr (hd.trans hx)
    · exact fun hx => hd.trans hx
  | exec s argv h =>
    refine ⟨new ++ [callOf s c argv], by rw [logCall, hs, List.append_assoc], fun hp x i k => ?_⟩
    have hproc : (callOf s c argv).proc = some .exec := by
      obtain ⟨cmd, hf, he⟩ := exec_found h
      rw [callOf, hf, Option.map_some, he]
    refine (hw (fun call hc => hp call (List.mem_append_left _ hc)) x i k).concat id id ?_ ?_
    · rintro ⟨-, -, hw, -⟩
      rw [hproc] at hw
      cases hw
    · rintro - ⟨-, -, hw⟩
      rw [hproc] at hw
      simp at hw
  | command query s s' argv hne h =>
    refine ⟨new ++ [callOf s c argv], by rw [processCommand_calls hne h, hs, List.append_assoc],
      fun hp x i k => ?_⟩
    have hcall := hp (callOf s c argv) (by simp)
    exact (hw (fun call hc => hp call (List.mem_append_left _ hc)) x i k).concat
      (call_watching hne hcall h) (call_dirty hne hcall h) (call_watches hne h)
      fun hx hk => call_marks hne hcall h hk hx

theorem read_watches {base : List Call} {nread : Bytes} (h : readFromClient env s c nread = .ok s')
    (hs : ∃ new, s.calls = base ++ new ∧
      ((∀ call ∈ new, Plain call) → ∀ x i k, Watches x i k s new)) :
    ∃ new, s'.calls = base ++ new ∧
      ((∀ call ∈ new, Plain call) → ∀ x i k, Watches x i k s' new) := by
  refine read_invariant (I := fun t => ∃ new, t.calls = base ++ new ∧
    ((∀ call ∈ new, Plain call) → ∀ x i k, Watches x i k t new)) (fun hstep ht => ?_) h hs
  obtain ⟨new, e, hw⟩ := ht
  exact small_watches hstep e hw

/-! ## EXEC -/

theorem found_exec (hr : Request argv) (hn : strcaseeq (bytes "EXEC") (argv.headD []) = true) :
    foundCommand s c argv = some execEntry :=
  foundCommand_some hr.ne_nil (by decide) hn (by simp [isSupportedCmd, execEntry])

/-- EXEC is not queued. -/
theorem exec_not_queues (hn : strcaseeq (bytes "EXEC") (argv.headD []) = true) :
    ¬ Queues s c argv := by
  rintro ⟨-, hq⟩
  rw [strcaseeq, beq_iff_eq] at hn
  have h4 : ((cstr (argv.headD [])).take 4).map tolower = bytes "exec" := by
    rw [List.map_take, ← hn]
    decide
  have hx : ((cstr (bytes "exec")).take 4).map tolower = bytes "exec" := by decide
  rw [strncaseeq, h4, hx] at hq
  exact absurd hq (by decide)

/-- The bytes of a read do not decide which command they find. -/
theorem foundCommand_received (s : RedisServer) (c : ClientId) (nread : Bytes) (argv : List Bytes) :
    foundCommand (received s c nread) c argv = foundCommand s c argv := by
  cases argv with
  | nil => rfl
  | cons name args =>
    change lookupCommand (received s c nread) c name = lookupCommand s c name
    unfold lookupCommand isSupportedCmd
    rw [received, modifyClient_self]
    rfl

theorem callOf_received (s : RedisServer) (c : ClientId) (nread : Bytes) (argv : List Bytes) :
    callOf (received s c nread) c argv = callOf s c argv := by
  rw [callOf, foundCommand_received, received, modifyClient_self]
  rfl

/-- A read that brings an EXEC runs the handler. -/
theorem read_exec (hr : Request argv) (hn : strcaseeq (bytes "EXEC") (argv.headD []) = true)
    (hlen : (respEncodeArrayString argv).length < 1024) (hl : (s.client c).readBuf.len = 0) :
    readFromClient env s c (respEncodeArrayString argv) = .ok s' ↔
      ∃ t, commandExecProc (processClientQueryBuf env 11)
          (logCall (received s c (respEncodeArrayString argv)) c argv) c = .ok t ∧
        s' = clearReadBuf (clearReadBuf t c) c := by
  rw [read_request hr hlen hl]
  simp only [exec_not_queues hn, false_and, not_false_eq_true, true_and, false_or,
    processCommand_bare (found_exec hr hn) (.inl rfl)]
  constructor
  · rintro ⟨t, ⟨-, u, hu, rfl⟩, rfl⟩
    exact ⟨u, hu, rfl⟩
  · rintro ⟨u, hu, rfl⟩
    exact ⟨_, ⟨hr.ne_nil, u, hu, rfl⟩, rfl⟩

/-- EXEC of a failed transaction is refused: it returns, runs no command and
changes no database. -/
theorem exec_refused (hr : Request argv) (hn : strcaseeq (bytes "EXEC") (argv.headD []) = true)
    (hlen : (respEncodeArrayString argv).length < 1024) (hl : (s.client c).readBuf.len = 0)
    (hd : (s.client c).flags.dirtyCas = true) :
    ∃ s', readFromClient env s c (respEncodeArrayString argv) = .ok s' ∧ s'.db = s.db ∧
      s'.calls = s.calls ++ [callOf s c argv] ∧ (s'.client c).writeBuf.content =
        (s.client c).writeBuf.content ++ bulkString (bytes "err dirty") := by
  set s₀ := received s c (respEncodeArrayString argv) with hs₀
  have hd₀ : ((logCall s₀ c argv).client c).flags.dirtyCas = true := by
    rw [logCall, hs₀, received, modifyClient_self]
    exact hd
  have hexec : commandExecProc (processClientQueryBuf env 11) (logCall s₀ c argv) c =
      .ok (execFinish (execStart (logCall s₀ c argv) c) c (bytes "err dirty")) :=
    commandExecProc_ok.mpr (by rw [if_pos hd₀])
  refine ⟨_, (read_exec hr hn hlen hl).mpr ⟨_, hexec, rfl⟩, ?_, ?_, ?_⟩
  · rw [clearReadBuf_db, clearReadBuf_db]
    rfl
  · rw [← callOf_received s c (respEncodeArrayString argv) argv]
    rfl
  · have hstart : (execStart (logCall s₀ c argv) c).client c =
        { s₀.client c with flags := (s₀.client c).flags.andDirtyCas } := modifyClient_self _ _ _
    rw [writeBuf_clearReadBuf, writeBuf_clearReadBuf, execFinish, modifyClient_self]
    change ((addWrite (execStart (logCall s₀ c argv) c) c _).client c).writeBuf.content = _
    rw [addWrite_content, hstart]
    change (s₀.client c).writeBuf.content ++ _ = _
    rw [hs₀, writeBuf_received]
    rfl

end Fedis.Proof.Server
