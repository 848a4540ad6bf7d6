import Fedis.Impl.Aof
import Fedis.Proof.Parse
import Fedis.Proof.Server.Replicate
import Fedis.Proof.Server.Strings

/-!
# Replaying a log

`write_returns` and `executed_suits` say when a write command returns. `handTo_ok` is
one command of the fake client, and `hands_ok` the whole log: each logged command runs, in order,
on the first database.
-/

namespace Fedis.Proof.Server

open Framework Resp

variable {query : RedisServer → ClientId → Except Fault RedisServer} {env : Env}
  {s s' t : RedisServer} {c fkc : ClientId} {argv : List Bytes} {cmd : RedisCommand} {db : RedisDb}

/-! ## Commands that return -/

/-- The arguments that a write command cannot do without. -/
structure Suits (now : Int) (cmd : RedisCommand) (argv : List Bytes) : Prop where
  key : argv[1]? ≠ none
  deadline : cmd.proc = .expire →
    ∃ arg, argv[2]? = some arg ∧ ∀ n, string2long arg = some n → inLong (n + now)

theorem executed_suits (hw : cmd.write = true) (h : executed query env s c cmd argv = .ok t) :
    Suits env.now cmd argv := by
  obtain ⟨key, -, hk, -⟩ := executed_getDb h (by simp [hw])
  refine ⟨by simp [hk], fun hp => ?_⟩
  obtain ⟨s₁, -, h⟩ := bind_ok.mp h
  obtain ⟨s₂, h₂, -⟩ := bind_ok.mp h
  rw [hp] at h₂
  obtain ⟨_, arg, -, ha, h₂⟩ := commandExpireProc_ok.mp h₂
  refine ⟨arg, ha, fun n hn => ?_⟩
  obtain ⟨hnone, -⟩ | ⟨n', _, hn', hin, -⟩ := h₂
  · rw [hn] at hnone
    cases hnone
  · rwa [Option.some.inj (hn.symm.trans hn')]

theorem callProc_write_returns (hc : cmd ∈ commandsTable) (hw : cmd.write = true)
    (ha : Suits env.now cmd argv) (hdb : s.getDb (s.client c).db = .ok db) :
    ∃ t, callProc query env cmd.proc s c argv = .ok t := by
  obtain ⟨key, hk⟩ := Option.ne_none_iff_exists'.mp ha.key
  rcases write_proc cmd hc hw with hp | hp | hp
  · rw [hp]
    by_cases hl : argv.length = 2
    · exact ⟨_, commandSetProc_ok.mpr ⟨key, hk, .inl ⟨hl, rfl⟩⟩⟩
    · have hlt : 2 < argv.length := by
        have := (List.getElem?_eq_some_iff.mp hk).1
        omega
      exact ⟨_, commandSetProc_ok.mpr
        ⟨key, hk, .inr ⟨_, db, List.getElem?_eq_getElem hlt, hdb, rfl⟩⟩⟩
  · rw [hp]
    exact ⟨_, commandDelProc_ok.mpr ⟨key, db, hk, hdb, rfl⟩⟩
  · rw [hp]
    obtain ⟨arg, harg, hin⟩ := ha.deadline hp
    cases hn : string2long arg with
    | none => exact ⟨_, commandExpireProc_ok.mpr ⟨key, arg, hk, harg, .inl ⟨hn, rfl⟩⟩⟩
    | some n =>
      exact ⟨_, commandExpireProc_ok.mpr ⟨key, arg, hk, harg, .inr ⟨n, db, hn, hin n hn, hdb, rfl⟩⟩⟩

theorem write_returns (hc : cmd ∈ commandsTable) (hw : cmd.write = true)
    (ha : Suits env.now cmd argv) (hdb : s.getDb (s.client c).db = .ok db) :
    ∃ t, executed query env s c cmd argv = .ok t := by
  obtain ⟨key, hk⟩ := Option.ne_none_iff_exists'.mp ha.key
  obtain ⟨hexec, hslave, -⟩ := write_plain cmd hc hw
  have hsel : ((feedAof s c cmd).client c).db = (s.client c).db := core_db feedAof_core
  have hdb₀ : (feedAof s c cmd).getDb ((feedAof s c cmd).client c).db = .ok db := by
    rw [hsel, ← hdb]
    simp only [RedisServer.getDb, feedAof_db]
  set s₁ := (feedAof s c cmd).setDb ((feedAof s c cmd).client c).db
    (expireIfNeed db (cstr key) env.now) with hs₁
  have h₁ : expireArg env (feedAof s c cmd) c cmd argv = .ok s₁ := by
    rw [expireArg_ok, if_pos (by simp [hw])]
    exact ⟨key, db, hk, hdb₀, rfl⟩
  have hdb₁ : s₁.getDb (s₁.client c).db = .ok (expireIfNeed db (cstr key) env.now) := getDb_setDb hdb₀ _
  obtain ⟨s₂, h₂⟩ : ∃ s₂, callProc query env cmd.proc s₁ c argv = .ok s₂ :=
    callProc_write_returns hc hw ha hdb₁
  have hf := callProc_frame hexec h₂
  have hsel₂ : (s₂.client c).db = (s₁.client c).db := by
    have := core_db (hf.core fun e => absurd e hslave)
    rwa [write_client hc hw] at this
  have hdb₂ : s₂.getDb (s₂.client c).db =
      .ok (dbEffect env.now cmd.proc c argv (expireIfNeed db (cstr key) env.now)) := by
    obtain ⟨hpos, hget⟩ := getDb_ok.mp hdb₁
    refine getDb_ok.mpr ⟨by rwa [hsel₂], ?_⟩
    rw [callProc_db hexec h₂, hsel₂, List.getElem?_modify, hget]
    simp
  have h₃ := touchWatchKey_ok.mpr ⟨key, _, hk, hdb₂, rfl⟩
  exact ⟨_, bind_ok.mpr ⟨s₁, h₁, bind_ok.mpr ⟨s₂, h₂, by rw [if_pos hw]; exact h₃⟩⟩⟩

/-! ## The fake client -/

/-- The command of this name. -/
def entryOf (argv : List Bytes) : Option RedisCommand :=
  commandsTable.find? fun cmd => strcaseeq cmd.name (argv.headD [])

theorem entryOf_name (h : entryOf argv = some cmd) : strcaseeq cmd.name (argv.headD []) = true := by
  have := List.find?_some h
  exact this

theorem entryOf_found (h : foundCommand s c argv = some cmd) : entryOf argv = some cmd := by
  have hn := foundCommand_name h
  cases he : entryOf argv with
  | none => exact absurd hn (List.find?_eq_none.mp he cmd (mem_table h))
  | some entry => rw [foundCommand_eq h (List.mem_of_find?_eq_some he) (entryOf_name he)]

/-- A client that is no normal one finds every command. -/
theorem foundCommand_entryOf (hn : (s.client c).flags.normal = false)
    (h : entryOf argv = some cmd) (hne : argv ≠ []) : foundCommand s c argv = some cmd :=
  foundCommand_some hne (List.mem_of_find?_eq_some h) (entryOf_name h)
    (by simp [isSupportedCmd, hn])

/-- A fake client between two commands. -/
structure FakeReady (s : RedisServer) (fkc : ClientId) : Prop where
  normal : (s.client fkc).flags.normal = false
  multi : (s.client fkc).flags.multi = false
  db : (s.client fkc).db = 0
  readBuf : (s.client fkc).readBuf.len = 0

/-- A logged command that can be replayed at this time. -/
structure Replayable (now : Int) (argv : List Bytes) : Prop where
  request : Request argv
  entry : ∃ cmd, entryOf argv = some cmd ∧ cmd.write = true ∧ Suits now cmd argv

/-- What the replay of a command does to the first database. -/
def replayed (now : Int) (fkc : ClientId) (db : RedisDb) (argv : List Bytes) : RedisDb :=
  match entryOf argv with
  | none => db
  | some cmd => cmdEffect now cmd fkc argv db

/-- The command goes into the fake client's read buffer. -/
def fed (s : RedisServer) (fkc : ClientId) (argv : List Bytes) : RedisServer :=
  s.modifyClient fkc fun client =>
    { client with readBuf := sdscatlen client.readBuf (respEncodeArrayString argv) }

/-- What the loop does with a request: it is handed to `processCommand`. -/
def handTo (env : Env) (fkc : ClientId) (s : RedisServer) (argv : List Bytes) :
    Except Fault RedisServer :=
  processCommand (processClientQueryBuf env 11) env (fed s fkc argv) fkc argv

theorem fed_core (s : RedisServer) (fkc : ClientId) (argv : List Bytes) :
    core ((fed s fkc argv).client fkc) = core (s.client fkc) := by
  rw [fed, modifyClient_self]
  rfl

theorem query_hands (hf : FakeReady s fkc) (hr : Request argv) :
    processClientQueryBuf env execDepth (fed s fkc argv) fkc = handTo env fkc s argv := by
  have hdec : respDecode (sdsdump ((fed s fkc argv).client fkc).readBuf).buf = .ok argv := by
    refine respDecode_dump (t := []) hr ?_
    rw [fed, modifyClient_self]
    dsimp only
    rw [content_sdscatlen, content_of_len hf.readBuf, List.nil_append, List.append_nil]
  obtain ⟨name, hname⟩ : ∃ name, argv[0]? = some name :=
    ⟨_, List.getElem?_eq_getElem (List.length_pos_of_ne_nil hr.ne_nil)⟩
  have hmulti : ((fed s fkc argv).client fkc).flags.multi = false := by
    rw [core_flags (fed_core ..), hf.multi]
  show processClientQueryBuf env (11 + 1) _ _ = _
  rw [processClientQueryBuf, hdec]
  dsimp only
  rw [argAt_ok.mpr hname, ok_bind, hmulti]
  rfl

section Hand

variable (hf : FakeReady s fkc) (he : entryOf argv = some cmd) (hne : argv ≠ [])
include hf he hne

theorem fed_found : foundCommand (fed s fkc argv) fkc argv = some cmd :=
  foundCommand_entryOf (by rw [core_flags (fed_core ..), hf.normal]) he hne

variable (hw : cmd.write = true)
include hw

theorem fed_notExec : NotExec (fed s fkc argv) fkc argv :=
  (notExec_found (fed_found hf he hne)).mpr (write_plain cmd (List.mem_of_find?_eq_some he) hw).1

/-- A write may mark the fake client, and leaves it as it is otherwise. -/
theorem handTo_client (h : handTo env fkc s argv = .ok t) :
    (∃ d, (t.client fkc).flags = { (s.client fkc).flags with dirtyCas := d }) ∧
      (t.client fkc).db = (s.client fkc).db := by
  have hafter := processCommand_core (x := fkc) (fed_notExec hf he hne hw) h fun cmd' h' e => by
    rw [fed_found hf he hne] at h'
    cases h'
    exact absurd e (write_plain cmd (List.mem_of_find?_eq_some he) hw).2.1
  rw [core_flags hafter, core_db hafter, ← core_flags (fed_core s fkc argv),
    ← core_db (fed_core s fkc argv)]
  simp only [clientAfter, fed_found hf he hne, hw, if_true]
  split
  · exact ⟨⟨true, rfl⟩, rfl⟩
  · exact ⟨⟨_, rfl⟩, rfl⟩

/-- A write leaves the fake client ready for the next one. -/
theorem handTo_ready (h : handTo env fkc s argv = .ok t) : FakeReady t fkc := by
  obtain ⟨⟨d, hflags⟩, hdb⟩ := handTo_client hf he hne hw h
  refine ⟨?_, ?_, hdb.trans hf.db, processCommand_readBuf h⟩
  · rw [hflags]
    exact hf.normal
  · rw [hflags]
    exact hf.multi

end Hand

theorem handTo_ok (hf : FakeReady s fkc) (ha : Replayable env.now argv) (hdb : s.db[0]? = some db) :
    ∃ t, handTo env fkc s argv = .ok t ∧ FakeReady t fkc ∧
      t.db = s.db.modify 0 fun db => replayed env.now fkc db argv := by
  obtain ⟨cmd, he, hw, hsuits⟩ := ha.entry
  have hne := ha.request.ne_nil
  have hsel : ((fed s fkc argv).client fkc).db = 0 := (core_db (fed_core ..)).trans hf.db
  have hget : (fed s fkc argv).getDb ((fed s fkc argv).client fkc).db = .ok db := by
    rw [hsel]
    exact getDb_zero hdb
  obtain ⟨t, ht⟩ : ∃ t, executed (processClientQueryBuf env 11) env (logCall (fed s fkc argv) fkc argv)
      fkc cmd argv = .ok t := write_returns (List.mem_of_find?_eq_some he) hw hsuits hget
  have hproc : handTo env fkc s argv = .ok (clearReadBuf (replicate t fkc cmd) fkc) :=
    processCommand_ok.mpr ⟨hne, .inr ⟨cmd, t, fed_found hf he hne, ht, rfl⟩⟩
  refine ⟨_, hproc, handTo_ready hf he hne hw hproc, ?_⟩
  rw [processCommand_db (fed_notExec hf he hne hw) hproc, hsel]
  congr 1
  funext db
  simp [callEffect, fed_found hf he hne, replayed, he]

/-! ## The log -/

theorem holds_reads (reads : List Bytes) {ss : Sds} {w : Bytes} (h : Holds ss w) :
    Holds (reads.foldl sdscatlen ss) (w ++ reads.flatten) := by
  induction reads generalizing ss w with
  | nil => rwa [List.flatten_nil, List.append_nil]
  | cons r reads ih =>
    rw [List.foldl_cons, List.flatten_cons, ← List.append_assoc]
    exact ih (holds_sdscatlen h r)

theorem length_le_log (log : List (List Bytes)) :
    log.length ≤ (log.flatMap respEncodeArrayString).length := by
  induction log with
  | nil => exact Nat.le_refl 0
  | cons argv log ih =>
    have := List.length_pos_of_ne_nil (encode_ne_nil argv)
    rw [List.flatMap_cons, List.length_append, List.length_cons]
    omega

/-- A request that the AOF can hold: a write command, whatever its arguments. -/
structure Logged (argv : List Bytes) : Prop where
  request : Request argv
  entry : ∃ cmd, entryOf argv = some cmd ∧ cmd.write = true

theorem Replayable.logged {now : Int} (h : Replayable now argv) : Logged argv :=
  have ⟨cmd, he, hw, _⟩ := h.entry
  ⟨h.request, cmd, he, hw⟩

/-- What may stand behind a log: nothing that is complete. -/
def Partial (t : Bytes) : Prop := ∀ m, t <+: m → respParse m t.length = .ok none

theorem partial_nil : Partial [] := fun _ _ => rfl

theorem partial_request (hr : Request argv) {t : Bytes} (ht : t <+: respEncodeArrayString argv)
    (hlt : t.length < (respEncodeArrayString argv).length) : Partial t := by
  rw [← encodeRequest_eq hr.cstr] at ht hlt
  intro m hm
  rw [respParse_request hr.ne_nil hr.argc (fun s hs => (hr.len s hs).trans (by decide))
    (ht.trans (List.prefix_append _ [])) hm, if_neg (by omega)]

/-- What a loop over complete values does with a request in front of its buffer. -/
theorem request_front (hr : Request argv) {sbuf : Sds} {w : Bytes}
    (hbuf : Holds sbuf (respEncodeArrayString argv ++ w)) :
    ∃ endptr : Nat, respParse sbuf.buf sbuf.len = .ok (some endptr) ∧
      endptr + 1 = (respEncodeArrayString argv).length ∧
      sbuf.buf.take (endptr + 1) = respEncodeArrayString argv ∧
      sdsrange sbuf ((endptr : Int) + 1) (sbuf.len - 1) = some (sdsTail sbuf (endptr + 1)) ∧
      Holds (sdsTail sbuf (endptr + 1)) w := by
  have henc : encodeRequest argv = respEncodeArrayString argv := encodeRequest_eq hr.cstr
  have hpos := List.length_pos_of_ne_nil (encode_ne_nil argv)
  have hlen := hbuf.len
  rw [List.length_append] at hlen
  obtain ⟨stale, hstale⟩ := hbuf.buf
  rw [List.append_assoc] at hstale
  have hend : (respEncodeArrayString argv).length - 1 + 1 = (respEncodeArrayString argv).length := by
    omega
  refine ⟨(respEncodeArrayString argv).length - 1, ?_, hend, ?_, ?_, ?_⟩
  · have := respParse_request (t := w) (m := sbuf.buf) hr.ne_nil hr.argc
      (fun s hs => (hr.len s hs).trans (by decide)) (List.prefix_refl _)
      ⟨stale, by rw [henc, List.append_assoc]; exact hstale⟩
    rw [henc, List.length_append, if_pos (by omega)] at this
    rwa [hlen]
  · rw [hend, ← hstale, List.take_left]
  · have := sdsrange_tail sbuf ((respEncodeArrayString argv).length - 1 + 1)
    rw [if_pos (by omega)] at this
    rw [← this]
    congr 1
  · have := holds_sdsTail hbuf ((respEncodeArrayString argv).length - 1 + 1)
    rwa [hend, List.drop_left] at this

theorem hands_ok {log : List (List Bytes)} (hlog : ∀ argv ∈ log, Replayable env.now argv)
    (hf : FakeReady s fkc) (hdb : log ≠ [] → ∃ db, s.db[0]? = some db) :
    ∃ t, log.foldlM (handTo env fkc) s = .ok t ∧
      t.db = s.db.modify 0 fun db => log.foldl (replayed env.now fkc) db := by
  induction log generalizing s with
  | nil => exact ⟨s, rfl, (modify_id _ _ fun _ => rfl).symm⟩
  | cons argv log ih =>
    obtain ⟨db, hdb⟩ := hdb (List.cons_ne_nil _ _)
    obtain ⟨u, hu, hfu, hdbu⟩ := handTo_ok hf (hlog argv List.mem_cons_self) hdb
    obtain ⟨t, ht, hdbt⟩ := ih (fun a h => hlog a (List.mem_cons_of_mem _ h)) hfu fun _ => by
      rw [hdbu, List.getElem?_modify, hdb]
      exact ⟨_, rfl⟩
    refine ⟨t, ?_, ?_⟩
    · rw [List.foldlM_cons, hu]
      exact ht
    · rw [hdbt, hdbu, List.modify_modify_eq]
      rfl

end Fedis.Proof.Server
