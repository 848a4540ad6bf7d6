import Fedis.Proof.Machine.Requests
import Fedis.Proof.Server.Expired

/-!
# Every request is answered

Each handler but that of EXEC appends a complete value to its client's output
(`callProc_begins`), unless it is OBJECT with an unknown subcommand, which appends nothing, or
INFO with more lines than its buffer has room for. EXEC answers behind the requests of its
queue, which only append too (`query_extends`, `exec_ends`). So a request whose call returns is
answered unless it is one of the two (`query_answered`), and when a call returns is known
(`answered_iff`).
-/

namespace Fedis.Proof.Server

open Framework Resp

variable {query : RedisServer → ClientId → Except Fault RedisServer} {env : Env}
  {s s' t u : RedisServer} {c : ClientId} {argv : List Bytes} {cmd : RedisCommand} {proc : Proc}
  {str : Bytes} {depth : Nat}

/-! ## Values -/

/-- A complete value of the wire format: a line, a bulk string, an array of bulk strings. -/
inductive IsResp : Bytes → Prop
  | line (kind : UInt8) (text : Bytes) (hk : kind = 43 ∨ kind = 45)
      (ht : ∀ b ∈ text, b ≠ 13 ∧ b ≠ 10) : IsResp (kind :: text ++ crlf)
  | bulk (str : Bytes) : IsResp (bulkString str)
  | array (argv : List Bytes) (h : Request argv) : IsResp (respEncodeArrayString argv)

/-- The fixed replies. -/
def replies : List Bytes :=
  [resp.ok, resp.pong, resp.err, resp.keyNotFound, resp.bye, resp.invalidCommand, resp.fullsync,
    resp.appendsync, resp.dupkey, resp.valmissed]

theorem isResp_reply (h : str ∈ replies) : IsResp (cstr str) := by
  have hall : ∀ r ∈ replies, ∃ kind ∈ r.head?, (kind = 43 ∨ kind = 45) ∧
      (∀ b ∈ r.tail.take (r.length - 3), b ≠ 13 ∧ b ≠ 10) ∧
      cstr r = kind :: r.tail.take (r.length - 3) ++ crlf := by decide +kernel
  obtain ⟨kind, -, hk, ht, e⟩ := hall str h
  rw [e]
  exact .line kind _ hk ht

theorem IsResp.ne_nil (h : IsResp str) : str ≠ [] := by
  cases h <;> exact List.cons_ne_nil _ _

theorem IsResp.eq_of_prefix (hv : IsResp str) (hr : Request argv)
    (h : str <+: respEncodeArrayString argv) : str = respEncodeArrayString argv := by
  obtain ⟨out, e⟩ := h
  have hhead := congrArg List.head? e
  cases hv with
  | line kind text hk ht =>
    have hstar : kind = 42 := Option.some.inj hhead
    rw [hstar] at hk
    exact absurd hk (by decide)
  | bulk str => exact absurd (Option.some.inj hhead) (by decide)
  | array args hargs =>
    have hdec := respDecode_encode hargs out
    rw [e, ← List.append_nil (respEncodeArrayString argv), respDecode_encode hr []] at hdec
    cases hdec
    rfl

/-! ## Output -/

/-- The client's output only grows. -/
def Extends (s s' : RedisServer) (c : ClientId) : Prop :=
  ∃ out, (s'.client c).writeBuf.content = (s.client c).writeBuf.content ++ out

/-- What is appended begins with a complete value. -/
def Begins (s s' : RedisServer) (c : ClientId) : Prop :=
  ∃ v out, IsResp v ∧
    (s'.client c).writeBuf.content = (s.client c).writeBuf.content ++ (v ++ out)

/-- What is appended ends with a complete value. -/
def Ends (s s' : RedisServer) (c : ClientId) : Prop :=
  ∃ out v, IsResp v ∧
    (s'.client c).writeBuf.content = (s.client c).writeBuf.content ++ (out ++ v)

theorem Begins.extends (h : Begins s s' c) : Extends s s' c := by
  obtain ⟨v, out, -, e⟩ := h
  exact ⟨v ++ out, e⟩

theorem Ends.extends (h : Ends s s' c) : Extends s s' c := by
  obtain ⟨out, v, -, e⟩ := h
  exact ⟨out ++ v, e⟩

theorem extends_of_eq (h : (s'.client c).writeBuf = (s.client c).writeBuf) : Extends s s' c :=
  ⟨[], by rw [h, List.append_nil]⟩

theorem Extends.trans (h : Extends s t c) (h' : Extends t u c) : Extends s u c := by
  obtain ⟨out, e⟩ := h
  obtain ⟨out', e'⟩ := h'
  exact ⟨out ++ out', by rw [e', e, List.append_assoc]⟩

theorem Begins.trans (h : Begins s t c) (h' : Extends t u c) : Begins s u c := by
  obtain ⟨v, out, hv, e⟩ := h
  obtain ⟨out', e'⟩ := h'
  exact ⟨v, out ++ out', hv, by rw [e', e]; simp only [List.append_assoc]⟩

theorem Extends.ends (h : Extends s t c) (h' : Ends t u c) : Ends s u c := by
  obtain ⟨out, e⟩ := h
  obtain ⟨out', v, hv, e'⟩ := h'
  exact ⟨out ++ out', v, hv, by rw [e', e]; simp only [List.append_assoc]⟩

/-- The output buffer of the client that is answered is as it was before. -/
theorem Begins.of_eq (h : Begins t u c) (he : (t.client c).writeBuf = (s.client c).writeBuf) :
    Begins s u c := by
  rw [Begins, he] at h
  exact h

theorem begins_addWrite (h : IsResp (cstr str)) : Begins s (addWrite s c str) c :=
  ⟨_, [], h, by rw [addWrite_content, List.append_nil]⟩

theorem begins_reply (h : str ∈ replies) : Begins s (addWrite s c str) c :=
  begins_addWrite (isResp_reply h)

theorem begins_bulk (h : addWriteBulk s c str = .ok s') : Begins s s' c := by
  obtain ⟨-, rfl⟩ := addWriteBulk_ok.mp h
  refine begins_addWrite ?_
  rw [cstr_eq_self (bulkString_ne_zero cstr_ne_zero)]
  exact .bulk _

theorem queue_begins (h : queueCommand s c = .ok s') : Begins s s' c := by
  obtain ⟨cmd, -, rfl⟩ := queueCommand_ok.mp h
  refine ⟨bulkString (bytes "queued"), [], .bulk _, ?_⟩
  rw [writeBuf_clearReadBuf, addWrite_content, modifyClient_self, List.append_nil]
  have hz : cstr (bulkString (bytes "queued")) = bulkString (bytes "queued") := by decide
  rw [hz]

/-! ## Handlers -/

/-- The lines of INFO, as strings. -/
def infoLines (s : RedisServer) : List Bytes := (generateInfoRespContent s).map cstr

/-- The handler has a whole answer: OBJECT knows its subcommand, INFO has room for its lines. -/
def Replies (s : RedisServer) (proc : Proc) (argv : List Bytes) : Prop :=
  match proc with
  | .object => (argv[1]?.map (strcaseeq · (bytes "ENCODING"))).getD true = true
  | .info => FitsBuffer (infoLines s)
  | _ => True

theorem infoLines_short (s : RedisServer) : ∀ arg ∈ infoLines s, arg.length < 256 := by
  intro arg hm
  obtain ⟨line, hline, rfl⟩ := List.mem_map.mp hm
  obtain ⟨text, -, rfl⟩ := List.mem_map.mp hline
  refine Nat.lt_of_le_of_lt (List.takeWhile_prefix _).length_le ?_
  rw [List.length_take]
  omega

theorem infoLines_request (hn : s.clients.length < 2 ^ 31 - 2) : Request (infoLines s) where
  ne_nil := by simp [infoLines, generateInfoRespContent]
  argc := by
    have hle : (slaves s).length ≤ s.clients.length := List.length_filter_le _ _
    simp only [infoLines, generateInfoRespContent, List.length_map, List.length_append,
      List.length_cons, List.length_nil, List.length_mapIdx]
    omega
  cstr := by
    intro arg hm
    obtain ⟨line, -, rfl⟩ := List.mem_map.mp hm
    exact cstr_ne_zero
  len arg hm := Nat.lt_trans (infoLines_short s arg hm) (by decide)

/-- INFO replies with its lines, or with a beginning of them. -/
theorem commandInfoProc_begins (hn : s.clients.length < 2 ^ 31 - 2)
    (h : commandInfoProc s c = .ok s') : ∃ str, str <+: respEncodeArrayString (infoLines s) ∧
      (str = respEncodeArrayString (infoLines s) ↔ FitsBuffer (infoLines s)) ∧
      (s'.client c).writeBuf.content = (s.client c).writeBuf.content ++ str := by
  obtain ⟨-, str, henc, rfl⟩ := commandInfoProc_ok.mp h
  have hreq := infoLines_request hn
  rw [← encode_cstr] at henc
  obtain ⟨str', henc', hpre⟩ := encode_returns (infoLines_short s)
  cases henc.symm.trans henc'
  rw [argcLine_eq hreq.argc] at hpre
  refine ⟨str, hpre, ⟨?_, ?_⟩, ?_⟩
  · rintro rfl
    exact fits_of_encode hreq.argc hreq.cstr henc
  · intro hf
    exact Except.ok.inj (henc.symm.trans (encode_of_fits hreq.argc hreq.cstr hf))
  · rw [addWrite_content, cstr_eq_self fun b hb => encode_ne_zero _ b (hpre.subset hb)]

theorem connectMaster_of_ne (hm : s.master = none) (hx : env.connect ≠ some c) :
    (connectMaster env s).client c = s.client c := by
  unfold connectMaster
  split
  · rfl
  · rename_i fresh hf
    have hne : c ≠ fresh := fun e => hx (by rw [hf, e])
    simp [hm, hne]

theorem callProc_begins (hp : proc ≠ .exec) (hr : Replies s proc argv) (hx : Apart env proc c)
    (hn : proc = .info → s.clients.length < 2 ^ 31 - 2)
    (h : callProc query env proc s c argv = .ok s') : Begins s s' c := by
  cases proc with
  | exec => exact absurd rfl hp
  | set =>
    obtain ⟨key, -, ⟨-, rfl⟩ | ⟨value, db, -, -, rfl⟩⟩ := commandSetProc_ok.mp h
    · exact begins_reply (by decide)
    · exact (begins_reply (by decide)).of_eq rfl
  | get =>
    obtain ⟨key, db, -, -, ⟨-, rfl⟩ | ⟨res, -, hw⟩⟩ := commandGetProc_ok.mp h
    · exact begins_reply (by decide)
    · exact begins_bulk hw
  | del =>
    obtain ⟨key, db, -, -, rfl⟩ := commandDelProc_ok.mp h
    rw [afterDel]
    split <;> exact (begins_reply (by decide)).of_eq rfl
  | object =>
    obtain ⟨key, op, -, hop, h⟩ := commandObjectProc_ok.mp h
    have he : strcaseeq op (bytes "ENCODING") = true := by simpa [Replies, hop] using hr
    rw [if_pos he] at h
    obtain ⟨db, -, ⟨-, rfl⟩ | ⟨val, -, hw⟩⟩ := h
    · exact begins_reply (by decide)
    · exact begins_bulk hw
  | slaveof =>
    obtain ⟨arg, ip, port, rest, -, -, hm, rfl⟩ := commandSlaveofProc_ok.mp h
    have hrep : Begins s (addWrite { s with
        flags := { s.flags with master := false, slave := true }
        masterhost := ip, masterport := atoi port } c resp.ok) c :=
      (begins_reply (by decide)).of_eq rfl
    exact hrep.trans (extends_of_eq
      (congrArg RedisClient.writeBuf (connectMaster_of_ne hm (hx rfl))))
  | sync =>
    obtain ⟨arg, -, -, rfl⟩ := commandSyncProc_ok.mp h
    rw [afterSync]
    split
    · have hrep : Begins s (addWrite (s.modifyClient c fun client =>
          { client with replState := .masterSendAppendsync }) c resp.appendsync) c :=
        (begins_reply (by decide)).of_eq (by rw [modifyClient_self])
      refine hrep.trans ⟨s.backlog.read (atoi (cstr arg)).toNat, ?_⟩
      rw [addWriteBuf, modifyClient_self]
      exact content_sdscatlen _ _
    · exact (begins_reply (by decide)).of_eq (by rw [modifyClient_self])
  | select =>
    obtain ⟨arg, -, ⟨-, rfl⟩ | ⟨dbid, -, hw⟩⟩ := commandSelectProc_ok.mp h
    · exact begins_reply (by decide)
    · exact (begins_bulk hw).of_eq (by rw [modifyClient_self])
  | expire =>
    obtain ⟨key, arg, -, -, ⟨-, rfl⟩ | ⟨n, db, -, -, -, rfl⟩⟩ := commandExpireProc_ok.mp h
    · exact begins_reply (by decide)
    · rw [afterExpire]
      split <;> exact (begins_reply (by decide)).of_eq rfl
  | ttl =>
    obtain ⟨key, db0, -, -, ⟨-, rfl⟩ | ⟨db, -, -, -, hw⟩⟩ := commandTtlProc_ok.mp h
    · exact begins_reply (by decide)
    · exact begins_bulk hw
  | watch =>
    obtain ⟨u, hu, rfl⟩ := commandWatchProc_ok.mp h
    exact (begins_reply (by decide)).of_eq (by rw [watchKeys_client hu])
  | info =>
    obtain ⟨str, -, hfit, e⟩ := commandInfoProc_begins (hn rfl) h
    rw [hfit.mpr hr] at e
    exact ⟨_, [], .array _ (infoLines_request (hn rfl)), by rwa [List.append_nil]⟩
  | bye | ping | multi =>
    cases h
    exact (begins_reply (by decide)).of_eq (by rw [modifyClient_self])
  | replconf =>
    cases h
    have hrep : Begins s (addWrite s c resp.ok) c := begins_reply (by decide)
    refine hrep.trans (extends_of_eq ?_)
    rw [modifyClient_self]
  | replack | heartbeat =>
    cases h
    exact begins_reply (by decide)

/-- Without a whole answer something is appended, or nothing. -/
theorem callProc_extends (hp : proc ≠ .exec) (hx : Apart env proc c)
    (h : callProc query env proc s c argv = .ok s') : Extends s s' c := by
  by_cases hi : proc = .info
  · subst hi
    obtain ⟨-, str, -, rfl⟩ := commandInfoProc_ok.mp h
    exact ⟨cstr str, addWrite_content ..⟩
  · by_cases hr : Replies s proc argv
    · exact (callProc_begins hp hr hx (fun e => absurd e hi) h).extends
    · cases proc with
      | object =>
        obtain ⟨key, op, -, hop, h⟩ := commandObjectProc_ok.mp h
        rw [if_neg (fun he => hr (by simp [Replies, hop, he]))] at h
        rw [h]
        exact extends_of_eq rfl
      | info => exact absurd rfl hi
      | _ => exact absurd trivial hr

/-! ## Calls -/

section Exec

variable (hquery : ∀ {s s'}, query s c = .ok s' → Extends s s' c)
include hquery

theorem execLoop_extends {fuel i : Nat} (h : execLoop query c fuel i s = .ok t) :
    Extends s t c := by
  induction fuel generalizing i s with
  | zero => cases h
  | succ fuel ih =>
    obtain ⟨-, rfl⟩ | ⟨-, cmd, u, -, hu, h⟩ := execLoop_succ.mp h
    · exact extends_of_eq rfl
    · have hload : Extends s (execLoad s c i cmd) c := extends_of_eq (by
        rw [execLoad, modifyClient_self])
      have hclear : Extends u (clearSlot u c i) c := extends_of_eq (by
        rw [clearSlot, modifyClient_self])
      exact ((hload.trans (hquery hu)).trans hclear).trans (ih h)

/-- EXEC answers behind the requests of its queue. -/
theorem exec_ends (h : commandExecProc query s c = .ok s') : Ends s s' c := by
  have hfinish : ∀ t str, cstr (bulkString str) = bulkString str → Ends t (execFinish t c str) c :=
    fun t str hz => ⟨[], _, .bulk str, by
      rw [execFinish, modifyClient_self, List.nil_append]
      exact (addWrite_content t c (bulkString str)).trans (by rw [hz])⟩
  have hstart : Extends s (execStart s c) c := extends_of_eq (by rw [execStart, modifyClient_self])
  have h := commandExecProc_ok.mp h
  split at h
  · rw [h]
    exact hstart.ends (hfinish _ _ (by decide))
  · obtain ⟨t, ht, rfl⟩ := h
    exact (hstart.trans (execLoop_extends hquery ht)).ends (hfinish _ _ (by decide))

theorem handler_extends (hx : env.connect ≠ some c)
    (h : callProc query env proc s c argv = .ok s') : Extends s s' c := by
  by_cases hp : proc = .exec
  · subst hp
    exact (exec_ends hquery h).extends
  · exact callProc_extends hp (fun _ => hx) h

end Exec

/-- What stands around a handler does not touch its client's output. -/
theorem executed_output (h : executed query env s c cmd argv = .ok t) :
    ∃ s₁ s₂, callProc query env cmd.proc s₁ c argv = .ok s₂ ∧
      (s₁.client c).writeBuf = (s.client c).writeBuf ∧
      (t.client c).writeBuf = (s₂.client c).writeBuf ∧
      (cmd.read = false → cmd.write = false → s₁ = s) := by
  obtain ⟨s₁, h₁, h⟩ := bind_ok.mp h
  obtain ⟨s₂, h₂, h⟩ := bind_ok.mp h
  refine ⟨s₁, s₂, h₂, ?_, ?_, fun hr hw => ?_⟩
  · rw [expireArg_client h₁, feedAof_writeBuf]
  · split at h
    · exact touchWatchKey_field (·.writeBuf) (fun _ => rfl) h c
    · rw [pure_ok.mp h]
  · have h₁ := expireArg_ok.mp h₁
    rw [if_neg (by simp [hr, hw])] at h₁
    rw [h₁]
    simp [feedAof, hw]

theorem info_entry : ∀ cmd ∈ commandsTable, cmd.proc = .info →
    cmd.read = false ∧ cmd.write = false := by
  decide

section Call

variable (hx : env.connect ≠ some c)
include hx

theorem processCommand_extends (hquery : ∀ {s s'}, query s c = .ok s' → Extends s s' c)
    (h : processCommand query env s c argv = .ok s') : Extends s s' c := by
  have hlog : Extends s (logCall s c argv) c := extends_of_eq rfl
  have hclear : ∀ t, Extends t (clearReadBuf t c) c :=
    fun t => extends_of_eq (writeBuf_clearReadBuf t c c)
  obtain ⟨-, ⟨-, rfl⟩ | ⟨cmd, t, -, ht, rfl⟩⟩ := processCommand_ok.mp h
  · have hrep : Begins (logCall s c argv) (addWrite (logCall s c argv) c resp.invalidCommand) c :=
      begins_reply (by decide)
    exact (hlog.trans hrep.extends).trans (hclear _)
  · obtain ⟨s₁, s₂, h₂, e₁, e₂, -⟩ := executed_output ht
    have hrun := ((extends_of_eq e₁).trans (handler_extends hquery hx h₂)).trans (extends_of_eq e₂)
    exact ((hlog.trans hrun).trans (replicate_writeBuf t c c cmd)).trans (hclear _)

/-- A request, whatever it is, only appends to its client's output. -/
theorem query_extends (depth : Nat) : ∀ {s s'}, processClientQueryBuf env depth s c = .ok s' →
    Extends s s' c := by
  induction depth with
  | zero => exact fun h => by cases h
  | succ depth ih =>
    intro s s' h
    obtain ⟨-, rfl⟩ | ⟨argv, -, -, ⟨-, hq⟩ | ⟨-, hc⟩⟩ := processClientQueryBuf_ok.mp h
    · exact extends_of_eq rfl
    · exact (queue_begins hq).extends
    · exact processCommand_extends hx ih hc

end Call

/-- A handler with a whole answer gives it, whatever is around it. -/
theorem call_begins (hx : env.connect ≠ some c) (hcl : s.clients.length < 2 ^ 31 - 2)
    (hf : foundCommand s c argv = some cmd) (hp : cmd.proc ≠ .exec) (hr : Replies s cmd.proc argv)
    (h : processCommand query env s c argv = .ok s') : Begins s s' c := by
  obtain ⟨-, t, ht, rfl⟩ := (processCommand_found hf).mp h
  obtain ⟨s₁, s₂, h₂, e₁, e₂, hs⟩ := executed_output ht
  -- the lines of INFO are those of the server before the call
  have hinfo : cmd.proc = .info → s₁ = logCall s c argv := by
    intro hi
    obtain ⟨hread, hwrite⟩ := info_entry cmd (mem_table hf) hi
    exact hs hread hwrite
  have hr₁ : Replies s₁ cmd.proc argv := by
    by_cases hi : cmd.proc = .info
    · rw [hinfo hi]
      exact hr
    · cases hproc : cmd.proc with
      | info => exact absurd hproc hi
      | _ =>
        rw [hproc] at hr
        exact hr
  have hn : cmd.proc = .info → s₁.clients.length < 2 ^ 31 - 2 := by
    intro hi
    rw [hinfo hi]
    exact hcl
  have hrun : Begins (logCall s c argv) s₂ c :=
    (callProc_begins hp hr₁ (fun _ => hx) hn h₂).of_eq e₁
  have hcall : Begins s t c := (hrun.of_eq rfl).trans (extends_of_eq e₂)
  exact (hcall.trans (replicate_writeBuf t c c cmd)).trans
    (extends_of_eq (writeBuf_clearReadBuf _ c c))

/-! ## Requests -/

/-- The request is answered: with a complete value at once, or, EXEC, behind its queue. -/
def Answered (s s' : RedisServer) (c : ClientId) (argv : List Bytes) : Prop :=
  Begins s s' c ∨ ¬ NotExec s c argv ∧ Ends s s' c

/-- OBJECT with an unknown subcommand, and INFO on a master with more lines than its buffer
has room for. -/
def Silent (s : RedisServer) (c : ClientId) (argv : List Bytes) : Prop :=
  ¬ Queues s c argv ∧ ∃ cmd, foundCommand s c argv = some cmd ∧ ¬ Replies s cmd.proc argv ∧
    (cmd.proc = .object → ∃ db, s.getDb (s.client c).db = .ok db) ∧
    (cmd.proc = .info → s.flags.master = true)

/-- There is something to write. -/
theorem answered_len (h : Answered s s' c argv) : (s'.client c).writeBuf.len ≠ 0 := by
  have hne : (s'.client c).writeBuf.content ≠ [] := by
    obtain ⟨v, out, hv, e⟩ | ⟨-, out, v, hv, e⟩ := h
    · rw [e]
      simp [hv.ne_nil]
    · rw [e]
      simp [hv.ne_nil]
  intro hz
  apply hne
  rw [Sds.content, hz, readAt_zero]

theorem not_replies (h : ¬ Replies s proc argv) : (proc = .object ∧
    ∃ op, argv[1]? = some op ∧ strcaseeq op (bytes "ENCODING") = false) ∨
      (proc = .info ∧ ¬ FitsBuffer (infoLines s)) := by
  cases proc with
  | object =>
    cases hop : argv[1]? with
    | none => exact absurd (by simp [Replies, hop]) h
    | some op => exact .inl ⟨rfl, op, rfl, by simpa [Replies, hop] using h⟩
  | info => exact .inr ⟨rfl, h⟩
  | _ => exact absurd trivial h

theorem object_entry : ∀ cmd ∈ commandsTable, cmd.proc = .object →
    cmd.read = true ∧ cmd.write = false ∧ cmd.arity = 3 := by
  decide

/-- OBJECT with an unknown subcommand appends nothing. -/
theorem object_silent (query : RedisServer → ClientId → Except Fault RedisServer) (env : Env)
    (hf : foundCommand s c argv = some cmd) (hp : cmd.proc = .object)
    (hlen : cmd.arity ≤ argv.length) {op : Bytes} (hop : argv[1]? = some op)
    (he : strcaseeq op (bytes "ENCODING") = false) {db : RedisDb}
    (hdb : s.getDb (s.client c).db = .ok db) :
    ∃ s', processCommand query env s c argv = .ok s' ∧
      (s'.client c).writeBuf = (s.client c).writeBuf := by
  obtain ⟨hr, hw, ha⟩ := object_entry cmd (mem_table hf) hp
  obtain ⟨key, hk⟩ : ∃ key, argv[2]? = some key := ⟨_, List.getElem?_eq_getElem (by omega)⟩
  have hcall : commandObjectProc (looked env.now s c argv db) c argv =
      .ok (looked env.now s c argv db) :=
    commandObjectProc_ok.mpr ⟨key, op, hk, hop, by rw [he]; rfl⟩
  have hproc : callProc query env cmd.proc (looked env.now s c argv db) c argv =
      .ok (looked env.now s c argv db) := by
    rw [hp]
    exact hcall
  exact ⟨_, (processCommand_read hf hr hw hop hdb).mpr ⟨_, hproc, rfl⟩, writeBuf_clearReadBuf ..⟩

/-- INFO on a master appends a beginning of its lines. -/
theorem info_cut (query : RedisServer → ClientId → Except Fault RedisServer) (env : Env)
    (hf : foundCommand s c argv = some cmd) (hp : cmd.proc = .info)
    (hne : argv ≠ []) (hm : s.flags.master = true) (hcl : s.clients.length < 2 ^ 31 - 2) :
    ∃ s' str, processCommand query env s c argv = .ok s' ∧
      str <+: respEncodeArrayString (infoLines s) ∧
      (str = respEncodeArrayString (infoLines s) ↔ FitsBuffer (infoLines s)) ∧
      (s'.client c).writeBuf.content = (s.client c).writeBuf.content ++ str := by
  obtain ⟨hr, hw⟩ := info_entry cmd (mem_table hf) hp
  obtain ⟨t, ht⟩ := commandInfoProc_returns (s := logCall s c argv) (c := c) hm
  obtain ⟨str, hpre, hfit, e⟩ := commandInfoProc_begins (s := logCall s c argv) hcl ht
  have hrun : executed query env (logCall s c argv) c cmd argv = .ok t := by
    rw [executed_handler hr hw, hp]
    exact ht
  refine ⟨_, str, (processCommand_found hf).mpr ⟨hne, t, hrun, rfl⟩, hpre, hfit, ?_⟩
  rw [writeBuf_clearReadBuf, replicate_read hw]
  exact e

/-- A call without a whole answer that returns is a silent one. -/
theorem silent_of_call (hq : ¬ Queues s c argv) (hf : foundCommand s c argv = some cmd)
    (hr : ¬ Replies s cmd.proc argv) (h : processCommand query env s c argv = .ok s') :
    Silent s c argv := by
  obtain ⟨-, t, ht, -⟩ := (processCommand_found hf).mp h
  refine ⟨hq, cmd, hf, hr, fun hp => ?_, fun hp => ?_⟩
  · obtain ⟨hread, hwrite, -⟩ := object_entry cmd (mem_table hf) hp
    obtain ⟨s₁, hexp, -⟩ := bind_ok.mp ht
    have hfeed : feedAof (logCall s c argv) c cmd = logCall s c argv := by simp [feedAof, hwrite]
    have hexp := expireArg_ok.mp hexp
    rw [hfeed, if_pos (by simp [hread])] at hexp
    obtain ⟨-, db, -, hdb, -⟩ := hexp
    exact ⟨db, hdb⟩
  · obtain ⟨hread, hwrite⟩ := info_entry cmd (mem_table hf) hp
    rw [executed_handler hread hwrite, hp] at ht
    exact (commandInfoProc_ok.mp ht).1

theorem exec_entry : ∀ cmd ∈ commandsTable, cmd.proc = .exec →
    cmd.read = false ∧ cmd.write = false := by
  decide

/-- A request that is not queued and not silent is answered. -/
theorem processCommand_answered (hx : env.connect ≠ some c) (hcl : s.clients.length < 2 ^ 31 - 2)
    (hq : ¬ Queues s c argv) (hs : ¬ Silent s c argv)
    (hquery : ∀ {s s'}, query s c = .ok s' → Extends s s' c)
    (h : processCommand query env s c argv = .ok s') : Answered s s' c argv := by
  cases hf : foundCommand s c argv with
  | none =>
    obtain ⟨-, ⟨-, rfl⟩ | ⟨cmd, -, hcmd, -⟩⟩ := processCommand_ok.mp h
    · have hrep : Begins (logCall s c argv) (addWrite (logCall s c argv) c resp.invalidCommand) c :=
        begins_reply (by decide)
      exact .inl ((hrep.of_eq rfl).trans (extends_of_eq (writeBuf_clearReadBuf _ c c)))
    · cases hf.symm.trans hcmd
  | some cmd =>
    by_cases hp : cmd.proc = .exec
    · obtain ⟨hread, hwrite⟩ := exec_entry cmd (mem_table hf) hp
      obtain ⟨-, t, ht, rfl⟩ := (processCommand_found hf).mp h
      rw [executed_handler hread hwrite, hp] at ht
      obtain ⟨out, v, hv, e⟩ := exec_ends hquery ht
      refine .inr ⟨fun hn => (notExec_found hf).mp hn hp, out, v, hv, ?_⟩
      rw [writeBuf_clearReadBuf, replicate_read hwrite]
      exact e
    · have hr : Replies s cmd.proc argv := by
        by_contra hr
        exact hs (silent_of_call hq hf hr h)
      exact .inl (call_begins hx hcl hf hp hr h)

/-- A call that returns has answered, before there is an event to write for it, unless the request
is a silent one. -/
theorem query_answered (hdec : respDecode (sdsdump (s.client c).readBuf).buf = .ok argv)
    (harity : ∀ cmd, foundCommand s c argv = some cmd → cmd.arity ≤ argv.length)
    (hx : env.connect ≠ some c) (hcl : s.clients.length < 2 ^ 31 - 2) :
    (∀ s', processClientQueryBuf env (depth + 1) s c = .ok s' →
      Answered s s' c argv ∧ (s'.client c).writeBuf.len ≠ 0) ↔ ¬ Silent s c argv := by
  constructor
  · rintro hall ⟨hq, cmd, hf, hr, hdb, hm⟩
    have hne : argv ≠ [] := by
      rintro rfl
      cases hf
    have hproc : processClientQueryBuf env (depth + 1) s c =
        processCommand (processClientQueryBuf env depth) env s c argv :=
      processClientQueryBuf_calls hdec hne hq
    obtain ⟨hp, op, hop, he⟩ | ⟨hp, hfit⟩ := not_replies hr
    · obtain ⟨db, hdb⟩ := hdb hp
      obtain ⟨s', h, e⟩ := object_silent (processClientQueryBuf env depth) env hf hp (harity cmd hf) hop he hdb
      obtain ⟨v, out, hv, ev⟩ | ⟨hexec, -⟩ := (hall s' (hproc.trans h)).1
      · rw [e] at ev
        have hnil := List.self_eq_append_right.mp ev
        exact hv.ne_nil (List.append_eq_nil_iff.mp hnil).1
      · exact hexec ((notExec_found hf).mpr (by simp [hp]))
    · obtain ⟨s', str, h, hpre, hcut, e⟩ := info_cut (processClientQueryBuf env depth) env
        hf hp hne (hm hp) hcl
      obtain ⟨v, out, hv, ev⟩ | ⟨hexec, -⟩ := (hall s' (hproc.trans h)).1
      · rw [e] at ev
        have hstr : str = v ++ out := List.append_cancel_left ev
        have hvp : v <+: str := hstr ▸ List.prefix_append v out
        have hv := hv.eq_of_prefix (infoLines_request hcl) (hvp.trans hpre)
        rw [hv] at hvp
        exact hfit (hcut.mp (hpre.eq_of_length_le hvp.length_le))
      · exact hexec ((notExec_found hf).mpr (by simp [hp]))
  · intro hs s' h
    have hans : Answered s s' c argv := by
      obtain ⟨herr, -⟩ | ⟨argv', hdec', hne, ⟨-, hq⟩ | ⟨hq, hc⟩⟩ := processClientQueryBuf_ok.mp h
      · rw [hdec] at herr
        cases herr
      · exact .inl (queue_begins hq)
      · cases hdec.symm.trans hdec'
        exact processCommand_answered hx hcl hq hs (query_extends hx depth) hc
    exact ⟨hans, answered_len hans⟩

/-- A client whose request has been read. -/
def sampleQuery (argv : List Bytes) : Machine :=
  initMachine ((sampleServer false).modifyClient 7 fun client =>
    { client with readBuf := sdscat client.readBuf (respEncodeArrayString argv) })

end Fedis.Proof.Server
