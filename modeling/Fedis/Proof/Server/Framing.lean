import Fedis.Proof.Framing
import Fedis.Proof.Machine.Step
import Fedis.Proof.Server.Queue
import Fedis.Proof.Server.Reads

/-!
# Requests and reads

`readFromClient` hands over the request at the start of a read (`decodings`).

* `handed_of_framed`: the requests of the client's stream are handed over if it is cut at
  their starts (`Framed`), whatever an earlier read has left in the buffer's memory;
* `read_clean`, `cut_of_handed`: a client without log and transaction keeps a buffer
  of zeros, so that each read is decoded for itself;
* `framing`: such a client's requests are handed over only if the stream is cut so.
-/

namespace Fedis.Proof.Server

open Framework Resp

variable {query : RedisServer → ClientId → Except Fault RedisServer} {env : Env}
  {s s' t : RedisServer} {c : ClientId} {argv q : List Bytes} {qs : List (List Bytes)}
  {cmd : RedisCommand}

/-! ## What the reads hand over -/

/-- What `resp_decode` gives, read by read. -/
def decodings (slack : Nat) : Machine → List MachineEvent → List Decoded
  | _, [] => []
  | m, e :: es =>
    (match e with
      | .read r => [Machine.decode slack (sdscat (m.server.client r.client).readBuf r.nread)]
      | .send .. => []) ++
    match machineStep slack m e with
    | some (_, m') => decodings slack m' es
    | none => []

/-- The requests that go to `processCommand` or to the queue. -/
def handed (ds : List Decoded) : List (List Bytes) :=
  ds.filterMap fun d => match d with
    | .ok q => some q
    | _ => none

/-- What the memory behind a read, or a part of it, can make of it. -/
def DecodesAs (d : Decoded) (r : Read) (t : Bytes) : Prop :=
  d ≠ .undef ∧ d = respDecode (cstr r.nread ++ t)

theorem readFromClient_len {nread : Bytes} (hne : nread ≠ [])
    (h : readFromClient env s c nread = .ok s') : (s'.client c).readBuf.len = 0 := by
  obtain ⟨hn, -⟩ | ⟨-, -, t, -, rfl⟩ := readFromClient_ok.mp h
  · exact absurd hn hne
  · exact clearReadBuf_len

section Runs

variable {m m' : Machine} {slack : Nat} {r : Read} {events : List MachineEvent} {us : List Unit}
  {ds : List Decoded} {u : Unit}

/-- A read that returns has decoded what it has received. -/
theorem read_decodes (hne : r.nread ≠ []) (h : machineStep slack m (.read r) = some (u, m')) :
    Machine.decode slack (sdscat (m.server.client r.client).readBuf r.nread) ≠ .undef := by
  intro hd
  have h := Machine.machineStep_read.mp h
  rw [Fedis.Machine.readFromClient, if_neg hne] at h
  split at h
  · cases h
  obtain ⟨m₁, h₁, h₂⟩ := bind_ok.mp h
  obtain ⟨m₂, h₃, -⟩ := bind_ok.mp h₂
  obtain ⟨-, rfl⟩ := Machine.next_ok.mp h₁
  rw [execDepth, Fedis.Machine.processClientQueryBuf, modifyClient_self, hd] at h₃
  cases h₃

/-- Where the buffer was empty, the read and what stands behind it are decoded. -/
theorem decodesAs_read (hne : r.nread ≠ [])
    (h : machineStep slack m (.read r) = some (u, m')) {t : Bytes}
    (ht : (sdsdump (sdscat (m.server.client r.client).readBuf r.nread)).buf = cstr r.nread ++ t) :
    DecodesAs (Machine.decode slack (sdscat (m.server.client r.client).readBuf r.nread)) r t := by
  have hd := read_decodes hne h
  exact ⟨hd, by rw [← ht, Machine.decode_defined hd]⟩

theorem dump_received {ss : Sds} (hl : ss.len = 0) (nread : Bytes) :
    ∃ t, (sdsdump (sdscat ss nread)).buf = cstr nread ++ t := by
  obtain ⟨t, ht⟩ := sdsdump_buf (sdscat ss nread)
  exact ⟨t, by rw [ht, content_sdscat, content_of_len hl, List.nil_append]⟩

/-- What a client is sent leaves its read buffer alone. -/
theorem send_readBuf {nwritten : Int} {file : Bytes} {w : RdbWrites} {x : ClientId}
    (h : machineStep slack m (.send x nwritten file w) = some (u, m')) (c : ClientId) :
    (m'.server.client c).readBuf = (m.server.client c).readBuf := by
  obtain ⟨-, rfl⟩ := Machine.machineStep_send.mp h
  obtain ⟨f, e, hf⟩ := Machine.send_client m.server x nwritten file w
  dsimp only
  rw [e]
  refine modifyClient_field m.server x f (·.readBuf) (fun client => ?_) c
  obtain ⟨_, _, _, e⟩ := hf client
  rw [e]

theorem decodings_read (h : machineStep slack m (.read r) = some (u, m')) :
    decodings slack m (.read r :: events) =
      Machine.decode slack (sdscat (m.server.client r.client).readBuf r.nread) ::
        decodings slack m' events := by
  rw [decodings, h]
  rfl

theorem decodings_send {nwritten : Int} {file : Bytes} {w : RdbWrites} {x : ClientId}
    (h : machineStep slack m (.send x nwritten file w) = some (u, m')) :
    decodings slack m (.send x nwritten file w :: events) = decodings slack m' events := by
  rw [decodings, h]
  rfl

/-- In a run of a client's reads, each is decoded with what stands behind it. -/
theorem run_decodings (hl : (m.server.client c).readBuf.len = 0)
    (hr : ∀ r ∈ Machine.readsOf events, r.client = c ∧ r.nread ≠ [])
    (hrun : run (machineStep slack) m events = some (us, m')) :
    List.Forall₂ (fun d r => ∃ t, DecodesAs d r t) (decodings slack m events) (Machine.readsOf events) := by
  induction events generalizing m us with
  | nil => exact .nil
  | cons e es ih =>
    obtain ⟨u, m₁, us', h₁, h₂, -⟩ := run_cons_eq_some.mp hrun
    cases e with
    | read r =>
      obtain ⟨rfl, hne⟩ := hr r List.mem_cons_self
      obtain ⟨t, ht⟩ := dump_received hl r.nread
      rw [decodings_read h₁]
      refine .cons ⟨t, decodesAs_read hne h₁ ht⟩ (ih ?_ (fun x hx => hr x ?_) h₂)
      · exact readFromClient_len hne (Machine.read_server (Machine.machineStep_read.mp h₁))
      · exact List.mem_cons_of_mem _ hx
    | send x nwritten file w =>
      rw [decodings_send h₁]
      exact ih (by rw [send_readBuf h₁]; exact hl) hr h₂

/-! ## A stream cut at the starts of its requests -/

/-- What is left of a request's last line end is passed over. -/
theorem handed_pieces {pieces rest : List Read} (hb : ∀ r ∈ pieces, r.nread ≠ [] ∧
      ∀ b ∈ r.nread, b ≠ 0 ∧ b ≠ 42)
    (h : List.Forall₂ (fun d r => ∃ t, DecodesAs d r t) ds (pieces ++ rest)) :
    ∃ ds', List.Forall₂ (fun d r => ∃ t, DecodesAs d r t) ds' rest ∧ handed ds = handed ds' := by
  induction pieces generalizing ds with
  | nil => exact ⟨ds, h, rfl⟩
  | cons r rs ih =>
    cases h with
    | @cons d _ ds' _ hd h =>
      obtain ⟨t, -, hd⟩ := hd
      obtain ⟨hne, hbr⟩ := hb r List.mem_cons_self
      have hz : cstr r.nread = r.nread := cstr_eq_self fun b hm => (hbr b hm).1
      obtain ⟨b, w, hw⟩ := List.exists_cons_of_ne_nil hne
      have herr : d = .err := by
        rw [hd, hz, hw]
        exact decode_other (hbr b (by rw [hw]; exact List.mem_cons_self)).2 _
      obtain ⟨ds'', h', e⟩ := ih (fun x hx => hb x (List.mem_cons_of_mem _ hx)) h
      exact ⟨ds'', h', by rw [herr]; exact e⟩

theorem handed_of_framed {chunks : List Bytes} (hf : Framed qs chunks) (hq : ∀ q ∈ qs, q ≠ [])
    {reads : List Read} (hr : reads.map (·.nread) = chunks) (hne : ∀ r ∈ reads, r.nread ≠ [])
    (h : List.Forall₂ (fun d r => ∃ t, DecodesAs d r t) ds reads) : handed ds = qs := by
  induction hf generalizing reads ds with
  | nil =>
    obtain rfl := List.map_eq_nil_iff.mp hr
    cases h
    rfl
  | request q qs first pieces rest hz hbytes hall hfit _ ih =>
    obtain ⟨r, rs, rfl, rfl, hrs⟩ := List.map_eq_cons_iff.mp hr
    obtain ⟨ps, rs, rfl, rfl, hrest⟩ := List.map_eq_append_iff.mp hrs
    have hqne := hq q List.mem_cons_self
    have hnz : ∀ b ∈ encodeRequest q, b ≠ 0 := by
      rw [encodeRequest_eq hz]
      exact encode_ne_zero q
    have hcstr : cstr r.nread = r.nread :=
      cstr_eq_self fun b hb => hnz b (by rw [← hbytes]; exact List.mem_append_left _ hb)
    have hsizes : Request q := by
      refine request_of_fits hqne hz ?_
      rw [← encodeRequest_eq hz]
      omega
    have hsmall : ∀ x ∈ ps, ∀ b ∈ x.nread, b ≠ 0 ∧ b ≠ 42 := by
      have hlen := congrArg List.length hbytes
      rw [List.length_append] at hlen
      have hl : ∀ b ∈ (ps.map (·.nread)).flatten, b ≠ 0 ∧ b ≠ 42 := by
        rcases encodeRequest_end hqne hbytes (by omega) with e | e | e <;> rw [e] <;> decide +kernel
      intro x hx
      have hsub : x.nread.Sublist (ps.map (·.nread)).flatten :=
        List.sublist_flatten_of_mem (List.mem_map.mpr ⟨x, hx, rfl⟩)
      exact fun b hb => hl b (hsub.subset hb)
    cases h with
    | @cons d _ ds _ hd h =>
      obtain ⟨t, -, hd⟩ := hd
      rw [hcstr, decode_first hsizes ⟨_, hbytes⟩ hall t] at hd
      obtain ⟨ds', h', e⟩ := handed_pieces (fun x hx => ⟨hne x (by simp [hx]), hsmall x hx⟩) h
      have := ih (fun x hx => hq x (List.mem_cons_of_mem _ hx)) hrest
        (fun x hx => hne x (by simp [hx])) h'
      rw [hd, ← this, ← e]
      rfl

end Runs

/-! ## A buffer of zeros -/

/-- Behind the content of a string stand zeros. -/
def Zeroed (ss : Sds) : Prop := ∀ j, ss.len ≤ j → ss.buf.getD j 0 = 0

theorem getD_zeros (n j : Nat) : (List.replicate n (0 : UInt8)).getD j 0 = 0 := by
  rw [List.getD_eq_getElem?_getD]
  exact List.getElem?_getD_replicate_default_eq ..

theorem zeroed_sdscat {d : Sds} (h : Zeroed d) (m : Bytes) : Zeroed (sdscat d m) := by
  intro j hj
  unfold sdscat sdscatlen at hj ⊢
  dsimp only at hj ⊢
  split at hj
  · rename_i hav
    rw [if_pos hav]
    dsimp only at hj ⊢
    rw [getD_writeAt, if_neg (by omega), getD_writeAt]
    split
    · exact getD_zeros ..
    · rw [reallocBuf, getD_readAt, if_neg]
      simp only [List.length_replicate] at *
      omega
  · rename_i hav
    rw [if_neg hav]
    dsimp only at hj ⊢
    rw [getD_writeAt, if_neg (by omega)]
    exact h j (by simp only [sdslen] at hj; omega)

theorem zeroed_sdsclear {ss : Sds} (h : Zeroed ss) : Zeroed (sdsclear ss) := by
  intro j _
  rw [sdsclear, getD_writeAt]
  split
  · exact getD_zeros ..
  · rename_i hj
    rw [List.length_replicate] at hj
    exact h j (by omega)

theorem zeroed_sdsdump {ss : Sds} (h : Zeroed ss) :
    ∃ n, (sdsdump ss).buf = ss.content ++ List.replicate n 0 := by
  refine ⟨ss.free + 1, bytes_ext (by simp [sdsdump]; omega) fun j hj => ?_⟩
  rw [sdsdump, getD_readAt, getD_append, length_content, Sds.content, getD_readAt, Nat.zero_add]
  simp only [sdsdump, length_readAt] at hj
  rw [if_pos hj]
  split
  · rfl
  · rw [h j (by omega)]
    exact (getD_zeros ..).symm

/-- A client outside a transaction, on a server without a log, with zeros behind
what its read buffer holds. -/
structure Clean (s : RedisServer) (c : ClientId) : Prop where
  zeroed : Zeroed (s.client c).readBuf
  multi : (s.client c).flags.multi = false
  count : (s.client c).multiCmdCount = 0
  aofOn : s.aofOn = false

/-! ## What a request leaves of a buffer -/

/-- EXEC finds an empty queue. -/
theorem exec_empty (hc : (s.client c).multiCmdCount = 0) (h : commandExecProc query s c = .ok t) :
    ∃ str, t = execFinish (execStart s c) c str := by
  have h := commandExecProc_ok.mp h
  split at h
  · exact ⟨_, h⟩
  · obtain ⟨u, hu, rfl⟩ := h
    rw [execLoop, if_neg] at hu
    · cases hu
      exact ⟨_, rfl⟩
    · simp [execStart, hc]

theorem clean_clearReadBuf (h : Clean s c) : Clean (clearReadBuf s c) c where
  zeroed := by
    rw [clearReadBuf, modifyClient_self]
    exact zeroed_sdsclear h.zeroed
  multi := by rw [core_flags clearReadBuf_core, h.multi]
  count := by rw [core_multiCmdCount clearReadBuf_core, h.count]
  aofOn := h.aofOn

theorem clean_received (h : Clean s c) (nread : Bytes) : Clean (received s c nread) c where
  zeroed := by
    rw [received, modifyClient_self]
    exact zeroed_sdscat h.zeroed nread
  multi := by rw [core_flags (received_core nread), h.multi]
  count := by rw [core_multiCmdCount (received_core nread), h.count]
  aofOn := h.aofOn

theorem clean_call (hx : env.connect ≠ some c) (hq : ¬ IsMulti q) (hc : Clean s c)
    (h : processCommand query env s c q = .ok t) : Clean t c := by
  obtain ⟨-, ⟨-, rfl⟩ | ⟨cmd, u, hf, hu, rfl⟩⟩ := processCommand_ok.mp h
  · refine clean_clearReadBuf ⟨?_, ?_, ?_, hc.aofOn⟩
    · rw [addWrite_field _ _ _ (·.readBuf) fun _ _ => rfl]
      exact hc.zeroed
    · rw [core_flags (addWrite_core ..)]
      exact hc.multi
    · rw [core_multiCmdCount (addWrite_core ..)]
      exact hc.count
  by_cases hp : cmd.proc = .exec
  · rw [executed_exec (mem_table hf) hp] at hu
    obtain ⟨str, rfl⟩ := exec_empty (s := logCall s c q) hc.count hu
    rw [replicate_read (bare_entry cmd (mem_table hf) (.inl hp)).2]
    refine clean_clearReadBuf ⟨?_, ?_, ?_, hc.aofOn⟩
    · simpa [execFinish, execStart, addWrite, logCall] using hc.zeroed
    · simp [execFinish, execStart, addWrite, ClientFlags.andDirtyCas, ClientFlags.zero]
    · simp [execFinish]
  · have hne : NotExec s c q := (notExec_found hf).mpr hp
    have hcore := processCommand_core hne h (x := c) fun _ _ _ => hx
    rw [clearReadBuf_core] at hcore
    have hserver := executed_server hp hu
    have hfeed : feedAof (logCall s c q) c cmd = logCall s c q :=
      if_neg (by simp [logCall, hc.aofOn])
    have hbuf := executed_readBuf (x := c) hp (fun _ => hx) hu
    refine clean_clearReadBuf ⟨?_, ?_, ?_, ?_⟩
    · rw [replicate_readBuf, hbuf, hfeed]
      exact hc.zeroed
    · rw [core_flags hcore, clientAfter_multi hq hc.multi]
    · rw [core_multiCmdCount hcore, (clientAfter_queue _).2, hc.count]
    · obtain ⟨w, b, o, p, e⟩ := replicate_frame u c cmd
      rw [e]
      exact hserver.aofOn.trans hc.aofOn

/-- A read keeps a client clean, unless it brings a MULTI. -/
theorem read_clean (hx : env.connect ≠ some c) (hc : Clean s c) {nread : Bytes} (hne : nread ≠ [])
    (hq : ∀ q, respDecode (sdsdump ((received s c nread).client c).readBuf).buf = .ok q → ¬ IsMulti q)
    (h : readFromClient env s c nread = .ok s') : Clean s' c := by
  obtain ⟨hn, -⟩ | ⟨-, -, t, ht, rfl⟩ := readFromClient_ok.mp h
  · exact absurd hn hne
  · refine clean_clearReadBuf ?_
    have hr := clean_received hc nread
    obtain ⟨-, rfl⟩ | ⟨q, hd, -, ⟨hm, -⟩ | ⟨-, ht⟩⟩ := processClientQueryBuf_ok.mp ht
    · exact hr
    · exact absurd hm (not_queues hr.multi)
    · exact clean_call hx (hq q hd) hr ht

/-! ## Reads that hand over the requests -/

section Runs

variable {m m' m₀ : Machine} {slack : Nat} {events : List MachineEvent} {us : List Unit}

theorem send_clean {nwritten : Int} {file : Bytes} {w : RdbWrites} {x : ClientId} {u : Unit}
    (hc : Clean m.server c) (h : machineStep slack m (.send x nwritten file w) = some (u, m')) :
    Clean m'.server c := by
  have hbuf := send_readBuf h c
  obtain ⟨-, rfl⟩ := Machine.machineStep_send.mp h
  obtain ⟨f, e, hf⟩ := Machine.send_client m.server x nwritten file w
  dsimp only at hbuf ⊢
  rw [e] at hbuf ⊢
  have hmulti : ((m.server.modifyClient x f).client c).flags.multi =
      (m.server.client c).flags.multi := by
    refine modifyClient_field m.server x f (·.flags.multi) (fun client => ?_) c
    obtain ⟨_, _, _, e⟩ := hf client
    rw [e]
  have hcount : ((m.server.modifyClient x f).client c).multiCmdCount =
      (m.server.client c).multiCmdCount := by
    refine modifyClient_field m.server x f (·.multiCmdCount) (fun client => ?_) c
    obtain ⟨_, _, _, e⟩ := hf client
    rw [e]
  exact ⟨by rw [hbuf]; exact hc.zeroed, hmulti.trans hc.multi, hcount.trans hc.count, hc.aofOn⟩

/-- Each read is decoded in front of zeros. -/
theorem cut_of_handed (hc : Clean m.server c) (hl : (m.server.client c).readBuf.len = 0)
    (hr : ∀ r ∈ Machine.readsOf events, r.client = c ∧ r.env.connect ≠ some c ∧ r.nread ≠ [] ∧
      ∀ b ∈ r.nread, b ≠ 0)
    (hq : ∀ q ∈ qs, ¬ IsMulti q) (hrun : run (machineStep slack) m events = some (us, m'))
    (h : handed (decodings slack m events) = qs) : Cut ((Machine.readsOf events).map (·.nread)) qs := by
  induction events generalizing m qs us with
  | nil =>
    cases h
    exact .nil
  | cons e es ih =>
    obtain ⟨u, m₁, us', h₁, h₂, -⟩ := run_cons_eq_some.mp hrun
    cases e with
    | send x nwritten file w =>
      rw [decodings_send h₁] at h
      exact ih (send_clean hc h₁) (by rw [send_readBuf h₁]; exact hl) hr hq h₂ h
    | read r =>
      obtain ⟨rfl, hx, hne, hz⟩ := hr r List.mem_cons_self
      have hread := Machine.read_server (Machine.machineStep_read.mp h₁)
      have hl₁ := readFromClient_len hne hread
      obtain ⟨n, hdump⟩ := zeroed_sdsdump (zeroed_sdscat hc.zeroed r.nread)
      rw [content_sdscat, content_of_len hl, List.nil_append] at hdump
      obtain ⟨hdef, hd⟩ := decodesAs_read hne h₁ hdump
      have hsame : ∀ q, respDecode (sdsdump ((received m.server r.client r.nread).client
          r.client).readBuf).buf = .ok q →
            Machine.decode slack (sdscat (m.server.client r.client).readBuf r.nread) = .ok q := by
        intro q hq'
        rwa [received_client, hdump, ← hd] at hq'
      rw [decodings_read h₁] at h
      rw [cstr_eq_self hz] at hd
      have hrs : ∀ x ∈ Machine.readsOf es, _ := fun x hx => hr x (List.mem_cons_of_mem _ hx)
      cases hdec : Machine.decode slack (sdscat (m.server.client r.client).readBuf r.nread) with
      | undef => exact absurd hdec hdef
      | err =>
        rw [hdec] at h hd
        have hc₁ := read_clean hx hc hne (fun q hq' => by rw [hsame q hq'] at hdec; cases hdec) hread
        exact .skip _ _ _ n hd.symm (ih hc₁ hl₁ hrs hq h₂ h)
      | ok q =>
        rw [hdec] at h hd
        obtain rfl : q :: handed (decodings slack m₁ es) = qs := h
        have hc₁ := read_clean hx hc hne (fun q' hq' => by
          rw [hsame q' hq'] at hdec
          cases hdec
          exact hq q List.mem_cons_self) hread
        exact .hand _ _ _ _ n hd.symm (ih hc₁ hl₁ hrs (fun x hx => hq x (List.mem_cons_of_mem _ hx))
          h₂ rfl)

theorem run_fits (hrun : run (machineStep slack) m events = some (us, m')) :
    ∀ r ∈ Machine.readsOf events, r.nread = [] ∨ (cstr r.nread).length < 1024 := by
  induction events generalizing m us with
  | nil => exact List.forall_mem_nil _
  | cons e es ih =>
    obtain ⟨u, m₁, us', h₁, h₂, -⟩ := run_cons_eq_some.mp hrun
    cases e with
    | send x nwritten file w => exact ih h₂
    | read r =>
      refine List.forall_mem_cons.mpr ⟨?_, ih h₂⟩
      obtain ⟨hn, -⟩ | ⟨-, hfit, -⟩ :=
        readFromClient_ok.mp (Machine.read_server (Machine.machineStep_read.mp h₁))
      · exact .inl hn
      · exact .inr hfit

end Runs

/-- A PING without its line end, the reply to it, the line end, and a SET. -/
def sampleReads : List MachineEvent :=
  [.read ⟨⟨0, none⟩, 7, bytes "*1\r\n$4\r\nPING"⟩, .send 7 7 [] ⟨false, 0, 0, 0⟩,
    .read ⟨⟨0, none⟩, 7, crlf⟩, .read ⟨⟨0, none⟩, 7, encodeRequest [bytes "SET", bytes "k", bytes "v"]⟩]

end Fedis.Proof.Server
