import Fedis.Proof.Pair.Messages
import Fedis.Proof.Server.Replica

/-!
# The two servers

What a read of one whole message makes of a master (`Serving`) and of its slave (`Following`).
On the master, an ordinary request of another client is passed on if it writes
(`Serving.request`), and the slave's REPLACK is answered (`Serving.replack`). On the slave, what
comes from the master is executed (`Following.write`), and other clients write nothing
(`Following.request`).
-/

namespace Fedis.Proof.Pair

open Framework Resp Server

variable {env : Env} {s s' t : RedisServer} {c x y : ClientId} {q : List Bytes} {l : Bytes}
  {state : ReplState}

/-! ## The master -/

/-- A master with the client object `x` of a slave, whatever it knows of it. -/
structure Hosting (x : ClientId) (s : RedisServer) : Prop where
  master : s.flags.master = true
  aofOn : s.aofOn = false
  nodup : s.clients.Nodup
  mem : x ∈ s.clients
  toclose : (s.client x).toclose = false
  replState : (s.client x).replState ≠ .masterSendFullsync
  multi : ∀ y, (s.client y).flags.multi = false
  idle : Idle s
  zeroed : ∀ y, Zeroed (s.client y).readBuf
  undated : Undated s
  unwatched : Unwatched s x

/-- A master with the client object `x` of a slave that has been synchronised. -/
structure Serving (x : ClientId) (s : RedisServer) : Prop where
  master : s.flags.master = true
  aofOn : s.aofOn = false
  nodup : s.clients.Nodup
  mem : x ∈ s.clients
  flags : (s.client x).flags = .REDIS_CLIENT_SLAVE
  toclose : (s.client x).toclose = false
  replState : (s.client x).replState ≠ .masterSendFullsync
  multi : ∀ y, (s.client y).flags.multi = false
  idle : Idle s
  zeroed : ∀ y, Zeroed (s.client y).readBuf
  undated : Undated s
  unwatched : Unwatched s x

theorem Serving.hosting (hs : Serving x s) : Hosting x s where
  master := hs.master
  aofOn := hs.aofOn
  nodup := hs.nodup
  mem := hs.mem
  toclose := hs.toclose
  replState := hs.replState
  multi := hs.multi
  idle := hs.idle
  zeroed := hs.zeroed
  undated := hs.undated
  unwatched := hs.unwatched

theorem Hosting.serving (hs : Hosting x s) (hf : (s.client x).flags = .REDIS_CLIENT_SLAVE) :
    Serving x s where
  master := hs.master
  aofOn := hs.aofOn
  nodup := hs.nodup
  mem := hs.mem
  flags := hf
  toclose := hs.toclose
  replState := hs.replState
  multi := hs.multi
  idle := hs.idle
  zeroed := hs.zeroed
  undated := hs.undated
  unwatched := hs.unwatched

/-- The slave's object is still one to which a reply can be written. -/
theorem Hosting.congr (hs : Hosting x s) (hk : Kept s s') (ht : (s'.client x).toclose = false)
    (hr : (s'.client x).replState ≠ .masterSendFullsync)
    (hc : ∀ z, (s'.client z).flags.multi = false ∧ (s'.client z).readBuf.len = 0 ∧
      Zeroed (s'.client z).readBuf) (hu : Undated s') (hw : Unwatched s' x) : Hosting x s' where
  master := hk.flags ▸ hs.master
  aofOn := hk.aofOn ▸ hs.aofOn
  nodup := hk.clients ▸ hs.nodup
  mem := hk.clients ▸ hs.mem
  toclose := ht
  replState := hr
  multi z := (hc z).1
  idle z := (hc z).2.1
  zeroed z := (hc z).2.2
  undated := hu
  unwatched := hw

/-- Nothing but one client has changed. -/
theorem Hosting.modify {f : RedisClient → RedisClient} (hs : Hosting x s) (hk : Kept s s')
    (hdb : s'.db = s.db) (hclient : s'.client = (s.modifyClient y f).client)
    (ht : (s'.client x).toclose = false) (hr : (s'.client x).replState ≠ .masterSendFullsync)
    (hm : (f (s.client y)).flags.multi = false) (hl : (f (s.client y)).readBuf.len = 0)
    (hz : Zeroed (f (s.client y)).readBuf) : Hosting x s' := by
  refine hs.congr hk ht hr (fun z => ?_) ?_ fun i k => ?_
  · rw [hclient, modifyClient_client]
    split
    · rename_i h
      rw [h]
      exact ⟨hm, hl, hz⟩
    · exact ⟨hs.multi z, hs.idle z, hs.zeroed z⟩
  · rw [Undated, hdb]
    exact hs.undated
  · rw [watchersAt, hdb]
    exact hs.unwatched i k

theorem mem_slaves_received (hs : Hosting x s) (hy : x ≠ y) (nread : Bytes) :
    x ∈ slaves (received s y nread) ↔ (s.client x).flags = .REDIS_CLIENT_SLAVE := by
  have hmem : x ∈ (received s y nread).clients := hs.mem
  rw [slaves, List.mem_filter, received, modifyClient_of_ne _ _ _ hy, decide_eq_true_iff]
  exact and_iff_right hmem

/-- The request of another client: if it writes, the backlog gets it, and a slave that is known
as one. -/
theorem Hosting.request (hs : Hosting x s) (hy : x ≠ y) (hr : Request q) (ho : Ordinary q)
    (h : readFromClient env s y (respEncodeArrayString q) = .ok s') :
    Hosting x s' ∧
      (IsWrite q ∧
          ((s.client x).flags = .REDIS_CLIENT_SLAVE → (s'.client x).flags = (s.client x).flags ∧
            (s'.client x).writeBuf.content =
              (s.client x).writeBuf.content ++ respEncodeArrayString q) ∧
          ((s.client x).flags ≠ .REDIS_CLIENT_SLAVE → s'.client x = s.client x) ∧
          kvs s'.db = (kvs s.db).modify (s.client y).db.toNat (written q) ∧
          s'.backlog = addRepliBuf s.backlog (respEncodeArrayString q) ∨
        s'.client x = s.client x ∧ kvs s'.db = kvs s.db ∧ s'.backlog = s.backlog) := by
  have hidle := readFromClient_idle h hs.idle
  obtain ⟨t, ht, rfl⟩ := read_call hr (hs.idle y) (hs.multi y) h
  set u := received s y (respEncodeArrayString q) with hu
  have hux : u.client x = s.client x := modifyClient_of_ne _ _ _ hy
  have huy : u.client y = { s.client y with
      readBuf := sdscat (s.client y).readBuf (respEncodeArrayString q) } := modifyClient_self _ _ _
  have hcontent : (u.client y).readBuf.content = respEncodeArrayString q := by
    rw [received_content (hs.idle y), cstr_eq_self (encode_ne_zero q)]
  have humulti : ∀ z, (u.client z).flags.multi = false := fun z => by
    rw [core_flags (received_core _)]
    exact hs.multi z
  have hunwatched : Unwatched u x := hs.unwatched
  have hother := call_other (s := u) (fun _ => ⟨hs.nodup, hs.aofOn⟩) ho hunwatched hy ht
  rw [hux] at hother
  have hclear : (clearReadBuf t y).client x = t.client x := modifyClient_of_ne _ _ _ hy
  have hfields : (t.client x).toclose = (s.client x).toclose ∧
      (t.client x).replState = (s.client x).replState ∧ (t.client x).flags = (s.client x).flags := by
    rw [hother]
    split
    · exact ⟨rfl, rfl, rfl⟩
    · exact ⟨rfl, rfl, rfl⟩
  have hhosting : Hosting x (clearReadBuf t y) := by
    have hkept := ((kept_received _).trans (call_kept ho ht)).trans (kept_clearReadBuf (c := y))
    have hundated : Undated t := call_undated (s := u) hs.undated ho ht
    have hwatch : Unwatched t x := call_unwatched ho hunwatched hy ht
    refine hs.congr hkept ?_ ?_ (fun z => ⟨?_, hidle z, ?_⟩) hundated hwatch
    · rw [hclear, hfields.1, hs.toclose]
    · rw [hclear, hfields.2.1]
      exact hs.replState
    · rw [core_flags clearReadBuf_core]
      exact call_multi ho humulti ht z
    · have hbuf := call_readBuf (s := u) ho hs.aofOn ht z
      rw [clearReadBuf, modifyClient_client]
      split
      · rename_i hz
        subst hz
        dsimp only
        rw [hbuf, if_pos rfl, huy]
        exact zeroed_sdsclear (zeroed_sdsclear (zeroed_sdscat (hs.zeroed z) _))
      · rename_i hz
        rw [hbuf, if_neg hz, hu, received, modifyClient_of_ne _ _ _ hz]
        exact hs.zeroed z
  refine ⟨hhosting, ?_⟩
  rw [hclear, clearReadBuf_db, clearReadBuf_backlog]
  have hbacklog := call_backlog (s := u) hs.master hs.aofOn ho ht
  rw [hcontent] at hbacklog
  by_cases hw : ∃ cmd ∈ foundCommand u y q, cmd.write = true
  · left
    obtain ⟨cmd, hf, hcmd⟩ := id hw
    refine ⟨(isWrite_found hf).mpr hcmd, fun hx => ⟨hfields.2.2, ?_⟩, fun hx => ?_, ?_, ?_⟩
    · have hpasses : Passes u y q x := ⟨hw, hs.master, (mem_slaves_received hs hy _).mpr hx⟩
      have hzeroed : Zeroed (u.client y).readBuf := by
        rw [huy]
        exact zeroed_sdscat (hs.zeroed y) _
      rw [hother, if_pos hpasses, content_sdscat,
        cstr_buf hzeroed (by rw [hcontent]; exact encode_ne_zero q), hcontent]
    · rw [hother, if_neg fun hp : Passes u y q x => hx ((mem_slaves_received hs hy _).mp hp.2.2)]
    · have hdb := call_kvs (s := u) hs.undated ho hf ht
      rwa [huy] at hdb
    · rw [hbacklog, if_pos hw]
      rfl
  · right
    rw [if_neg hw] at hbacklog
    refine ⟨?_, call_kvs_read (s := u) hs.undated ho (fun cmd hf => ?_) ht, hbacklog⟩
    · rw [hother, if_neg fun hp : Passes u y q x => hw hp.1]
    · cases hc : cmd.write with
      | false => rfl
      | true => exact absurd ⟨cmd, hf, hc⟩ hw

/-- The request of another client: if it writes, the slave gets it. -/
theorem Serving.request (hs : Serving x s) (hy : x ≠ y) (hr : Request q) (ho : Ordinary q)
    (h : readFromClient env s y (respEncodeArrayString q) = .ok s') :
    Serving x s' ∧
      (IsWrite q ∧ (s'.client x).writeBuf.content =
          (s.client x).writeBuf.content ++ respEncodeArrayString q ∧
          kvs s'.db = (kvs s.db).modify (s.client y).db.toNat (written q) ∨
        (s'.client x).writeBuf.content = (s.client x).writeBuf.content ∧ kvs s'.db = kvs s.db) := by
  obtain ⟨hh, ⟨hw, hknown, -, hkv, -⟩ | ⟨hx, hkv, -⟩⟩ := hs.hosting.request hy hr ho h
  · obtain ⟨hflags, hbuf⟩ := hknown hs.flags
    exact ⟨hh.serving (hflags.trans hs.flags), .inl ⟨hw, hbuf, hkv⟩⟩
  · rw [hx]
    exact ⟨hh.serving (by rw [hx, hs.flags]), .inr ⟨rfl, hkv⟩⟩

/-- A line from the slave. -/
theorem Serving.line (hs : Serving x s) (hv : Message.Valid (.line l))
    (h : readFromClient env s x (l ++ crlf) = .ok s') :
    Serving x s' ∧ (s'.client x).writeBuf = (s.client x).writeBuf ∧ s'.db = s.db ∧
      s'.backlog = s.backlog := by
  obtain rfl := read_line hv (hs.idle x) h
  have hclient : (clearReadBuf (received s x (l ++ crlf)) x).client = (s.modifyClient x fun client =>
      { client with readBuf := sdsclear (sdscat client.readBuf (l ++ crlf)) }).client := by
    funext z
    simp only [clearReadBuf, received, modifyClient_client]
    split <;> rfl
  have hself := congrFun hclient x
  rw [modifyClient_self] at hself
  have hhosting : Hosting x (clearReadBuf (received s x (l ++ crlf)) x) := by
    refine hs.hosting.modify ⟨rfl, rfl, rfl, rfl, rfl⟩ rfl hclient ?_ ?_ (hs.multi x) rfl
      (zeroed_sdsclear (zeroed_sdscat (hs.zeroed x) _))
    · rw [hself]
      exact hs.toclose
    · rw [hself]
      exact hs.replState
  refine ⟨hhosting.serving (by rw [hself]; exact hs.flags), ?_, rfl, rfl⟩
  rw [hself]

/-- What a handler makes of the slave's object. -/
def handled (flags : ClientFlags → ClientFlags) (replState : ReplState → ReplState)
    (writeBuf : Sds → Sds) (client : RedisClient) : RedisClient :=
  { client with
    flags := flags client.flags
    replState := replState client.replState
    writeBuf := writeBuf client.writeBuf }

/-- The handler does nothing else than that. -/
structure Handles (u : RedisServer) (x : ClientId) (f : RedisClient → RedisClient)
    (v : RedisServer) : Prop where
  kept : Kept u v
  db : v.db = u.db
  backlog : v.backlog = u.backlog
  client : v.client = (u.modifyClient x f).client

/-- A request of the slave that is for no key. -/
theorem Hosting.handle (hs : Hosting x s) (cmd : RedisCommand) (fl : ClientFlags → ClientFlags)
    (st : ReplState → ReplState) (w : Sds → Sds) (hr : Request q)
    (hc : cmd ∈ commandsTable) (hn : strcaseeq cmd.name (q.headD []) = true)
    (hread : cmd.read = false) (hw : cmd.write = false)
    (hcall : ∀ u v, u.backlog = s.backlog →
      callProc (processClientQueryBuf env 11) env cmd.proc u x q = .ok v →
        Handles u x (handled fl st w) v)
    (hfl : (fl (s.client x).flags).multi = false)
    (hst : st (s.client x).replState ≠ .masterSendFullsync)
    (h : readFromClient env s x (respEncodeArrayString q) = .ok s') :
    Hosting x s' ∧ (s'.client x).flags = fl (s.client x).flags ∧
      (s'.client x).writeBuf = w (s.client x).writeBuf ∧ s'.db = s.db ∧ s'.backlog = s.backlog := by
  obtain ⟨t, ht, rfl⟩ := read_call hr (hs.idle x) (hs.multi x) h
  set u := received s x (respEncodeArrayString q) with hu
  have hf : foundCommand u x q = some cmd :=
    foundCommand_some hr.ne_nil hc hn (by simp [isSupportedCmd, hw])
  obtain ⟨-, v, hv, rfl⟩ := (processCommand_found hf).mp ht
  rw [executed_handler hread hw] at hv
  obtain ⟨hkept, hdb, hbacklog, hv⟩ := hcall (logCall u x q) v rfl hv
  rw [replicate_read hw]
  have hclient : (clearReadBuf (clearReadBuf v x) x).client = (s.modifyClient x fun client =>
      { handled fl st w client with
        readBuf := sdsclear (sdsclear (sdscat client.readBuf (respEncodeArrayString q))) }).client := by
    funext z
    simp only [clearReadBuf, modifyClient_client, hv, logCall, hu, received]
    split <;> rfl
  have hself := congrFun hclient x
  rw [modifyClient_self] at hself
  refine ⟨hs.modify ?_ hdb hclient ?_ ?_ hfl rfl
    (zeroed_sdsclear (zeroed_sdsclear (zeroed_sdscat (hs.zeroed x) _))), ?_, ?_, hdb, hbacklog⟩
  · have hlog : Kept s (logCall u x q) := ⟨rfl, rfl, rfl, rfl, rfl⟩
    exact (hlog.trans hkept).trans ⟨rfl, rfl, rfl, rfl, rfl⟩
  all_goals rw [hself]
  · exact hs.toclose
  · exact hst
  · rfl
  · rfl

def replackEntry : RedisCommand := ⟨false, false, bytes "REPLACK", .replack, 1⟩

/-- The slave's heartbeat. -/
theorem Serving.replack {n : Int} (hs : Serving x s) (hr : Request [bytes "REPLACK", decimalInt n])
    (h : readFromClient env s x (respEncodeArrayString [bytes "REPLACK", decimalInt n]) = .ok s') :
    Serving x s' ∧ (s'.client x).writeBuf.content = (s.client x).writeBuf.content ++ resp.ok ∧
      s'.db = s.db ∧ s'.backlog = s.backlog := by
  obtain ⟨hh, hflags, hbuf, hdb, hbacklog⟩ := hs.hosting.handle replackEntry id id
    (fun w => sdscat w resp.ok) hr (by decide) (beq_self_eq_true _) rfl rfl (fun u v _ hv => by
      cases hv
      exact ⟨⟨rfl, rfl, rfl, rfl, rfl⟩, rfl, rfl, rfl⟩) (hs.multi x) hs.replState h
  refine ⟨hh.serving (hflags.trans hs.flags), ?_, hdb, hbacklog⟩
  rw [hbuf]
  exact content_sdscat _ _

/-! ## The slave -/

/-- A slave in this state, with the client `c` of its master. -/
structure Attached (c : ClientId) (state : ReplState) (s : RedisServer) : Prop where
  master : s.flags.master = false
  slave : s.flags.slave = true
  link : s.master = some c
  replState : s.replState = state
  normal : (s.client c).flags.normal = false
  db : (s.client c).db = 0
  toclose : (s.client c).toclose = false
  clientState : (s.client c).replState ≠ .masterSendFullsync
  multi : ∀ y, (s.client y).flags.multi = false
  idle : Idle s
  zeroed : Zeroed (s.client c).writeBuf
  nul : ∀ b ∈ (s.client c).writeBuf.content, b ≠ 0
  undated : Undated s
  unwatched : Unwatched s c

/-- A slave that has been synchronised, with the client `c` of its master. -/
structure Following (c : ClientId) (s : RedisServer) : Prop where
  master : s.flags.master = false
  slave : s.flags.slave = true
  link : s.master = some c
  replState : s.replState = .slaveConnected
  normal : (s.client c).flags.normal = false
  db : (s.client c).db = 0
  toclose : (s.client c).toclose = false
  clientState : (s.client c).replState ≠ .masterSendFullsync
  multi : ∀ y, (s.client y).flags.multi = false
  idle : Idle s
  zeroed : Zeroed (s.client c).writeBuf
  nul : ∀ b ∈ (s.client c).writeBuf.content, b ≠ 0
  undated : Undated s
  unwatched : Unwatched s c

theorem following_iff : Following c s ↔ Attached c .slaveConnected s :=
  ⟨fun ⟨h₁, h₂, h₃, h₄, h₅, h₆, h₇, h₈, h₉, h₁₀, h₁₁, h₁₂, h₁₃, h₁₄⟩ =>
      ⟨h₁, h₂, h₃, h₄, h₅, h₆, h₇, h₈, h₉, h₁₀, h₁₁, h₁₂, h₁₃, h₁₄⟩,
    fun ⟨h₁, h₂, h₃, h₄, h₅, h₆, h₇, h₈, h₉, h₁₀, h₁₁, h₁₂, h₁₃, h₁₄⟩ =>
      ⟨h₁, h₂, h₃, h₄, h₅, h₆, h₇, h₈, h₉, h₁₀, h₁₁, h₁₂, h₁₃, h₁₄⟩⟩

/-- Only buffers of the master's client have changed. -/
theorem Attached.congr {r w : Sds} (hs : Attached c state s) (hk : Kept s s')
    (hc : s'.client c = { s.client c with readBuf := r, writeBuf := w }) (hz : Zeroed w)
    (hn : ∀ b ∈ w.content, b ≠ 0)
    (hm : ∀ z, (s'.client z).flags.multi = false ∧ (s'.client z).readBuf.len = 0) (hu : Undated s')
    (hw : Unwatched s' c) : Attached c state s' := by
  refine ⟨hk.flags ▸ hs.master, hk.flags ▸ hs.slave, hk.master ▸ hs.link, hk.replState ▸ hs.replState, ?_,
    ?_, ?_, ?_, fun z => (hm z).1, fun z => (hm z).2, ?_, ?_, hu, hw⟩
  all_goals rw [hc]
  · exact hs.normal
  · exact hs.db
  · exact hs.toclose
  · exact hs.clientState
  · exact hz
  · exact hn

theorem Following.congr {r w : Sds} (hs : Following c s) (hk : Kept s s')
    (hc : s'.client c = { s.client c with readBuf := r, writeBuf := w }) (hz : Zeroed w)
    (hn : ∀ b ∈ w.content, b ≠ 0)
    (hm : ∀ z, (s'.client z).flags.multi = false ∧ (s'.client z).readBuf.len = 0) (hu : Undated s')
    (hw : Unwatched s' c) : Following c s' :=
  following_iff.mpr ((following_iff.mp hs).congr hk hc hz hn hm hu hw)

/-- What a call in a read leaves of every client. -/
theorem Attached.clients (hs : Attached c state s) (ho : Ordinary q) {nread : Bytes}
    (ht : processCommand (processClientQueryBuf env 11) env (received s y nread) y q = .ok t)
    (hidle : Idle (clearReadBuf t y)) (z : ClientId) :
    ((clearReadBuf t y).client z).flags.multi = false ∧
      ((clearReadBuf t y).client z).readBuf.len = 0 := by
  refine ⟨?_, hidle z⟩
  rw [core_flags clearReadBuf_core]
  refine call_multi ho (fun z => ?_) ht z
  rw [core_flags (received_core _)]
  exact hs.multi z

theorem writeReplies_noise : ∀ reply ∈ writeReplies, ∀ b ∈ reply, b ≠ 0 := by decide +kernel

/-- A write from the master. -/
theorem Following.write (hs : Following c s) (hr : Request q) (ho : Ordinary q) (hq : IsWrite q)
    (h : readFromClient env s c (respEncodeArrayString q) = .ok s') :
    Following c s' ∧ kvs s'.db = (kvs s.db).modify 0 (written q) ∧ ∃ reply ∈ writeReplies,
      (s'.client c).writeBuf.content = (s.client c).writeBuf.content ++ reply := by
  have hidle := readFromClient_idle h hs.idle
  obtain ⟨t, ht, rfl⟩ := read_call hr (hs.idle c) (hs.multi c) h
  set u := received s c (respEncodeArrayString q) with hu
  have huc : u.client c = { s.client c with
      readBuf := sdscat (s.client c).readBuf (respEncodeArrayString q) } := modifyClient_self _ _ _
  have hunwatched : Unwatched u c := hs.unwatched
  obtain ⟨cmd, he, hw⟩ := hq
  have hf : foundCommand u c q = some cmd := by
    refine foundCommand_entryOf ?_ he hr.ne_nil
    rw [huc]
    exact hs.normal
  obtain ⟨reply, hreply, r, hself⟩ := call_self (s := u) hs.master ho hunwatched hf hw ht
  have hnul := writeReplies_noise reply hreply
  have hself : (clearReadBuf t c).client c = { s.client c with
      readBuf := sdsclear r, writeBuf := sdscat (s.client c).writeBuf reply } := by
    rw [clearReadBuf, modifyClient_self, hself, huc]
  have hcontent : (sdscat (s.client c).writeBuf reply).content =
      (s.client c).writeBuf.content ++ reply := by
    rw [content_sdscat, cstr_eq_self hnul]
  have hkept := ((kept_received _).trans (call_kept ho ht)).trans (kept_clearReadBuf (c := c))
  have hundated : Undated t := call_undated (s := u) hs.undated ho ht
  have hwatch : Unwatched t c := by
    intro i k hin
    obtain hold | hnew := call_adds ho.notExec ht hin
    · exact hs.unwatched i k hold
    · have hproc : (callOf u c q).proc = some .watch := hnew.2.2.1
      rw [callOf, hf, Option.map_some, Option.some.injEq] at hproc
      exact (write_plain cmd (mem_table hf) hw).2.2 hproc
  have hclients := (following_iff.mp hs).clients ho ht hidle
  refine ⟨hs.congr hkept hself (zeroed_sdscat hs.zeroed _) ?_ hclients hundated hwatch, ?_, reply,
    hreply, ?_⟩
  · rw [hcontent]
    exact fun b hb => (List.mem_append.mp hb).elim (hs.nul b) (hnul b)
  · have hdb := call_kvs (s := u) hs.undated ho hf ht
    rw [huc] at hdb
    have hdb : kvs t.db = (kvs s.db).modify (s.client c).db.toNat (written q) := hdb
    rw [clearReadBuf_db, hdb, hs.db]
    rfl
  · rw [hself]
    exact hcontent

/-- A line from the master. -/
theorem Following.line (hs : Following c s) (hv : Message.Valid (.line l))
    (h : readFromClient env s c (l ++ crlf) = .ok s') :
    Following c s' ∧ (s'.client c).writeBuf = (s.client c).writeBuf ∧ s'.db = s.db ∧
      Uncounted s s' := by
  have hidle := readFromClient_idle h hs.idle
  obtain rfl := read_line hv (hs.idle c) h
  have hself : (clearReadBuf (received s c (l ++ crlf)) c).client c = { s.client c with
      readBuf := sdsclear (sdscat (s.client c).readBuf (l ++ crlf))
      writeBuf := (s.client c).writeBuf } := by
    rw [clearReadBuf, modifyClient_self, received, modifyClient_self]
  refine ⟨hs.congr ⟨rfl, rfl, rfl, rfl, rfl⟩ hself hs.zeroed hs.nul (fun z => ⟨?_, hidle z⟩) hs.undated
    hs.unwatched, ?_, rfl, rfl, rfl, rfl⟩
  · rw [core_flags clearReadBuf_core, core_flags (received_core _)]
    exact hs.multi z
  · rw [hself]

/-- The request of another client, who may not write. -/
theorem Attached.request (hs : Attached c state s) (hy : c ≠ y) (hr : Request q) (ho : Ordinary q)
    (hn : (s.client y).flags.normal = true)
    (h : readFromClient env s y (respEncodeArrayString q) = .ok s') :
    Attached c state s' ∧ s'.client c = s.client c ∧ kvs s'.db = kvs s.db ∧ Uncounted s s' := by
  have hidle := readFromClient_idle h hs.idle
  obtain ⟨t, ht, rfl⟩ := read_call hr (hs.idle y) (hs.multi y) h
  set u := received s y (respEncodeArrayString q) with hu
  have huc : u.client c = s.client c := modifyClient_of_ne _ _ _ hy
  have hun : (u.client y).flags.normal = true := by
    rw [core_flags (received_core _), hn]
  have hunwatched : Unwatched u c := hs.unwatched
  have hread : ∀ cmd ∈ foundCommand u y q, cmd.write = false := fun cmd hf =>
    found_read (s := u) hs.slave hun hf
  have hnot : u.flags.master ≠ true := by
    rw [show u.flags.master = false from hs.master]
    exact Bool.false_ne_true
  have hother := call_other (s := u) (fun hm => absurd hm hnot) ho hunwatched hy ht
  rw [if_neg fun hp : Passes u y q c => hnot hp.2.1, huc] at hother
  have hclient : (clearReadBuf t y).client c = s.client c :=
    (modifyClient_of_ne _ _ _ hy).trans hother
  have hkept := ((kept_received _).trans (call_kept ho ht)).trans (kept_clearReadBuf (c := y))
  have hundated : Undated t := call_undated (s := u) hs.undated ho ht
  have hwatch : Unwatched t c := call_unwatched ho hunwatched hy ht
  have hkvs : kvs t.db = kvs s.db := call_kvs_read (s := u) hs.undated ho hread ht
  have hcount := call_uncounted (s := u) ho hread ht
  exact ⟨hs.congr hkept hclient hs.zeroed hs.nul (hs.clients ho ht hidle) hundated hwatch, hclient, hkvs,
    hcount.aofOn, hcount.offset, hcount.cfgOffset⟩

theorem Following.request (hs : Following c s) (hy : c ≠ y) (hr : Request q) (ho : Ordinary q)
    (hn : (s.client y).flags.normal = true)
    (h : readFromClient env s y (respEncodeArrayString q) = .ok s') :
    Following c s' ∧ s'.client c = s.client c ∧ kvs s'.db = kvs s.db ∧ Uncounted s s' := by
  obtain ⟨hs', h⟩ := (following_iff.mp hs).request hy hr ho hn h
  exact ⟨following_iff.mpr hs', h⟩

end Fedis.Proof.Pair
