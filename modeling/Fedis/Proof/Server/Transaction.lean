import Fedis.Proof.Machine.Queue
import Fedis.Proof.Server.Queue
import Fedis.Proof.Server.Replicate

/-!
# A transaction and the same requests outside of it

`Sim` relates two servers that a client's requests cannot tell apart.
`processCommand_sim`: a request does the same to both; `handAll_sim`: so do the
requests that EXEC hands on and the same requests read one by one.
`exec_queue` is what EXEC does with its queue.
-/

namespace Fedis.Proof.Server

open Framework Resp

variable {query query' : RedisServer → ClientId → Except Fault RedisServer} {env : Env}
  {a a' b b' s t : RedisServer} {c : ClientId} {argv q : List Bytes} {qs : List (List Bytes)}
  {cmd : RedisCommand} {proc : Proc} {i depth : Nat}

/-- A client's requests find the same in both servers. -/
structure Sim (c : ClientId) (a b : RedisServer) : Prop where
  db : b.db = a.db
  flags : b.flags = a.flags
  master : b.master = a.master
  backlog : b.backlog = a.backlog
  aofOn : b.aofOn = a.aofOn
  index : (b.client c).db = (a.client c).db

theorem Sim.getDb (h : Sim c a b) (i : Int) : b.getDb i = a.getDb i := by
  simp only [RedisServer.getDb, h.db]

/-! ## One command -/

theorem clientEffect_db {x y : RedisClient} (h : y.db = x.db) :
    (clientEffect proc argv y).db = (clientEffect proc argv x).db := by
  unfold clientEffect
  split
  · exact h
  · exact h
  · split
    · exact h
    · rfl
  · exact h

theorem callProc_sim (h : Sim c a b) (hp : proc ≠ .exec) (hx : env.connect ≠ some c)
    (ha : callProc query env proc a c argv = .ok a') (hb : callProc query' env proc b c argv = .ok b') :
    Sim c a' b' := by
  have fa := callProc_frame hp ha
  have fb := callProc_frame hp hb
  refine ⟨?_, ?_, ?_, ?_, ?_, ?_⟩
  · rw [callProc_db hp ha, callProc_db hp hb, h.db, h.index]
  · rw [fa.flags, fb.flags, h.flags]
  · rw [fa.master, fb.master, h.master]
  · rw [fa.backlog, fb.backlog, h.backlog]
  · rw [fa.aofOn, fb.aofOn, h.aofOn]
  · rw [core_db (fa.core fun _ => hx), core_db (fb.core fun _ => hx)]
    exact clientEffect_db h.index

theorem addWriteBulk_returns {s₁ : RedisServer} {str : Bytes}
    (h : addWriteBulk a c str = .ok s₁) : ∃ s₂, addWriteBulk b c str = .ok s₂ :=
  ⟨_, addWriteBulk_ok.mpr ⟨(addWriteBulk_ok.mp h).1, rfl⟩⟩

/-- A handler that returns in one server returns in the other. -/
theorem callProc_returns (h : Sim c a b) (hp : proc ≠ .exec)
    (ha : callProc query env proc a c argv = .ok a') :
    ∃ b', callProc query' env proc b c argv = .ok b' := by
  have hdb : b.getDb (b.client c).db = a.getDb (a.client c).db := by rw [h.getDb, h.index]
  cases proc with
  | exec => exact absurd rfl hp
  | set =>
    obtain ⟨key, hk, ⟨hl, -⟩ | ⟨value, db, hv, hg, -⟩⟩ := commandSetProc_ok.mp ha
    · exact ⟨_, commandSetProc_ok.mpr ⟨key, hk, .inl ⟨hl, rfl⟩⟩⟩
    · exact ⟨_, commandSetProc_ok.mpr ⟨key, hk, .inr ⟨value, db, hv, hdb.trans hg, rfl⟩⟩⟩
  | get =>
    obtain ⟨key, db, hk, hg, ⟨hn, -⟩ | ⟨res, hr, hw⟩⟩ := commandGetProc_ok.mp ha
    · exact ⟨_, commandGetProc_ok.mpr ⟨key, db, hk, hdb.trans hg, .inl ⟨hn, rfl⟩⟩⟩
    · obtain ⟨b', hb'⟩ := addWriteBulk_returns (b := b) hw
      exact ⟨b', commandGetProc_ok.mpr ⟨key, db, hk, hdb.trans hg, .inr ⟨res, hr, hb'⟩⟩⟩
  | del =>
    obtain ⟨key, db, hk, hg, -⟩ := commandDelProc_ok.mp ha
    exact ⟨_, commandDelProc_ok.mpr ⟨key, db, hk, hdb.trans hg, rfl⟩⟩
  | object =>
    obtain ⟨key, op, hk, hop, h'⟩ := commandObjectProc_ok.mp ha
    by_cases he : strcaseeq op (bytes "ENCODING") = true
    · rw [if_pos he] at h'
      obtain ⟨db, hg, ⟨hn, -⟩ | ⟨val, hv, hw⟩⟩ := h'
      · exact ⟨_, commandObjectProc_ok.mpr ⟨key, op, hk, hop, by
          rw [if_pos he]
          exact ⟨db, hdb.trans hg, .inl ⟨hn, rfl⟩⟩⟩⟩
      · obtain ⟨b', hb'⟩ := addWriteBulk_returns (b := b) hw
        exact ⟨b', commandObjectProc_ok.mpr ⟨key, op, hk, hop, by
          rw [if_pos he]
          exact ⟨db, hdb.trans hg, .inr ⟨val, hv, hb'⟩⟩⟩⟩
    · exact ⟨b, commandObjectProc_ok.mpr ⟨key, op, hk, hop, by rw [if_neg he]⟩⟩
  | slaveof =>
    obtain ⟨arg, ip, port, rest, harg, hst, hm, -⟩ := commandSlaveofProc_ok.mp ha
    exact ⟨_, commandSlaveofProc_ok.mpr ⟨arg, ip, port, rest, harg, hst, h.master.trans hm, rfl⟩⟩
  | sync =>
    obtain ⟨arg, harg, hin, -⟩ := commandSyncProc_ok.mp ha
    exact ⟨_, commandSyncProc_ok.mpr ⟨arg, harg, by rwa [h.backlog], rfl⟩⟩
  | select =>
    obtain ⟨arg, harg, ⟨hn, -⟩ | ⟨dbid, hn, hw⟩⟩ := commandSelectProc_ok.mp ha
    · exact ⟨_, commandSelectProc_ok.mpr ⟨arg, harg, .inl ⟨hn, rfl⟩⟩⟩
    · obtain ⟨b', hb'⟩ := addWriteBulk_returns (b := b.modifyClient c _) hw
      exact ⟨b', commandSelectProc_ok.mpr ⟨arg, harg, .inr ⟨dbid, hn, hb'⟩⟩⟩
  | expire =>
    obtain ⟨key, arg, hk, harg, ⟨hn, -⟩ | ⟨n, db, hn, hin, hg, -⟩⟩ := commandExpireProc_ok.mp ha
    · exact ⟨_, commandExpireProc_ok.mpr ⟨key, arg, hk, harg, .inl ⟨hn, rfl⟩⟩⟩
    · exact ⟨_, commandExpireProc_ok.mpr
        ⟨key, arg, hk, harg, .inr ⟨n, db, hn, hin, hdb.trans hg, rfl⟩⟩⟩
  | ttl =>
    obtain ⟨key, db0, hk, hg0, ⟨hn, -⟩ | ⟨db, hm, hg, hin, hw⟩⟩ := commandTtlProc_ok.mp ha
    · exact ⟨_, commandTtlProc_ok.mpr ⟨key, db0, hk, (h.getDb 0).trans hg0, .inl ⟨hn, rfl⟩⟩⟩
    · obtain ⟨b', hb'⟩ := addWriteBulk_returns (b := b) hw
      exact ⟨b', commandTtlProc_ok.mpr
        ⟨key, db0, hk, (h.getDb 0).trans hg0, .inr ⟨db, hm, hdb.trans hg, hin, hb'⟩⟩⟩
  | watch =>
    obtain ⟨u, hu, -⟩ := commandWatchProc_ok.mp ha
    have hwatch : ∀ (args : List Bytes) {a b : RedisServer}, b.db = a.db →
        (b.client c).db = (a.client c).db → ∀ {u : RedisServer},
        args.foldlM (fun s arg => watchKey s c arg) a = .ok u →
          ∃ v, args.foldlM (fun s arg => watchKey s c arg) b = .ok v := by
      intro args
      induction args with
      | nil => exact fun _ _ _ _ => ⟨_, rfl⟩
      | cons arg args ih =>
        intro a b hdb hi u hu
        obtain ⟨u₁, h₁, hu⟩ := bind_ok.mp hu
        obtain ⟨db, hg, rfl⟩ := watchKey_ok.mp h₁
        have hg' : b.getDb (b.client c).db = .ok db := by
          rw [hi]
          simpa only [RedisServer.getDb, hdb] using hg
        obtain ⟨v, hv⟩ := ih (a := a.setDb (a.client c).db (dbAddWatch db (cstr arg) c))
          (b := b.setDb (b.client c).db (dbAddWatch db (cstr arg) c))
          (by simp only [RedisServer.setDb, hdb, hi]) hi hu
        exact ⟨v, bind_ok.mpr ⟨_, watchKey_ok.mpr ⟨db, hg', rfl⟩, hv⟩⟩
    obtain ⟨v, hv⟩ := hwatch _ h.db h.index hu
    exact ⟨_, commandWatchProc_ok.mpr ⟨v, hv, rfl⟩⟩
  | info =>
    obtain ⟨hm, -⟩ := commandInfoProc_ok.mp ha
    exact commandInfoProc_returns (by rw [h.flags]; exact hm)
  | bye | ping | replconf | replack | heartbeat | multi => exact ⟨_, rfl⟩

/-! ## One request -/

theorem expireArg_sim (h : Sim c a b) (ha : expireArg env a c cmd argv = .ok a') :
    ∃ b', expireArg env b c cmd argv = .ok b' ∧ Sim c a' b' := by
  have ha := expireArg_ok.mp ha
  by_cases hrw : (cmd.read || cmd.write) = true
  · rw [if_pos hrw] at ha
    obtain ⟨key, db, hk, hg, rfl⟩ := ha
    have hg' : b.getDb (b.client c).db = .ok db := by rw [h.getDb, h.index, hg]
    refine ⟨_, expireArg_ok.mpr (by rw [if_pos hrw]; exact ⟨key, db, hk, hg', rfl⟩), ?_⟩
    exact ⟨by simp only [RedisServer.setDb, h.db, h.index], h.flags, h.master, h.backlog, h.aofOn,
      h.index⟩
  · rw [if_neg hrw] at ha
    subst ha
    exact ⟨b, expireArg_ok.mpr (by rw [if_neg hrw]), h⟩

theorem feedAof_sim (h : Sim c a b) : Sim c (feedAof a c cmd) (feedAof b c cmd) := by
  have he : ∀ s : RedisServer, (feedAof s c cmd).flags = s.flags ∧
      (feedAof s c cmd).master = s.master ∧ (feedAof s c cmd).backlog = s.backlog ∧
      (feedAof s c cmd).aofOn = s.aofOn := by
    intro s
    unfold feedAof
    split <;> simp
  obtain ⟨a₁, a₂, a₃, a₄⟩ := he a
  obtain ⟨b₁, b₂, b₃, b₄⟩ := he b
  exact ⟨by rw [feedAof_db, feedAof_db, h.db], by rw [a₁, b₁, h.flags], by rw [a₂, b₂, h.master],
    by rw [a₃, b₃, h.backlog], by rw [a₄, b₄, h.aofOn],
    by rw [core_db feedAof_core, core_db feedAof_core, h.index]⟩

theorem touchWatchKey_sim (h : Sim c a b) (ha : touchWatchKey a c argv = .ok a') :
    ∃ b', touchWatchKey b c argv = .ok b' ∧ Sim c a' b' := by
  obtain ⟨key, db, hk, hg, rfl⟩ := touchWatchKey_ok.mp ha
  have hg' : b.getDb (b.client c).db = .ok db := by rw [h.getDb, h.index, hg]
  refine ⟨_, touchWatchKey_ok.mpr ⟨key, db, hk, hg', rfl⟩, ?_, h.flags, h.master, h.backlog,
    h.aofOn, ?_⟩
  · simp only [RedisServer.setDb, h.db, h.index]
  · simp only [setDb_client]
    split <;> exact h.index

theorem executed_sim (h : Sim c a b) (hp : cmd.proc ≠ .exec) (hx : env.connect ≠ some c)
    (ha : executed query env a c cmd argv = .ok a') :
    ∃ b', executed query' env b c cmd argv = .ok b' ∧ Sim c a' b' := by
  obtain ⟨a₁, ha₁, ha⟩ := bind_ok.mp ha
  obtain ⟨a₂, ha₂, ha⟩ := bind_ok.mp ha
  obtain ⟨b₁, hb₁, h₁⟩ := expireArg_sim (feedAof_sim h) ha₁
  obtain ⟨b₂, hb₂⟩ : ∃ b₂, callProc query' env cmd.proc b₁ c argv = .ok b₂ :=
    callProc_returns h₁ hp ha₂
  have h₂ := callProc_sim h₁ hp hx ha₂ hb₂
  cases hw : cmd.write with
  | false =>
    rw [hw] at ha
    obtain rfl : a₂ = a' := pure_ok.mp ha
    refine ⟨b₂, bind_ok.mpr ⟨b₁, hb₁, bind_ok.mpr ⟨b₂, hb₂, ?_⟩⟩, h₂⟩
    rw [hw]
    rfl
  | true =>
    rw [hw, if_pos rfl] at ha
    obtain ⟨b', hb', h'⟩ := touchWatchKey_sim h₂ ha
    refine ⟨b', bind_ok.mpr ⟨b₁, hb₁, bind_ok.mpr ⟨b₂, hb₂, ?_⟩⟩, h'⟩
    rw [hw, if_pos rfl]
    exact hb'

theorem replicate_backlog (t : RedisServer) (c : ClientId) (cmd : RedisCommand) :
    (replicate t c cmd).backlog =
      if cmd.write && t.flags.master then addRepliBuf t.backlog (t.client c).readBuf.content
      else t.backlog := by
  unfold replicate
  dsimp only
  split
  · obtain ⟨w, e⟩ := addWrites_frame
      (slaves { t with backlog := addRepliBuf t.backlog (t.client c).readBuf.content })
      (t.client c).readBuf.buf
      { t with backlog := addRepliBuf t.backlog (t.client c).readBuf.content }
    rw [commandPropagate, e]
    split <;> rfl
  · split <;> rfl

/-- A request with the same bytes does the same to both servers. -/
theorem processCommand_sim (h : Sim c a b) (hne : NotExec a c argv)
    (hfound : foundCommand b c argv = foundCommand a c argv) (hx : env.connect ≠ some c)
    (hfa : (a.client c).flags.fake = false) (hfb : (b.client c).flags.fake = false)
    (hread : (b.client c).readBuf.content = (a.client c).readBuf.content)
    (ha : processCommand query env a c argv = .ok a') :
    ∃ b', processCommand query' env b c argv = .ok b' ∧ Sim c a' b' := by
  obtain ⟨hnil, ⟨hf, rfl⟩ | ⟨cmd, t, hf, ht, rfl⟩⟩ := processCommand_ok.mp ha
  · refine ⟨_, processCommand_ok.mpr ⟨hnil, .inl ⟨hfound.trans hf, rfl⟩⟩, h.db, h.flags, h.master,
      h.backlog, h.aofOn, ?_⟩
    rw [core_db clearReadBuf_core, core_db clearReadBuf_core, core_db (addWrite_core ..),
      core_db (addWrite_core ..)]
    exact h.index
  · have hlog : Sim c (logCall a c argv) (logCall b c argv) :=
      ⟨h.db, h.flags, h.master, h.backlog, h.aofOn, h.index⟩
    obtain ⟨u, hu, h'⟩ : ∃ u, executed query' env (logCall b c argv) c cmd argv = .ok u ∧ Sim c t u :=
      executed_sim hlog (hne cmd hf) hx ht
    refine ⟨_, processCommand_ok.mpr ⟨hnil, .inr ⟨cmd, u, hfound.trans hf, hu, rfl⟩⟩, ?_⟩
    have kept : ∀ {α : Type} (g : RedisServer → α), (∀ s client b o p,
        g { s with client := client, backlog := b, offset := o, cfgOffset := p } = g s) → g u = g t →
        g (clearReadBuf (replicate u c cmd) c) = g (clearReadBuf (replicate t c cmd) c) :=
      fun g hg e => (replied_field g hg).trans (e.trans (replied_field g hg).symm)
    refine ⟨kept (·.db) (fun _ _ _ _ _ => rfl) h'.db, kept (·.flags) (fun _ _ _ _ _ => rfl) h'.flags,
      kept (·.master) (fun _ _ _ _ _ => rfl) h'.master, ?_,
      kept (·.aofOn) (fun _ _ _ _ _ => rfl) h'.aofOn, ?_⟩
    · rw [clearReadBuf_backlog, clearReadBuf_backlog, replicate_backlog, replicate_backlog, h'.flags,
        h'.backlog]
      cases hw : cmd.write with
      | false => rfl
      | true =>
        have ea := (executed_write (s := logCall a c argv) (mem_table hf) hw hfa ht).readBuf
        have eb := (executed_write (s := logCall b c argv) (mem_table hf) hw hfb hu).readBuf
        have hcontent : (u.client c).readBuf.content = (t.client c).readBuf.content := by
          rw [ea, eb, afterFeed, afterFeed]
          have haof : (logCall b c argv).aofOn = (logCall a c argv).aofOn := h.aofOn
          rw [haof]
          split
          · rw [content_of_len (len_sdsDrained _), content_of_len (len_sdsDrained _)]
          · exact hread
        rw [hcontent]
    · rw [core_db replied_core, core_db replied_core]
      exact h'.index

/-! ## What a server supports -/

/-- The request has this command's name. -/
def Named (name : Bytes) (q : List Bytes) : Prop := strcaseeq name (q.headD []) = true

instance (name : Bytes) (q : List Bytes) : Decidable (Named name q) :=
  inferInstanceAs (Decidable (_ = true))

instance (q : List Bytes) : Decidable (Accepted q) := inferInstanceAs (Decidable (_ = false))

/-- The request has the name of a write command. -/
def IsWrite (q : List Bytes) : Prop := ∃ cmd ∈ commandsTable, cmd.write = true ∧ Named cmd.name q

instance (q : List Bytes) : Decidable (IsWrite q) :=
  inferInstanceAs (Decidable (∃ cmd ∈ commandsTable, cmd.write = true ∧ Named cmd.name q))

/-- No write command reaches a slave from a normal client. SLAVEOF makes a server
a slave, REPLCONF makes a client no normal one. -/
def Allowed : Bool → Bool → List (List Bytes) → Prop
  | _, _, [] => True
  | slave, normal, q :: qs => (IsWrite q → ¬ (slave = true ∧ normal = true)) ∧
      Allowed (slave || Named (bytes "SLAVEOF") q) (normal && !Named (bytes "REPLCONF") q) qs

instance decidableAllowed : ∀ slave normal qs, Decidable (Allowed slave normal qs)
  | _, _, [] => isTrue trivial
  | slave, normal, q :: qs =>
    have := decidableAllowed (slave || Named (bytes "SLAVEOF") q)
      (normal && !Named (bytes "REPLCONF") q) qs
    inferInstanceAs (Decidable ((IsWrite q → ¬ (slave = true ∧ normal = true)) ∧ Allowed _ _ qs))

theorem found_same (hn : (a.client c).flags.normal = false)
    (hw : IsWrite q → ¬ (b.flags.slave = true ∧ (b.client c).flags.normal = true)) :
    foundCommand b c q = foundCommand a c q := by
  cases q with
  | nil => rfl
  | cons name args =>
    have supa : ∀ cmd, isSupportedCmd a c cmd = true := fun cmd => by simp [isSupportedCmd, hn]
    cases hf : foundCommand a c (name :: args) with
    | some cmd =>
      have hname := foundCommand_name hf
      refine foundCommand_some (by simp) (mem_table hf) hname ?_
      cases hcw : cmd.write with
      | false => simp [isSupportedCmd, hcw]
      | true =>
        have := hw ⟨cmd, mem_table hf, hcw, hname⟩
        simpa [isSupportedCmd, hcw, ← Bool.not_eq_true, imp_iff_not_or] using this
    | none =>
      have hf : lookupCommand a c name = none := hf
      refine List.find?_eq_none.mpr fun cmd hc hb => ?_
      have := List.find?_eq_none.mp hf cmd hc
      simp only [supa, Bool.true_and] at this
      simp only [Bool.and_eq_true] at hb
      exact this hb.2

theorem clientAfter_flags (hq : q ≠ []) (h : (s.client c).flags.fake = false) :
    (clientAfter s c q c).flags.fake = false ∧
      ((clientAfter s c q c).flags.normal = true → (s.client c).flags.normal = true ∧
        ¬ Named (bytes "REPLCONF") q) := by
  have hentry : Named (bytes "REPLCONF") q →
      foundCommand s c q = some ⟨false, false, bytes "REPLCONF", .replconf, 3⟩ := fun hn =>
    foundCommand_some hq (by decide) hn (by simp [isSupportedCmd])
  unfold clientAfter
  split
  · rename_i hf
    exact ⟨h, fun hn => ⟨hn, fun hr => by rw [hentry hr] at hf; cases hf⟩⟩
  · rename_i cmd hf
    have hproc : Named (bytes "REPLCONF") q → cmd.proc = .replconf ∧ cmd.write = false := fun hr => by
      rw [hentry hr] at hf
      cases hf
      exact ⟨rfl, rfl⟩
    split
    · rename_i hw
      have hn : ¬ Named (bytes "REPLCONF") q := fun hr => by
        rw [(hproc hr).2] at hw
        cases hw
      split
      · exact ⟨h, fun hnorm => ⟨hnorm, hn⟩⟩
      · exact ⟨h, fun hnorm => ⟨hnorm, hn⟩⟩
    · rw [if_pos rfl]
      unfold clientEffect
      split
      · exact ⟨rfl, fun hnorm => by cases hnorm⟩
      · rename_i hp
        exact ⟨h, fun hnorm => ⟨hnorm, fun hr => by rw [(hproc hr).1] at hp; cases hp⟩⟩
      · rename_i hp
        have hn : ¬ Named (bytes "REPLCONF") q := fun hr => by
          rw [(hproc hr).1] at hp
          cases hp
        split
        · exact ⟨h, fun hnorm => ⟨hnorm, hn⟩⟩
        · exact ⟨h, fun hnorm => ⟨hnorm, hn⟩⟩
      · rename_i hp _ _
        exact ⟨h, fun hnorm => ⟨hnorm, fun hr => hp (hproc hr).1⟩⟩

/-- SLAVEOF alone makes a server a slave. -/
theorem processCommand_slave (hne : NotExec s c q) (h : processCommand query env s c q = .ok t)
    (hs : t.flags.slave = true) : s.flags.slave = true ∨ Named (bytes "SLAVEOF") q := by
  by_cases hslave : ∃ cmd, foundCommand s c q = some cmd ∧ cmd.proc = .slaveof
  · obtain ⟨cmd, hf, hp⟩ := hslave
    have hname : cmd.name = bytes "SLAVEOF" :=
      (by decide : ∀ cmd ∈ commandsTable, cmd.proc = .slaveof → cmd.name = bytes "SLAVEOF") _
        (mem_table hf) hp
    have := foundCommand_name hf
    rw [hname] at this
    exact .inr this
  · rw [processCommand_flags hne h fun cmd hf hp => hslave ⟨cmd, hf, hp⟩] at hs
    exact .inl hs

/-! ## The whole queue -/

/-- EXEC in front of a place of the queue, and the same client in front of its next request.
`slave` and `normal` are what the requests before them leave. -/
structure InStep (c : ClientId) (slave normal : Bool) (a b : RedisServer) : Prop where
  sim : Sim c a b
  slave : b.flags.slave = true → slave = true
  normal : (b.client c).flags.normal = true → normal = true
  exec : (a.client c).flags.normal = false
  real : (a.client c).flags.fake = false ∧ (b.client c).flags.fake = false
  multi : (b.client c).flags.multi = false
  empty : (b.client c).readBuf.len = 0

section InStep

variable {slave normal : Bool} {cmd : Sds} (hx : env.connect ≠ some c)
  (h : InStep c slave normal a b)
include hx h

/-- The queued request, and the same request from the socket, leave the same. -/
theorem process_sim (hacc : Accepted q)
    (hw : IsWrite q → ¬ (slave = true ∧ normal = true)) (hcmd : cmd.content = respEncodeArrayString q)
    (hv : processCommand (processClientQueryBuf env depth) env (execLoad a c i cmd) c q = .ok t) :
    ∃ u, processCommand (processClientQueryBuf env 11) env
      (received b c (respEncodeArrayString q)) c q = .ok u ∧ Sim c t u := by
  have hca : (execLoad a c i cmd).client c = _ := modifyClient_self _ _ _
  have hcb : (received b c (respEncodeArrayString q)).client c = _ := modifyClient_self _ _ _
  have hsim : Sim c (execLoad a c i cmd) (received b c (respEncodeArrayString q)) := by
    refine ⟨h.sim.db, h.sim.flags, h.sim.master, h.sim.backlog, h.sim.aofOn, ?_⟩
    rw [hca, hcb]
    exact h.sim.index
  have hfound : foundCommand (received b c (respEncodeArrayString q)) c q =
      foundCommand (execLoad a c i cmd) c q := by
    refine found_same (by rw [hca]; exact h.exec) fun hwq hsn => hw hwq ⟨h.slave hsn.1, h.normal ?_⟩
    have hnormal := hsn.2
    rw [hcb] at hnormal
    exact hnormal
  refine processCommand_sim hsim (notExec_of_accepted hacc) hfound hx (by rw [hca]; exact h.real.1)
    (by rw [hcb]; exact h.real.2) ?_ hv
  rw [received_content h.empty, cstr_eq_self (encode_ne_zero q), execLoad_content, hcmd]

/-- One place of the queue, and the request in it from the socket. -/
theorem hand_sim (hr : Request q) (hacc : Accepted q) (hm : ¬ IsMulti q)
    (hlen : (respEncodeArrayString q).length < 1024)
    (hw : IsWrite q → ¬ (slave = true ∧ normal = true)) (hs : Slots (a.client c) i (q :: qs))
    (ha : hand env depth c i q a = .ok t) :
    ∃ u, readFromClient env b c (respEncodeArrayString q) = .ok u ∧
      InStep c (slave || Named (bytes "SLAVEOF") q) (normal && !Named (bytes "REPLCONF") q) t u := by
  obtain ⟨cmd, v, hcmd, hv, rfl⟩ := hand_ok.mp ha
  have hcontent : cmd.content = respEncodeArrayString q := by
    obtain ⟨-, cmd', hcmd', hc⟩ := hs.head
    rw [hcmd] at hcmd'
    cases hcmd'
    exact hc
  obtain ⟨w, hw', hsim⟩ := process_sim hx h hacc hw hcontent hv
  have hne : NotExec (execLoad a c i cmd) c q := notExec_of_accepted hacc
  have hneb : NotExec (received b c (respEncodeArrayString q)) c q := notExec_of_accepted hacc
  have hca : (execLoad a c i cmd).client c = _ := modifyClient_self _ _ _
  have hcb : (received b c (respEncodeArrayString q)).client c = _ := modifyClient_self _ _ _
  -- the flags on both sides, before the request and behind it
  have flagsa := clientAfter_flags (s := execLoad a c i cmd) (c := c) hr.ne_nil
    (by rw [hca]; exact h.real.1)
  have flagsb := clientAfter_flags (s := received b c (respEncodeArrayString q)) (c := c) hr.ne_nil
    (by rw [hcb]; exact h.real.2)
  have ea : ((clearSlot v c i).client c).flags = (clientAfter (execLoad a c i cmd) c q c).flags := by
    have hv := core_flags (processCommand_core hne hv (x := c) fun _ _ _ => hx)
    rw [clearSlot, modifyClient_self]
    exact hv
  have eb : ((clearReadBuf w c).client c).flags =
      (clientAfter (received b c (respEncodeArrayString q)) c q c).flags :=
    (core_flags clearReadBuf_core).trans
      (core_flags (processCommand_core hneb hw' (x := c) fun _ _ _ => hx))
  refine ⟨clearReadBuf w c,
    (read_request hr hlen h.empty).mpr ⟨w, .inr ⟨not_queues h.multi, hw'⟩, rfl⟩, ?_⟩
  constructor
  case sim =>
    refine ⟨hsim.db, hsim.flags, hsim.master, hsim.backlog, hsim.aofOn, ?_⟩
    rw [core_db clearReadBuf_core, hsim.index, clearSlot, modifyClient_self]
  case slave =>
    intro hs'
    rcases processCommand_slave hneb hw' hs' with h₁ | h₁
    · simp [h.slave h₁]
    · simp [h₁]
  case normal =>
    intro hn
    rw [eb] at hn
    obtain ⟨h₁, h₂⟩ := flagsb.2 hn
    rw [hcb] at h₁
    simp [h.normal h₁, h₂]
  case exec =>
    rw [ea]
    by_contra hn
    have hold := (flagsa.2 (by simpa using hn)).1
    rw [hca] at hold
    exact absurd (hold.symm.trans h.exec) (by decide)
  case real => exact ⟨by rw [ea]; exact flagsa.1, by rw [eb]; exact flagsb.1⟩
  case multi =>
    rw [eb]
    refine clientAfter_multi hm ?_
    rw [hcb]
    exact h.multi
  case empty => exact clearReadBuf_len

end InStep

/-- What a client is sent changes nothing of it. -/
theorem InStep.sent {slave normal : Bool} {x : ClientId} (h : InStep c slave normal a b)
    (nwritten : Int) (file : Bytes) (w : RdbWrites) :
    InStep c slave normal a (sendToClient (initOutputs b) x nwritten file w).server := by
  obtain ⟨f, e, hf⟩ := Machine.send_client b x nwritten file w
  rw [e]
  have field : ∀ {α : Type} (g : RedisClient → α), (∀ client, g (f client) = g client) →
      g ((b.modifyClient x f).client c) = g (b.client c) :=
    fun g hg => modifyClient_field b x f g hg c
  have keeps : ∀ client, (f client).db = client.db ∧ (f client).readBuf = client.readBuf ∧
      (f client).flags.multi = client.flags.multi ∧
      (f client).flags.normal = client.flags.normal ∧
      (f client).flags.fake = client.flags.fake := fun client => by
    obtain ⟨_, _, _, e⟩ := hf client
    rw [e]
    exact ⟨rfl, rfl, rfl, rfl, rfl⟩
  refine ⟨⟨h.sim.db, h.sim.flags, h.sim.master, h.sim.backlog, h.sim.aofOn, ?_⟩, h.slave, ?_,
    h.exec, ⟨h.real.1, ?_⟩, ?_, ?_⟩
  · exact (field (·.db) fun client => (keeps client).1).trans h.sim.index
  · rw [field (·.flags.normal) fun client => (keeps client).2.2.2.1]
    exact h.normal
  · exact (field (·.flags.fake) fun client => (keeps client).2.2.2.2).trans h.real.2
  · exact (field (·.flags.multi) fun client => (keeps client).2.2.1).trans h.multi
  · exact (congrArg Sds.len (field (·.readBuf) fun client => (keeps client).2.1)).trans h.empty

/-- The requests of a client, one in each read. -/
def asReads (env : Env) (c : ClientId) (qs : List (List Bytes)) : List Read :=
  qs.map fun q => ⟨env, c, respEncodeArrayString q⟩

/-- The queue, and a run that reads its requests one by one. -/
theorem handAll_sim (hx : env.connect ≠ some c) {slave normal : Bool} {slack : Nat} {m u : Machine}
    {events : List MachineEvent} {us : List Unit} (h : InStep c slave normal a m.server)
    (hslots : Slots (a.client c) i qs) (hq : ∀ q ∈ qs, Request q ∧ Accepted q ∧ ¬ IsMulti q)
    (hallow : Allowed slave normal qs) (ha : handAll env depth c i qs a = .ok t)
    (hreads : Machine.readsOf events = asReads env c qs)
    (hrun : run (machineStep slack) m events = some (us, u)) : Sim c t u.server := by
  induction events generalizing a m i slave normal qs us with
  | nil =>
    cases hrun
    cases qs with
    | nil =>
      cases ha
      exact h.sim
    | cons q qs => cases hreads
  | cons e events ih =>
    obtain ⟨_, m₁, us', hstep, hrest, -⟩ := run_cons_eq_some.mp hrun
    cases e with
    | send x nwritten file w =>
      obtain ⟨-, rfl⟩ := Machine.machineStep_send.mp hstep
      exact ih (h.sent nwritten file w) hslots hq hallow ha hreads hrest
    | read r =>
      cases qs with
      | nil => cases hreads
      | cons q qs =>
        obtain ⟨rfl, htail⟩ := List.cons.inj hreads
        obtain ⟨a₁, hhand, ha⟩ := bind_ok.mp ha
        obtain ⟨hr, hacc, hm⟩ := hq q List.mem_cons_self
        have hread : readFromClient env m.server c (respEncodeArrayString q) = .ok m₁.server :=
          Machine.read_server (Machine.machineStep_read.mp hstep)
        obtain ⟨v, hv, h₁⟩ := hand_sim hx h hr hacc hm (read_length hread) hallow.1 hslots hhand
        rw [hread] at hv
        cases hv
        exact ih h₁ (hand_slots hx hacc hslots hhand).1 (fun q' h' => hq q' (List.mem_cons_of_mem _ h'))
          hallow.2 ha htail hrest

/-- The client as if it had not collected a transaction. -/
def outside (s : RedisServer) (c : ClientId) : RedisServer :=
  s.modifyClient c fun client => { client with
    flags := { client.flags with multi := false }, multiCmdCount := 0
    readBuf := sdsclear client.readBuf }

/-- **EXEC and its queue**, when no watched key was touched. It returns after
handing exactly the queued requests to `processCommand`, in order, iff none but
the last is MULTI, and each in turn returns and leaves room for the answer. If then none
is MULTI and no write reaches a slave from a normal client, the databases are those that the
same requests leave when they are read one by one. -/
theorem exec_queue {slack : Nat} {m : Machine} (hx : env.connect ≠ some c)
    (hq : Queued m.server c qs) (hd : (m.server.client c).flags.dirtyCas = false) :
    ((∃ m', Machine.commandExecProc (Machine.processClientQueryBuf slack env (depth + 1)) m c = .ok m' ∧
        Handed m.server m'.server c qs) ↔
      (∀ q ∈ qs.dropLast, ¬ IsMulti q) ∧
        ∃ t, Machine.handAll slack env depth c 0 qs (Machine.execStart m c) = .ok t ∧
          (t.server.client c).writeBuf.Fits (bulkString (bytes "Exec ok")).length) ∧
    ((∀ q ∈ qs, ¬ IsMulti q) → (m.server.client c).flags.fake = false →
      Allowed m.server.flags.slave (m.server.client c).flags.normal qs → ∀ m',
        Machine.commandExecProc (Machine.processClientQueryBuf slack env (depth + 1)) m c = .ok m' →
          ∀ events us u, Machine.readsOf events = asReads env c qs →
            run (machineStep slack) { m with server := outside m.server c } events = some (us, u) →
              u.server.db = m'.server.db) := by
  refine ⟨Machine.exec_iff hx hq hd, fun hm hfake hallow m' h events us u hreads hrun => ?_⟩
  obtain ⟨t, ht⟩ : ∃ t, handAll env depth c 0 qs (execStart m.server c) = .ok t ∧
      t.db = m'.server.db := by
    have h := commandExecProc_ok.mp (Machine.commandExecProc_server Machine.query_server h)
    simp only [hd, Bool.false_eq_true, if_false] at h
    obtain ⟨t, ht, e⟩ := h
    refine ⟨t, (execLoop_hands hx ?_ hq.requests (fun q h' => hm q (List.mem_of_mem_dropLast h'))
      (.inr ?_) (by have := hq.length_le; omega)).mp ht, by rw [e]; rfl⟩
    · rw [execStart, modifyClient_self]
      exact hq.slots
    · rw [execStart, modifyClient_self]
      rfl
  have hsim : Sim c (execStart m.server c) (outside m.server c) := by
    refine ⟨rfl, rfl, rfl, rfl, rfl, ?_⟩
    rw [outside, execStart, modifyClient_self, modifyClient_self]
  have ea : (execStart m.server c).client c = _ := modifyClient_self _ _ _
  have eb : (outside m.server c).client c = _ := modifyClient_self _ _ _
  have hstep : InStep c m.server.flags.slave (m.server.client c).flags.normal
      (execStart m.server c) (outside m.server c) := by
    refine ⟨hsim, fun h' => h', ?_, ?_, ?_, ?_, ?_⟩
    · rw [eb]
      exact fun h' => h'
    · rw [ea]
      rfl
    · rw [ea, eb]
      exact ⟨rfl, hfake⟩
    · rw [eb]
    · rw [eb]
      rfl
  have htu : Sim c t u.server := handAll_sim hx (m := { m with server := outside m.server c }) hstep
    (by rw [ea]; exact hq.slots)
    (fun q h' => ⟨(hq.requests q h').1, (hq.requests q h').2, hm q h'⟩) hallow ht.1 hreads hrun
  exact htu.db.trans ht.2

/-- A server whose client has queued SET k v and GET k. -/
def sampleQueue : RedisServer := (sampleServer false).modifyClient 7 fun client => { client with
  flags := { client.flags with multi := true }
  multcmds := [sdsnew (respEncodeArrayString [bytes "SET", bytes "k", bytes "v"]),
    sdsnew (respEncodeArrayString [bytes "GET", bytes "k"])] ++ List.replicate 8 sdsempty
  multiCmdCount := 2 }

theorem queued_sample : Queued sampleQueue 7
    [[bytes "SET", bytes "k", bytes "v"], [bytes "GET", bytes "k"]] := by
  refine ⟨⟨rfl, fun j q hj => ?_⟩, fun q hq => ?_⟩
  · match j, hj with
    | 0, hj =>
      cases hj
      exact ⟨_, rfl, by decide⟩
    | 1, hj =>
      cases hj
      exact ⟨_, rfl, by decide⟩
  · simp only [List.mem_cons, List.not_mem_nil, or_false] at hq
    rcases hq with rfl | rfl
    · exact ⟨⟨by decide, by decide, by decide +kernel, by decide⟩, by decide⟩
    · exact ⟨⟨by decide, by decide, by decide +kernel, by decide⟩, by decide⟩

theorem exec_queue_two : ∃ m' us u,
    Machine.commandExecProc (Machine.processClientQueryBuf 64 ⟨0, none⟩ 11)
      (initMachine sampleQueue) 7 = .ok m' ∧
    Handed sampleQueue m'.server 7 [[bytes "SET", bytes "k", bytes "v"], [bytes "GET", bytes "k"]] ∧
    run (machineStep 64) (initMachine (outside sampleQueue 7))
      ((asReads ⟨0, none⟩ 7 [[bytes "SET", bytes "k", bytes "v"], [bytes "GET", bytes "k"]]).map
        .read) = some (us, u) ∧ u.server.db = m'.server.db := by
  obtain ⟨hiff, hdb⟩ := @exec_queue ⟨0, none⟩ _ _ 10 64 (initMachine sampleQueue) (by decide)
    queued_sample (by decide)
  have hall : (Machine.handAll 64 ⟨0, none⟩ 10 7 0 [[bytes "SET", bytes "k", bytes "v"],
      [bytes "GET", bytes "k"]] (Machine.execStart (initMachine sampleQueue) 7) >>= fun t =>
        .ok (decide ((t.server.client 7).writeBuf.Fits (bulkString (bytes "Exec ok")).length))) =
          .ok true := by decide +kernel
  have hone : (run (machineStep 64) (initMachine (outside sampleQueue 7))
      ((asReads ⟨0, none⟩ 7 [[bytes "SET", bytes "k", bytes "v"], [bytes "GET", bytes "k"]]).map
        .read)).isSome = true := by decide +kernel
  obtain ⟨t, ht, hfit⟩ := bind_ok.mp hall
  obtain ⟨m', hm', hh⟩ := hiff.mpr ⟨by decide, t, ht, of_decide_eq_true (Except.ok.inj hfit)⟩
  obtain ⟨⟨us, u⟩, hrun⟩ := Option.isSome_iff_exists.mp hone
  exact ⟨m', us, u, hm', hh, hrun, hdb (by decide) (by decide) (by decide) m' hm' _ us u (by decide) hrun⟩

/-- A queued MULTI before the end: EXEC does not return, whatever room there is. -/
theorem exec_overruns : ∃ us m, run (machineStep 64) (initMachine (sampleServer false))
      [.read (sampleRead 7 [bytes "MULTI"]), .read (sampleRead 7 [bytes "MULTI"]),
        .send 7 17 [] ⟨false, 0, 0, 0⟩, .read (sampleRead 7 [bytes "PING"])] = some (us, m) ∧
    (m.server.client 7).multiCmdCount = 2 ∧ (m.server.client 7).flags.dirtyCas = false ∧
    (∀ s', commandExecProc (processClientQueryBuf ⟨0, none⟩ 11) m.server 7 ≠ .ok s') ∧
    ∀ slack m', Machine.commandExecProc (Machine.processClientQueryBuf slack ⟨0, none⟩ 11) m 7 ≠
      .ok m' := by
  have hall : (run (machineStep 64) (initMachine (sampleServer false))
      [.read (sampleRead 7 [bytes "MULTI"]), .read (sampleRead 7 [bytes "MULTI"]),
        .send 7 17 [] ⟨false, 0, 0, 0⟩, .read (sampleRead 7 [bytes "PING"])]).map (fun r =>
        ((r.2.server.client 7).multiCmdCount, (r.2.server.client 7).flags.dirtyCas,
          (commandExecProc (processClientQueryBuf ⟨0, none⟩ 11) r.2.server 7).isOk)) =
      some (2, false, false) := by decide +kernel
  obtain ⟨⟨us, m⟩, hrun, hs⟩ := Option.map_eq_some_iff.mp hall
  simp only [Prod.mk.injEq] at hs
  have hnever : ∀ s', commandExecProc (processClientQueryBuf ⟨0, none⟩ 11) m.server 7 ≠ .ok s' := by
    intro s' h
    have := hs.2.2
    rw [h] at this
    cases this
  exact ⟨us, m, hrun, hs.1, hs.2.1, hnever, fun slack m' h =>
    hnever _ (Machine.commandExecProc_server Machine.query_server h)⟩

end Fedis.Proof.Server
