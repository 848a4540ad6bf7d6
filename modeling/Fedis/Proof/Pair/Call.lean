import Fedis.Impl.Pair
import Fedis.Proof.Server.Aof
import Fedis.Proof.Server.Framing
import Fedis.Proof.Server.Watch

/-!
# Calls on either server

What a call of an `Ordinary` request does to a server without deadlines, whichever of the two
it is. `call_kvs` says what becomes of the keys: `written` of the request, which depends on nothing
else. `call_other` says what becomes of another client: on a master a slave gets the buffer that
the request came in.
-/

namespace Fedis.Proof.Pair

open Framework Resp Server

variable {query : RedisServer → ClientId → Except Fault RedisServer} {env : Env}
  {s s' t : RedisServer} {c x : ClientId} {q : List Bytes} {cmd : RedisCommand} {db : RedisDb}

/-! ## Requests -/

/-- No transaction, no deadline and no other role. -/
def Ordinary (q : List Bytes) : Prop :=
  ∀ cmd ∈ entryOf q, cmd.proc ∉ [Proc.exec, .multi, .slaveof, .expire]

instance : DecidablePred Ordinary := fun _ => inferInstanceAs (Decidable (∀ _ ∈ _, _))

/-- The command of this name writes. -/
def IsWrite (q : List Bytes) : Prop := ∃ cmd ∈ entryOf q, cmd.write = true

instance : DecidablePred IsWrite := fun _ => inferInstanceAs (Decidable (∃ _ ∈ _, _))

theorem Ordinary.found (ho : Ordinary q) (hf : foundCommand s c q = some cmd) :
    cmd.proc ≠ .exec ∧ cmd.proc ≠ .multi ∧ cmd.proc ≠ .slaveof ∧ cmd.proc ≠ .expire := by
  simpa using ho cmd (entryOf_found hf)

theorem Ordinary.notExec (ho : Ordinary q) : NotExec s c q := fun _ hf => (ho.found hf).1

theorem Ordinary.apart (ho : Ordinary q) (hf : foundCommand s c q = some cmd) (x : ClientId) :
    Apart env cmd.proc x := fun e => absurd e (ho.found hf).2.2.1

theorem isWrite_found (hf : foundCommand s c q = some cmd) : IsWrite q ↔ cmd.write = true := by
  simp [IsWrite, entryOf_found hf]

/-- What a request makes of the keys of its database. -/
def written (q : List Bytes) (kv : DbMap Robj) : DbMap Robj :=
  match (entryOf q).map (·.proc), q[1]?, q[2]? with
  | some Proc.set, some key, some value => kv.insert (cstr key) (robjCreateStringObject value)
  | some Proc.del, some key, _ => kv.erase (cstr key)
  | _, _, _ => kv

/-- Only writes change keys. -/
theorem written_read (h : ¬ IsWrite q) (kv : DbMap Robj) : written q kv = kv := by
  have hwrite : ∀ cmd ∈ commandsTable, cmd.write = false → cmd.proc ≠ .set ∧ cmd.proc ≠ .del := by
    decide
  unfold written
  cases he : entryOf q with
  | none => rfl
  | some cmd =>
    obtain ⟨hset, hdel⟩ := hwrite cmd (List.mem_of_find?_eq_some he) (by
      cases hw : cmd.write with
      | false => rfl
      | true => exact absurd ⟨cmd, he, hw⟩ h)
    rw [Option.map_some]
    split
    · exact absurd (Option.some.inj ‹_›) hset
    · exact absurd (Option.some.inj ‹_›) hdel
    · rfl

/-! ## Keys -/

theorem watched_fields (args : List Bytes) (c : ClientId) (db : RedisDb) :
    (args.foldl (fun db arg => dbAddWatch db (cstr arg) c) db).kv = db.kv ∧
      (args.foldl (fun db arg => dbAddWatch db (cstr arg) c) db).expires = db.expires := by
  induction args generalizing db with
  | nil => exact ⟨rfl, rfl⟩
  | cons arg args ih =>
    have hadd : ∀ key, (dbAddWatch db key c).kv = db.kv ∧ (dbAddWatch db key c).expires = db.expires :=
      fun _ => ⟨rfl, rfl⟩
    exact ⟨(ih _).1.trans (hadd _).1, (ih _).2.trans (hadd _).2⟩

theorem dbEffect_kv (he : entryOf q = some cmd) (now : Int) (db : RedisDb) :
    (dbEffect now cmd.proc c q db).kv = written q db.kv := by
  unfold written dbEffect
  rw [he, Option.map_some]
  generalize cmd.proc = proc
  cases proc with
  | set => cases q[1]? <;> cases q[2]? <;> rfl
  | del => cases q[1]? <;> cases q[2]? <;> rfl
  | expire =>
    cases q[1]? with
    | none => rfl
    | some key =>
      cases q[2]? with
      | none => rfl
      | some arg =>
        dsimp only
        split
        · rfl
        · split <;> rfl
  | watch => cases q[1]? <;> cases q[2]? <;> exact (watched_fields _ c db).1
  | _ => rfl

theorem dbEffect_expires {proc : Proc} (hp : proc ≠ .expire) (now : Int) (db : RedisDb) :
    (dbEffect now proc c q db).expires = db.expires := by
  unfold dbEffect
  cases proc with
  | set => cases q[1]? <;> cases q[2]? <;> rfl
  | del => cases q[1]? <;> cases q[2]? <;> rfl
  | expire => exact absurd rfl hp
  | watch => cases q[1]? <;> cases q[2]? <;> exact (watched_fields _ c db).2
  | _ => rfl

theorem expireIfNeed_empty (h : db.expires = ∅) (key : Bytes) (now : Int) :
    expireIfNeed db key now = db := by
  rw [expireIfNeed_eq, if_neg]
  rw [h]
  exact fun hm => absurd hm.1 Finmap.notMem_empty

/-- On a database without deadlines, a call does the same at any time, for any client and on any
server that finds the command. -/
theorem callEffect_kv (ho : Ordinary q) (hf : foundCommand s c q = some cmd) (he : db.expires = ∅) :
    (callEffect env s c q db).kv = written q db.kv ∧ (callEffect env s c q db).expires = ∅ := by
  have hsame : (if cmd.read || cmd.write then expireIfNeed db (keyOf q) env.now else db) = db := by
    rw [expireIfNeed_empty he, ite_self]
  rw [callEffect, hf]
  simp only [cmdEffect, hsame]
  have hkv := dbEffect_kv (c := c) (entryOf_found hf) env.now db
  have hexp := (dbEffect_expires (c := c) (q := q) (ho.found hf).2.2.2 env.now db).trans he
  split
  · rw [unwatch_kv, unwatch_expires]
    exact ⟨hkv, hexp⟩
  · exact ⟨hkv, hexp⟩

/-- What the databases hold under their keys. -/
def kvs (l : List RedisDb) : List (DbMap Robj) := l.map RedisDb.kv

theorem kvs_modify {l : List RedisDb} {f : RedisDb → RedisDb} {g : DbMap Robj → DbMap Robj} (i : Nat)
    (h : ∀ db ∈ l, (f db).kv = g db.kv) : kvs (l.modify i f) = (kvs l).modify i g := by
  refine List.ext_getElem? fun j => ?_
  rw [kvs, kvs, List.getElem?_map, List.getElem?_modify, List.getElem?_modify, List.getElem?_map]
  cases hj : l[j]? with
  | none => rfl
  | some db =>
    simp only [Option.map_eq_map, Option.map_some]
    split
    · rw [h db (List.mem_of_getElem? hj)]
    · rfl

theorem forall_modify {α : Type} {P : α → Prop} {l : List α} {f : α → α} (i : Nat)
    (h : ∀ a ∈ l, P a) (hf : ∀ a ∈ l, P (f a)) : ∀ a ∈ l.modify i f, P a := by
  intro a ha
  obtain ⟨j, hj⟩ := List.mem_iff_getElem?.mp ha
  rw [List.getElem?_modify] at hj
  obtain ⟨b, hb, rfl⟩ := Option.map_eq_some_iff.mp hj
  split
  · exact hf b (List.mem_of_getElem? hb)
  · exact h b (List.mem_of_getElem? hb)

/-- No key has a deadline. -/
def Undated (s : RedisServer) : Prop := ∀ db ∈ s.db, db.expires = ∅

instance (s : RedisServer) : Decidable (Undated s) := inferInstanceAs (Decidable (∀ _ ∈ _, _))

theorem call_undated (hu : Undated s) (ho : Ordinary q) (h : processCommand query env s c q = .ok t) :
    Undated t := by
  unfold Undated
  rw [processCommand_db ho.notExec h]
  refine forall_modify _ hu fun db hdb => ?_
  cases hf : foundCommand s c q with
  | none =>
    rw [callEffect, hf]
    exact hu db hdb
  | some cmd => exact (callEffect_kv ho hf (hu db hdb)).2

theorem call_kvs (hu : Undated s) (ho : Ordinary q) (hf : foundCommand s c q = some cmd)
    (h : processCommand query env s c q = .ok t) :
    kvs t.db = (kvs s.db).modify (s.client c).db.toNat (written q) := by
  rw [processCommand_db ho.notExec h]
  exact kvs_modify _ fun db hdb => (callEffect_kv ho hf (hu db hdb)).1

/-- A call that writes nothing leaves all keys. -/
theorem call_kvs_read (hu : Undated s) (ho : Ordinary q)
    (hr : ∀ cmd ∈ foundCommand s c q, cmd.write = false)
    (h : processCommand query env s c q = .ok t) : kvs t.db = kvs s.db := by
  cases hf : foundCommand s c q with
  | none =>
    rw [processCommand_db ho.notExec h, modify_id _ _ fun db => ?_]
    rw [callEffect, hf]
  | some cmd =>
    have hw : ¬ IsWrite q := by
      rw [isWrite_found hf, hr cmd hf]
      exact Bool.false_ne_true
    rw [call_kvs hu ho hf h, show written q = id from funext (written_read hw), List.modify_id]

/-! ## The server -/

/-- What an ordinary request leaves of the server. -/
structure Kept (s t : RedisServer) : Prop where
  flags : t.flags = s.flags
  clients : t.clients = s.clients
  aofOn : t.aofOn = s.aofOn
  master : t.master = s.master
  replState : t.replState = s.replState

theorem Kept.trans {u : RedisServer} (h : Kept s t) (h' : Kept t u) : Kept s u where
  flags := h'.flags.trans h.flags
  clients := h'.clients.trans h.clients
  aofOn := h'.aofOn.trans h.aofOn
  master := h'.master.trans h.master
  replState := h'.replState.trans h.replState

theorem kept_received (nread : Bytes) : Kept s (received s c nread) := ⟨rfl, rfl, rfl, rfl, rfl⟩

theorem kept_clearReadBuf : Kept s (clearReadBuf s c) := ⟨rfl, rfl, rfl, rfl, rfl⟩

theorem call_kept (ho : Ordinary q) (h : processCommand query env s c q = .ok s') : Kept s s' := by
  obtain ⟨-, ⟨-, rfl⟩ | ⟨cmd, t, hf, ht, rfl⟩⟩ := processCommand_ok.mp h
  · exact ⟨rfl, rfl, rfl, rfl, rfl⟩
  · have hne := (ho.found hf).2.2.1
    have hs := executed_server (ho.found hf).1 ht
    have hrep : Kept t (clearReadBuf (replicate t c cmd) c) := by
      obtain ⟨w, b, o, p, e⟩ := replicate_frame t c cmd
      rw [e]
      exact ⟨rfl, rfl, rfl, rfl, rfl⟩
    refine Kept.trans ⟨?_, hs.clients, hs.aofOn, ?_, hs.replState hne⟩ hrep
    · exact hs.flags.trans (if_neg hne)
    · exact hs.master.trans (if_neg hne)

theorem call_unwatched (ho : Ordinary q) (hu : Unwatched s x) (hx : x ≠ c)
    (h : processCommand query env s c q = .ok t) : Unwatched t x := fun i k hw => by
  obtain hold | hwatch := call_adds ho.notExec h hw
  · exact hu i k hold
  · exact hx hwatch.1.symm

/-! ## Other clients -/

theorem markDirty_eq {a : RedisClient} (h : (markDirty a).flags = a.flags) : markDirty a = a := by
  show { a with flags := (markDirty a).flags } = a
  rw [h]

/-- The end of a command leaves a client that watches nothing. -/
theorem touch_eq {a : RedisClient} {s₂ : RedisServer}
    (h : (if cmd.write then touchWatchKey s₂ c q else pure s₂) = .ok t) (ha : s₂.client x = a)
    (hflags : cmd.write = true → (t.client x).flags = a.flags) : t.client x = a := by
  split at h
  · rename_i hw
    have hflags := hflags hw
    obtain ⟨key, db, -, -, rfl⟩ := touchWatchKey_ok.mp h
    rw [setDb_client] at hflags ⊢
    dsimp only at hflags ⊢
    split
    · rename_i hin
      rw [if_pos hin, ha] at hflags
      rw [ha, markDirty_eq hflags]
    · exact ha
  · rw [← pure_ok.mp h, ha]

theorem executed_flags (hc : cmd ∈ commandsTable) (hu : Unwatched s x)
    (h : executed query env s c cmd q = .ok t) (hw : cmd.write = true) :
    (t.client x).flags = (s.client x).flags := by
  have hcore := executed_core_write hc hw h x
  rw [if_neg (hu _ _)] at hcore
  exact core_flags hcore

/-- What runs before the replication does nothing to another client that watches nothing. -/
theorem executed_other (ho : Ordinary q) (hf : foundCommand s c q = some cmd) (hu : Unwatched s x)
    (h : executed query env s c cmd q = .ok t) (hx : x ≠ c) : t.client x = s.client x := by
  have hflags := executed_flags (mem_table hf) hu h
  obtain ⟨s₁, h₁, h⟩ := bind_ok.mp h
  obtain ⟨s₂, h₂, h⟩ := bind_ok.mp h
  refine touch_eq h ?_ hflags
  rw [(callProc_frame (ho.found hf).1 h₂).other x hx (ho.apart hf x), expireArg_client h₁,
    feedAof_other hx]

theorem propagate_client {l : List ClientId} (hl : l.Nodup) (b : Bytes) (s : RedisServer)
    (x : ClientId) : (l.foldl (fun s y => addWrite s y b) s).client x =
      if x ∈ l then { s.client x with writeBuf := sdscat (s.client x).writeBuf b } else s.client x := by
  have hbuf := addWrites_client hl b s x
  obtain ⟨w, e⟩ := addWrites_frame l b s
  rw [e] at hbuf ⊢
  dsimp only at hbuf ⊢
  rw [hbuf]
  split <;> rfl

/-- A master passes a write on to its slaves. -/
def Passes (s : RedisServer) (c : ClientId) (q : List Bytes) (x : ClientId) : Prop :=
  (∃ cmd ∈ foundCommand s c q, cmd.write = true) ∧ s.flags.master = true ∧ x ∈ slaves s

instance : Decidable (Passes s c q x) := by
  unfold Passes
  infer_instance

theorem replicate_client (hn : t.flags.master = true → t.clients.Nodup) (x : ClientId) :
    (replicate t c cmd).client x =
    if cmd.write = true ∧ t.flags.master = true ∧ x ∈ slaves t then
      { t.client x with writeBuf := sdscat (t.client x).writeBuf (t.client c).readBuf.buf }
    else t.client x := by
  by_cases hm : (cmd.write && t.flags.master) = true
  · obtain ⟨hw, hm'⟩ := Bool.and_eq_true_iff.mp hm
    have hslaves : (slaves t).Nodup := (hn hm').filter _
    have hfold := propagate_client hslaves (t.client c).readBuf.buf
      { t with backlog := addRepliBuf t.backlog (t.client c).readBuf.content } x
    rw [replicate, if_pos hm]
    simp only [hw, hm', true_and]
    split
    · exact hfold
    · exact hfold
  · have hnot : ¬ (cmd.write = true ∧ t.flags.master = true ∧ x ∈ slaves t) := fun hall =>
      hm (Bool.and_eq_true_iff.mpr ⟨hall.1, hall.2.1⟩)
    rw [if_neg hnot, replicate, if_neg hm]
    split <;> rfl

theorem call_other (hm : s.flags.master = true → s.clients.Nodup ∧ s.aofOn = false) (ho : Ordinary q)
    (hu : Unwatched s x) (hx : x ≠ c) (h : processCommand query env s c q = .ok s') :
    s'.client x = if Passes s c q x then
      { s.client x with writeBuf := sdscat (s.client x).writeBuf (s.client c).readBuf.buf }
    else s.client x := by
  obtain ⟨-, ⟨hf, rfl⟩ | ⟨cmd, t, hf, ht, rfl⟩⟩ := processCommand_ok.mp h
  · rw [clearReadBuf, modifyClient_of_ne _ _ _ hx, addWrite_of_ne _ hx, if_neg]
    · rfl
    · rintro ⟨⟨cmd, hcmd, -⟩, -⟩
      rw [hf] at hcmd
      cases hcmd
  have hs := executed_server (ho.found hf).1 ht
  have hother : t.client x = s.client x := executed_other (s := logCall s c q) ho hf hu ht hx
  have hflags : t.flags = s.flags := hs.flags.trans (if_neg (ho.found hf).2.2.1)
  have hclients : t.clients = s.clients := hs.clients
  have hmem : x ∈ slaves t ↔ x ∈ slaves s := by
    simp only [slaves, List.mem_filter, hclients, hother]
  have hpass : (cmd.write = true ∧ t.flags.master = true ∧ x ∈ slaves t) ↔ Passes s c q x := by
    simp [Passes, hf, hflags, hmem]
  have hn : t.flags.master = true → t.clients.Nodup := fun e => by
    rw [hclients]
    exact (hm (hflags ▸ e)).1
  rw [clearReadBuf, modifyClient_of_ne _ _ _ hx, replicate_client hn, hother]
  by_cases hp : Passes s c q x
  · have hbuf : (t.client c).readBuf = (s.client c).readBuf := by
      rw [executed_readBuf (ho.found hf).1 (ho.apart hf c) ht, feedAof,
        if_neg (by simp [logCall, (hm hp.2.1).2])]
      rfl
    rw [if_pos hp, if_pos (hpass.mpr hp), hbuf]
  · rw [if_neg hp, if_neg (mt hpass.mp hp)]

/-! ## The issuer -/

/-- A slave's count is as it was. -/
structure Uncounted (s t : RedisServer) : Prop where
  aofOn : t.aofOn = s.aofOn
  offset : t.offset = s.offset
  cfgOffset : t.cfgOffset = s.cfgOffset

theorem Uncounted.trans {u : RedisServer} (h : Uncounted s t) (h' : Uncounted t u) :
    Uncounted s u where
  aofOn := h'.aofOn.trans h.aofOn
  offset := h'.offset.trans h.offset
  cfgOffset := h'.cfgOffset.trans h.cfgOffset

theorem watchKeys_uncounted {args : List Bytes} : ∀ {s s' : RedisServer},
    args.foldlM (fun s arg => watchKey s c arg) s = .ok s' → Uncounted s s' := by
  induction args with
  | nil =>
    intro s s' h
    cases h
    exact ⟨rfl, rfl, rfl⟩
  | cons arg args ih =>
    intro s s' h
    obtain ⟨u, hu, h⟩ := bind_ok.mp h
    obtain ⟨db, -, rfl⟩ := watchKey_ok.mp hu
    have hadd : Uncounted s (s.setDb (s.client c).db (dbAddWatch db (cstr arg) c)) := ⟨rfl, rfl, rfl⟩
    exact hadd.trans (ih h)

theorem callProc_uncounted {proc : Proc} (hp : proc ≠ .exec) (hs : proc ≠ .slaveof)
    (h : callProc query env proc s c q = .ok t) : Uncounted s t := by
  have hbulk : ∀ {s t : RedisServer} {str : Bytes}, addWriteBulk s c str = .ok t →
      Uncounted s t := fun h => by
    obtain ⟨-, rfl⟩ := addWriteBulk_ok.mp h
    exact ⟨rfl, rfl, rfl⟩
  cases proc with
  | exec => exact absurd rfl hp
  | slaveof => exact absurd rfl hs
  | set =>
    obtain ⟨key, -, ⟨-, rfl⟩ | ⟨value, db, -, -, rfl⟩⟩ := commandSetProc_ok.mp h
    · exact ⟨rfl, rfl, rfl⟩
    · exact ⟨rfl, rfl, rfl⟩
  | del =>
    obtain ⟨key, db, -, -, rfl⟩ := commandDelProc_ok.mp h
    unfold afterDel
    split <;> exact ⟨rfl, rfl, rfl⟩
  | expire =>
    obtain ⟨key, arg, -, -, ⟨-, rfl⟩ | ⟨n, db, -, -, -, rfl⟩⟩ := commandExpireProc_ok.mp h
    · exact ⟨rfl, rfl, rfl⟩
    · unfold afterExpire
      split <;> exact ⟨rfl, rfl, rfl⟩
  | get =>
    obtain ⟨key, db, -, -, ⟨-, rfl⟩ | ⟨res, -, h⟩⟩ := commandGetProc_ok.mp h
    · exact ⟨rfl, rfl, rfl⟩
    · have hread := hbulk h
      exact ⟨hread.aofOn, hread.offset, hread.cfgOffset⟩
  | object =>
    obtain ⟨key, op, -, -, h⟩ := commandObjectProc_ok.mp h
    split at h
    · obtain ⟨db, -, ⟨-, rfl⟩ | ⟨res, -, h⟩⟩ := h
      · exact ⟨rfl, rfl, rfl⟩
      · have hread := hbulk h
        exact ⟨hread.aofOn, hread.offset, hread.cfgOffset⟩
    · rw [h]
      exact ⟨rfl, rfl, rfl⟩
  | sync =>
    obtain ⟨arg, -, -, rfl⟩ := commandSyncProc_ok.mp h
    unfold afterSync
    split <;> exact ⟨rfl, rfl, rfl⟩
  | select =>
    obtain ⟨arg, ha, ⟨hn, rfl⟩ | ⟨dbid, hn, h⟩⟩ := commandSelectProc_ok.mp h
    · exact ⟨rfl, rfl, rfl⟩
    · have hread := hbulk h
      exact ⟨hread.aofOn, hread.offset, hread.cfgOffset⟩
  | ttl =>
    obtain ⟨key, db0, -, -, ⟨-, rfl⟩ | ⟨db, -, -, -, h⟩⟩ := commandTtlProc_ok.mp h
    · exact ⟨rfl, rfl, rfl⟩
    · have hread := hbulk h
      exact ⟨hread.aofOn, hread.offset, hread.cfgOffset⟩
  | info =>
    obtain ⟨-, str, -, rfl⟩ := commandInfoProc_ok.mp h
    exact ⟨rfl, rfl, rfl⟩
  | watch =>
    obtain ⟨u, hu, rfl⟩ := commandWatchProc_ok.mp h
    have hwatch := watchKeys_uncounted hu
    exact ⟨hwatch.aofOn, hwatch.offset, hwatch.cfgOffset⟩
  | bye | ping | multi | replconf | replack | heartbeat =>
    cases h
    exact ⟨rfl, rfl, rfl⟩

/-- A command that does not write is not counted. -/
theorem call_uncounted (ho : Ordinary q) (hr : ∀ cmd ∈ foundCommand s c q, cmd.write = false)
    (h : processCommand query env s c q = .ok s') : Uncounted s s' := by
  obtain ⟨-, ⟨hf, rfl⟩ | ⟨cmd, t, hf, ht, rfl⟩⟩ := processCommand_ok.mp h
  · exact ⟨rfl, rfl, rfl⟩
  have hw := hr cmd hf
  obtain ⟨s₁, s₂, h₂, ⟨db, client, activeBuf, e₁⟩, db', client', e₂⟩ := executed_frame ht
  have hcall := callProc_uncounted (ho.found hf).1 (ho.found hf).2.2.1 h₂
  rw [e₁] at hcall
  rw [replicate_read hw, e₂]
  exact ⟨hcall.aofOn, hcall.offset, hcall.cfgOffset⟩

/-- Writes go into the backlog of a master. -/
theorem call_backlog (hm : s.flags.master = true) (hoff : s.aofOn = false) (ho : Ordinary q)
    (h : processCommand query env s c q = .ok s') :
    s'.backlog = if ∃ cmd ∈ foundCommand s c q, cmd.write = true then
      addRepliBuf s.backlog (s.client c).readBuf.content else s.backlog := by
  obtain ⟨-, ⟨hf, rfl⟩ | ⟨cmd, t, hf, ht, rfl⟩⟩ := processCommand_ok.mp h
  · rw [if_neg (by simp [hf])]
    rfl
  have hs := executed_server (ho.found hf).1 ht
  have hflags : t.flags = s.flags := hs.flags.trans (if_neg (ho.found hf).2.2.1)
  have hbacklog : t.backlog = s.backlog := hs.backlog
  have hbuf : (t.client c).readBuf = (s.client c).readBuf := by
    rw [executed_readBuf (ho.found hf).1 (ho.apart hf c) ht, feedAof, if_neg (by simp [logCall, hoff])]
    rfl
  have hwrite : (∃ cmd ∈ foundCommand s c q, cmd.write = true) ↔ cmd.write = true := by simp [hf]
  rw [clearReadBuf_backlog]
  simp only [hwrite]
  cases hw : cmd.write with
  | false =>
    rw [replicate_read hw, hbacklog]
    rfl
  | true =>
    obtain ⟨w, e⟩ := addWrites_frame (slaves t) (t.client c).readBuf.buf
      { t with backlog := addRepliBuf t.backlog (t.client c).readBuf.content }
    have hpasses : (cmd.write && t.flags.master) = true := by rw [hw, hflags, hm, Bool.and_self]
    have hfold : (commandPropagate { t with
        backlog := addRepliBuf t.backlog (t.client c).readBuf.content } (t.client c).readBuf).backlog =
        addRepliBuf t.backlog (t.client c).readBuf.content := congrArg RedisServer.backlog e
    rw [if_pos rfl, ← hbacklog, ← hbuf, replicate, if_pos hpasses]
    split
    · exact hfold
    · exact hfold

theorem clientAfter_idle (ho : Ordinary q) (h : ∀ y, (s.client y).flags.multi = false) (x : ClientId) :
    (clientAfter s c q x).flags.multi = false := by
  unfold clientAfter
  split
  · exact h x
  · rename_i cmd hf
    split
    · split <;> exact h x
    · split
      · unfold clientEffect
        split
        · rfl
        · exact absurd ‹_› (ho.found hf).2.1
        · split <;> exact h c
        · exact h c
      · exact h x

theorem call_multi (ho : Ordinary q) (hm : ∀ y, (s.client y).flags.multi = false)
    (h : processCommand query env s c q = .ok t) (x : ClientId) : (t.client x).flags.multi = false := by
  rw [core_flags (processCommand_core ho.notExec h fun _ hf => ho.apart hf x)]
  exact clientAfter_idle ho hm x

/-- Without a log, the read buffers are as they were, the issuer's empty. -/
theorem call_readBuf (ho : Ordinary q) (hoff : s.aofOn = false)
    (h : processCommand query env s c q = .ok s') (x : ClientId) :
    (s'.client x).readBuf = if x = c then sdsclear (s.client c).readBuf else (s.client x).readBuf := by
  have hclear : ∀ u : RedisServer, (∀ x, (u.client x).readBuf = (s.client x).readBuf) →
      ((clearReadBuf u c).client x).readBuf =
        if x = c then sdsclear (s.client c).readBuf else (s.client x).readBuf := fun u hu => by
    rw [clearReadBuf, modifyClient_client]
    split
    · rename_i hx
      rw [hx, ← hu c]
    · exact hu x
  obtain ⟨-, ⟨-, rfl⟩ | ⟨cmd, t, hf, ht, rfl⟩⟩ := processCommand_ok.mp h
  · exact hclear _ fun x => addWrite_field (logCall s c q) c _ (·.readBuf) (fun _ _ => rfl) x
  · refine hclear _ fun x => ?_
    rw [replicate_readBuf, executed_readBuf (ho.found hf).1 (ho.apart hf x) ht, feedAof,
      if_neg (by simp [logCall, hoff])]
    rfl

/-- How a SET or DEL is answered. -/
def writeReplies : List Bytes := [resp.ok, resp.valmissed, resp.keyNotFound]

theorem callProc_write {proc : Proc} (hp : proc = .set ∨ proc = .del)
    (h : callProc query env proc s c q = .ok t) : ∃ reply ∈ writeReplies,
      t.client c = { s.client c with writeBuf := sdscat (s.client c).writeBuf reply } := by
  have hadd : ∀ (s : RedisServer) (reply : Bytes), (addWrite s c reply).client c =
      { s.client c with writeBuf := sdscat (s.client c).writeBuf reply } := fun s reply => by
    rw [addWrite, modifyClient_self]
  rcases hp with rfl | rfl
  · obtain ⟨key, -, ⟨-, rfl⟩ | ⟨value, db, -, -, rfl⟩⟩ := commandSetProc_ok.mp h
    · exact ⟨resp.valmissed, by simp [writeReplies], hadd _ _⟩
    · exact ⟨resp.ok, by simp [writeReplies], hadd _ _⟩
  · obtain ⟨key, db, -, -, rfl⟩ := commandDelProc_ok.mp h
    unfold afterDel
    split
    · exact ⟨resp.ok, by simp [writeReplies], hadd _ _⟩
    · exact ⟨resp.keyNotFound, by simp [writeReplies], hadd _ _⟩

/-- On a slave, a SET or DEL gives its issuer the reply, and changes nothing else of it but the
read buffer. -/
theorem call_self (hm : s.flags.master = false) (ho : Ordinary q) (hu : Unwatched s c)
    (hf : foundCommand s c q = some cmd) (hw : cmd.write = true)
    (h : processCommand query env s c q = .ok s') : ∃ reply ∈ writeReplies, ∃ r,
      s'.client c = { s.client c with
        readBuf := r, writeBuf := sdscat (s.client c).writeBuf reply } := by
  obtain ⟨-, t, ht, rfl⟩ := (processCommand_found hf).mp h
  have hp : cmd.proc = .set ∨ cmd.proc = .del := by
    obtain hp | hp | hp := write_proc cmd (mem_table hf) hw
    · exact .inl hp
    · exact .inr hp
    · exact absurd hp (ho.found hf).2.2.2
  have hflags := executed_flags (s := logCall s c q) (mem_table hf) hu ht
  have hmaster : t.flags.master = false := by
    rw [(executed_server (ho.found hf).1 ht).flags, if_neg (ho.found hf).2.2.1]
    exact hm
  have hrep : (replicate t c cmd).client = t.client := by
    unfold replicate
    simp only [hmaster, Bool.and_false, Bool.false_eq_true, if_false]
    split <;> rfl
  rw [clearReadBuf, modifyClient_self, hrep]
  obtain ⟨s₁, h₁, ht⟩ := bind_ok.mp ht
  obtain ⟨s₂, h₂, ht⟩ := bind_ok.mp ht
  have e₁ : ∃ r, s₁.client c = { s.client c with readBuf := r } := by
    rw [expireArg_client h₁, feedAof]
    split
    · exact ⟨_, if_pos rfl⟩
    · exact ⟨_, rfl⟩
  obtain ⟨r, e₁⟩ := e₁
  obtain ⟨reply, hreply, e₂⟩ := callProc_write hp h₂
  rw [e₁] at e₂
  refine ⟨reply, hreply, sdsclear r, ?_⟩
  rw [touch_eq ht e₂ hflags]

end Fedis.Proof.Pair
