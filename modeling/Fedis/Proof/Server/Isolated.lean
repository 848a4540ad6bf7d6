import Fedis.Framework.Relational
import Fedis.Proof.Server.SetGet

/-!
# Databases are isolated from each other

Two servers that agree on the database a client has selected answer its command
alike and leave that database alike: `Same` relates such a pair, and each step of
a command keeps it (`feedAof_same`, `expireArg_same`, `touchWatchKey_same`, and
`executed_same` of them all). TTL is the exception, which looks a key up in the first
database's deadlines whatever database is selected (`isolated_ok`).
-/

namespace Fedis.Proof.Server

open Framework

variable {query query' : RedisServer → ClientId → Except Fault RedisServer} {env env' : Env}
  {s s' : RedisServer} {c : ClientId} {argv : List Bytes} {cmd : RedisCommand} {i : Int}
  {w w' : Bytes}

/-- Two servers, in both of which the client has selected database `i`: the
database is the same, and the client has been sent the same since its write
buffers held `w` and `w'`. -/
structure Same (c : ClientId) (i : Int) (w w' : Bytes) (s s' : RedisServer) : Prop where
  index : (s.client c).db = i ∧ (s'.client c).db = i
  db : s.getDb i = s'.getDb i
  reply : ∃ r, (s.client c).writeBuf.content = w ++ r ∧ (s'.client c).writeBuf.content = w' ++ r

namespace Same

variable (h : Same c i w w' s s')
include h

theorem addWrite (b : Bytes) : Same c i w w' (addWrite s c b) (addWrite s' c b) where
  index := by
    rw [core_db (addWrite_core ..), core_db (addWrite_core ..)]
    exact h.index
  db := h.db
  reply := by
    obtain ⟨r, h₁, h₂⟩ := h.reply
    refine ⟨r ++ cstr b, ?_, ?_⟩
    · rw [addWrite_content, h₁, List.append_assoc]
    · rw [addWrite_content, h₂, List.append_assoc]

theorem addWriteBulk (str : Bytes) :
    Both (Same c i w w') (addWriteBulk s c str) (addWriteBulk s' c str) := by
  unfold Fedis.addWriteBulk
  refine (Both.of_eq rfl).bind fun a b _ _ e => ?_
  subst e
  exact h.addWrite a

theorem setDirty (d d' : Int) : Same c i w w' { s with dirty := d } { s' with dirty := d' } :=
  ⟨h.index, h.db, h.reply⟩

theorem setDb {db : RedisDb} (hdb : s.getDb i = .ok db) (db' : RedisDb) :
    Same c i w w' (s.setDb i db') (s'.setDb i db') where
  index := h.index
  db := by rw [getDb_setDb hdb, getDb_setDb (h.db ▸ hdb)]
  reply := h.reply

/-- The selected database is read. -/
theorem getDb : Both (fun db db' => db = db' ∧ s.getDb i = .ok db) (s.getDb (s.client c).db)
    (s'.getDb (s'.client c).db) := by
  rw [h.index.1, h.index.2, ← h.db]
  cases s.getDb i with
  | error e => exact rfl
  | ok db => exact ⟨rfl, rfl⟩

end Same

theorem argAt_both (argv : List Bytes) (n : Nat) : Both Eq (argAt argv n) (argAt argv n) := Both.of_eq rfl

section Handlers

variable (h : Same c i w w' s s')
include h

theorem commandSetProc_same :
    Both (Same c i w w') (commandSetProc s c argv) (commandSetProc s' c argv) := by
  unfold commandSetProc
  refine (argAt_both argv 1).bind fun key _ _ _ e => ?_
  subst e
  split
  · exact h.addWrite _
  · refine (argAt_both argv 2).bind fun value _ _ _ e => ?_
    subst e
    refine h.getDb.bind fun db _ _ _ e => ?_
    obtain ⟨rfl, hdb⟩ := e
    dsimp only
    have hset := h.setDb hdb (dbAdd db (cstr key) (robjCreateStringObject value)).2
    rw [h.index.1, h.index.2]
    split
    · exact (hset.addWrite resp.ok).setDirty _ _
    · exact hset.addWrite _

theorem commandGetProc_same :
    Both (Same c i w w') (commandGetProc s c argv) (commandGetProc s' c argv) := by
  unfold commandGetProc
  refine (argAt_both argv 1).bind fun key _ _ _ e => ?_
  subst e
  refine h.getDb.bind fun db _ _ _ e => ?_
  obtain ⟨rfl, -⟩ := e
  split
  · exact h.addWrite _
  · exact h.addWriteBulk _

theorem commandDelProc_same :
    Both (Same c i w w') (commandDelProc s c argv) (commandDelProc s' c argv) := by
  unfold commandDelProc
  refine (argAt_both argv 1).bind fun key _ _ _ e => ?_
  subst e
  refine h.getDb.bind fun db _ _ _ e => ?_
  obtain ⟨rfl, hdb⟩ := e
  dsimp only
  have hset := h.setDb hdb (dbDelete db (cstr key)).2
  rw [h.index.1, h.index.2]
  split
  · exact (hset.addWrite resp.ok).setDirty _ _
  · exact hset.addWrite _

theorem commandObjectProc_same :
    Both (Same c i w w') (commandObjectProc s c argv) (commandObjectProc s' c argv) := by
  unfold commandObjectProc
  refine (argAt_both argv 2).bind fun key _ _ _ e => ?_
  subst e
  refine (argAt_both argv 1).bind fun op _ _ _ e => ?_
  subst e
  split
  · refine h.getDb.bind fun db _ _ _ e => ?_
    obtain ⟨rfl, -⟩ := e
    split
    · exact h.addWrite _
    · exact h.addWriteBulk _
  · exact h

theorem commandExpireProc_same (ht : env.now = env'.now) :
    Both (Same c i w w') (commandExpireProc env s c argv) (commandExpireProc env' s' c argv) := by
  unfold commandExpireProc
  refine (argAt_both argv 1).bind fun key _ _ _ e => ?_
  subst e
  refine (argAt_both argv 2).bind fun arg _ _ _ e => ?_
  subst e
  rw [ht]
  split
  · exact h.addWrite _
  · rename_i n _
    split
    · exact rfl
    · refine h.getDb.bind fun db _ _ _ e => ?_
      obtain ⟨rfl, hdb⟩ := e
      dsimp only
      have hset := h.setDb hdb (dbSetExpire db (cstr key) (n + env'.now)).2
      rw [h.index.1, h.index.2]
      split
      · exact (hset.addWrite resp.ok).setDirty _ _
      · exact hset.addWrite _

/-- In the first database TTL is right. -/
theorem commandTtlProc_same (ht : env.now = env'.now) (hi : i = 0) :
    Both (Same c i w w') (commandTtlProc env s c argv) (commandTtlProc env' s' c argv) := by
  unfold commandTtlProc
  refine (argAt_both argv 1).bind fun key _ _ _ e => ?_
  subst e
  have hzero : s.getDb 0 = s'.getDb 0 := by
    rw [← hi]
    exact h.db
  refine (Both.of_eq hzero).bind fun db0 _ _ _ e => ?_
  subst e
  split
  · refine h.getDb.bind fun db _ _ _ e => ?_
    obtain ⟨rfl, -⟩ := e
    dsimp only
    rw [ht]
    split
    · exact h.addWriteBulk _
    · exact rfl
  · exact h.addWrite _

theorem commandWatchProc_same :
    Both (Same c i w w') (commandWatchProc s c argv) (commandWatchProc s' c argv) := by
  unfold commandWatchProc
  have hloop : Both (Same c i w w')
      ((argv.drop 1).foldlM (fun s arg => watchKey s c arg) s)
      ((argv.drop 1).foldlM (fun s arg => watchKey s c arg) s') := by
    refine Both.foldlM (fun s s' arg h => ?_) _ h
    unfold watchKey
    refine h.getDb.bind fun db _ _ _ e => ?_
    obtain ⟨rfl, hdb⟩ := e
    rw [h.index.1, h.index.2]
    exact h.setDb hdb _
  exact hloop.bind fun _ _ _ _ h => h.addWrite _

/-! ## The steps around the handler -/

theorem feedAof_same : Same c i w w' (feedAof s c cmd) (feedAof s' c cmd) := by
  refine ⟨?_, ?_, ?_⟩
  · rw [core_db feedAof_core, core_db feedAof_core]
    exact h.index
  · simp only [RedisServer.getDb, feedAof_db]
    exact h.db
  · rw [feedAof_writeBuf, feedAof_writeBuf]
    exact h.reply

theorem expireArg_same (ht : env.now = env'.now) :
    Both (Same c i w w') (expireArg env s c cmd argv) (expireArg env' s' c cmd argv) := by
  unfold expireArg
  split
  · refine (argAt_both argv 1).bind fun key _ _ _ e => ?_
    subst e
    refine h.getDb.bind fun db _ _ _ e => ?_
    obtain ⟨rfl, hdb⟩ := e
    rw [ht, h.index.1, h.index.2]
    exact h.setDb hdb _
  · exact h

theorem touchWatchKey_same :
    Both (Same c i w w') (touchWatchKey s c argv) (touchWatchKey s' c argv) := by
  have hmark : ∀ (l : List ClientId) {s s' : RedisServer}, Same c i w w' s s' →
      Same c i w w' (l.foldl (fun s x => s.modifyClient x markDirty) s)
        (l.foldl (fun s x => s.modifyClient x markDirty) s') := by
    intro l s s' h
    rw [markAll_eq, markAll_eq]
    have hfield : ∀ s : RedisServer,
        ((if c ∈ l then markDirty (s.client c) else s.client c) : RedisClient).db = (s.client c).db ∧
        ((if c ∈ l then markDirty (s.client c) else s.client c) : RedisClient).writeBuf =
          (s.client c).writeBuf := by
      intro s
      split <;> exact ⟨rfl, rfl⟩
    refine ⟨⟨(hfield s).1.trans h.index.1, (hfield s').1.trans h.index.2⟩, h.db, ?_⟩
    dsimp only
    rw [(hfield s).2, (hfield s').2]
    exact h.reply
  unfold touchWatchKey
  refine (argAt_both argv 1).bind fun key _ _ _ e => ?_
  subst e
  refine h.getDb.bind fun db _ _ _ e => ?_
  obtain ⟨rfl, hdb⟩ := e
  split
  · have hset := (hmark (mapFetchValue db.watchedKeys (cstr key)) h)
    have hdb' : (List.foldl (fun s x => s.modifyClient x markDirty) s
        (mapFetchValue db.watchedKeys (cstr key))).getDb i = .ok db := by
      rw [markAll_eq]
      exact hdb
    rw [h.index.1, h.index.2]
    exact hset.setDb hdb' { db with watchedKeys := db.watchedKeys.insert (cstr key) [] }
  · exact h

end Handlers

/-! ## Commands on a database -/

/-- The commands that work on the selected database. -/
def OnDb (proc : Proc) : Prop :=
  proc = .set ∨ proc = .get ∨ proc = .del ∨ proc = .object ∨ proc = .expire ∨ proc = .ttl ∨ proc = .watch

instance : DecidablePred OnDb := fun _ => instDecidableOr

/-- The command's answer and the database that is selected after it depend only on
that database and the clock, and the other databases are as they were. -/
structure Isolated (cmd : RedisCommand) (argv : List Bytes) (i : Int) : Prop where
  same : ∀ query query' env env' s s' c, env.now = env'.now → (s.client c).db = i →
    (s'.client c).db = i → s.getDb i = s'.getDb i →
    Both (Same c i (s.client c).writeBuf.content (s'.client c).writeBuf.content)
      (executed query env s c cmd argv) (executed query' env' s' c cmd argv)
  other : ∀ query env s c t, (s.client c).db = i → executed query env s c cmd argv = .ok t →
    ∀ j : Nat, (j : Int) ≠ i → t.db[j]? = s.db[j]?

theorem watch_entry : ∀ cmd ∈ commandsTable, OnDb cmd.proc → cmd.read = false → cmd.write = false →
    cmd.proc = .watch := by decide

theorem ttl_entry : ∀ cmd ∈ commandsTable, cmd.proc = .ttl → cmd.read = true ∧ cmd.write = false := by
  decide

/-- A command on a database that returns has one, or it is WATCH without a key. -/
theorem executed_index_nonneg (hc : cmd ∈ commandsTable) (hp : OnDb cmd.proc) {t : RedisServer}
    (h : executed query env s c cmd argv = .ok t) :
    0 ≤ (s.client c).db ∨ t.db = s.db := by
  by_cases hrw : (cmd.read || cmd.write) = true
  · left
    obtain ⟨s₁, h₁, -⟩ := bind_ok.mp h
    rw [expireArg_ok, if_pos hrw] at h₁
    obtain ⟨key, db, -, hdb, -⟩ := h₁
    have hcore : core ((feedAof s c cmd).client c) = core (s.client c) := feedAof_core
    rw [← core_db hcore]
    exact (getDb_ok.mp hdb).1
  · rw [Bool.not_eq_true, Bool.or_eq_false_iff] at hrw
    rw [executed_handler hrw.1 hrw.2, watch_entry cmd hc hp hrw.1 hrw.2] at h
    obtain ⟨s₁, h₁, rfl⟩ := commandWatchProc_ok.mp h
    cases hargs : argv.drop 1 with
    | nil =>
      right
      rw [hargs] at h₁
      cases h₁
      rfl
    | cons arg args =>
      left
      rw [hargs, List.foldlM_cons] at h₁
      obtain ⟨_, h₁, -⟩ := bind_ok.mp h₁
      obtain ⟨db, hdb, -⟩ := watchKey_ok.mp h₁
      exact (getDb_ok.mp hdb).1

theorem executed_other (hc : cmd ∈ commandsTable) (hp : OnDb cmd.proc) {t : RedisServer}
    (hi : (s.client c).db = i) (h : executed query env s c cmd argv = .ok t) (j : Nat)
    (hj : (j : Int) ≠ i) : t.db[j]? = s.db[j]? := by
  rcases executed_index_nonneg hc hp h with hpos | e
  · have hne : cmd.proc ≠ .exec := by
      rintro e
      rw [e] at hp
      exact absurd hp (by decide)
    have hij : (s.client c).db.toNat ≠ j := by omega
    rw [executed_db hc hne h, List.getElem?_modify]
    simp [hij]
  · rw [e]

/-- A command that is not TTL, or works on the first database. -/
theorem executed_same (hp : OnDb cmd.proc) (hi : cmd.proc = .ttl → i ≤ 0 ∨ argv.length < 2)
    (hr : cmd.proc = .ttl → cmd.read = true) (ht : env.now = env'.now) (h : Same c i w w' s s') :
    Both (Same c i w w') (executed query env s c cmd argv) (executed query' env' s' c cmd argv) := by
  unfold executed
  refine (expireArg_same (feedAof_same h) ht).bind fun s₁ s₁' e₁ _ h₁ => ?_
  have hcall : Both (Same c i w w') (callProc query env cmd.proc s₁ c argv)
      (callProc query' env' cmd.proc s₁' c argv) := by
    rcases hp with e | e | e | e | e | e | e
    · rw [e]
      exact commandSetProc_same h₁
    · rw [e]
      exact commandGetProc_same h₁
    · rw [e]
      exact commandDelProc_same h₁
    · rw [e]
      exact commandObjectProc_same h₁
    · rw [e]
      exact commandExpireProc_same h₁ ht
    · rw [expireArg_ok, if_pos (by simp [hr e])] at e₁
      obtain ⟨key, db, hk, hdb, -⟩ := e₁
      have hlen := (List.getElem?_eq_some_iff.mp hk).1
      have hnonneg := (getDb_ok.mp hdb).1
      have hfeed : Same c i w w' (feedAof s c cmd) (feedAof s' c cmd) := feedAof_same h
      rw [hfeed.index.1] at hnonneg
      have := hi e
      rw [e]
      exact commandTtlProc_same h₁ ht (by omega)
    · rw [e]
      exact commandWatchProc_same h₁
  refine hcall.bind fun s₂ s₂' _ _ h₂ => ?_
  split
  · exact touchWatchKey_same h₂
  · exact h₂

/-! ## TTL in another database -/

/-- A server with `first` as its first database, and client 0 in database `i`. -/
def inDb (i : Int) (first : RedisDb) : RedisServer :=
  { initServer 1 ⟨true, false, false⟩ 0 false with
    db := first :: List.replicate i.toNat dbInit
    client := fun _ => { redisClientCreate [] 0 with db := i } }

section Ttl

variable (hi : 0 < i) {first : RedisDb} {key : Bytes} (hk : argv[1]? = some key)

include hi

theorem inDb_getDb : (inDb i first).getDb i = .ok dbInit := by
  obtain ⟨n, hn⟩ : ∃ n, i.toNat = n + 1 := ⟨i.toNat - 1, by omega⟩
  rw [getDb_ok]
  refine ⟨by omega, ?_⟩
  simp [inDb, hn]

include hk

theorem expireArg_inDb (hr : cmd.read = true) :
    expireArg ⟨0, none⟩ (inDb i first) 0 cmd argv = .ok (inDb i first) := by
  rw [expireArg_ok, if_pos (by simp [hr])]
  refine ⟨key, dbInit, hk, inDb_getDb hi, ?_⟩
  obtain ⟨n, hn⟩ : ∃ n, i.toNat = n + 1 := ⟨i.toNat - 1, by omega⟩
  have hset : (first :: List.replicate i.toNat dbInit).set i.toNat
      (expireIfNeed dbInit (cstr key) 0) = first :: List.replicate i.toNat dbInit := by
    rw [hn, List.set_cons_succ]
    exact congrArg _ List.set_replicate_self
  exact congrArg (fun db => { inDb i first with db := db }) hset.symm

/-- TTL there answers by the first database's deadlines. -/
theorem executed_inDb (hc : cmd ∈ commandsTable) (hp : cmd.proc = .ttl) :
    executed query ⟨0, none⟩ (inDb i first) 0 cmd argv = .ok (addWrite (inDb i first) 0
      (if cstr key ∈ first.expires then bulkString (bytes "ttl:0s") else resp.keyNotFound)) := by
  obtain ⟨hr, hw⟩ := ttl_entry cmd hc hp
  have hfeed : feedAof (inDb i first) 0 cmd = inDb i first := if_neg (by simp [hw])
  have hzero : (inDb i first).getDb 0 = .ok first := rfl
  have hcall : commandTtlProc ⟨0, none⟩ (inDb i first) 0 argv = .ok (addWrite (inDb i first) 0
      (if cstr key ∈ first.expires then bulkString (bytes "ttl:0s") else resp.keyNotFound)) := by
    rw [commandTtlProc_ok]
    refine ⟨key, first, hk, hzero, ?_⟩
    have httl : dbGetTTL dbInit (cstr key) 0 = 0 := by simp [dbGetTTL, mapFetchValue, dbInit]
    have hstr : cstr (bytes "ttl:" ++ decimalInt 0 ++ bytes "s") = bytes "ttl:0s" := by decide
    by_cases hm : cstr key ∈ first.expires
    · refine .inr ⟨dbInit, hm, inDb_getDb hi, by rw [httl]; decide, ?_⟩
      rw [if_pos hm, httl, addWriteBulk_ok, hstr]
      exact ⟨by decide, rfl⟩
    · exact .inl ⟨hm, by rw [if_neg hm]⟩
  rw [executed, hfeed, expireArg_inDb hi hk hr, ok_bind, hp]
  show (commandTtlProc ⟨0, none⟩ (inDb i first) 0 argv >>= _) = _
  rw [hcall, ok_bind, if_neg (by simp [hw])]
  rfl

end Ttl

/-- The first database decides whether a key of another one has a deadline. -/
theorem not_isolated (hc : cmd ∈ commandsTable) (hp : cmd.proc = .ttl) (hi : 0 < i)
    (hl : 2 ≤ argv.length) : ¬ Isolated cmd argv i := by
  intro h
  have hk : argv[1]? = some argv[1] := List.getElem?_eq_getElem (by omega)
  have hsame := h.same (fun _ _ => .error .undefined) (fun _ _ => .error .undefined) ⟨0, none⟩ ⟨0, none⟩
    (inDb i { dbInit with expires := dbInit.expires.insert (cstr argv[1]) 0 }) (inDb i dbInit) 0 rfl rfl
    rfl (by rw [inDb_getDb hi, inDb_getDb hi])
  rw [executed_inDb hi hk hc hp, executed_inDb hi hk hc hp] at hsame
  have hno : cstr argv[1] ∉ dbInit.expires := Finmap.notMem_empty
  obtain ⟨r, h₁, h₂⟩ := Same.reply hsame
  rw [addWrite_content, if_pos (Finmap.mem_insert.mpr (.inl rfl))] at h₁
  rw [addWrite_content, if_neg hno] at h₂
  have e := (List.append_cancel_left h₁).trans (List.append_cancel_left h₂).symm
  exact absurd e (by decide)

/-- **Databases are isolated, but for TTL outside the first one.** The command of
an entry that works on databases depends on the selected one alone, and changes no
other, iff it is not TTL or is so of the first database; TTL without a key, or in
no database, is undefined in every state. -/
theorem isolated_ok {cmd : RedisCommand} (hc : cmd ∈ commandsTable) (hp : OnDb cmd.proc)
    (argv : List Bytes) (i : Int) :
    Isolated cmd argv i ↔ (cmd.proc = .ttl → i ≤ 0 ∨ argv.length < 2) := by
  constructor
  · intro h ht
    by_contra hn
    exact not_isolated hc ht (by omega) (by omega) h
  · intro h
    refine ⟨fun query query' env env' s s' c ht hi hi' hdb => ?_, fun query env s c t hi ht => ?_⟩
    · exact executed_same hp h (fun e => (ttl_entry cmd hc e).1) ht
        ⟨⟨hi, hi'⟩, hdb, [], (List.append_nil _).symm, (List.append_nil _).symm⟩
    · exact executed_other hc hp hi ht

/-- GET in the fourth database, and TTL in the first one. -/
theorem isolated_ok_two : Isolated getEntry [bytes "GET", bytes "k"] 3 ∧
    Isolated ⟨false, true, bytes "TTL", .ttl, 2⟩ [bytes "TTL", bytes "k"] 0 :=
  ⟨(isolated_ok (by decide) (.inr (.inl rfl)) _ _).mpr (fun e => absurd e (by decide)),
    (isolated_ok (by decide) (by decide) _ _).mpr (fun _ => .inl (by decide))⟩

/-- In the second database TTL finds a key's deadline if the first one has the key. -/
theorem ttl_crosses :
    ¬ Isolated ⟨false, true, bytes "TTL", .ttl, 2⟩ [bytes "TTL", bytes "k"] 1 ∧
    (run serve (initServer 1 ⟨true, false, false⟩ 2 false)
      [sampleRead 7 [bytes "SELECT", bytes "1"], sampleRead 7 [bytes "EXPIRE", bytes "k", bytes "100"],
        sampleRead 7 [bytes "TTL", bytes "k"]]).map (fun r => (r.2.client 7).writeBuf.content) =
      some (bulkString (bytes "OK, db is 1") ++ resp.ok ++ resp.keyNotFound) :=
  ⟨not_isolated (by decide) rfl (by decide) (by decide), by decide⟩

end Fedis.Proof.Server
