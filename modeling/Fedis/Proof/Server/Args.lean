import Fedis.Impl.Args
import Fedis.Proof.Server.SetGet
import Fedis.Proof.Server.Watch

/-!
# Requests with too few arguments

Nothing compares a request with the arity of its command. A handler reads the
arguments it needs (`argReads`), and a read behind the last one is undefined
(`argReads_lt`); SET with its key alone is the one request that is checked.
`args_ok` says which requests are handled as if the arity were.
-/

namespace Fedis.Proof.Server

open Framework

variable {query : RedisServer → ClientId → Except Fault RedisServer} {env : Env}
  {s s' t : RedisServer} {c x : ClientId} {argv argv' : List Bytes} {cmd : RedisCommand} {n : Nat}

/-! ## What is read -/

theorem argAt_congr {i : Nat} (h : argv[i]? = argv'[i]?) : argAt argv i = argAt argv' i := by
  simp only [argAt, h]

/-- A handler reads no other argument. -/
theorem callProc_congr {proc : Proc} (hl : argv.length = argv'.length)
    (h : ∀ i ∈ procReads argv.length proc, argv[i]? = argv'[i]?) :
    callProc query env proc s c argv = callProc query env proc s c argv' := by
  have at1 : 1 ∈ procReads argv.length proc → argAt argv 1 = argAt argv' 1 := fun hm =>
    argAt_congr (h 1 hm)
  have at2 : 2 ∈ procReads argv.length proc → argAt argv 2 = argAt argv' 2 := fun hm =>
    argAt_congr (h 2 hm)
  cases proc with
  | bye | ping | replconf | replack | info | heartbeat | multi | exec => rfl
  | get =>
    show commandGetProc s c argv = commandGetProc s c argv'
    rw [commandGetProc, commandGetProc, at1 (by simp [procReads])]
  | del =>
    show commandDelProc s c argv = commandDelProc s c argv'
    rw [commandDelProc, commandDelProc, at1 (by simp [procReads])]
  | slaveof =>
    show commandSlaveofProc env s c argv = commandSlaveofProc env s c argv'
    rw [commandSlaveofProc, commandSlaveofProc, at1 (by simp [procReads])]
  | sync =>
    show commandSyncProc s c argv = commandSyncProc s c argv'
    rw [commandSyncProc, commandSyncProc, at1 (by simp [procReads])]
  | select =>
    show commandSelectProc s c argv = commandSelectProc s c argv'
    rw [commandSelectProc, commandSelectProc, at1 (by simp [procReads])]
  | ttl =>
    show commandTtlProc env s c argv = commandTtlProc env s c argv'
    rw [commandTtlProc, commandTtlProc, at1 (by simp [procReads])]
  | object =>
    show commandObjectProc s c argv = commandObjectProc s c argv'
    rw [commandObjectProc, commandObjectProc, at1 (by simp [procReads]), at2 (by simp [procReads])]
  | expire =>
    show commandExpireProc env s c argv = commandExpireProc env s c argv'
    rw [commandExpireProc, commandExpireProc, at1 (by simp [procReads]), at2 (by simp [procReads])]
  | set =>
    show commandSetProc s c argv = commandSetProc s c argv'
    rw [commandSetProc, commandSetProc, ← hl]
    by_cases h2 : argv.length = 2
    · simp only [at1 (by simp [procReads, h2]), if_pos h2]
    · simp only [at1 (by simp [procReads, h2]), if_neg h2, at2 (by simp [procReads, h2])]
  | watch =>
    have hdrop : argv.drop 1 = argv'.drop 1 := by
      apply List.ext_getElem?
      intro i
      rw [List.getElem?_drop, List.getElem?_drop]
      by_cases hi : i < argv.length - 1
      · exact h (1 + i) (List.mem_range'_1.mpr ⟨by omega, by omega⟩)
      · rw [List.getElem?_eq_none (by omega), List.getElem?_eq_none (by omega)]
    show commandWatchProc s c argv = commandWatchProc s c argv'
    rw [commandWatchProc, commandWatchProc, hdrop]

theorem lt_of_getElem? {i : Nat} {arg : Bytes} (h : argv[i]? = some arg) : i < argv.length :=
  (List.getElem?_eq_some_iff.mp h).1

/-- A handler that returns has read arguments that it was given. -/
theorem procReads_lt {proc : Proc} (h : callProc query env proc s c argv = .ok s') :
    ∀ i ∈ procReads argv.length proc, i < argv.length := by
  cases proc with
  | bye | ping | replconf | replack | info | heartbeat | multi | exec =>
    exact List.forall_mem_nil _
  | get =>
    obtain ⟨key, db, hk, -⟩ := commandGetProc_ok.mp h
    exact List.forall_mem_singleton.mpr (lt_of_getElem? hk)
  | del =>
    obtain ⟨key, db, hk, -⟩ := commandDelProc_ok.mp h
    exact List.forall_mem_singleton.mpr (lt_of_getElem? hk)
  | slaveof =>
    obtain ⟨arg, _, _, _, ha, -⟩ := commandSlaveofProc_ok.mp h
    exact List.forall_mem_singleton.mpr (lt_of_getElem? ha)
  | sync =>
    obtain ⟨arg, ha, -⟩ := commandSyncProc_ok.mp h
    exact List.forall_mem_singleton.mpr (lt_of_getElem? ha)
  | select =>
    obtain ⟨arg, ha, -⟩ := commandSelectProc_ok.mp h
    exact List.forall_mem_singleton.mpr (lt_of_getElem? ha)
  | ttl =>
    obtain ⟨key, db, hk, -⟩ := commandTtlProc_ok.mp h
    exact List.forall_mem_singleton.mpr (lt_of_getElem? hk)
  | object =>
    obtain ⟨key, op, hk, ho, -⟩ := commandObjectProc_ok.mp h
    exact List.forall_mem_cons.mpr
      ⟨lt_of_getElem? hk, List.forall_mem_singleton.mpr (lt_of_getElem? ho)⟩
  | expire =>
    obtain ⟨key, arg, hk, ha, -⟩ := commandExpireProc_ok.mp h
    exact List.forall_mem_cons.mpr
      ⟨lt_of_getElem? hk, List.forall_mem_singleton.mpr (lt_of_getElem? ha)⟩
  | set =>
    obtain ⟨key, hk, ⟨h2, -⟩ | ⟨value, db, hv, -⟩⟩ := commandSetProc_ok.mp h
    · intro i hi
      rw [procReads, if_pos h2] at hi
      cases List.mem_singleton.mp hi
      exact lt_of_getElem? hk
    · have := lt_of_getElem? hv
      intro i hi
      rw [procReads, if_neg (by omega)] at hi
      simp only [List.mem_cons, List.not_mem_nil, or_false] at hi
      omega
  | watch =>
    intro i hi
    have := List.mem_range'_1.mp hi
    omega

/-- A request that reads an argument it was not given is undefined. -/
theorem argReads_lt (h : processCommand query env s c argv = .ok s') :
    ∀ i ∈ argReads argv.length (foundCommand s c argv), i < argv.length := by
  obtain ⟨hne, h⟩ := processCommand_ok.mp h
  have hpos := List.length_pos_of_ne_nil hne
  rcases h with ⟨hf, -⟩ | ⟨cmd, t, hf, ht, -⟩
  · rw [hf]
    exact List.forall_mem_singleton.mpr hpos
  · obtain ⟨s₁, h₁, ht⟩ := bind_ok.mp ht
    obtain ⟨s₂, h₂, -⟩ := bind_ok.mp ht
    have hkey : cmd.read = true ∨ cmd.write = true → 1 < argv.length := fun hrw => by
      rw [← Bool.or_eq_true] at hrw
      have h₁ := expireArg_ok.mp h₁
      rw [if_pos hrw] at h₁
      obtain ⟨key, db, hk, -⟩ := h₁
      exact lt_of_getElem? hk
    intro i hi
    rw [hf, argReads] at hi
    simp only [List.mem_cons, List.mem_append, List.mem_ite_nil_right, List.not_mem_nil, or_false,
      Bool.or_eq_true] at hi
    rcases hi with rfl | (⟨hrw, rfl⟩ | hi) | ⟨hw, rfl⟩
    · exact hpos
    · exact hkey hrw
    · exact procReads_lt h₂ i hi
    · exact hkey (.inr hw)

/-! ## What is answered -/

/-- The request is answered with an error, and the databases are as they were. -/
def Rejected (s : RedisServer) (c : ClientId) (r : Except Fault RedisServer) : Prop :=
  ∃ s' reply, r = .ok s' ∧ s'.db = s.db ∧ reply.head? = some 45 ∧
    (s'.client c).writeBuf.content = (s.client c).writeBuf.content ++ reply

/-- The request reads no argument that it was not given, and is refused if it has
too few for its command. -/
structure ArgsOk (query : RedisServer → ClientId → Except Fault RedisServer) (env : Env)
    (s : RedisServer) (c : ClientId) (argv : List Bytes) : Prop where
  reads : ∀ i ∈ argReads argv.length (foundCommand s c argv), i < argv.length
  refused : ∀ cmd, foundCommand s c argv = some cmd → argv.length < cmd.arity →
    Rejected s c (processCommand query env s c argv)

/-- The key is neither there and past its deadline nor watched. -/
def Untouched (db : RedisDb) (key : Bytes) (now : Int) : Prop :=
  ¬ (key ∈ db.kv ∧ key ∈ db.expires ∧ mapFetchValue db.expires key < now) ∧ watchList db key = []

/-- The request has as many arguments as its command takes, or it is SET with
nothing but an untouched key. -/
def ArgsGiven (env : Env) (s : RedisServer) (c : ClientId) (argv : List Bytes) : Prop :=
  argv ≠ [] ∧ ∀ cmd, foundCommand s c argv = some cmd → argv.length < cmd.arity →
    cmd.proc = .set ∧ argv.length = 2 ∧
      ∃ db, s.getDb (s.client c).db = .ok db ∧ Untouched db (keyOf argv) env.now

/-- The number of arguments that a handler needs. -/
def procNeeds : Proc → Nat
  | .set | .object | .expire => 3
  | .get | .del | .slaveof | .sync | .select | .ttl => 2
  | _ => 1

theorem procReads_needs {proc : Proc} (h : procNeeds proc ≤ n) : ∀ i ∈ procReads n proc, i < n := by
  intro i hi
  cases proc with
  | bye | ping | replconf | replack | info | heartbeat | multi | exec => cases hi
  | get | del | slaveof | sync | select | ttl =>
    cases List.mem_singleton.mp hi
    exact h
  | object | expire =>
    simp only [procReads, List.mem_cons, List.not_mem_nil, or_false] at hi
    simp only [procNeeds] at h
    omega
  | set =>
    simp only [procNeeds] at h
    rw [procReads, if_neg (by omega)] at hi
    simp only [List.mem_cons, List.not_mem_nil, or_false] at hi
    omega
  | watch =>
    have := List.mem_range'_1.mp hi
    omega

/-- A command's arity covers what is read for it. -/
theorem arity_covers : ∀ cmd ∈ commandsTable,
    1 ≤ cmd.arity ∧ (cmd.read = true ∨ cmd.write = true → 2 ≤ cmd.arity) ∧
      procNeeds cmd.proc ≤ cmd.arity := by
  decide

theorem reads_given (hc : cmd ∈ commandsTable) (h : cmd.arity ≤ n) :
    ∀ i ∈ argReads n (some cmd), i < n := by
  obtain ⟨hname, hkey, hproc⟩ := arity_covers cmd hc
  intro i hi
  simp only [argReads, List.mem_cons, List.mem_append, List.mem_ite_nil_right, List.not_mem_nil,
    or_false, Bool.or_eq_true] at hi
  rcases hi with rfl | (⟨hrw, rfl⟩ | hi) | ⟨hw, rfl⟩
  · omega
  · have := hkey hrw
    omega
  · exact procReads_needs (by omega) i hi
  · have := hkey (.inr hw)
    omega

/-- With fewer arguments, something is read that is not there, or it is one of
these requests. -/
theorem reads_short : ∀ cmd ∈ commandsTable, ∀ n ∈ [1, 2], ((n : Nat) : Int) < cmd.arity →
    (∃ i ∈ argReads n (some cmd), n ≤ i) ∨ cmd.proc = .set ∧ n = 2 ∨ cmd.proc = .replconf ∨
      cmd.proc = .slaveof := by
  decide

theorem set_reads : ∀ cmd ∈ commandsTable, cmd.proc = .set →
    cmd.read = false ∧ cmd.write = true ∧ ∀ i ∈ argReads 2 (some cmd), i < 2 := by decide

theorem erase_eq_self {V : Type} {m : DbMap V} {key : Bytes} : m.erase key = m ↔ key ∉ m :=
  ⟨fun h hm => by rw [← h] at hm; exact Finmap.notMem_erase_self hm, erase_of_notMem⟩

theorem insert_eq_self {V : Type} {m : DbMap V} {key : Bytes} {v : V} :
    m.insert key v = m ↔ m.lookup key = some v := by
  constructor
  · intro h
    rw [← h, Finmap.lookup_insert]
  · intro h
    refine Finmap.ext_lookup fun k => ?_
    by_cases hk : k = key
    · rw [hk, Finmap.lookup_insert, h]
    · rw [Finmap.lookup_insert_of_ne _ hk]

theorem expireIfNeed_eq_self {db : RedisDb} {key : Bytes} {now : Int} : expireIfNeed db key now = db ↔
    ¬ (key ∈ db.kv ∧ key ∈ db.expires ∧ mapFetchValue db.expires key < now) := by
  rw [expireIfNeed_eq]
  split
  · rename_i h
    constructor
    · exact fun e hk => erase_eq_self.mp (congrArg RedisDb.kv e) hk.1
    · intro hk
      rw [erase_of_notMem fun hm => hk ⟨hm, h⟩]
  · rename_i h
    exact iff_of_true rfl fun hk => h hk.2

theorem unwatch_eq_self {db : RedisDb} {key : Bytes} : unwatch db key = db ↔ watchList db key = [] := by
  unfold unwatch watchList
  split
  · rename_i h
    obtain ⟨l, hl⟩ := Finmap.mem_iff.mp h
    rw [hl]
    constructor
    · intro e
      have := insert_eq_self.mp (congrArg RedisDb.watchedKeys e)
      rw [hl] at this
      exact Option.some.inj this
    · rintro (rfl : l = [])
      rw [insert_eq_self.mpr hl]
  · rename_i h
    rw [Finmap.lookup_eq_none.mpr h]
    exact iff_of_true rfl rfl

theorem untouched_iff (db : RedisDb) (key : Bytes) (now : Int) :
    unwatch (expireIfNeed db key now) key = db ↔ Untouched db key now := by
  rw [Untouched, ← expireIfNeed_eq_self, ← unwatch_eq_self]
  constructor
  · intro h
    have hkv : (expireIfNeed db key now).kv = db.kv := by
      conv_rhs => rw [← h]
      unfold unwatch
      split <;> rfl
    have he : expireIfNeed db key now = db := by
      rw [expireIfNeed_eq] at hkv ⊢
      split
      · rename_i hx
        rw [if_pos hx] at hkv
        exact congrArg (fun kv => { db with kv := kv }) hkv
      · rfl
    rw [he] at h
    exact ⟨he, h⟩
  · rintro ⟨he, hw⟩
    rw [he, hw]

theorem addWrites_content (l : List ClientId) (b : Bytes) (s : RedisServer) (x : ClientId) :
    ∃ out, ((l.foldl (fun s x => addWrite s x b) s).client x).writeBuf.content =
      (s.client x).writeBuf.content ++ out := by
  induction l generalizing s with
  | nil => exact ⟨[], (List.append_nil _).symm⟩
  | cons y l ih =>
    obtain ⟨out, h⟩ := ih (addWrite s y b)
    rw [List.foldl_cons, h]
    by_cases hx : x = y
    · subst hx
      exact ⟨cstr b ++ out, by rw [addWrite_content, List.append_assoc]⟩
    · exact ⟨out, by rw [addWrite_of_ne b hx]⟩

theorem replicate_writeBuf (t : RedisServer) (c x : ClientId) (cmd : RedisCommand) :
    ∃ out, ((replicate t c cmd).client x).writeBuf.content = (t.client x).writeBuf.content ++ out := by
  unfold replicate commandPropagate
  dsimp only
  split
  · obtain ⟨out, h⟩ := addWrites_content (slaves { t with
      backlog := addRepliBuf t.backlog (t.client c).readBuf.content }) (t.client c).readBuf.buf
      { t with backlog := addRepliBuf t.backlog (t.client c).readBuf.content } x
    split
    · exact ⟨out, h⟩
    · exact ⟨out, h⟩
  · split
    · exact ⟨[], (List.append_nil _).symm⟩
    · exact ⟨[], (List.append_nil _).symm⟩

section Short

variable (hw : cmd.write = true) (hp : cmd.proc = .set) (h2 : argv.length = 2)
include hw hp h2

/-- SET with nothing but a key is answered, if the client's database exists. -/
theorem short_returns {db : RedisDb} (hdb : s.getDb (s.client c).db = .ok db) :
    ∃ t, executed query env s c cmd argv = .ok t := by
  obtain ⟨key, hk⟩ : ∃ key, argv[1]? = some key := ⟨_, List.getElem?_eq_getElem (by omega)⟩
  have hidx : ((feedAof s c cmd).client c).db = (s.client c).db := core_db feedAof_core
  have hfeed : (feedAof s c cmd).getDb ((feedAof s c cmd).client c).db = .ok db := by
    rw [getDb_ok, hidx, feedAof_db]
    exact getDb_ok.mp hdb
  let s₁ := (feedAof s c cmd).setDb ((feedAof s c cmd).client c).db
    (expireIfNeed db (cstr key) env.now)
  have h₁ : expireArg env (feedAof s c cmd) c cmd argv = .ok s₁ := by
    rw [expireArg_ok, if_pos (by simp [hw])]
    exact ⟨key, db, hk, hfeed, rfl⟩
  have h₂ : callProc query env cmd.proc s₁ c argv = .ok (addWrite s₁ c resp.valmissed) := by
    rw [hp]
    exact commandSetProc_ok.mpr ⟨key, hk, .inl ⟨h2, rfl⟩⟩
  have hget : (addWrite s₁ c resp.valmissed).getDb ((addWrite s₁ c resp.valmissed).client c).db =
      .ok (expireIfNeed db (cstr key) env.now) := by
    rw [core_db (addWrite_core ..)]
    exact getDb_setDb hfeed _
  obtain ⟨t, ht⟩ : ∃ t, touchWatchKey (addWrite s₁ c resp.valmissed) c argv = .ok t :=
    ⟨_, touchWatchKey_ok.mpr ⟨key, _, hk, hget, rfl⟩⟩
  refine ⟨t, bind_ok.mpr ⟨s₁, h₁, bind_ok.mpr ⟨_, h₂, ?_⟩⟩⟩
  rw [if_pos hw]
  exact ht

/-- What SET with nothing but a key does. -/
theorem short_ok (hc : cmd ∈ commandsTable) (h : executed query env s c cmd argv = .ok t) :
    (∃ db, s.getDb (s.client c).db = .ok db) ∧
      t.db = s.db.modify (s.client c).db.toNat (fun db =>
        unwatch (expireIfNeed db (keyOf argv) env.now) (keyOf argv)) ∧
      (t.client c).writeBuf.content = (s.client c).writeBuf.content ++ resp.valmissed := by
  have hdb := executed_db hc (by rw [hp]; decide) h
  obtain ⟨s₁, h₁, h⟩ := bind_ok.mp h
  obtain ⟨s₂, h₂, h⟩ := bind_ok.mp h
  rw [hp] at h₂
  obtain ⟨key, hk, ⟨-, rfl⟩ | ⟨value, _, hv, -⟩⟩ := commandSetProc_ok.mp h₂
  · refine ⟨?_, hdb.trans ?_, ?_⟩
    · have h₁ := expireArg_ok.mp h₁
      rw [if_pos (by simp [hw])] at h₁
      obtain ⟨-, db, -, hget, -⟩ := h₁
      rw [getDb_ok, core_db feedAof_core, feedAof_db] at hget
      exact ⟨db, getDb_ok.mpr hget⟩
    · congr 1
      funext db
      simp [cmdEffect, hw, hp, dbEffect, List.getElem?_eq_none (Nat.le_of_eq h2)]
    · rw [if_pos hw] at h
      obtain ⟨key, db, -, -, rfl⟩ := touchWatchKey_ok.mp h
      have hbuf : ((addWrite s₁ c resp.valmissed).client c).writeBuf.content =
          (s.client c).writeBuf.content ++ resp.valmissed := by
        rw [addWrite_content, expireArg_client h₁, feedAof_writeBuf]
        rfl
      rw [setDb_client, ← hbuf]
      dsimp only
      split <;> rfl
  · have := lt_of_getElem? hv
    omega

end Short

theorem modify_eq_self {l : List RedisDb} {i : Nat} {f : RedisDb → RedisDb} {db : RedisDb}
    (h : l[i]? = some db) : l.modify i f = l ↔ f db = db := by
  constructor
  · intro e
    have := congrArg (fun l : List RedisDb => l[i]?) e
    simpa [h] using this
  · intro e
    apply List.ext_getElem?
    intro j
    rw [List.getElem?_modify]
    by_cases hj : i = j
    · subst hj
      simp [h, e]
    · simp [hj]

theorem set_refused (hf : foundCommand s c argv = some cmd) (hp : cmd.proc = .set)
    (h2 : argv.length = 2) : Rejected s c (processCommand query env s c argv) ↔
      ∃ db, s.getDb (s.client c).db = .ok db ∧ Untouched db (keyOf argv) env.now := by
  have hc := mem_table hf
  have hw := (set_reads cmd hc hp).2.1
  have hdbs : ∀ t cmd, (clearReadBuf (replicate t c cmd) c).db = t.db := fun t cmd => by
    exact replied_field (·.db) fun _ _ _ _ _ => rfl
  constructor
  · rintro ⟨s', reply, h, hdb, -⟩
    obtain ⟨-, t, ht, rfl⟩ := (processCommand_found hf).mp h
    obtain ⟨⟨db, hget⟩, htdb, -⟩ := short_ok (s := logCall s c argv) hw hp h2 hc ht
    refine ⟨db, hget, (untouched_iff ..).mp ?_⟩
    rw [hdbs, htdb] at hdb
    exact (modify_eq_self (getDb_ok.mp hget).2).mp hdb
  · rintro ⟨db, hget, hu⟩
    obtain ⟨t, ht⟩ : ∃ t, executed query env (logCall s c argv) c cmd argv = .ok t :=
      short_returns hw hp h2 hget
    obtain ⟨-, htdb, hbuf⟩ := short_ok (s := logCall s c argv) hw hp h2 hc ht
    obtain ⟨out, hout⟩ := replicate_writeBuf t c c cmd
    refine ⟨_, resp.valmissed ++ out, (processCommand_found hf).mpr
      ⟨List.ne_nil_of_length_pos (by omega), t, ht, rfl⟩, ?_, rfl, ?_⟩
    · rw [hdbs, htdb]
      exact (modify_eq_self (getDb_ok.mp hget).2).mpr ((untouched_iff ..).mpr hu)
    · rw [writeBuf_clearReadBuf, hout, hbuf, List.append_assoc]
      rfl

/-- A reply that does not begin like an error. -/
theorem not_refused (str : Bytes) (hs : str.head? ≠ some 45)
    (h : ∀ t, executed query env (logCall s c argv) c cmd argv = .ok t →
      (t.client c).writeBuf.content = (s.client c).writeBuf.content ++ str ∨
        (t.client c).writeBuf.content = [])
    (hf : foundCommand s c argv = some cmd) (hw : cmd.write = false) :
    ¬ Rejected s c (processCommand query env s c argv) := by
  rintro ⟨s', reply, hok, -, hr, hbuf⟩
  obtain ⟨-, t, ht, rfl⟩ := (processCommand_found hf).mp hok
  rw [replicate_read hw, writeBuf_clearReadBuf] at hbuf
  rcases h t ht with e | e
  · rw [e] at hbuf
    rw [← List.append_cancel_left hbuf] at hr
    exact hs hr
  · rw [e] at hbuf
    rw [(List.append_eq_nil_iff.mp hbuf.symm).2] at hr
    cases hr

theorem replconf_not_refused (hf : foundCommand s c argv = some cmd) (hp : cmd.proc = .replconf) :
    ¬ Rejected s c (processCommand query env s c argv) := by
  obtain ⟨hr, hw⟩ := bare_entry cmd (mem_table hf) (.inr (.inl hp))
  refine not_refused (cstr resp.ok) (by decide) (fun t ht => .inl ?_) hf hw
  rw [executed_handler hr hw, hp] at ht
  cases ht
  rw [modifyClient_self]
  exact addWrite_content _ c resp.ok

theorem connectMaster_writeBuf (env : Env) (s : RedisServer) (x : ClientId) :
    ((connectMaster env s).client x).writeBuf.content = (s.client x).writeBuf.content ∨
      ((connectMaster env s).client x).writeBuf.content = [] :=
  (connectMaster_field (·.writeBuf.content) (fun _ _ => rfl) env s x).imp_right fun e =>
    e.trans (content_of_len rfl)

theorem slaveof_not_refused (hf : foundCommand s c argv = some cmd) (hp : cmd.proc = .slaveof) :
    ¬ Rejected s c (processCommand query env s c argv) := by
  obtain ⟨hr, hw⟩ := bare_entry cmd (mem_table hf) (.inr (.inr hp))
  refine not_refused (cstr resp.ok) (by decide) (fun t ht => ?_) hf hw
  rw [executed_handler hr hw, hp] at ht
  obtain ⟨arg, ip, port, rest, -, -, -, rfl⟩ := commandSlaveofProc_ok.mp ht
  refine (connectMaster_writeBuf env _ c).imp_left fun e => e.trans ?_
  exact addWrite_content _ c resp.ok

/-- **A request is handled within its arguments iff it has enough of them**, or it
is SET with nothing but an untouched key. -/
theorem args_ok : ArgsOk query env s c argv ↔ ArgsGiven env s c argv := by
  constructor
  · intro h
    have hpos := h.reads 0 List.mem_cons_self
    refine ⟨List.ne_nil_of_length_pos hpos, fun cmd hf hlt => ?_⟩
    have hr := h.reads
    rw [hf] at hr
    have hc := mem_table hf
    have hn : argv.length ∈ ([1, 2] : List Nat) := by
      have : cmd.arity ≤ 3 := (by decide : ∀ cmd ∈ commandsTable, cmd.arity ≤ 3) cmd hc
      simp only [List.mem_cons, List.not_mem_nil, or_false]
      omega
    rcases reads_short cmd hc _ hn hlt with ⟨i, hi, hle⟩ | ⟨hp, h2⟩ | hp | hp
    · exact absurd (hr i hi) (by omega)
    · exact ⟨hp, h2, (set_refused hf hp h2).mp (h.refused cmd hf hlt)⟩
    · exact absurd (h.refused cmd hf hlt) (replconf_not_refused hf hp)
    · exact absurd (h.refused cmd hf hlt) (slaveof_not_refused hf hp)
  · rintro ⟨hne, h⟩
    refine ⟨?_, fun cmd hf hlt => ?_⟩
    · cases hf : foundCommand s c argv with
      | none => exact List.forall_mem_singleton.mpr (List.length_pos_of_ne_nil hne)
      | some cmd =>
        by_cases hlt : argv.length < cmd.arity
        · obtain ⟨hp, h2, -⟩ := h cmd hf hlt
          rw [h2]
          exact (set_reads cmd (mem_table hf) hp).2.2
        · exact reads_given (mem_table hf) (by omega)
    · obtain ⟨hp, h2, h⟩ := h cmd hf hlt
      exact (set_refused hf hp h2).mpr h

/-- GET without a key reads `argv[1]`, twice, of an array of one. -/
theorem get_reads_behind :
    respDecode (bytes "*1\r\n$3\r\nGET\r\n") = .ok [bytes "GET"] ∧
    argReads 1 (foundCommand (sampleServer false) 7 [bytes "GET"]) = [0, 1, 1] ∧
    ¬ ArgsOk (processClientQueryBuf ⟨0, none⟩ 11) ⟨0, none⟩ (sampleServer false) 7 [bytes "GET"] ∧
    (readFromClient ⟨0, none⟩ (sampleServer false) 7
      (bytes "*1\r\n$3\r\nGET\r\n")).toOption.isNone := by
  have hr : argReads 1 (foundCommand (sampleServer false) 7 [bytes "GET"]) = [0, 1, 1] := by
    decide
  refine ⟨by decide, hr, fun h => ?_, by decide⟩
  have := h.reads 1 (by
    show 1 ∈ argReads 1 _
    rw [hr]
    decide)
  exact absurd this (by decide)

end Fedis.Proof.Server
