import Fedis.Proof.Robj
import Fedis.Proof.Server.Keys

/-!
# What SET stores, GET returns

`read_stored`: after the last write of a key, if that is a SET, the database holds
the value; `get_replies`: GET answers with it, which is what the SET was given, or
the same number (`get_last`).
-/

namespace Fedis.Proof.Server

open scoped List
open Framework Resp Value

variable {env : Env} {s s' : RedisServer} {c : ClientId} {argv : List Bytes} {cmd : RedisCommand}
  {i : Nat} {k v : Bytes}

/-! ## The command table -/

/-- No two commands have one name. -/
theorem names_distinct : ∀ a ∈ commandsTable, ∀ b ∈ commandsTable,
    (cstr a.name).map tolower = (cstr b.name).map tolower → a = b := by decide

/-- The dict of the commands still rehashes, and its iterator returns all of them. -/
theorem loadCommands_ok : ∃ d es, loadCommands = some d ∧ dictIterate d = some es ∧
    es.map DictEntry.val ~ commandsTable := by
  have defined : (loadCommands.bind dictIterate).isSome := by decide
  have all : (loadCommands.bind dictIterate).map (fun es => (es.map DictEntry.val).isPerm commandsTable) =
      some true := by decide
  obtain ⟨es, h⟩ := Option.isSome_iff_exists.mp defined
  rw [h, Option.map_some, Option.some.injEq] at all
  obtain ⟨d, hd, he⟩ := Option.bind_eq_some_iff.mp h
  exact ⟨d, es, hd, he, List.isPerm_iff.mp all⟩

/-- What a walk over the dict of the commands finds first is what `lookupCommand` finds. -/
theorem lookupCommand_walk {d : Dict Bytes RedisCommand} {es : List (DictEntry Bytes RedisCommand)}
    (hd : loadCommands = some d) (he : dictIterate d = some es) (s : RedisServer) (c : ClientId)
    (name : Bytes) :
    (es.map DictEntry.val).find? (fun cmd => isSupportedCmd s c cmd && strcaseeq cmd.name name) =
      lookupCommand s c name := by
  obtain ⟨d', es', hd', he', hp⟩ := loadCommands_ok
  obtain rfl : d = d' := Option.some.inj (hd.symm.trans hd')
  obtain rfl : es = es' := Option.some.inj (he.symm.trans he')
  cases hf : lookupCommand s c name with
  | none =>
    rw [lookupCommand, List.find?_eq_none] at hf
    exact List.find?_eq_none.mpr fun cmd hc => hf cmd (hp.mem_iff.mp hc)
  | some cmd =>
    have hit := List.find?_some hf
    have hmem := hp.mem_iff.mpr (List.mem_of_find?_eq_some hf)
    obtain ⟨cmd', hf'⟩ := Option.isSome_iff_exists.mp
      (List.find?_isSome (p := fun cmd => isSupportedCmd s c cmd && strcaseeq cmd.name name).mpr
        ⟨cmd, hmem, hit⟩)
    have hit' := List.find?_some hf'
    simp only [Bool.and_eq_true, strcaseeq, beq_iff_eq] at hit hit'
    rw [hf', names_distinct cmd' (hp.mem_iff.mp (List.mem_of_find?_eq_some hf')) cmd
      (List.mem_of_find?_eq_some hf) (hit'.2.trans hit.2.symm)]

theorem foundCommand_name (h : foundCommand s c argv = some cmd) :
    strcaseeq cmd.name (argv.headD []) = true := by
  cases argv with
  | nil => cases h
  | cons name args =>
    have h : lookupCommand s c name = some cmd := h
    have := List.find?_some h
    simp only [Bool.and_eq_true] at this
    exact this.2

/-- A request finds the command of its name or none. -/
theorem foundCommand_eq {entry : RedisCommand} (h : foundCommand s c argv = some cmd)
    (he : entry ∈ commandsTable) (hn : strcaseeq entry.name (argv.headD []) = true) : cmd = entry := by
  have hc := foundCommand_name h
  simp only [strcaseeq, beq_iff_eq] at hc hn
  exact names_distinct _ (mem_table h) _ he (hc.trans hn.symm)

theorem foundCommand_some (ha : argv ≠ []) (hc : cmd ∈ commandsTable)
    (hn : strcaseeq cmd.name (argv.headD []) = true) (hs : isSupportedCmd s c cmd = true) :
    foundCommand s c argv = some cmd := by
  cases hf : foundCommand s c argv with
  | none =>
    cases argv with
    | nil => exact absurd rfl ha
    | cons name args =>
      have hf : lookupCommand s c name = none := hf
      have := List.find?_eq_none.mp hf cmd hc
      simp only [List.headD_cons] at hn
      simp [hs, hn] at this
  | some cmd' => rw [foundCommand_eq hf hc hn]

def getEntry : RedisCommand := ⟨false, true, bytes "GET", .get, 2⟩

def execEntry : RedisCommand := ⟨false, false, bytes "EXEC", .exec, 1⟩

/-- The client is not collecting a transaction. -/
theorem not_queues (h : (s.client c).flags.multi = false) : ¬ Queues s c argv := fun hq => by
  rw [hq.1] at h
  cases h

/-! ## Replies -/

@[simp] theorem writeBuf_clearReadBuf (s : RedisServer) (c x : ClientId) :
    ((clearReadBuf s c).client x).writeBuf = (s.client x).writeBuf := by
  refine modifyClient_field s c (fun client => { client with readBuf := _ }) (·.writeBuf)
    (fun _ => ?_) x
  rfl

@[simp] theorem writeBuf_received (s : RedisServer) (c x : ClientId) (nread : Bytes) :
    ((received s c nread).client x).writeBuf = (s.client x).writeBuf := by
  refine modifyClient_field s c (fun client => { client with readBuf := _ }) (·.writeBuf)
    (fun _ => ?_) x
  rfl

@[simp] theorem feedAof_writeBuf (s : RedisServer) (c : ClientId) (cmd : RedisCommand) :
    ((feedAof s c cmd).client c).writeBuf = (s.client c).writeBuf := by
  unfold feedAof
  split
  · dsimp only
    rw [modifyClient_self]
  · rfl

theorem addWrite_content (s : RedisServer) (c : ClientId) (b : Bytes) :
    ((addWrite s c b).client c).writeBuf.content = (s.client c).writeBuf.content ++ cstr b := by
  rw [addWrite, modifyClient_self]
  exact content_sdscat _ _

/-! ## SET -/

/-- A deadline that is set stays. -/
theorem callEffect_deadline {db : RedisDb} {D : Int} (h : db.expires.lookup k = some D) :
    (callEffect env s c argv db).expires.lookup k = some D := by
  have hd : ∀ (proc : Proc) (db : RedisDb), db.expires.lookup k = some D →
      (dbEffect env.now proc c argv db).expires.lookup k = some D := by
    intro proc db h
    unfold dbEffect
    split
    · exact h
    · exact h
    · split
      · exact h
      · split
        · exact h
        · rename_i hn
          have hne : k ≠ cstr _ := fun e => hn (Finmap.mem_iff.mpr ⟨D, e ▸ h⟩)
          rwa [Finmap.lookup_insert_of_ne _ hne]
    · generalize argv.drop 1 = args
      induction args generalizing db with
      | nil => exact h
      | cons arg args ih => exact ih _ (by simpa [dbAddWatch] using h)
    · exact h
  unfold callEffect
  split
  · exact h
  · unfold cmdEffect
    dsimp only
    have he : ∀ key (b : Prop) [Decidable b],
        (if b then expireIfNeed db key env.now else db).expires.lookup k = some D := by
      intro key b _
      split
      · rwa [expireIfNeed_expires]
      · exact h
    split
    · rw [unwatch_expires]
      exact hd _ _ (he _ _)
    · exact hd _ _ (he _ _)

/-- The call of a SET that has a value. -/
def SetCall (i : Nat) (k v : Bytes) (call : Call) : Prop :=
  call.db = i ∧ call.proc = some .set ∧ call.argv[1]? = some k ∧ call.argv[2]? = some v

/-- SET stores its value. -/
theorem processCommand_set {query : RedisServer → ClientId → Except Fault RedisServer}
    (h : processCommand query env s c argv = .ok s') (hcall : SetCall i k v (callOf s c argv)) :
    kvAt s' i (cstr k) = some (robjCreateStringObject v) := by
  obtain ⟨hi, hp, hk, hv⟩ := hcall
  obtain ⟨cmd, hf, hproc⟩ := Option.map_eq_some_iff.mp hp
  have hne : NotExec s c argv := (notExec_found hf).mpr (by rw [hproc]; decide)
  have hw : cmd.write = true :=
    (by decide : ∀ cmd ∈ commandsTable, cmd.proc = .set → cmd.write = true) _ (mem_table hf) hproc
  have hel := processCommand_getElem hne h i
  have hi : (s.client c).db = i := hi
  rw [if_pos hi] at hel
  obtain ⟨-, u, hu, -⟩ := (processCommand_found hf).mp h
  obtain ⟨key, db, -, hg⟩ := executed_getDb hu (by simp [hw])
  have hg : s.getDb (s.client c).db = .ok db := hg
  rw [hi] at hg
  have hs : s.db[i]? = some db := (getDb_ok.mp hg).2
  rw [hs] at hel
  simp only [kvAt, hel, Option.map_some, Option.bind_some, callEffect, hf, cmdEffect, hw, if_true,
    unwatch_kv, hproc]
  have hk : argv[1]? = some k := hk
  have hv : argv[2]? = some v := hv
  simp only [dbEffect, hk, hv, Finmap.lookup_insert]

/-- The last call since `base` that writes the key is a SET of `v`. -/
def LastSet (base : List Call) (i : Nat) (k v : Bytes) (calls : List Call) : Prop :=
  ∃ pre call post, calls = base ++ pre ++ call :: post ∧ SetCall i k v call ∧
    ∀ call ∈ post, ¬ WritesKey i (cstr k) call

/-- No time of the run is behind the deadline of the key. -/
def Unexpired (times : List Int) (i : Nat) (k : Bytes) (s : RedisServer) : Prop :=
  ∀ D, expireAt s i k = some D → ∀ now ∈ times, now ≤ D

/-- If the last write of the key was a SET, the database holds its value. -/
def KeepsLast (base : List Call) (times : List Int) (i : Nat) (k v : Bytes) (s : RedisServer) : Prop :=
  LastSet base i k v s.calls → Unexpired times i (cstr k) s →
    kvAt s i (cstr k) = some (robjCreateStringObject v)

theorem lastSet_concat {base calls : List Call} {call : Call}
    (h : LastSet base i k v (calls ++ [call])) :
    SetCall i k v call ∨ (¬ WritesKey i (cstr k) call ∧ LastSet base i k v calls) := by
  obtain ⟨pre, call', post, e, hset, hpost⟩ := h
  rcases List.eq_nil_or_concat post with rfl | ⟨post', last, rfl⟩
  · have := (List.append_inj' (show calls ++ [call] = (base ++ pre) ++ [call'] from e) rfl).2
    cases this
    exact .inl hset
  · rw [List.concat_eq_append, ← List.cons_append, ← List.append_assoc] at e
    obtain ⟨e₁, e₂⟩ := List.append_inj' e rfl
    cases e₂
    refine .inr ⟨hpost _ (by simp), pre, call', post', e₁, hset, fun call hcall => hpost call ?_⟩
    simp [hcall]

theorem small_stored {base : List Call} {times : List Int} (h : Small env c s s')
    (ht : env.now ∈ times) (hs : KeepsLast base times i k v s) : KeepsLast base times i k v s' := by
  intro hl hx
  cases h with
  | client s f h => exact hs hl hx
  | exec s argv h =>
    rcases lastSet_concat hl with hset | ⟨-, hl⟩
    · exfalso
      refine h fun cmd hf hp => ?_
      have := hset.2.1
      rw [callOf, hf, Option.map_some, hp] at this
      cases this
    · exact hs hl hx
  | command query s s' argv hne h =>
    have hcalls := processCommand_calls hne h
    rw [hcalls] at hl
    rcases lastSet_concat hl with hset | ⟨hw, hl⟩
    · exact processCommand_set h hset
    · obtain ⟨new', e, hkeep⟩ := processCommand_keepsKey (i := i) (k := cstr k) hne h
      rw [hcalls] at e
      obtain rfl := List.append_cancel_left e
      have hD : ∀ D, expireAt s i (cstr k) = some D → expireAt s' i (cstr k) = some D := by
        intro D hD
        obtain ⟨db, hdb, hD⟩ := Option.bind_eq_some_iff.mp hD
        have hel := processCommand_getElem hne h i
        rw [expireAt, hel, hdb]
        split
        · exact callEffect_deadline hD
        · exact hD
      rw [(hkeep (by simpa using hw) fun D hDs => hx D (hD D hDs) _ ht).2]
      exact hs hl fun D hDs now hnow => hx D (hD D hDs) now hnow

theorem read_stored {base : List Call} {times : List Int} {nread : Bytes}
    (h : readFromClient env s c nread = .ok s') (ht : env.now ∈ times)
    (hs : KeepsLast base times i k v s) : KeepsLast base times i k v s' :=
  read_invariant (fun hstep => small_stored hstep ht) h hs

/-! ## GET -/

theorem bulkString_ne_zero {w : Bytes} (h : ∀ b ∈ w, b ≠ 0) : ∀ b ∈ bulkString w, b ≠ 0 := by
  have hcrlf : ∀ b ∈ crlf, b ≠ 0 := by decide +kernel
  intro b hb
  simp only [bulkString, List.mem_append, List.mem_cons] at hb
  rcases hb with (((rfl | hb) | hb) | hb) | hb
  · decide
  · exact (decimal_ne hb).1
  · exact hcrlf b hb
  · exact h b hb
  · exact hcrlf b hb

/-- GET answers with the value of a key whose deadline has not passed. -/
theorem get_replies {res : Robj} (hr : Request [bytes "GET", k])
    (hlen : (respEncodeArrayString [bytes "GET", k]).length < 1024) (hi : Idle s)
    (hm : (s.client c).flags.multi = false) (hdb : (s.client c).db = i) (hv : kvAt s i k = some res)
    (hl : ∀ D, expireAt s i k = some D → env.now ≤ D)
    (hres : (bulkString (cstr (robjGetValStr res))).length < 1024) :
    ∃ s', readFromClient env s c (respEncodeArrayString [bytes "GET", k]) = .ok s' ∧
      (s'.client c).writeBuf.content =
        (s.client c).writeBuf.content ++ bulkString (cstr (robjGetValStr res)) := by
  obtain ⟨db, hsdb, hv⟩ := Option.bind_eq_some_iff.mp hv
  have hlive : Live db k env.now := fun D hD => hl D (by rw [expireAt, hsdb]; exact hD)
  have hz : cstr k = k := cstr_eq_self (hr.cstr k (by simp))
  set s₀ := received s c (respEncodeArrayString [bytes "GET", k]) with hs₀
  have hf : foundCommand s₀ c [bytes "GET", k] = some getEntry :=
    foundCommand_some (by simp) (by decide) rfl (by simp [isSupportedCmd, getEntry])
  set s₁ := logCall s₀ c [bytes "GET", k] with hs₁
  have hsel : (s₁.client c).db = i := by
    rw [hs₁, logCall, hs₀, received, modifyClient_self]
    exact hdb
  have hget : s₁.getDb (s₁.client c).db = .ok db := by
    rw [hsel]
    exact getDb_ok.mpr ⟨Int.natCast_nonneg i, hsdb⟩
  set s₂ := s₁.setDb (s₁.client c).db (expireIfNeed db k env.now) with hs₂
  have hget₂ : s₂.getDb (s₂.client c).db = .ok (expireIfNeed db k env.now) := by
    refine getDb_ok.mpr ⟨?_, ?_⟩
    · rw [hs₂, setDb_client, hsel]
      exact Int.natCast_nonneg i
    · rw [hs₂, setDb_db _ hget, setDb_client, hsel]
      simp
  have hexec : executed (processClientQueryBuf env 11) env s₁ c getEntry [bytes "GET", k] =
      .ok (addWrite s₂ c (bulkString (cstr (robjGetValStr res)))) := by
    have h₁ : expireArg env (feedAof s₁ c getEntry) c getEntry [bytes "GET", k] = .ok s₂ := by
      have hfeed : feedAof s₁ c getEntry = s₁ := by simp [feedAof, getEntry]
      rw [hfeed]
      refine expireArg_ok.mpr ⟨k, db, rfl, hget, ?_⟩
      rw [hz]
    have h₂ : callProc (processClientQueryBuf env 11) env .get s₂ c [bytes "GET", k] =
        .ok (addWrite s₂ c (bulkString (cstr (robjGetValStr res)))) := by
      refine commandGetProc_ok.mpr ⟨k, _, rfl, hget₂, .inr ⟨res, ?_, addWriteBulk_ok.mpr ⟨hres, rfl⟩⟩⟩
      rw [hz, expireIfNeed_live hlive, hv]
    rw [executed, h₁, ok_bind]
    exact (congrArg (· >>= _) h₂).trans rfl
  refine ⟨_, (read_request hr hlen (hi c)).mpr ⟨_, .inr ⟨not_queues hm, processCommand_ok.mpr
    ⟨by simp, .inr ⟨getEntry, _, hf, hexec, rfl⟩⟩⟩, rfl⟩, ?_⟩
  rw [writeBuf_clearReadBuf, writeBuf_clearReadBuf, replicate_read rfl, addWrite_content,
    cstr_eq_self (bulkString_ne_zero cstr_ne_zero), hs₂, setDb_client, hs₁, logCall, hs₀,
    writeBuf_received]

/-! ## Both -/

/-- What is left of a request when its command and key are gone. -/
theorem length_set_request (k v : Bytes) :
    (respEncodeArrayString [bytes "SET", k, v]).length =
      (respEncodeArrayString [bytes "GET", k]).length + (bulkString (cstr v)).length := by
  have hs : (respEncodeArg (bytes "SET")).length = (respEncodeArg (bytes "GET")).length := by decide
  have hd : (decimal (0 + 1 + 1 + 1)).length = (decimal (0 + 1 + 1)).length := by decide
  simp only [respEncodeArrayString, List.flatMap_cons, List.flatMap_nil, List.length_append,
    List.length_cons, List.length_nil, hs, hd]
  have hv : (respEncodeArg v).length + crlf.length = (bulkString (cstr v)).length := by
    simp only [respEncodeArg, bulkString, List.length_append, List.length_cons]
  omega

/-- The key of a SET that fits into one read can be asked for. -/
theorem get_request (hk : ∀ b ∈ k, b ≠ 0)
    (hlen : (respEncodeArrayString [bytes "SET", k, v]).length < 1024) :
    Request [bytes "GET", k] := by
  have hkl : k.length < (respEncodeArrayString [bytes "GET", k]).length := by
    simp only [respEncodeArrayString, respEncodeArg, cstr_eq_self hk, List.flatMap_cons,
      List.flatMap_nil, List.length_append, List.length_cons]
    omega
  have hl := length_set_request k v
  refine ⟨by simp, by simp, ?_, ?_⟩
  · intro arg ha
    rcases List.mem_pair.mp ha with rfl | rfl
    · decide +kernel
    · exact hk
  · intro arg ha
    rcases List.mem_pair.mp ha with rfl | rfl
    · decide
    · omega

/-- GET answers with the bulk string of `shown v` where the last call that wrote the key was a
SET of `v`, and no 1024 bytes on the way are too few for it. -/
theorem get_last {base : List Call} {times : List Int} (hi : Idle s)
    (hstored : KeepsLast base times i k v s) (ht : env.now ∈ times) (hk : ∀ b ∈ k, b ≠ 0)
    (hv : ∀ b ∈ v, b ≠ 0) (hlen : (respEncodeArrayString [bytes "SET", k, v]).length < 1024)
    (hset : LastSet base i k v s.calls) (hx : Unexpired times i k s)
    (hm : (s.client c).flags.multi = false) (hdb : (s.client c).db = i) :
    ∃ s', readFromClient env s c (respEncodeArrayString [bytes "GET", k]) = .ok s' ∧
      (s'.client c).writeBuf.content = (s.client c).writeBuf.content ++ bulkString (shown v) := by
  have hl := length_set_request k v
  have hzk : cstr k = k := cstr_eq_self hk
  have hzv : cstr v = v := cstr_eq_self hv
  have hbulk : v.length < (bulkString (cstr v)).length := by
    rw [hzv]
    simp only [bulkString, List.length_append, List.length_cons]
    omega
  have hval := hstored hset (by rwa [hzk])
  rw [hzk] at hval
  have hshown : cstr (robjGetValStr (robjCreateStringObject v)) = shown v := by
    rw [robjGetValStr_create hv (by omega)]
    refine cstr_eq_self ?_
    unfold shown
    split
    · exact decimalInt_ne_zero _
    · exact hv
  have hfit : (bulkString (shown v)).length < 1024 := by
    unfold shown
    split
    · rename_i n hn
      have := length_bulkString_decimalInt (string2l_inLong hn)
      omega
    · rw [hzv] at hl
      omega
  rw [← hshown] at hfit ⊢
  exact get_replies (get_request hk hlen) (by omega) hi hm hdb hval (fun D hD => hx D hD _ ht) hfit

/-- A master with one database and one client. -/
def sampleServer (aofOn : Bool) : RedisServer :=
  acceptTcpHandler (initServer 1 ⟨true, false, false⟩ 1 aofOn) 7 (bytes "127.0.0.1") 5000

/-- A master with two clients. -/
def samplePair : RedisServer := acceptTcpHandler (sampleServer false) 8 (bytes "127.0.0.1") 5001

/-- One request at time 0. -/
def sampleRead (c : ClientId) (argv : List Bytes) : Read :=
  ⟨⟨0, none⟩, c, respEncodeArrayString argv⟩

theorem idle_sampleServer (aofOn : Bool) : Idle (sampleServer aofOn) := by
  intro x
  rw [sampleServer, acceptTcpHandler]
  dsimp only
  rw [modifyClient_client]
  split <;> rfl

theorem idle_samplePair : Idle samplePair := by
  intro x
  simp only [samplePair, acceptTcpHandler, RedisServer.modifyClient]
  split
  · rfl
  · exact idle_sampleServer false x

end Fedis.Proof.Server
