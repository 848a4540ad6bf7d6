import Fedis.Framework.Run
import Fedis.Proof.Server.Request

/-!
# Keys that no command writes

* `processCommand_getElem`: a call changes no database but the selected one;
* `callEffect_kv`, `callEffect_expires`: and there only the key that it writes,
  or one whose deadline has passed;
* `serve_keepsKey`: so a run without such a call keeps a key's value and
  deadline.
-/

namespace Fedis.Proof.Server

open Framework Resp Relation

variable {query : RedisServer → ClientId → Except Fault RedisServer} {env : Env}
  {s s' t : RedisServer} {c : ClientId} {argv : List Bytes} {cmd : RedisCommand} {i : Nat} {k : Bytes}

/-! ## One call -/

/-- A command that reads or writes a database has selected one. -/
theorem executed_getDb (h : executed query env s c cmd argv = .ok t)
    (hrw : (cmd.read || cmd.write) = true) :
    ∃ key db, argv[1]? = some key ∧ s.getDb (s.client c).db = .ok db := by
  obtain ⟨s₁, h₁, -⟩ := bind_ok.mp h
  have h₁ := expireArg_ok.mp h₁
  rw [if_pos hrw] at h₁
  obtain ⟨key, db, hk, hdb, -⟩ := h₁
  rw [core_db feedAof_core] at hdb
  exact ⟨key, db, hk, by simpa only [RedisServer.getDb, feedAof_db] using hdb⟩

/-- A command that does something to a database has selected one. -/
theorem executed_selected (hp : cmd.proc ≠ .exec) (h : executed query env s c cmd argv = .ok t) :
    (∃ db, s.getDb (s.client c).db = .ok db) ∨ ∀ db, cmdEffect env.now cmd c argv db = db := by
  by_cases hrw : (cmd.read || cmd.write) = true
  · obtain ⟨key, db, -, hdb⟩ := executed_getDb h hrw
    exact .inl ⟨db, hdb⟩
  · obtain ⟨s₁, h₁, h⟩ := bind_ok.mp h
    obtain ⟨s₂, h₂, -⟩ := bind_ok.mp h
    have h₁ := expireArg_ok.mp h₁
    rw [if_neg hrw] at h₁
    obtain ⟨hr, hw⟩ : cmd.read = false ∧ cmd.write = false := by simpa using hrw
    subst h₁
    have hfeed : feedAof s c cmd = s := by simp [feedAof, hw]
    rw [hfeed] at h₂
    have hcmd : ∀ db, cmdEffect env.now cmd c argv db = dbEffect env.now cmd.proc c argv db :=
      fun db => by simp [cmdEffect, hr, hw]
    cases hproc : cmd.proc with
    | exec => exact absurd hproc hp
    | set =>
      rw [hproc] at h₂
      obtain ⟨key, -, ⟨hl, -⟩ | ⟨value, db, -, hdb, -⟩⟩ := commandSetProc_ok.mp h₂
      · have : argv[2]? = none := List.getElem?_eq_none (by omega)
        exact .inr fun db => by simp [hcmd, dbEffect, hproc, this]
      · exact .inl ⟨db, hdb⟩
    | del =>
      rw [hproc] at h₂
      obtain ⟨key, db, -, hdb, -⟩ := commandDelProc_ok.mp h₂
      exact .inl ⟨db, hdb⟩
    | expire =>
      rw [hproc] at h₂
      obtain ⟨key, arg, hk, ha, ⟨hn, -⟩ | ⟨n, db, -, -, hdb, -⟩⟩ := commandExpireProc_ok.mp h₂
      · exact .inr fun db => by simp [hcmd, dbEffect, hproc, hk, ha, hn]
      · exact .inl ⟨db, hdb⟩
    | watch =>
      rw [hproc] at h₂
      obtain ⟨t, ht, -⟩ := commandWatchProc_ok.mp h₂
      cases hargs : argv.drop 1 with
      | nil => exact .inr fun db => by simp [hcmd, dbEffect, hproc, hargs]
      | cons arg args =>
        rw [hargs] at ht
        obtain ⟨u, hu, -⟩ := bind_ok.mp ht
        obtain ⟨db, hdb, -⟩ := watchKey_ok.mp hu
        exact .inl ⟨db, hdb⟩
    | get | object | bye | slaveof | ping | replconf | sync | replack | info | heartbeat
    | select | ttl | multi => exact .inr fun db => by simp [hcmd, dbEffect, hproc]

/-- A call changes the selected database. -/
theorem processCommand_getElem (hne : NotExec s c argv)
    (h : processCommand query env s c argv = .ok s') (i : Nat) :
    s'.db[i]? = if (s.client c).db = i then (s.db[i]?).map (callEffect env s c argv)
      else s.db[i]? := by
  rw [processCommand_db hne h, List.getElem?_modify]
  have hsel : (∃ db, s.getDb (s.client c).db = .ok db) ∨ ∀ db, callEffect env s c argv db = db := by
    obtain ⟨-, ⟨hf, -⟩ | ⟨cmd, t, hf, ht, -⟩⟩ := processCommand_ok.mp h
    · exact .inr fun db => by simp [callEffect, hf]
    · rcases executed_selected (hne cmd hf) ht with hdb | he
      · exact .inl hdb
      · exact .inr fun db => by simp [callEffect, hf, he]
  rcases hsel with ⟨db, hdb⟩ | hid
  · have hpos := (getDb_ok.mp hdb).1
    by_cases hi : (s.client c).db = i
    · rw [if_pos hi, hi]
      simp
    · rw [if_neg hi]
      have : (s.client c).db.toNat ≠ i := by omega
      cases s.db[i]? <;> simp [this]
  · cases s.db[i]? <;> simp [hid]

/-- A call that writes this key of this database. -/
def WritesKey (i : Nat) (k : Bytes) (call : Call) : Prop :=
  call.db = i ∧ keyOf call.argv = k ∧
    (call.proc = some .set ∨ call.proc = some .del ∨ call.proc = some .expire)

theorem dbEffect_kv {proc : Proc} (h : keyOf argv = k → proc ≠ .set ∧ proc ≠ .del) (now : Int)
    (db : RedisDb) : (dbEffect now proc c argv db).kv.lookup k = db.kv.lookup k := by
  have key : ∀ {key}, argv[1]? = some key → (proc = .set ∨ proc = .del) → k ≠ cstr key := by
    intro key hk hp e
    have := h ((keyOf_eq hk).trans e.symm)
    tauto
  unfold dbEffect
  split
  · rename_i hk hv
    rw [Finmap.lookup_insert_of_ne _ (key hk (.inl rfl))]
  · rename_i hk
    rw [Finmap.lookup_erase_ne (key hk (.inr rfl))]
  · split
    · rfl
    · split <;> rfl
  · generalize argv.drop 1 = args
    induction args generalizing db with
    | nil => rfl
    | cons arg args ih => exact (ih _).trans rfl
  · rfl

theorem dbEffect_expires {proc : Proc} (h : keyOf argv = k → proc ≠ .expire) (now : Int)
    (db : RedisDb) : (dbEffect now proc c argv db).expires.lookup k = db.expires.lookup k := by
  unfold dbEffect
  split
  · rfl
  · rfl
  · rename_i hk ha
    split
    · rfl
    · split
      · rfl
      · have : k ≠ cstr _ := fun e => h ((keyOf_eq hk).trans e.symm) rfl
        rw [Finmap.lookup_insert_of_ne _ this]
  · generalize argv.drop 1 = args
    induction args generalizing db with
    | nil => rfl
    | cons arg args ih => exact (ih _).trans rfl
  · rfl

/-- No deadline of the key has passed. -/
def Live (db : RedisDb) (k : Bytes) (now : Int) : Prop :=
  ∀ deadline, db.expires.lookup k = some deadline → now ≤ deadline

theorem expireIfNeed_live {db : RedisDb} {now : Int} (h : Live db k now) (key : Bytes) :
    (expireIfNeed db key now).kv.lookup k = db.kv.lookup k := by
  rw [expireIfNeed_eq]
  split
  · rename_i hx
    by_cases hk : k = key
    · subst hk
      obtain ⟨deadline, hd⟩ := Finmap.mem_iff.mp hx.1
      have := h deadline hd
      have hlt := hx.2
      rw [mapFetchValue, hd, Option.getD_some] at hlt
      omega
    · exact Finmap.lookup_erase_ne hk
  · rfl

@[simp] theorem expireIfNeed_expires (db : RedisDb) (key : Bytes) (now : Int) :
    (expireIfNeed db key now).expires = db.expires := by
  rw [expireIfNeed_eq]
  split <;> rfl

@[simp] theorem unwatch_kv (db : RedisDb) (key : Bytes) : (unwatch db key).kv = db.kv := by
  unfold unwatch
  split <;> rfl

@[simp] theorem unwatch_expires (db : RedisDb) (key : Bytes) :
    (unwatch db key).expires = db.expires := by
  unfold unwatch
  split <;> rfl

theorem callEffect_kv {db : RedisDb}
    (h : ∀ cmd, foundCommand s c argv = some cmd → keyOf argv = k → cmd.proc ≠ .set ∧ cmd.proc ≠ .del)
    (hl : Live db k env.now) : (callEffect env s c argv db).kv.lookup k = db.kv.lookup k := by
  unfold callEffect
  split
  · rfl
  · rename_i cmd hf
    have he : (if cmd.read || cmd.write then expireIfNeed db (keyOf argv) env.now else db).kv.lookup
        k = db.kv.lookup k := by
      split
      · exact expireIfNeed_live hl _
      · rfl
    unfold cmdEffect
    dsimp only
    split
    · rw [unwatch_kv, dbEffect_kv (h cmd hf), he]
    · rw [dbEffect_kv (h cmd hf), he]

theorem callEffect_expires {db : RedisDb}
    (h : ∀ cmd, foundCommand s c argv = some cmd → keyOf argv = k → cmd.proc ≠ .expire) :
    (callEffect env s c argv db).expires.lookup k = db.expires.lookup k := by
  unfold callEffect
  split
  · rfl
  · rename_i cmd hf
    have he : (if cmd.read || cmd.write then expireIfNeed db (keyOf argv) env.now else db).expires =
        db.expires := by
      split
      · exact expireIfNeed_expires ..
      · rfl
    unfold cmdEffect
    dsimp only
    split
    · rw [unwatch_expires, dbEffect_expires (h cmd hf), he]
    · rw [dbEffect_expires (h cmd hf), he]

/-! ## Runs -/

/-- From `s` to `s'` the history has grown, and unless it has a write of the key
or the key's deadline has passed, the key's value and deadline are the same. -/
def KeepsKey (i : Nat) (k : Bytes) (now : Int) (s s' : RedisServer) : Prop :=
  ∃ new, s'.calls = s.calls ++ new ∧
    ((∀ call ∈ new, ¬ WritesKey i k call) → (∀ D, expireAt s i k = some D → now ≤ D) →
      expireAt s' i k = expireAt s i k ∧ kvAt s' i k = kvAt s i k)

theorem processCommand_keepsKey (hne : NotExec s c argv)
    (h : processCommand query env s c argv = .ok s') : KeepsKey i k env.now s s' := by
  refine ⟨[callOf s c argv], processCommand_calls hne h, fun hw hd => ?_⟩
  have hw := hw _ List.mem_cons_self
  have hg := processCommand_getElem hne h i
  by_cases hi : (s.client c).db = i
  · rw [if_pos hi] at hg
    have hproc : ∀ cmd, foundCommand s c argv = some cmd → keyOf argv = k →
        cmd.proc ≠ .set ∧ cmd.proc ≠ .del ∧ cmd.proc ≠ .expire := by
      intro cmd hf hk
      have : ¬ (cmd.proc = .set ∨ cmd.proc = .del ∨ cmd.proc = .expire) := fun hp =>
        hw ⟨hi, hk, by simpa [callOf, hf] using hp⟩
      tauto
    cases hdb : s.db[i]? with
    | none =>
      rw [hdb] at hg
      simp [expireAt, kvAt, hdb, hg]
    | some db =>
      rw [hdb] at hg
      simp only [expireAt, kvAt, hg, hdb, Option.map_some, Option.bind_some] at hd ⊢
      exact ⟨callEffect_expires fun cmd hf hk => (hproc cmd hf hk).2.2,
        callEffect_kv (fun cmd hf hk => ⟨(hproc cmd hf hk).1, (hproc cmd hf hk).2.1⟩) hd⟩
  · rw [if_neg hi] at hg
    simp [expireAt, kvAt, hg]

theorem small_keepsKey (h : Small env c s s') : KeepsKey i k env.now s s' := by
  cases h with
  | command query s s' argv hne h => exact processCommand_keepsKey hne h
  | exec s argv h => exact ⟨[callOf s c argv], rfl, fun _ _ => ⟨rfl, rfl⟩⟩
  | client s f h => exact ⟨[], by simp, fun _ _ => ⟨rfl, rfl⟩⟩

theorem read_keepsKey {nread : Bytes} (h : readFromClient env s c nread = .ok s') :
    KeepsKey i k env.now s s' := by
  refine read_grows (fun _ _ => ⟨rfl, rfl⟩) (fun h₁ h₂ hd => ?_) small_keepsKey h
  obtain ⟨x₁, v₁⟩ := h₁ hd
  obtain ⟨x₂, v₂⟩ := h₂ (by rwa [x₁])
  exact ⟨x₂.trans x₁, v₂.trans v₁⟩

theorem serve_ok {r : Read} {u : Unit} :
    serve s r = some (u, s') ↔ readFromClient r.env s r.client r.nread = .ok s' := by
  unfold serve
  split <;> simp [*]

theorem run_idle {s₀ : RedisServer} {reads : List Read} {us : List Unit} (hi : Idle s₀)
    (h : run serve s₀ reads = some (us, s)) : Idle s :=
  run_keeps (fun _ _ _ _ hi h => readFromClient_idle (serve_ok.mp h) hi) hi h

/-- A run without a write of the key keeps its value, up to its deadline. -/
theorem serve_keepsKey : ∀ {reads : List Read} {s s' : RedisServer} {us : List Unit},
    run serve s reads = some (us, s') → ∃ new, s'.calls = s.calls ++ new ∧
      ((∀ call ∈ new, ¬ WritesKey i k call) →
        (∀ D, expireAt s i k = some D → ∀ r ∈ reads, r.env.now ≤ D) →
        expireAt s' i k = expireAt s i k ∧ kvAt s' i k = kvAt s i k)
  | [], s, s', us, h => by
    cases h
    exact ⟨[], by simp, fun _ _ => ⟨rfl, rfl⟩⟩
  | r :: reads, s, s', us, h => by
    obtain ⟨u, s₁, us', h₁, h₂, -⟩ := run_cons_eq_some.mp h
    obtain ⟨n₁, e₁, k₁⟩ := read_keepsKey (i := i) (k := k) (serve_ok.mp h₁)
    obtain ⟨n₂, e₂, k₂⟩ := serve_keepsKey h₂
    refine ⟨n₁ ++ n₂, by rw [e₂, e₁, List.append_assoc], fun hw hd => ?_⟩
    obtain ⟨x₁, v₁⟩ := k₁ (fun call hc => hw call (List.mem_append_left _ hc)) fun D hD =>
      hd D hD r List.mem_cons_self
    obtain ⟨x₂, v₂⟩ := k₂ (fun call hc => hw call (List.mem_append_right _ hc)) fun D hD r hr =>
      hd D (x₁ ▸ hD) r (List.mem_cons_of_mem _ hr)
    exact ⟨x₂.trans x₁, v₂.trans v₁⟩

end Fedis.Proof.Server
