import Fedis.Framework.Relational
import Fedis.Proof.Dict.Database
import Fedis.Proof.Machine.Step

/-!
# The dicts of a machine hold its maps

What a handler asks of its database changes the maps as the handler does (`procCalls_effect`), so
that the dicts hold the maps in every state of a run (`run_coherent`).
-/

namespace Fedis.Proof.Machine

open Framework Server Proof.Dict

variable {env : Env} {m m' : Machine} {s : RedisServer} {c : ClientId} {argv : List Bytes}
  {cmd : RedisCommand} {slack depth : Nat} {i : Int} {call : DbCall} {calls : List DbCall}
  {dbs : List RedisDb} {tables : List DbTables} {proc : Proc}

/-- Dicts and watch lists hold the databases. -/
structure Hold (tables : List DbTables) (dbs : List RedisDb) : Prop where
  backs : List.Forall₂ Backs tables dbs
  work : ∀ db ∈ tables, HasWork db.dicts.expires

/-- The machine's dicts hold its server's databases. -/
def Coherent (m : Machine) : Prop := Hold m.tables m.server.db

/-! ## One call -/

theorem useDb_ok {r : DbReply × Machine} : m.useDb i call = .ok r ↔
    0 ≤ i ∧ ∃ db db', m.tables[i.toNat]? = some db ∧ db.call call = some (r.1, db') ∧
      r.2 = { m with tables := m.tables.set i.toNat db' } := by
  obtain ⟨reply, m'⟩ := r
  rw [Machine.useDb]
  by_cases hi : i < 0
  · rw [if_pos hi]
    simp [Int.not_le.mpr hi]
  rw [if_neg hi]
  cases hb : (m.tables[i.toNat]?).bind fun db => db.call call with
  | none =>
    simp only [reduceCtorEq, false_iff, not_and, not_exists]
    intro _ db db' ht hc _
    rw [ht, Option.bind_some, hc] at hb
    cases hb
  | some q =>
    obtain ⟨db, ht, hc⟩ := Option.bind_eq_some_iff.mp hb
    simp only [Except.ok.injEq, Prod.mk.injEq, Int.not_lt.mp hi, true_and]
    constructor
    · rintro ⟨rfl, rfl⟩
      exact ⟨db, q.2, ht, hc, rfl⟩
    · rintro ⟨db₁, db', ht₁, hc₁, rfl⟩
      rw [ht] at ht₁
      cases ht₁
      rw [hc] at hc₁
      cases hc₁
      exact ⟨rfl, rfl⟩

theorem hold_call (h : Hold tables dbs) {db db' : DbTables} {n : Nat} (ht : tables[n]? = some db)
    {reply : DbReply} (e : db.call call = some (reply, db')) :
    Hold (tables.set n db') (dbs.modify n fun db => (db.call call).2) ∧
      ∃ map, dbs[n]? = some map ∧ Backs db map ∧ reply = (map.call call).1 := by
  obtain ⟨map, hmap, hb⟩ : ∃ map, dbs[n]? = some map ∧ Backs db map := by
    obtain ⟨map, hmap, hb⟩ := forall₂_getElem? h.backs.flip ht
    exact ⟨map, hmap, hb⟩
  obtain ⟨-, hr, hb'⟩ := tables_call_some hb e
  refine ⟨⟨forall₂_modify h.backs fun map' hm => ?_, fun d hd => ?_⟩, map, hmap, hb, hr⟩
  · rw [hmap] at hm
    cases hm
    exact hb'
  · rcases List.mem_or_eq_of_mem_set hd with hd | rfl
    · exact h.work d hd
    · exact tables_call_work hb (h.work db (List.mem_of_getElem? ht)) e

theorem useDb_hold {r : DbReply × Machine} (h : Hold m.tables dbs) (e : m.useDb i call = .ok r) :
    Hold r.2.tables (dbs.modify i.toNat fun db => (db.call call).2) := by
  obtain ⟨-, db, db', ht, hc, hr⟩ := useDb_ok.mp e
  rw [hr]
  exact (hold_call h ht hc).1

theorem useDbs_hold (h : Hold m.tables dbs) (e : m.useDbs i calls = .ok m') :
    Hold m'.tables (dbs.modify i.toNat fun db => (runTotal RedisDb.call db calls).2) := by
  induction calls generalizing m dbs with
  | nil =>
    cases e
    have hid := modify_id dbs i.toNat (f := fun db => (runTotal RedisDb.call db []).2) fun _ => rfl
    rwa [hid]
  | cons call calls ih =>
    obtain ⟨m₁, h₁, h₂⟩ := bind_ok.mp e
    obtain ⟨r, hr, h₁⟩ := bind_ok.mp h₁
    cases h₁
    have := ih (useDb_hold h hr) h₂
    rwa [List.modify_modify_eq] at this

/-! ## Handlers -/

/-- Watching keys one after the other. -/
theorem runTotal_watch (args : List Bytes) (db : RedisDb) :
    (runTotal RedisDb.call db (args.map fun arg => .addWatch arg c)).2 =
      args.foldl (fun db arg => dbAddWatch db (cstr arg) c) db := by
  induction args generalizing db with
  | nil => rfl
  | cons arg args ih => exact ih _

/-- What a handler asks of its database changes it as the handler does. -/
theorem procCalls_effect (deadline : Bool) (db : RedisDb) :
    (runTotal RedisDb.call db (Machine.procCalls env proc c argv deadline)).2 =
      dbEffect env.now proc c argv db := by
  cases proc with
  | set =>
    rcases h₁ : argv[1]? with _ | key <;> rcases h₂ : argv[2]? with _ | value <;>
      simp [Machine.procCalls, dbEffect, h₁, h₂, runTotal, RedisDb.call, dbAdd_eq]
  | get =>
    rcases h₁ : argv[1]? with _ | key <;> rcases h₂ : argv[2]? with _ | value <;>
      simp [Machine.procCalls, dbEffect, h₁, runTotal, RedisDb.call]
  | del =>
    rcases h₁ : argv[1]? with _ | key <;> rcases h₂ : argv[2]? with _ | value <;>
      simp [Machine.procCalls, dbEffect, h₁, runTotal, RedisDb.call, dbDelete, mapDelete]
    all_goals
      split
      · rfl
      · rename_i hk
        rw [erase_of_notMem hk]
  | object =>
    rcases h₁ : argv[1]? with _ | op <;> rcases h₂ : argv[2]? with _ | key <;>
      simp [Machine.procCalls, dbEffect, h₁, h₂, runTotal]
    split <;> rfl
  | expire =>
    rcases h₁ : argv[1]? with _ | key <;> rcases h₂ : argv[2]? with _ | arg <;>
      simp [Machine.procCalls, dbEffect, h₁, h₂, runTotal]
    cases string2long arg with
    | none => rfl
    | some n =>
      simp only [runTotal, RedisDb.call, dbSetExpire, mapAdd]
      split <;> rfl
  | ttl =>
    rcases h₁ : argv[1]? with _ | key <;> rcases h₂ : argv[2]? with _ | value <;>
      simp [Machine.procCalls, dbEffect, h₁, runTotal]
    all_goals split <;> rfl
  | watch => exact runTotal_watch (argv.drop 1) db
  | bye | slaveof | ping | replconf | sync | replack | info | heartbeat | select | multi | exec =>
    rfl

theorem handler_coherent (hp : proc ≠ .exec) (hb : Coherent m)
    (h : m.handler env proc c argv = .ok m') : Coherent m' := by
  obtain ⟨m₁, h₁, h₂⟩ := bind_ok.mp h
  obtain ⟨s, hs, h₃⟩ := bind_ok.mp h₂
  obtain ⟨-, rfl⟩ := next_ok.mp h₃
  have hdb := callProc_db hp hs
  have hold := useDbs_hold hb h₁
  rw [useDbs_server h₁] at hdb
  simp only [procCalls_effect] at hold
  unfold Coherent
  dsimp only
  rw [hdb]
  exact hold

/-! ## Requests -/

theorem next_coherent {inside : Prop} [Decidable inside] (hb : Coherent m) (hs : s.db = m.server.db)
    (h : m.next inside s = .ok m') : Coherent m' := by
  obtain ⟨-, rfl⟩ := next_ok.mp h
  unfold Coherent
  dsimp only
  rwa [hs]

theorem addWrite_coherent {str : Bytes} (hb : Coherent m) (h : m.addWrite c str = .ok m') : Coherent m' :=
  next_coherent hb (s := Fedis.addWrite m.server c str) rfl h

theorem addWriteBulk_coherent {str : Bytes} (hb : Coherent m) (h : m.addWriteBulk c str = .ok m') :
    Coherent m' := by
  obtain ⟨enc, -, h⟩ := addWriteBulk_ok.mp h
  exact addWrite_coherent hb h

theorem propagate_coherent {xs : List ClientId} {str : Bytes} (hb : Coherent m)
    (h : xs.foldlM (fun m x => Machine.addWrite m x str) m = .ok m') : Coherent m' := by
  induction xs generalizing m with
  | nil =>
    cases h
    exact hb
  | cons x xs ih =>
    obtain ⟨m₁, h₁, h₂⟩ := bind_ok.mp h
    exact ih (addWrite_coherent hb h₁) h₂

theorem replicate_coherent (hb : Coherent m) (h : m.replicate c cmd = .ok m') : Coherent m' := by
  obtain ⟨m₁, h₁, h₂⟩ := bind_ok.mp h
  have hb₁ : Coherent m₁ := by
    rw [Machine.propagate] at h₁
    split at h₁
    · rw [Machine.commandPropagate] at h₁
      split at h₁
      · cases h₁
      · exact propagate_coherent (m := { m with server := { m.server with
          backlog := addRepliBuf m.server.backlog (m.server.client c).readBuf.content } }) hb h₁
    · cases h₁
      exact hb
  split at h₂
  · cases h₂
    exact hb₁
  · cases h₂
    exact hb₁

theorem expireArg_coherent (hb : Coherent m) (h : m.expireArg env c cmd argv = .ok m') : Coherent m' := by
  obtain ⟨s, hs, h₁⟩ := bind_ok.mp h
  have hdb := expireArg_db hs
  unfold Coherent
  split at h₁
  · rename_i hrw
    obtain ⟨key, hk, h₂⟩ := bind_ok.mp h₁
    obtain ⟨r, hr, h₃⟩ := bind_ok.mp h₂
    cases h₃
    have hold := useDb_hold hb hr
    dsimp only
    simp only [hdb, hrw, if_true, keyOf_eq (argAt_ok.mp hk)]
    exact hold
  · rename_i hrw
    cases h₁
    have hid : s.db = m.server.db := hdb.trans (modify_id _ _ fun db => if_neg hrw)
    dsimp only
    rwa [hid]

theorem touchWatchKey_coherent (hb : Coherent m) (h : m.touchWatchKey c argv = .ok m') : Coherent m' := by
  obtain ⟨s, hs, h₁⟩ := bind_ok.mp h
  obtain ⟨key, hk, h₂⟩ := bind_ok.mp h₁
  obtain ⟨r, hr, h₃⟩ := bind_ok.mp h₂
  cases h₃
  have hold := useDb_hold hb hr
  have hdb := touchWatchKey_db hs
  unfold Coherent
  dsimp only
  rw [hdb]
  have e : (fun db => (RedisDb.call db (.touchWatchKey key)).2) = fun db => unwatch db (keyOf argv) := by
    funext db
    rw [keyOf_eq (argAt_ok.mp hk), RedisDb.call, unwatch]
    by_cases hm : cstr key ∈ db.watchedKeys
    · simp [dbIsWatching, mapContains, hm]
    · simp [dbIsWatching, mapContains, hm]
  rwa [e] at hold

section Query

variable {mquery : Machine → ClientId → Except Fault Machine}
  (hq : ∀ {m m'}, Coherent m → mquery m c = .ok m' → Coherent m')
include hq

theorem execLoop_coherent {fuel n : Nat} (hb : Coherent m)
    (h : Machine.execLoop mquery c fuel n m = .ok m') : Coherent m' := by
  induction fuel generalizing m n with
  | zero => cases h
  | succ fuel ih =>
    rw [Machine.execLoop] at h
    split at h
    · split at h
      · cases h
      · obtain ⟨m₁, h₁, h₂⟩ := bind_ok.mp h
        obtain ⟨m₂, h₃, h₄⟩ := bind_ok.mp h₂
        have hb₁ : Coherent m₁ := next_coherent (s := execLoad m.server c n _) hb rfl h₁
        have hb₂ : Coherent m₂ := hq hb₁ h₃
        refine ih ?_ h₄
        exact hb₂
    · cases h
      exact hb

theorem callProc_coherent (hb : Coherent m) (h : Machine.callProc mquery env proc m c argv = .ok m') :
    Coherent m' := by
  by_cases hp : proc = .exec
  · subst hp
    obtain ⟨m₁, h₁, h₂⟩ := bind_ok.mp h
    cases h₂
    have hb₁ : Coherent m₁ := by
      have hb₀ : Coherent { m with server := execStart m.server c } := hb
      rw [Machine.execQueue] at h₁
      split at h₁
      · exact addWriteBulk_coherent hb₀ h₁
      · obtain ⟨m₂, h₂, h₃⟩ := bind_ok.mp h₁
        exact addWriteBulk_coherent (execLoop_coherent hq hb₀ h₂) h₃
    exact hb₁
  · by_cases hs : proc = .slaveof
    · subst hs
      cases h
    · rw [callProc_handler hp hs] at h
      exact handler_coherent hp hb h

theorem processCommand_coherent (hb : Coherent m)
    (h : m.processCommand mquery env c argv = .ok m') : Coherent m' := by
  obtain ⟨name, -, h₁⟩ := bind_ok.mp h
  obtain ⟨m₁, h₂, h₃⟩ := bind_ok.mp h₁
  cases h₃
  suffices hb₁ : Coherent m₁ from hb₁
  cases hf : lookupCommand m.server c name with
  | none =>
    rw [hf] at h₂
    exact addWrite_coherent (m := m.logCall c argv none) hb h₂
  | some cmd =>
    rw [hf] at h₂
    obtain ⟨m₂, h₄, h₅⟩ := bind_ok.mp h₂
    obtain ⟨m₃, h₆, h₇⟩ := bind_ok.mp h₄
    obtain ⟨m₄, h₈, h₉⟩ := bind_ok.mp h₇
    obtain ⟨m₅, h₁₀, h₁₁⟩ := bind_ok.mp h₉
    have hb₃ : Coherent m₃ := next_coherent (m := m.logCall c argv (some cmd)) hb feedAof_db h₆
    have hb₅ := callProc_coherent hq (expireArg_coherent hb₃ h₈) h₁₀
    refine replicate_coherent (m := m₂) ?_ h₅
    split at h₁₁
    · exact touchWatchKey_coherent hb₅ h₁₁
    · cases h₁₁
      exact hb₅

end Query

theorem query_coherent (hb : Coherent m) (h : m.processClientQueryBuf slack env depth c = .ok m') :
    Coherent m' := by
  induction depth generalizing m m' with
  | zero => cases h
  | succ depth ih =>
    rw [Machine.processClientQueryBuf] at h
    split at h
    · cases h
    · cases h
      exact hb
    · obtain ⟨name, -, h₁⟩ := bind_ok.mp h
      split at h₁
      · obtain ⟨m₁, h₂, h₃⟩ := bind_ok.mp h₁
        obtain ⟨m₂, h₄, h₅⟩ := bind_ok.mp h₃
        cases h₅
        obtain ⟨s, hs, h₂⟩ := bind_ok.mp h₂
        have hdb : s.db = m.server.db := by
          rw [clientMultiAdd] at hs
          dsimp only at hs
          split at hs
          · cases hs
          · cases hs
            rfl
        have hb₂ : Coherent m₂ := addWriteBulk_coherent (next_coherent hb hdb h₂) h₄
        exact hb₂
      · exact processCommand_coherent ih hb h₁

/-- The dicts hold the maps after every event. -/
theorem machineStep_coherent {e : MachineEvent} {u : Unit} (hb : Coherent m)
    (h : machineStep slack m e = some (u, m')) : Coherent m' := by
  cases e with
  | read r =>
    have h := machineStep_read.mp h
    rw [Machine.readFromClient] at h
    split at h
    · cases h
      exact hb
    split at h
    · cases h
    obtain ⟨m₁, h₁, h₂⟩ := bind_ok.mp h
    obtain ⟨m₂, h₃, h₄⟩ := bind_ok.mp h₂
    cases h₄
    have hb₁ : Coherent m₁ := next_coherent (s := received m.server r.client r.nread) hb rfl h₁
    have hb₂ : Coherent m₂ := query_coherent hb₁ h₃
    exact hb₂
  | send c nwritten file w =>
    obtain ⟨-, rfl⟩ := machineStep_send.mp h
    obtain ⟨f, e, -⟩ := send_client m.server c nwritten file w
    unfold Coherent
    dsimp only
    rw [e]
    exact hb

/-- **The dicts of a machine hold its maps** in every state of a run. -/
theorem run_coherent {m₀ : Machine} {events : List MachineEvent} {us : List Unit} (hb : Coherent m₀)
    (h : run (machineStep slack) m₀ events = some (us, m)) : Coherent m :=
  run_keeps (fun _ _ _ _ hb h => machineStep_coherent hb h) hb h

theorem coherent_init {s : RedisServer} (hs : ∀ db ∈ s.db, db = dbInit) : Coherent (initMachine s) := by
  refine ⟨List.forall₂_iff_get.mpr ⟨List.length_replicate, fun i h₁ h₂ => ?_⟩, fun db hdb => ?_⟩
  · rw [List.get_eq_getElem, List.get_eq_getElem, hs _ (List.getElem_mem h₂)]
    simp only [initMachine, initTables, List.getElem_replicate]
    exact backs_dbInit _ _
  · rw [List.eq_of_mem_replicate hdb]
    exact nofun

end Fedis.Proof.Machine
