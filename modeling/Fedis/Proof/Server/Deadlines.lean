import Fedis.Proof.Server.Reads

/-!
# Deadlines and keys

A database whose deadlines all belong to keys (`Backed`) stays so under every
command but three: one that finds its key past the deadline, the DEL of a key with
a deadline, and an EXPIRE of a key that is not there (`Sound`, `cmdEffect_backed`).
These three break it (`unsound_breaks`). `deadlines_backed` is the run of any
commands.
-/

namespace Fedis.Proof.Server

open Framework Resp

variable {env : Env} {s s' t : RedisServer} {c : ClientId} {argv : List Bytes} {cmd : RedisCommand}
  {db : RedisDb} {i : Nat} {k key : Bytes} {now : Int}

/-! ## One database -/

/-- Every deadline is a key's. -/
def Backed (db : RedisDb) : Prop := ∀ k ∈ db.expires, k ∈ db.kv

/-- The database when a command's key has been looked at. -/
def lookedAt (now : Int) (cmd : RedisCommand) (argv : List Bytes) (db : RedisDb) : RedisDb :=
  if cmd.read || cmd.write then expireIfNeed db (keyOf argv) now else db

/-- A command that leaves no deadline behind. -/
structure Sound (now : Int) (cmd : RedisCommand) (argv : List Bytes) (db : RedisDb) : Prop where
  live : (cmd.read || cmd.write) = true → Live db (keyOf argv) now
  del : cmd.proc = .del → keyOf argv ∉ db.expires
  expire : cmd.proc = .expire → argv[2]?.bind string2long ≠ none → keyOf argv ∈ db.kv

instance decidableLive (db : RedisDb) (k : Bytes) (now : Int) : Decidable (Live db k now) :=
  inferInstanceAs (Decidable (∀ deadline ∈ db.expires.lookup k, now ≤ deadline))

instance decidableSound (now : Int) (cmd : RedisCommand) (argv : List Bytes) (db : RedisDb) :
    Decidable (Sound now cmd argv db) :=
  decidable_of_iff (((cmd.read || cmd.write) = true → Live db (keyOf argv) now) ∧
      (cmd.proc = .del → keyOf argv ∉ db.expires) ∧
      (cmd.proc = .expire → argv[2]?.bind string2long ≠ none → keyOf argv ∈ db.kv))
    ⟨fun ⟨h₁, h₂, h₃⟩ => ⟨h₁, h₂, h₃⟩, fun h => ⟨h.live, h.del, h.expire⟩⟩

theorem lookedAt_live (h : (cmd.read || cmd.write) = true → Live db (keyOf argv) now) :
    lookedAt now cmd argv db = db := by
  unfold lookedAt
  split
  · rename_i hrw
    rw [expireIfNeed_eq, if_neg]
    rintro ⟨hm, hlt⟩
    obtain ⟨deadline, hd⟩ := Finmap.mem_iff.mp hm
    have := h hrw deadline hd
    rw [mapFetchValue, hd, Option.getD_some] at hlt
    omega
  · rfl

theorem lookedAt_expires (now : Int) (cmd : RedisCommand) (argv : List Bytes) (db : RedisDb) :
    (lookedAt now cmd argv db).expires = db.expires := by
  unfold lookedAt
  split
  · exact expireIfNeed_expires ..
  · rfl

theorem dbEffect_backed (hb : Backed db) (hdel : cmd.proc = .del → keyOf argv ∉ db.expires)
    (hexp : cmd.proc = .expire → argv[2]?.bind string2long ≠ none → keyOf argv ∈ db.kv) :
    Backed (dbEffect now cmd.proc c argv db) := by
  unfold dbEffect
  split
  · intro k hk
    exact Finmap.mem_insert.mpr (.inr (hb k hk))
  · rename_i hp hkey
    intro k hk
    refine Finmap.mem_erase.mpr ⟨?_, hb k hk⟩
    rintro rfl
    exact hdel hp (by rwa [keyOf_eq hkey])
  · rename_i hp hkey harg
    split
    · exact hb
    · rename_i n hn
      split
      · exact hb
      · intro k hk
        rcases Finmap.mem_insert.mp hk with rfl | hk
        · rw [← keyOf_eq hkey]
          exact hexp hp (by rw [harg, Option.bind_some, hn]; exact Option.some_ne_none n)
        · exact hb k hk
  · generalize argv.drop 1 = args
    clear hdel hexp
    induction args generalizing db with
    | nil => exact hb
    | cons arg args ih => exact @ih (dbAddWatch db (cstr arg) c) hb
  · exact hb

/-- What a sound command leaves. -/
theorem cmdEffect_backed (hb : Backed db) (hs : Sound now cmd argv db) :
    Backed (lookedAt now cmd argv db) ∧ Backed (cmdEffect now cmd c argv db) := by
  have hl := lookedAt_live hs.live
  refine ⟨by rwa [hl], ?_⟩
  have he : Backed (dbEffect now cmd.proc c argv (lookedAt now cmd argv db)) := by
    rw [hl]
    exact dbEffect_backed hb hs.del hs.expire
  unfold cmdEffect
  dsimp only
  split
  · intro k hk
    rw [unwatch_kv]
    rw [unwatch_expires] at hk
    exact he k hk
  · exact he

theorem cmdEffect_eq (now : Int) (cmd : RedisCommand) (c : ClientId) (argv : List Bytes)
    (db : RedisDb) :
    (cmdEffect now cmd c argv db).kv =
        (dbEffect now cmd.proc c argv (lookedAt now cmd argv db)).kv ∧
      (cmdEffect now cmd c argv db).expires =
        (dbEffect now cmd.proc c argv (lookedAt now cmd argv db)).expires := by
  unfold cmdEffect
  dsimp only
  split
  · exact ⟨unwatch_kv .., unwatch_expires ..⟩
  · exact ⟨rfl, rfl⟩

/-- Any other command leaves one. -/
theorem unsound_breaks (hb : Backed db) (hkey : argv[1]? = some key)
    (hs : ¬ Sound now cmd argv db) :
    ¬ Backed (lookedAt now cmd argv db) ∨ ¬ Backed (cmdEffect now cmd c argv db) := by
  by_contra hnot
  obtain ⟨hlook, hcmd⟩ : Backed (lookedAt now cmd argv db) ∧ Backed (cmdEffect now cmd c argv db) := by
    tauto
  obtain ⟨ekv, eexp⟩ := cmdEffect_eq now cmd c argv db
  have hlive : (cmd.read || cmd.write) = true → Live db (keyOf argv) now := by
    intro hrw deadline hd
    by_contra hlt
    have hmem : keyOf argv ∈ db.expires := Finmap.mem_iff.mpr ⟨deadline, hd⟩
    have hpast : mapFetchValue db.expires (keyOf argv) < now :=
      Int.lt_of_not_ge (by rwa [mapFetchValue, hd, Option.getD_some])
    have hgone : lookedAt now cmd argv db = { db with kv := db.kv.erase (keyOf argv) } := by
      rw [lookedAt, if_pos hrw, expireIfNeed_eq, if_pos ⟨hmem, hpast⟩]
    rw [hgone] at hlook
    exact (Finmap.mem_erase.mp (hlook _ hmem)).1 rfl
  rw [lookedAt_live hlive] at ekv eexp
  refine hs ⟨hlive, fun hp hmem => ?_, fun hp hn => ?_⟩
  · have he : dbEffect now cmd.proc c argv db = { db with kv := db.kv.erase (keyOf argv) } := by
      simp [hp, dbEffect, hkey, keyOf_eq hkey]
    rw [he] at ekv eexp
    have := hcmd (keyOf argv) (by rwa [eexp])
    rw [ekv] at this
    exact (Finmap.mem_erase.mp this).1 rfl
  · obtain ⟨n, hn⟩ := Option.ne_none_iff_exists'.mp hn
    obtain ⟨arg, harg, hn⟩ := Option.bind_eq_some_iff.mp hn
    by_contra hgone
    have hfree : cstr key ∉ db.expires := fun hm => hgone (by rw [keyOf_eq hkey]; exact hb _ hm)
    have he : dbEffect now cmd.proc c argv db =
        { db with expires := db.expires.insert (keyOf argv) (n + now) } := by
      simp [hp, dbEffect, hkey, harg, hn, hfree, keyOf_eq hkey]
    rw [he] at ekv eexp
    have := hcmd (keyOf argv) (by rw [eexp]; exact Finmap.mem_insert.mpr (.inl rfl))
    rw [ekv] at this
    exact hgone this

/-! ## Commands of clients -/

/-- A command that a client issues, at a time. -/
structure Issue where
  env : Env
  client : ClientId
  argv : List Bytes

/-- One command of a run. -/
def issue (s : RedisServer) (a : Issue) : Option (Unit × RedisServer) :=
  match processCommand (processClientQueryBuf a.env 11) a.env s a.client a.argv with
  | .ok s' => some ((), s')
  | .error _ => none

theorem issue_ok {a : Issue} {u : Unit} : issue s a = some (u, s') ↔
    processCommand (processClientQueryBuf a.env 11) a.env s a.client a.argv = .ok s' := by
  unfold issue
  split <;> simp [*]

/-- Every database is backed. -/
def AllBacked (s : RedisServer) : Prop := ∀ (i : Nat) (db : RedisDb), s.db[i]? = some db → Backed db

/-- A command, other than EXEC, that is sound for the database which its client has
selected. -/
def SoundIssue (s : RedisServer) (a : Issue) : Prop :=
  ∀ cmd ∈ foundCommand s a.client a.argv, cmd.proc ≠ .exec ∧
    ∀ db ∈ (s.getDb (s.client a.client).db).toOption, Sound a.env.now cmd a.argv db

instance decidableSoundIssue (s : RedisServer) (a : Issue) : Decidable (SoundIssue s a) :=
  inferInstanceAs (Decidable (∀ cmd ∈ foundCommand s a.client a.argv, cmd.proc ≠ .exec ∧
    ∀ db ∈ (s.getDb (s.client a.client).db).toOption, Sound a.env.now cmd a.argv db))

theorem SoundIssue.notExec {a : Issue} (h : SoundIssue s a) : NotExec s a.client a.argv :=
  fun cmd hf => (h cmd hf).1

/-- The EXPIRE of a key. -/
def SetsDeadline (i : Nat) (k : Bytes) (call : Call) : Prop :=
  WritesKey i k call ∧ call.proc = some .expire

theorem issue_backed {a : Issue} {u : Unit} (hb : AllBacked s) (ha : SoundIssue s a)
    (h : issue s a = some (u, s')) : AllBacked s' := by
  intro i db' hi
  rw [processCommand_getElem ha.notExec (issue_ok.mp h)] at hi
  split at hi
  · rename_i hsel
    obtain ⟨db, hdb, rfl⟩ := Option.map_eq_some_iff.mp hi
    cases hf : foundCommand s a.client a.argv with
    | none =>
      rw [callEffect, hf]
      exact hb i db hdb
    | some cmd =>
      rw [callEffect, hf]
      have hget : s.getDb (s.client a.client).db = .ok db :=
        getDb_ok.mpr ⟨by omega, by rw [hsel]; exact hdb⟩
      exact (cmdEffect_backed (hb i db hdb) ((ha cmd hf).2 db (by rw [hget]; rfl))).2
  · exact hb i db' hi

/-- Only EXPIRE gives a key a deadline. -/
theorem issue_expireAt {a : Issue} {u : Unit} (ha : NotExec s a.client a.argv)
    (h : issue s a = some (u, s')) : Grows (fun call => ¬ SetsDeadline i k call)
      (fun s s' => expireAt s' i k = expireAt s i k) s s' :=
  small_expireAt (.command _ _ _ _ ha (issue_ok.mp h))

theorem run_expireAt {as : List Issue} {us : List Unit} (ha : Along issue SoundIssue s as)
    (h : run issue s as = some (us, s')) : Grows (fun call => ¬ SetsDeadline i k call)
      (fun s s' => expireAt s' i k = expireAt s i k) s s' := by
  induction as generalizing s us with
  | nil =>
    cases h
    exact ⟨[], by simp, fun _ => rfl⟩
  | cons a as ih =>
    obtain ⟨u, s₁, us', h₁, h₂, -⟩ := run_cons_eq_some.mp h
    obtain ⟨n₁, e₁, k₁⟩ := issue_expireAt (i := i) (k := k) ha.1.notExec h₁
    obtain ⟨n₂, e₂, k₂⟩ := ih (ha.2 u s₁ h₁) h₂
    refine ⟨n₁ ++ n₂, by rw [e₂, e₁, List.append_assoc], fun hn => (k₂ ?_).trans (k₁ ?_)⟩
    · exact fun call hm => hn call (List.mem_append_right _ hm)
    · exact fun call hm => hn call (List.mem_append_left _ hm)

theorem run_backed {as : List Issue} {us : List Unit} (hb : AllBacked s)
    (ha : Along issue SoundIssue s as) (h : run issue s as = some (us, s')) : AllBacked s' :=
  run_invariant (fun _ _ _ _ hb ha h => issue_backed hb ha h) as hb ha h

/-- **Deadlines and keys.** In a run of sound commands every deadline is a key's; so
a key that is gone has no deadline before the next EXPIRE, whatever is set. -/
theorem deadlines_backed {s₀ : RedisServer} {as₁ as₂ : List Issue} {us : List Unit}
    (hb : AllBacked s₀) (ha : Along issue SoundIssue s₀ (as₁ ++ as₂))
    (h : run issue s₀ (as₁ ++ as₂) = some (us, s)) :
    AllBacked s ∧ ∃ us₁ s₁ new, run issue s₀ as₁ = some (us₁, s₁) ∧ s.calls = s₁.calls ++ new ∧
      ∀ i k, kvAt s₁ i k = none → (∀ call ∈ new, ¬ SetsDeadline i k call) →
        expireAt s i k = none := by
  rw [run_append] at h
  obtain ⟨⟨us₁, s₁⟩, h₁, h⟩ := Option.bind_eq_some_iff.mp h
  obtain ⟨⟨us₂, s₂⟩, h₂, e⟩ := Option.map_eq_some_iff.mp h
  obtain ⟨rfl, rfl⟩ := Prod.mk.inj e
  obtain ⟨ha₁, ha₂⟩ := along_append ha
  have hb₁ := run_backed hb ha₁ h₁
  have ha₂ := ha₂ us₁ s₁ h₁
  obtain ⟨new, en, -⟩ := run_expireAt (i := 0) (k := []) ha₂ h₂
  refine ⟨run_backed hb₁ ha₂ h₂, us₁, s₁, new, h₁, en, fun i k hgone hnew => ?_⟩
  obtain ⟨new', en', hkeep⟩ := run_expireAt (i := i) (k := k) ha₂ h₂
  obtain rfl : new = new' := List.append_cancel_left (en.symm.trans en')
  rw [hkeep hnew]
  unfold kvAt at hgone
  unfold expireAt
  cases hdb : s₁.db[i]? with
  | none => rfl
  | some db =>
    rw [hdb] at hgone
    by_contra hd
    exact Finmap.lookup_eq_none.mp hgone (hb₁ i db hdb k (Finmap.lookup_isSome.mp
      (Option.isSome_iff_ne_none.mpr hd)))

/-- Two commands of a client, one of them with a deadline. -/
def sampleIssue (now : Int) (argv : List Bytes) : Issue := ⟨⟨now, none⟩, 7, argv⟩

theorem deadlines_backed_two : ∃ us s, run issue (sampleServer false)
      ([sampleIssue 0 [bytes "SET", bytes "k", bytes "v"]] ++
        [sampleIssue 0 [bytes "EXPIRE", bytes "k", bytes "9"],
          sampleIssue 5 [bytes "GET", bytes "k"]]) = some (us, s) ∧ AllBacked s := by
  have hall : (run issue (sampleServer false)
      ([sampleIssue 0 [bytes "SET", bytes "k", bytes "v"]] ++
        [sampleIssue 0 [bytes "EXPIRE", bytes "k", bytes "9"],
          sampleIssue 5 [bytes "GET", bytes "k"]])).isSome = true := by decide
  obtain ⟨⟨us, s⟩, hrun⟩ := Option.isSome_iff_exists.mp hall
  refine ⟨us, s, hrun, (deadlines_backed ?_ (by decide) hrun).1⟩
  intro i db hdb k hk
  have hdbs : (sampleServer false).db = [dbInit] := rfl
  rw [hdbs] at hdb
  obtain rfl : db = dbInit := List.mem_singleton.mp (List.mem_of_getElem? hdb)
  exact absurd hk Finmap.notMem_empty

/-- A deadline outlives its key by a DEL, and takes the next value with it. -/
theorem deadline_outlives : (∃ us s, run issue (sampleServer false)
      [sampleIssue 0 [bytes "SET", bytes "k", bytes "v"],
        sampleIssue 0 [bytes "EXPIRE", bytes "k", bytes "9"], sampleIssue 1 [bytes "DEL", bytes "k"]] =
          some (us, s) ∧ kvAt s 0 (bytes "k") = none ∧ expireAt s 0 (bytes "k") = some 9) ∧
    ∃ us s, run issue (sampleServer false)
      [sampleIssue 0 [bytes "SET", bytes "k", bytes "v"],
        sampleIssue 0 [bytes "EXPIRE", bytes "k", bytes "9"], sampleIssue 1 [bytes "DEL", bytes "k"],
        sampleIssue 5 [bytes "SET", bytes "k", bytes "w"], sampleIssue 10 [bytes "GET", bytes "k"]] =
          some (us, s) ∧ kvAt s 0 (bytes "k") = none := by
  have gone : (run issue (sampleServer false)
      [sampleIssue 0 [bytes "SET", bytes "k", bytes "v"],
        sampleIssue 0 [bytes "EXPIRE", bytes "k", bytes "9"],
        sampleIssue 1 [bytes "DEL", bytes "k"]]).map
      (fun r => (kvAt r.2 0 (bytes "k"), expireAt r.2 0 (bytes "k"))) = some (none, some 9) := by
    decide
  have lost : (run issue (sampleServer false)
      [sampleIssue 0 [bytes "SET", bytes "k", bytes "v"],
        sampleIssue 0 [bytes "EXPIRE", bytes "k", bytes "9"], sampleIssue 1 [bytes "DEL", bytes "k"],
        sampleIssue 5 [bytes "SET", bytes "k", bytes "w"],
        sampleIssue 10 [bytes "GET", bytes "k"]]).map (fun r => kvAt r.2 0 (bytes "k")) =
          some none := by decide
  obtain ⟨⟨us, s⟩, hrun, hs⟩ := Option.map_eq_some_iff.mp gone
  obtain ⟨⟨us', s'⟩, hrun', hs'⟩ := Option.map_eq_some_iff.mp lost
  obtain ⟨hk, hd⟩ := Prod.mk.inj hs
  exact ⟨⟨us, s, hrun, hk, hd⟩, us', s', hrun', hs'⟩

end Fedis.Proof.Server
