import Fedis.Proof.Server.Reads
import Fedis.Proof.Store.Replies

/-!
# The server does what the store does

What a request makes of the server is what it makes of `Store` (`serves_step`). `answer_sends` gives
the replies; here come the databases (`answer_views`) and the clients (`answer_clients`).
-/

namespace Fedis.Proof.Server

open Framework Resp Value

variable {s s' t : RedisServer} {c : ClientId} {cmd : RedisCommand} {db : RedisDb}
  {st st' : Store} {dbnum : Nat} {key v : Bytes} {q : Query} {rep : Reply} {now : Int}

/-- What an answer leaves of the store. -/
structure StoreStep (c : ClientId) (q : Query) (st st' : Store) : Prop where
  now : st'.now = st.now
  sent : st'.sent = st.sent
  other : ∀ j, j ≠ st.selected c → st'.value j = st.value j ∧ st'.deadline j = st.deadline j
  value : ∀ i k v, st'.value i k = some v → st.value i k = some v ∨ ∃ key, q = .set key v
  selected : (∀ index, q ≠ .select index) → st'.selected = st.selected

theorem StoreStep.refl (c : ClientId) (q : Query) (st : Store) : StoreStep c q st st :=
  ⟨rfl, rfl, fun _ _ => ⟨rfl, rfl⟩, fun _ _ _ h => .inl h, fun _ => rfl⟩

theorem answered_setValue (k : Bytes) {v : Option Bytes} (hv : ∀ w ∈ v, ∃ key, q = .set key w) :
    StoreStep c q st (st.setValue (st.selected c) k v) where
  now := rfl
  sent := rfl
  other j hj := by
    rw [Store.setValue]
    exact ⟨Function.update_of_ne hj _ _, rfl⟩
  value i k' w h := by
    rw [setValue_value] at h
    split at h
    · exact .inr (hv w h)
    · exact .inl h
  selected _ := rfl

theorem answered (h : st.answer string2long shown dbnum c q = some (rep, st')) :
    StoreStep c q st st' := by
  unfold Store.answer at h
  split at h
  · cases h
    exact answered_setValue _ fun w hw => by cases hw; exact ⟨_, rfl⟩
  · split at h
    all_goals
      cases h
      exact .refl c _ st
  · split at h
    · cases h
      exact answered_setValue _ fun w hw => by cases hw
    · cases h
      exact .refl c _ st
  · split at h
    · cases h
      exact .refl c _ st
    · split at h
      · cases h
      · split at h
        · cases h
          exact .refl c _ st
        · cases h
          refine ⟨rfl, rfl, fun j hj => ⟨rfl, ?_⟩, fun _ _ _ h => .inl h, fun _ => rfl⟩
          exact Function.update_of_ne hj _ _
  · split at h
    · dsimp only at h
      split at h
      · cases h
        exact .refl c _ st
      · cases h
    · cases h
      exact .refl c _ st
  · split at h
    · cases h
      exact .refl c _ st
    · split at h
      · cases h
        exact ⟨rfl, rfl, fun _ _ => ⟨rfl, rfl⟩, fun _ _ _ h => .inl h, fun h => absurd rfl (h _)⟩
      · cases h
  · cases h
    exact .refl c _ st

theorem expire_none {seconds : Bytes} (hn : string2long seconds = none) :
    dbEffect now .expire c [bytes "EXPIRE", key, seconds] db = db := by
  simp only [dbEffect, List.getElem?_cons_succ, List.getElem?_cons_zero, hn]

theorem expire_some {seconds : Bytes} {n : Int} (hn : string2long seconds = some n) :
    dbEffect now .expire c [bytes "EXPIRE", key, seconds] db =
      if cstr key ∈ db.expires then db
      else { db with expires := db.expires.insert (cstr key) (n + now) } := by
  simp only [dbEffect, List.getElem?_cons_succ, List.getElem?_cons_zero, hn]

/-- The effect of a command on the selected database. -/
theorem answer_views (hv : Views st (st.selected c) db) (hnul : ∀ arg ∈ q.argv, ∀ b ∈ arg, b ≠ 0)
    (h : st.answer string2long shown dbnum c q = some (rep, st')) :
    Views st' (st.selected c) (cmdEffect st.now q.entry c q.argv db) := by
  have hkey : ∀ key ∈ q.argv, cstr key = key := fun key hk => cstr_eq_self (hnul key hk)
  unfold Store.answer at h
  cases q with
  | set key value =>
    cases h
    have hk := hkey key (by simp [Query.argv])
    have hexp := (hv.expire key).1.insert key value
    have he : cmdEffect st.now (Query.set key value).entry c (Query.set key value).argv db =
        unwatch { expireIfNeed db (cstr key) st.now with
          kv := (expireIfNeed db (cstr key) st.now).kv.insert (cstr key)
            (robjCreateStringObject value) }
          (cstr key) := rfl
    rw [he, hk, unwatch_nobody hexp.unwatched]
    exact hexp
  | get key =>
    have he : cmdEffect st.now (Query.get key).entry c (Query.get key).argv db =
        expireIfNeed db (cstr key) st.now := rfl
    rw [he, hkey key (by simp [Query.argv])]
    dsimp only at h
    split at h
    all_goals
      cases h
      exact (hv.expire key).1
  | del key =>
    have he : cmdEffect st.now (Query.del key).entry c (Query.del key).argv db =
        unwatch { expireIfNeed db (cstr key) st.now with
          kv := (expireIfNeed db (cstr key) st.now).kv.erase (cstr key) } (cstr key) := rfl
    have hexp := (hv.expire key).1
    rw [he, hkey key (by simp [Query.argv]), unwatch_nobody (hexp.erase key).unwatched]
    dsimp only at h
    split at h
    · cases h
      exact hexp.erase key
    · rename_i hseen
      cases h
      exact hexp.erase_unseen (Option.not_isSome_iff_eq_none.mp hseen)
  | expire key seconds =>
    have he : cmdEffect st.now (Query.expire key seconds).entry c (Query.expire key seconds).argv db =
        unwatch (dbEffect st.now .expire c [bytes "EXPIRE", key, seconds]
          (expireIfNeed db (cstr key) st.now)) (cstr key) := rfl
    have hexp := (hv.expire key).1
    have hmem : key ∈ (expireIfNeed db key st.now).expires ↔
        (st.deadline (st.selected c) key).isSome = true := by
      rw [← Finmap.lookup_isSome, hexp.deadline]
    have hk := hkey key (by simp [Query.argv])
    rw [he, hk]
    dsimp only at h
    cases hn : string2long seconds with
    | none =>
      rw [hn] at h
      cases h
      rw [expire_none hn, unwatch_nobody hexp.unwatched]
      exact hexp
    | some n =>
      rw [hn] at h
      dsimp only at h
      rw [expire_some hn, hk]
      split at h
      · cases h
      split at h
      · rename_i hd
        cases h
        rw [if_pos (hmem.mpr hd), unwatch_nobody hexp.unwatched]
        exact hexp
      · rename_i hd
        cases h
        have hset := hexp.setDeadline (Option.not_isSome_iff_eq_none.mp hd) (n + st.now)
        rw [if_neg (mt hmem.mp hd), unwatch_nobody hset.unwatched]
        exact hset
  | ttl key =>
    have he : cmdEffect st.now (Query.ttl key).entry c (Query.ttl key).argv db =
        expireIfNeed db (cstr key) st.now := rfl
    rw [he, hkey key (by simp [Query.argv])]
    dsimp only at h
    split at h
    · split at h
      · cases h
        exact (hv.expire key).1
      · cases h
    · cases h
      exact (hv.expire key).1
  | select index =>
    have he : cmdEffect st.now (Query.select index).entry c (Query.select index).argv db = db := rfl
    rw [he]
    dsimp only at h
    split at h
    · cases h
      exact hv
    · split at h
      · cases h
        exact hv.congr rfl rfl rfl
      · cases h
  | ping =>
    cases h
    exact hv

/-! ## One request -/

theorem entry_table (q : Query) : q.entry ∈ commandsTable := by
  cases q <;> simp [Query.entry, commandsTable]

theorem entry_plain (q : Query) : q.entry.proc ≠ .exec ∧ q.entry.proc ≠ .slaveof := by
  cases q <;> simp [Query.entry]

theorem entry_found (hslave : s.flags.slave = false) (q : Query) :
    foundCommand s c q.argv = some q.entry := by
  refine foundCommand_some ?_ (entry_table q) ?_ (by simp [isSupportedCmd, hslave])
  · cases q <;> exact List.cons_ne_nil _ _
  · cases q <;> exact beq_self_eq_true _

theorem fits_request (h : q.Fits) : Request q.argv := by
  have hlen : ∀ arg ∈ q.argv, arg.length < 1024 := fun arg ha => by
    have hsub := List.Sublist.length_le (List.sublist_flatten_of_mem
      (List.mem_map_of_mem (f := fun arg => respEncodeArg arg ++ crlf) ha))
    have hl := h.length
    rw [← List.flatMap_def] at hsub
    simp only [respEncodeArrayString, respEncodeArg, cstr_eq_self (h.nul arg ha), List.length_append,
      List.length_cons] at hl hsub
    omega
  refine ⟨?_, ?_, h.nul, fun arg ha => (hlen arg ha).trans (by decide)⟩
  · cases q <;> exact List.cons_ne_nil _ _
  · cases q <;> simp [Query.argv]

theorem fits_printable (h : (Query.set key v).Fits) : Printable v := by
  have hnul : ∀ b ∈ v, b ≠ 0 := h.nul v (by simp [Query.argv])
  have hl := length_set_request key v
  have hlen : (respEncodeArrayString [bytes "SET", key, v]).length < 1024 := h.length
  rw [cstr_eq_self hnul] at hl
  exact ⟨hnul, by omega⟩

/-- Between two commands, a server's buffers and its history do not matter to the store. -/
theorem Serves.congr (h : Serves dbnum st s) (hflags : s'.flags = s.flags) (hdb : s'.db = s.db)
    (hcore : ∀ x, core (s'.client x) = core (s.client x))
    (hsent : ∀ x, (s'.client x).writeBuf = (s.client x).writeBuf) : Serves dbnum st s' where
  slave := by rw [hflags, h.slave]
  normal x := by rw [core_flags (hcore x), h.normal]
  selected x := by rw [core_db (hcore x), h.selected]
  sent x := by rw [hsent, h.sent]
  dbs := by rw [hdb, h.dbs]
  inside := h.inside
  views i db hi := h.views i db (by rwa [← hdb])
  printable := h.printable

theorem Serves.later (h : Serves dbnum st s) (hle : st.now ≤ now) :
    Serves dbnum { st with now := now } s :=
  { h with views := fun i db hi => (h.views i db hi).later hle }

theorem watchersAt_nobody (h : Serves dbnum st s) (i : Nat) (k : Bytes) : watchersAt s i k = [] := by
  unfold watchersAt
  cases hi : s.db[i]? with
  | none => rfl
  | some db =>
    rw [Option.bind_some, (h.views i db hi).unwatched]
    rfl

/-- What a command makes of the clients. -/
theorem answer_clients (hs : Serves dbnum st s)
    (h : st.answer string2long shown dbnum c q = some (rep, st')) (x : ClientId) :
    (clientAfter s c q.argv x).flags = .REDIS_CLIENT_NORMAL ∧
      (clientAfter s c q.argv x).db = st'.selected x ∧ st'.selected x < dbnum := by
  have hsame : st'.selected = st.selected → (s.client x).flags = .REDIS_CLIENT_NORMAL ∧
      (s.client x).db = st'.selected x ∧ st'.selected x < dbnum := fun e => by
    rw [e]
    exact ⟨hs.normal x, hs.selected x, hs.inside x⟩
  have hafter : clientAfter s c q.argv x =
      if x = c then clientEffect q.entry.proc q.argv (s.client c) else s.client x := by
    unfold clientAfter
    rw [entry_found hs.slave]
    dsimp only
    rw [watchersAt_nobody hs, if_neg List.not_mem_nil]
    by_cases hw : q.entry.write = true
    · rw [if_pos hw, write_client (entry_table q) hw]
      split
      · rename_i hx
        rw [hx]
      · rfl
    · rw [if_neg hw]
  rw [hafter]
  by_cases hselect : ∃ index, q = .select index
  · obtain ⟨index, rfl⟩ := hselect
    cases hn : string2long index with
    | none =>
      have he : clientEffect .select [bytes "SELECT", index] (s.client c) = s.client c := by
        simp only [clientEffect, List.getElem?_cons_succ, List.getElem?_cons_zero, Option.bind_some, hn]
      unfold Store.answer at h
      dsimp only at h
      rw [hn] at h
      cases h
      show (if x = c then clientEffect .select [bytes "SELECT", index] (s.client c)
        else s.client x).flags = _ ∧
        (if x = c then clientEffect .select [bytes "SELECT", index] (s.client c)
          else s.client x).db = _ ∧ _
      rw [he]
      split
      · rename_i hx
        rw [← hx]
        exact hsame rfl
      · exact hsame rfl
    | some n =>
      have he : clientEffect .select [bytes "SELECT", index] (s.client c) =
          { s.client c with db := n } := by
        simp only [clientEffect, List.getElem?_cons_succ, List.getElem?_cons_zero, Option.bind_some, hn]
      unfold Store.answer at h
      dsimp only at h
      rw [hn] at h
      dsimp only at h
      split at h
      · rename_i hin
        cases h
        show (if x = c then clientEffect .select [bytes "SELECT", index] (s.client c)
        else s.client x).flags = _ ∧
          (if x = c then clientEffect .select [bytes "SELECT", index] (s.client c)
          else s.client x).db = _ ∧ _
        rw [he]
        dsimp only
        split
        · rename_i hx
          rw [hx, Function.update_self]
          exact ⟨hs.normal c, (Int.toNat_of_nonneg hin.1).symm, by omega⟩
        · rename_i hx
          rw [Function.update_of_ne hx]
          exact ⟨hs.normal x, hs.selected x, hs.inside x⟩
      · cases h
  · have hst : st'.selected = st.selected :=
      (answered h).selected fun index e => hselect ⟨index, e⟩
    have heffect : clientEffect q.entry.proc q.argv (s.client c) = s.client c := by
      cases q with
      | select index => exact absurd ⟨index, rfl⟩ hselect
      | _ => rfl
    rw [heffect]
    split
    · rename_i hx
      rw [← hx]
      exact hsame hst
    · exact hsame hst

theorem replicate_alone (h : slaves t = []) (x : ClientId) :
    ((replicate t c cmd).client x).writeBuf = (t.client x).writeBuf := by
  have hslaves :
      slaves { t with backlog := addRepliBuf t.backlog (t.client c).readBuf.content } = [] := h
  unfold replicate commandPropagate
  by_cases hm : (cmd.write && t.flags.master) = true
  · rw [if_pos hm, hslaves]
    dsimp only [List.foldl_nil]
    split <;> rfl
  · rw [if_neg hm]
    dsimp only
    split <;> rfl

/-- One request that the store answers. -/
theorem serves_step (hdbnum : dbnum ≤ 2 ^ 31) {r : Ask} (h : Serves dbnum st s) (hi : Idle s)
    (hf : r.query.Fits) {u : Unit} (hstep : st.step string2long shown dbnum r = some (u, st')) :
    ∃ s', serve s r.read = some (u, s') ∧ Serves dbnum st' s' ∧ Idle s' := by
  unfold Store.step at hstep
  split at hstep
  · cases hstep
  rename_i htime
  obtain ⟨⟨rep, st₁⟩, hans, e⟩ := Option.map_eq_some_iff.mp hstep
  cases e
  have hst := answered hans
  set q := r.query with hq
  set c := r.client with hc
  set w := received s c (respEncodeArrayString q.argv) with hw
  have hwcore : ∀ x, core (w.client x) = core (s.client x) := fun x => received_core _
  have hserves : Serves dbnum { st with now := r.now } w :=
    (h.later (not_lt.mp htime)).congr rfl rfl hwcore fun x => writeBuf_received s c x _
  have hlog : Serves dbnum { st with now := r.now } (logCall w c q.argv) :=
    hserves.congr rfl rfl (fun _ => rfl) fun _ => rfl
  obtain ⟨t, ht, hsends⟩ := answer_sends (processClientQueryBuf r.read.env 11) r.read.env
    hlog rfl hdbnum hf.nul hans
  have hfound : foundCommand w c q.argv = some q.entry := entry_found hserves.slave q
  have hne : NotExec w c q.argv := (notExec_found hfound).mpr (entry_plain q).1
  have hcall : processCommand (processClientQueryBuf r.read.env 11) r.read.env w c q.argv =
      .ok (clearReadBuf (replicate t c q.entry) c) :=
    (processCommand_found hfound).mpr ⟨(fits_request hf).ne_nil, t, ht, rfl⟩
  have hm : (s.client c).flags.multi = false := by
    rw [h.normal c]
    rfl
  have hread : readFromClient r.read.env s c (respEncodeArrayString q.argv) =
      .ok (clearReadBuf (clearReadBuf (replicate t c q.entry) c) c) :=
    (read_request (fits_request hf) hf.length (hi c)).mpr ⟨_, .inr ⟨not_queues hm, hcall⟩, rfl⟩
  have hcore : ∀ x, core ((clearReadBuf (replicate t c q.entry) c).client x) =
      core (clientAfter w c q.argv x) := fun x => processCommand_core hne hcall fun cmd hcmd hp => by
    rw [hfound] at hcmd
    cases hcmd
    exact absurd hp (entry_plain q).2
  have hclients := answer_clients hserves hans
  have hslaves : slaves t = [] := by
    refine List.filter_eq_nil_iff.mpr fun x _ hx => ?_
    rw [← core_flags replied_core, core_flags (hcore x), (hclients x).1] at hx
    exact absurd hx (by decide)
  have hdb : (clearReadBuf (replicate t c q.entry) c).db =
      w.db.modify (w.client c).db.toNat (callEffect r.read.env w c q.argv) := processCommand_db hne hcall
  have hsel : (w.client c).db.toNat = st.selected c := by
    rw [hserves.selected c]
    rfl
  rw [hsel] at hdb
  refine ⟨_, serve_ok.mpr hread,
    ⟨?_, fun x => ?_, fun x => ?_, fun x => ?_, ?_, fun x => (hclients x).2.2,
    fun i db hidb => ?_, fun i k v hv => ?_⟩, readFromClient_idle hread hi⟩
  · have hflags := processCommand_flags hne hcall fun cmd hcmd => by
      rw [hfound] at hcmd
      cases hcmd
      exact (entry_plain q).2
    rw [clearReadBuf_flags, hflags]
    exact hserves.slave
  · rw [core_flags clearReadBuf_core, core_flags (hcore x)]
    exact (hclients x).1
  · rw [core_db clearReadBuf_core, core_db (hcore x)]
    exact (hclients x).2.1
  · rw [writeBuf_clearReadBuf, writeBuf_clearReadBuf, replicate_alone hslaves, hsends x, hlog.sent x,
      hst.sent]
    dsimp only
    split
    · rename_i hx
      rw [hx, Function.update_self, List.flatMap_append, List.flatMap_singleton]
    · rename_i hx
      rw [Function.update_of_ne hx, List.append_nil]
  · rw [clearReadBuf_db, hdb, List.length_modify]
    exact hserves.dbs
  · rw [clearReadBuf_db, hdb, List.getElem?_modify] at hidb
    obtain ⟨db₀, hdb₀, rfl⟩ := Option.map_eq_some_iff.mp hidb
    have hv := hserves.views i db₀ hdb₀
    split
    · rename_i hi
      subst hi
      have he : callEffect r.read.env w c q.argv db₀ = cmdEffect r.now q.entry c q.argv db₀ := by
        rw [callEffect, hfound]
        rfl
      rw [he]
      exact (answer_views hv hf.nul hans).congr rfl rfl rfl
    · rename_i hi
      obtain ⟨hvalue, hdeadline⟩ := hst.other i (Ne.symm hi)
      exact hv.congr hdeadline hvalue hst.now
  · obtain hv | ⟨key, hset⟩ := hst.value i k v hv
    · exact h.printable i k v hv
    · rw [hset] at hf
      exact fits_printable hf

theorem serves_init (id : Int) (hdbnum : 0 < dbnum) (aofOn : Bool) (start : Int) :
    Serves dbnum (Store.init start) (initServer id ⟨true, false, false⟩ dbnum aofOn) where
  slave := rfl
  normal _ := rfl
  selected _ := rfl
  sent _ := rfl
  dbs := List.length_replicate
  inside _ := hdbnum
  views i db h := by
    rw [List.eq_of_mem_replicate (List.mem_of_getElem? h)]
    exact ⟨fun _ => rfl, fun _ _ => rfl, rfl⟩
  printable i k v h := by cases h

end Fedis.Proof.Server
