import Fedis.Proof.Server.SetGet
import Fedis.Proof.Store.Views

/-!
# Replies

The requests and replies of a store on the wire, and the replies of the handlers: each sends its
client what the store answers, and no other client anything (`answer_sends`).
-/

namespace Fedis

open Framework

/-! ## Requests and replies -/

def Query.argv : Query → List Bytes
  | .set key value => [bytes "SET", key, value]
  | .get key => [bytes "GET", key]
  | .del key => [bytes "DEL", key]
  | .expire key seconds => [bytes "EXPIRE", key, seconds]
  | .ttl key => [bytes "TTL", key]
  | .select index => [bytes "SELECT", index]
  | .ping => [bytes "PING"]

/-- What the request finds in `commandsTable`. -/
def Query.entry : Query → RedisCommand
  | .set _ _ => ⟨true, false, bytes "SET", .set, 3⟩
  | .get _ => ⟨false, true, bytes "GET", .get, 2⟩
  | .del _ => ⟨true, false, bytes "DEL", .del, 2⟩
  | .expire _ _ => ⟨true, false, bytes "EXPIRE", .expire, 3⟩
  | .ttl _ => ⟨false, true, bytes "TTL", .ttl, 2⟩
  | .select _ => ⟨false, false, bytes "SELECT", .select, 2⟩
  | .ping => ⟨false, false, bytes "PING", .ping, 1⟩

/-- One read can hold the request. -/
structure Query.Fits (q : Query) : Prop where
  nul : ∀ arg ∈ q.argv, ∀ b ∈ arg, b ≠ 0
  length : (respEncodeArrayString q.argv).length < 1024

def Reply.bytes : Reply → Bytes
  | .ok => resp.ok
  | .pong => resp.pong
  | .err => resp.err
  | .keyNotFound => resp.keyNotFound
  | .bulk value => bulkString value

def Ask.read (r : Ask) : Read := ⟨⟨r.now, none⟩, r.client, respEncodeArrayString r.query.argv⟩

end Fedis

namespace Fedis.Proof.Server

open Framework Resp Value

variable {query : RedisServer → ClientId → Except Fault RedisServer} {env : Env}
  {s s' t : RedisServer} {c : ClientId} {argv : List Bytes} {cmd : RedisCommand} {db : RedisDb}
  {st st' : Store} {dbnum : Nat} {key v : Bytes} {q : Query}

/-- A value that GET can answer with. -/
def Printable (v : Bytes) : Prop := (∀ b ∈ v, b ≠ 0) ∧ (bulkString v).length < 1024

/-! ## Commands -/

/-- The client is sent the reply, and no other client anything. -/
def Sends (s : RedisServer) (c : ClientId) (reply : Bytes) (s' : RedisServer) : Prop :=
  ∀ x, (s'.client x).writeBuf.content = (s.client x).writeBuf.content ++ if x = c then reply else []

theorem sends_addWrite {reply : Bytes} (hz : ∀ b ∈ reply, b ≠ 0)
    (h : s'.client = (addWrite s c reply).client) : Sends s c reply s' := fun x => by
  rw [h]
  split
  · rename_i hx
    rw [hx, addWrite_content, cstr_eq_self hz]
  · rename_i hx
    rw [addWrite_of_ne _ hx, List.append_nil]

theorem Sends.congr {reply : Bytes} {u u' : RedisServer} (h : Sends u c reply u')
    (hu : ∀ x, (u.client x).writeBuf = (s.client x).writeBuf)
    (hu' : ∀ x, (s'.client x).writeBuf = (u'.client x).writeBuf) : Sends s c reply s' := fun x => by
  rw [hu', h x, hu]

/-- The server serves what the store says. -/
structure Serves (dbnum : Nat) (st : Store) (s : RedisServer) : Prop where
  slave : s.flags.slave = false
  normal : ∀ x, (s.client x).flags = .REDIS_CLIENT_NORMAL
  selected : ∀ x, (s.client x).db = st.selected x
  sent : ∀ x, (s.client x).writeBuf.content = (st.sent x).flatMap Reply.bytes
  dbs : s.db.length = dbnum
  inside : ∀ x, st.selected x < dbnum
  views : ∀ i db, s.db[i]? = some db → Views st i db
  printable : ∀ i k v, st.value i k = some v → Printable v

theorem Serves.getDb (h : Serves dbnum st s) {i : Nat} (hi : i < dbnum) :
    ∃ db, s.getDb i = .ok db ∧ Views st i db := by
  have hlt : i < s.db.length := h.dbs ▸ hi
  exact ⟨s.db[i], getDb_ok.mpr ⟨Int.natCast_nonneg i, List.getElem?_eq_getElem hlt⟩,
    h.views i _ (List.getElem?_eq_getElem hlt)⟩

theorem writeBuf_feedAof (x : ClientId) :
    ((feedAof s c cmd).client x).writeBuf = (s.client x).writeBuf := by
  by_cases hx : x = c
  · rw [hx, feedAof_writeBuf]
  · rw [feedAof_other hx]

/-- A command that reads or writes the selected database, when its handler answers. -/
theorem executed_sends {reply : Bytes} (hs : Serves dbnum st s) (hnow : env.now = st.now)
    (hrw : (cmd.read || cmd.write) = true) (hk : argv[1]? = some key) (hz : cstr key = key)
    (hcall : ∀ s₁ db, (s₁.client c).db = (st.selected c : Int) → s₁.getDb (st.selected c) = .ok db →
      Views st (st.selected c) db →
      db.kv.lookup key = (st.seen (st.selected c) key).map robjCreateStringObject →
      (∃ db0, s₁.getDb 0 = .ok db0 ∧ ∀ k, db0.expires.lookup k = st.deadline 0 k) →
      ∃ s₂, callProc query env cmd.proc s₁ c argv = .ok s₂ ∧ Sends s₁ c reply s₂ ∧
        (cmd.write = true → ∃ db', s₂.getDb (s₂.client c).db = .ok db')) :
    ∃ t, executed query env s c cmd argv = .ok t ∧ Sends s c reply t := by
  obtain ⟨db, hdb, hv⟩ := hs.getDb (hs.inside c)
  set u := feedAof s c cmd with hu
  have hudb : (u.client c).db = st.selected c := by rw [core_db feedAof_core, hs.selected]
  have huget : u.getDb (u.client c).db = .ok db := by
    rw [hudb]
    exact getDb_ok.mpr (feedAof_db (s := s) ▸ getDb_ok.mp hdb)
  set s₁ := u.setDb (u.client c).db (expireIfNeed db key env.now) with hs₁
  have h₁ : expireArg env u c cmd argv = .ok s₁ := by
    refine expireArg_ok.mpr ?_
    rw [if_pos hrw]
    exact ⟨key, db, hk, huget, by rw [hz]⟩
  obtain ⟨hv', hseen⟩ := hv.expire key
  rw [← hnow] at hv' hseen
  have hget₁ : s₁.getDb (st.selected c) = .ok (expireIfNeed db key env.now) := by
    refine getDb_ok.mpr ⟨Int.natCast_nonneg _, ?_⟩
    rw [hs₁, setDb_db _ huget, Int.toNat_natCast, if_pos hudb]
  have hzero : ∃ db0, s₁.getDb 0 = .ok db0 ∧ ∀ k, db0.expires.lookup k = st.deadline 0 k := by
    by_cases h0 : st.selected c = 0
    · rw [h0] at hget₁ hv'
      exact ⟨_, hget₁, hv'.deadline⟩
    · obtain ⟨db0, hdb0, hv0⟩ := hs.getDb ((Nat.zero_le _).trans_lt (hs.inside c))
      refine ⟨db0, getDb_ok.mpr ⟨le_refl _, ?_⟩, hv0.deadline⟩
      rw [hs₁, setDb_db _ huget, hudb, if_neg (by simpa using h0), hu, feedAof_db]
      exact (getDb_ok.mp hdb0).2
  obtain ⟨s₂, h₂, hsends, hdb₂⟩ := hcall s₁ _ hudb hget₁ hv' hseen hzero
  have hsends : Sends s c reply s₂ := hsends.congr (fun x => writeBuf_feedAof x) fun _ => rfl
  by_cases hw : cmd.write = true
  · obtain ⟨db', hdb'⟩ := hdb₂ hw
    obtain ⟨t, ht⟩ : ∃ t, touchWatchKey s₂ c argv = .ok t :=
      ⟨_, touchWatchKey_ok.mpr ⟨key, db', hk, hdb', rfl⟩⟩
    refine ⟨t, ?_, hsends.congr (fun _ => rfl) (touchWatchKey_field (·.writeBuf) (fun _ => rfl) ht)⟩
    rw [executed, h₁, ok_bind, h₂, ok_bind, if_pos hw, ht]
  · refine ⟨s₂, ?_, hsends⟩
    rw [executed, h₁, ok_bind, h₂, ok_bind, if_neg hw]
    rfl

/-- A command that neither reads nor writes a database. -/
theorem executed_plain {reply : Bytes} (hr : cmd.read = false) (hw : cmd.write = false)
    (hcall : ∃ t, callProc query env cmd.proc s c argv = .ok t ∧ Sends s c reply t) :
    ∃ t, executed query env s c cmd argv = .ok t ∧ Sends s c reply t := by
  obtain ⟨t, ht, hsends⟩ := hcall
  have hfeed : feedAof s c cmd = s := by simp [feedAof, hw]
  refine ⟨t, ?_, hsends⟩
  have h₁ : expireArg env s c cmd argv = .ok s := by
    refine expireArg_ok.mpr ?_
    rw [hr, hw]
    rfl
  rw [executed, hfeed, h₁, ok_bind, ht, ok_bind, hw]
  rfl

theorem sends_bulk (w : Bytes) (hw : ∀ b ∈ w, b ≠ 0) :
    Sends s c (Reply.bulk w).bytes (addWrite s c (bulkString w)) :=
  sends_addWrite (bulkString_ne_zero hw) rfl

theorem noise (reply : Reply) (h : ∀ w, reply ≠ .bulk w) : ∀ b ∈ reply.bytes, b ≠ 0 := by
  have hall : ∀ m ∈ [resp.ok, resp.pong, resp.err, resp.keyNotFound], ∀ b ∈ m, b ≠ 0 := by
    decide +kernel
  cases reply with
  | ok => exact hall _ (by simp [Reply.bytes])
  | pong => exact hall _ (by simp [Reply.bytes])
  | err => exact hall _ (by simp [Reply.bytes])
  | keyNotFound => exact hall _ (by simp [Reply.bytes])
  | bulk w => exact absurd rfl (h w)

theorem shown_printable (h : Printable v) : robjGetValStr (robjCreateStringObject v) = shown v ∧
    (∀ b ∈ shown v, b ≠ 0) ∧ (bulkString (shown v)).length < 1024 := by
  have hlen : v.length < (bulkString v).length := by
    simp only [bulkString, List.length_append, List.length_cons]
    omega
  refine ⟨robjGetValStr_create h.1 (by have := h.2; omega), ?_⟩
  unfold shown
  split
  · rename_i n hn
    exact ⟨decimalInt_ne_zero n, (length_bulkString_decimalInt (string2l_inLong hn)).trans (by decide)⟩
  · exact h

/-- A short answer fits in the encoder's buffer. -/
theorem bulk_short {w : Bytes} (h : w.length < 100) : (bulkString w).length < 1024 := by
  have hd := length_decimal 1 (n := w.length) (by omega)
  simp only [bulkString, crlf, List.length_append, List.length_cons, List.length_nil]
  omega

/-! ## Handlers -/

/-- The server has as many databases as before. -/
theorem getDb_length {i : Int} (h : s.getDb i = .ok db) (hl : s'.db.length = s.db.length) :
    ∃ db', s'.getDb i = .ok db' := by
  obtain ⟨hi, hdb⟩ := getDb_ok.mp h
  have hlt : i.toNat < s'.db.length := hl ▸ (List.getElem?_eq_some_iff.mp hdb).1
  exact ⟨s'.db[i.toNat], getDb_ok.mpr ⟨hi, List.getElem?_eq_getElem hlt⟩⟩

theorem addWrite_selected (b : Bytes) : ((addWrite s c b).client c).db = (s.client c).db :=
  core_db (addWrite_core s c c b)

section Handlers

variable (query env c)
  (hs : Serves dbnum st s) (hnow : env.now = st.now)
include hs hnow

theorem set_sends (hk : cstr key = key) (v : Bytes) :
    ∃ t, executed query env s c (Query.set key v).entry [bytes "SET", key, v] = .ok t ∧
      Sends s c resp.ok t := by
  refine executed_sends hs hnow rfl rfl hk fun s₁ db hsel hget _ _ _ => ?_
  rw [← hsel] at hget
  refine ⟨afterSet s₁ c db key v, commandSetProc_ok.mpr ⟨key, rfl, .inr ⟨v, db, rfl, hget, rfl⟩⟩,
    sends_addWrite (noise .ok (by simp)) rfl, fun _ => ?_⟩
  have hdb : ((afterSet s₁ c db key v).client c).db = (s₁.client c).db := addWrite_selected _
  rw [hdb]
  exact getDb_length hget (List.length_set ..)

theorem get_sends (hk : cstr key = key) :
    ∃ t, executed query env s c (Query.get key).entry [bytes "GET", key] = .ok t ∧
      Sends s c
        ((st.seen (st.selected c) key).elim resp.keyNotFound fun v => bulkString (shown v)) t := by
  refine executed_sends hs hnow rfl rfl hk fun s₁ db hsel hget _ hseen _ => ?_
  rw [← hsel] at hget
  cases hv : st.seen (st.selected c) key with
  | none =>
    rw [hv] at hseen
    refine ⟨_, commandGetProc_ok.mpr ⟨key, db, rfl, hget, .inl ⟨by rw [hk]; exact hseen, rfl⟩⟩,
      sends_addWrite (noise .keyNotFound (by simp)) rfl, fun h => absurd h Bool.false_ne_true⟩
  | some v =>
    rw [hv] at hseen
    have hprint : Printable v := by
      refine hs.printable (st.selected c) key v ?_
      unfold Store.seen at hv
      split at hv
      · cases hv
      · exact hv
    obtain ⟨hval, hnul, hlen⟩ := shown_printable hprint
    rw [Option.elim_some, ← hval]
    rw [← hval] at hnul hlen
    have hz := cstr_eq_self hnul
    refine ⟨_, commandGetProc_ok.mpr ⟨key, db, rfl, hget, .inr ⟨_, by rw [hk]; exact hseen,
      addWriteBulk_ok.mpr ⟨by rwa [hz], rfl⟩⟩⟩, ?_, fun h => absurd h Bool.false_ne_true⟩
    rw [hz]
    exact sends_bulk _ hnul

theorem del_sends (hk : cstr key = key) :
    ∃ t, executed query env s c (Query.del key).entry [bytes "DEL", key] = .ok t ∧
      Sends s c (if (st.seen (st.selected c) key).isSome then resp.ok else resp.keyNotFound) t := by
  refine executed_sends hs hnow rfl rfl hk fun s₁ db hsel hget _ hseen _ => ?_
  rw [← hsel] at hget
  have hmem : cstr key ∈ db.kv ↔ (st.seen (st.selected c) key).isSome = true := by
    rw [hk, ← Finmap.lookup_isSome, hseen, Option.isSome_map]
  refine ⟨afterDel s₁ c db key, commandDelProc_ok.mpr ⟨key, db, rfl, hget, rfl⟩, ?_, fun _ => ?_⟩
  · unfold afterDel
    simp only [hmem]
    split
    · exact sends_addWrite (noise .ok (by simp)) rfl
    · exact sends_addWrite (noise .keyNotFound (by simp)) rfl
  · have hdb : ((afterDel s₁ c db key).client c).db = (s₁.client c).db := by
      unfold afterDel
      split
      · exact addWrite_selected _
      · exact addWrite_selected _
    rw [hdb]
    refine getDb_length hget ?_
    unfold afterDel
    split
    · exact List.length_set ..
    · exact List.length_set ..

theorem expire_sends (seconds : Bytes) (hk : cstr key = key)
    (hlong : ∀ n ∈ string2long seconds, inLong (n + st.now)) :
    ∃ t, executed query env s c (Query.expire key seconds).entry
        [bytes "EXPIRE", key, seconds] = .ok t ∧
      Sends s c (if (string2long seconds).isSome ∧ st.deadline (st.selected c) key = none then resp.ok
        else resp.err) t := by
  refine executed_sends hs hnow rfl rfl hk fun s₁ db hsel hget hv _ _ => ?_
  rw [← hsel] at hget
  cases hn : string2long seconds with
  | none =>
    refine ⟨_, commandExpireProc_ok.mpr ⟨key, seconds, rfl, rfl, .inl ⟨hn, rfl⟩⟩, ?_, fun _ => ?_⟩
    · rw [if_neg (by simp)]
      exact sends_addWrite (noise .err (by simp)) rfl
    · rw [addWrite_selected]
      exact ⟨db, hget⟩
  | some n =>
    have hin : inLong (n + env.now) := hnow ▸ hlong n hn
    refine ⟨afterExpire s₁ c db key (n + env.now), commandExpireProc_ok.mpr ⟨key, seconds, rfl, rfl,
      .inr ⟨n, db, hn, hin, hget, rfl⟩⟩, ?_, fun _ => ?_⟩
    · have hmem : cstr key ∈ db.expires ↔ ¬ st.deadline (st.selected c) key = none := by
        rw [hk, ← Finmap.lookup_isSome, hv.deadline, Option.isSome_iff_ne_none]
      unfold afterExpire
      simp only [hmem, Option.isSome_some, true_and, ite_not]
      split
      · exact sends_addWrite (noise .ok (by simp)) rfl
      · exact sends_addWrite (noise .err (by simp)) rfl
    · have hdb : ((afterExpire s₁ c db key (n + env.now)).client c).db = (s₁.client c).db := by
        unfold afterExpire
        split
        · exact addWrite_selected _
        · exact addWrite_selected _
      rw [hdb]
      refine getDb_length hget ?_
      unfold afterExpire
      split
      · exact List.length_set ..
      · exact List.length_set ..

theorem ttl_sends (hk : cstr key = key)
    (hlong : (st.deadline 0 key).isSome = true →
      inLong ((st.deadline (st.selected c) key).getD 0 - st.now)) :
    ∃ t, executed query env s c (Query.ttl key).entry [bytes "TTL", key] = .ok t ∧
      Sends s c (if (st.deadline 0 key).isSome then bulkString (bytes "ttl:" ++
        decimalInt ((st.deadline (st.selected c) key).getD 0 - st.now) ++ bytes "s")
        else resp.keyNotFound) t := by
  refine executed_sends hs hnow rfl rfl hk fun s₁ db hsel hget hv _ hzero => ?_
  rw [← hsel] at hget
  obtain ⟨db0, hget0, hdeadline⟩ := hzero
  have hmem : cstr key ∈ db0.expires ↔ (st.deadline 0 key).isSome = true := by
    rw [hk, ← Finmap.lookup_isSome, hdeadline]
  have httl : dbGetTTL db (cstr key) env.now = (st.deadline (st.selected c) key).getD 0 - st.now := by
    rw [dbGetTTL, hk, mapFetchValue, hv.deadline, hnow]
    rfl
  by_cases hin : (st.deadline 0 key).isSome = true
  · have hlong := hlong hin
    have hnul : ∀ b ∈ bytes "ttl:" ++ decimalInt ((st.deadline (st.selected c) key).getD 0 - st.now) ++
        bytes "s", b ≠ 0 := by
      have htext : (∀ b ∈ bytes "ttl:", b ≠ 0) ∧ ∀ b ∈ bytes "s", b ≠ 0 := by decide +kernel
      intro b hb
      rcases List.mem_append.mp hb with hb | hb
      · rcases List.mem_append.mp hb with hb | hb
        · exact htext.1 b hb
        · exact decimalInt_ne_zero _ b hb
      · exact htext.2 b hb
    have hz := cstr_eq_self hnul
    refine ⟨_, commandTtlProc_ok.mpr ⟨key, db0, rfl, hget0, .inr ⟨db, hmem.mpr hin, hget, by rwa [httl],
      addWriteBulk_ok.mpr ⟨?_, rfl⟩⟩⟩, ?_, fun h => absurd h Bool.false_ne_true⟩
    · rw [httl, hz]
      have htext : (bytes "ttl:").length = 4 ∧ (bytes "s").length = 1 := by decide
      have hdigits := length_decimalInt hlong
      refine bulk_short ?_
      rw [List.length_append, List.length_append, htext.1, htext.2]
      omega
    · rw [httl, hz, if_pos hin]
      exact sends_bulk _ hnul
  · refine ⟨_, commandTtlProc_ok.mpr ⟨key, db0, rfl, hget0, .inl ⟨mt hmem.mp hin, rfl⟩⟩, ?_,
      fun h => absurd h Bool.false_ne_true⟩
    rw [if_neg hin]
    exact sends_addWrite (noise .keyNotFound (by simp)) rfl

end Handlers

variable (query env s c) in
theorem select_sends (index : Bytes) (hdbnum : dbnum ≤ 2 ^ 31)
    (hin : ∀ n ∈ string2long index, 0 ≤ n ∧ n < dbnum) :
    ∃ t, executed query env s c (Query.select index).entry [bytes "SELECT", index] = .ok t ∧
      Sends s c
        ((string2long index).elim resp.err fun n => bulkString (bytes "OK, db is " ++ decimalInt n))
        t := by
  refine executed_plain rfl rfl ?_
  cases hn : string2long index with
  | none => exact ⟨_, commandSelectProc_ok.mpr ⟨index, rfl, .inl ⟨hn, rfl⟩⟩,
      sends_addWrite (noise .err (by simp)) rfl⟩
  | some n =>
    obtain ⟨h0, hlt⟩ := hin n hn
    have hint : toInt32 n = n := toInt32_eq_self (by omega) (by omega)
    have hnul : ∀ b ∈ bytes "OK, db is " ++ decimalInt n, b ≠ 0 := by
      have htext : ∀ b ∈ bytes "OK, db is ", b ≠ 0 := by decide +kernel
      exact fun b hb => (List.mem_append.mp hb).elim (htext b) (decimalInt_ne_zero n b)
    have hlen : (bulkString (bytes "OK, db is " ++ decimalInt n)).length < 1024 := by
      have htext : (bytes "OK, db is ").length = 10 := by decide
      have hdigits := length_decimalInt (z := n) ⟨by rw [LONG_MIN]; omega, by rw [LONG_MAX]; omega⟩
      refine bulk_short ?_
      rw [List.length_append, htext]
      omega
    refine ⟨_, commandSelectProc_ok.mpr ⟨index, rfl, .inr ⟨n, hn, addWriteBulk_ok.mpr ⟨?_, rfl⟩⟩⟩, ?_⟩
    · rwa [hint, cstr_eq_self hnul]
    · rw [hint, cstr_eq_self hnul]
      refine (sends_bulk _ hnul).congr (fun x => ?_) fun _ => rfl
      rw [modifyClient_client]
      split <;> rfl

theorem ping_sends : ∃ t, executed query env s c Query.ping.entry [bytes "PING"] = .ok t ∧
    Sends s c resp.pong t := by
  refine executed_plain rfl rfl ⟨_, rfl, ?_⟩
  refine (sends_addWrite (noise .pong (by simp)) rfl).congr (fun x => ?_) fun _ => rfl
  rw [modifyClient_client]
  split <;> rfl

/-! ## Requests -/

variable {rep : Reply}

variable (query env) in
theorem answer_sends (hs : Serves dbnum st s) (hnow : env.now = st.now) (hdbnum : dbnum ≤ 2 ^ 31)
    (hnul : ∀ arg ∈ q.argv, ∀ b ∈ arg, b ≠ 0)
    (h : st.answer string2long shown dbnum c q = some (rep, st')) :
    ∃ t, executed query env s c q.entry q.argv = .ok t ∧ Sends s c rep.bytes t := by
  have hkey : ∀ key ∈ q.argv, cstr key = key := fun key hk => cstr_eq_self (hnul key hk)
  cases q with
  | set key value =>
    cases h
    exact set_sends query env c hs hnow (hkey key (by simp [Query.argv])) value
  | get key =>
    have hsends := get_sends query env c hs hnow (hkey key (by simp [Query.argv]))
    unfold Store.answer at h
    dsimp only at h
    cases hv : st.seen (st.selected c) key with
    | none =>
      rw [hv] at h hsends
      cases h
      exact hsends
    | some v =>
      rw [hv] at h hsends
      cases h
      exact hsends
  | del key =>
    have hsends := del_sends query env c hs hnow (hkey key (by simp [Query.argv]))
    unfold Store.answer at h
    dsimp only at h
    split at h
    · rename_i hv
      cases h
      rwa [if_pos hv] at hsends
    · rename_i hv
      cases h
      rwa [if_neg hv] at hsends
  | expire key seconds =>
    unfold Store.answer at h
    dsimp only at h
    have hsends := fun hlong => expire_sends query env c hs hnow seconds
      (hkey key (by simp [Query.argv])) hlong
    cases hn : string2long seconds with
    | none =>
      rw [hn] at h hsends
      cases h
      exact hsends fun n hn => by cases hn
    | some n =>
      rw [hn] at h hsends
      dsimp only at h
      split at h
      · cases h
      · rename_i hin
        have hsends := hsends fun n' hn' => by
          cases hn'
          exact not_not.mp hin
        split at h
        · rename_i hd
          cases h
          rwa [if_neg fun e => by rw [e.2] at hd; cases hd] at hsends
        · rename_i hd
          cases h
          rwa [if_pos ⟨rfl, Option.not_isSome_iff_eq_none.mp hd⟩] at hsends
  | ttl key =>
    unfold Store.answer at h
    dsimp only at h
    have hsends := fun hlong => ttl_sends query env c hs hnow
      (hkey key (by simp [Query.argv])) hlong
    split at h
    · rename_i hd
      split at h
      · rename_i hin
        cases h
        have hsends := hsends fun _ => hin
        rwa [if_pos hd] at hsends
      · cases h
    · rename_i hd
      cases h
      have hsends := hsends fun e => absurd e hd
      rwa [if_neg hd] at hsends
  | select index =>
    unfold Store.answer at h
    dsimp only at h
    have hsends := fun hin => select_sends query env s c index hdbnum hin
    cases hn : string2long index with
    | none =>
      rw [hn] at h hsends
      cases h
      exact hsends fun n hn => by cases hn
    | some n =>
      rw [hn] at h hsends
      dsimp only at h
      split at h
      · rename_i hin
        cases h
        exact hsends fun n' hn' => by
          cases hn'
          exact hin
      · cases h
  | ping =>
    cases h
    exact ping_sends

end Fedis.Proof.Server
