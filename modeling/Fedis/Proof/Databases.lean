import Fedis.Proof.Rdb.Indexes
import Fedis.Proof.Server.Reads
import Fedis.Proof.Server.SetGet

/-!
# The databases that are selected

Two numbers from outside become an index into `server->db`: the argument of
SELECT, which is not compared with anything, and the operand of `RDB_SELECTDB`
(`Rdb.Indexes`). `selected_ok` says which requests and which files are handled as
if every index were checked.
-/

namespace Fedis.Proof.Databases

open Framework Server Relation

/-- There is a database of this number. -/
def Exists (dbnum : Nat) (i : Int) : Prop := 0 ≤ i ∧ i < dbnum

instance (dbnum : Nat) (i : Int) : Decidable (Exists dbnum i) := instDecidableAnd

/-! ## SELECT -/

section Select

variable {env : Env} {s s' t : RedisServer} {c x : ClientId} {argv : List Bytes} {arg : Bytes}
  {dbnum : Nat}

/-- The argument is no number, or that of a database. -/
def Names (dbnum : Nat) (arg : Bytes) : Prop := ∀ i ∈ string2long arg, Exists dbnum i

instance (dbnum : Nat) (arg : Bytes) : Decidable (Names dbnum arg) :=
  inferInstanceAs (Decidable (∀ i ∈ string2long arg, _))

/-- SELECT selects a database that exists, and refuses every other argument. -/
def SelectOk (s : RedisServer) (c : ClientId) (argv : List Bytes) (arg : Bytes) : Prop :=
  ∃ s', commandSelectProc s c argv = .ok s' ∧ s'.db = s.db ∧
    ((string2long arg = some (s'.client c).db ∧ Exists s.db.length (s'.client c).db) ∨
      s' = addWrite s c resp.err)

theorem addWriteBulk_select (s : RedisServer) (c : ClientId) (i : Int) :
    ∃ str, addWriteBulk s c (bytes "OK, db is " ++ decimalInt (toInt32 i)) =
      .ok (addWrite s c (bulkString str)) := by
  have hl : inLong (toInt32 i) := by
    have h₁ := Int.le_bmod (x := i) (m := 2 ^ 32) (by decide)
    have h₂ := Int.bmod_lt (x := i) (m := 2 ^ 32) (by decide)
    rw [inLong, LONG_MIN, LONG_MAX, toInt32]
    omega
  have hstr := Value.length_decimalInt hl
  have hcut := (List.takeWhile_prefix (· != 0)
    (l := bytes "OK, db is " ++ decimalInt (toInt32 i))).length_le
  have hd := Value.length_decimal 1 (n := (cstr (bytes "OK, db is " ++ decimalInt (toInt32 i))).length)
  have hb : (bytes "OK, db is ").length = 10 := by decide
  rw [List.length_append, hb] at hcut
  refine ⟨_, addWriteBulk_ok.mpr ⟨?_, rfl⟩⟩
  have := hd (Nat.lt_of_le_of_lt hcut (by omega))
  simp only [bulkString, crlf, List.length_append, List.length_cons, List.length_nil]
  have : (cstr (bytes "OK, db is " ++ decimalInt (toInt32 i))).length ≤ 30 := by
    refine hcut.trans ?_
    omega
  omega

/-- The answer to a SELECT is not an error. -/
theorem reply_ne {s t : RedisServer} {str : Bytes} (h : (t.client c).writeBuf = (s.client c).writeBuf) :
    addWrite t c (bulkString str) ≠ addWrite s c resp.err := by
  intro e
  have e := congrArg (fun s : RedisServer => (s.client c).writeBuf.content) e
  simp only [addWrite, modifyClient_self, content_sdscat, h] at e
  have e := congrArg List.head? (List.append_cancel_left e)
  have hb : (cstr (bulkString str)).head? = some 36 := by simp [bulkString, cstr]
  have he : (cstr resp.err).head? = some 45 := by decide
  rw [hb, he] at e
  exact absurd e (by decide)

theorem selectOk_iff (h : argv[1]? = some arg) : SelectOk s c argv arg ↔ Names s.db.length arg := by
  constructor
  · rintro ⟨s', hs, -, hr⟩ i hi
    obtain ⟨arg', h', ⟨hn, rfl⟩ | ⟨dbid, hn, hw⟩⟩ := commandSelectProc_ok.mp hs
    · rw [h] at h'
      cases h'
      rw [hn] at hi
      cases hi
    · rw [h] at h'
      cases h'
      rw [Option.mem_def.mp hi] at hn
      cases hn
      obtain ⟨-, rfl⟩ := addWriteBulk_ok.mp hw
      rcases hr with ⟨-, hr⟩ | hr
      · rw [core_db (addWrite_core ..), modifyClient_self] at hr
        exact hr
      · exact absurd hr (reply_ne (by rw [modifyClient_self]))
  · intro hn
    cases hi : string2long arg with
    | none =>
      exact ⟨_, commandSelectProc_ok.mpr ⟨arg, h, .inl ⟨hi, rfl⟩⟩, rfl, .inr rfl⟩
    | some i =>
      obtain ⟨str, hw⟩ := addWriteBulk_select (s.modifyClient c fun client => { client with db := i }) c i
      refine ⟨_, commandSelectProc_ok.mpr ⟨arg, h, .inr ⟨i, hi, hw⟩⟩, rfl, .inl ?_⟩
      rw [core_db (addWrite_core ..), modifyClient_self]
      exact ⟨hi, hn i hi⟩

/-- The client's database is the first one or one of the server's. -/
def Indexed (dbnum : Nat) (s : RedisServer) : Prop :=
  ∀ x, (s.client x).db = 0 ∨ Exists dbnum (s.client x).db

/-- A SELECT that names a database that exists, or another command. -/
def Named (dbnum : Nat) (call : Call) : Prop :=
  call.proc = some .select → ∀ arg ∈ call.argv[1]?, Names dbnum arg

theorem connectMaster_index (env : Env) (s : RedisServer) (x : ClientId) :
    ((connectMaster env s).client x).db = (s.client x).db ∨
      ((connectMaster env s).client x).db = 0 :=
  connectMaster_field (·.db) (fun _ _ => rfl) env s x

/-- A handler leaves a client its database, or gives it the first one, or the one
that SELECT names. -/
theorem executed_index {query : RedisServer → ClientId → Except Fault RedisServer}
    {cmd : RedisCommand} (hc : cmd ∈ commandsTable) (hp : cmd.proc ≠ .exec)
    (h : executed query env s c cmd argv = .ok t) (x : ClientId) :
    (t.client x).db = (s.client x).db ∨ (t.client x).db = 0 ∨
      cmd.proc = .select ∧ argv[1]?.bind string2long = some (t.client x).db := by
  cases hw : cmd.write with
  | true =>
    left
    rw [core_db (executed_core_write hc hw h x)]
    split <;> rfl
  | false =>
    by_cases hs : cmd.proc = .slaveof
    · rw [executed_handler (bare_entry cmd hc (.inr (.inr hs))).1 hw, hs] at h
      obtain ⟨arg, ip, port, rest, -, -, -, rfl⟩ := commandSlaveofProc_ok.mp h
      rcases connectMaster_index env _ x with e | e
      · exact .inl (e.trans (core_db (addWrite_core ..)))
      · exact .inr (.inl e)
    · rw [core_db (executed_core_read hw hp h fun e => absurd e hs)]
      split
      · rename_i hx
        subst hx
        unfold clientEffect
        split
        · exact .inl rfl
        · exact .inl rfl
        · split
          · exact .inl rfl
          · rename_i hp _ dbid hn
            exact .inr (.inr ⟨hp, hn⟩)
        · exact .inl rfl
      · exact .inl rfl

theorem small_index (h : Small env c s s') :
    Grows (Named dbnum) (fun s s' => Indexed dbnum s → Indexed dbnum s') s s' := by
  cases h with
  | client s f hf =>
    refine ⟨[], by simp, fun _ hi x => ?_⟩
    rw [modifyClient_field s c f (·.db) (fun client => (hf client).1)]
    exact hi x
  | exec s argv h => exact ⟨[callOf s c argv], rfl, fun _ hi => hi⟩
  | command query s s' argv hne h =>
    refine ⟨[callOf s c argv], processCommand_calls hne h, fun hn hi x => ?_⟩
    have hn := hn _ List.mem_cons_self
    obtain ⟨-, ⟨hf, rfl⟩ | ⟨cmd, t, hf, ht, rfl⟩⟩ := processCommand_ok.mp h
    · rw [core_db clearReadBuf_core, core_db (addWrite_core ..)]
      exact hi x
    · rw [core_db replied_core]
      rcases executed_index (mem_table hf) (hne cmd hf) ht x with e | e | ⟨hp, e⟩
      · exact e ▸ hi x
      · exact .inl e
      · obtain ⟨arg, ha, e⟩ := Option.bind_eq_some_iff.mp e
        exact .inr (hn (by simp [callOf, hf, hp]) arg ha _ e)

/-- A run of reads, each SELECT of which names a database that exists. -/
theorem run_index {reads : List Read} {us : List Unit} (h : run serve s reads = some (us, s'))
    (hi : (∀ call ∈ s.calls, Named dbnum call) → Indexed dbnum s) :
    (∀ call ∈ s'.calls, Named dbnum call) → Indexed dbnum s' := by
  refine run_keeps (I := fun s => (∀ call ∈ s.calls, Named dbnum call) → Indexed dbnum s)
    (fun s r u s' hi h hn => ?_) hi h
  obtain ⟨new, e, hr⟩ := read_grows (fun _ h => h) (fun h₁ h₂ h => h₂ (h₁ h)) small_index (serve_ok.mp h)
  rw [e] at hn
  exact hr (fun call hm => hn call (List.mem_append_right _ hm))
    (hi fun call hm => hn call (List.mem_append_left _ hm))

end Select

/-- **Every selected database exists while requests and files name no other.**
SELECT is right iff its argument names a database that exists, or none; in a run
whose every SELECT is so, every client's database exists. The load of a file is
right, whatever is unset, iff the file is in order: its operands name databases that
exist, up to one that is larger than their number, and one comes before the first
record and before the end of a file that is cut. -/
theorem selected_ok (id : Int) (flags : ServerFlags) (dbnum : Nat) (aofOn : Bool) (reads : List Read)
    (db : List RedisDb) (file : Bytes) :
    (∀ s c argv arg, argv[1]? = some arg → (SelectOk s c argv arg ↔ Names s.db.length arg)) ∧
    (∀ us s', run serve (initServer id flags dbnum aofOn) reads = some (us, s') →
      (∀ call ∈ s'.calls, Named dbnum call) → Indexed dbnum s') ∧
    (Rdb.LoadOk db file ↔ Rdb.FileOrdered db.length file) :=
  ⟨fun _ _ _ _ h => selectOk_iff h, fun _ _ h => run_index h fun _ _ => .inl rfl,
    Rdb.loadOk_iff db file⟩

/-- SELECT of the last database of sixteen. -/
theorem selected_ok_last :
    SelectOk (initServer 1 ⟨true, false, false⟩ 16 false) 7 [bytes "SELECT", bytes "15"] (bytes "15") ∧
    ∃ us s', run serve (initServer 1 ⟨true, false, false⟩ 16 false)
        [sampleRead 7 [bytes "SELECT", bytes "15"]] = some (us, s') ∧ Indexed 16 s' := by
  obtain ⟨hselect, hindex, -⟩ := selected_ok 1 ⟨true, false, false⟩ 16 false
    [sampleRead 7 [bytes "SELECT", bytes "15"]] [] []
  refine ⟨(hselect _ _ _ _ rfl).mpr (by decide), ?_⟩
  have hrun : (run serve (initServer 1 ⟨true, false, false⟩ 16 false)
      [sampleRead 7 [bytes "SELECT", bytes "15"]]).map (fun r => r.2.calls) =
        some [⟨7, [bytes "SELECT", bytes "15"], 0, some .select⟩] := by decide
  obtain ⟨⟨us, s'⟩, h, hc⟩ := Option.map_eq_some_iff.mp hrun
  refine ⟨us, s', h, hindex _ _ h ?_⟩
  rw [hc]
  refine List.forall_mem_singleton.mpr fun _ arg ha => ?_
  cases ha
  decide

/-- SELECT of -1 is answered with a number and selects it, and the next GET reads
before the first database. A file with the operand 1 is not refused by a server
with one database, and its record goes behind it; so does the record of a file that
is cut before its value, when `dbid` holds 255. -/
theorem select_outside :
    ((run serve (initServer 1 ⟨true, false, false⟩ 16 false)
      [sampleRead 7 [bytes "SELECT", bytes "-1"]]).map fun r => (r.2.client 7).db) = some (-1) ∧
    (run serve (initServer 1 ⟨true, false, false⟩ 16 false)
      [sampleRead 7 [bytes "SELECT", bytes "-1"],
        sampleRead 7 [bytes "GET", bytes "k"]]).isNone ∧
    (∃ l, rdbLoadTurnWith Rdb.endless RDB_SELECTDB
      { db := [dbInit], dbid := some 0, expire := 0, fp := { data := [1, 0, 1, 107, 1, 118], pos := 0 } } =
        .ok l ∧ l.dbid = some 1) ∧
    (rdbLoadWith (fun _ => 0) 0 (fun _ => Rdb.endless) [dbInit]
      (rdbMagic ++ [RDB_SELECTDB, 1, 0, 1, 107, 1, 118, RDB_EOF]) 2).map (·.map fun l => l.dbid) =
        some (.error .undefined) ∧
    (rdbLoadWith (fun _ => 0) 255 (fun _ => Rdb.endless) [dbInit] (rdbMagic ++ [0, 1, 107]) 1).map
      (·.map fun l => l.dbid) = some (.error .undefined) ∧
    ¬ Rdb.FileOrdered 1 (rdbMagic ++ [0, 1, 107]) := by
  refine ⟨by decide, by decide, ⟨_, rfl, by decide⟩, by decide, by decide, fun h => ?_⟩
  have := h (by decide) 255
  revert this
  decide

end Fedis.Proof.Databases
