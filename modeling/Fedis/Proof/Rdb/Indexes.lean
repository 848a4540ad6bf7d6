import Fedis.Proof.Rdb.Load

/-!
# The databases that a file selects

The operand of `RDB_SELECTDB` may be the number of databases, and a record before the first
operand goes to a database of no number: `dbid` is not set then, nor does the end of the file
set it, behind which the loop goes on.

* `load_position`: where a value ends does not depend on what is unset;
* `loop_indexed`, `ordered_of_loop`: the turns of the loop use indexes that exist iff the file is read so
  (`ordered`);
* `load_ok_iff`: the same of `rdbLoad`.
-/

namespace Fedis.Proof.Rdb

open Framework Server

variable {a t : Bytes} {l : RdbLoader} {type : UInt8} {u : Unset} {unset : Nat → Unset}
  {dbnum id n i : Nat} {fp : File}

/-! ## Turns that use an index -/

/-- A turn of the loop, behind its type: an operand that is no index ends the load, and a record
goes to a database that exists. -/
def TurnOk (u : Unset) (type : UInt8) (l : RdbLoader) : Prop :=
  if type = RDB_SELECTDB then
    ∀ dbid ∈ (fread l.fp 1).1.head?, l.db.length ≤ dbid.toNat →
      rdbLoadTurnWith u type l = .error .abort
  else if type = RDB_EXPIRETIME then True
  else
    ∀ key val, rdbLoadKey l.fp = .ok key → (unsetCodec u).load type key.2 = .ok val →
      ∃ dbid, l.dbid = some dbid ∧ dbid < l.db.length

/-- The first turns of the loop are so. -/
def LoopOk (unset : Nat → Unset) : Nat → Nat → RdbLoader → Prop
  | 0, _, _ => True
  | n + 1, i, l =>
    let r := fread l.fp 1
    let type := r.1.headD (unset i).type
    type ≠ RDB_EOF → TurnOk (unset i) type { l with fp := r.2 } ∧
      ∀ l', rdbLoadTurnWith (unset i) type { l with fp := r.2 } = .ok l' → LoopOk unset n (i + 1) l'

/-- Every turn of `rdbLoad` is so, whatever is unset. -/
def LoadOk (db : List RedisDb) (file : Bytes) : Prop :=
  ∀ (buf : Nat → UInt8) (dbid : UInt8) (unset : Nat → Unset) (n : Nat),
    (freadInto buf { data := file, pos := 0 } 9).1 = rdbMagic →
      LoopOk unset n 0 { db := db, dbid := some dbid.toNat, expire := 0,
                         fp := (freadInto buf { data := file, pos := 0 } 9).2 }

/-- What a turn is to be, behind its type, for the index `id`: `rest` is asked of the index and
the file that it leaves. A key or a value that is too long is undefined before it is added. -/
def Goes (dbnum : Nat) (type : UInt8) (id : Nat) (fp : File) (rest : Nat → File → Bool) : Bool :=
  if type = RDB_SELECTDB then
    let r := fread fp 1
    match r.1.head? with
    | none => dbnum < id || rest id r.2
    | some dbid => dbnum < dbid.toNat || dbid.toNat != dbnum && rest dbid.toNat r.2
  else if type = RDB_EXPIRETIME then rest id (fread fp 8).2
  else
    match rdbLoadKey fp with
    | .error _ => true
    | .ok key =>
      match (unsetCodec endless).load type key.2 with
      | .error _ => true
      | .ok val => id < dbnum && rest id val.2

/-- Up to `RDB_EOF`, or to an operand that is larger than the number of databases, no operand is
that number, and the index at a record, and at the end of a file that is cut, is smaller. -/
def ordered (dbnum : Nat) : Nat → Nat → File → Bool
  | 0, _, _ => true
  | n + 1, id, fp =>
    let r := fread fp 1
    match r.1.head? with
    | none => id < dbnum
    | some type => type == RDB_EOF || Goes dbnum type id r.2 (ordered dbnum n)

/-! ## Where a value ends -/

theorem rdbLoadLen_last (a : Bytes) (b : UInt8) :
    ∃ k < 64, rdbLoadLen (fileAt a [b]) = (k, fileAt (a ++ [b]) []) := by
  rw [rdbLoadLen, fread_one]
  by_cases h : b &&& 0xC0 = 0
  · refine ⟨(b &&& 0x3F).toNat, ?_, by simp only [if_pos h]⟩
    rw [UInt8.toNat_and]
    exact Nat.lt_succ_of_le Nat.and_le_right
  by_cases h' : b &&& 0xC0 = 0x80
  · refine ⟨0, by decide, ?_⟩
    simp only [if_neg h, if_pos h', fread_end]
  refine ⟨0, by decide, ?_⟩
  simp only [if_neg h, if_neg h', fread_end]
  split
  · simp
  · rfl

/-- At the end of the file a value is read without moving on. -/
theorem value_last (u : Unset) (a : Bytes) :
    ∃ v, rdbLoadStringObjectWith u (fileAt a []) = .ok (v, fileAt a []) := by
  by_cases hc : u.code ∈ [RDB_ENC_INT8, RDB_ENC_INT16, RDB_ENC_INT32]
  · obtain ⟨n, hn⟩ := marker_size hc
    obtain ⟨v, hv⟩ := value_int hn u (fileAt a []) (by rw [fread_end]; rfl)
    exact ⟨v, by rw [hv, fread_end, fread_end]⟩
  have hlen : ∃ k < 64, rdbLoadLen (fseekBack (fileAt a [])) = (k, fileAt a []) := by
    rcases List.eq_nil_or_concat a with rfl | ⟨a, b, rfl⟩
    · exact ⟨0, by decide, by decide⟩
    · rw [List.concat_eq_append, fseekBack_fileAt]
      exact rdbLoadLen_last a b
  obtain ⟨k, hk, hlen⟩ := hlen
  simp only [List.mem_cons, List.not_mem_nil, or_false, not_or] at hc
  rw [rdbLoadStringObjectWith, fread_end]
  dsimp only
  rw [List.headD_nil, if_neg hc.1, if_neg hc.2.1, if_neg hc.2.2, hlen]
  dsimp only
  rw [if_neg (by omega), freadInto, fread_end]
  exact ⟨_, rfl⟩

/-- `fread` leaves the file at a position that is no earlier. -/
theorem fread_at (a t : Bytes) (n : Nat) :
    ∃ a' t', (fread (fileAt a t) n).2 = fileAt a' t' ∧ t'.length ≤ t.length := by
  obtain ⟨bs, t', -, rfl, e⟩ | ⟨-, e⟩ := fread_cases a t n
  · exact ⟨_, t', by rw [e], by rw [List.length_append]; omega⟩
  · exact ⟨_, [], by rw [e], Nat.zero_le _⟩

theorem rdbLoadLen_at (a t : Bytes) :
    ∃ a' t', (rdbLoadLen (fileAt a t)).2 = fileAt a' t' ∧ t'.length ≤ t.length := by
  obtain ⟨n, bs, t', hl, rfl⟩ | e := rdbLoadLen_cases a t
  · exact ⟨_, t', by rw [rdbLoadLen_whole hl], by rw [List.length_append]; omega⟩
  · exact ⟨_, [], by rw [e], Nat.zero_le _⟩

/-- Whatever is unset, a value is undefined, or ends at one place. -/
theorem value_position (a t : Bytes) :
    (∀ u, rdbLoadStringObjectWith u (fileAt a t) = .error .undefined) ∨
      ∃ a' t', t'.length ≤ t.length ∧
        ∀ u, ∃ v, rdbLoadStringObjectWith u (fileAt a t) = .ok (v, fileAt a' t') := by
  cases t with
  | nil => exact .inr ⟨a, [], Nat.le_refl _, fun u => value_last u a⟩
  | cons b t =>
    by_cases hc : b ∈ [RDB_ENC_INT8, RDB_ENC_INT16, RDB_ENC_INT32]
    · obtain ⟨n, hn⟩ := marker_size hc
      obtain ⟨a', t', e, hle⟩ := fread_at (a ++ [b]) t n
      refine .inr ⟨a', t', by rw [List.length_cons]; omega, fun u => ?_⟩
      obtain ⟨v, hv⟩ := value_int hn u (fileAt a (b :: t)) (by rw [fread_one]; rfl)
      exact ⟨v, by rw [hv, fread_one, e]⟩
    · obtain ⟨a₁, t₁, e₁, h₁⟩ := rdbLoadLen_at a (b :: t)
      by_cases hlong : (rdbLoadLen (fileAt a (b :: t))).1 + 1 = 2 ^ 32
      · exact .inl fun u => by rw [value_string hc]; exact if_pos hlong
      · obtain ⟨a', t', e, hle⟩ := fread_at a₁ t₁ (rdbLoadLen (fileAt a (b :: t))).1
        refine .inr ⟨a', t', by omega, fun u => ?_⟩
        rw [value_string hc]
        dsimp only
        rw [if_neg hlong, e₁, e]
        exact ⟨_, rfl⟩

theorem load_position (type : UInt8) (a t : Bytes) :
    (∀ u, (unsetCodec u).load type (fileAt a t) = .error .undefined) ∨
      ∃ a' t', t'.length ≤ t.length ∧
        ∀ u, ∃ v, (unsetCodec u).load type (fileAt a t) = .ok (v, fileAt a' t') := by
  dsimp only [unsetCodec]
  split
  · exact value_position a t
  · exact .inr ⟨a, t, Nat.le_refl _, fun u => ⟨_, rfl⟩⟩

theorem key_position (a t : Bytes) : rdbLoadKey (fileAt a t) = .error .undefined ∨
    ∃ key a' t', rdbLoadKey (fileAt a t) = .ok (key, fileAt a' t') ∧ t'.length ≤ t.length := by
  obtain ⟨bs, t', hkey, rfl⟩ | e | ⟨key, e⟩ := rdbLoadKey_cases a t
  · obtain ⟨key, e⟩ := rdbLoadKey_whole hkey a t'
    exact .inr ⟨key, _, t', e, by rw [List.length_append]; omega⟩
  · exact .inl e
  · exact .inr ⟨key, _, [], e, Nat.zero_le _⟩

/-! ## The turns -/

/-- The state that a turn leaves, as far as the next one depends on it. -/
def Leaves (rest : Nat → File → Bool) (l l' : RdbLoader) : Prop :=
  ∃ a t id, l'.fp = fileAt a t ∧ l'.dbid = some id ∧ l'.db.length = l.db.length ∧
    rest id l'.fp = true

section Turn

variable {rest : Nat → File → Bool} (hfp : l.fp = fileAt a t) (hid : l.dbid = some id)
include hfp hid

theorem select_iff (u : Unset) :
    (TurnOk u RDB_SELECTDB l ∧ ∀ l', rdbLoadTurnWith u RDB_SELECTDB l = .ok l' → Leaves rest l l') ↔
      Goes l.db.length RDB_SELECTDB id l.fp rest = true := by
  rw [TurnOk, Goes, if_pos rfl, if_pos rfl, rdbLoadTurnWith, if_pos rfl, hid, hfp]
  cases t with
  | nil =>
    rw [fread_end]
    dsimp only
    rw [List.head?_nil, Option.map_none, Option.none_or, Option.getD_some]
    by_cases hlt : l.db.length < id
    · simp [hlt]
    · simp only [Bool.or_eq_true, decide_eq_true_eq, hlt, false_or]
      refine ⟨fun h => ?_, fun h => ⟨fun a ha => absurd ha (by simp), fun l' e => ?_⟩⟩
      · obtain ⟨a', t', id', -, hid', -, hr⟩ := h.2 _ rfl
        cases hid'
        exact hr
      · cases e
        exact ⟨a, [], id, rfl, rfl, rfl, h⟩
  | cons b t =>
    rw [fread_one]
    dsimp only
    rw [List.head?_cons, Option.map_some, Option.some_or, Option.getD_some]
    simp only [Option.mem_def, Option.some.injEq, forall_eq', Bool.or_eq_true, Bool.and_eq_true,
      decide_eq_true_eq, bne_iff_ne]
    by_cases hlt : l.db.length < b.toNat
    · simp [hlt]
    · rw [if_neg hlt]
      refine ⟨fun h => .inr ⟨fun e => ?_, ?_⟩, fun h => ?_⟩
      · cases h.1 (Nat.le_of_eq e.symm)
      · obtain ⟨a', t', id', -, hid', -, hr⟩ := h.2 _ rfl
        cases hid'
        exact hr
      · obtain ⟨hne, hr⟩ := h.resolve_left hlt
        refine ⟨fun hle => absurd hle (by omega), fun l' e => ?_⟩
        cases e
        exact ⟨_, t, _, rfl, rfl, rfl, hr⟩

theorem expire_iff (u : Unset) :
    (TurnOk u RDB_EXPIRETIME l ∧
      ∀ l', rdbLoadTurnWith u RDB_EXPIRETIME l = .ok l' → Leaves rest l l') ↔
        Goes l.db.length RDB_EXPIRETIME id l.fp rest = true := by
  rw [TurnOk, Goes, if_neg (by decide), if_pos rfl, if_neg (by decide), if_pos rfl, rdbLoadTurnWith,
    if_neg (by decide), if_pos rfl, true_and]
  obtain ⟨a', t', e, -⟩ := hfp ▸ fread_at a t 8
  refine ⟨fun h => ?_, fun h l' e' => ?_⟩
  · obtain ⟨_, _, id', -, hid', -, hr⟩ := h _ rfl
    rw [hid, Option.some.injEq] at hid'
    rw [hid']
    exact hr
  · cases e'
    exact ⟨a', t', id, e, hid, rfl, h⟩

theorem record_iff (u : Unset) (hs : type ≠ RDB_SELECTDB) (he : type ≠ RDB_EXPIRETIME)
    (hne : type ≠ RDB_EOF) :
    (TurnOk u type l ∧ ∀ l', rdbLoadTurnWith u type l = .ok l' → Leaves rest l l') ↔
      Goes l.db.length type id l.fp rest = true := by
  have ht : type ∉ [RDB_EOF, RDB_SELECTDB, RDB_EXPIRETIME] := by simp [hs, he, hne]
  have hturn : ∀ e, rdbLoadRecord (unsetCodec u) type l = .error e →
      rdbLoadTurnWith u type l = .error e := fun e h => by
    rw [rdbLoadTurnWith, if_neg hs, if_neg he, h]
  rw [TurnOk, Goes, if_neg hs, if_neg he, if_neg hs, if_neg he]
  have hkey := key_position a t
  rw [← hfp] at hkey
  obtain hk | ⟨key, a₁, t₁, hk, -⟩ := hkey
  · rw [hk]
    refine iff_of_true ⟨fun _ _ h => (by cases h), fun l' e => ?_⟩ rfl
    rw [hturn .undefined (by rw [rdbLoadRecord, hk, error_bind])] at e
    cases e
  obtain hv | ⟨a₂, t₂, -, hv⟩ := load_position type a₁ t₁
  · rw [hk]
    dsimp only
    rw [hv endless]
    refine iff_of_true ⟨fun _ _ h h' => ?_, fun l' e => ?_⟩ rfl
    · cases h
      rw [hv u] at h'
      cases h'
    · rw [hturn .undefined (by rw [rdbLoadRecord, hk, ok_bind, hv u, error_bind])] at e
      cases e
  obtain ⟨v, hu⟩ := hv u
  obtain ⟨v', hend⟩ := hv endless
  have hrec := record_with ht hid hk hu
  rw [hk]
  dsimp only
  rw [hend]
  dsimp only
  rw [Bool.and_eq_true, decide_eq_true_eq]
  constructor
  · rintro ⟨hok, hnext⟩
    obtain ⟨id', hid', hlt⟩ := hok _ _ rfl hu
    rw [hid, Option.some.injEq] at hid'
    subst hid'
    rw [if_pos hlt] at hrec
    obtain ⟨l', e, hlen, hid', hfp'⟩ := hrec
    obtain ⟨_, _, id', -, hid'', -, hr⟩ := hnext l' e
    rw [hid', Option.some.injEq] at hid''
    rw [hfp'] at hr
    exact ⟨hlt, hid'' ▸ hr⟩
  · rintro ⟨hlt, hr⟩
    rw [if_pos hlt] at hrec
    obtain ⟨l', e, hlen, hid', hfp'⟩ := hrec
    refine ⟨fun _ _ _ _ => ⟨id, hid, hlt⟩, fun l'' e' => ?_⟩
    rw [e] at e'
    cases e'
    exact ⟨a₂, t₂, id, hfp', hid', hlen, by rw [hfp']; exact hr⟩

theorem turn_iff (u : Unset) (hne : type ≠ RDB_EOF) :
    (TurnOk u type l ∧ ∀ l', rdbLoadTurnWith u type l = .ok l' → Leaves rest l l') ↔
      Goes l.db.length type id l.fp rest = true := by
  by_cases hs : type = RDB_SELECTDB
  · subst hs
    exact select_iff hfp hid u
  by_cases he : type = RDB_EXPIRETIME
  · subst he
    exact expire_iff hfp hid u
  · exact record_iff hfp hid u hs he hne

/-- A turn reads on, and leaves an index. -/
theorem turn_leaves (u : Unset) (hne : type ≠ RDB_EOF) {l' : RdbLoader}
    (h : rdbLoadTurnWith u type l = .ok l') : Leaves (fun _ _ => true) l l' := by
  by_cases hs : type = RDB_SELECTDB
  · obtain ⟨a', t', e, -⟩ := fread_at a t 1
    rw [← hfp] at e
    rw [rdbLoadTurnWith, if_pos hs] at h
    dsimp only at h
    split at h
    · cases h
    · cases h
      refine ⟨a', t', ((fread l.fp 1).1.head?.map UInt8.toNat).getD id, e, ?_, rfl, rfl⟩
      rw [hid]
      cases (fread l.fp 1).1.head? <;> rfl
  by_cases he : type = RDB_EXPIRETIME
  · obtain ⟨a', t', e, -⟩ := fread_at a t 8
    rw [← hfp] at e
    rw [rdbLoadTurnWith, if_neg hs, if_pos he] at h
    cases h
    exact ⟨a', t', id, e, hid, rfl, rfl⟩
  · have ht : type ∉ [RDB_EOF, RDB_SELECTDB, RDB_EXPIRETIME] := by simp [hs, he, hne]
    have hturn := h
    rw [rdbLoadTurnWith, if_neg hs, if_neg he, rdbLoadRecord] at h
    obtain ⟨key, hk, h⟩ := bind_ok.mp h
    obtain ⟨val, hv, -⟩ := bind_ok.mp h
    have hrec := record_with ht hid hk hv
    split at hrec
    · obtain ⟨l'', e, hlen, hid', hfp'⟩ := hrec
      rw [hturn] at e
      cases e
      obtain ⟨a₁, t₁, e₁⟩ : ∃ a₁ t₁, key.2 = fileAt a₁ t₁ := by
        obtain e | ⟨_, a₁, t₁, e, -⟩ := key_position a t
        · rw [← hfp, hk] at e
          cases e
        · rw [← hfp, hk] at e
          cases e
          exact ⟨a₁, t₁, rfl⟩
      rw [e₁] at hv
      obtain e | ⟨a₂, t₂, -, e⟩ := load_position type a₁ t₁
      · rw [e u] at hv
        cases hv
      · obtain ⟨_, e⟩ := e u
        rw [e] at hv
        cases hv
        exact ⟨a₂, t₂, id, hfp', hid', hlen, rfl⟩
    · rw [hturn] at hrec
      cases hrec

end Turn

/-! ## The loop -/

theorem key_end (a : Bytes) : rdbLoadKey (fileAt a []) = .ok ([], fileAt a []) := by
  rw [rdbLoadKey, rdbLoadLen, fread_end]
  simp [fread_end]

/-- Behind the end of the file a turn leaves the file there, and the index. -/
theorem goes_end (hlt : id < dbnum) (type : UInt8) (a : Bytes) :
    Goes dbnum type id (fileAt a []) (fun id fp => id < dbnum && fp = fileAt a []) = true := by
  unfold Goes
  split
  · rw [fread_end]
    simp [hlt]
  · split
    · rw [fread_end]
      simp [hlt]
    · obtain ⟨v, hv⟩ := object_end type a
      rw [key_end]
      dsimp only
      rw [hv]
      simp [hlt]

theorem loop_ends_indexed (n : Nat) : ∀ {id i l}, l.fp = fileAt a [] → l.dbid = some id →
    id < l.db.length → LoopOk unset n i l := by
  induction n with
  | zero => exact fun _ _ _ => trivial
  | succ n ih =>
    intro id i l hfp hid hlt
    rw [LoopOk, hfp, fread_end]
    dsimp only
    intro hne
    obtain ⟨hok, hnext⟩ := (turn_iff (l := { l with fp := fileAt a [] }) rfl hid (unset i) hne).mpr
      (goes_end hlt _ a)
    refine ⟨hok, fun l' e => ?_⟩
    obtain ⟨_, _, id', -, hid', hlen, hr⟩ := hnext l' e
    rw [Bool.and_eq_true, decide_eq_true_eq, decide_eq_true_eq] at hr
    exact ih hr.2 hid' (by rw [hlen]; exact hr.1)

/-- A loop that is in order uses indexes that exist, whatever is unset. -/
theorem loop_indexed (n : Nat) : ∀ {a t id i l}, l.fp = fileAt a t → l.dbid = some id →
    ordered l.db.length n id l.fp = true → LoopOk unset n i l := by
  induction n with
  | zero => exact fun _ _ _ => trivial
  | succ n ih =>
    intro a t id i l hfp hid hord
    cases t with
    | nil =>
      rw [ordered, hfp, fread_end] at hord
      exact loop_ends_indexed (n + 1) hfp hid (of_decide_eq_true hord)
    | cons type t =>
      rw [ordered, hfp, fread_one] at hord
      rw [LoopOk, hfp, fread_one]
      dsimp only [List.head?_cons, List.headD_cons] at hord ⊢
      intro hne
      rw [beq_eq_false_iff_ne.mpr hne, Bool.false_or] at hord
      obtain ⟨hok, hnext⟩ := (turn_iff (l := { l with fp := fileAt (a ++ [type]) t }) rfl hid (unset i) hne).mpr hord
      refine ⟨hok, fun l' e => ?_⟩
      obtain ⟨a', t', id', hfp', hid', hlen, hr⟩ := hnext l' e
      exact ih hfp' hid' (by rw [hlen]; exact hr)

/-- Behind the end of the file there may be a record. -/
theorem end_indexed (hfp : l.fp = fileAt a []) (hid : l.dbid = some id)
    (h : LoopOk (fun _ => endless) (n + 1) i l) : id < l.db.length := by
  rw [LoopOk, hfp, fread_end] at h
  obtain ⟨v, hv⟩ := object_end RDB_TYPE_STRING a
  have hok : TurnOk endless RDB_TYPE_STRING { l with fp := fileAt a [] } :=
    (h (by decide : RDB_TYPE_STRING ≠ RDB_EOF)).1
  rw [TurnOk, if_neg (by decide), if_neg (by decide)] at hok
  obtain ⟨id', hid', hlt⟩ := hok _ _ (key_end a) hv
  rw [hid, Option.some.injEq] at hid'
  rwa [hid']

theorem ordered_of_loop (n : Nat) : ∀ {a t id i l}, l.fp = fileAt a t → l.dbid = some id →
    LoopOk (fun _ => endless) n i l → ordered l.db.length n id l.fp = true := by
  induction n with
  | zero => exact fun _ _ _ => rfl
  | succ n ih =>
    intro a t id i l hfp hid h
    cases t with
    | nil =>
      rw [ordered, hfp, fread_end]
      exact decide_eq_true (end_indexed hfp hid h)
    | cons type t =>
      rw [LoopOk, hfp, fread_one] at h
      rw [ordered, hfp, fread_one]
      dsimp only [List.head?_cons, List.headD_cons] at h ⊢
      by_cases hne : type = RDB_EOF
      · rw [hne]
        rfl
      obtain ⟨hok, hnext⟩ := h hne
      rw [beq_eq_false_iff_ne.mpr hne, Bool.false_or]
      refine (turn_iff (l := { l with fp := fileAt (a ++ [type]) t }) rfl hid endless hne).mp
        ⟨hok, fun l' e => ?_⟩
      obtain ⟨a', t', id', hfp', hid', hlen, -⟩ :=
        turn_leaves (l := { l with fp := fileAt (a ++ [type]) t }) rfl hid endless hne e
      exact ⟨a', t', id', hfp', hid', hlen, by rw [← hlen]; exact ih hfp' hid' (hnext l' e)⟩

/-! ## `rdbLoad` -/

theorem goes_mono {rest rest' : Nat → File → Bool}
    (h : ∀ id a' t', t'.length ≤ t.length → rest id (fileAt a' t') = true →
      rest' id (fileAt a' t') = true)
    (hr : Goes dbnum type id (fileAt a t) rest = true) :
    Goes dbnum type id (fileAt a t) rest' = true := by
  unfold Goes at hr ⊢
  split
  · rename_i hs
    rw [if_pos hs] at hr
    obtain ⟨a', t', e, hle⟩ := fread_at a t 1
    dsimp only at hr ⊢
    rw [e] at hr ⊢
    generalize (fread (fileAt a t) 1).1.head? = o at hr ⊢
    cases o with
    | none =>
      simp only [Bool.or_eq_true] at hr ⊢
      exact hr.imp_right (h _ _ _ hle)
    | some dbid =>
      simp only [Bool.or_eq_true, Bool.and_eq_true] at hr ⊢
      exact hr.imp_right fun hr => ⟨hr.1, h _ _ _ hle hr.2⟩
  · rename_i hs
    rw [if_neg hs] at hr
    split
    · rename_i he
      rw [if_pos he] at hr
      obtain ⟨a', t', e, hle⟩ := fread_at a t 8
      rw [e] at hr ⊢
      exact h _ _ _ hle hr
    · rename_i he
      rw [if_neg he] at hr
      obtain hk | ⟨key, a₁, t₁, hk, h₁⟩ := key_position a t
      · rw [hk]
      · rw [hk] at hr ⊢
        dsimp only at hr ⊢
        obtain hv | ⟨a₂, t₂, h₂, hv⟩ := load_position type a₁ t₁
        · rw [hv endless]
        · obtain ⟨v, hv⟩ := hv endless
          rw [hv] at hr ⊢
          simp only [Bool.and_eq_true] at hr ⊢
          exact ⟨hr.1, h _ _ _ (by omega) hr.2⟩

/-- As many turns as there are bytes, and one, are enough. -/
theorem ordered_all (n : Nat) : ∀ {k a t id}, t.length < k →
    ordered dbnum k id (fileAt a t) = true → ordered dbnum n id (fileAt a t) = true := by
  induction n with
  | zero => exact fun _ _ => rfl
  | succ n ih =>
    intro k a t id hk h
    obtain ⟨k, rfl⟩ := Nat.exists_eq_add_of_le' (Nat.lt_of_le_of_lt (Nat.zero_le _) hk)
    cases t with
    | nil =>
      rw [ordered, fread_end] at h ⊢
      exact h
    | cons type t =>
      rw [ordered, fread_one] at h ⊢
      dsimp only [List.head?_cons] at h ⊢
      rw [Bool.or_eq_true] at h ⊢
      rw [List.length_cons] at hk
      exact h.imp_right (goes_mono fun id a' t' hle hr => ih (by omega) hr)

/-- The file has another magic, or its items are in order, also for a `dbid` that is not set. -/
def FileOrdered (dbnum : Nat) (file : Bytes) : Prop :=
  file.take 9 <+: rdbMagic → ∀ dbid : UInt8,
    ordered dbnum (file.length + 1) dbid.toNat (fileAt (file.take 9) (file.drop 9)) = true

/-- **Indexes from a file.** `rdbLoad` uses only indexes that exist, whatever is unset, iff the
items of the file are in order. -/
theorem loadOk_iff (db : List RedisDb) (file : Bytes) :
    LoadOk db file ↔ FileOrdered db.length file := by
  unfold LoadOk FileOrdered
  constructor
  · intro h hpre dbid
    have h := h (fun i => rdbMagic.getD i 0) dbid (fun _ => endless) (file.length + 1)
    rw [fread_magic] at h
    exact ordered_of_loop _ rfl rfl (h (magic_filled hpre))
  · intro h buf dbid unset n hm
    rw [fread_magic] at hm ⊢
    have hpre : file.take 9 <+: rdbMagic := by
      rw [← hm]
      exact List.prefix_append _ _
    have hlen : (file.drop 9).length < file.length + 1 := by
      rw [List.length_drop]
      omega
    exact loop_indexed n rfl rfl (ordered_all n hlen (h hpre dbid))

end Fedis.Proof.Rdb
