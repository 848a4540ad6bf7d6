import Fedis.Impl.Process
import Fedis.Proof.Resp

/-!
# Strings, clients and databases of a server

What the operations on a server's parts do to each of its fields: the contents
of strings (`content_sdscatlen`, `sdsdump_buf`), client objects (`modifyClient`),
and the databases, seen key by key (`kvAt`, `expireAt`, `watchersAt`).
-/

namespace Fedis.Proof.Server

open Framework Resp

/-! ## Strings -/

theorem content_sdscatlen (d : Sds) (buf : Bytes) :
    (sdscatlen d buf).content = d.content ++ buf := by
  unfold sdscatlen Sds.content
  dsimp only
  split
  · have hfill : readAt (writeAt (reallocBuf d.buf (sdsAllocSize (d.len + buf.length))) d.len
        (List.replicate (sdsAllocSize (d.len + buf.length) - d.len) 0)) 0 d.len =
        readAt d.buf 0 d.len := by
      rw [readAt_writeAt_of_le _ _ (by omega), reallocBuf]
      have hlt : d.len + buf.length < sdsAllocSize (d.len + buf.length) := by
        unfold sdsAllocSize
        split <;> omega
      refine bytes_ext (by simp) fun j hj => ?_
      rw [length_readAt] at hj
      simp only [getD_readAt, if_pos hj]
      rw [Nat.zero_add, if_pos (by omega), Nat.zero_add]
    have := readAt_writeAt_append (writeAt (reallocBuf d.buf (sdsAllocSize (d.len + buf.length)))
      d.len (List.replicate (sdsAllocSize (d.len + buf.length) - d.len) 0)) 0 d.len buf
    rw [Nat.zero_add] at this
    rw [this, hfill]
  · have := readAt_writeAt_append d.buf 0 d.len buf
    rwa [Nat.zero_add] at this

theorem content_sdscat (d : Sds) (s : Bytes) : (sdscat d s).content = d.content ++ cstr s :=
  content_sdscatlen d (cstr s)

theorem content_of_len {s : Sds} (h : s.len = 0) : s.content = [] := by
  rw [Sds.content, h, readAt_zero]

@[simp] theorem len_sdsclear (s : Sds) : (sdsclear s).len = 0 := rfl

@[simp] theorem content_sdsclear (s : Sds) : (sdsclear s).content = [] := content_of_len rfl

@[simp] theorem len_sdsDrained (s : Sds) : (sdsDrained s).len = 0 := rfl

@[simp] theorem length_content (s : Sds) : s.content.length = s.len := length_readAt _ _ _

/-- A dump starts with the content; what follows is stale. -/
theorem sdsdump_buf (s : Sds) : ∃ t, (sdsdump s).buf = s.content ++ t := by
  refine ⟨(sdsdump s).buf.drop s.len, ?_⟩
  have : (sdsdump s).buf.take s.len = s.content := by
    refine bytes_ext (by simp [sdsdump]; omega) fun j hj => ?_
    have hj : j < s.len := by simp [sdsdump] at hj; omega
    rw [List.getD_eq_getElem?_getD, List.getElem?_take_of_lt hj, ← List.getD_eq_getElem?_getD,
      Sds.content, sdsdump, getD_readAt, getD_readAt, if_pos (by omega), if_pos hj]
  rw [← this, List.take_append_drop]

/-- A request at the start of a buffer is decoded. -/
theorem respDecode_dump {s : Sds} {argv : List Bytes} (h : Request argv) {t : Bytes}
    (hs : s.content = respEncodeArrayString argv ++ t) :
    respDecode (sdsdump s).buf = .ok argv := by
  obtain ⟨t', e⟩ := sdsdump_buf s
  rw [e, hs, List.append_assoc]
  exact respDecode_encode h _

/-! ## Clients -/

section Clients

variable (s : RedisServer) (c : ClientId) (f : RedisClient → RedisClient)

theorem modifyClient_client (x : ClientId) :
    (s.modifyClient c f).client x = if x = c then f (s.client x) else s.client x := rfl

@[simp] theorem modifyClient_self : (s.modifyClient c f).client c = f (s.client c) := if_pos rfl

@[simp] theorem modifyClient_of_ne {x : ClientId} (h : x ≠ c) :
    (s.modifyClient c f).client x = s.client x := if_neg h

@[simp] theorem modifyClient_id : (s.modifyClient c f).id = s.id := rfl
@[simp] theorem modifyClient_flags : (s.modifyClient c f).flags = s.flags := rfl
@[simp] theorem modifyClient_db : (s.modifyClient c f).db = s.db := rfl
@[simp] theorem modifyClient_clients : (s.modifyClient c f).clients = s.clients := rfl
@[simp] theorem modifyClient_backlog : (s.modifyClient c f).backlog = s.backlog := rfl
@[simp] theorem modifyClient_aofOn : (s.modifyClient c f).aofOn = s.aofOn := rfl
@[simp] theorem modifyClient_activeBuf : (s.modifyClient c f).activeBuf = s.activeBuf := rfl
@[simp] theorem modifyClient_dirty : (s.modifyClient c f).dirty = s.dirty := rfl
@[simp] theorem modifyClient_master : (s.modifyClient c f).master = s.master := rfl
@[simp] theorem modifyClient_calls : (s.modifyClient c f).calls = s.calls := rfl

@[simp] theorem modifyClient_getDb (i : Int) : (s.modifyClient c f).getDb i = s.getDb i := rfl

/-- A change to a field that a client's other fields do not see. -/
theorem modifyClient_field {α : Type} (g : RedisClient → α)
    (h : ∀ client, g (f client) = g client) (x : ClientId) :
    g ((s.modifyClient c f).client x) = g (s.client x) := by
  rw [modifyClient_client]
  split
  · exact h _
  · rfl

@[simp] theorem addWrite_db (b : Bytes) : (addWrite s c b).db = s.db := rfl
@[simp] theorem addWrite_flags (b : Bytes) : (addWrite s c b).flags = s.flags := rfl
@[simp] theorem addWrite_clients (b : Bytes) : (addWrite s c b).clients = s.clients := rfl
@[simp] theorem addWrite_backlog (b : Bytes) : (addWrite s c b).backlog = s.backlog := rfl
@[simp] theorem addWrite_aofOn (b : Bytes) : (addWrite s c b).aofOn = s.aofOn := rfl
@[simp] theorem addWrite_activeBuf (b : Bytes) : (addWrite s c b).activeBuf = s.activeBuf := rfl
@[simp] theorem addWrite_dirty (b : Bytes) : (addWrite s c b).dirty = s.dirty := rfl
@[simp] theorem addWrite_master (b : Bytes) : (addWrite s c b).master = s.master := rfl
@[simp] theorem addWrite_calls (b : Bytes) : (addWrite s c b).calls = s.calls := rfl

/-- A reply changes no client field but the output buffer. -/
theorem addWrite_field {α : Type} (b : Bytes) (g : RedisClient → α)
    (h : ∀ client w, g { client with writeBuf := w } = g client) (x : ClientId) :
    g ((addWrite s c b).client x) = g (s.client x) :=
  modifyClient_field s c _ g (fun _ => h _ _) x

end Clients

/-! ## Results -/

/-- A sequence of calls returns iff each of them does. -/
theorem bind_ok {ε α β : Type} {x : Except ε α} {f : α → Except ε β} {b : β} :
    (x >>= f) = .ok b ↔ ∃ a, x = .ok a ∧ f a = .ok b := by
  cases x with
  | error e => simp [bind, Except.bind]
  | ok a => simp [bind, Except.bind]

/-- A sequence of calls stops where one of them does. -/
theorem bind_error {α β : Type} {x : Except Fault α} {f : α → Except Fault β} {e : Fault} :
    (x >>= f) = .error e ↔ x = .error e ∨ ∃ a, x = .ok a ∧ f a = .error e := by
  cases x with
  | error e => simp [bind, Except.bind]
  | ok a => simp [bind, Except.bind]

@[simp] theorem ok_bind {α β : Type} (a : α) (f : α → Except Fault β) :
    ((.ok a : Except Fault α) >>= f) = f a := rfl

@[simp] theorem error_bind {α β : Type} (e : Fault) (f : α → Except Fault β) :
    ((.error e : Except Fault α) >>= f) = .error e := rfl

@[simp] theorem pure_eq_ok {α : Type} (a : α) : (pure a : Except Fault α) = .ok a := rfl

theorem pure_ok {α : Type} {a b : α} : (pure a : Except Fault α) = .ok b ↔ a = b := by
  simp [pure, Except.pure]

theorem argAt_ok {argv : List Bytes} {i : Nat} {arg : Bytes} :
    argAt argv i = .ok arg ↔ argv[i]? = some arg := by
  unfold argAt
  split <;> simp_all

theorem addWriteBulk_ok {s s' : RedisServer} {c : ClientId} {str : Bytes} :
    addWriteBulk s c str = .ok s' ↔
      (bulkString (cstr str)).length < 1024 ∧ s' = addWrite s c (bulkString (cstr str)) := by
  unfold addWriteBulk respEncodeBulkString
  split
  · rename_i h
    simp [h, pure, Except.pure, eq_comm]
  · rename_i h
    simp [h]

/-! ## Databases -/

theorem getDb_ok {s : RedisServer} {i : Int} {db : RedisDb} :
    s.getDb i = .ok db ↔ 0 ≤ i ∧ s.db[i.toNat]? = some db := by
  unfold RedisServer.getDb
  split
  · rename_i h
    simp only [reduceCtorEq, false_iff, not_and]
    omega
  · split <;> simp_all

/-- The value of a key. -/
def kvAt (s : RedisServer) (j : Nat) (k : Bytes) : Option Robj := s.db[j]?.bind fun db => db.kv.lookup k

/-- The deadline of a key. -/
def expireAt (s : RedisServer) (j : Nat) (k : Bytes) : Option Int :=
  s.db[j]?.bind fun db => db.expires.lookup k

/-- The clients in the watch list of a key. -/
def watchersAt (s : RedisServer) (j : Nat) (k : Bytes) : List ClientId :=
  (s.db[j]?.bind fun db => db.watchedKeys.lookup k).getD []

theorem setDb_db (s : RedisServer) {i : Int} {db : RedisDb} (h : s.getDb i = .ok db) (db' : RedisDb)
    (j : Nat) : (s.setDb i db').db[j]? = if i = j then some db' else s.db[j]? := by
  obtain ⟨hi, hdb⟩ := getDb_ok.mp h
  have hlt := (List.getElem?_eq_some_iff.mp hdb).1
  rw [RedisServer.setDb]
  by_cases hij : i = j
  · rw [if_pos hij, ← show i.toNat = j by omega, List.getElem?_set_self hlt]
  · rw [if_neg hij, List.getElem?_set_ne (by omega)]

theorem getDb_setDb {s : RedisServer} {j : Int} {db : RedisDb} (h : s.getDb j = .ok db) (db' : RedisDb) :
    (s.setDb j db').getDb j = .ok db' := by
  have hj := (getDb_ok.mp h).1
  refine getDb_ok.mpr ⟨hj, ?_⟩
  have := setDb_db s h db' j.toNat
  rwa [if_pos (by omega)] at this

theorem getDb_zero {s : RedisServer} {db : RedisDb} (hdb : s.db[0]? = some db) : s.getDb 0 = .ok db :=
  getDb_ok.mpr ⟨Int.le_refl 0, hdb⟩

@[simp] theorem setDb_client (s : RedisServer) (i : Int) (db : RedisDb) :
    (s.setDb i db).client = s.client := rfl
@[simp] theorem setDb_flags (s : RedisServer) (i : Int) (db : RedisDb) :
    (s.setDb i db).flags = s.flags := rfl
@[simp] theorem setDb_calls (s : RedisServer) (i : Int) (db : RedisDb) :
    (s.setDb i db).calls = s.calls := rfl
@[simp] theorem setDb_clients (s : RedisServer) (i : Int) (db : RedisDb) :
    (s.setDb i db).clients = s.clients := rfl
@[simp] theorem setDb_aofOn (s : RedisServer) (i : Int) (db : RedisDb) :
    (s.setDb i db).aofOn = s.aofOn := rfl
@[simp] theorem setDb_dirty (s : RedisServer) (i : Int) (db : RedisDb) :
    (s.setDb i db).dirty = s.dirty := rfl
@[simp] theorem setDb_master (s : RedisServer) (i : Int) (db : RedisDb) :
    (s.setDb i db).master = s.master := rfl
@[simp] theorem setDb_backlog (s : RedisServer) (i : Int) (db : RedisDb) :
    (s.setDb i db).backlog = s.backlog := rfl
@[simp] theorem setDb_activeBuf (s : RedisServer) (i : Int) (db : RedisDb) :
    (s.setDb i db).activeBuf = s.activeBuf := rfl

end Fedis.Proof.Server
