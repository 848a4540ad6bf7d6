import Fedis.Impl.Backlog

/-!
# What a partial resynchronisation sends

Byte `b` of the stream, counted from 1, is stored at index `b % 1024`
(`addRepliBuf`), and every write stays inside the buffer (`write_inside`). The
reader does not wrap: it reads from index `offset + 1` on. So as long as the
stream has not reached the end of the buffer it sends the right bytes, and from
then on every read leaves the buffer (`backlog_ok`).
-/

namespace Fedis.Proof.Backlog

open Framework

/-- What the backlog is for: the stream so far is under its offsets, and until
it reaches the end of the buffer it is there from index 1 on. -/
structure Holds (b : Backlog) : Prop where
  length : b.repliBuffer.length = MASTER_REPLI_RINGBUFFER_SIZE
  last : b.lastOffset = b.stream.length
  bytes : b.stream.length < MASTER_REPLI_RINGBUFFER_SIZE →
    readAt b.repliBuffer 1 b.lastOffset = b.stream

theorem holds_init : Holds Backlog.init where
  length := List.length_replicate
  last := rfl
  bytes _ := readAt_zero _ _

theorem addRepliBuf_stream (b : Backlog) (buf : Bytes) :
    (addRepliBuf b buf).stream = b.stream ++ buf := by
  unfold addRepliBuf
  dsimp only
  split <;> rfl

theorem addRepliBuf_lastOffset (b : Backlog) (buf : Bytes) :
    (addRepliBuf b buf).lastOffset = b.lastOffset + buf.length := by
  unfold addRepliBuf
  dsimp only
  split <;> rfl

/-- Neither branch writes outside the buffer. -/
theorem write_inside {b : Backlog} {buf : Bytes}
    (h : b.repliBuffer.length = MASTER_REPLI_RINGBUFFER_SIZE)
    (hs : buf.length ≤ MASTER_REPLI_RINGBUFFER_SIZE) :
    (addRepliBuf b buf).repliBuffer.length = MASTER_REPLI_RINGBUFFER_SIZE := by
  have := Nat.mod_lt (b.lastOffset + 1024) (by decide : 1024 > 0)
  unfold addRepliBuf
  dsimp only
  split
  · simp only [length_writeAt, List.length_take, List.length_drop, MASTER_REPLI_RINGBUFFER_SIZE] at *
    omega
  · simp only [length_writeAt, MASTER_REPLI_RINGBUFFER_SIZE] at *
    omega

/-- An append. -/
theorem holds_addRepliBuf {b : Backlog} {buf : Bytes} (h : Holds b)
    (hs : buf.length ≤ MASTER_REPLI_RINGBUFFER_SIZE) : Holds (addRepliBuf b buf) where
  length := write_inside h.length hs
  last := by rw [addRepliBuf_lastOffset, addRepliBuf_stream, List.length_append, h.last]
  bytes hlt := by
    rw [addRepliBuf_stream, List.length_append] at hlt
    have hb := h.bytes (by omega)
    have hlast := h.last
    simp only [MASTER_REPLI_RINGBUFFER_SIZE] at hlt
    -- the stream has not wrapped: the plain branch, at index `lastOffset + 1`
    have hmod : (b.lastOffset + 1024) % 1024 = b.lastOffset := by omega
    rw [addRepliBuf_stream, addRepliBuf_lastOffset]
    simp only [addRepliBuf, MASTER_REPLI_RINGBUFFER_SIZE, hmod]
    rw [if_neg (by omega), show b.lastOffset + 1 = 1 + b.lastOffset by omega,
      readAt_writeAt_append, hb]

/-- The backlog after a sequence of appends. -/
def appendAll (bufs : List Bytes) : Backlog := bufs.foldl addRepliBuf Backlog.init

theorem holds_foldl : ∀ (bufs : List Bytes) {b : Backlog}, Holds b →
    (∀ buf ∈ bufs, buf.length ≤ MASTER_REPLI_RINGBUFFER_SIZE) →
    Holds (bufs.foldl addRepliBuf b) ∧ (bufs.foldl addRepliBuf b).stream = b.stream ++ bufs.flatten
  | [], b, h, _ => ⟨h, (List.append_nil _).symm⟩
  | buf :: bufs, b, h, hs => by
    obtain ⟨h', e⟩ := holds_foldl bufs (holds_addRepliBuf h (hs buf List.mem_cons_self))
      fun x hx => hs x (List.mem_cons_of_mem _ hx)
    exact ⟨h', by rw [List.foldl_cons, e, addRepliBuf_stream, List.flatten_cons, List.append_assoc]⟩

/-- What an accepted offset is answered with, in any state of the backlog. -/
theorem read_ok {b : Backlog} (h : Holds b) {offset : Nat} (ha : b.accepts offset) :
    (b.ReadInside offset ∧ b.read offset = b.stream.drop offset) ↔
      b.stream.length < MASTER_REPLI_RINGBUFFER_SIZE := by
  have hlt : offset < b.lastOffset := by
    simp only [Backlog.accepts, Bool.not_eq_true', Bool.or_eq_false_iff, decide_eq_false_iff_not] at ha
    omega
  have hlast := h.last
  simp only [Backlog.ReadInside, Backlog.region]
  constructor
  · rintro ⟨hin, -⟩
    omega
  · intro hs
    refine ⟨by omega, ?_⟩
    rw [← h.bytes hs, drop_readAt, Nat.add_comm 1]
    rfl

/-- **The backlog holds the stream until the stream reaches the buffer's end.**
Every write of a sequence of appends stays inside the buffer. An accepted offset
is answered, inside the buffer, with the bytes of the stream behind it, iff less
than 1024 bytes have been appended. -/
theorem backlog_ok (bufs : List Bytes)
    (hs : ∀ buf ∈ bufs, 1 ≤ buf.length ∧ buf.length ≤ MASTER_REPLI_RINGBUFFER_SIZE) :
    (∀ pre, pre <+: bufs →
      (appendAll pre).repliBuffer.length = MASTER_REPLI_RINGBUFFER_SIZE) ∧
    ∀ offset : Nat, (appendAll bufs).accepts offset →
      (((appendAll bufs).ReadInside offset ∧
          (appendAll bufs).read offset = bufs.flatten.drop offset) ↔
        bufs.flatten.length < MASTER_REPLI_RINGBUFFER_SIZE) := by
  refine ⟨fun pre hpre => ?_, fun offset ha => ?_⟩
  · exact (holds_foldl pre holds_init fun buf hb => (hs buf (hpre.subset hb)).2).1.length
  · obtain ⟨h, e⟩ := holds_foldl bufs holds_init fun buf hb => (hs buf hb).2
    have e : (appendAll bufs).stream = bufs.flatten := e
    rw [← e]
    exact read_ok h ha

/-- Three appends, and an offset inside the second. -/
theorem backlog_ok_three : (appendAll [[1, 2], [3, 4, 5], [6]]).accepts 3 ∧
    (appendAll [[1, 2], [3, 4, 5], [6]]).read 3 = [4, 5, 6] :=
  ⟨by decide, (((backlog_ok [[1, 2], [3, 4, 5], [6]] (by decide)).2 3 (by decide)).mpr (by decide)).2⟩

/-- One append that fills the buffer: the offset 1 is accepted, and its read
leaves the buffer. -/
theorem backlog_overrun : (appendAll [List.replicate 1024 65]).accepts 1 ∧
    ¬ (appendAll [List.replicate 1024 65]).ReadInside 1 := by
  have hl : (List.replicate 1024 (65 : UInt8)).length = 1024 := List.length_replicate
  generalize List.replicate 1024 (65 : UInt8) = buf at hl
  have hlast : (appendAll [buf]).lastOffset = 1024 := by
    rw [appendAll, List.foldl_cons, List.foldl_nil, addRepliBuf_lastOffset, hl]
    rfl
  have hbegin : (appendAll [buf]).beginOffset = 1 := by
    rw [appendAll, List.foldl_cons, List.foldl_nil, addRepliBuf, hl]
    dsimp only
    rw [if_pos (by decide)]
    dsimp only
    decide
  rw [Backlog.accepts, Backlog.ReadInside, Backlog.region, hlast, hbegin]
  decide

end Fedis.Proof.Backlog
