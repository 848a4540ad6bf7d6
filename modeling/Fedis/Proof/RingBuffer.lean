import Fedis.Framework.Run
import Fedis.Spec.RingQueue

/-!
# The ring buffer is a queue, where a bulk copy splits rightly

`ringBufferEnQeueueBulk` copies in one piece if the new tail is behind the head,
and else in two pieces around the end; `ringBufferDequeueBulk` copies in one
piece if the head is before the tail. In a buffer whose bytes already go around
the end neither test says whether this copy goes around it. So a call is that of
the queue iff it is `Splits`, and undefined otherwise (`call_simulates`,
`call_undefined`), and a run is that of the queue iff all its calls are
(`ringBuffer_ok`).
-/

namespace Fedis.Proof.RingBuffer

open Framework

/-- The ring buffer keeps the bytes of the queue, from its head on. -/
structure Represents (rb : RingBuffer) (q : RingQueue) : Prop where
  length : rb.data.length = RBUFFER_SIZE
  head : rb.head < RBUFFER_SIZE
  tail : rb.tail = (rb.head + q.items.length) % RBUFFER_SIZE
  bytes : circular rb.data rb.head q.items.length = q.items

/-- The calls that copy rightly. A bulk copy into the buffer starts in a buffer
whose bytes do not go around its end, and leaves it not empty; a bulk copy out
of a buffer whose bytes go around its end takes all bytes up to the end. -/
def Splits (rb : RingBuffer) : RingOp → Prop
  | .enQeueue _ | .dequeue _ => True
  | .enQeueueBulk data =>
    ringBufferSize rb + data.length ≤ LONG_MAX ∧
      (ringBufferSize rb + data.length ≤ RBUFFER_SIZE - 1 →
        rb.head ≤ rb.tail ∧ rb.head < rb.tail + data.length)
  | .dequeueBulk data =>
    data.length ≤ ringBufferSize rb → rb.head < rb.tail ∨ RBUFFER_SIZE - rb.head ≤ data.length

instance (rb : RingBuffer) : DecidablePred (Splits rb)
  | .enQeueue _ | .dequeue _ => instDecidableTrue
  | .enQeueueBulk _ => instDecidableAnd
  | .dequeueBulk _ => inferInstanceAs (Decidable (_ → _))

theorem represents_create : Represents ringBufferCreate Queue.empty where
  length := List.length_replicate
  head := by decide
  tail := rfl
  bytes := by simp [circular, Queue.empty]

theorem set_eq_writeAt {m : Bytes} {i : Nat} (hi : i < m.length) (b : UInt8) :
    m.set i b = writeAt m i [b] := by
  rw [List.set_eq_take_append_cons_drop, if_pos hi, writeAt, Nat.sub_eq_zero_of_le (Nat.le_of_lt hi)]
  simp

theorem memcpy_eq {dst src : Bytes} {j i n : Nat} (hd : j + n ≤ dst.length)
    (hs : i + n ≤ src.length) : memcpy dst j src i n = some (writeAt dst j (readAt src i n)) :=
  if_pos ⟨Int.natCast_nonneg n, by omega, by omega⟩

section Call

variable {rb : RingBuffer} {q : RingQueue} (h : Represents rb q)

include h

theorem tail_lt : rb.tail < RBUFFER_SIZE := by
  rw [h.tail]
  exact Nat.mod_lt _ (by decide)

/-- Where the tail is: the bytes do not go around the end, or they do. -/
theorem tail_cases : rb.tail = rb.head + q.items.length ∧ rb.head + q.items.length < RBUFFER_SIZE ∨
    rb.tail + RBUFFER_SIZE = rb.head + q.items.length ∧ rb.tail < rb.head := by
  have hq := q.bounded
  have hh := h.head
  have := mod_cases (by omega : rb.head + q.items.length < 2 * RBUFFER_SIZE)
  have ht := h.tail
  omega

theorem ringBufferSize_eq : ringBufferSize rb = q.items.length := by
  have hq := q.bounded
  have ht := tail_lt h
  have hh := h.head
  have hc := tail_cases h
  have := mod_cases (by omega : rb.tail + RBUFFER_SIZE - rb.head < 2 * RBUFFER_SIZE)
  rw [ringBufferSize]
  omega

/-- Bytes written in one piece at the tail. -/
theorem represents_push {bs : Bytes} {q' : RingQueue} (hq : q.push bs = some q')
    (hb : rb.tail + bs.length ≤ RBUFFER_SIZE) :
    Represents { rb with
      data := writeAt rb.data rb.tail bs, tail := (rb.tail + bs.length) % RBUFFER_SIZE } q' := by
  obtain ⟨hroom, e⟩ := Option.dite_none_right_eq_some.mp hq
  cases e
  have hl := h.length
  refine ⟨?_, h.head, ?_, ?_⟩
  · rw [← hl, length_writeAt_eq_iff, hl]
    exact hb
  · show _ = (rb.head + (q.items ++ bs).length) % RBUFFER_SIZE
    rw [h.tail, List.length_append, Nat.mod_add_mod, Nat.add_assoc]
  · show circular (writeAt rb.data rb.tail bs) rb.head (q.items ++ bs).length = q.items ++ bs
    have hn : q.items.length + bs.length ≤ rb.data.length := by
      rw [hl]; exact hroom.trans (Nat.sub_le _ _)
    have ht : (rb.head + q.items.length) % rb.data.length + bs.length ≤ rb.data.length := by
      rw [hl, ← h.tail]; exact hb
    have happ := circular_append (by rw [hl]; exact h.head) hn ht
    rw [hl, ← h.tail, h.bytes] at happ
    rw [List.length_append, happ]

/-- The first `n` bytes, and the buffer without them. -/
theorem represents_pop {n : Nat} {taken : Bytes} {q' : RingQueue}
    (hq : q.pop n = some (taken, q')) :
    taken = circular rb.data rb.head n ∧
      Represents { rb with head := (rb.head + n) % RBUFFER_SIZE } q' := by
  obtain ⟨hn, e⟩ := Option.ite_none_right_eq_some.mp hq
  cases e
  have hl := h.length
  refine ⟨?_, hl, Nat.mod_lt _ (by decide), ?_, ?_⟩
  · conv_lhs => rw [← h.bytes]
    exact circular_take hn
  · show rb.tail = ((rb.head + n) % RBUFFER_SIZE + (q.items.drop n).length) % RBUFFER_SIZE
    rw [h.tail, Nat.mod_add_mod, List.length_drop]
    congr 1
    omega
  · show circular rb.data ((rb.head + n) % RBUFFER_SIZE) (q.items.drop n).length = q.items.drop n
    conv_rhs => rw [← h.bytes]
    have hdrop := circular_drop (by rw [hl]; exact h.head)
      (by rw [hl]; exact q.bounded.trans (Nat.sub_le _ _)) hn
    rw [hl] at hdrop
    rw [List.length_drop, hdrop]

/-- A write in two pieces around the end is a write up to the end, and a write
at the start. -/
theorem represents_push_around {bs : Bytes} {q' : RingQueue} (hq : q.push bs = some q')
    (hb : RBUFFER_SIZE ≤ rb.tail + bs.length) :
    Represents { rb with
      data := writeAt (writeAt rb.data rb.tail (bs.take (RBUFFER_SIZE - rb.tail))) 0
        (bs.drop (RBUFFER_SIZE - rb.tail))
      tail := (rb.tail + bs.length) % RBUFFER_SIZE } q' := by
  have ht := tail_lt h
  generalize hk : RBUFFER_SIZE - rb.tail = k
  have hlen : (bs.take k).length = k := by rw [List.length_take]; omega
  have hdrop : (bs.drop k).length = bs.length - k := List.length_drop
  have hroom := (Option.dite_none_right_eq_some.mp hq).1
  rw [← List.take_append_drop k bs, Queue.push_append] at hq
  obtain ⟨q₁, hq₁, hq₂⟩ := Option.bind_eq_some_iff.mp hq
  have h₁ := represents_push h hq₁ (by omega)
  rw [hlen, show rb.tail + k = RBUFFER_SIZE by omega, Nat.mod_self] at h₁
  have h₂ := represents_push h₁ hq₂ (by
    show 0 + (bs.drop k).length ≤ RBUFFER_SIZE
    omega)
  have htail : (0 + (bs.drop k).length) % RBUFFER_SIZE = (rb.tail + bs.length) % RBUFFER_SIZE := by
    rw [hdrop, Nat.zero_add, show rb.tail + bs.length = bs.length - k + RBUFFER_SIZE by omega,
      Nat.add_mod_right]
  rw [htail] at h₂
  exact h₂

/-! ## One call -/

theorem enQeueue_simulates (data : UInt8) :
    ∃ rb', ringCall rb (.enQeueue data) = some ((queueCall q (.enQeueue data)).1, rb') ∧
      Represents rb' (queueCall q (.enQeueue data)).2 := by
  have ht : rb.tail < rb.data.length := by rw [h.length]; exact tail_lt h
  simp only [ringCall, ringBufferEnQeueue, ringBufferSize_eq h, queueCall]
  by_cases hroom : RBUFFER_SIZE - 1 < q.items.length + 1
  · rw [if_pos hroom, Queue.push_eq_none hroom]
    exact ⟨rb, rfl, h⟩
  · obtain ⟨q', hq⟩ : ∃ q', q.push [data] = some q' := Queue.push_eq_some hroom
    rw [if_neg hroom, if_pos ht, set_eq_writeAt ht, hq]
    exact ⟨_, rfl, represents_push h hq (tail_lt h)⟩

theorem dequeue_simulates (data : UInt8) :
    ∃ rb', ringCall rb (.dequeue data) = some ((queueCall q (.dequeue data)).1, rb') ∧
      Represents rb' (queueCall q (.dequeue data)).2 := by
  have hh : rb.head < rb.data.length := by rw [h.length]; exact h.head
  simp only [ringCall, ringBufferDequeue, ringBufferSize_eq h, queueCall]
  by_cases hroom : q.items.length < 1
  · rw [if_pos hroom, Queue.pop_eq_none hroom]
    exact ⟨rb, rfl, h⟩
  · obtain ⟨q', hq⟩ := Queue.pop_eq_some hroom
    obtain ⟨htaken, hr⟩ := represents_pop h hq
    have hbyte : q.items.take 1 = [rb.data[rb.head]] := by
      rw [htaken, circular_eq_readAt hh, readAt_eq _ _ _ hh, List.drop_eq_getElem_cons hh]
      rfl
    rw [if_neg hroom, hq, List.getElem?_eq_getElem hh]
    refine ⟨_, ?_, hr⟩
    show _ = some ((true, q.items.take 1), _)
    rw [hbyte]
    rfl

theorem enQeueueBulk_simulates {data : Bytes} (hs : Splits rb (.enQeueueBulk data)) :
    ∃ rb', ringCall rb (.enQeueueBulk data) = some ((queueCall q (.enQeueueBulk data)).1, rb') ∧
      Represents rb' (queueCall q (.enQeueueBulk data)).2 := by
  obtain ⟨hlong, hs⟩ := hs
  simp only [ringCall, ringBufferEnQeueueBulk, queueCall]
  rw [ringBufferSize_eq h] at hlong hs ⊢
  rw [if_neg (Int.not_lt.mpr hlong)]
  by_cases hroom : RBUFFER_SIZE - 1 < q.items.length + data.length
  · rw [if_pos hroom, Queue.push_eq_none hroom]
    exact ⟨rb, rfl, h⟩
  obtain ⟨q', hq⟩ := Queue.push_eq_some hroom
  obtain ⟨hle, hlt⟩ := hs (Nat.not_lt.mp hroom)
  have ht := tail_cases h
  have hl := h.length
  have hread : readAt data 0 data.length = data := by simp [readAt]
  rw [if_neg hroom, hq]
  by_cases hend : rb.tail + data.length < RBUFFER_SIZE
  · -- one piece
    have hp := represents_push h hq (Nat.le_of_lt hend)
    rw [Nat.mod_eq_of_lt hend] at hp ⊢
    rw [if_pos hlt, memcpy_eq (by omega) (by omega), hread]
    exact ⟨_, rfl, hp⟩
  · -- two pieces around the end
    have hmod := mod_cases (by omega : rb.tail + data.length < 2 * RBUFFER_SIZE)
    have hp := represents_push_around h hq (Nat.not_lt.mp hend)
    have hcast : (data.length : Int) - ((RBUFFER_SIZE - rb.tail : Nat) : Int) =
        ((data.length - (RBUFFER_SIZE - rb.tail) : Nat) : Int) := by omega
    rw [if_neg (by omega), memcpy_eq (by omega) (by omega), Option.bind_some, hcast,
      memcpy_eq (by rw [length_writeAt]; omega) (by omega), readAt_eq _ _ _ (by omega),
      readAt_eq _ _ _ (by omega), List.drop_zero, ← List.length_drop, List.take_length]
    exact ⟨_, rfl, hp⟩

theorem dequeueBulk_simulates {data : Bytes} (hs : Splits rb (.dequeueBulk data)) :
    ∃ rb', ringCall rb (.dequeueBulk data) = some ((queueCall q (.dequeueBulk data)).1, rb') ∧
      Represents rb' (queueCall q (.dequeueBulk data)).2 := by
  simp only [Splits, ringBufferSize_eq h] at hs
  simp only [ringCall, ringBufferDequeueBulk, queueCall]
  rw [ringBufferSize_eq h]
  by_cases hroom : q.items.length < data.length
  · rw [if_pos hroom, Queue.pop_eq_none hroom]
    exact ⟨rb, rfl, h⟩
  obtain ⟨q', hq⟩ := Queue.pop_eq_some hroom
  obtain ⟨htaken, hr⟩ := represents_pop h hq
  have hside := hs (Nat.not_lt.mp hroom)
  have ht := tail_cases h
  have hl := h.length
  have hh := h.head
  rw [if_neg hroom, hq, htaken]
  by_cases hlt : rb.head < rb.tail
  · -- one piece
    rw [Nat.mod_eq_of_lt (by omega)] at hr
    rw [if_pos hlt, memcpy_eq (by omega) (by omega), circular_eq_readAt (by omega)]
    refine ⟨_, ?_, hr⟩
    simp [writeAt]
  · -- two pieces around the end
    have hmod := mod_cases (by omega : rb.head + data.length < 2 * RBUFFER_SIZE)
    have hcast : (data.length : Int) - ((RBUFFER_SIZE - rb.head : Nat) : Int) =
        ((data.length - (RBUFFER_SIZE - rb.head) : Nat) : Int) := by omega
    rw [show (rb.head + data.length) % RBUFFER_SIZE = data.length - (RBUFFER_SIZE - rb.head) by
      omega] at hr
    rw [if_neg hlt, memcpy_eq (by omega) (by omega), Option.bind_some, hcast,
      memcpy_eq (by rw [length_writeAt]; omega) (by omega),
      circular_eq_append (by omega) (by omega), hl]
    refine ⟨_, ?_, hr⟩
    simp [writeAt]

end Call

/-! ## Every call -/

/-- A call that splits rightly is the queue's call. -/
theorem call_simulates {rb : RingBuffer} {q : RingQueue} {op : RingOp} (h : Represents rb q)
    (hs : Splits rb op) :
    ∃ rb', ringCall rb op = some ((queueCall q op).1, rb') ∧ Represents rb' (queueCall q op).2 :=
  match op with
  | .enQeueue data => enQeueue_simulates h data
  | .enQeueueBulk _ => enQeueueBulk_simulates h hs
  | .dequeue data => dequeue_simulates h data
  | .dequeueBulk _ => dequeueBulk_simulates h hs

/-- Every other call copies more bytes than its caller's array has, or adds up
to more than a `long` holds. -/
theorem call_undefined {rb : RingBuffer} {q : RingQueue} {op : RingOp} (h : Represents rb q)
    (hs : ¬ Splits rb op) : ringCall rb op = none := by
  have ht := tail_cases h
  have hh := h.head
  cases op with
  | enQeueue | dequeue => exact absurd trivial hs
  | enQeueueBulk data =>
    simp only [ringCall, ringBufferEnQeueueBulk]
    by_cases hlong : LONG_MAX < ringBufferSize rb + data.length
    · rw [if_pos hlong]
      rfl
    · obtain ⟨hroom, hs⟩ := Classical.not_imp.mp fun hs' => hs ⟨Int.not_lt.mp hlong, hs'⟩
      rw [ringBufferSize_eq h] at hroom
      have hmod : (rb.tail + data.length) % RBUFFER_SIZE = rb.tail + data.length :=
        Nat.mod_eq_of_lt (by omega)
      rw [if_neg hlong, ringBufferSize_eq h, if_neg (Nat.not_lt.mpr hroom), hmod, if_neg (by omega),
        memcpy, if_neg (by omega)]
      rfl
  | dequeueBulk data =>
    simp only [Splits, Classical.not_imp, ringBufferSize_eq h, not_or] at hs
    simp only [ringCall, ringBufferDequeueBulk]
    rw [ringBufferSize_eq h, if_neg (Nat.not_lt.mpr hs.1), if_neg hs.2.1, memcpy, if_neg (by omega)]
    rfl

/-- A failed call changes neither the buffer nor its caller's array. -/
theorem call_failed {rb rb' : RingBuffer} {op : RingOp} {data : Bytes}
    (h : ringCall rb op = some ((false, data), rb')) : rb' = rb ∧ data = op.array := by
  cases op with
  | enQeueue x =>
    obtain ⟨r, hr, e⟩ := Option.map_eq_some_iff.mp h
    unfold ringBufferEnQeueue at hr
    split at hr
    · cases hr
      cases e
      exact ⟨rfl, rfl⟩
    · split at hr <;> cases hr
      cases e
  | enQeueueBulk x =>
    obtain ⟨r, hr, e⟩ := Option.map_eq_some_iff.mp h
    unfold ringBufferEnQeueueBulk at hr
    dsimp only at hr
    split at hr
    · cases hr
    split at hr
    · cases hr
      cases e
      exact ⟨rfl, rfl⟩
    split at hr
    · obtain ⟨ring, -, rfl⟩ := Option.map_eq_some_iff.mp hr
      cases e
    · obtain ⟨ring, -, hr⟩ := Option.bind_eq_some_iff.mp hr
      obtain ⟨ring, -, rfl⟩ := Option.map_eq_some_iff.mp hr
      cases e
  | dequeue x =>
    obtain ⟨r, hr, e⟩ := Option.map_eq_some_iff.mp h
    unfold ringBufferDequeue at hr
    split at hr
    · cases hr
      cases e
      exact ⟨rfl, rfl⟩
    · obtain ⟨byte, -, rfl⟩ := Option.map_eq_some_iff.mp hr
      cases e
  | dequeueBulk x =>
    obtain ⟨r, hr, e⟩ := Option.map_eq_some_iff.mp h
    unfold ringBufferDequeueBulk at hr
    dsimp only at hr
    split at hr
    · cases hr
      cases e
      exact ⟨rfl, rfl⟩
    split at hr
    · obtain ⟨array, -, rfl⟩ := Option.map_eq_some_iff.mp hr
      cases e
    · obtain ⟨array, -, hr⟩ := Option.bind_eq_some_iff.mp hr
      obtain ⟨array, -, rfl⟩ := Option.map_eq_some_iff.mp hr
      cases e

/-- **The ring buffer is a queue of 1023 bytes while its bulk copies split
rightly.** A run is defined, with every copy inside its arrays, and gives the
queue's results iff each of its calls `Splits`. A failed call changes nothing. -/
theorem ringBuffer_ok (ops : List RingOp) :
    ((∃ rb, run ringCall ringBufferCreate ops = some ((runTotal queueCall Queue.empty ops).1, rb) ∧
        Represents rb (runTotal queueCall Queue.empty ops).2) ↔
      Along ringCall Splits ringBufferCreate ops) ∧
    ∀ rb op data rb', ringCall rb op = some ((false, data), rb') → rb' = rb ∧ data = op.array := by
  refine ⟨⟨fun ⟨rb, e, _⟩ => ?_, fun h => ?_⟩, fun _ _ _ _ h => call_failed h⟩
  · refine run_along (I := fun rb => ∃ q, Represents rb q) ?_ ops ⟨_, represents_create⟩ e
    intro rb op r rb' ⟨q, hq⟩ e
    have hs : Splits rb op := by
      by_contra hs
      rw [call_undefined hq hs] at e
      cases e
    obtain ⟨rb₁, e₁, h₁⟩ := call_simulates hq hs
    rw [e₁] at e
    cases e
    exact ⟨hs, _, h₁⟩
  · exact run_simulates (fun _ _ _ => call_simulates) ops represents_create h

/-- Bytes that go around the end, and a buffer that has not that many. -/
theorem ringBuffer_around :
    (∃ rb, run ringCall ringBufferCreate
        [.enQeueueBulk (List.replicate 1000 1), .dequeueBulk (List.replicate 1000 0),
          .enQeueueBulk (List.replicate 50 2), .dequeueBulk (List.replicate 40 0)] =
      some ([(true, List.replicate 1000 1), (true, List.replicate 1000 1),
        (true, List.replicate 50 2), (true, List.replicate 40 2)], rb)) ∧
    ∀ data rb', ringCall ringBufferCreate (.dequeue 7) = some ((false, data), rb') →
      rb' = ringBufferCreate ∧ data = [7] := by
  refine ⟨?_, fun data rb' h => (ringBuffer_ok []).2 _ _ _ _ h⟩
  obtain ⟨rb, e, -⟩ := (ringBuffer_ok [.enQeueueBulk (List.replicate 1000 1),
    .dequeueBulk (List.replicate 1000 0), .enQeueueBulk (List.replicate 50 2),
    .dequeueBulk (List.replicate 40 0)]).1.mpr (by decide +kernel)
  refine ⟨rb, e.trans ?_⟩
  have : (runTotal queueCall Queue.empty [.enQeueueBulk (List.replicate 1000 1),
      .dequeueBulk (List.replicate 1000 0), .enQeueueBulk (List.replicate 50 2),
      .dequeueBulk (List.replicate 40 0)]).1 =
    [(true, List.replicate 1000 1), (true, List.replicate 1000 1), (true, List.replicate 50 2),
      (true, List.replicate 40 2)] := by decide +kernel
  rw [this]

/-- One byte more, into a buffer whose bytes go around the end: the queue takes
it, and the call copies 998 bytes out of an array of one. -/
theorem ringBuffer_overread :
    run ringCall ringBufferCreate
        [.enQeueueBulk (List.replicate 1000 1), .dequeueBulk (List.replicate 1000 0),
          .enQeueueBulk (List.replicate 50 2), .enQeueueBulk [3]] = none ∧
    (runTotal queueCall Queue.empty
        [.enQeueueBulk (List.replicate 1000 1), .dequeueBulk (List.replicate 1000 0),
          .enQeueueBulk (List.replicate 50 2), .enQeueueBulk [3]]).1.map Prod.fst =
      [true, true, true, true] := by
  decide +kernel

end Fedis.Proof.RingBuffer
