import Fedis.Framework.Frames
import Fedis.Proof.Pair.Call

/-!
# Messages between the two

What goes over the connection in either direction: requests, and lines. They are told apart
whatever follows (`messages`), and a read that gets one whole message runs the request
(`read_call`) or passes the line over (`read_line`).
-/

namespace Fedis.Proof.Pair

open Framework Resp Server

variable {env : Env} {s s' t : RedisServer} {c x : ClientId} {q : List Bytes} {l : Bytes}

/-- A line without its end, or a request. -/
inductive Message where
  | line (l : Bytes)
  | request (q : List Bytes)
deriving DecidableEq

namespace Message

def bytes : Message → Bytes
  | line l => l ++ crlf
  | request q => respEncodeArrayString q

/-- A line is none that starts a request. -/
def Valid : Message → Prop
  | line l => l ≠ [] ∧ l.head? ≠ some 42 ∧ ∀ b ∈ l, b ≠ 0 ∧ b ≠ 10
  | request q => Request q

end Message

theorem takeWhile_line (h : ∀ b ∈ l, b ≠ 10) (r : Bytes) :
    (l ++ crlf ++ r).takeWhile (· ≠ 10) = l ++ [13] := by
  have hl : ∀ b ∈ l, decide (b ≠ 10) = true := fun b hb => decide_eq_true (h b hb)
  rw [List.append_assoc, List.takeWhile_append_of_pos hl]
  rfl

theorem encode_head (q : List Bytes) : ∃ w, respEncodeArrayString q = 42 :: w := ⟨_, rfl⟩

theorem messages : PrefixFree Message.Valid Message.bytes where
  ne_nil
    | .line l, h => fun e => h.1 (List.append_eq_nil_iff.mp e).1
    | .request q, _ => encode_ne_nil q
  unique := by
    -- a request starts with `*`, a line does not
    have apart : ∀ {l r r' : Bytes} {q}, Message.Valid (.line l) →
        ¬ l ++ crlf ++ r = respEncodeArrayString q ++ r' := fun {l r r' q} hl e => by
      obtain ⟨b, l, rfl⟩ := List.exists_cons_of_ne_nil hl.1
      obtain ⟨w, hw⟩ := encode_head q
      rw [hw] at e
      exact hl.2.1 (congrArg some (List.cons.inj e).1)
    intro a b r r' ha hb e
    cases a with
    | line l =>
      cases b with
      | line l' =>
        have h := congrArg (List.takeWhile (· ≠ 10)) e
        dsimp only [Message.bytes] at h
        rw [takeWhile_line fun b hb => (ha.2.2 b hb).2, takeWhile_line fun b hb' => (hb.2.2 b hb').2] at h
        rw [List.append_cancel_right h]
      | request q => exact absurd e (apart ha)
    | request q =>
      cases b with
      | line l => exact absurd e.symm (apart hb)
      | request q' =>
        have h := respDecode_encode ha r
        have e : respEncodeArrayString q ++ r = respEncodeArrayString q' ++ r' := e
        rw [e, respDecode_encode hb r'] at h
        rw [Decoded.ok.inj h]

/-! ## Buffers -/

theorem cstr_zeros (n : Nat) : cstr (List.replicate n 0) = [] := by
  cases n <;> rfl

/-- The C string of a buffer with zeros behind what it holds. -/
theorem cstr_buf {ss : Sds} (h : Zeroed ss) (hz : ∀ b ∈ ss.content, b ≠ 0) :
    cstr ss.buf = ss.content := by
  have hle : ss.len ≤ ss.buf.length := by
    by_contra hlt
    refine hz 0 (List.mem_append_right _ (List.mem_replicate.mpr ⟨?_, rfl⟩)) rfl
    omega
  have hcontent : ss.content = ss.buf.take ss.len := by
    rw [Sds.content, readAt_eq _ _ _ (by omega), List.drop_zero]
  have hzeros : ss.buf.drop ss.len = List.replicate (ss.buf.length - ss.len) 0 := by
    refine bytes_ext (by simp) fun j _ => ?_
    rw [getD_zeros, List.getD_eq_getElem?_getD, List.getElem?_drop, ← List.getD_eq_getElem?_getD]
    exact h _ (Nat.le_add_right _ _)
  calc cstr ss.buf = cstr (ss.content ++ ss.buf.drop ss.len) := by
        rw [hcontent, List.take_append_drop]
    _ = ss.content := by
        rw [cstr_append hz, hzeros, cstr_zeros, List.append_nil]

theorem cstr_line (h : Message.Valid (.line l)) : cstr (l ++ crlf) = l ++ crlf := by
  refine cstr_eq_self fun b hb => ?_
  obtain hb | hb := List.mem_append.mp hb
  · exact (h.2.2 b hb).1
  · exact (by decide +kernel : ∀ b ∈ crlf, b ≠ 0) b hb

/-! ## Reads -/

/-- The only request of a read runs. -/
theorem read_call (hr : Request q) (hl : (s.client c).readBuf.len = 0)
    (hm : (s.client c).flags.multi = false)
    (h : readFromClient env s c (respEncodeArrayString q) = .ok s') :
    ∃ t, processCommand (processClientQueryBuf env 11) env
        (received s c (respEncodeArrayString q)) c q = .ok t ∧ s' = clearReadBuf t c := by
  have hlen : (respEncodeArrayString q).length < 1024 := by
    obtain ⟨hnil, -⟩ | ⟨-, hlen, -⟩ := readFromClient_ok.mp h
    · exact absurd hnil (encode_ne_nil q)
    · rwa [cstr_eq_self (encode_ne_zero q)] at hlen
  obtain ⟨t, ⟨hq, -⟩ | ⟨-, ht⟩, rfl⟩ := (read_request hr hlen hl).mp h
  · exact absurd hq (not_queues hm)
  · exact ⟨t, ht, rfl⟩

/-- A line is passed over. -/
theorem read_line (hv : Message.Valid (.line l)) (hl : (s.client c).readBuf.len = 0)
    (h : readFromClient env s c (l ++ crlf) = .ok s') :
    s' = clearReadBuf (received s c (l ++ crlf)) c := by
  obtain ⟨hnil, -⟩ | ⟨-, -, t, ht, rfl⟩ := readFromClient_ok.mp h
  · exact absurd hnil (messages.ne_nil (.line l) hv)
  obtain ⟨b, l, rfl⟩ := List.exists_cons_of_ne_nil hv.1
  have hdec : respDecode (sdsdump ((received s c (b :: l ++ crlf)).client c).readBuf).buf = .err := by
    obtain ⟨m, hm⟩ := sdsdump_buf ((received s c (b :: l ++ crlf)).client c).readBuf
    rw [hm, received_content hl, cstr_line hv]
    exact decode_other (fun e => hv.2.1 (congrArg some e)) _
  obtain ⟨-, rfl⟩ | ⟨q, hq, -⟩ := processClientQueryBuf_ok.mp ht
  · rfl
  · rw [hdec] at hq
    cases hq

end Fedis.Proof.Pair
