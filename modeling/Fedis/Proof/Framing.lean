import Fedis.Proof.Resp

/-!
# How a stream of requests may be cut

`resp_decode` looks at the start of one read and at nothing else. Behind the bytes
of a read stand zeros here.

* `decode_first`: a read that starts with a request and holds all of it, or all
  but its last line end, is decoded to it;
* `decode_short`: one that holds less is not, and neither is one that starts
  inside the request (`decode_shifted`);
* `cut_framed`: so reads that together hold a stream of requests, and are decoded
  to just these, are cut at the starts of the requests.
-/

namespace Fedis.Proof.Resp

open Framework

variable {argv args q : List Bytes} {qs : List (List Bytes)} {w m t : Bytes} {n k : Nat}

/-! ## Streams -/

/-- A request as an array of bulk strings. -/
def encodeRequest (argv : List Bytes) : Bytes :=
  42 :: decimal argv.length ++ crlf ++ argv.flatMap bulkString

/-- No argument has a NUL in it. -/
def NulFree (argv : List Bytes) : Prop := ∀ arg ∈ argv, ∀ b ∈ arg, b ≠ 0

/-- The program's own encoder agrees. -/
theorem encodeRequest_eq (hz : NulFree argv) : encodeRequest argv = respEncodeArrayString argv := by
  have : ∀ {args : List Bytes}, NulFree args →
      args.flatMap bulkString = args.flatMap fun arg => respEncodeArg arg ++ crlf := by
    intro args hz
    induction args with
    | nil => rfl
    | cons arg args ih =>
      rw [List.flatMap_cons, List.flatMap_cons, ih fun a ha => hz a (List.mem_cons_of_mem _ ha),
        bulkString, respEncodeArg, cstr_eq_self (hz arg List.mem_cons_self)]
  rw [encodeRequest, respEncodeArrayString, this hz]

/-- The chunks are groups, one for each request: its bytes, all but the last two
of them, at most, in the first chunk, and no others. -/
inductive Framed : List (List Bytes) → List Bytes → Prop
  | nil : Framed [] []
  | request (q : List Bytes) (qs : List (List Bytes)) (first : Bytes) (pieces rest : List Bytes)
      (hz : NulFree q) (hbytes : first ++ pieces.flatten = encodeRequest q)
      (hall : (encodeRequest q).length ≤ first.length + 2) (hfit : first.length < 1024)
      (h : Framed qs rest) : Framed (q :: qs) (first :: (pieces ++ rest))

/-- Decoded one by one, in front of zeros, the chunks give these requests. -/
inductive Cut : List Bytes → List (List Bytes) → Prop
  | nil : Cut [] []
  | skip (r : Bytes) (rs : List Bytes) (qs : List (List Bytes)) (n : Nat)
      (hd : respDecode (r ++ List.replicate n 0) = .err) (h : Cut rs qs) : Cut (r :: rs) qs
  | hand (r : Bytes) (rs : List Bytes) (q : List Bytes) (qs : List (List Bytes)) (n : Nat)
      (hd : respDecode (r ++ List.replicate n 0) = .ok q) (h : Cut rs qs) : Cut (r :: rs) (q :: qs)

/-! ## Taking a decoding apart -/

/-- A line: its bytes, none of them a line end or a NUL, and the line end. -/
theorem afterNewline_some {p p' : Bytes} (h : afterNewline p = some p') :
    ∃ line, p = line ++ 10 :: p' ∧ ∀ b ∈ line, b ≠ 0 := by
  induction p with
  | nil => cases h
  | cons b p ih =>
    rw [afterNewline] at h
    split at h
    · cases h
    · split at h
      · rename_i hb
        cases h
        exact ⟨[], by rw [hb]; rfl, List.forall_mem_nil _⟩
      · obtain ⟨line, rfl, hl⟩ := ih h
        refine ⟨b :: line, rfl, fun c hc => ?_⟩
        rcases List.mem_cons.mp hc with rfl | hc
        · assumption
        · exact hl c hc

theorem respDecodeArgs_cons (h : respDecodeArgs (n + 1) m = .ok args) :
    ∃ p p' a as, m = 36 :: p ∧ afterNewline p = some p' ∧ a <+: p' ∧ args = a :: as ∧
      respDecodeArgs n (p'.drop (a.length + 2)) = .ok as := by
  cases m with
  | nil => cases h
  | cons c p =>
    rw [respDecodeArgs] at h
    split at h
    · cases h
    · rename_i hc
      obtain rfl : c = 36 := by simpa using hc
      split at h
      · rename_i len p' _ hp
        split at h
        · cases h
        · rename_i hlen
          have hl : (p'.take len.toNat).length = len.toNat := by
            rw [List.length_take]
            omega
          split at h
          · rename_i as has
            cases h
            exact ⟨p, p', _, as, rfl, hp, List.take_prefix _ _, rfl, by rw [hl]; exact has⟩
          · rename_i hr
            exact absurd h (hr args)
      · cases h

theorem respDecodeArgs_length (h : respDecodeArgs n m = .ok args) :
    args.length = n := by
  induction n generalizing m args with
  | zero =>
    cases h
    rfl
  | succ n ih =>
    obtain ⟨p, p', a, as, -, -, -, rfl, has⟩ := respDecodeArgs_cons h
    rw [List.length_cons, ih has]

theorem respDecode_cons (hne : q ≠ []) (h : respDecode m = .ok q) :
    ∃ p p', m = 42 :: p ∧ afterNewline p = some p' ∧ respDecodeArgs q.length p' = .ok q := by
  cases m with
  | nil => cases h
  | cons c p =>
    rw [respDecode] at h
    split at h
    · cases h
    · rename_i hc
      obtain rfl : c = 42 := by simpa using hc
      split at h
      · cases h
      · rename_i argc _
        split at h
        · cases h
          exact absurd rfl hne
        · split at h
          · cases h
          · rename_i p' hp
            exact ⟨p, p', rfl, hp, by rw [respDecodeArgs_length h]; exact h⟩

/-! ## Zeros behind the bytes -/

/-- What has no NUL and starts with the bytes and zeros, starts with bytes. -/
theorem prefix_of_zeros {u : Bytes} (hu : ∀ b ∈ u, b ≠ 0) (h : u <+: w ++ List.replicate n 0) :
    u <+: w := by
  rcases Nat.lt_or_ge w.length u.length with hlt | hle
  · obtain ⟨t, ht⟩ := h
    have hget : u[w.length]? = (w ++ List.replicate n 0)[w.length]? := by
      rw [← ht, List.getElem?_append_left hlt]
    rw [List.getElem?_append_right (Nat.le_refl _), Nat.sub_self, List.getElem?_eq_getElem hlt] at hget
    have hb := List.mem_of_getElem? hget.symm
    exact absurd (List.eq_of_mem_replicate hb) (hu _ (List.getElem_mem hlt))
  · exact List.prefix_of_prefix_length_le h (List.prefix_append _ _) hle

theorem respDecodeArgs_zeros : respDecodeArgs (n + 1) (List.replicate k 0) ≠ .ok args := by
  intro h
  obtain ⟨p, -, -, -, e, -⟩ := respDecodeArgs_cons h
  cases k with
  | zero => cases e
  | succ k => cases e

/-- Behind the bytes are only zeros. -/
theorem drop_zeros (h : w.length ≤ k) :
    (w ++ List.replicate n 0).drop k = List.replicate (n - (k - w.length)) (0 : UInt8) := by
  rw [List.drop_append, List.drop_eq_nil_of_le h, List.nil_append, List.drop_replicate]

theorem drop_bytes (h : k ≤ w.length) :
    (w ++ List.replicate n 0).drop k = w.drop k ++ List.replicate n (0 : UInt8) :=
  List.drop_append_of_le_length h

/-! ## A read that holds less than a request -/

theorem decimal_ne_star {b : UInt8} (h : b ∈ decimal n) : b ≠ 36 ∧ b ≠ 42 := by
  have all : ∀ b : Fin 256, isDigitOf 10 (UInt8.ofFin b) = true →
      UInt8.ofFin b ≠ 36 ∧ UInt8.ofFin b ≠ 42 := by decide +kernel
  exact all b.toFin ((decimal_spec n).1 b h)

/-- A line that is not all there has no end. -/
theorem afterNewline_short {u : Bytes} (hu : ∀ b ∈ u, b ≠ 10) :
    afterNewline (u ++ List.replicate n 0) = none := by
  cases h : afterNewline (u ++ List.replicate n 0) with
  | none => rfl
  | some p =>
    obtain ⟨line, e, -⟩ := afterNewline_some h
    have hmem : (10 : UInt8) ∈ u ++ List.replicate n 0 := by rw [e]; simp
    rcases List.mem_append.mp hmem with h10 | h10
    · exact absurd rfl (hu 10 h10)
    · exact absurd (List.eq_of_mem_replicate h10) (by decide)

/-- A line of a number, and what follows it, of which a read holds a part. -/
theorem line_short {c : UInt8} {X p p' : Bytes} {j : Nat}
    (hw : w <+: c :: decimal j ++ crlf ++ X) (hp : w ++ List.replicate n 0 = c :: p) (hc : c ≠ 0)
    (h : afterNewline p = some p') :
    ∃ w₂, w = c :: decimal j ++ crlf ++ w₂ ∧ w₂ <+: X ∧ p' = w₂ ++ List.replicate n 0 := by
  have hline : ∀ b ∈ decimal j, b ≠ 0 ∧ b ≠ 10 := fun b hb => decimal_ne hb
  obtain ⟨w₁, rfl⟩ : ∃ w₁, w = c :: w₁ := by
    cases w with
    | nil =>
      cases n with
      | zero => cases hp
      | succ n =>
        rw [List.nil_append, List.replicate_succ] at hp
        exact absurd (List.cons.inj hp).1.symm hc
    | cons b w₁ => exact ⟨w₁, by rw [(List.cons.inj hp).1]⟩
  obtain rfl : w₁ ++ List.replicate n 0 = p := (List.cons.inj hp).2
  rw [List.cons_append, List.cons_append, List.cons_prefix_cons] at hw
  have hw := hw.2
  rcases List.prefix_or_prefix_of_prefix hw (List.prefix_append (decimal j ++ crlf) X) with hpre | hpre
  · -- the line is cut, or the read ends with it
    rcases hpre.length_le.lt_or_eq with hlt | heq
    · have hsub : w₁ <+: decimal j ++ [13] := by
        refine List.prefix_of_prefix_length_le hpre ⟨[10], by simp [crlf]⟩ ?_
        simp only [List.length_append, crlf, List.length_cons, List.length_nil] at hlt ⊢
        omega
      rw [afterNewline_short fun b hb => ?_] at h
      · cases h
      · rcases List.mem_append.mp (hsub.subset hb) with hb | hb
        · exact (hline b hb).2
        · rw [List.mem_singleton.mp hb]
          decide
    · obtain rfl := hpre.eq_of_length heq
      rw [afterNewline_append hline] at h
      cases h
      exact ⟨[], by simp, List.nil_prefix, rfl⟩
  · obtain ⟨w₂, rfl⟩ := hpre
    rw [List.append_assoc, afterNewline_append hline] at h
    cases h
    exact ⟨w₂, by simp, (List.prefix_append_right_inj _).mp hw, rfl⟩

theorem decodeArgs_short (hne : args ≠ []) (hz : NulFree args) (hw : w <+: args.flatMap bulkString)
    (hlt : w.length + 2 < (args.flatMap bulkString).length) :
    respDecodeArgs args.length (w ++ List.replicate n 0) ≠ .ok args := by
  induction args generalizing w n with
  | nil => exact absurd rfl hne
  | cons a as ih =>
    intro h
    obtain ⟨p, p', a', as', hp, hnl, hpre, e, hrest⟩ := respDecodeArgs_cons h
    cases e
    have hza := hz a List.mem_cons_self
    rw [List.flatMap_cons, bulkString, List.append_assoc, List.append_assoc] at hw hlt
    obtain ⟨w₂, rfl, hw₂, rfl⟩ := line_short hw hp (by decide) hnl
    obtain ⟨w₃, rfl⟩ := prefix_of_zeros hza hpre
    have hw₃ : w₃ <+: crlf ++ as.flatMap bulkString := (List.prefix_append_right_inj _).mp hw₂
    rw [List.append_assoc, ← List.drop_drop, List.drop_left] at hrest
    cases as with
    | nil =>
      simp [crlf] at hlt
      omega
    | cons b bs =>
      rcases Nat.lt_or_ge w₃.length 2 with hlt₃ | hge
      · rw [drop_zeros (by omega)] at hrest
        exact respDecodeArgs_zeros hrest
      · obtain ⟨w₄, rfl⟩ := List.prefix_of_prefix_length_le (List.prefix_append crlf _) hw₃ hge
        rw [drop_bytes hge] at hrest
        refine ih (by simp) (fun x hx => hz x (List.mem_cons_of_mem _ hx))
          ((List.prefix_append_right_inj _).mp hw₃) ?_ hrest
        simp only [List.length_append, List.length_cons] at hlt ⊢
        omega

theorem decode_short (hne : q ≠ []) (hz : NulFree q) (hw : w <+: encodeRequest q)
    (hlt : w.length + 2 < (encodeRequest q).length) :
    respDecode (w ++ List.replicate n 0) ≠ .ok q := by
  intro h
  obtain ⟨p, p', hp, hnl, hargs⟩ := respDecode_cons hne h
  obtain ⟨w₂, rfl, hw₂, rfl⟩ := line_short hw hp (by decide) hnl
  refine decodeArgs_short hne hz hw₂ ?_ hargs
  simp only [encodeRequest, List.length_append] at hlt ⊢
  omega

/-! ## A read that starts inside a request -/

/-- A part of a stream that starts inside it, at a line of which the first byte is
not to be found in the stream's own first line: the line takes two bytes or more. -/
theorem line_shifted {c : UInt8} {X L p p' : Bytes} {d : Nat} (hc : c ≠ 0) (hL : c ∉ L.tail)
    (hd : 0 < d) (hw : w <+: (L ++ X).drop d) (hp : w ++ List.replicate n 0 = c :: p)
    (h : afterNewline p = some p') :
    ∃ line w₂, w = c :: line ++ 10 :: w₂ ∧ w₂ <+: X.drop (d - L.length + line.length + 2) ∧
      p' = w₂ ++ List.replicate n 0 ∧ L.length ≤ d := by
  obtain ⟨line, rfl, hline⟩ := afterNewline_some h
  have hpre : c :: line ++ [10] <+: w ++ List.replicate n 0 := ⟨p', by rw [hp]; simp⟩
  obtain ⟨w₂, rfl⟩ := prefix_of_zeros (fun b hb => by
    simp only [List.cons_append, List.mem_cons, List.mem_append, List.not_mem_nil, or_false] at hb
    rcases hb with rfl | hb | rfl
    · exact hc
    · exact hline b hb
    · decide) hpre
  have hp' : p' = w₂ ++ List.replicate n 0 := by
    simpa using hp.symm
  have hlen : L.length ≤ d := by
    by_contra hlt
    obtain ⟨x, L', rfl⟩ : ∃ x L', L = x :: L' := List.exists_cons_of_ne_nil (by rintro rfl; simp at hlt)
    obtain ⟨d, rfl⟩ : ∃ e, d = e + 1 := ⟨d - 1, by omega⟩
    obtain ⟨t, ht⟩ := hw
    have hget := congrArg (·[0]?) ht
    rw [show x :: L' ++ X = x :: (L' ++ X) from rfl, List.drop_succ_cons, List.getElem?_drop] at hget
    have hlt : d < L'.length := by simpa using hlt
    rw [Nat.add_zero, List.getElem?_append_left hlt] at hget
    exact hL (List.mem_of_getElem? hget.symm)
  refine ⟨line, w₂, by simp, ?_, hp', hlen⟩
  rw [List.drop_append, List.drop_eq_nil_of_le hlen, List.nil_append] at hw
  obtain ⟨t, ht⟩ := hw
  refine ⟨t, ?_⟩
  have hdrop := congrArg (List.drop (c :: line ++ [10]).length) ht
  rw [List.append_assoc, List.drop_left, List.drop_drop] at hdrop
  rw [hdrop]
  congr 1
  simp
  omega

/-- A word between two letters is not the same word before two others. -/
theorem count_ne (a : Bytes) : 36 :: 10 :: a ≠ a ++ crlf := by
  intro e
  have := congrArg (List.count 13) e
  rw [List.count_append, List.count_cons_of_ne (by decide), List.count_cons_of_ne (by decide)] at this
  have h13 : List.count 13 crlf = 1 := by decide
  omega

theorem dollar_notMem (n : Nat) : (36 : UInt8) ∉ (36 :: decimal n ++ crlf).tail := by
  rw [List.cons_append, List.tail_cons, List.mem_append]
  rintro (h | h)
  · exact (decimal_ne_star h).1 rfl
  · exact absurd h (by decide)

theorem star_notMem (n : Nat) : (42 : UInt8) ∉ (42 :: decimal n ++ crlf).tail := by
  rw [List.cons_append, List.tail_cons, List.mem_append]
  rintro (h | h)
  · exact (decimal_ne_star h).2 rfl
  · exact absurd h (by decide)

theorem decodeArgs_shifted {d : Nat} (hne : args ≠ []) (hz : NulFree args) (hd : 0 < d)
    (hw : w <+: (args.flatMap bulkString).drop d) :
    respDecodeArgs args.length (w ++ List.replicate n 0) ≠ .ok args := by
  induction args generalizing w n d with
  | nil => exact absurd rfl hne
  | cons a as ih =>
    intro h
    obtain ⟨p, p', a', as', hp, hnl, hpre, e, hrest⟩ := respDecodeArgs_cons h
    cases e
    rw [List.flatMap_cons, bulkString, List.append_assoc, List.append_assoc] at hw
    obtain ⟨line, w₂, rfl, hw₂, rfl, hlen⟩ :=
      line_shifted (by decide) (dollar_notMem _) hd hw hp hnl
    -- the argument stands two bytes or more behind its place
    generalize he : d - (36 :: decimal a.length ++ crlf).length + line.length + 2 = e at hw₂
    obtain ⟨w₃, rfl⟩ := prefix_of_zeros (hz a List.mem_cons_self) hpre
    have hw₃ : w₃ <+: (as.flatMap bulkString).drop (e - 2) := by
      obtain ⟨t, ht⟩ := hw₂
      refine ⟨t, ?_⟩
      have hdrop := congrArg (List.drop a.length) ht
      rw [List.append_assoc, List.drop_left, List.drop_drop, Nat.add_comm, ← List.drop_drop,
        List.drop_left, ← Nat.add_sub_cancel' (show 2 ≤ e by omega), ← List.drop_drop] at hdrop
      exact hdrop
    rw [List.append_assoc, ← List.drop_drop, List.drop_left] at hrest
    cases as with
    | nil =>
      have hnil : w₃ = [] := by simpa using hw₃
      subst hnil
      have hl := hw.length_le
      simp only [List.flatMap_nil, List.append_nil, List.length_append, List.length_drop, crlf,
        List.length_cons, List.length_nil] at hl hlen
      obtain rfl : line = [] := List.length_eq_zero_iff.mp (by omega)
      have hd' : d = (36 :: decimal a.length ++ crlf).length := by
        simp only [List.length_append, crlf, List.length_cons, List.length_nil]
        omega
      rw [hd', List.drop_left, List.flatMap_nil, List.append_nil, List.append_nil] at hw
      exact count_ne a (hw.eq_of_length (by simp [crlf]))
    | cons b bs =>
      rcases Nat.lt_or_ge w₃.length 2 with hlt₃ | hge
      · rw [drop_zeros (by omega)] at hrest
        exact respDecodeArgs_zeros hrest
      · rw [drop_bytes hge] at hrest
        refine ih (d := e) (by simp) (fun x hx => hz x (List.mem_cons_of_mem _ hx)) (by omega) ?_ hrest
        obtain ⟨t, ht⟩ := hw₃
        refine ⟨t, ?_⟩
        have hdrop := congrArg (List.drop 2) ht
        rw [List.drop_append_of_le_length hge, List.drop_drop] at hdrop
        rw [hdrop]
        congr 1
        omega

theorem decode_shifted {d : Nat} (hne : q ≠ []) (hz : NulFree q) (hd : 0 < d)
    (hw : w <+: (encodeRequest q).drop d) : respDecode (w ++ List.replicate n 0) ≠ .ok q := by
  intro h
  obtain ⟨p, p', hp, hnl, hargs⟩ := respDecode_cons hne h
  obtain ⟨line, w₂, -, hw₂, rfl, -⟩ := line_shifted (by decide) (star_notMem _) hd hw hp hnl
  exact decodeArgs_shifted hne hz (by omega) hw₂ hargs

/-! ## Reads of a stream -/

/-- A read that starts with a request and misses its last line end at most. -/
theorem decode_first (hr : Request q) (hw : w <+: encodeRequest q)
    (hall : (encodeRequest q).length ≤ w.length + 2) (t : Bytes) : respDecode (w ++ t) = .ok q := by
  have hbody : encodeBody q ++ crlf = encodeRequest q := by
    rw [encodeBody_append_crlf hr.ne_nil, encodeRequest_eq hr.cstr]
  have hlen := congrArg List.length hbody
  rw [List.length_append, show crlf.length = 2 from rfl] at hlen
  obtain ⟨x, rfl⟩ := List.prefix_of_prefix_length_le ⟨crlf, hbody⟩ hw (by omega)
  rw [List.append_assoc]
  exact respDecode_body hr _

theorem decode_other {b : UInt8} (hb : b ≠ 42) (m : Bytes) : respDecode (b :: m) = .err := if_pos hb

/-- The end of a request. -/
theorem encodeRequest_end (hne : q ≠ []) {u l : Bytes} (h : u ++ l = encodeRequest q)
    (hl : l.length ≤ 2) : l = [] ∨ l = [10] ∨ l = crlf := by
  obtain ⟨front, last, rfl⟩ := List.eq_nil_or_concat q |>.resolve_left hne
  have hsuf : crlf <:+ encodeRequest (front.concat last) := by
    refine ⟨42 :: decimal (front.concat last).length ++ crlf ++ (front.flatMap bulkString ++
      (36 :: decimal last.length ++ crlf ++ last)), ?_⟩
    simp [encodeRequest, bulkString]
  have hl' : l <:+ crlf := List.suffix_of_suffix_length_le ⟨u, h⟩ hsuf hl
  obtain ⟨v, hv⟩ := hl'
  match l, hv with
  | [], _ => exact .inl rfl
  | [b], hv =>
    have := congrArg List.getLast? hv
    simp [crlf] at this
    exact .inr (.inl (by rw [this]))
  | [b, c], hv =>
    have : v = [] := List.length_eq_zero_iff.mp (by
      have := congrArg List.length hv
      simp only [List.length_append, crlf, List.length_cons, List.length_nil] at this
      omega)
    rw [this] at hv
    exact .inr (.inr hv)
  | _ :: _ :: _ :: _, _ => simp at hl

variable {chunks : List Bytes}

theorem flatMap_drop {δ : Nat} {r rest : Bytes} {S : Bytes} (h : r ++ rest = S.drop δ) :
    rest = S.drop (δ + r.length) := by
  rw [← List.drop_drop, ← h, List.drop_left]

/-- Reads that start inside a request do not give the requests. -/
theorem cut_shifted (h : Cut chunks qs) (hqs : qs ≠ []) (hq : ∀ q ∈ qs, q ≠ [] ∧ NulFree q)
    {d : Nat} (hd : 0 < d) (hcat : chunks.flatten = (qs.flatMap encodeRequest).drop d) : False := by
  induction h generalizing d with
  | nil => exact hqs rfl
  | skip r rs qs n _ _ ih =>
    rw [List.flatten_cons] at hcat
    exact ih hqs hq (by omega) (flatMap_drop hcat)
  | hand r rs q qs n hr _ ih =>
    obtain ⟨hne, hz⟩ := hq q List.mem_cons_self
    rw [List.flatten_cons, List.flatMap_cons] at hcat
    rcases (Nat.lt_or_ge (encodeRequest q).length (d + r.length)).symm with hle | hlt
    · refine decode_shifted (d := d) hne hz hd (w := r) ?_ hr
      rw [List.drop_append_of_le_length (by omega)] at hcat
      refine List.prefix_of_prefix_length_le ⟨_, hcat⟩ (List.prefix_append _ _) ?_
      rw [List.length_drop]
      omega
    · have hrest := flatMap_drop hcat
      rw [List.drop_append, List.drop_eq_nil_of_le hlt.le, List.nil_append] at hrest
      refine ih ?_ (fun x hx => hq x (List.mem_cons_of_mem _ hx)) (by omega) hrest
      rintro rfl
      have hl := congrArg List.length hcat
      simp only [List.length_append, List.length_drop, List.flatMap_nil, List.length_nil] at hl
      have hr0 : r = [] := List.length_eq_zero_iff.mp (by omega)
      rw [hr0, List.nil_append] at hr
      obtain ⟨p, -, e, -⟩ := respDecode_cons hne hr
      cases n with
      | zero => cases e
      | succ n => cases e

/-- No read ends behind the start of a request. -/
theorem cut_beyond {rs : List Bytes} {r l : Bytes} (h : Cut rs qs)
    (hq : ∀ q ∈ qs, q ≠ [] ∧ NulFree q) (hcat : r ++ rs.flatten = l ++ qs.flatMap encodeRequest) :
    r.length ≤ l.length := by
  by_contra hlt
  have hrest : rs.flatten = (qs.flatMap encodeRequest).drop (r.length - l.length) := by
    have hdrop := congrArg (List.drop r.length) hcat
    rwa [List.drop_left, List.drop_append, List.drop_eq_nil_of_le (by omega),
      List.nil_append] at hdrop
  refine cut_shifted h ?_ hq (by omega) hrest
  rintro rfl
  have hlen := congrArg List.length hcat
  simp at hlen
  omega

/-- **Reads that give the requests are cut at their starts.** The second part is
for reads that begin with the rest of a request, at most its last line end. -/
theorem cut_framed (h : Cut chunks qs) (hq : ∀ q ∈ qs, q ≠ [] ∧ NulFree q)
    (hr : ∀ r ∈ chunks, r ≠ [] ∧ r.length < 1024) :
    (chunks.flatten = qs.flatMap encodeRequest → Framed qs chunks) ∧
      ∀ l, l = [10] ∨ l = crlf → chunks.flatten = l ++ qs.flatMap encodeRequest →
        ∃ pieces rest, chunks = pieces ++ rest ∧ pieces.flatten = l ∧ Framed qs rest := by
  induction h with
  | nil =>
    refine ⟨fun _ => .nil, fun l hl hcat => ?_⟩
    rcases hl with rfl | rfl <;> cases hcat
  | skip r rs qs n _ h ih =>
    obtain ⟨hrne, -⟩ := hr r List.mem_cons_self
    obtain ⟨ih₁, ih₂⟩ := ih hq fun x hx => hr x (List.mem_cons_of_mem _ hx)
    have hpos : 0 < r.length := List.length_pos_iff.mpr hrne
    refine ⟨fun hcat => absurd hpos (Nat.not_lt.mpr (cut_beyond (l := []) h hq hcat)),
      fun l hl hcat => ?_⟩
    rw [List.flatten_cons] at hcat
    have hle := cut_beyond h hq hcat
    rcases hl with rfl | rfl
    · obtain ⟨rfl, hrest⟩ := List.append_inj hcat (by simp at hle ⊢; omega)
      exact ⟨[[10]], rs, rfl, rfl, ih₁ hrest⟩
    · rcases hle.lt_or_eq with hlt | heq
      · match r, hrne, hlt with
        | [b], _, _ =>
          obtain ⟨rfl, hrest⟩ := List.cons.inj hcat
          obtain ⟨pieces, rest, rfl, hp, hf⟩ := ih₂ [10] (.inl rfl) hrest
          exact ⟨[13] :: pieces, rest, rfl, by rw [List.flatten_cons, hp]; rfl, hf⟩
      · obtain ⟨rfl, hrest⟩ := List.append_inj hcat heq
        exact ⟨[crlf], rs, rfl, rfl, ih₁ hrest⟩
  | hand r rs q qs n hd h ih =>
    obtain ⟨hrne, hfit⟩ := hr r List.mem_cons_self
    obtain ⟨hne, hz⟩ := hq q List.mem_cons_self
    have hqs : ∀ x ∈ qs, x ≠ [] ∧ NulFree x := fun x hx => hq x (List.mem_cons_of_mem _ hx)
    obtain ⟨ih₁, ih₂⟩ := ih hqs fun x hx => hr x (List.mem_cons_of_mem _ hx)
    refine ⟨fun hcat => ?_, fun l hl hcat => ?_⟩
    · rw [List.flatten_cons, List.flatMap_cons] at hcat
      obtain ⟨l, hl⟩ := List.prefix_of_prefix_length_le ⟨_, hcat⟩ (List.prefix_append _ _)
        (cut_beyond h hqs hcat)
      have hall : (encodeRequest q).length ≤ r.length + 2 := by
        by_contra hlt
        exact decode_short hne hz ⟨l, hl⟩ (by omega) hd
      have hrest : rs.flatten = l ++ qs.flatMap encodeRequest := by
        rw [← hl, List.append_assoc] at hcat
        exact List.append_cancel_left hcat
      rcases encodeRequest_end hne hl (by
        have := congrArg List.length hl
        rw [List.length_append] at this
        omega) with rfl | hl'
      · exact .request q qs r [] rs hz hl hall hfit (ih₁ hrest)
      · obtain ⟨pieces, rest, rfl, hp, hf⟩ := ih₂ l hl' hrest
        exact .request q qs r pieces rest hz (by rw [hp, hl]) hall hfit hf
    · obtain ⟨b, r', rfl⟩ := List.exists_cons_of_ne_nil hrne
      have hb : b ≠ 42 := by
        rcases hl with rfl | rfl <;> rw [(List.cons.inj hcat).1] <;> decide
      rw [List.cons_append, decode_other hb] at hd
      cases hd

end Fedis.Proof.Resp
