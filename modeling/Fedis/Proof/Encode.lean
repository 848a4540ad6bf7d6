import Fedis.Proof.Robj
import Fedis.Proof.Server.Basic

/-!
# The buffer that a request is encoded in

The buffer is doubled at most once for each argument, and after the argument's length has been
printed. So the encoding is exact if and only if every length line fits, with a NUL, in the
capacity that is left, and every argument in the capacity after one doubling (`FitsBuffer`):

* `print_ok`, `copy_ok`: what is written, and what stays;
* `addArgs_fits`: if all arguments fit, the loop appends their encodings;
* `fits_of_set`: if all bytes that are counted are set in the end, all arguments fit;
* `encode_exact_iff`: the encoder;
* `encode_returns`: with arguments of less than 256 bytes it stays inside the buffer;
* `encode_of_short`: a request of less than 1024 bytes is always encoded.
-/

namespace Fedis.Proof.Resp

open Framework RespBuf Server

variable {b b' : RespBuf} {m : List (Option UInt8)} {i k : Nat} {bs text : Bytes} {arg : Bytes}
  {argv : List Bytes}

/-! ## Memory -/

theorem length_store (h : i + bs.length ≤ m.length) : (store m i bs).length = m.length := by
  simp only [store, List.length_append, List.length_take, List.length_map, List.length_drop]
  omega

/-- What is before the bytes stays. -/
theorem take_store (hk : k ≤ i) (hi : i ≤ m.length) : (store m i bs).take k = m.take k := by
  rw [store, List.append_assoc, List.take_append_of_le_length (by rw [List.length_take]; omega),
    List.take_take, Nat.min_eq_left hk]

theorem take_store_self (hi : i ≤ m.length) :
    (store m i bs).take (i + bs.length) = m.take i ++ bs.map some := by
  refine List.take_left' ?_
  rw [List.length_append, List.length_take, List.length_map]
  omega

/-- A byte that was not written, or a NUL. -/
def NotSet (m : List (Option UInt8)) (j : Nat) : Prop := m[j]? = some none ∨ m[j]? = some (some 0)

/-- The bytes that are counted are set, and none is a NUL. -/
def AllSet (b : RespBuf) : Prop := ∃ p : Bytes, (∀ c ∈ p, c ≠ 0) ∧ b.buf.take b.len = p.map some

theorem AllSet.not_notSet {j : Nat} (h : AllSet b) (hj : j < b.len) : ¬ NotSet b.buf j := by
  obtain ⟨p, hp, e⟩ := h
  rw [NotSet, ← List.getElem?_take_of_lt hj, e, List.getElem?_map]
  rintro (h | h)
  · obtain ⟨c, -, hc⟩ := Option.map_eq_some_iff.mp h
    cases hc
  · obtain ⟨c, hmem, hc⟩ := Option.map_eq_some_iff.mp h
    exact hp c (List.mem_of_getElem? hmem) (Option.some.inj hc)

theorem string_written {p : Bytes} (hp : ∀ c ∈ p, c ≠ 0) (t : List (Option UInt8)) :
    string (p.map some ++ some 0 :: t) = .ok p := by
  induction p with
  | nil => rfl
  | cons c p ih =>
    rw [List.map_cons, List.cons_append, string, if_neg (hp c List.mem_cons_self),
      ih fun d hd => hp d (List.mem_cons_of_mem _ hd)]
    rfl

theorem string_read : ∀ {m : List (Option UInt8)} {r : Bytes}, string m = .ok r →
    (∀ c ∈ r, c ≠ 0) ∧ m.take r.length = r.map some
  | [], _, h => by cases h
  | none :: _, _, h => by cases h
  | some c :: m, r, h => by
    rw [string] at h
    by_cases hc : c = 0
    · rw [if_pos hc] at h
      cases h
      exact ⟨nofun, rfl⟩
    · rw [if_neg hc] at h
      cases hs : string m with
      | error e =>
        rw [hs] at h
        cases h
      | ok q =>
        rw [hs] at h
        cases h
        obtain ⟨hq, e⟩ := string_read hs
        refine ⟨fun d hd => ?_, by rw [List.length_cons, List.take_succ_cons, e, List.map_cons]⟩
        rcases List.mem_cons.mp hd with rfl | hd
        · exact hc
        · exact hq d hd

/-! ## One write -/

/-- The bytes are added to those that are counted. -/
structure Added (b b' : RespBuf) (bs : Bytes) : Prop where
  len : b'.len = b.len + bs.length
  buf : b'.buf.take b'.len = b.buf.take b.len ++ bs.map some

/-- What was counted stays as it is. -/
structure Preserves (b b' : RespBuf) : Prop where
  le : b.len ≤ b'.len
  buf : b'.buf.take b.len = b.buf.take b.len

theorem Preserves.take (h : Preserves b b') (hk : k ≤ b.len) : b'.buf.take k = b.buf.take k := by
  have e := congrArg (List.take k) h.buf
  rwa [List.take_take, List.take_take, Nat.min_eq_left hk] at e

theorem Preserves.trans {b₁ b₂ b₃ : RespBuf} (h : Preserves b₁ b₂) (h' : Preserves b₂ b₃) : Preserves b₁ b₃ where
  le := Nat.le_trans h.le h'.le
  buf := by rw [h'.take h.le, h.buf]

theorem Added.trans {b₁ b₂ b₃ : RespBuf} {bs cs : Bytes} (h : Added b₁ b₂ bs)
    (h' : Added b₂ b₃ cs) : Added b₁ b₃ (bs ++ cs) where
  len := by rw [h'.len, h.len, List.length_append, Nat.add_assoc]
  buf := by rw [h'.buf, h.buf, List.map_append, List.append_assoc]

theorem copy_ok (h : b.copy bs = .ok b') :
    Added b b' bs ∧ b'.buf.length = b.buf.length ∧ b'.len ≤ b'.buf.length ∧ Preserves b b' := by
  rw [copy] at h
  split at h
  · rename_i hle
    cases h
    have hl := length_store hle
    exact ⟨⟨rfl, take_store_self (by omega)⟩, hl, by rw [hl]; exact hle,
      ⟨Nat.le_add_right .., take_store (Nat.le_refl _) (by omega)⟩⟩
  · cases h

theorem copy_fits (h : b.len + bs.length ≤ b.buf.length) : ∃ b', b.copy bs = .ok b' := by
  rw [copy, if_pos h]
  exact ⟨_, rfl⟩

theorem print_ok (h : b.print text = .ok b') :
    b'.len = b.len + text.length ∧ b'.buf.length = b.buf.length ∧ Preserves b b' := by
  rw [print] at h
  split at h
  · cases h
  · cases h
    refine ⟨rfl, length_store ?_, ⟨Nat.le_add_right .., take_store (Nat.le_refl _) (by omega)⟩⟩
    split
    · simp
      omega
    · simp only [List.length_append, List.length_take, List.length_singleton]
      omega

theorem print_returns (text : Bytes) (h : b.len ≤ b.buf.length) : ∃ b', b.print text = .ok b' := by
  rw [print, if_neg (by omega)]
  exact ⟨_, rfl⟩

/-- The text and a NUL fit. -/
theorem print_fits (h : b.len + text.length < b.buf.length) :
    ∃ b', b.print text = .ok b' ∧ Added b b' text := by
  rw [print]
  rw [if_neg (by omega), if_neg (by omega), List.take_of_length_le (by omega)]
  refine ⟨_, rfl, rfl, ?_⟩
  have hs : (store b.buf b.len (text ++ [0])).take (b.len + (text ++ [0]).length) =
      b.buf.take b.len ++ (text ++ [0]).map some := take_store_self (by omega)
  have ht := congrArg (List.take (b.len + text.length)) hs
  rw [List.take_take, List.length_append, List.length_singleton, Nat.min_eq_left (by omega)] at ht
  rw [ht, List.map_append, ← List.append_assoc]
  refine List.take_left' ?_
  rw [List.length_append, List.length_take, List.length_map]
  omega

/-- They do not: the text is cut to leave a place for the NUL, or nothing is written. -/
theorem print_cut (h : b.print text = .ok b') (hcut : b.buf.length ≤ b.len + text.length) :
    (b.len < b.buf.length ∧ b'.buf = b.buf.take b.len ++
      ((text.take (b.buf.length - b.len - 1)).map some ++ [some 0])) ∨
      b.len = b.buf.length ∧ b'.buf = b.buf := by
  rw [print] at h
  split at h
  · cases h
  · cases h
    by_cases hs : b.buf.length - b.len = 0
    · refine .inr ⟨by omega, ?_⟩
      rw [if_pos hs]
      simp [store]
    · refine .inl ⟨by omega, ?_⟩
      rw [if_neg hs, store, List.drop_of_length_le, List.append_nil, List.map_append]
      · rfl
      · simp only [List.length_append, List.length_take, List.length_singleton]
        omega

/-! ## One argument -/

/-- The capacity after the test for `len` bytes. -/
def grown (cap len : Nat) : Nat := if cap ≤ len then 2 * cap else cap

theorem grow_len (b : RespBuf) (n : Nat) : (b.grow n).len = b.len := by
  rw [grow]
  split <;> rfl

/-- Places that are not set are put behind the buffer, or nothing is. -/
theorem grow_buf (b : RespBuf) (n : Nat) :
    ∃ t, (b.grow n).buf = b.buf ++ List.replicate t none ∧
      (b.buf.length ≤ b.len + n → t = b.buf.length) := by
  rw [grow]
  split
  · exact ⟨_, rfl, fun _ => rfl⟩
  · rename_i h
    exact ⟨0, (List.append_nil _).symm, fun h' => absurd h' h⟩

theorem length_grow (b : RespBuf) (n : Nat) :
    (b.grow n).buf.length = grown b.buf.length (b.len + n) := by
  rw [grow, grown]
  split
  · rw [List.length_append, List.length_replicate]
    omega
  · rfl

theorem take_grow (b : RespBuf) (n : Nat) (hk : k ≤ b.buf.length) :
    (b.grow n).buf.take k = b.buf.take k := by
  obtain ⟨t, ht, -⟩ := grow_buf b n
  rw [ht, List.take_append_of_le_length hk]

/-- The line with an argument's length. -/
def lengthLine (n : Nat) : Bytes := 36 :: decimal n ++ crlf

theorem toInt32_small {n : Nat} (h : n < 2 ^ 31) : toInt32 n = n :=
  toInt32_eq_self (by omega) (by omega)

theorem toInt32_eq {l n : Nat} (hl : l < 2 ^ 31) (h : toInt32 l = n) : n = l := by
  rw [toInt32_small hl] at h
  omega

theorem respEncodeArg_eq (hz : ∀ c ∈ arg, c ≠ 0) :
    respEncodeArg arg = lengthLine arg.length ++ arg := by
  rw [respEncodeArg, cstr_eq_self hz]
  rfl

/-- The body of the loop, step by step. -/
theorem addArg_steps (hz : ∀ c ∈ arg, c ≠ 0) :
    b.addArg arg = .ok b' ↔ ∃ n : Nat, toInt32 arg.length = n ∧ ∃ b₁ b₂,
      b.print (lengthLine n) = .ok b₁ ∧ (b₁.grow (n + 2)).copy (arg.take n) = .ok b₂ ∧
      b₂.copy crlf = .ok b' := by
  rw [addArg, cstr_eq_self hz, bind_ok]
  constructor
  · rintro ⟨b₁, h₁, h⟩
    split at h
    · cases h
    · rename_i hneg
      obtain ⟨n, hn⟩ := Int.eq_ofNat_of_zero_le (Int.not_lt.mp hneg)
      obtain ⟨b₂, h₂, h₃⟩ := bind_ok.mp h
      rw [hn] at h₁ h₂
      rw [decimalInt, if_neg (by omega)] at h₁
      exact ⟨n, hn, b₁, b₂, h₁, h₂, h₃⟩
  · rintro ⟨n, hn, b₁, b₂, h₁, h₂, h₃⟩
    rw [hn]
    refine ⟨b₁, ?_, ?_⟩
    · rw [decimalInt, if_neg (by omega)]
      exact h₁
    · rw [if_neg (by omega)]
      exact bind_ok.mpr ⟨b₂, h₂, h₃⟩

/-- The places of an argument: behind its length line, and behind its line end. -/
def lineEnd (len n : Nat) : Nat := len + (lengthLine n).length

def argEnd (len n : Nat) : Nat := lineEnd len n + n + 2

/-- An argument that fits after the capacity has been tested. -/
theorem addArg_returns (hz : ∀ c ∈ arg, c ≠ 0) (hn : arg.length < 2 ^ 31)
    (hle : b.len ≤ b.buf.length)
    (hend : argEnd b.len arg.length ≤ grown b.buf.length (argEnd b.len arg.length)) :
    ∃ b', b.addArg arg = .ok b' := by
  obtain ⟨b₁, h₁⟩ := print_returns (lengthLine arg.length) hle
  obtain ⟨hlen₁, hcap₁, -⟩ := print_ok h₁
  have hplace : b₁.len + (arg.length + 2) = argEnd b.len arg.length := by
    rw [hlen₁, argEnd, lineEnd]
    omega
  have hglen := grow_len b₁ (arg.length + 2)
  have hgcap := length_grow b₁ (arg.length + 2)
  rw [hplace, hcap₁] at hgcap
  have hfit : (b₁.grow (arg.length + 2)).len + (arg.take arg.length).length ≤
      (b₁.grow (arg.length + 2)).buf.length := by
    rw [hglen, hgcap, List.take_length]
    omega
  obtain ⟨b₂, h₂⟩ := copy_fits hfit
  obtain ⟨ha₂, hcap₂, -⟩ := copy_ok h₂
  have hfit' : b₂.len + crlf.length ≤ b₂.buf.length := by
    rw [ha₂.len, hcap₂, hgcap, hglen, List.take_length]
    show _ + 2 ≤ _
    omega
  obtain ⟨b₃, h₃⟩ := copy_fits hfit'
  exact ⟨b₃, (addArg_steps hz).mpr ⟨_, toInt32_small hn, b₁, b₂, h₁, h₂, h₃⟩⟩

/-- The length line and a NUL fit: the encoding is added. -/
theorem addArg_added (hz : ∀ c ∈ arg, c ≠ 0) (hn : arg.length < 2 ^ 31)
    (hline : lineEnd b.len arg.length < b.buf.length) (h : b.addArg arg = .ok b') :
    Added b b' (respEncodeArg arg ++ crlf) := by
  obtain ⟨n, hn', b₁, b₂, h₁, h₂, h₃⟩ := (addArg_steps hz).mp h
  obtain rfl := toInt32_eq hn hn'
  obtain ⟨b₁', h₁', ha₁⟩ := print_fits hline
  obtain rfl : b₁ = b₁' := Except.ok.inj (h₁.symm.trans h₁')
  have hle : b₁.len ≤ b₁.buf.length := by
    rw [ha₁.len, (print_ok h₁).2.1]
    exact Nat.le_of_lt hline
  have ha₂ : Added b₁ (b₁.grow (arg.length + 2)) [] := by
    refine ⟨grow_len .., ?_⟩
    rw [grow_len, take_grow b₁ _ hle]
    exact (List.append_nil _).symm
  have ha := ((ha₁.trans ha₂).trans (copy_ok h₂).1).trans (copy_ok h₃).1
  rw [List.append_nil, List.take_length] at ha
  rwa [respEncodeArg_eq hz]

theorem toInt32_le {l n : Nat} (h : toInt32 l = n) : n ≤ l := by
  rw [toInt32, Int.bmod] at h
  split at h <;> omega

/-- A body of the loop that writes inside the buffer. -/
theorem addArg_ok (hz : ∀ c ∈ arg, c ≠ 0) (hle : b.len ≤ b.buf.length) (h : b.addArg arg = .ok b') :
    ∃ n : Nat, toInt32 arg.length = n ∧ b'.len = argEnd b.len n ∧
      b'.buf.length = grown b.buf.length (argEnd b.len n) ∧ b'.len ≤ b'.buf.length ∧
      Preserves b b' := by
  obtain ⟨n, hn, b₁, b₂, h₁, h₂, h₃⟩ := (addArg_steps hz).mp h
  obtain ⟨hlen₁, hcap₁, hp₁⟩ := print_ok h₁
  obtain ⟨ha₂, hcap₂, -, hp₂⟩ := copy_ok h₂
  obtain ⟨ha₃, hcap₃, hle₃, hp₃⟩ := copy_ok h₃
  have hlen₂ := ha₂.len
  have hlen₃ : b'.len = b₂.len + 2 := ha₃.len
  rw [grow_len, List.length_take, Nat.min_eq_left (toInt32_le hn)] at hlen₂
  have hcap := length_grow b₁ (n + 2)
  rw [hcap₁, show b₁.len + (n + 2) = argEnd b.len n by rw [hlen₁, argEnd, lineEnd]; omega] at hcap
  refine ⟨n, hn, ?_, by rw [hcap₃, hcap₂, hcap], hle₃, ?_⟩
  · rw [hlen₃, hlen₂, hlen₁, argEnd, lineEnd]
  · have hp : Preserves b (b₁.grow (n + 2)) :=
      ⟨by rw [grow_len]; exact hp₁.le, by rw [take_grow _ _ (by omega), hp₁.buf]⟩
    exact (hp.trans hp₂).trans hp₃

/-- What the `realloc` leaves before the argument stays. -/
theorem addArg_line (hz : ∀ c ∈ arg, c ≠ 0) (h : b.addArg arg = .ok b') {n : Nat}
    (hn : toInt32 arg.length = n) : ∃ b₁, b.print (lengthLine n) = .ok b₁ ∧
      lineEnd b.len n ≤ b'.len ∧
      ∀ k ≤ lineEnd b.len n, b'.buf.take k = (b₁.grow (n + 2)).buf.take k := by
  obtain ⟨n', hn', b₁, b₂, h₁, h₂, h₃⟩ := (addArg_steps hz).mp h
  obtain rfl : n' = n := by omega
  obtain ⟨-, -, -, hp₂⟩ := copy_ok h₂
  obtain ⟨-, -, -, hp₃⟩ := copy_ok h₃
  have hp := hp₂.trans hp₃
  have hlen : (b₁.grow (n' + 2)).len = lineEnd b.len n' := by
    rw [grow_len, (print_ok h₁).1, lineEnd]
  exact ⟨b₁, h₁, hlen ▸ hp.le, fun k hk => hp.take (hlen ▸ hk)⟩

/-- A length line that is cut leaves its beginning and a NUL. -/
theorem addArg_nul (hz : ∀ c ∈ arg, c ≠ 0) (h : b.addArg arg = .ok b') {n : Nat}
    (hn : toInt32 arg.length = n) (hlt : b.len < b.buf.length)
    (hcut : b.buf.length ≤ lineEnd b.len n) : b.buf.length ≤ b'.len ∧
      b'.buf.take b.buf.length = b.buf.take b.len ++
        (((lengthLine n).take (b.buf.length - b.len - 1)).map some ++ [some 0]) := by
  obtain ⟨b₁, h₁, hle, hstay⟩ := addArg_line hz h hn
  refine ⟨Nat.le_trans hcut hle, ?_⟩
  obtain ⟨-, hnul⟩ | ⟨heq, -⟩ := print_cut h₁ hcut
  · rw [hstay _ hcut, take_grow _ _ (Nat.le_of_eq (print_ok h₁).2.1.symm), ← hnul,
      ← (print_ok h₁).2.1, List.take_length]
  · omega

/-- Without the place, a byte of the length line is never set. -/
theorem addArg_cut (hz : ∀ c ∈ arg, c ≠ 0) (hpos : 0 < b.buf.length)
    (h : b.addArg arg = .ok b') {n : Nat} (hn : toInt32 arg.length = n)
    (hcut : b.buf.length ≤ lineEnd b.len n) : ∃ j < b'.len, NotSet b'.buf j := by
  have hline : 0 < (lengthLine n).length := Nat.succ_pos _
  by_cases hlt : b.len < b.buf.length
  · obtain ⟨hle, hbuf⟩ := addArg_nul hz h hn hlt hcut
    rw [lineEnd] at hcut
    refine ⟨b.buf.length - 1, by omega, .inr ?_⟩
    have hl : (b.buf.take b.len ++ ((lengthLine n).take (b.buf.length - b.len - 1)).map some).length =
        b.buf.length - 1 := by
      rw [List.length_append, List.length_take, List.length_map, List.length_take]
      omega
    rw [← List.getElem?_take_of_lt (Nat.sub_one_lt_of_lt hpos), hbuf, ← List.append_assoc,
      List.getElem?_append_right (Nat.le_of_eq hl), hl, Nat.sub_self]
    rfl
  · obtain ⟨b₁, h₁, hle, hstay⟩ := addArg_line hz h hn
    obtain ⟨hlt', -⟩ | ⟨heq, hsame⟩ := print_cut h₁ hcut
    · exact absurd hlt' hlt
    · rw [lineEnd] at hcut hle hstay
      refine ⟨b.buf.length, by omega, .inl ?_⟩
      obtain ⟨t, hbuf, ht⟩ := grow_buf b₁ (n + 2)
      have ht := ht (by rw [hsame, (print_ok h₁).1]; omega)
      rw [← List.getElem?_take_of_lt (Nat.lt_succ_self _), hstay _ (by omega),
        List.getElem?_take_of_lt (Nat.lt_succ_self _), hbuf, hsame,
        List.getElem?_append_right (Nat.le_refl _), Nat.sub_self, List.getElem?_replicate,
        if_pos (by rw [ht, hsame]; exact hpos)]

/-! ## The loop -/

/-- All arguments fit from here on: each length line with a NUL, each argument after one
doubling, and the NUL behind the last one. -/
def Fits : Nat → Nat → List Bytes → Prop
  | cap, len, [] => len < cap
  | cap, len, arg :: argv =>
    arg.length < 2 ^ 31 ∧ lineEnd len arg.length < cap ∧
      argEnd len arg.length ≤ grown cap (argEnd len arg.length) ∧
      Fits (grown cap (argEnd len arg.length)) (argEnd len arg.length) argv

instance decidableFits : ∀ cap len argv, Decidable (Fits cap len argv)
  | cap, len, [] => inferInstanceAs (Decidable (len < cap))
  | cap, len, arg :: argv =>
    have := decidableFits (grown cap (argEnd len arg.length)) (argEnd len arg.length) argv
    inferInstanceAs (Decidable (_ ∧ _ ∧ _ ∧ _))

theorem addArgs_fits : ∀ {argv : List Bytes} {b : RespBuf}, (∀ arg ∈ argv, ∀ c ∈ arg, c ≠ 0) →
    Fits b.buf.length b.len argv → ∃ b', argv.foldlM addArg b = .ok b' ∧
      Added b b' (argv.flatMap fun arg => respEncodeArg arg ++ crlf) ∧ b'.len < b'.buf.length
  | [], b, _, hf => ⟨b, rfl, ⟨rfl, (List.append_nil _).symm⟩, hf⟩
  | arg :: argv, b, hz, ⟨hn, hline, hend, hf⟩ => by
    have hza := hz arg List.mem_cons_self
    have hle : b.len ≤ b.buf.length := Nat.le_of_lt (Nat.lt_of_le_of_lt (Nat.le_add_right ..) hline)
    obtain ⟨b₁, h₁⟩ := addArg_returns hza hn hle hend
    have ha := addArg_added hza hn hline h₁
    obtain ⟨n, hn', hlen, hcap, -⟩ := addArg_ok hza hle h₁
    obtain rfl := toInt32_eq hn hn'
    rw [← hcap, ← hlen] at hf
    obtain ⟨b', h', ha', hlt⟩ := addArgs_fits (fun a hm => hz a (List.mem_cons_of_mem _ hm)) hf
    refine ⟨b', ?_, ?_, hlt⟩
    · rw [List.foldlM_cons, h₁]
      exact h'
    · rw [List.flatMap_cons]
      exact ha.trans ha'

/-- If the bytes that are counted are set in the end, all arguments have been written in full. -/
theorem fits_of_set : ∀ {argv : List Bytes} {b b' : RespBuf}, (∀ arg ∈ argv, ∀ c ∈ arg, c ≠ 0) →
    (∀ arg ∈ argv, arg.length < 2 ^ 31) → b.len ≤ b.buf.length → 0 < b.buf.length →
    argv.foldlM addArg b = .ok b' → AllSet b' → b'.len < b'.buf.length →
    Fits b.buf.length b.len argv ∧ Preserves b b'
  | [], b, b', _, _, _, _, h, _, hlt => by
    cases h
    exact ⟨hlt, Nat.le_refl _, rfl⟩
  | arg :: argv, b, b', hz, hn, hle, hpos, h, hset, hlt => by
    rw [List.foldlM_cons] at h
    obtain ⟨b₁, h₁, h'⟩ := bind_ok.mp h
    have hza := hz arg List.mem_cons_self
    obtain ⟨n, hn₁, hlen, hcap, hle₁, hp⟩ := addArg_ok hza hle h₁
    obtain rfl := toInt32_eq (hn arg List.mem_cons_self) hn₁
    have hpos₁ : 0 < b₁.buf.length := by
      rw [hcap, grown]
      split <;> omega
    obtain ⟨hf, hp'⟩ := fits_of_set (fun a hm => hz a (List.mem_cons_of_mem _ hm))
      (fun a hm => hn a (List.mem_cons_of_mem _ hm)) hle₁ hpos₁ h' hset hlt
    have hcut : lineEnd b.len arg.length < b.buf.length := by
      by_contra hcut
      obtain ⟨j, hj, hu⟩ := addArg_cut hza hpos h₁ hn₁ (Nat.not_lt.mp hcut)
      refine hset.not_notSet (Nat.lt_of_lt_of_le hj hp'.le) ?_
      rwa [NotSet, ← List.getElem?_take_of_lt hj, hp'.buf, List.getElem?_take_of_lt hj]
    rw [hlen, hcap] at hf hle₁
    exact ⟨⟨hn arg List.mem_cons_self, hcut, hle₁, hf⟩, hp.trans hp'⟩

/-! ## Lengths -/

theorem length_decimal_le {n n' : Nat} (h : n ≤ n') : (decimal n).length ≤ (decimal n').length := by
  induction n' using Nat.strongRecOn generalizing n with
  | ind n' ih =>
    by_cases hs : n < 10
    · rw [decimal_of_lt hs]
      exact List.length_pos_iff.mpr (decimal_spec n').2.2
    · rw [decimal_of_ge (by omega), decimal_of_ge (n := n') (by omega), List.length_append,
        List.length_append]
      have := ih (n' / 10) (by omega) (n := n / 10) (by omega)
      simp only [List.length_singleton]
      omega

theorem argEnd_eq (hz : ∀ c ∈ arg, c ≠ 0) (len : Nat) :
    argEnd len arg.length = len + (respEncodeArg arg ++ crlf).length := by
  rw [respEncodeArg_eq hz, List.length_append, List.length_append, argEnd, lineEnd]
  show _ = _ + (_ + _ + 2)
  omega

theorem argEnd_le {n : Nat} (hz : ∀ c ∈ arg, c ≠ 0) (len : Nat) (h : n ≤ arg.length) :
    argEnd len n + (arg.length - n) ≤ len + (respEncodeArg arg ++ crlf).length := by
  have hd := length_decimal_le h
  rw [respEncodeArg_eq hz, argEnd, lineEnd, lengthLine, lengthLine]
  simp only [List.length_append, List.length_cons, crlf, List.length_nil]
  omega

/-- What is counted is no more than the encoding, and less if a length is no `int`. -/
theorem addArgs_len : ∀ {argv : List Bytes} {b b' : RespBuf}, (∀ arg ∈ argv, ∀ c ∈ arg, c ≠ 0) →
    b.len ≤ b.buf.length → argv.foldlM addArg b = .ok b' →
    b'.len ≤ b.len + (argv.flatMap fun arg => respEncodeArg arg ++ crlf).length ∧
      (b'.len = b.len + (argv.flatMap fun arg => respEncodeArg arg ++ crlf).length →
        ∀ arg ∈ argv, arg.length < 2 ^ 31)
  | [], b, b', _, _, h => by
    cases h
    exact ⟨Nat.le_add_right .., fun _ => nofun⟩
  | arg :: argv, b, b', hz, hle, h => by
    rw [List.foldlM_cons] at h
    obtain ⟨b₁, h₁, h'⟩ := bind_ok.mp h
    have hza := hz arg List.mem_cons_self
    obtain ⟨n, hn, hlen, -, hle₁, -⟩ := addArg_ok hza hle h₁
    obtain ⟨hle', hint⟩ := addArgs_len (fun a hm => hz a (List.mem_cons_of_mem _ hm)) hle₁ h'
    have hend := argEnd_le hza b.len (toInt32_le hn)
    have hnle := toInt32_le hn
    rw [List.flatMap_cons, List.length_append]
    refine ⟨by omega, fun heq a hm => ?_⟩
    rcases List.mem_cons.mp hm with rfl | hm
    · have hrange : toInt32 a.length < 2 ^ 31 := by
        rw [toInt32, Int.bmod]
        split <;> omega
      omega
    · exact hint (by omega) a hm

/-! ## The encoder -/

/-- The line with `argc`. -/
def argcLine (argv : List Bytes) : Bytes := 42 :: decimalInt (toInt32 argv.length) ++ crlf

/-- The capacity is never short: the line with `argc` ends inside the first 1024 bytes. -/
def FitsBuffer (argv : List Bytes) : Prop :=
  Fits 1024 (argcLine argv).length argv

instance (argv : List Bytes) : Decidable (FitsBuffer argv) := decidableFits _ _ _

theorem argcLine_eq (h : argv.length < 2 ^ 31) :
    argcLine argv = 42 :: decimal argv.length ++ crlf := by
  rw [argcLine, toInt32_small h, decimalInt, if_neg (by omega)]
  rfl

theorem argcLine_ne_zero (argv : List Bytes) : ∀ c ∈ argcLine argv, c ≠ 0 := by
  intro c hc
  rw [argcLine, List.cons_append] at hc
  rcases List.mem_cons.mp hc with rfl | hc
  · decide
  · exact (List.mem_append.mp hc).elim (Value.decimalInt_ne_zero _ c)
      fun hc => line_ne_zero 0 c (List.mem_append_right _ hc)

theorem length_intLine {z : Int} (h : inLong z) : (42 :: decimalInt z ++ crlf).length < 1024 := by
  have hd := Value.length_decimalInt h
  simp only [List.length_append, List.length_cons, crlf, List.length_nil]
  omega

theorem length_argcLine (argv : List Bytes) : (argcLine argv).length < 1024 :=
  length_intLine (inLong_of_int (toInt32_range _).1 (toInt32_range _).2)

theorem print_argc (argv : List Bytes) : ∃ b : RespBuf,
    (RespBuf.mk (List.replicate 1024 none) 0).print (argcLine argv) = .ok b ∧
      b.len = (argcLine argv).length ∧ b.buf.length = 1024 ∧
      b.buf.take b.len = (argcLine argv).map some := by
  have hlen := length_argcLine argv
  have hfit : (RespBuf.mk (List.replicate 1024 none) 0).len + (argcLine argv).length <
      (RespBuf.mk (List.replicate 1024 none) 0).buf.length := by
    rw [List.length_replicate, Nat.zero_add]
    exact hlen
  obtain ⟨b, hb, ha⟩ := print_fits hfit
  have hcap := (print_ok hb).2.1
  rw [List.length_replicate] at hcap
  have hl := ha.len
  rw [Nat.zero_add] at hl
  exact ⟨b, hb, hl, hcap, by rw [ha.buf, List.take_zero, List.nil_append]⟩

theorem encode_of_fits (hc : argv.length < 2 ^ 31) (hz : ∀ arg ∈ argv, ∀ c ∈ arg, c ≠ 0)
    (h : FitsBuffer argv) : respEncodeArrayStringBuf argv = .ok (respEncodeArrayString argv) := by
  obtain ⟨b, hb, hlen, hcap, hbuf⟩ := print_argc argv
  rw [FitsBuffer, ← hcap, ← hlen] at h
  obtain ⟨b', hb', ha, hlt⟩ := addArgs_fits hz h
  rw [respEncodeArrayStringBuf]
  refine bind_ok.mpr ⟨b, hb, bind_ok.mpr ⟨b', hb', ?_⟩⟩
  rw [if_pos hlt]
  have hmem : store b'.buf b'.len [0] =
      (respEncodeArrayString argv).map some ++ some 0 :: b'.buf.drop (b'.len + 1) := by
    rw [store, ha.buf, hbuf, argcLine_eq hc, List.append_assoc, ← List.map_append]
    rfl
  rw [hmem, string_written (encode_ne_zero argv)]

theorem fits_of_encode (hc : argv.length < 2 ^ 31) (hz : ∀ arg ∈ argv, ∀ c ∈ arg, c ≠ 0)
    (h : respEncodeArrayStringBuf argv = .ok (respEncodeArrayString argv)) : FitsBuffer argv := by
  obtain ⟨b, hb, hlen, hcap, hbuf⟩ := print_argc argv
  rw [respEncodeArrayStringBuf] at h
  obtain ⟨b₁, hb₁, h⟩ := bind_ok.mp h
  obtain rfl : b = b₁ := Except.ok.inj (hb.symm.trans hb₁)
  obtain ⟨b', hb', h⟩ := bind_ok.mp h
  split at h
  · rename_i hlt
    have hlen' : b.len ≤ b.buf.length := by
      have hk := congrArg List.length hbuf
      rw [List.length_take, List.length_map, ← hlen] at hk
      omega
    obtain ⟨hr, htake⟩ := string_read h
    obtain ⟨hle, hint⟩ := addArgs_len hz hlen' hb'
    -- the string ends before the NUL
    have hend : (respEncodeArrayString argv).length ≤ b'.len := by
      by_contra hgt
      have hnul : (store b'.buf b'.len [0])[b'.len]? = some (some 0) := by
        rw [store, List.append_assoc, List.getElem?_append_right (by rw [List.length_take]; omega),
          List.length_take, Nat.min_eq_left (by omega), Nat.sub_self]
        rfl
      rw [← List.getElem?_take_of_lt (Nat.not_le.mp hgt), htake, List.getElem?_map] at hnul
      obtain ⟨c, hmem, hc⟩ := Option.map_eq_some_iff.mp hnul
      exact hr c (List.mem_of_getElem? hmem) (Option.some.inj hc)
    have hall : (respEncodeArrayString argv).length =
        b.len + (argv.flatMap fun arg => respEncodeArg arg ++ crlf).length := by
      rw [hlen, respEncodeArrayString, argcLine_eq hc, List.length_append]
    have heq : b'.len = (respEncodeArrayString argv).length := by omega
    have hset : AllSet b' := by
      refine ⟨_, hr, ?_⟩
      rw [← htake, ← heq, take_store (Nat.le_refl _) (by omega)]
    have hf := (fits_of_set hz (hint (by omega)) hlen' (by omega) hb' hset hlt).1
    rwa [hcap, hlen] at hf
  · cases h

theorem decode_of_fits (hc : argv.length < 2 ^ 31) (hz : ∀ arg ∈ argv, ∀ c ∈ arg, c ≠ 0)
    (hn : ∀ arg ∈ argv, arg.length < 2 ^ 31) (t : Bytes) :
    respDecode (respEncodeArrayString argv ++ t) = .ok argv := by
  by_cases h : argv = []
  · subst h
    rw [respEncodeArrayString, List.flatMap_nil, List.append_nil, List.cons_append,
      List.cons_append, respDecode, if_neg (by decide), (scan_line hc t).1]
    rfl
  · exact respDecode_encode ⟨h, hc, hz, hn⟩ t

theorem Fits.len {cap len : Nat} (h : Fits cap len argv) : ∀ arg ∈ argv, arg.length < 2 ^ 31 := by
  induction argv generalizing cap len with
  | nil => exact nofun
  | cons a argv ih =>
    intro arg hm
    rcases List.mem_cons.mp hm with rfl | hm
    · exact h.1
    · exact ih h.2.2.2 arg hm

/-- **`respEncodeArrayString` writes exact RESP**, inside its buffer and undone by `resp_decode`,
if and only if the arguments fit. -/
theorem encode_exact_iff (hc : argv.length < 2 ^ 31) (hz : ∀ arg ∈ argv, ∀ c ∈ arg, c ≠ 0) :
    (∃ s, respEncodeArrayStringBuf argv = .ok s ∧ s = respEncodeArrayString argv ∧
      ∀ t, respDecode (s ++ 0 :: t) = .ok argv) ↔ FitsBuffer argv := by
  constructor
  · rintro ⟨s, h, rfl, -⟩
    exact fits_of_encode hc hz h
  · intro hf
    exact ⟨_, encode_of_fits hc hz hf, rfl, fun t => decode_of_fits hc hz hf.len _⟩

/-- Two arguments of the test. -/
theorem encode_exact_two : ∃ s, respEncodeArrayStringBuf [bytes "hello", bytes "world"] = .ok s ∧
    s = respEncodeArrayString [bytes "hello", bytes "world"] ∧
    ∀ t, respDecode (s ++ 0 :: t) = .ok [bytes "hello", bytes "world"] :=
  (encode_exact_iff (by decide) (by decide +kernel)).mpr (by decide)

/-- An argument of 2035 bytes has the NUL written behind the buffer. A second argument whose
length line ends at the capacity is cut off, with that line's end. -/
theorem encode_overruns_or_cuts :
    respEncodeArrayStringBuf [List.replicate 2035 97] = .error .undefined ∧
    respEncodeArrayStringBuf [List.replicate 1007 97, [98]] =
      .ok ((respEncodeArrayString [List.replicate 1007 97, [98]]).take 1023) ∧
    (respEncodeArrayString [List.replicate 1007 97, [98]]).drop 1023 = bytes "\nb\r\n" :=
  ⟨by decide +kernel, by decide +kernel, by decide +kernel⟩

/-! ## Short arguments -/

/-- The counted bytes are `s`, or there is a beginning of `s` in front of a NUL. -/
def Shows (b : RespBuf) (s : Bytes) : Prop :=
  b.buf.take b.len = s.map some ∨
    ∃ p, p <+: s ∧ p.length < b.len ∧ b.buf.take (p.length + 1) = p.map some ++ [some 0]

theorem Shows.string {s : Bytes} (h : Shows b s) (hs : ∀ c ∈ s, c ≠ 0)
    (hlt : b.len < b.buf.length) :
    ∃ p, RespBuf.string (store b.buf b.len [0]) = .ok p ∧ p <+: s := by
  obtain htake | ⟨p, hp, hle, htake⟩ := h
  · refine ⟨s, ?_, List.prefix_rfl⟩
    rw [store, htake, List.append_assoc]
    exact string_written hs _
  · refine ⟨p, ?_, hp⟩
    have hkeep : (store b.buf b.len [0]).take (p.length + 1) = b.buf.take (p.length + 1) :=
      take_store hle (Nat.le_of_lt hlt)
    rw [← hkeep] at htake
    rw [← List.take_append_drop (p.length + 1) (store b.buf b.len [0]), htake, List.append_assoc]
    exact string_written (fun c hc => hs c (hp.subset hc)) _

/-- A short argument is written inside the buffer, and the length line is at worst cut. -/
theorem addArg_short {s : Bytes} (hz : ∀ c ∈ arg, c ≠ 0) (hshort : arg.length < 256)
    (hr : Shows b s) (hlen : b.len = s.length) (hlt : b.len < b.buf.length)
    (hcap : 1024 ≤ b.buf.length) : ∃ b', b.addArg arg = .ok b' ∧
      Shows b' (s ++ (respEncodeArg arg ++ crlf)) ∧
      b'.len = (s ++ (respEncodeArg arg ++ crlf)).length ∧ b'.len < b'.buf.length ∧
      1024 ≤ b'.buf.length := by
  have hn : arg.length < 2 ^ 31 := by omega
  have hline : (lengthLine arg.length).length ≤ 6 := by
    have hd := Value.length_decimal 2 (n := arg.length) (by omega)
    simp only [lengthLine, List.length_append, List.length_cons, crlf, List.length_nil]
    omega
  have hend : argEnd b.len arg.length < grown b.buf.length (argEnd b.len arg.length) := by
    rw [argEnd, lineEnd, grown]
    split <;> omega
  obtain ⟨b', h'⟩ := addArg_returns hz hn (Nat.le_of_lt hlt) (Nat.le_of_lt hend)
  obtain ⟨n, hn', hlen', hcap', -, hp⟩ := addArg_ok hz (Nat.le_of_lt hlt) h'
  obtain rfl := toInt32_eq hn hn'
  refine ⟨b', h', ?_, by rw [hlen', hlen, List.length_append, argEnd_eq hz], by omega, ?_⟩
  · obtain htake | ⟨p, hpre, hle, htake⟩ := hr
    · by_cases hcut : lineEnd b.len arg.length < b.buf.length
      · refine .inl ?_
        rw [(addArg_added hz hn hcut h').buf, htake]
        exact List.map_append.symm
      · obtain ⟨hle, hnul⟩ := addArg_nul hz h' hn' hlt (Nat.not_lt.mp hcut)
        refine .inr ⟨s ++ (lengthLine arg.length).take (b.buf.length - b.len - 1), ?_, ?_⟩
        · rw [respEncodeArg_eq hz, List.append_assoc]
          exact (List.prefix_append_right_inj s).mpr
            ((List.take_prefix _ _).trans (List.prefix_append _ _))
        · rw [lineEnd] at hcut
          have hl : (s ++ (lengthLine arg.length).take (b.buf.length - b.len - 1)).length + 1 =
              b.buf.length := by
            rw [List.length_append, List.length_take]
            omega
          rw [hl, hnul, htake, List.map_append, List.append_assoc]
          exact ⟨by omega, rfl⟩
    · exact .inr ⟨p, hpre.trans (List.prefix_append _ _), Nat.lt_of_lt_of_le hle hp.le,
        (hp.take hle).trans htake⟩
  · rw [hcap', grown]
    split <;> omega

theorem addArgs_short : ∀ {argv : List Bytes} {b : RespBuf} {s : Bytes},
    (∀ arg ∈ argv, ∀ c ∈ arg, c ≠ 0) → (∀ arg ∈ argv, arg.length < 256) → Shows b s →
    b.len = s.length → b.len < b.buf.length → 1024 ≤ b.buf.length →
    ∃ b', argv.foldlM addArg b = .ok b' ∧
      Shows b' (s ++ argv.flatMap fun arg => respEncodeArg arg ++ crlf) ∧ b'.len < b'.buf.length
  | [], b, s, _, _, hr, _, hlt, _ => ⟨b, rfl, by rwa [List.flatMap_nil, List.append_nil], hlt⟩
  | arg :: argv, b, s, hz, hs, hr, hlen, hlt, hcap => by
    obtain ⟨b₁, h₁, hr₁, hlen₁, hlt₁, hcap₁⟩ :=
      addArg_short (hz arg List.mem_cons_self) (hs arg List.mem_cons_self) hr hlen hlt hcap
    obtain ⟨b', h', hr', hlt'⟩ := addArgs_short (fun a hm => hz a (List.mem_cons_of_mem _ hm))
      (fun a hm => hs a (List.mem_cons_of_mem _ hm)) hr₁ hlen₁ hlt₁ hcap₁
    refine ⟨b', ?_, ?_, hlt'⟩
    · rw [List.foldlM_cons, h₁]
      exact h'
    · rwa [List.append_assoc] at hr'

/-- Only the strings in the arguments' memory are read. -/
theorem encode_cstr (argv : List Bytes) :
    respEncodeArrayStringBuf (argv.map cstr) = respEncodeArrayStringBuf argv := by
  have harg : ∀ (b : RespBuf) (arg : Bytes), b.addArg (cstr arg) = b.addArg arg := by
    intro b arg
    have hc : cstr (cstr arg) = cstr arg := cstr_eq_self cstr_ne_zero
    rw [addArg, addArg, hc]
  rw [respEncodeArrayStringBuf, respEncodeArrayStringBuf, List.length_map]
  generalize RespBuf.print _ _ = x
  cases x with
  | error e => rfl
  | ok b => simp only [ok_bind, List.foldlM_map, harg]

theorem encodeArgs_cstr (argv : List Bytes) :
    ((argv.map cstr).flatMap fun arg => respEncodeArg arg ++ crlf) =
      argv.flatMap fun arg => respEncodeArg arg ++ crlf := by
  have harg : ∀ arg, respEncodeArg (cstr arg) = respEncodeArg arg := by
    intro arg
    rw [respEncodeArg, respEncodeArg, cstr_eq_self cstr_ne_zero]
  rw [List.flatMap_map]
  simp only [harg]

/-- Arguments of less than 256 bytes never overrun the buffer; the string that is returned may
be cut. -/
theorem encode_returns (hs : ∀ arg ∈ argv, arg.length < 256) :
    ∃ s, respEncodeArrayStringBuf argv = .ok s ∧
      s <+: argcLine argv ++ argv.flatMap fun arg => respEncodeArg arg ++ crlf := by
  rw [← encode_cstr, ← encodeArgs_cstr]
  obtain ⟨b, hb, hlen, hcap, hbuf⟩ := print_argc (argv.map cstr)
  have hlt : b.len < b.buf.length := by
    rw [hlen, hcap]
    exact length_argcLine _
  have hz : ∀ arg ∈ argv.map cstr, ∀ c ∈ arg, c ≠ 0 := by
    intro arg hm
    obtain ⟨a, -, rfl⟩ := List.mem_map.mp hm
    exact cstr_ne_zero
  have hs : ∀ arg ∈ argv.map cstr, arg.length < 256 := by
    intro arg hm
    obtain ⟨a, ha, rfl⟩ := List.mem_map.mp hm
    exact Nat.lt_of_le_of_lt (List.takeWhile_prefix _).length_le (hs a ha)
  obtain ⟨b', hb', hr', hlt'⟩ :=
    addArgs_short hz hs (.inl hbuf) hlen hlt (Nat.le_of_eq hcap.symm)
  have hall : ∀ c ∈ argcLine (argv.map cstr) ++ (argv.map cstr).flatMap (fun arg =>
      respEncodeArg arg ++ crlf), c ≠ 0 := by
    intro c hc
    rcases List.mem_append.mp hc with hc | hc
    · exact argcLine_ne_zero _ c hc
    · obtain ⟨arg, -, hc⟩ := List.mem_flatMap.mp hc
      exact encodeArg_ne_zero arg c hc
  obtain ⟨s, h, hpre⟩ := hr'.string hall hlt'
  refine ⟨s, ?_, by rwa [argcLine, List.length_map] at hpre⟩
  rw [respEncodeArrayStringBuf]
  refine bind_ok.mpr ⟨b, hb, bind_ok.mpr ⟨b', hb', ?_⟩⟩
  rw [if_pos hlt', h]

theorem fits_of_short {cap len : Nat} (hz : ∀ arg ∈ argv, ∀ c ∈ arg, c ≠ 0) (hcap : cap < 2 ^ 31)
    (h : len + (argv.flatMap fun arg => respEncodeArg arg ++ crlf).length < cap) :
    Fits cap len argv := by
  induction argv generalizing len with
  | nil => exact h
  | cons arg argv ih =>
    have hend := argEnd_eq (hz arg List.mem_cons_self) len
    rw [List.flatMap_cons, List.length_append] at h
    have hgrown : grown cap (argEnd len arg.length) = cap := if_neg (by omega)
    have hline : lineEnd len arg.length + arg.length + 2 = argEnd len arg.length := rfl
    refine ⟨by omega, by omega, by omega, ?_⟩
    rw [hgrown]
    exact ih (fun a hm => hz a (List.mem_cons_of_mem _ hm)) (by omega)

/-- A request of less than 1024 bytes is encoded. -/
theorem encode_of_short (hz : ∀ arg ∈ argv, ∀ c ∈ arg, c ≠ 0)
    (h : (respEncodeArrayString argv).length < 1024) :
    respEncodeArrayStringBuf argv = .ok (respEncodeArrayString argv) := by
  have hc : argv.length < 2 ^ 31 := by
    by_cases hne : argv = []
    · rw [hne]
      decide
    · exact (request_of_fits hne hz (Nat.lt_trans h (by decide))).argc
  refine encode_of_fits hc hz (fits_of_short hz (by decide) ?_)
  rwa [argcLine_eq hc, ← List.length_append]

/-- So is one of a few short arguments. -/
theorem encode_of_few (hfew : argv.length ≤ 9)
    (hs : ∀ arg ∈ argv, (∀ c ∈ arg, c ≠ 0) ∧ arg.length ≤ 20) :
    respEncodeArrayStringBuf argv = .ok (respEncodeArrayString argv) := by
  have hc : crlf.length = 2 := rfl
  have hlen : (argv.flatMap fun arg => respEncodeArg arg ++ crlf).length ≤ 27 * argv.length := by
    clear hfew
    induction argv with
    | nil => exact Nat.le_refl 0
    | cons arg argv ih =>
      have ih := ih fun a hm => hs a (List.mem_cons_of_mem _ hm)
      obtain ⟨hz, hl⟩ := hs arg List.mem_cons_self
      have hd := Value.length_decimal 1 (n := arg.length) (by omega)
      rw [List.flatMap_cons, List.length_append, respEncodeArg_eq hz, lengthLine]
      simp only [List.length_append, List.length_cons]
      omega
  refine encode_of_short (fun arg ha => (hs arg ha).1) ?_
  have hd := Value.length_decimal 0 (n := argv.length) (by omega)
  rw [respEncodeArrayString, List.length_append, List.length_append, List.length_cons]
  omega

end Fedis.Proof.Resp
