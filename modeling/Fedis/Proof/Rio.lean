import Fedis.Impl.Rio
import Fedis.Proof.Sds
import Fedis.Proof.Server.Basic

/-!
# Buffer streams

A read asks `sdsrange` for the bytes up to the length of the string, one more than there are, and
`sdsrange` leaves the string as it is: what was read is there to be read again.

* `read_call`, `write_call`: the calls;
* `step_iff`: which of them are those of a stream;
* `rio_iff`: runs.
-/

namespace Fedis.Proof.Rio

open Framework Server Fedis.Proof.Sds

variable {s s' : Sds} {buf : Bytes} {n : Nat} {op : StreamOp UInt8}

/-- The sizes are those of an allocation of less than 2³¹ bytes. -/
structure Sized (s : Sds) : Prop where
  len : s.len ≤ s.alloc
  free : s.free ≤ s.alloc
  small : s.alloc < 2 ^ 31

/-- A write fits; a read gives nothing. -/
def Safe (s : Sds) : StreamOp UInt8 → Prop
  | .write buf => s.Fits buf.length
  | .read len => len = 0 ∨ s.len = 0

instance (s : Sds) : DecidablePred (Safe s)
  | .write buf => inferInstanceAs (Decidable (s.Fits buf.length))
  | .read len => inferInstanceAs (Decidable (len = 0 ∨ s.len = 0))

theorem sized_sdsempty : Sized sdsempty := by
  constructor <;> decide

/-! ## Calls -/

theorem take_content {k : Nat} (h : k ≤ s.len) : readAt s.buf 0 k = s.content.take k := by
  refine bytes_ext (by rw [length_readAt, List.length_take, length_content]; omega) fun j hj => ?_
  rw [length_readAt] at hj
  rw [List.getD_eq_getElem?_getD (l := s.content.take k), List.getElem?_take_of_lt hj,
    ← List.getD_eq_getElem?_getD, Sds.content, getD_readAt, getD_readAt, if_pos hj, if_pos (by omega)]

/-- **A read takes nothing out.** -/
theorem read_call (s : Sds) (n : Nat) : rioCall s (.read n) = some (s.content.take n, s) := by
  have hrange : ∀ k : Nat, sdsrange s k s.len = some s := by
    intro k
    have hstop : sdsIndex s s.len = s.len := if_neg (by omega)
    rw [sdsrange, hstop]
    exact if_pos (.inr (Int.le_refl _))
  rw [rioCall, rioReadFromBuffer, hrange, Option.map_some, sdslen]
  split
  · rw [take_content (Nat.le_refl _), ← length_content, List.take_length, List.take_of_length_le]
    rw [length_content]
    omega
  · rw [take_content (by omega)]

theorem sized_sdscatlen (h : Sized s) (hfit : s.Fits buf.length) : Sized (sdscatlen s buf) := by
  obtain ⟨hl, hf, hs⟩ := h
  have halloc : s.len + buf.length < sdsAllocSize (sdslen s + buf.length) := sdsAllocSize_gt _
  rw [sdscatlen]
  split
  · rename_i hgrow
    exact ⟨Nat.le_of_lt halloc, by dsimp only; omega, hfit.grow hgrow⟩
  · rename_i hplace
    exact ⟨hfit.inside (Nat.not_lt.mp hplace), hf, hs⟩

theorem toInt32_le (n : Nat) : toInt32 n ≤ n := by
  rw [toInt32, Int.bmod_def]
  split <;> omega

/-- A write: as many bytes as the `int` says. -/
theorem write_call {r : Bytes} (h : rioCall s (.write buf) = some (r, s')) :
    ∃ k : Nat, toInt32 buf.length = k ∧ s.Fits k ∧ s' = sdscatlen s (buf.take k) := by
  rw [rioCall, rioWriteToBuffer, sdscatlenInt] at h
  generalize toInt32 buf.length = n at *
  split at h
  · rename_i hfit
    cases h
    exact ⟨n.toNat, (Int.toNat_of_nonneg hfit.1).symm, hfit.2, rfl⟩
  · cases h

theorem Sized.length_lt (h : Sized s) (hfit : s.Fits n) : n < 2 ^ 31 := by
  obtain ⟨hl, hf, hs⟩ := h
  have halloc : s.len + n < sdsAllocSize (sdslen s + n) := sdsAllocSize_gt _
  rcases Nat.lt_or_ge s.free n with hgrow | hplace
  · have := hfit.grow hgrow
    omega
  · omega

theorem sized_call {r : Bytes} (h : Sized s) (hcall : rioCall s op = some (r, s')) : Sized s' := by
  cases op with
  | write buf =>
    obtain ⟨k, hk, hfit, rfl⟩ := write_call hcall
    have hle := toInt32_le buf.length
    refine sized_sdscatlen h ?_
    rwa [List.length_take, Nat.min_eq_left (by omega)]
  | read n =>
    rw [read_call] at hcall
    cases hcall
    exact h

theorem write_iff (h : Sized s) : StepFifo rioCall Sds.content s (.write buf) ↔ s.Fits buf.length := by
  constructor
  · rintro ⟨r, s', hcall, hfifo⟩
    obtain ⟨k, hk, hfit, rfl⟩ := write_call hcall
    have hcontent : (sdscatlen s (buf.take k)).content = s.content ++ buf := congrArg Prod.snd hfifo
    rw [content_sdscatlen] at hcontent
    have hlen := congrArg List.length (List.append_cancel_left hcontent)
    rw [List.length_take] at hlen
    -- all were written, so the length is an int
    have hrange := (toInt32_range buf.length).2
    rw [toInt32_eq_self (by omega) (by omega)] at hk
    rwa [Int.ofNat_inj.mp hk]
  · intro hfit
    have hlt := h.length_lt hfit
    have hself : toInt32 buf.length = buf.length := toInt32_eq_self (by omega) (by omega)
    refine ⟨[], sdscatlen s buf, ?_, Prod.ext rfl (content_sdscatlen s buf)⟩
    rw [rioCall, rioWriteToBuffer, sdscatlenInt, hself, Int.toNat_natCast, if_pos ⟨by omega, hfit⟩,
      List.take_length]
    rfl

theorem read_iff : StepFifo rioCall Sds.content s (.read n) ↔ n = 0 ∨ s.len = 0 := by
  constructor
  · rintro ⟨r, s', hcall, hfifo⟩
    rw [read_call] at hcall
    cases hcall
    have hcontent : s.content = s.content.drop n := congrArg Prod.snd hfifo
    have hlen := congrArg List.length hcontent
    rw [List.length_drop, length_content] at hlen
    omega
  · intro hempty
    refine ⟨_, _, read_call s n, Prod.ext rfl ?_⟩
    rcases hempty with rfl | hlen
    · exact List.drop_zero.symm
    · show s.content = s.content.drop n
      rw [content_of_len hlen, List.drop_nil]

theorem step_iff (h : Sized s) : StepFifo rioCall Sds.content s op ↔ Safe s op := by
  cases op with
  | write buf => exact write_iff h
  | read n => exact read_iff

/-! ## Runs -/

/-- **When the buffer is a stream**: as long as its writes fit and its reads give nothing. -/
theorem rio_iff (ops : List (StreamOp UInt8)) :
    IsFifo rioCall Sds.content sdsempty ops ↔ Along rioCall Safe sdsempty ops :=
  isFifo_iff (fun _ _ _ _ => sized_call) (fun _ _ => step_iff) ops sized_sdsempty

/-- What was read is read again, and a third write in place leaves the allocation. -/
theorem read_again :
    ¬ (∀ ops, IsFifo rioCall Sds.content sdsempty ops) ∧
    (run rioCall sdsempty [.write (bytes "Hello"), .read 5, .read 5]).map Prod.fst =
      some [[], bytes "Hello", bytes "Hello"] ∧
    run rioCall sdsempty [.write (bytes "ab"), .write (bytes "cd"), .write (bytes "ef")] = none := by
  refine ⟨fun h => ?_, by decide, by decide⟩
  obtain ⟨rs, s, hrun, -, hall⟩ := h [.write (bytes "Hello"), .read 5] _ (List.prefix_refl _)
  have hcalls : run rioCall sdsempty [.write (bytes "Hello"), .read 5] =
      some ([[], bytes "Hello"], sdscatlen sdsempty (bytes "Hello")) := by decide
  obtain ⟨rfl, rfl⟩ := Prod.mk.inj (Option.some.inj (hcalls.symm.trans hrun))
  revert hall
  decide

end Fedis.Proof.Rio
