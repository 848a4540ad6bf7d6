import Fedis.Framework.Run
import Fedis.Impl.Aof
import Fedis.Proof.Server.Basic

/-!
# The two buffers of the AOF

The thread empties `ioBuf` before it waits again, so that a swap hands an empty buffer to the
main thread (`swaps_empty`). Between `write` and `sdsclear` the bytes are in the file and in
`ioBuf`; at all other times the file and the two buffers are what was appended, as long as
every append has room and every `write` takes the whole buffer (`aof_keeps`).
-/

namespace Fedis.Proof.Server

open Framework

variable {everysec : Bool} {aof aof' : Aof} {file : Bytes} {e : AofEvent} {u : Unit}

/-- The read buffer of a logged command is appended. -/
theorem feedAof_appends (s : RedisServer) (c : ClientId) (cmd : RedisCommand)
    (h : aof.activeBuf = s.activeBuf) (hlen : (s.client c).readBuf.len ≤ (s.client c).readBuf.alloc)
    (hfit : s.activeBuf.Fits (s.client c).readBuf.len)
    (hl : (!(s.client c).flags.fake && s.aofOn && cmd.write) = true) :
    ∃ aof', aofStep everysec aof (.append (s.client c).readBuf) = some ((), aof') ∧
      aof'.activeBuf = (feedAof s c cmd).activeBuf := by
  refine ⟨_, if_pos ⟨hlen, by rwa [h]⟩, ?_⟩
  rw [feedAof, if_pos hl, h]

/-! ## The buffer at a swap -/

/-- Outside a turn `ioBuf` is empty. -/
def Emptied (aof : Aof) : Prop :=
  aof.thread = .waiting ∨ aof.thread = .cleared → aof.ioBuf.content = []

theorem step_emptied (hi : Emptied aof) (h : aofStep everysec aof e = some (u, aof')) :
    Emptied aof' := by
  cases e with
  | append readBuf =>
    obtain ⟨-, h⟩ := Option.ite_none_right_eq_some.mp h
    cases h
    exact hi
  | swap mstime =>
    obtain ⟨-, h⟩ := Option.ite_none_right_eq_some.mp h
    cases h
    exact nofun
  | write nwritten =>
    obtain ⟨-, h⟩ := Option.ite_none_right_eq_some.mp h
    cases h
    exact nofun
  | clear =>
    obtain ⟨-, h⟩ := Option.ite_none_right_eq_some.mp h
    cases h
    exact fun _ => content_sdsclear _
  | done =>
    obtain ⟨ht, h⟩ := Option.ite_none_right_eq_some.mp h
    cases h
    exact fun _ => hi (.inr ht)

/-! ## What was appended -/

/-- A `write` takes all of `ioBuf`. -/
def WritesAll (aof : Aof) : AofEvent → Prop
  | .write nwritten => nwritten = aof.ioBuf.len
  | _ => True

instance (aof : Aof) : DecidablePred (WritesAll aof)
  | .write _ => decEq _ _
  | .append _ | .swap _ | .clear | .done => instDecidableTrue

/-- The bytes of `ioBuf` that are not in the file yet. -/
def unwritten (aof : Aof) : Bytes := if aof.thread = .written then [] else aof.ioBuf.content

/-- The file and the buffers hold what the file had, and then what was appended. -/
def Accounted (file : Bytes) (aof : Aof) : Prop :=
  aof.file ++ unwritten aof ++ aof.activeBuf.content = file ++ aof.appended

theorem step_accounted (hi : Emptied aof) (hk : Accounted file aof) (hw : WritesAll aof e)
    (h : aofStep everysec aof e = some (u, aof')) : Accounted file aof' := by
  rw [Accounted, unwritten] at hk
  cases e with
  | append readBuf =>
    obtain ⟨-, h⟩ := Option.ite_none_right_eq_some.mp h
    cases h
    show aof.file ++ unwritten aof ++ (sdscatlen aof.activeBuf readBuf.content).content = _
    rw [content_sdscatlen, ← List.append_assoc, unwritten, hk, List.append_assoc]
  | swap mstime =>
    obtain ⟨⟨ht, -⟩, h⟩ := Option.ite_none_right_eq_some.mp h
    cases h
    show aof.file ++ aof.activeBuf.content ++ aof.ioBuf.content = _
    rw [if_neg (by rw [ht]; decide), hi (.inl ht), List.append_nil] at hk
    rw [hi (.inl ht), List.append_nil, hk]
  | write nwritten =>
    obtain ⟨⟨ht, -, -⟩, h⟩ := Option.ite_none_right_eq_some.mp h
    cases h
    have hall : aof.ioBuf.content.take nwritten.toNat = aof.ioBuf.content := by
      refine List.take_of_length_le (Nat.le_of_eq ?_)
      rw [Sds.content, length_readAt, show nwritten = aof.ioBuf.len from hw, Int.toNat_natCast]
    show aof.file ++ aof.ioBuf.content.take nwritten.toNat ++ [] ++ aof.activeBuf.content = _
    rw [if_neg (by rw [ht]; decide)] at hk
    rw [hall, List.append_nil, hk]
  | clear =>
    obtain ⟨ht, h⟩ := Option.ite_none_right_eq_some.mp h
    cases h
    show aof.file ++ (sdsclear aof.ioBuf).content ++ aof.activeBuf.content = _
    rw [if_pos ht] at hk
    rw [content_sdsclear, hk]
  | done =>
    obtain ⟨ht, h⟩ := Option.ite_none_right_eq_some.mp h
    cases h
    show aof.file ++ aof.ioBuf.content ++ aof.activeBuf.content = _
    rw [if_neg (by rw [ht]; decide)] at hk
    exact hk

/-! ## Runs -/

theorem emptied_init (file : Bytes) : Emptied (aofInit file) := fun _ => rfl

theorem accounted_init (file : Bytes) : Accounted file (aofInit file) := by
  show file ++ [] ++ [] = file ++ []
  rw [List.append_nil]

/-- The buffer that a swap hands to the main thread is empty, whatever the writes return. -/
theorem swaps_empty {events : List AofEvent} {us : List Unit}
    (h : run (aofStep everysec) (aofInit file) events = some (us, aof)) :
    Along (aofStep everysec) (fun aof e => ∀ mstime, e = .swap mstime → aof.ioBuf.content = [])
      (aofInit file) events := by
  refine run_along (I := Emptied) (fun aof e u aof' hi hs => ⟨?_, step_emptied hi hs⟩) events
    (emptied_init file) h
  rintro mstime rfl
  obtain ⟨⟨ht, -⟩, -⟩ := Option.ite_none_right_eq_some.mp hs
  exact hi (.inl ht)

/-- **The AOF's buffers lose nothing** in a run whose writes take the whole buffer: the file,
`ioBuf` and `activeBuf` hold what was appended, without `ioBuf` between `write` and
`sdsclear`. In every run a swap finds `ioBuf` empty. -/
theorem aof_keeps {events : List AofEvent} {us : List Unit}
    (h : run (aofStep everysec) (aofInit file) events = some (us, aof)) :
    (Along (aofStep everysec) WritesAll (aofInit file) events →
      (aof.thread ≠ .written →
        aof.file ++ aof.ioBuf.content ++ aof.activeBuf.content = file ++ aof.appended) ∧
      (aof.thread = .written → aof.file ++ aof.activeBuf.content = file ++ aof.appended)) ∧
    Along (aofStep everysec) (fun aof e => ∀ mstime, e = .swap mstime → aof.ioBuf.content = [])
      (aofInit file) events := by
  refine ⟨fun hw => ?_, swaps_empty h⟩
  have hk : Accounted file aof := (run_invariant (I := fun aof => Emptied aof ∧ Accounted file aof)
    (fun _ _ _ _ hi hp hs => ⟨step_emptied hi.1 hs, step_accounted hi.1 hi.2 hp hs⟩) events
    ⟨emptied_init file, accounted_init file⟩ hw h).2
  rw [Accounted, unwritten] at hk
  constructor
  · intro ht
    rwa [if_neg ht] at hk
  · intro ht
    rwa [if_pos ht, List.append_nil] at hk

/-- Two commands, the second of which comes while the first is written. -/
theorem aof_keeps_two : ∃ us aof, run (aofStep true) (aofInit [])
      [.append (sdsnew (bytes "ab")), .swap 2000, .append (sdsnew (bytes "cd")), .write 2, .clear,
        .done] = some (us, aof) ∧
    aof.file ++ aof.ioBuf.content ++ aof.activeBuf.content = bytes "abcd" := by
  refine ⟨_, _, rfl, ((@aof_keeps true _ [] [.append (sdsnew (bytes "ab")), .swap 2000,
    .append (sdsnew (bytes "cd")), .write 2, .clear, .done] _ rfl).1 (by decide)).1
    (by decide)⟩

/-- Between `write` and `sdsclear` the command is in the file and in `ioBuf`; after a `write`
that fails it is nowhere; and a third append before a swap leaves the buffer's allocation. -/
theorem aof_twice_or_never :
    (∃ us aof, run (aofStep true) (aofInit [])
        [.append (sdsnew (bytes "ab")), .swap 2000, .write 2] = some (us, aof) ∧
      aof.appended = bytes "ab" ∧
      aof.file ++ aof.ioBuf.content ++ aof.activeBuf.content = bytes "abab") ∧
    (∃ us aof, run (aofStep true) (aofInit [])
        [.append (sdsnew (bytes "ab")), .swap 2000, .write (-1), .clear] = some (us, aof) ∧
      aof.appended = bytes "ab" ∧
      aof.file ++ aof.ioBuf.content ++ aof.activeBuf.content = []) ∧
    run (aofStep true) (aofInit []) (List.replicate 3 (.append (sdsnew (bytes "ab")))) = none :=
  ⟨⟨_, _, rfl, by decide, by decide⟩, ⟨_, _, rfl, by decide, by decide⟩, by decide⟩

end Fedis.Proof.Server
