import Fedis.Proof.Server.Save

/-!
# The bookkeeping of `bgsave`

`isBgSaving` should stand for a child that has not been waited for (`Booked`). That holds as
long as `fork` succeeds and the signal does not take the new child away before `bgsave` has
noted it (`Undisturbed`, `bgsave_booked`). Otherwise `isBgSaving` stays set without a child,
and nothing ever clears it again (`step_stuck`).
-/

namespace Fedis.Proof.Server

open Framework

variable {p p' : Parent} {e : ParentEvent} {u : Unit} {s : Saver} {pid : Int}

/-- The steps of `bgsave` in one go are those of the call on a `Saver`. -/
theorem bgsave_steps (hpc : p.pc = .outside) (h0 : pid ≠ 0) (hnew : pid ∉ p.unreaped) :
    ∃ us p', run parentStep p [.fork pid, .storePid, .setSaving] = some (us, p') ∧
      p'.pc = .outside ∧ p'.saver.rdbChildPid = (bgsave p.saver pid).rdbChildPid ∧
      p'.saver.isBgSaving = (bgsave p.saver pid).isBgSaving := by
  have hfork : parentStep p (.fork pid) = some ((), { p with
      pc := .forked pid, running := if 0 < pid then p.running ++ [pid] else p.running }) :=
    if_pos ⟨hpc, h0, hnew⟩
  refine ⟨[(), (), ()], { p with
    saver := { p.saver with rdbChildPid := pid, isBgSaving := true }
    pc := .outside
    running := if 0 < pid then p.running ++ [pid] else p.running }, ?_, rfl, rfl, rfl⟩
  rw [run_cons, hfork]
  rfl

/-! ## The handler's loop -/

theorem sigChildLoop_cons (s : Saver) (child : Int × Bool) (exited : List (Int × Bool)) :
    sigChildLoop s (child :: exited) = sigChildLoop (sigChildHandler s child.1 child.2) exited := rfl

/-- Children that are not noted change nothing. -/
theorem sigChildLoop_other {exited : List (Int × Bool)} (h : s.rdbChildPid ∉ exited.map Prod.fst) :
    sigChildLoop s exited = s := by
  induction exited with
  | nil => rfl
  | cons child exited ih =>
    rw [List.map_cons, List.mem_cons, not_or] at h
    rw [sigChildLoop_cons, sigChildHandler, if_neg h.1, ih h.2]

theorem sigChildHandler_cleared (h : s.isBgSaving = false) (pid : Int) (success : Bool) :
    (sigChildHandler s pid success).isBgSaving = false := by
  rw [sigChildHandler]
  split
  · rfl
  · exact h

theorem sigChildLoop_cleared {exited : List (Int × Bool)} (h : s.isBgSaving = false) :
    (sigChildLoop s exited).isBgSaving = false := by
  induction exited generalizing s with
  | nil => exact h
  | cons child exited ih => exact ih (sigChildHandler_cleared h _ _)

/-- The child that is noted clears `isBgSaving`. -/
theorem sigChildLoop_noted {exited : List (Int × Bool)} (h : s.rdbChildPid ∈ exited.map Prod.fst) :
    (sigChildLoop s exited).isBgSaving = false := by
  induction exited with
  | nil => cases h
  | cons child exited ih =>
    rw [sigChildLoop_cons]
    by_cases hc : s.rdbChildPid = child.1
    · refine sigChildLoop_cleared ?_
      rw [sigChildHandler, if_pos hc]
    · rw [sigChildHandler, if_neg hc]
      exact ih ((List.mem_cons.mp h).resolve_left hc)

/-- What the signal leaves of a save that is noted: its child was among those that exited, or
nothing has changed for it. -/
theorem sigChildLoop_ok (s : Saver) (exited : List (Int × Bool)) :
    (sigChildLoop s exited).isBgSaving = false ∨
      s.rdbChildPid ∉ exited.map Prod.fst ∧ sigChildLoop s exited = s := by
  by_cases h : s.rdbChildPid ∈ exited.map Prod.fst
  · exact .inl (sigChildLoop_noted h)
  · exact .inr ⟨h, sigChildLoop_other h⟩

/-! ## One event -/

/-- `isBgSaving` stands for a child that is not waited for; inside `bgsave` the new child is
not waited for either. -/
structure Booked (p : Parent) : Prop where
  saving : p.saver.isBgSaving = true → p.saver.rdbChildPid ∈ p.unreaped
  forked : ∀ pid, p.pc = .forked pid → pid ∈ p.unreaped
  stored : p.pc = .stored → p.saver.rdbChildPid ∈ p.unreaped

/-- The child that `bgsave` has forked, while it is not done. -/
def newChild (p : Parent) : Option Int :=
  match p.pc with
  | .outside => none
  | .forked pid => some pid
  | .stored => some p.saver.rdbChildPid

/-- `fork` succeeds, and the signal does not find the new child before `bgsave` is done. -/
def Undisturbed (p : Parent) : ParentEvent → Prop
  | .fork pid => 0 < pid
  | .sigChild => ∀ pid ∈ newChild p, pid ∉ p.exited.map Prod.fst
  | _ => True

instance (p : Parent) : DecidablePred (Undisturbed p)
  | .fork pid => inferInstanceAs (Decidable (0 < pid))
  | .sigChild => inferInstanceAs (Decidable (∀ pid ∈ newChild p, pid ∉ p.exited.map Prod.fst))
  | .storePid | .setSaving | .childExit .. | .work .. => instDecidableTrue

theorem mem_unreaped {p : Parent} : pid ∈ p.unreaped ↔ pid ∈ p.running ∨ pid ∈ p.exited.map Prod.fst :=
  List.mem_append

/-- An exit leaves the child to be waited for. -/
theorem unreaped_exit {success : Bool} (hr : pid ∈ p.running) {x : Int} :
    x ∈ ({ p with running := p.running.erase pid, exited := p.exited ++ [(pid, success)] } :
      Parent).unreaped ↔ x ∈ p.unreaped := by
  simp only [mem_unreaped, List.map_append, List.map_cons, List.map_nil, List.mem_append,
    List.mem_singleton]
  by_cases hx : x = pid
  · subst hx
    simp [hr]
  · simp [hx, List.mem_erase_of_ne hx]

theorem step_booked (hb : Booked p) (hu : Undisturbed p e) (h : parentStep p e = some (u, p')) :
    Booked p' := by
  cases e with
  | fork pid =>
    obtain ⟨-, h⟩ := Option.ite_none_right_eq_some.mp h
    cases h
    have grows : ∀ x, x ∈ p.unreaped ∨ x = pid → x ∈ ({ p with
        pc := .forked pid, running := if 0 < pid then p.running ++ [pid] else p.running } :
          Parent).unreaped := by
      intro x hx
      rw [mem_unreaped, if_pos (show 0 < pid from hu)]
      simp only [mem_unreaped] at hx
      simp only [List.mem_append, List.mem_singleton]
      tauto
    exact ⟨fun hs => grows _ (.inl (hb.saving hs)), fun x hx => grows x (.inr (by cases hx; rfl)),
      nofun⟩
  | storePid =>
    simp only [parentStep] at h
    split at h
    · rename_i pid hpc
      cases h
      have hnew := hb.forked pid hpc
      exact ⟨fun _ => hnew, nofun, fun _ => hnew⟩
    · cases h
  | setSaving =>
    simp only [parentStep] at h
    split at h
    · rename_i hpc
      cases h
      exact ⟨fun _ => hb.stored hpc, nofun, nofun⟩
    · cases h
  | childExit pid success =>
    obtain ⟨hr, h⟩ := Option.ite_none_right_eq_some.mp h
    cases h
    exact ⟨fun hs => (unreaped_exit hr).mpr (hb.saving hs),
      fun x hx => (unreaped_exit hr).mpr (hb.forked x hx), fun hx => (unreaped_exit hr).mpr (hb.stored hx)⟩
  | sigChild =>
    cases h
    -- a child that is not among those that exited still runs
    have runs : ∀ x, x ∈ p.unreaped → x ∉ p.exited.map Prod.fst →
        x ∈ ({ p with saver := sigChildLoop p.saver p.exited, exited := [] } : Parent).unreaped :=
      fun x hx hn => mem_unreaped.mpr (.inl ((mem_unreaped.mp hx).resolve_right hn))
    refine ⟨fun hs => ?_, fun x hx => ?_, fun hx => ?_⟩
    · obtain hc | ⟨hn, he⟩ := sigChildLoop_ok p.saver p.exited
      · rw [hc] at hs
        cases hs
      · show (sigChildLoop p.saver p.exited).rdbChildPid ∈ _
        rw [he] at hs ⊢
        have := runs _ (hb.saving hs) hn
        rwa [he] at this
    · have hx : p.pc = .forked x := hx
      exact runs x (hb.forked x hx) (hu x (by simp [newChild, hx]))
    · have hx : p.pc = .stored := hx
      have hn := hu p.saver.rdbChildPid (by simp [newChild, hx])
      have := runs _ (hb.stored hx) hn
      show (sigChildLoop p.saver p.exited).rdbChildPid ∈ _
      rw [sigChildLoop_other hn] at this ⊢
      exact this
  | work server unixtime =>
    obtain ⟨-, h⟩ := Option.ite_none_right_eq_some.mp h
    cases h
    exact ⟨hb.saving, hb.forked, hb.stored⟩

theorem booked_init (s : Saver) : Booked (initParent s) := ⟨nofun, nofun, nofun⟩

/-- **`isBgSaving` stands for a child that is not waited for**, after every run in which `fork`
succeeds and no signal takes a new child before `bgsave` has noted it; without one, a save
that is due is begun. -/
theorem bgsave_booked {events : List ParentEvent} {us : List Unit}
    (hu : Along parentStep Undisturbed (initParent s) events)
    (h : run parentStep (initParent s) events = some (us, p)) :
    (p.saver.isBgSaving = true → p.saver.rdbChildPid ∈ p.unreaped) ∧
      (p.saver.rdbChildPid ∉ p.unreaped → ∀ now pid,
        (saveParams.any fun q => q.1 ≤ now - p.saver.lastSave ∧ q.2 ≤ p.saver.server.dirty) = true →
          bgSaveIfNeeded p.saver now pid = bgsave p.saver pid) := by
  have hb := (run_invariant (fun _ _ _ _ hi hp hs => step_booked hi hp hs) events (booked_init s)
    hu h).saving
  refine ⟨hb, fun hn now pid hdue => ?_⟩
  rw [bgSaveIfNeeded, if_neg (fun hs => hn (hb hs)), if_pos hdue]

/-- A save whose child exits, the signal, and another save. -/
theorem bgsave_booked_two : ∃ us p,
    run parentStep (initParent (startSaver (sampleServer false) true 0))
      [.fork 7, .storePid, .setSaving, .childExit 7 true, .sigChild, .fork 8, .sigChild, .storePid,
        .setSaving] = some (us, p) ∧
      p.saver.isBgSaving = true ∧ p.saver.rdbChildPid ∈ p.unreaped :=
  ⟨_, _, rfl, rfl, (@bgsave_booked _ (startSaver (sampleServer false) true 0)
    [.fork 7, .storePid, .setSaving, .childExit 7 true, .sigChild, .fork 8, .sigChild, .storePid,
      .setSaving] _ (by decide) rfl).1 rfl⟩

/-! ## Without a child -/

/-- Outside `bgsave`, `isBgSaving` is set and no child stands behind it. -/
structure Stuck (p : Parent) : Prop where
  outside : p.pc = .outside
  saving : p.saver.isBgSaving = true
  childless : p.saver.rdbChildPid ∉ p.unreaped

/-- `bgsave` is called by `bgSaveIfNeeded` only. -/
def Needed (p : Parent) : ParentEvent → Prop
  | .fork _ => p.saver.isBgSaving = false
  | _ => True

/-- Nothing clears `isBgSaving` then, and `bgSaveIfNeeded` never saves again. -/
theorem step_stuck (hs : Stuck p) (hn : Needed p e) (h : parentStep p e = some (u, p')) :
    Stuck p' := by
  obtain ⟨hpc, hsav, hno⟩ := hs
  cases e with
  | fork pid =>
    rw [Needed, hsav] at hn
    cases hn
  | storePid =>
    simp only [parentStep, hpc] at h
    cases h
  | setSaving =>
    simp only [parentStep, hpc] at h
    cases h
  | childExit pid success =>
    obtain ⟨hr, h⟩ := Option.ite_none_right_eq_some.mp h
    cases h
    exact ⟨hpc, hsav, fun hx => hno ((unreaped_exit hr).mp hx)⟩
  | sigChild =>
    cases h
    rw [mem_unreaped, not_or] at hno
    have hloop := sigChildLoop_other hno.2
    refine ⟨hpc, ?_, ?_⟩
    · show (sigChildLoop p.saver p.exited).isBgSaving = true
      rw [hloop, hsav]
    · show (sigChildLoop p.saver p.exited).rdbChildPid ∉ _
      rw [hloop, mem_unreaped]
      exact not_or.mpr ⟨hno.1, List.not_mem_nil⟩
  | work server unixtime =>
    obtain ⟨-, h⟩ := Option.ite_none_right_eq_some.mp h
    cases h
    exact ⟨hpc, hsav, hno⟩

theorem run_stuck {events : List ParentEvent} {us : List Unit} (hs : Stuck p)
    (hn : Along parentStep Needed p events) (h : run parentStep p events = some (us, p')) : Stuck p' :=
  run_invariant (fun _ _ _ _ hi hp he => step_stuck hi hp he) events hs hn h

/-- A `fork` that fails; a child that exits and is waited for before its pid is stored; and
one that is waited for before `isBgSaving` is set. -/
theorem bgsave_sticks :
    (∃ us p, run parentStep (initParent (startSaver (sampleServer false) true 0))
      [.fork (-1), .storePid, .setSaving] = some (us, p) ∧ Stuck p) ∧
    (∃ us p, run parentStep (initParent (startSaver (sampleServer false) true 0))
      [.fork 7, .childExit 7 true, .sigChild, .storePid, .setSaving] = some (us, p) ∧ Stuck p) ∧
    ∃ us p, run parentStep (initParent (startSaver (sampleServer false) true 0))
      [.fork 7, .storePid, .childExit 7 true, .sigChild, .setSaving] = some (us, p) ∧ Stuck p :=
  ⟨⟨_, _, rfl, rfl, rfl, by decide⟩, ⟨_, _, rfl, rfl, rfl, by decide⟩, ⟨_, _, rfl, rfl, rfl, by decide⟩⟩

end Fedis.Proof.Server
