import Fedis.Impl.Link
import Fedis.Proof.Repli.Loop
import Fedis.Proof.Server.SetGet

/-!
# When a connected slave has a master

A slave that is not in the connected state may lose its master, and handlers of the
master's socket are registered only as long as there is one (`Linked`). A reconnection
keeps this if it does not begin in the connected state, or if a connection can be made at
once (`reconnect_linking`); requests keep it (`request_linked`), and so does what the
master sends (`readMaster_keeps`). `linked_ok` is the run, and `cron_unlinks` what another
timer does.
-/

namespace Fedis.Proof.Repli

open Framework Server Relation Resp

variable {D : Type} {io : RdbIO D} {env : Env} {c fake m : ClientId} {sl sl' : Slave D}
  {s s' : RedisServer} {port : Int} {argv : List Bytes}

/-- What a slave's state says about its master. -/
structure Linked (sl : Slave D) : Prop where
  connected : sl.server.replState = .slaveConnected → sl.server.master ≠ none
  reads : sl.repliReads = true → sl.server.master ≠ none
  writes : sl.repliWrites = true → sl.server.master ≠ none

/-- With a master there is nothing to say. -/
theorem linked_of_master (h : sl.server.master = some m) : Linked sl := by
  have hne : sl.server.master ≠ none := by
    rw [h]
    simp
  exact ⟨fun _ => hne, fun _ => hne, fun _ => hne⟩

/-! ## Messages -/

/-- The encoder's buffer is large enough for what a slave sends. -/
theorem messages_encoded (hp : inLong port) (ho : inLong s.offset) :
    respEncodeArrayStringBuf [bytes "REPLCONF", bytes "listen-port", decimalInt port] =
        .ok (respEncodeArrayString [bytes "REPLCONF", bytes "listen-port", decimalInt port]) ∧
      respEncodeArrayStringBuf [bytes "SYNC", (decimalInt s.offset).take 15] =
        .ok (respEncodeArrayString [bytes "SYNC", (decimalInt s.offset).take 15]) ∧
      respEncodeArrayStringBuf [bytes "REPLACK", decimalInt s.offset] =
        .ok (respEncodeArrayString [bytes "REPLACK", decimalInt s.offset]) := by
  have hz := Value.decimalInt_ne_zero
  have hlp := Value.length_decimalInt hp
  have hlo := Value.length_decimalInt ho
  refine ⟨encode_of_few (by simp) fun arg ha => ?_, encode_of_few (by simp) fun arg ha => ?_,
    encode_of_few (by simp) fun arg ha => ?_⟩
  · rcases List.mem_cons.mp ha with rfl | ha
    · exact ⟨by decide +kernel, by decide⟩
    · rcases List.mem_cons.mp ha with rfl | ha
      · exact ⟨by decide +kernel, by decide⟩
      · rw [List.mem_singleton.mp ha]
        exact ⟨hz port, hlp⟩
  · rcases List.mem_cons.mp ha with rfl | ha
    · exact ⟨by decide +kernel, by decide⟩
    · rw [List.mem_singleton.mp ha]
      refine ⟨fun b hb => hz _ b (List.mem_of_mem_take hb), ?_⟩
      rw [List.length_take]
      omega
  · rcases List.mem_cons.mp ha with rfl | ha
    · exact ⟨by decide +kernel, by decide⟩
    · rw [List.mem_singleton.mp ha]
      exact ⟨hz _, hlo⟩

/-! ## Connections -/

theorem connectMaster_made (fresh : ClientId) (s : RedisServer) :
    (∃ m, (connectMaster ⟨0, some fresh⟩ s).master = some m) ∧
      (connectMaster ⟨0, some fresh⟩ s).replState = .slaveConnecting := by
  unfold connectMaster
  exact ⟨⟨_, rfl⟩, rfl⟩

/-- The connection is not yet in the connected state. -/
structure Linking (sl : Slave D) : Prop extends Linked sl where
  state : sl.server.replState ≠ .slaveConnected

theorem linking_dropMaster (h : sl.server.replState ≠ .slaveConnected) : Linking (dropMaster sl) where
  connected hs := absurd hs h
  reads hr := absurd hr (by simp [dropMaster])
  writes hw := absurd hw (by simp [dropMaster])
  state := h

theorem linking_writes (h : Linking sl) :
    Linking { sl with repliWrites := sl.server.master.isSome } where
  connected := h.connected
  reads := h.reads
  writes hw := Option.isSome_iff_ne_none.mp hw
  state := h.state

theorem connectMasterBy_made (fresh : ClientId) (reads writes : Option Attempt) (sl : Slave D) :
    connectMasterBy (.made fresh reads writes) sl =
      (let sl := { sl with server := connectMaster ⟨0, some fresh⟩ sl.server }
       let sl := match reads with
         | none => { sl with repliReads := true }
         | some a => connectMasterBy a (dropMaster sl)
       match writes with
       | none => { sl with repliWrites := sl.server.master.isSome }
       | some a => connectMasterBy a (dropMaster sl)) := by
  cases reads <;> cases writes <;> rfl

/-- After an attempt that connects the state is not the connected one, and so it is after
one that does not, if it was not before. -/
theorem connects_linking : ∀ (a : Attempt) {sl : Slave D}, Linking sl ∨ a.connects = true →
    Linking (connectMasterBy a sl)
  | .failed, sl, h => h.resolve_right (by simp [Attempt.connects])
  | .made fresh reads writes, sl, _ => by
    obtain ⟨⟨m, hm⟩, hs⟩ := connectMaster_made fresh sl.server
    have hopen : (connectMaster ⟨0, some fresh⟩ sl.server).replState ≠ .slaveConnected := by
      rw [hs]
      decide
    rw [connectMasterBy_made]
    generalize connectMaster ⟨0, some fresh⟩ sl.server = server at hm hopen
    cases reads with
    | none =>
      have h₁ : Linking { sl with server := server, repliReads := true } :=
        { linked_of_master (m := m) hm with state := hopen }
      cases writes with
      | none => exact linking_writes h₁
      | some a => exact connects_linking a (.inl (linking_dropMaster h₁.state))
    | some r =>
      have h₁ : Linking (connectMasterBy r (dropMaster { sl with server := server })) :=
        connects_linking r (.inl (linking_dropMaster hopen))
      cases writes with
      | none => exact linking_writes h₁
      | some a => exact connects_linking a (.inl (linking_dropMaster h₁.state))

theorem reconnect_linking {a : Attempt}
    (h : sl.server.replState ≠ .slaveConnected ∨ a.connects = true) :
    Linking (reconnectMaster a sl) := by
  refine connects_linking a ?_
  rcases h with h | h
  · exact .inl (linking_dropMaster h)
  · exact .inr h

/-! ## Requests -/

/-- A command changes the master, or the state, only where there is no master. -/
theorem call_link {query : RedisServer → ClientId → Except Fault RedisServer} (hne : NotExec s c argv)
    (h : processCommand query env s c argv = .ok s') :
    (s'.replState = s.replState ∧ s'.master = s.master) ∨
      s.master = none ∧ (s'.replState = s.replState ∨ s'.replState = .slaveConnecting) := by
  obtain ⟨-, ⟨-, rfl⟩ | ⟨cmd, t, hf, ht, rfl⟩⟩ := processCommand_ok.mp h
  · exact .inl ⟨rfl, rfl⟩
  · by_cases hp : cmd.proc = .slaveof
    · obtain ⟨t, ht, e⟩ := processCommand_slaveof hf hp h
      rw [e]
      obtain ⟨arg, ip, port, rest, -, -, hm, rfl⟩ := commandSlaveofProc_ok.mp ht
      refine .inr ⟨hm, ?_⟩
      show (connectMaster env _).replState = _ ∨ (connectMaster env _).replState = _
      unfold connectMaster
      cases env.connect with
      | none => exact .inl rfl
      | some fresh => exact .inr rfl
    · have hframe := executed_server (hne cmd hf) ht
      have hrepl : (clearReadBuf (replicate t c cmd) c).replState = t.replState :=
        replied_field (·.replState) fun _ _ _ _ _ => rfl
      have hmaster : (clearReadBuf (replicate t c cmd) c).master = t.master :=
        replied_field (·.master) fun _ _ _ _ _ => rfl
      rw [hrepl, hmaster]
      exact .inl ⟨hframe.replState hp, hframe.master.trans (if_neg hp)⟩

theorem small_link (h : Small env c s s') :
    (s'.replState = s.replState ∧ s'.master = s.master) ∨
      s.master = none ∧ (s'.replState = s.replState ∨ s'.replState = .slaveConnecting) := by
  cases h with
  | command query s s' argv hne h => exact call_link hne h
  | exec s argv h => exact .inl ⟨rfl, rfl⟩
  | client s f h => exact .inl ⟨rfl, rfl⟩

theorem chain_master (h : ReflTransGen (Small env c) s s') (hm : s.master = some m) :
    s'.master = some m := by
  induction h with
  | refl => exact hm
  | tail _ h ih =>
    obtain ⟨-, hkeep⟩ | ⟨hnone, -⟩ := small_link h
    · rw [hkeep, ih]
    · rw [hnone] at ih
      cases ih

theorem chain_state (h : ReflTransGen (Small env c) s s') (hs : s.replState ≠ .slaveConnected) :
    s'.replState ≠ .slaveConnected := by
  induction h with
  | refl => exact hs
  | tail _ h ih =>
    obtain ⟨hkeep, -⟩ | ⟨-, hkeep | hnew⟩ := small_link h
    · rwa [hkeep]
    · rwa [hkeep]
    · rw [hnew]
      decide

/-- A request keeps the master that there is, and may bring one. -/
theorem request_linked (hl : Linked sl) {nread : Bytes}
    (h : readFromClient env sl.server c nread = .ok s') :
    let linked := sl.server.master.isNone && s'.master.isSome
    Linked { sl with
      server := s'
      repliReads := sl.repliReads || linked
      repliWrites := sl.repliWrites || linked } := by
  have hsteps := read_small h
  cases hm : sl.server.master with
  | some m => exact linked_of_master (chain_master hsteps hm)
  | none =>
    have hstate : s'.replState ≠ .slaveConnected := chain_state hsteps fun hs => hl.connected hs hm
    have hsome : ∀ b : Bool, (b = true → sl.server.master ≠ none) →
        (b || (true && s'.master.isSome)) = true → s'.master ≠ none := by
      intro b hb h
      obtain h | h := (Bool.or_eq_true ..).mp h
      · exact absurd hm (hb h)
      · exact Option.isSome_iff_ne_none.mp h
    exact ⟨fun hs => absurd hs hstate, hsome _ hl.reads, hsome _ hl.writes⟩

/-! ## Reading from the master -/

theorem rangeReadBuf_master {start : Int} (h : rangeReadBuf c start s = .ok s') :
    s'.master = s.master := by
  unfold rangeReadBuf at h
  dsimp only at h
  split at h
  · cases h
  · cases h
    rfl

theorem takeLine_master {line : Bytes} {next : ReplState} {writes : Bool}
    (h : takeLine c line next writes sl = .ok sl') : sl'.server.master = sl.server.master := by
  unfold takeLine at h
  split at h
  · obtain ⟨server, hs, h⟩ := bind_ok.mp h
    cases h
    exact (rangeReadBuf_master hs).trans rfl
  · cases h
    rfl

theorem appendSyncLoop_master {n : Nat} (h : appendSyncLoop env c fake n s = .ok s')
    (hm : s.master = some m) : s'.master = some m := by
  induction n generalizing s with
  | zero => cases h
  | succ n ih =>
    obtain ⟨o, -, h⟩ := bind_ok.mp h
    cases o with
    | none =>
      cases h
      exact hm
    | some endptr =>
      obtain ⟨t, ht, h⟩ := bind_ok.mp h
      obtain ⟨u, hu, h⟩ := bind_ok.mp h
      refine ih h ((rangeReadBuf_master hu).trans ?_)
      exact chain_master (small_query ht) hm

theorem turn_master (h : repliTurn io env c fake sl = .ok sl') (hm : sl.server.master = some m) :
    sl'.server.master = some m := by
  unfold repliTurn at h
  split at h
  · exact (takeLine_master h).trans hm
  · exact (takeLine_master h).trans hm
  · obtain ⟨sl₁, h₁, h⟩ := bind_ok.mp h
    obtain ⟨sl₂, h₂, h₃⟩ := bind_ok.mp h
    rw [takeLine_master h₃, takeLine_master h₂, takeLine_master h₁, hm]
  · obtain ⟨server, hs, h⟩ := bind_ok.mp h
    cases h
    obtain ⟨t, ht, hs⟩ := bind_ok.mp hs
    cases hs
    have hloop : t.master = some m := appendSyncLoop_master ht hm
    exact hloop
  · unfold receiveRdb at h
    split at h
    · cases h
      exact hm
    · obtain ⟨server, hs, h⟩ := bind_ok.mp h
      dsimp only at h
      split at h
      · cases h
      · obtain ⟨db, -, h⟩ := bind_ok.mp h
        obtain ⟨server', hs', h⟩ := bind_ok.mp h
        cases h
        exact (rangeReadBuf_master hs').trans ((rangeReadBuf_master hs).trans hm)
  · split at h
    · obtain ⟨sl₁, h₁, h⟩ := bind_ok.mp h
      cases h
      exact (takeLine_master h₁).trans hm
    · cases h
      exact hm
  · cases h
    exact hm

/-- No missing master is used, and what is left is so. -/
def Keeps (P : Slave D → Prop) (r : Except LinkFault (Option (Slave D))) : Prop :=
  r ≠ .error .missingMaster ∧ ∀ sl, r = .ok (some sl) → P sl

section Keeps

variable {P Q : Slave D → Prop}

theorem keeps_other (e : Fault) : Keeps P (.error (.other e)) := by simp [Keeps]

theorem keeps_none : Keeps P (.ok none) := by simp [Keeps]

theorem keeps_some (h : P sl) : Keeps P (.ok (some sl)) := by
  refine ⟨by simp, fun sl' h' => ?_⟩
  cases h'
  exact h

theorem keeps_bind {α : Type} {r : Except Fault α} {f : α → Except LinkFault (Option (Slave D))}
    (h : ∀ a, r = .ok a → Keeps P (f a)) : Keeps P (r.mapError .other >>= f) := by
  cases r with
  | error e => exact keeps_other e
  | ok a => exact h a rfl

theorem Keeps.mono {r : Except LinkFault (Option (Slave D))} (hr : Keeps P r)
    (h : ∀ sl, P sl → Q sl) : Keeps Q r :=
  ⟨hr.1, fun sl hsl => h sl (hr.2 sl hsl)⟩

end Keeps

/-- As long as every registration works, the loop reads the client of the same master. -/
theorem readMasterLoop_keeps {n : Nat} {registered : List Bool}
    (hreg : ∀ b ∈ registered, b = true) (hm : sl.server.master = some m) :
    Keeps (fun sl => sl.server.master = some m) (readMasterLoop io env c fake n registered sl) := by
  induction n generalizing sl registered with
  | zero => exact keeps_none
  | succ n ih =>
    have hhead : (turnRegisters c sl && !registered.headD true) = false := by
      cases registered with
      | nil => simp
      | cons b registered => simp [hreg b List.mem_cons_self]
    rw [readMasterLoop]
    simp only [hhead, Bool.false_eq_true, if_false]
    split
    · exact keeps_some hm
    · refine keeps_bind fun sl₁ hturn => keeps_bind fun o _ => ?_
      cases o with
      | none => exact keeps_some (turn_master hturn hm)
      | some endptr =>
        refine ih (fun b hb => hreg b ?_) (turn_master hturn hm)
        split at hb
        · exact List.mem_of_mem_tail hb
        · exact hb

theorem readMaster_keeps {n : Nat} {registered : List Bool} {nread : Bytes}
    (hreg : ∀ b ∈ registered, b = true) (hm : sl.server.master = some m) :
    Keeps (fun sl => sl.server.master = some m) (readMaster io env c fake n registered sl nread) := by
  have hreceive : (receive c sl nread).server.master = some m := hm
  have hloop : Keeps (fun sl => sl.server.master = some m)
      (readMasterLoop io env c fake n registered (receive c sl nread)) :=
    readMasterLoop_keeps hreg hreceive
  unfold readMaster
  split
  · exact keeps_other .abort
  · revert hloop
    cases readMasterLoop io env c fake n registered (receive c sl nread) with
    | error e => exact fun h => ⟨fun he => h.1 (by cases he; rfl), fun sl' he => by cases he⟩
    | ok o =>
      intro h
      cases o with
      | none => exact keeps_none
      | some sl' =>
        have hm' := h.2 sl' rfl
        have hsome : sl'.server.master.isSome = true := by rw [hm']; rfl
        show Keeps _ (if sl'.server.master.isSome then .ok (some sl') else .error .missingMaster)
        rw [if_pos hsome]
        exact keeps_some hm'

/-! ## Events -/

/-- The first attempt of a reconnection that the timer makes in the connected state connects,
and the registrations of the read handler work. -/
def Steady (sl : Slave D) : LinkEvent → Prop
  | .cron write timeout =>
    sl.server.replState = .slaveConnected → ∀ a ∈ write.or timeout, a.connects = true
  | .readable _ _ _ registered => ∀ b ∈ registered, b = true
  | _ => True

theorem start_linked (a : Attempt) (hl : Linked sl) : Linked (connectMasterBy a sl) := by
  cases a with
  | failed => exact hl
  | made fresh reads writes => exact (connects_linking (.made fresh reads writes) (.inr rfl)).toLinked

/-- The timer looks for the heartbeat after it has looked at the state. -/
theorem timeout_linked {timeout : Option Attempt} (hl : Linked sl)
    (h : sl.server.replState ≠ .slaveConnected ∨ ∀ a ∈ timeout, a.connects = true) :
    ∃ sl', (match timeout with
      | none => (.ok sl : Except LinkFault (Slave D))
      | some a => .ok (if sl.server.master.isSome then reconnectMaster a sl else sl)) = .ok sl' ∧
        Linked sl' := by
  cases timeout with
  | none => exact ⟨sl, rfl, hl⟩
  | some a =>
    refine ⟨_, rfl, ?_⟩
    split
    · refine (reconnect_linking (h.imp_right fun h => h a rfl)).toLinked
    · exact hl

theorem slaveCron_linked {write timeout : Option Attempt} (hl : Linked sl)
    (h : sl.server.replState = .slaveConnected → ∀ a ∈ write.or timeout, a.connects = true) :
    ∃ sl', slaveCron write timeout sl = .ok sl' ∧ Linked sl' := by
  unfold slaveCron
  by_cases hs : sl.server.replState = .slaveConnected
  · rw [if_pos hs]
    obtain ⟨m, hm⟩ := Option.ne_none_iff_exists'.mp (hl.connected hs)
    rw [hm]
    cases write with
    | none => exact timeout_linked (linked_of_master hm) (.inr fun a ha => h hs a ha)
    | some a =>
      have hlinking : Linking (reconnectMaster a sl) := reconnect_linking (.inr (h hs a rfl))
      exact timeout_linked hlinking.toLinked (.inl hlinking.state)
  · rw [if_neg hs]
    exact timeout_linked hl (.inl hs)

theorem repliWriteHandler_master {wrote : Bool} (hm : sl.server.master = some m) :
    ∃ sl', repliWriteHandler port wrote sl = .ok sl' ∧ sl'.server.master = some m := by
  have hsend : ∀ server : RedisServer, server.master = some m → ∃ sl',
      (if (server.client m).writeBuf.len = 0 then
        .ok { sl with server := server, repliWrites := false }
      else if wrote then
        .ok { sl with
          server := server.modifyClient m fun client =>
            { client with writeBuf := sdsclear client.writeBuf }
          repliWrites := false }
      else .ok { sl with server := server } : Except LinkFault (Slave D)) = .ok sl' ∧
        sl'.server.master = some m := by
    intro server hmaster
    split
    · exact ⟨_, rfl, hmaster⟩
    · split
      · exact ⟨_, rfl, hmaster⟩
      · exact ⟨_, rfl, hmaster⟩
  unfold repliWriteHandler
  rw [hm]
  cases messageToMaster port sl.server with
  | none => exact hsend sl.server hm
  | some str => exact hsend (addWrite sl.server m str) hm

theorem linkEvent_keeps (e : LinkEvent) (hl : Linked sl) (hs : Steady sl e) :
    Keeps Linked (linkEvent io fake port sl e) := by
  cases e with
  | start a => exact keeps_some (start_linked a hl)
  | slaveof client ip masterport a =>
    refine keeps_bind fun server hserver => ?_
    unfold masterToSlave at hserver
    split at hserver
    · cases hserver
    · rename_i hnone
      cases hserver
      have hm : sl.server.master = none := by simpa using hnone
      refine keeps_some (start_linked a ⟨fun hs => ?_, hl.reads, hl.writes⟩)
      exact absurd hm (hl.connected hs)
  | request r => exact keeps_bind fun server hserver => keeps_some (request_linked hl hserver)
  | cron write timeout =>
    show Keeps Linked (if _ then _ else _)
    split
    · obtain ⟨sl', he, h⟩ := slaveCron_linked hl hs
      rw [he]
      exact keeps_some h
    · exact keeps_some hl
  | readable env nread turns registered =>
    show Keeps Linked (if _ then _ else _)
    split
    · rename_i hreads
      obtain ⟨m, hm⟩ := Option.ne_none_iff_exists'.mp (hl.reads hreads)
      rw [hm]
      exact (readMaster_keeps hs hm).mono fun sl h => linked_of_master h
    · exact keeps_none
  | writable wrote =>
    show Keeps Linked (if _ then _ else _)
    split
    · rename_i hwrites
      obtain ⟨m, hm⟩ := Option.ne_none_iff_exists'.mp (hl.writes hwrites)
      obtain ⟨sl', he, h⟩ : ∃ sl', repliWriteHandler port wrote sl = .ok sl' ∧
          sl'.server.master = some m := repliWriteHandler_master hm
      rw [he]
      exact keeps_some (linked_of_master h)
    · exact keeps_none

/-- The timer uses the master of a connected slave. -/
theorem cron_missing (hslave : sl.server.flags.slave = true)
    (hs : sl.server.replState = .slaveConnected) (hm : sl.server.master = none)
    (write timeout : Option Attempt) :
    linkEvent io fake port sl (.cron write timeout) = .error .missingMaster := by
  simp only [linkEvent, hslave, if_true, slaveCron, hs, hm]
  rfl

/-- A timer whose first attempt fails, in the connected state, leaves that state without a
master. -/
theorem cron_unlinks {write timeout : Option Attempt} (hslave : sl.server.flags.slave = true)
    (hs : sl.server.replState = .slaveConnected) (hm : sl.server.master = some m)
    (hfail : write.or timeout = some .failed) :
    linkEvent io fake port sl (.cron write timeout) = .ok (some (dropMaster sl)) := by
  show (if sl.server.flags.slave then (slaveCron write timeout sl).map some else .ok (some sl)) = _
  rw [if_pos hslave]
  unfold slaveCron
  rw [if_pos hs, hm]
  cases write with
  | none =>
    obtain rfl : timeout = some .failed := hfail
    show (Except.ok (if sl.server.master.isSome then _ else _) : Except LinkFault (Slave D)).map _ = _
    rw [hm]
    rfl
  | some a =>
    obtain rfl : a = .failed := Option.some.inj hfail
    cases timeout <;> rfl

theorem not_steady_cron {write timeout : Option Attempt} (h : ¬ Steady sl (.cron write timeout)) :
    sl.server.replState = .slaveConnected ∧ write.or timeout = some .failed := by
  unfold Steady at h
  push Not at h
  obtain ⟨hs, a, ha, hfail⟩ := h
  refine ⟨hs, ?_⟩
  cases a with
  | failed => exact ha
  | made fresh reads writes => exact absurd rfl hfail

/-- **A connected slave has a master** after every run whose timer, in the connected state,
first makes an attempt that connects, and whose read handler's registrations work. The next
such event uses no missing master, and another timer leaves a connected slave without one. -/
theorem linked_ok (io : RdbIO D) (fake : ClientId) (port id : Int) (flags : ServerFlags)
    (dbnum : Nat) (aofOn : Bool) (disk : D) {events : List LinkEvent} {us : List Unit} {sl : Slave D}
    (hsteady : Along (linkStep io fake port) Steady (initSlave id flags dbnum aofOn disk) events)
    (hrun : run (linkStep io fake port) (initSlave id flags dbnum aofOn disk) events = some (us, sl)) :
    (sl.server.replState = .slaveConnected → sl.server.master ≠ none) ∧
      (∀ e, Steady sl e → linkEvent io fake port sl e ≠ .error .missingMaster) ∧
      ∀ write timeout, sl.server.flags.slave = true → ¬ Steady sl (.cron write timeout) →
        ∃ sl', linkEvent io fake port sl (.cron write timeout) = .ok (some sl') ∧
          sl'.server.replState = .slaveConnected ∧ sl'.server.master = none := by
  have hinit : Linked (initSlave id flags dbnum aofOn disk) := by
    refine ⟨fun hs => ?_, fun hr => ?_, fun hw => ?_⟩
    · cases hs
    · cases hr
    · cases hw
  have hstep : ∀ (sl : Slave D) (e : LinkEvent) (u : Unit) (sl' : Slave D), Linked sl →
      Steady sl e → linkStep io fake port sl e = some (u, sl') → Linked sl' := by
    intro sl e u sl' hl hs h
    have hkeeps : Keeps Linked (linkEvent io fake port sl e) := linkEvent_keeps e hl hs
    unfold linkStep at h
    split at h
    · rename_i he
      cases h
      exact hkeeps.2 _ he
    · cases h
  have hl : Linked sl := run_invariant hstep events hinit hsteady hrun
  refine ⟨hl.connected, fun e hs => (linkEvent_keeps e hl hs).1, fun write timeout hslave h => ?_⟩
  obtain ⟨hs, hfail⟩ := not_steady_cron h
  obtain ⟨m, hm⟩ := Option.ne_none_iff_exists'.mp (hl.connected hs)
  exact ⟨_, cron_unlinks hslave hs hm hfail, hs, rfl⟩

/-- A slave that connects at its start and is told that it needs no synchronisation. -/
def sampleConnects : List LinkEvent :=
  [.start (.made 1 none none), .readable ⟨0, none⟩ resp.pong 1 [], .readable ⟨0, none⟩ resp.ok 1 [],
    .readable ⟨0, none⟩ resp.nosync 1 []]

/-- The heartbeat of a connected slave. -/
theorem linked_ok_heartbeat : ∃ us sl, run (linkStep noRdb 2 6379)
      (initSlave 1 ⟨false, true, false⟩ 1 false ()) (sampleConnects ++ [.cron none none]) = some (us, sl) ∧
    sl.server.replState = .slaveConnected ∧ sl.server.master ≠ none ∧
      ∀ e, Steady sl e → linkEvent noRdb 2 6379 sl e ≠ .error .missingMaster := by
  have hall : (run (linkStep noRdb 2 6379) (initSlave 1 ⟨false, true, false⟩ 1 false ())
      (sampleConnects ++ [.cron none none])).map (fun r => r.2.server.replState) =
        some .slaveConnected := by decide
  obtain ⟨⟨us, sl⟩, hrun, hs⟩ := Option.map_eq_some_iff.mp hall
  have hsteady : Along (linkStep noRdb 2 6379) Steady (initSlave 1 ⟨false, true, false⟩ 1 false ())
      (sampleConnects ++ [.cron none none]) := by
    refine along_of_forall fun e he sl => ?_
    simp only [sampleConnects, List.cons_append, List.nil_append, List.mem_cons, List.not_mem_nil,
      or_false] at he
    rcases he with rfl | rfl | rfl | rfl | rfl
    all_goals simp [Steady]
  obtain ⟨hmaster, hnext, -⟩ := linked_ok noRdb 2 6379 1 _ 1 false () hsteady hrun
  exact ⟨us, sl, hrun, hs, hmaster hs, hnext⟩

/-- A heartbeat that is too old, and a master that cannot be reached: the slave is connected
without a master, and its next heartbeat uses it. -/
theorem heartbeat_unlinks : ∃ us sl, run (linkStep noRdb 2 6379)
      (initSlave 1 ⟨false, true, false⟩ 1 false ())
        (sampleConnects ++ [.cron none (some .failed)]) = some (us, sl) ∧
    sl.server.replState = .slaveConnected ∧ sl.server.master = none ∧
      linkEvent noRdb 2 6379 sl (.cron none none) = .error .missingMaster := by
  have hall : (run (linkStep noRdb 2 6379) (initSlave 1 ⟨false, true, false⟩ 1 false ())
      (sampleConnects ++ [.cron none (some .failed)])).map (fun r =>
        (r.2.server.flags.slave, r.2.server.replState, r.2.server.master)) =
          some (true, .slaveConnected, none) := by decide
  obtain ⟨⟨us, sl⟩, hrun, hall⟩ := Option.map_eq_some_iff.mp hall
  simp only [Prod.mk.injEq] at hall
  obtain ⟨hslave, hs, hm⟩ := hall
  exact ⟨us, sl, hrun, hs, hm, cron_missing hslave hs hm none none⟩

end Fedis.Proof.Repli
