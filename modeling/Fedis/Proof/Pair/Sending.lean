import Fedis.Proof.Pair.Servers
import Fedis.Proof.Server.Output

/-!
# Sending, and new clients

A write that takes all of a client's output hands just that to its socket (`send_whole`); one to
another client does not concern the two (`send_other`), nor does a client that connects
(`Serving.accept`).
-/

namespace Fedis.Proof.Pair

open Framework Resp Server

variable {x c y : ClientId} {s s' : RedisServer} {state : ReplState}

theorem send_whole (hl : 0 < (s.client c).writeBuf.len) (ht : (s.client c).toclose = false)
    (hr : (s.client c).replState ≠ .masterSendFullsync) (file : Bytes) (w : RdbWrites) :
    (sendToClient (initOutputs s) c (s.client c).writeBuf.len file w).server =
        s.modifyClient c (fun client => { client with writeBuf := sdsclear client.writeBuf }) ∧
      (sendToClient (initOutputs s) c (s.client c).writeBuf.len file w).socket c =
        (s.client c).writeBuf.content := by
  have e := send_plain (o := initOutputs s) (Nat.ne_of_gt hl) ht hr file w
  have hsocket : ((initOutputs s).accept c (s.client c).writeBuf.content).socket c =
      (s.client c).writeBuf.content := if_pos rfl
  exact ⟨congrArg Outputs.server e, (congrArg (fun o => Outputs.socket o c) e).trans hsocket⟩

/-- What a write to a client leaves of the server. -/
structure Sent (s : RedisServer) (y : ClientId) (s' : RedisServer) : Prop where
  kept : Kept s s'
  db : s'.db = s.db
  other : ∀ z, z ≠ y → s'.client z = s.client z
  readBuf : (s'.client y).readBuf = (s.client y).readBuf
  multi : (s'.client y).flags.multi = (s.client y).flags.multi

theorem Sent.modify (f : RedisClient → RedisClient) (h : Sent s y s')
    (hr : ∀ a, (f a).readBuf = a.readBuf) (hm : ∀ a, (f a).flags.multi = a.flags.multi) :
    Sent s y (s'.modifyClient y f) where
  kept := h.kept.trans ⟨rfl, rfl, rfl, rfl, rfl⟩
  db := h.db
  other z hz := (modifyClient_of_ne _ _ _ hz).trans (h.other z hz)
  readBuf := by rw [modifyClient_self, hr, h.readBuf]
  multi := by rw [modifyClient_self, hm, h.multi]

theorem Sent.toclose (h : Sent s y s') : Sent s y (clientToclose s' y) :=
  h.modify _ (fun _ => rfl) fun _ => rfl

theorem Sent.replState (h : Sent s y s') (state : ReplState) :
    Sent s y (s'.modifyClient y fun client => { client with replState := state }) :=
  h.modify _ (fun _ => rfl) fun _ => rfl

theorem accept_other {o : Outputs} {bs : Bytes} (hy : x ≠ y) (ho : o.socket x = []) :
    (o.accept y bs).socket x = [] := (if_neg hy).trans ho

theorem send_other (hy : x ≠ y) (n : Int) (file : Bytes) (w : RdbWrites) :
    (sendToClient (initOutputs s) y n file w).socket x = [] ∧
      Sent s y (sendToClient (initOutputs s) y n file w).server := by
  have h₀ : Sent s y s := ⟨⟨rfl, rfl, rfl, rfl, rfl⟩, rfl, fun _ _ => rfl, rfl, rfl⟩
  have hempty : (initOutputs s).socket x = [] := rfl
  have hcleared := h₀.modify (fun client => { client with writeBuf := sdsclear client.writeBuf })
    (fun _ => rfl) fun _ => rfl
  unfold sendToClient
  dsimp only
  split
  · exact ⟨hempty, h₀.toclose⟩
  split
  · exact ⟨accept_other hy hempty, h₀⟩
  split
  · split
    · exact ⟨accept_other hy (accept_other hy hempty), (hcleared.replState _).toclose⟩
    · exact ⟨accept_other hy hempty, hcleared.toclose⟩
  · split
    · exact ⟨accept_other hy (accept_other hy hempty), hcleared.replState _⟩
    · exact ⟨accept_other hy hempty, hcleared⟩

/-- A write to a client changes no more of the server than the client. -/
theorem send_frame (y : ClientId) (n : Int) (file : Bytes) (w : RdbWrites) :
    (sendToClient (initOutputs s) y n file w).server.backlog = s.backlog ∧
      Uncounted s (sendToClient (initOutputs s) y n file w).server := by
  unfold sendToClient
  dsimp only
  split
  · exact ⟨rfl, rfl, rfl, rfl⟩
  split
  · exact ⟨rfl, rfl, rfl, rfl⟩
  split
  · split
    · exact ⟨rfl, rfl, rfl, rfl⟩
    · exact ⟨rfl, rfl, rfl, rfl⟩
  · split
    · exact ⟨rfl, rfl, rfl, rfl⟩
    · exact ⟨rfl, rfl, rfl, rfl⟩

theorem Hosting.sent (hs : Hosting x s) (hy : x ≠ y) (h : Sent s y s') : Hosting x s' := by
  have hx := h.other x hy
  refine hs.congr h.kept (hx ▸ hs.toclose) (hx ▸ hs.replState) (fun z => ?_) ?_ fun i k => ?_
  · by_cases hz : z = y
    · rw [hz, h.multi, h.readBuf]
      exact ⟨hs.multi y, hs.idle y, hs.zeroed y⟩
    · rw [h.other z hz]
      exact ⟨hs.multi z, hs.idle z, hs.zeroed z⟩
  · rw [Undated, h.db]
    exact hs.undated
  · rw [watchersAt, h.db]
    exact hs.unwatched i k

theorem Serving.sent (hs : Serving x s) (hy : x ≠ y) (h : Sent s y s') : Serving x s' :=
  (hs.hosting.sent hy h).serving (h.other x hy ▸ hs.flags)

theorem Attached.sent (hs : Attached c state s) (hy : c ≠ y) (h : Sent s y s') :
    Attached c state s' := by
  refine hs.congr h.kept (h.other c hy) hs.zeroed hs.nul (fun z => ?_) ?_ fun i k => ?_
  · by_cases hz : z = y
    · rw [hz, h.multi, h.readBuf]
      exact ⟨hs.multi y, hs.idle y⟩
    · rw [h.other z hz]
      exact ⟨hs.multi z, hs.idle z⟩
  · rw [Undated, h.db]
    exact hs.undated
  · rw [watchersAt, h.db]
    exact hs.unwatched i k

theorem Following.sent (hs : Following c s) (hy : c ≠ y) (h : Sent s y s') : Following c s' :=
  following_iff.mpr ((following_iff.mp hs).sent hy h)

/-- `s`, with the client's output sent. -/
def flushed (s : RedisServer) (c : ClientId) : RedisServer :=
  s.modifyClient c fun client => { client with writeBuf := sdsclear client.writeBuf }

theorem flushed_content (s : RedisServer) (c : ClientId) :
    ((flushed s c).client c).writeBuf.content = [] := by
  rw [flushed, modifyClient_self]
  exact content_sdsclear _

theorem Hosting.flush (hs : Hosting x s) : Hosting x (flushed s x) := by
  have hself : (flushed s x).client x =
      { s.client x with writeBuf := sdsclear (s.client x).writeBuf } := modifyClient_self _ _ _
  refine hs.modify ⟨rfl, rfl, rfl, rfl, rfl⟩ rfl rfl ?_ ?_ (hs.multi x) (hs.idle x) (hs.zeroed x)
  · rw [hself]
    exact hs.toclose
  · rw [hself]
    exact hs.replState

theorem flushed_flags (s : RedisServer) (c : ClientId) :
    ((flushed s c).client c).flags = (s.client c).flags := by
  rw [flushed, modifyClient_self]

theorem Serving.flush (hs : Serving x s) : Serving x (flushed s x) :=
  hs.hosting.flush.serving ((flushed_flags s x).trans hs.flags)

theorem Attached.flush (hs : Attached c state s) : Attached c state (flushed s c) := by
  refine hs.congr ⟨rfl, rfl, rfl, rfl, rfl⟩ (modifyClient_self _ _ _) (zeroed_sdsclear hs.zeroed)
    (by simp) (fun z => ?_) hs.undated hs.unwatched
  rw [flushed, modifyClient_client]
  split
  all_goals exact ⟨hs.multi z, hs.idle z⟩

theorem Following.flush (hs : Following c s) : Following c (flushed s c) :=
  following_iff.mpr (following_iff.mp hs).flush

section Writable

variable {D : Type} {io : RdbIO D} {fake : ClientId} {port : Int} {sl sl' : Slave D} {u : Unit}
  {m : Bytes}

/-- The slave tells its master something. -/
theorem Attached.tells (hs : Attached c state s) (hm : ∀ b ∈ m, b ≠ 0) :
    Attached c state (flushed (addWrite s c m) c) := by
  have hadd : Attached c state (addWrite s c m) := by
    refine hs.congr ⟨rfl, rfl, rfl, rfl, rfl⟩ (modifyClient_self _ _ _) (zeroed_sdscat hs.zeroed _) ?_
      (fun z => ?_) hs.undated hs.unwatched
    · rw [content_sdscat, cstr_eq_self hm]
      exact fun b hb => (List.mem_append.mp hb).elim (hs.nul b) (hm b)
    · rw [addWrite, modifyClient_client]
      split
      all_goals exact ⟨hs.multi z, hs.idle z⟩
  exact hadd.flush

/-- What `repliWriteHandler` has to say goes out with what was to be sent before. -/
theorem linkStep_tells (hs : Attached c state sl.server)
    (hmessage : messageToMaster port sl.server = some m) (hne : m ≠ []) (hnul : ∀ b ∈ m, b ≠ 0)
    (h : linkStep io fake port sl (.writable true) = some (u, sl')) :
    sl.repliWrites = true ∧ repliWritten port sl = (sl.server.client c).writeBuf.content ++ m ∧
      sl' = { sl with server := flushed (addWrite sl.server c m) c, repliWrites := false } := by
  have hbuf : ((addWrite sl.server c m).client c).writeBuf =
      sdscat (sl.server.client c).writeBuf m := by
    rw [addWrite, modifyClient_self]
  have hcontent := content_sdscat (sl.server.client c).writeBuf m
  rw [cstr_eq_self hnul] at hcontent
  have hlen : ¬ (sdscat (sl.server.client c).writeBuf m).len = 0 := by
    rw [← length_content, hcontent, List.length_append]
    have := List.length_pos_iff.mpr hne
    omega
  have hwritten : repliWritten port sl = (sl.server.client c).writeBuf.content ++ m := by
    unfold repliWritten
    rw [hs.link, hmessage]
    dsimp only
    rw [hbuf, if_neg hlen, cstr_buf (zeroed_sdscat hs.zeroed _), hcontent]
    rw [hcontent]
    exact fun b hb => (List.mem_append.mp hb).elim (hs.nul b) (hnul b)
  unfold linkStep linkEvent repliWriteHandler at h
  rw [hs.link, hmessage] at h
  dsimp only at h
  rw [hbuf, if_neg hlen] at h
  split at h
  · rename_i he
    split at he
    · rename_i hwrites
      cases h
      cases he
      exact ⟨hwrites, hwritten, rfl⟩
    · cases he
  · cases h

end Writable

theorem Hosting.accept (hs : Hosting x s) (hy : y ∉ s.clients) (ip : Bytes) (port : Int) :
    Hosting x (acceptTcpHandler s y ip port) ∧
      (acceptTcpHandler s y ip port).client x = s.client x := by
  have hx : x ≠ y := fun e => hy (e ▸ hs.mem)
  have hclient : (acceptTcpHandler s y ip port).client x = s.client x := if_neg hx
  have hnew : ∀ z, (acceptTcpHandler s y ip port).client z =
      if z = y then redisClientCreate ip port else s.client z := fun _ => rfl
  refine ⟨⟨hs.master, hs.aofOn, ?_, List.mem_append_left _ hs.mem, ?_, ?_, fun z => ?_, fun z => ?_,
    fun z => ?_, hs.undated, hs.unwatched⟩, hclient⟩
  · exact hs.nodup.append (List.nodup_singleton y) (List.disjoint_singleton.mpr hy)
  · rw [hclient, hs.toclose]
  · rw [hclient]
    exact hs.replState
  · rw [hnew]
    split
    · rfl
    · exact hs.multi z
  · rw [hnew]
    split
    · rfl
    · exact hs.idle z
  · rw [hnew]
    split
    · exact fun j _ => getD_zeros _ j
    · exact hs.zeroed z

theorem Serving.accept (hs : Serving x s) (hy : y ∉ s.clients) (ip : Bytes) (port : Int) :
    Serving x (acceptTcpHandler s y ip port) ∧
      (acceptTcpHandler s y ip port).client x = s.client x := by
  obtain ⟨hh, hx⟩ := hs.hosting.accept hy ip port
  exact ⟨hh.serving (hx ▸ hs.flags), hx⟩

end Fedis.Proof.Pair
