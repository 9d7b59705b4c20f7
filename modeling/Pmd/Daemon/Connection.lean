import Pmd.Daemon.Effects

/-!
# Two sessions on one connection

What `connect_to_peer` at one end and `run_inbound` at the other do over a reliable
connection, each step against the shared state of its own daemon. The connection
opens; the acceptor either registers and accepts or finds a duplicate and rejects;
after an acceptance the dialer registers in turn, which establishes it.
-/
namespace Pmd
open Foundation

variable {P : Platform}

/-- The events that a reliable connection gives a session outside of a shutdown.
`inbox` and `rest` are the frames on their way to it before and after the event,
and `gone` says that the other end has returned. -/
inductive Delivers (inbox : List (Message P)) (gone : Bool) :
    TaskEvent P → List (Message P) → Prop
  | message {m : Message P} {rest : List (Message P)} (h : inbox = m :: rest) :
      Delivers inbox gone (.read (.message m)) rest
  | eof (h : inbox = []) (hg : gone = true) : Delivers inbox gone (.read .eof) inbox
  | wrote : Delivers inbox gone (.wrote true) inbox
  | lock {nonce : Nonce} {epoch : Option ℕ} {now : ℕ} :
      Delivers inbox gone (.lock nonce epoch now) inbox
  | heartbeat : Delivers inbox gone .heartbeatBranch inbox
  | phi : Delivers inbox gone .phiBranch inbox
  | gossip : Delivers inbox gone .gossipBranch inbox

theorem Delivers.rest_eq_nil {inbox rest : List (Message P)} {gone : Bool} {e : TaskEvent P}
    (h : Delivers inbox gone e rest) (hin : inbox = []) : rest = [] := by
  cases h with
  | message h => simp [hin] at h
  | _ => exact hin

/-- The session checks its failure detector and finds the peer dead. -/
def PhiCloses (cfg : Config) (st : DaemonState P) (s : Session P) (e : TaskEvent P) : Prop :=
  ∃ peer nonce epoch now, s.phase = .live peer .phiCheck ∧ e = .lock nonce epoch now ∧
    ((st.peers.lookup peer.nodeId).any fun h =>
      P.phiExceeds h.phiDetector now cfg.phiThreshold) = true

/-- The stages past the `HandshakeAck` and before the cleanup. -/
def Stage.isRunning : Stage P → Bool
  | .writeAck _ | .cleanup => false
  | _ => true

/-- The sync a session is about to merge decodes. -/
def Phase.Decodes (ph : Phase P) : Prop :=
  ∀ peer b v, ph = .live peer (.handle (.membershipSync b v)) → (P.crdt.decode b).isSome = true

/-- A `Handshake` that passes the checks as one of node `id`. -/
def Greets (cookie : Bytes) (id : String) (m : Message P) : Prop :=
  ∃ peer vv, checkHandshake cookie m = some (peer, vv) ∧ peer.nodeId = id

/-- A `HandshakeAck` that passes the checks as one of node `id`. -/
def Acks (cookie : Bytes) (id : String) (m : Message P) : Prop :=
  ∃ peer vv, checkAck cookie m = some (peer, vv) ∧ peer.nodeId = id

theorem greets_handshakeMessage {cookie : Bytes} {st : DaemonState P} {l : P.Addr} {nonce : Nonce} :
    Greets cookie st.membership.nodeId (handshakeMessage cookie st l nonce) :=
  ⟨⟨st.membership.nodeId, l⟩, ⊥, checkHandshake_of_proof rfl, rfl⟩

theorem acks_ackMessage {cookie : Bytes} {st : DaemonState P} {l : P.Addr} {nonce : Nonce} :
    Acks cookie st.membership.nodeId (ackMessage cookie st l nonce) := by
  refine ⟨⟨st.membership.nodeId, l⟩, st.membership.versionVector, ?_, rfl⟩
  rw [ackMessage, checkAck, if_pos ⟨rfl, verifyCookieHmac_iff.mpr rfl⟩]

structure Connection (P : Platform) where
  dialer : Session P
  acceptor : Session P
  toDialer : List (Message P)
  toAcceptor : List (Message P)

namespace Connection

/-- Connected, the acceptor not yet registered. The dialer is node `d`. -/
inductive Opening (cookie : Bytes) (d : String) (v : Connection P) : Prop
  | greeting {m : Message P} (hd : v.dialer.phase = .opening (.writeHandshake m))
      (hm : Greets cookie d m) (ha : v.acceptor.phase = .opening .readHandshake)
      (hin : v.toAcceptor = []) (hout : v.toDialer = [])
  | greeted {m : Message P} (hd : v.dialer.phase = .opening .readAck) (hm : Greets cookie d m)
      (ha : v.acceptor.phase = .opening .readHandshake) (hin : v.toAcceptor = [m])
      (hout : v.toDialer = [])
  | checking {peer : PeerId P} {vv : VersionVector String}
      (hd : v.dialer.phase = .opening .readAck)
      (ha : v.acceptor.phase = .opening (.register peer vv)) (hid : peer.nodeId = d)
      (hin : v.toAcceptor = []) (hout : v.toDialer = [])

/-- The acceptor is registered and the dialer not yet. The acceptor is node `a`. -/
inductive Accepted (cookie : Bytes) (a : String) (v : Connection P) : Prop
  | acking {peer : PeerId P} {m : Message P} (ha : v.acceptor.phase = .live peer (.writeAck m))
      (hm : Acks cookie a m) (hd : v.dialer.phase = .opening .readAck) (hin : v.toAcceptor = [])
      (hout : v.toDialer = [])
  | acked {peer : PeerId P} {stage : Stage P} {m : Message P} {rest : List (Message P)}
      (ha : v.acceptor.phase = .live peer stage) (hrun : stage.isRunning = true)
      (hd : v.dialer.phase = .opening .readAck) (hin : v.toAcceptor = [])
      (hout : v.toDialer = m :: rest) (hm : Acks cookie a m)
  | checking {peer peer' : PeerId P} {stage : Stage P} {vv : VersionVector String}
      (ha : v.acceptor.phase = .live peer stage) (hrun : stage.isRunning = true)
      (hd : v.dialer.phase = .opening (.register peer' vv)) (hid : peer'.nodeId = a)
      (hin : v.toAcceptor = [])

/-- Both ends are registered and running. -/
structure Established (v : Connection P) : Prop where
  dialer : ∃ peer stage, v.dialer.phase = .live peer stage ∧ stage.isRunning = true
  acceptor : ∃ peer stage, v.acceptor.phase = .live peer stage ∧ stage.isRunning = true

/-- The acceptor found a duplicate. -/
structure Rejected (v : Connection P) : Prop where
  acceptor : v.acceptor.phase = .ended none
  quiet : v.toDialer = []
  dialer : v.dialer.phase = .opening .readAck ∨ v.dialer.phase = .ended none

/-- The connection after a step of the dialer. -/
def afterDialer (v : Connection P) (o : Outcome P) (rest : List (Message P)) : Connection P :=
  ⟨o.session, v.acceptor, rest, v.toAcceptor ++ o.sent.toList⟩

/-- The connection after a step of the acceptor. -/
def afterAcceptor (v : Connection P) (o : Outcome P) (rest : List (Message P)) : Connection P :=
  ⟨v.dialer, o.session, v.toDialer ++ o.sent.toList, rest⟩

end Connection

section Steps
variable {cfg : Config} {cookie : Bytes} {t : TaskId} {st : DaemonState P} {s : Session P}
  {e : TaskEvent P} {o : Outcome P} {inbox rest : List (Message P)} {gone : Bool}

theorem mergeSync_isSome {key : String} {b : P.crdt.Encoded} {v : VersionVector String}
    (h : (P.crdt.decode b).isSome = true) : (st.mergeSync key b v).isSome = true := by
  obtain ⟨δ, hδ⟩ := Option.isSome_iff_exists.mp h
  simp [DaemonState.mergeSync, Membership.mergeRemote, hδ]

/-- A step that leaves all handles with their sessions. -/
theorem SessionMove.owner {peer : PeerId P} {stage : Stage P}
    (h : SessionMove cfg cookie t st s e o) (hp : s.phase = .live peer stage)
    (hrun : stage ≠ .cleanup) (k : String) : o.state.owner k = st.owner k := by
  cases h with
  | registered hp' _ _ =>
    rw [hp] at hp'
    cases hp'
  | cleaned hp' =>
    rw [hp] at hp'
    cases hp'
    exact absurd rfl hrun
  | recorded _ => exact DaemonState.owner_modifyPeer _ k fun _ => rfl
  | merged _ hm =>
    obtain ⟨δ, changes, -, rfl⟩ := DaemonState.mergeSync_eq_some hm
    exact DaemonState.owner_modifyPeer _ k fun _ => rfl
  | _ => rfl

/-- A received frame keeps a session running. -/
theorem receiveStep_running {peer : PeerId P} (hp : s.phase = .live peer .select)
    (m : Message P) :
    ∃ stage, (receiveStep st s peer (.message m)).session.phase = .live peer stage ∧
      stage.isRunning = true := by
  cases m with
  | heartbeat => exact ⟨_, rfl, rfl⟩
  | heartbeatAck => exact ⟨_, rfl, rfl⟩
  | membershipSync b v => exact ⟨_, rfl, rfl⟩
  | _ => exact ⟨_, hp, rfl⟩

theorem handleStep_running {peer : PeerId P} {m : Message P} {epoch : Option ℕ} {now : ℕ}
    (hdec : ∀ b v, m = .membershipSync b v → (P.crdt.decode b).isSome = true) :
    (handleStep st s peer epoch now m).session.phase = .live peer .select := by
  cases m with
  | membershipSync b v =>
    have hsome : (st.mergeSync peer.nodeId b v).isSome = true := mergeSync_isSome (hdec b v rfl)
    obtain ⟨st', hst⟩ := Option.isSome_iff_exists.mp hsome
    simp only [handleStep, hst]
  | _ => rfl

/-- A running session whose peer stays goes on running. -/
theorem running_step {peer : PeerId P} {stage : Stage P} (hp : s.phase = .live peer stage)
    (hcfg : 0 < cfg.heartbeatIntervalSecs) (hrun : stage.isRunning = true)
    (hdel : Delivers inbox false e rest) (hphi : ¬ PhiCloses cfg st s e) (hdec : s.phase.Decodes)
    (ho : sessionStep cfg cookie t st s e = some o) :
    (∃ stage', o.session.phase = .live peer stage' ∧ stage'.isRunning = true) ∧
      ∀ k, o.state.owner k = st.owner k := by
  have hne : stage ≠ .cleanup := fun h => by simp [h, Stage.isRunning] at hrun
  refine ⟨?_, (sessionStep_move ho).owner hp hne⟩
  simp only [sessionStep, hp] at ho
  cases stage with
  | writeAck m => cases hrun
  | buildDelta =>
    cases hdel <;> cases ho
    exact ⟨_, rfl, rfl⟩
  | writeDelta m =>
    cases hdel <;> cases ho
    exact ⟨_, rfl, rfl⟩
  | enterLoop =>
    cases hdel with
    | lock =>
      rw [stageStep, if_neg hcfg.ne'] at ho
      cases ho
      exact ⟨_, rfl, rfl⟩
    | _ => cases ho
  | select =>
    cases hdel with
    | message h =>
      cases ho
      exact receiveStep_running hp _
    | eof _ hg => cases hg
    | gossip =>
      obtain ⟨-, ho⟩ := Option.ite_none_right_eq_some.mp ho
      cases ho
      exact ⟨_, rfl, rfl⟩
    | heartbeat =>
      cases ho
      exact ⟨_, rfl, rfl⟩
    | phi =>
      cases ho
      exact ⟨_, rfl, rfl⟩
    | _ => cases ho
  | write m =>
    cases hdel <;> cases ho
    exact ⟨_, rfl, rfl⟩
  | phiCheck =>
    cases hdel with
    | @lock nonce epoch now =>
      rw [stageStep, if_neg fun h => hphi ⟨peer, nonce, epoch, now, hp, rfl, h⟩] at ho
      cases ho
      exact ⟨_, rfl, rfl⟩
    | _ => cases ho
  | gossip =>
    cases hdel with
    | lock =>
      rw [stageStep] at ho
      split at ho <;> cases ho <;> exact ⟨_, rfl, rfl⟩
    | _ => cases ho
  | handle m =>
    cases hdel with
    | lock =>
      cases ho
      exact ⟨_, handleStep_running fun b v hm => hdec peer b v (by rw [hp, hm]), rfl⟩
    | _ => cases ho
  | cleanup => cases hrun

end Steps

namespace Connection
variable {cfg : Config} {cookie : Bytes} {t : TaskId} {st : DaemonState P} {v : Connection P}
  {e : TaskEvent P} {o : Outcome P} {rest : List (Message P)} {d a : String}

theorem Opening.dialer_step (h : Opening cookie d v)
    (hdel : Delivers v.toDialer v.acceptor.phase.isEnded e rest)
    (ho : sessionStep cfg cookie t st v.dialer e = some o) :
    Opening cookie d (v.afterDialer o rest) ∧ o.state = st := by
  -- the acceptor has not ended and sends nothing: the dialer can only write its `Handshake`
  cases h with
  | greeting hd hm ha hin hout =>
    simp only [sessionStep, hd] at ho
    cases hdel <;> cases ho
    exact ⟨.greeted rfl hm ha (by simp [afterDialer, hin]) hout, rfl⟩
  | greeted hd hm ha hin hout =>
    simp only [sessionStep, hd] at ho
    cases hdel with
    | message h => simp [hout] at h
    | eof _ hg => simp [ha, Phase.isEnded] at hg
    | _ => cases ho
  | checking hd ha hid hin hout =>
    simp only [sessionStep, hd] at ho
    cases hdel with
    | message h => simp [hout] at h
    | eof _ hg => simp [ha, Phase.isEnded] at hg
    | _ => cases ho

/-- The acceptor reads the `Handshake` and then checks and registers. -/
theorem Opening.acceptor_step (h : Opening cookie d v) (hside : v.acceptor.side = .inbound)
    {l : P.Addr} (hl : cfg.listenAddr P = some l) (hnode : st.membership.nodeId = a)
    (hdel : Delivers v.toAcceptor v.dialer.phase.isEnded e rest)
    (ho : sessionStep cfg cookie t st v.acceptor e = some o) :
    (Opening cookie d (v.afterAcceptor o rest) ∧ o.state = st) ∨
    (∃ peer vv nonce epoch now, v.acceptor.phase = .opening (.register peer vv) ∧
      peer.nodeId = d ∧ e = .lock nonce epoch now ∧
      ((d ∈ st.peers ∧ Rejected (v.afterAcceptor o rest) ∧ o.state = st) ∨
        (d ∉ st.peers ∧ Accepted cookie a (v.afterAcceptor o rest) ∧
          o.state = st.insertPeer cfg t peer vv))) := by
  cases h with
  | greeting hd hm ha hin hout =>
    simp only [sessionStep, ha] at ho
    cases hdel with
    | message h => simp [hin] at h
    | eof _ hg => simp [hd, Phase.isEnded] at hg
    | _ => cases ho
  | greeted hd hm ha hin hout =>
    simp only [sessionStep, ha] at ho
    cases hdel with
    | message h =>
      rw [hin, List.cons.injEq] at h
      obtain ⟨rfl, rfl⟩ := h
      obtain ⟨peer, vv, hc, hid⟩ := hm
      simp only [openingStep, hc] at ho
      cases ho
      exact .inl ⟨.checking hd rfl hid rfl (by simp [afterAcceptor, hout]), rfl⟩
    | eof h _ => simp [hin] at h
    | _ => cases ho
  | @checking peer vv hd ha hid hin hout =>
    simp only [sessionStep, ha] at ho
    cases hdel with
    | @lock nonce epoch now =>
      refine .inr ⟨peer, vv, nonce, epoch, now, ha, hid, rfl, ?_⟩
      subst hid
      simp only [openingStep, registerStep, hside, hl, Option.some.injEq] at ho
      split at ho
      · rename_i hmem
        subst ho
        exact .inl ⟨hmem, ⟨rfl, by simp [afterAcceptor, hout], .inl hd⟩, rfl⟩
      · rename_i hmem
        subst ho
        refine .inr ⟨hmem, ?_, rfl⟩
        exact .acking rfl (hnode ▸ acks_ackMessage) hd hin (by simp [afterAcceptor, hout])
    | _ => cases ho

/-- The dialer reads the `HandshakeAck` and then checks and registers. -/
theorem Accepted.dialer_step (h : Accepted cookie a v) {addr : P.Addr}
    (hside : v.dialer.side = .outbound addr) (hnew : a ∉ st.peers)
    (hdel : Delivers v.toDialer v.acceptor.phase.isEnded e rest)
    (ho : sessionStep cfg cookie t st v.dialer e = some o) :
    (Accepted cookie a (v.afterDialer o rest) ∧ o.state = st) ∨
    (∃ peer vv, peer.nodeId = a ∧ Established (v.afterDialer o rest) ∧
      o.state = st.insertPeer cfg t peer vv) := by
  cases h with
  | acking ha hm hd hin hout =>
    simp only [sessionStep, hd] at ho
    cases hdel with
    | message h => simp [hout] at h
    | eof _ hg => simp [ha, Phase.isEnded] at hg
    | _ => cases ho
  | acked ha hrun hd hin hout hm =>
    simp only [sessionStep, hd] at ho
    cases hdel with
    | message h =>
      rw [hout, List.cons.injEq] at h
      obtain ⟨rfl, rfl⟩ := h
      obtain ⟨peer, vv, hc, hid⟩ := hm
      simp only [openingStep, hc] at ho
      cases ho
      exact .inl ⟨.checking ha hrun rfl hid (by simp [afterDialer, hin]), rfl⟩
    | eof h _ => simp [hout] at h
    | _ => cases ho
  | @checking peer peer' stage vv ha hrun hd hid hin =>
    simp only [sessionStep, hd] at ho
    cases hdel with
    | lock =>
      subst hid
      simp only [openingStep, registerStep, if_neg hnew, hside] at ho
      cases ho
      exact .inr ⟨peer', vv, rfl, ⟨⟨_, _, rfl, rfl⟩, ⟨_, _, ha, hrun⟩⟩, rfl⟩
    | _ => cases ho

theorem Accepted.acceptor_live (h : Accepted cookie a v) :
    ∃ peer stage, v.acceptor.phase = .live peer stage := by
  cases h with
  | acking ha => exact ⟨_, _, ha⟩
  | acked ha => exact ⟨_, _, ha⟩
  | checking ha => exact ⟨_, _, ha⟩

theorem Accepted.acceptor_step (h : Accepted cookie a v) (hcfg : 0 < cfg.heartbeatIntervalSecs)
    (hdel : Delivers v.toAcceptor v.dialer.phase.isEnded e rest)
    (hphi : ¬ PhiCloses cfg st v.acceptor e) (hdec : v.acceptor.phase.Decodes)
    (ho : sessionStep cfg cookie t st v.acceptor e = some o) :
    Accepted cookie a (v.afterAcceptor o rest) ∧ ∀ k, o.state.owner k = st.owner k := by
  cases h with
  | @acking peer m ha hm hd hin hout =>
    simp only [sessionStep, ha] at ho
    cases hdel <;> cases ho
    have hsent : v.toDialer ++ [m] = m :: [] := by rw [hout, List.nil_append]
    exact ⟨.acked rfl rfl hd hin hsent hm, fun _ => rfl⟩
  | @acked peer stage m rest' ha hrun hd hin hout hm =>
    rw [hd] at hdel
    obtain ⟨⟨stage, hp, hrun'⟩, howner⟩ := running_step ha hcfg hrun hdel hphi hdec ho
    have hsent : v.toDialer ++ o.sent.toList = m :: (rest' ++ o.sent.toList) := by
      rw [hout, List.cons_append]
    exact ⟨.acked hp hrun' hd (hdel.rest_eq_nil hin) hsent hm, howner⟩
  | checking ha hrun hd hid hin =>
    rw [hd] at hdel
    obtain ⟨⟨stage, hp, hrun'⟩, howner⟩ := running_step ha hcfg hrun hdel hphi hdec ho
    exact ⟨.checking hp hrun' hd hid (hdel.rest_eq_nil hin), howner⟩

theorem Established.dialer_step (h : Established v) (hcfg : 0 < cfg.heartbeatIntervalSecs)
    (hdel : Delivers v.toDialer v.acceptor.phase.isEnded e rest)
    (hphi : ¬ PhiCloses cfg st v.dialer e) (hdec : v.dialer.phase.Decodes)
    (ho : sessionStep cfg cookie t st v.dialer e = some o) :
    Established (v.afterDialer o rest) ∧ ∀ k, o.state.owner k = st.owner k := by
  obtain ⟨⟨peer, stage, hd, hrun⟩, hacc⟩ := h
  obtain ⟨peer', stage', ha, -⟩ := id hacc
  rw [ha] at hdel
  obtain ⟨⟨stage₁, hp, hrun'⟩, howner⟩ := running_step hd hcfg hrun hdel hphi hdec ho
  exact ⟨⟨⟨peer, stage₁, hp, hrun'⟩, hacc⟩, howner⟩

theorem Established.acceptor_step (h : Established v) (hcfg : 0 < cfg.heartbeatIntervalSecs)
    (hdel : Delivers v.toAcceptor v.dialer.phase.isEnded e rest)
    (hphi : ¬ PhiCloses cfg st v.acceptor e) (hdec : v.acceptor.phase.Decodes)
    (ho : sessionStep cfg cookie t st v.acceptor e = some o) :
    Established (v.afterAcceptor o rest) ∧ ∀ k, o.state.owner k = st.owner k := by
  obtain ⟨hdial, ⟨peer, stage, ha, hrun⟩⟩ := h
  obtain ⟨peer', stage', hd, -⟩ := id hdial
  rw [hd] at hdel
  obtain ⟨⟨stage₁, hp, hrun'⟩, howner⟩ := running_step ha hcfg hrun hdel hphi hdec ho
  exact ⟨⟨hdial, ⟨peer, stage₁, hp, hrun'⟩⟩, howner⟩

theorem Rejected.dialer_step (h : Rejected v)
    (hdel : Delivers v.toDialer v.acceptor.phase.isEnded e rest)
    (ho : sessionStep cfg cookie t st v.dialer e = some o) :
    Rejected (v.afterDialer o rest) ∧ o.state = st := by
  obtain ⟨ha, hout, hd | hd⟩ := h
  · simp only [sessionStep, hd] at ho
    cases hdel with
    | message h => simp [hout] at h
    | eof h hg =>
      cases ho
      exact ⟨⟨ha, hout, .inr rfl⟩, rfl⟩
    | _ => cases ho
  · simp [sessionStep, hd] at ho

theorem Rejected.acceptor_step (h : Rejected v)
    (ho : sessionStep cfg cookie t st v.acceptor e = some o) : False := by
  simp [sessionStep, h.acceptor] at ho

/-! Before the acceptor is registered, and while both ends run, neither end is about
to clean up. -/

def NoCleanup (v : Connection P) : Prop :=
  ∀ peer, v.dialer.phase ≠ .live peer .cleanup ∧ v.acceptor.phase ≠ .live peer .cleanup

theorem Opening.noCleanup (h : Opening cookie d v) : v.NoCleanup := by
  intro peer
  cases h with
  | greeting hd _ ha => simp [hd, ha]
  | greeted hd _ ha => simp [hd, ha]
  | checking hd ha => simp [hd, ha]

theorem ne_cleanup_of_isRunning {stage : Stage P} (h : stage.isRunning = true) :
    stage ≠ .cleanup := fun he => by simp [he, Stage.isRunning] at h

theorem Accepted.noCleanup (h : Accepted cookie a v) : v.NoCleanup := by
  intro peer
  cases h with
  | acking ha _ hd => simp [hd, ha]
  | acked ha hrun hd => simp [hd, ha, ne_cleanup_of_isRunning hrun]
  | checking ha hrun hd => simp [hd, ha, ne_cleanup_of_isRunning hrun]

theorem Established.noCleanup (h : Established v) : v.NoCleanup := by
  intro peer
  obtain ⟨⟨_, _, hd, hrun⟩, ⟨_, _, ha, hrun'⟩⟩ := h
  simp [hd, ha, ne_cleanup_of_isRunning hrun, ne_cleanup_of_isRunning hrun']

theorem Rejected.noCleanup (h : Rejected v) : v.NoCleanup := by
  intro peer
  obtain ⟨ha, -, hd | hd⟩ := h <;> simp [hd, ha]

end Connection
end Pmd
