import Pmd.Daemon.Connection
import Pmd.Foundation.Channels

/-!
# What a session says and what it expects

A session is the speaker of one direction of its connection and the hearer of the
other. Its phase says how far it is in both: it greets with the handshake message of
its side, and from then on says only messages of the loop. As long as it reads what
it expects, no check of the handshake fails, no message is unexpected and every sync
merges; what remains are the reasons of `Ends`.
-/
namespace Pmd
open Foundation

variable {P : Platform}

/-- The first frame that `run_inbound` and `connect_to_peer` accept. -/
def Side.Accepts (cookie : Bytes) : Side P → Message P → Prop
  | .inbound, m => (checkHandshake cookie m).isSome = true
  | .outbound _, m => (checkAck cookie m).isSome = true

/-- The first frame that a side writes is one that the other accepts. -/
def Side.Greets (cookie : Bytes) : Side P → Message P → Prop
  | .inbound, m => (checkAck cookie m).isSome = true
  | .outbound _, m => (checkHandshake cookie m).isSome = true

/-- One end has dialled and the other accepted. -/
def Side.Opposite : Side P → Side P → Prop
  | .inbound, .outbound _ | .outbound _, .inbound => True
  | _, _ => False

theorem Side.Opposite.accepts {a b : Side P} (h : a.Opposite b) {cookie : Bytes} {m : Message P}
    (hm : a.Greets cookie m) : b.Accepts cookie m := by
  cases a <;> cases b <;> first | exact hm | exact h.elim

/-- The messages of `peer_message_loop`. A `Notification` is handled there, but no daemon
sends one. -/
def Message.InLoop : Message P → Prop
  | .heartbeat | .heartbeatAck => True
  | .membershipSync b _ => (P.crdt.decode b).isSome = true
  | _ => False

namespace Session

def speaker (s : Session P) : Speaker :=
  match s.phase, s.side with
  | .opening .readAck, _ => .talking
  | .opening (.register _ _), .outbound _ => .talking
  | .opening _, _ => .silent
  | .live _ (.writeAck _), _ => .silent
  | .live _ _, _ => .talking
  | .ended _, _ => .gone

def hearer (s : Session P) : Hearer :=
  match s.phase with
  | .opening (.register _ _) => .hearing
  | .opening _ => .waiting
  | .live _ _ => .hearing
  | .ended _ => .gone

/-- The frames the session can go on with. -/
def Expects (cookie : Bytes) (s : Session P) (m : Message P) : Prop :=
  match s.hearer with
  | .waiting => s.side.Accepts cookie m
  | .hearing => m.InLoop
  | .gone => False

/-- The session stands at an await of its own side, and holds only frames of the kind
that belongs there. -/
def InRole (cookie : Bytes) (s : Session P) : Prop :=
  match s.phase, s.side with
  | .opening .connect, .outbound _ => True
  | .opening (.writeHandshake m), .outbound _ => (checkHandshake cookie m).isSome = true
  | .opening .readAck, .outbound _ => True
  | .opening .readHandshake, .inbound => True
  | .opening (.register _ _), _ => True
  | .opening _, _ => False
  | .live _ (.writeAck m), .inbound => (checkAck cookie m).isSome = true
  | .live _ (.writeAck _), .outbound _ => False
  | .live _ (.writeDelta m), _ | .live _ (.write m), _ | .live _ (.handle m), _ => m.InLoop
  | .live _ _, _ => True
  | .ended _, _ => True

/-- The session has left its handshake or its loop for good. -/
def finishing (s : Session P) : Bool :=
  match s.phase with
  | .live _ .cleanup | .ended _ => true
  | _ => false

end Session

/-- Why a session stops: the connection fails or is closed by the other end, the remote
node has another session, the daemon shuts down, the peer is taken for dead, or there is no
heartbeat interval. -/
inductive Ends (cfg : Config) (st : DaemonState P) (s : Session P) : TaskEvent P → Prop
  | connectFailed : Ends cfg st s .connectFailed
  | writeFailed : Ends cfg st s (.wrote false)
  | closed : Ends cfg st s (.read .eof)
  | readFailed : Ends cfg st s (.read .error)
  | duplicate {peer : PeerId P} {vv : VersionVector String} {nonce : Nonce} {epoch : Option ℕ}
      {now : ℕ} (hp : s.phase = .opening (.register peer vv)) (hdup : peer.nodeId ∈ st.peers) :
      Ends cfg st s (.lock nonce epoch now)
  | shutdown (hst : st.shutdown = true) : Ends cfg st s .shutdownBranch
  | suspected {e : TaskEvent P} (h : PhiCloses cfg st s e) : Ends cfg st s e
  | panicked {peer : PeerId P} {nonce : Nonce} {epoch : Option ℕ} {now : ℕ}
      (hp : s.phase = .live peer .enterLoop) (hz : cfg.heartbeatIntervalSecs = 0) :
      Ends cfg st s (.lock nonce epoch now)

/-- What a step of a session writes. -/
inductive Speaks (cookie : Bytes) (s : Session P) (o : Outcome P) : Prop
  | listens (hsent : o.sent = none) (hsp : o.session.speaker = s.speaker)
  | greets {m : Message P} (hsent : o.sent = some m) (hs : s.speaker = .silent)
      (ho : o.session.speaker = .talking) (hm : s.side.Greets cookie m)
  | talks {m : Message P} (hsent : o.sent = some m) (hs : s.speaker = .talking)
      (ho : o.session.speaker = .talking) (hm : m.InLoop)
  | leaves (hsent : o.sent = none) (ho : o.session.speaker = .gone)

/-- How a step of a session changes what it waits for. -/
inductive Hears (s : Session P) (e : TaskEvent P) (o : Outcome P) : Prop
  | same (ho : o.session.hearer = s.hearer)
      (he : s.hearer = .waiting → ∀ m, e ≠ .read (.message m))
  | heard {m : Message P} (he : e = .read (.message m)) (hs : s.hearer = .waiting)
      (ho : o.session.hearer = .hearing)
  | leaves (ho : o.session.hearer = .gone)

/-- What a step of a session in its role does to the conversation. -/
structure Turn (cfg : Config) (cookie : Bytes) (st : DaemonState P) (s : Session P)
    (e : TaskEvent P) (o : Outcome P) : Prop where
  role : o.session.InRole cookie
  speaks : Speaks cookie s o
  hears : Hears s e o
  ends : s.finishing = false → o.session.finishing = true → Ends cfg st s e

section
variable {cfg : Config} {cookie : Bytes} {t : TaskId} {st : DaemonState P} {s : Session P}
  {e : TaskEvent P} {o : Outcome P}

theorem inLoop_fullSync (st : DaemonState P) : st.fullSync.InLoop :=
  Option.isSome_iff_exists.mpr ⟨_, P.crdt.decode_encode _⟩

theorem inLoop_deltaSync (h : PeerHandle P) (st : DaemonState P) : (st.deltaSync h).InLoop :=
  Option.isSome_iff_exists.mpr ⟨_, P.crdt.decode_encode _⟩

theorem isSome_checkHandshake (st : DaemonState P) (l : P.Addr) (nonce : Nonce) :
    (checkHandshake cookie (handshakeMessage cookie st l nonce)).isSome = true := by
  obtain ⟨peer, vv, h, -⟩ :
      Greets cookie st.membership.nodeId (handshakeMessage cookie st l nonce) :=
    greets_handshakeMessage
  rw [h]
  rfl

theorem isSome_checkAck (st : DaemonState P) (l : P.Addr) (nonce : Nonce) :
    (checkAck cookie (ackMessage cookie st l nonce)).isSome = true := by
  obtain ⟨peer, vv, h, -⟩ : Acks cookie st.membership.nodeId (ackMessage cookie st l nonce) :=
    acks_ackMessage
  rw [h]
  rfl

/-- A session that returns without a frame. -/
theorem Turn.leave (hs : o.session.phase = .ended none) (hsent : o.sent = none)
    (hends : Ends cfg st s e) : Turn cfg cookie st s e o where
  role := by simp [Session.InRole, hs]
  speaks := .leaves hsent (by simp [Session.speaker, hs])
  hears := .leaves (by simp [Session.hearer, hs])
  ends _ _ := hends

/-- A step that does not end the session. -/
theorem Turn.go (hrole : o.session.InRole cookie) (hspeaks : Speaks cookie s o)
    (hhears : Hears s e o) (hgoes : o.session.finishing = false) : Turn cfg cookie st s e o where
  role := hrole
  speaks := hspeaks
  hears := hhears
  ends _ h := by simp [hgoes] at h

/-- The handshake goes on with the frame that was expected. -/
theorem Turn.opening {op : Opening P} {l : P.Addr} (hl : cfg.listenAddr P = some l)
    (hp : s.phase = .opening op) (hr : s.InRole cookie)
    (hread : ∀ m, e = .read (.message m) → s.Expects cookie m)
    (ho : openingStep cfg cookie t st s op e = some o) : Turn cfg cookie st s e o := by
  obtain ⟨side, phase, merged⟩ := s
  cases hp
  cases op with
  | connect =>
    cases e <;> simp only [openingStep, hl, Option.some.injEq, reduceCtorEq] at ho <;> subst ho
    · cases side with
      | inbound => exact hr.elim
      | outbound addr =>
        exact .go (isSome_checkHandshake st l _) (.listens rfl rfl) (.same rfl (by simp)) rfl
    · exact .leave rfl rfl .connectFailed
  | writeHandshake m =>
    cases side with
    | inbound => exact hr.elim
    | outbound addr =>
      cases e with
      | wrote ok =>
        cases ok <;> simp only [openingStep, Option.some.injEq] at ho <;> subst ho
        · exact .leave rfl rfl .writeFailed
        · exact .go trivial (.greets rfl rfl rfl hr) (.same rfl (by simp)) rfl
      | _ => cases ho
  | readHandshake =>
    cases side with
    | outbound addr => exact hr.elim
    | inbound =>
      cases e with
      | read r =>
        cases r with
        | message m =>
          have hm : (checkHandshake cookie m).isSome = true := hread m rfl
          obtain ⟨⟨peer, vv⟩, hc⟩ := Option.isSome_iff_exists.mp hm
          simp only [openingStep, hc, Option.some.injEq] at ho
          subst ho
          exact .go trivial (.listens rfl rfl) (.heard rfl rfl rfl) rfl
        | eof =>
          cases ho
          exact .leave rfl rfl .closed
        | error =>
          cases ho
          exact .leave rfl rfl .readFailed
      | _ => cases ho
  | readAck =>
    cases side with
    | inbound => exact hr.elim
    | outbound addr =>
      cases e with
      | read r =>
        cases r with
        | message m =>
          have hm : (checkAck cookie m).isSome = true := hread m rfl
          obtain ⟨⟨peer, vv⟩, hc⟩ := Option.isSome_iff_exists.mp hm
          simp only [openingStep, hc, Option.some.injEq] at ho
          subst ho
          exact .go trivial (.listens rfl rfl) (.heard rfl rfl rfl) rfl
        | eof =>
          cases ho
          exact .leave rfl rfl .closed
        | error =>
          cases ho
          exact .leave rfl rfl .readFailed
      | _ => cases ho
  | register peer vv =>
    cases e with
    | lock nonce epoch now =>
      simp only [openingStep, registerStep, Option.some.injEq] at ho
      split at ho
      · rename_i hdup
        subst ho
        exact .leave rfl rfl (.duplicate rfl hdup)
      · cases side with
        | outbound addr =>
          subst ho
          exact .go trivial (.listens rfl rfl) (.same rfl (by simp)) rfl
        | inbound =>
          simp only [hl] at ho
          subst ho
          exact .go (isSome_checkAck st l nonce) (.listens rfl rfl) (.same rfl (by simp)) rfl
    | _ => cases ho

/-- A message of the loop that needs the lock. -/
theorem Turn.handled {peer : PeerId P} {m : Message P} {nonce : Nonce} {epoch : Option ℕ}
    {now : ℕ} (hp : s.phase = .live peer (.handle m)) (hm : m.InLoop) :
    Turn cfg cookie st s (.lock nonce epoch now) (handleStep st s peer epoch now m) := by
  have hphase : (handleStep st s peer epoch now m).session.phase = .live peer .select :=
    handleStep_running fun b v h => by rwa [h] at hm
  have hsent : (handleStep st s peer epoch now m).sent = none := by
    rw [handleStep.eq_def]
    split
    · rfl
    · split <;> rfl
    · rfl
  refine .go ?_ (.listens hsent ?_) (.same ?_ (by simp)) ?_
  · simp [Session.InRole, hphase]
  · simp [Session.speaker, hphase, hp]
  · simp [Session.hearer, hphase, hp]
  · simp [Session.finishing, hphase]

/-- One turn of the loop. -/
theorem Turn.select {peer : PeerId P} (hp : s.phase = .live peer .select)
    (hread : ∀ m, e = .read (.message m) → s.Expects cookie m)
    (ho : stageStep cfg t st s peer .select e = some o) : Turn cfg cookie st s e o := by
  obtain ⟨side, phase, merged⟩ := s
  cases hp
  cases e with
  | read r =>
    cases r with
    | message m =>
      have hm : m.InLoop := hread m rfl
      cases m with
      | heartbeat =>
        cases ho
        exact .go trivial (.listens rfl rfl) (.same rfl fun h => by cases h) rfl
      | heartbeatAck =>
        cases ho
        exact .go trivial (.listens rfl rfl) (.same rfl fun h => by cases h) rfl
      | membershipSync b v =>
        cases ho
        exact .go hm (.listens rfl rfl) (.same rfl fun h => by cases h) rfl
      | _ => exact hm.elim
    | eof =>
      cases ho
      exact ⟨trivial, .listens rfl rfl, .same rfl (by simp), fun _ _ => .closed⟩
    | error =>
      cases ho
      exact ⟨trivial, .listens rfl rfl, .same rfl (by simp), fun _ _ => .readFailed⟩
  | shutdownBranch =>
    obtain ⟨hst, ho⟩ := Option.ite_none_right_eq_some.mp ho
    cases ho
    exact ⟨trivial, .listens rfl rfl, .same rfl (by simp), fun _ _ => .shutdown hst⟩
  | gossipBranch =>
    obtain ⟨-, ho⟩ := Option.ite_none_right_eq_some.mp ho
    cases ho
    exact .go trivial (.listens rfl rfl) (.same rfl (by simp)) rfl
  | heartbeatBranch =>
    cases ho
    exact .go trivial (.listens rfl rfl) (.same rfl (by simp)) rfl
  | phiBranch =>
    cases ho
    exact .go trivial (.listens rfl rfl) (.same rfl (by simp)) rfl
  | _ => cases ho

/-- A registered session stays in its loop, or leaves it for the cleanup. -/
theorem Turn.live {peer : PeerId P} {stage : Stage P} (hp : s.phase = .live peer stage)
    (hr : s.InRole cookie) (hread : ∀ m, e = .read (.message m) → s.Expects cookie m)
    (ho : stageStep cfg t st s peer stage e = some o) : Turn cfg cookie st s e o := by
  obtain ⟨side, phase, merged⟩ := s
  cases hp
  cases stage with
  | writeAck m =>
    cases side with
    | outbound addr => exact hr.elim
    | inbound =>
      cases e with
      | wrote ok =>
        cases ok <;> simp only [stageStep, Option.some.injEq] at ho <;> subst ho
        · exact ⟨trivial, .leaves rfl rfl, .leaves rfl, fun _ _ => .writeFailed⟩
        · exact .go trivial (.greets rfl rfl rfl hr) (.same rfl (by simp)) rfl
      | _ => cases ho
  | buildDelta =>
    cases e with
    | lock nonce epoch now =>
      cases ho
      exact .go (inLoop_fullSync st) (.listens rfl rfl) (.same rfl (by simp)) rfl
    | _ => cases ho
  | writeDelta m =>
    cases e with
    | wrote ok =>
      cases ok <;> simp only [stageStep, Option.some.injEq] at ho <;> subst ho
      · exact ⟨trivial, .leaves rfl rfl, .leaves rfl, fun _ _ => .writeFailed⟩
      · exact .go trivial (.talks rfl rfl rfl hr) (.same rfl (by simp)) rfl
    | _ => cases ho
  | enterLoop =>
    cases e with
    | lock nonce epoch now =>
      simp only [stageStep] at ho
      split at ho <;> cases ho
      · rename_i hz
        exact ⟨trivial, .leaves rfl rfl, .leaves rfl, fun _ _ => .panicked rfl hz⟩
      · exact .go trivial (.listens rfl rfl) (.same rfl (by simp)) rfl
    | _ => cases ho
  | select => exact .select rfl hread ho
  | write m =>
    cases e with
    | wrote ok =>
      cases ok <;> simp only [stageStep, Option.some.injEq] at ho <;> subst ho
      · exact ⟨trivial, .listens rfl rfl, .same rfl (by simp), fun _ _ => .writeFailed⟩
      · exact .go trivial (.talks rfl rfl rfl hr) (.same rfl (by simp)) rfl
    | _ => cases ho
  | phiCheck =>
    cases e with
    | lock nonce epoch now =>
      simp only [stageStep] at ho
      split at ho <;> cases ho
      · rename_i hphi
        exact ⟨trivial, .listens rfl rfl, .same rfl (by simp),
          fun _ _ => .suspected ⟨peer, nonce, epoch, now, rfl, rfl, hphi⟩⟩
      · exact .go trivial (.listens rfl rfl) (.same rfl (by simp)) rfl
    | _ => cases ho
  | gossip =>
    cases e with
    | lock nonce epoch now =>
      simp only [stageStep] at ho
      split at ho <;> cases ho
      · exact .go (inLoop_deltaSync _ st) (.listens rfl rfl) (.same rfl (by simp)) rfl
      · exact .go trivial (.listens rfl rfl) (.same rfl (by simp)) rfl
    | _ => cases ho
  | handle m =>
    cases e with
    | lock nonce epoch now =>
      cases ho
      exact .handled rfl hr
    | _ => cases ho
  | cleanup =>
    cases e with
    | lock nonce epoch now =>
      cases ho
      exact ⟨trivial, .leaves rfl rfl, .leaves rfl, fun h => by cases h⟩
    | _ => cases ho

/-- A session does not stop but for the reasons of `Ends`, as long as it keeps its role
and reads what it expects. -/
theorem Turn.of_step {l : P.Addr} (hl : cfg.listenAddr P = some l) (hr : s.InRole cookie)
    (hread : ∀ m, e = .read (.message m) → s.Expects cookie m)
    (ho : sessionStep cfg cookie t st s e = some o) : Turn cfg cookie st s e o := by
  rw [sessionStep] at ho
  split at ho
  · rename_i hp
    exact .opening hl hp hr hread ho
  · rename_i hp
    exact .live hp hr hread ho
  · cases ho

end

/-- The frame that an event takes off the connection. -/
def TaskEvent.frame : TaskEvent P → Option (Message P)
  | .read (.message m) => some m
  | _ => none

section
variable {cookie : Bytes} {s : Session P} {e : TaskEvent P} {o : Outcome P}
  {G L : Message P → Prop} {ms : List (Message P)}

theorem Speaks.orderly {hr : Hearer} (h : Speaks cookie s o)
    (ho : Orderly G Message.InLoop s.speaker hr ms) (hG : ∀ m, s.side.Greets cookie m → G m) :
    Orderly G Message.InLoop o.session.speaker hr (ms ++ o.sent.toList) := by
  cases h with
  | listens hsent hsp => simpa [hsent, hsp] using ho
  | greets hsent hs hout hm =>
    rw [hs] at ho
    rw [hsent, hout]
    exact ho.greet (hG _ hm)
  | talks hsent hs hout hm =>
    rw [hs] at ho
    rw [hsent, hout]
    exact ho.say hm
  | leaves hsent hout =>
    rw [hsent, hout, Option.toList_none, List.append_nil]
    exact ho.leave

theorem Hears.orderly {sp : Speaker} (h : Hears s e o)
    (ho : Orderly G L sp s.hearer (e.frame.toList ++ ms)) :
    Orderly G L sp o.session.hearer ms := by
  cases h with
  | same heq he =>
    rw [heq]
    cases hs : s.hearer with
    | waiting =>
      have hframe : e.frame = none := by
        rw [TaskEvent.frame.eq_def]
        split
        · exact absurd rfl (he hs _)
        · rfl
      simpa [hframe, hs] using ho
    | hearing =>
      rw [hs] at ho
      cases hf : e.frame with
      | none => simpa [hf] using ho
      | some m =>
        rw [hf] at ho
        exact ho.take.2
    | gone =>
      rw [hs] at ho
      exact ho.drop
  | heard he hs hout =>
    subst he
    rw [hs] at ho
    rw [hout]
    exact ho.hear.2
  | leaves hout =>
    rw [hout]
    exact ho.drop

/-- What a session takes off an orderly connection is what it expects. -/
theorem Session.expects_of_orderly {sp : Speaker} {m : Message P}
    (ho : Orderly (s.side.Accepts cookie) Message.InLoop sp s.hearer (m :: ms))
    (hs : s.hearer ≠ .gone) : s.Expects cookie m := by
  rw [Session.Expects]
  split
  · rename_i hw
    rw [hw] at ho
    exact ho.hear.1
  · rename_i hh
    rw [hh] at ho
    exact ho.take.1
  · rename_i hg
    exact absurd hg hs

end
end Pmd
