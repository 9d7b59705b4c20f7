import Pmd.Daemon.State

/-!
# Peer sessions

One session is one execution of `run_inbound` or `connect_to_peer`. Its phase
says at which `await` it stands; an event says how that await ended. Between two
awaits the code runs without interruption, so one event is one atomic step.

`peer_message_loop` is the part of a registered session from `enterLoop` up to
`cleanup`. Messages read by its reader task and waiting in the channel are part
of the incoming stream, since both are first in, first out.
-/
namespace Pmd
open Foundation

def CARGO_PKG_VERSION : String := "0.5.0"

inductive Side (P : Platform) where
  | inbound
  /-- `connect_to_peer(addr, ..)`. -/
  | outbound (addr : P.Addr)

/-- Awaits before registration. -/
inductive Opening (P : Platform) where
  | connect
  | writeHandshake (m : Message P)
  | readHandshake
  | readAck
  /-- Authenticated, waiting for the lock to check and register. -/
  | register (peer : PeerId P) (lastVv : VersionVector String)

/-- Awaits of a registered session. -/
inductive Stage (P : Platform) where
  | writeAck (m : Message P)
  | buildDelta
  | writeDelta (m : Message P)
  | enterLoop
  | select
  /-- `write_frame` inside a branch of the loop. -/
  | write (m : Message P)
  | phiCheck
  /-- A gossip token has been taken, the lock not yet acquired. -/
  | gossip
  /-- A received message that needs the lock. -/
  | handle (m : Message P)
  | cleanup

inductive Phase (P : Platform) where
  | opening (o : Opening P)
  | live (peer : PeerId P) (stage : Stage P)
  /-- Returned or panicked; `left` is the registered peer when the cleanup was skipped. -/
  | ended (left : Option (PeerId P))

structure Session (P : Platform) where
  side : Side P
  phase : Phase P
  /-- How many `MembershipSync` messages this session has merged. -/
  merged : ℕ

/-- How `read_frame`, or `recv` on the reader's channel, returns. -/
inductive ReadResult (P : Platform) where
  | message (m : Message P)
  | eof
  | error

inductive TaskEvent (P : Platform) where
  /-- TCP and TLS are up; `nonce` is the challenge drawn next. -/
  | connected (nonce : Nonce)
  | connectFailed
  | wrote (ok : Bool)
  | read (r : ReadResult P)
  /-- The lock is acquired; the other data are what the section draws or reads. -/
  | lock (nonce : Nonce) (epoch : Option ℕ) (now : ℕ)
  | shutdownBranch
  | heartbeatBranch
  | phiBranch
  | gossipBranch

/-- What one step does: the new shared state, the new session and the frame
written to the connection, if any. -/
structure Outcome (P : Platform) where
  state : DaemonState P
  session : Session P
  sent : Option (Message P)

variable {P : Platform}

/-- The checks `run_inbound` makes on the first message. -/
def checkHandshake (cookie : Bytes) : Message P → Option (PeerId P × VersionVector String)
  | .handshake nodeId listenAddr nonce mac _ protocolVersion =>
    if protocolVersion = PROTOCOL_VERSION ∧ verifyCookieHmac P cookie nonce mac = true then
      some (⟨nodeId, listenAddr⟩, ⊥)
    else none
  | _ => none

/-- The checks `connect_to_peer` makes on the reply. -/
def checkAck (cookie : Bytes) : Message P → Option (PeerId P × VersionVector String)
  | .handshakeAck nodeId listenAddr nonce mac vv _ protocolVersion =>
    if protocolVersion = PROTOCOL_VERSION ∧ verifyCookieHmac P cookie nonce mac = true then
      some (⟨nodeId, listenAddr⟩, vv)
    else none
  | _ => none

namespace Session

def goto (s : Session P) (phase : Phase P) : Session P := { s with phase := phase }

def accepted : Session P := ⟨.inbound, .opening .readHandshake, 0⟩

def dialing (addr : P.Addr) : Session P := ⟨.outbound addr, .opening .connect, 0⟩

end Session

def handshakeMessage (cookie : Bytes) (st : DaemonState P) (listenAddr : P.Addr) (nonce : Nonce) :
    Message P :=
  .handshake st.membership.nodeId listenAddr nonce (computeCookieHmac P cookie nonce)
    CARGO_PKG_VERSION PROTOCOL_VERSION

def ackMessage (cookie : Bytes) (st : DaemonState P) (listenAddr : P.Addr) (nonce : Nonce) :
    Message P :=
  .handshakeAck st.membership.nodeId listenAddr nonce (computeCookieHmac P cookie nonce)
    st.membership.versionVector CARGO_PKG_VERSION PROTOCOL_VERSION

/-- The check-and-register section. A duplicate, and on the inbound side an
unparsable listen address, ends the session with nothing changed. -/
def registerStep (cfg : Config) (cookie : Bytes) (t : TaskId) (st : DaemonState P) (s : Session P)
    (peer : PeerId P) (lastVv : VersionVector String) (nonce : Nonce) : Outcome P :=
  if peer.nodeId ∈ st.peers then ⟨st, s.goto (.ended none), none⟩
  else
    match s.side with
    | .outbound _ =>
      ⟨st.insertPeer cfg t peer lastVv, s.goto (.live peer .buildDelta), none⟩
    | .inbound =>
      match cfg.listenAddr P with
      | none => ⟨st, s.goto (.ended none), none⟩
      | some listenAddr =>
        ⟨st.insertPeer cfg t peer lastVv,
          s.goto (.live peer (.writeAck (ackMessage cookie st listenAddr nonce))), none⟩

def openingStep (cfg : Config) (cookie : Bytes) (t : TaskId) (st : DaemonState P)
    (s : Session P) : Opening P → TaskEvent P → Option (Outcome P)
  | .connect, .connected nonce =>
    match cfg.listenAddr P with
    | none => some ⟨st, s.goto (.ended none), none⟩
    | some listenAddr =>
      some ⟨st, s.goto (.opening (.writeHandshake (handshakeMessage cookie st listenAddr nonce))),
        none⟩
  | .connect, .connectFailed => some ⟨st, s.goto (.ended none), none⟩
  | .writeHandshake m, .wrote true => some ⟨st, s.goto (.opening .readAck), some m⟩
  | .writeHandshake _, .wrote false => some ⟨st, s.goto (.ended none), none⟩
  | .readHandshake, .read (.message m) =>
    match checkHandshake cookie m with
    | some (peer, vv) => some ⟨st, s.goto (.opening (.register peer vv)), none⟩
    | none => some ⟨st, s.goto (.ended none), none⟩
  | .readAck, .read (.message m) =>
    match checkAck cookie m with
    | some (peer, vv) => some ⟨st, s.goto (.opening (.register peer vv)), none⟩
    | none => some ⟨st, s.goto (.ended none), none⟩
  | .readHandshake, .read _ => some ⟨st, s.goto (.ended none), none⟩
  | .readAck, .read _ => some ⟨st, s.goto (.ended none), none⟩
  | .register peer vv, .lock nonce _ _ => some (registerStep cfg cookie t st s peer vv nonce)
  | _, _ => none

/-- The `recv` branch of the loop, up to the lock where one is needed. -/
def receiveStep (st : DaemonState P) (s : Session P) (peer : PeerId P) :
    ReadResult P → Outcome P
  | .message .heartbeat => ⟨st, s.goto (.live peer (.write .heartbeatAck)), none⟩
  | .message .heartbeatAck => ⟨st, s.goto (.live peer (.handle .heartbeatAck)), none⟩
  | .message (.membershipSync b v) =>
    ⟨st, s.goto (.live peer (.handle (.membershipSync b v))), none⟩
  | .message _ => ⟨st, s, none⟩
  | .eof => ⟨st, s.goto (.live peer .cleanup), none⟩
  | .error => ⟨st, s.goto (.live peer .cleanup), none⟩

def handleStep (st : DaemonState P) (s : Session P) (peer : PeerId P) (epoch : Option ℕ)
    (now : ℕ) : Message P → Outcome P
  | .heartbeatAck => ⟨st.recordHeartbeat peer.nodeId epoch now, s.goto (.live peer .select), none⟩
  | .membershipSync b v =>
    match st.mergeSync peer.nodeId b v with
    | some st' => ⟨st', { s with phase := .live peer .select, merged := s.merged + 1 }, none⟩
    | none => ⟨st, s.goto (.live peer .cleanup), none⟩
  | _ => ⟨st, s.goto (.live peer .select), none⟩

def stageStep (cfg : Config) (t : TaskId) (st : DaemonState P) (s : Session P) (peer : PeerId P) :
    Stage P → TaskEvent P → Option (Outcome P)
  | .writeAck m, .wrote true => some ⟨st, s.goto (.live peer .buildDelta), some m⟩
  | .writeAck _, .wrote false => some ⟨st, s.goto (.ended (some peer)), none⟩
  | .buildDelta, .lock _ _ _ => some ⟨st, s.goto (.live peer (.writeDelta st.fullSync)), none⟩
  | .writeDelta m, .wrote true => some ⟨st, s.goto (.live peer .enterLoop), some m⟩
  | .writeDelta _, .wrote false => some ⟨st, s.goto (.ended (some peer)), none⟩
  -- `time::interval` comes before the lock; it panics on a zero period.
  | .enterLoop, .lock _ _ _ =>
    if cfg.heartbeatIntervalSecs = 0 then some ⟨st, s.goto (.ended (some peer)), none⟩
    else some ⟨st, s.goto (.live peer .select), none⟩
  | .select, .shutdownBranch =>
    if st.shutdown then some ⟨st, s.goto (.live peer .cleanup), none⟩ else none
  | .select, .heartbeatBranch => some ⟨st, s.goto (.live peer (.write .heartbeat)), none⟩
  | .select, .phiBranch => some ⟨st, s.goto (.live peer .phiCheck), none⟩
  | .select, .gossipBranch =>
    if st.gossip t then
      some ⟨{ st with gossip := Function.update st.gossip t false },
        s.goto (.live peer .gossip), none⟩
    else none
  | .select, .read r => some (receiveStep st s peer r)
  | .write m, .wrote true => some ⟨st, s.goto (.live peer .select), some m⟩
  | .write _, .wrote false => some ⟨st, s.goto (.live peer .cleanup), none⟩
  | .phiCheck, .lock _ _ now =>
    if (st.peers.lookup peer.nodeId).any fun h => P.phiExceeds h.phiDetector now cfg.phiThreshold
    then some ⟨st, s.goto (.live peer .cleanup), none⟩
    else some ⟨st, s.goto (.live peer .select), none⟩
  | .gossip, .lock _ _ _ =>
    match st.peers.lookup peer.nodeId with
    | some h => some ⟨st, s.goto (.live peer (.write (st.deltaSync h))), none⟩
    | none => some ⟨st, s.goto (.live peer .select), none⟩
  | .handle m, .lock _ epoch now => some (handleStep st s peer epoch now m)
  | .cleanup, .lock _ _ _ => some ⟨st.cleanup peer, s.goto (.ended none), none⟩
  | _, _ => none

/-- One step of the session in task `t`. -/
def sessionStep (cfg : Config) (cookie : Bytes) (t : TaskId) (st : DaemonState P)
    (s : Session P) (e : TaskEvent P) : Option (Outcome P) :=
  match s.phase with
  | .opening o => openingStep cfg cookie t st s o e
  | .live peer stage => stageStep cfg t st s peer stage e
  | .ended _ => none

end Pmd
