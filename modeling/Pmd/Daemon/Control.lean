import Pmd.Daemon.Step
import Pmd.Protocol.Control

/-!
# Requests on the control socket

A client connects, writes its request on one line and reads one line back. The task that
serves it reads the line, acquires the lock for one request, and writes the response. Both
ends read and write a character at a time, so what arrives may be cut anywhere, and either
may fail between two characters. A subscriber is written its events after the first line.

`served` lists the requests in the order in which they took the lock, each with the state
it met there; the program does not keep such a list.
-/
namespace Pmd.Control
open Foundation

variable {P : Platform}

/-- What the responses show and the daemon itself never reads. -/
structure Display (P : Platform) where
  Level : Type
  /-- `phi()` at an instant. -/
  phi : PhiAccrualDetector → ℕ → Level
  printIp : P.Addr → String

variable (D : Display P)

/-! ## The responses -/

def serviceEntry (n : NodeInfo P) (s : ServiceInfo) : ServiceEntry :=
  ⟨s.name, n.nodeId, D.printIp n.addr, s.port, s.metadata⟩

/-- `clock` gives the instant at which the level of a node is computed. -/
def nodeInfoResponse (st : DaemonState P) (clock : String → ℕ) (n : NodeInfo P) :
    NodeInfoResponse D.Level :=
  let isLocal : Bool := n.nodeId = st.membership.nodeId
  let peer := if isLocal then none else st.peers.lookup n.nodeId
  { nodeId := n.nodeId
    addr := P.printAddr n.addr
    joinedAt := n.joinedAt
    metadata := n.metadata
    services := n.services.map (serviceEntry D n)
    phi := peer.map fun h => D.phi h.phiDetector (clock n.nodeId)
    lastSeenAt := peer.bind fun h => h.phiDetector.lastHeartbeatEpoch
    isLocal := isLocal }

/-- What `dispatch_request` answers. -/
def response (st : DaemonState P) (clock : String → ℕ) : ControlRequest → ControlResponse D.Level
  | .status => .status st.membership.nodeId (P.printAddr st.listenAddr) st.peers.entries.length
      st.membership.members.length
  | .nodes => .nodes (st.membership.members.map (nodeInfoResponse D st clock))
  | .lookup name => .services ((st.membership.lookupService name).map fun e =>
      ⟨name, e.1, D.printIp e.2.1, e.2.2.1, e.2.2.2⟩)
  | .join _ | .leave _ | .shutdown | .register .. | .unregister _ | .subscribe => .ok

/-! ## One connection -/

/-- Where `send_control_request` stands. -/
inductive ClientPhase where
  | writing
  | reading (got : List Char)
  | returned (response : ControlResponse D.Level)
  /-- An error was returned, or the process is gone. -/
  | failed

/-- Where `handle_control_client` stands. -/
inductive ServerPhase where
  | reading (got : List Char)
  /-- The request is parsed, the lock not yet acquired. -/
  | waiting (request : ControlRequest)
  | writing (rest : List Char) (subscribed : Bool)
  | receiving
  /-- The task has returned. -/
  | closed

structure Conn where
  request : ControlRequest
  client : ClientPhase D
  /-- All that the client has written. -/
  sent : List Char
  server : ServerPhase
  /-- All that the task has written. -/
  reply : List Char

inductive ConnEvent where
  | clientWrote
  | clientRead
  | clientEof
  | clientFailed
  | serverRead
  | serverEof
  | serverFailed
  | serverWrote
  /-- A change arrives on the event channel. -/
  | serverEvent (change : MembershipChange)

def ClientPhase.isOpen : ClientPhase D → Bool
  | .writing | .reading _ => true
  | .returned _ | .failed => false

/-- `serde_json` for the two enums. -/
structure Formats where
  request : LineCodec ControlRequest
  response : LineCodec (ControlResponse D.Level)

variable {D} (J : Formats D)

/-- What `read_line` has returned is parsed. -/
def readRequest (line : List Char) : ServerPhase :=
  match J.request.ofLine line with
  | some r => .waiting r
  | none => .closed

def readResponse (line : List Char) : ClientPhase D :=
  match J.response.ofLine line with
  | some r => .returned r
  | none => .failed

namespace Conn

def connect (request : ControlRequest) : Conn D := ⟨request, .writing, [], .reading [], []⟩

/-- A character is written. -/
def clientWrote (c : Conn D) : Option (Conn D) :=
  match c.client with
  | .writing => ((J.request.line c.request)[c.sent.length]?).map fun x =>
    { c with
      sent := c.sent ++ [x]
      client := if c.sent.length + 1 = (J.request.line c.request).length then .reading []
        else .writing }
  | _ => none

/-- A character is read; the newline ends the line. -/
def clientRead (c : Conn D) : Option (Conn D) :=
  match c.client with
  | .reading got => (c.reply[got.length]?).map fun x =>
    { c with client := if x = '\n' then readResponse J (got ++ [x]) else .reading (got ++ [x]) }
  | _ => none

/-- The stream ends; what has been read is the line. -/
def clientEof (c : Conn D) : Option (Conn D) :=
  match c.client, c.server with
  | .reading got, .closed =>
    if got.length = c.reply.length then some { c with client := readResponse J got } else none
  | _, _ => none

def clientFailed (c : Conn D) : Option (Conn D) :=
  if c.client.isOpen then some { c with client := .failed } else none

def serverRead (c : Conn D) : Option (Conn D) :=
  match c.server with
  | .reading got => (c.sent[got.length]?).map fun x =>
    { c with server := if x = '\n' then readRequest J (got ++ [x]) else .reading (got ++ [x]) }
  | _ => none

def serverEof (c : Conn D) : Option (Conn D) :=
  match c.server with
  | .reading got =>
    if c.client.isOpen = false ∧ got.length = c.sent.length then
      some { c with server := readRequest J got }
    else none
  | _ => none

def serverFailed (c : Conn D) : Option (Conn D) :=
  match c.server with
  | .closed => none
  | _ => some { c with server := .closed }

/-- After the response the connection is closed, or the events follow. -/
def serverWrote (c : Conn D) : Option (Conn D) :=
  match c.server with
  | .writing [] subscribed =>
    some { c with server := if subscribed then .receiving else .closed }
  | .writing (x :: rest) subscribed =>
    some { c with reply := c.reply ++ [x], server := .writing rest subscribed }
  | _ => none

def serverEvent (change : MembershipChange) (c : Conn D) : Option (Conn D) :=
  match c.server with
  | .receiving =>
    let event := .event change.event change.nodeId change.addr
    some { c with server := .writing (J.response.line event) true }
  | _ => none

def step (c : Conn D) : ConnEvent → Option (Conn D)
  | .clientWrote => c.clientWrote J
  | .clientRead => c.clientRead J
  | .clientEof => c.clientEof J
  | .clientFailed => c.clientFailed
  | .serverRead => c.serverRead J
  | .serverEof => c.serverEof J
  | .serverFailed => c.serverFailed
  | .serverWrote => c.serverWrote
  | .serverEvent change => c.serverEvent J change

/-- The response is computed while the lock is held, and written afterwards. -/
def serve (response : ControlResponse D.Level) (subscribed : Bool) (c : Conn D) : Conn D :=
  { c with server := .writing (J.response.line response) subscribed }

end Conn

/-! ## The daemon and its connections -/

/-- A request that took the lock. -/
structure Served (P : Platform) where
  conn : ℕ
  request : ControlRequest
  state : DaemonState P
  clock : String → ℕ

variable (D) in
/-- The response to it. -/
def Served.response (e : Served P) : ControlResponse D.Level :=
  Control.response D e.state e.clock e.request

variable (D) in
structure Controlled where
  daemon : Daemon P
  conns : List (Conn D)
  served : List (Served P)

inductive ControlAct (P : Platform) where
  /-- Anything that is not a control request. -/
  | daemon (a : Act P)
  | connect (request : ControlRequest)
  | conn (i : ℕ) (e : ConnEvent)
  /-- The task of a connection acquires the lock. -/
  | serve (i : ℕ) (clock : String → ℕ)

def ControlRequest.isSubscribe : ControlRequest → Bool
  | .subscribe => true
  | _ => false

namespace Controlled
variable (cfg : Config) (cookie : Bytes)

def serve (s : Controlled D) (i : ℕ) (clock : String → ℕ) : Option (Controlled D) := do
  let c ← s.conns[i]?
  match c.server with
  | .waiting r =>
    let e : Served P := ⟨i, r, s.daemon.state, clock⟩
    let (d, _) ← s.daemon.step cfg cookie (.request r)
    return {
      daemon := d
      conns := s.conns.set i (c.serve J (e.response D) (ControlRequest.isSubscribe r))
      served := s.served ++ [e] }
  | _ => none

def step (s : Controlled D) : ControlAct P → Option (Controlled D)
  | .daemon (.request _) => none
  | .daemon a => (s.daemon.step cfg cookie a).map fun o => { s with daemon := o.1 }
  | .connect r => some { s with conns := s.conns ++ [.connect r] }
  | .conn i e => do
    let c ← s.conns[i]?
    let c' ← c.step J e
    return { s with conns := s.conns.set i c' }
  | .serve i clock => s.serve J cfg cookie i clock

/-- A daemon in any environment, with any clients. -/
def system : System (Controlled D) (ControlAct P) where
  init s := (Daemon.system P cfg cookie).init s.daemon ∧ s.conns = [] ∧ s.served = []
  step := step J cfg cookie

end Controlled
end Pmd.Control
