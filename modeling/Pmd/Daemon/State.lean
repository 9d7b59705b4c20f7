import Pmd.Membership.Document
import Mathlib.Data.Nat.Sqrt

/-!
# Daemon state and its critical sections

`DaemonState` is the mutex-protected state shared by the tasks of one daemon.
Each definition below is the body of one critical section: what happens between
acquiring the lock and releasing it.
-/
namespace Pmd
open Foundation

abbrev TaskId := ℕ

structure PeerId (P : Platform) where
  nodeId : String
  addr : P.Addr

/-- What is tracked per connected peer. A session is named by its gossip
channel, so `gossipTx` also tells which session inserted the handle. -/
structure PeerHandle (P : Platform) where
  id : PeerId P
  lastVv : VersionVector String
  phiDetector : PhiAccrualDetector
  gossipTx : TaskId

structure DaemonState (P : Platform) where
  membership : Membership P
  listenAddr : P.Addr
  peers : StrMap (PeerHandle P)
  pendingJoins : List String
  pendingLeaves : List String
  shutdown : Bool
  shutdownRequested : Bool
  /-- Everything sent on the event channel so far. -/
  events : List MembershipChange
  /-- The gossip channels have one slot; whether it holds a token. -/
  gossip : TaskId → Bool

namespace DaemonState
variable {P : Platform}

def broadcastEvents (st : DaemonState P) (changes : List MembershipChange) : DaemonState P :=
  { st with events := st.events ++ changes }

/-- `try_send(())` to every peer; a full channel stays full. -/
def signalPeers (st : DaemonState P) : DaemonState P :=
  { st with gossip := fun t =>
      st.gossip t || decide (t ∈ st.peers.entries.map fun e => e.2.gossipTx) }

def insertPeer (cfg : Config) (t : TaskId) (peer : PeerId P) (lastVv : VersionVector String)
    (st : DaemonState P) : DaemonState P :=
  { st with
    peers := st.peers.insert peer.nodeId
      ⟨peer, lastVv, .new cfg.phiWindowSize cfg.phiMinStdDeviationMs, t⟩
    gossip := Function.update st.gossip t false }

/-- `peers.get_mut(key)`: nothing happens when the key is absent. -/
def modifyPeer (key : String) (f : PeerHandle P → PeerHandle P) (st : DaemonState P) :
    DaemonState P :=
  match st.peers.lookup key with
  | some h => { st with peers := st.peers.insert key (f h) }
  | none => st

/-- The reaction to `HeartbeatAck`. -/
def recordHeartbeat (key : String) (epoch : Option ℕ) (now : ℕ) (st : DaemonState P) :
    DaemonState P :=
  st.modifyPeer key fun h => { h with phiDetector := h.phiDetector.heartbeat epoch now }

/-- The reaction to `MembershipSync`. The document is merged whether or not the
sender still has a handle; only `lastVv` depends on it. -/
def mergeSync (key : String) (deltaBytes : P.crdt.Encoded) (senderVv : VersionVector String)
    (st : DaemonState P) : Option (DaemonState P) := do
  let (merged, changes) ← st.membership.mergeRemote deltaBytes
  let st₁ := { st with membership := merged }
  return (st₁.modifyPeer key fun h => { h with lastVv := senderVv }).broadcastEvents changes

/-- The message sent first on every session. -/
def fullSync (st : DaemonState P) : Message P :=
  .membershipSync st.membership.fullDelta st.membership.versionVector

/-- The message built on a gossip tick, against the vector last heard of the peer. -/
def deltaSync (h : PeerHandle P) (st : DaemonState P) : Message P :=
  .membershipSync (st.membership.deltaForPeer h.lastVv) st.membership.versionVector

/-- Step 6 of both session functions: drop the handle, tombstone the node,
report it and signal the remaining peers. The handle dropped is whatever stands
under the node id. -/
def cleanup (peer : PeerId P) (st : DaemonState P) : DaemonState P :=
  let st₁ := { st with
    peers := st.peers.erase peer.nodeId
    membership := st.membership.removeNode peer.nodeId }
  (st₁.broadcastEvents [⟨.nodeLeft, peer.nodeId, P.printAddr peer.addr⟩]).signalPeers

/-- One iteration of the leave loop of `process_tick`. -/
def leave (addr : String) (st : DaemonState P) : DaemonState P :=
  let toRemove := (st.peers.entries.filter fun e => P.printAddr e.2.id.addr = addr).map Sigma.fst
  { st with peers := toRemove.foldl (fun m k => m.erase k) st.peers }

/-- The state-changing part of `dispatch_request`; the other requests only read. -/
def dispatchRequest (st : DaemonState P) : ControlRequest → DaemonState P
  | .join addr => { st with pendingJoins := st.pendingJoins ++ [addr] }
  | .leave addr => { st with pendingLeaves := st.pendingLeaves ++ [addr] }
  | .shutdown => { st with shutdownRequested := true }
  | .register name port metadata =>
    { st with membership := st.membership.registerService name port metadata }
  | .unregister name => { st with membership := st.membership.unregisterService name }
  | .status | .nodes | .lookup _ | .subscribe => st

/-- The discovery forwarding task. -/
def forwardDiscovered (addr : P.Addr) (st : DaemonState P) : DaemonState P :=
  if (st.peers.entries.any fun e => e.2.id.addr = addr) ||
      st.pendingJoins.contains (P.printAddr addr) then st
  else { st with pendingJoins := st.pendingJoins ++ [P.printAddr addr] }

/-- The number of peers mesh expansion aims at: the square root, rounded up. -/
def meshTarget (n : ℕ) : ℕ := if n.sqrt * n.sqrt = n then n.sqrt else n.sqrt + 1

/-- `choice` stands for the random index into the candidates. -/
def meshExpandRandomPeer (choice : ℕ) (st : DaemonState P) : DaemonState P :=
  let members := st.membership.members
  let directPeers := st.peers.entries.length
  if meshTarget members.length ≤ directPeers ∨ members.length - 1 ≤ directPeers then st
  else
    let indirect := members.filter fun n => n.nodeId ≠ st.membership.nodeId ∧ n.nodeId ∉ st.peers
    match indirect[choice]? with
    | some node =>
      if st.pendingJoins.contains (P.printAddr node.addr) then st
      else { st with pendingJoins := st.pendingJoins ++ [P.printAddr node.addr] }
    | none => st

/-- The first half of the shutdown sequence: remove the daemon itself and signal
every peer to sync. -/
def removeSelf (st : DaemonState P) : DaemonState P :=
  { st with membership := st.membership.removeNode st.membership.nodeId }.signalPeers

end DaemonState
end Pmd
