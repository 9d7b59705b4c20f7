import Pmd.Daemon.Effects
import Pmd.Membership.Writes

/-!
# What a step does to the document

Requests write under the daemon's own services, the shutdown sequence and the
session cleanups tombstone a node, and a received sync is merged. No other step
touches the document.
-/
namespace Pmd
open Foundation

variable {P : Platform}

namespace Daemon

/-- The document after a step, by the kind of step. -/
inductive DocMove (d d' : Daemon P) : Act P → Prop
  | same {a : Act P} (hd : d'.doc = d.doc) : DocMove d d' a
  | request {r : ControlRequest}
      (hd : P.crdt.Edits (IsServiceEdit d.state.membership.nodeId) d.doc d'.doc) :
      DocMove d d' (.request r)
  | removeSelf (hmain : d.main = .stopping)
      (hd : P.crdt.Edits (IsRemoval d.state.membership.nodeId) d.doc d'.doc) :
      DocMove d d' .removeSelf
  | cleaned {t : TaskId} {s : Session P} {peer : PeerId P} {nonce : Nonce} {epoch : Option ℕ}
      {now : ℕ} (hs : d.tasks[t]? = some s) (hp : s.phase = .live peer .cleanup)
      (hd : P.crdt.Edits (IsRemoval peer.nodeId) d.doc d'.doc) :
      DocMove d d' (.task t (.lock nonce epoch now))
  | merged {t : TaskId} {s : Session P} {e : TaskEvent P} {peer : PeerId P}
      {b : P.crdt.Encoded} {v : VersionVector String} {δ : P.crdt.Delta}
      (hs : d.tasks[t]? = some s) (hp : s.phase = .live peer (.handle (.membershipSync b v)))
      (hb : P.crdt.decode b = some δ) (hd : d'.doc = P.crdt.mergeDelta d.doc δ) :
      DocMove d d' (.task t e)

variable {cfg : Config} {cookie : Bytes} {d d' : Daemon P} {a : Act P}
  {sent : Option (TaskId × Message P)}

theorem dispatchRequest_doc (st : DaemonState P) (r : ControlRequest) :
    P.crdt.Edits (IsServiceEdit st.membership.nodeId) st.membership.doc
      (st.dispatchRequest r).membership.doc := by
  cases r with
  | register name port metadata =>
    exact .set (.refl _) ⟨⟨name, rfl⟩, fun _ hv => ⟨port, metadata, (Option.some.inj hv).symm⟩⟩
  | unregister name => exact .remove (.refl _) ⟨⟨name, rfl⟩, fun _ hv => by cases hv⟩
  | _ => exact .refl _

theorem step_doc (h : d.step cfg cookie a = some (d', sent)) : DocMove d d' a := by
  rcases step_cases h with ⟨t, e, s, o, rfl, hs, hm, rfl, -⟩ | ⟨hm, -⟩
  · cases hm with
    | cleaned hp => exact .cleaned hs hp (d.state.membership.removeNode_edits _)
    | merged hp hm =>
      obtain ⟨δ, changes, hb, rfl⟩ := DaemonState.mergeSync_eq_some hm
      exact .merged hs hp hb (by simp [doc, DaemonState.broadcastEvents])
    | recorded hp => exact .same (by simp [doc, DaemonState.recordHeartbeat])
    | _ => exact .same rfl
  · cases hm with
    | request r => exact .request (dispatchRequest_doc d.state r)
    | removeSelf hmain => exact .removeSelf hmain (d.state.membership.removeNode_edits _)
    | _ => exact .same rfl

/-- The changes a step reports, with what it does to the membership. -/
inductive EventMove (d d' : Daemon P) : Act P → Prop
  | quiet {a : Act P} (he : d'.state.events = d.state.events) (hd : d'.doc = d.doc) :
      EventMove d d' a
  | request {r : ControlRequest} (hst : d'.state = d.state.dispatchRequest r) :
      EventMove d d' (.request r)
  | removeSelf (hmain : d.main = .stopping) (hmain' : d'.main = .sleeping)
      (hst : d'.state = d.state.removeSelf) : EventMove d d' .removeSelf
  | left {t : TaskId} {s : Session P} {peer : PeerId P} {nonce : Nonce} {epoch : Option ℕ}
      {now : ℕ} (hs : d.tasks[t]? = some s) (hp : s.phase = .live peer .cleanup)
      (hst : d'.state = d.state.cleanup peer) : EventMove d d' (.task t (.lock nonce epoch now))
  | merged {t : TaskId} {e : TaskEvent P} (he : d'.state.events = d.state.events ++
        diffMembers d.state.membership.memberIds d'.state.membership.memberIds) :
      EventMove d d' (.task t e)

theorem step_events (h : d.step cfg cookie a = some (d', sent)) : EventMove d d' a := by
  rcases step_cases h with ⟨t, e, s, o, rfl, hs, hm, rfl, -⟩ | ⟨hm, -⟩
  · cases hm with
    | cleaned hp => exact .left hs hp rfl
    | merged hp hm =>
      exact .merged (DaemonState.mergeSync_events hm)
    | recorded hp =>
      exact .quiet (by simp [DaemonState.recordHeartbeat])
        (by simp only [doc, DaemonState.recordHeartbeat, DaemonState.modifyPeer_membership])
    | _ => exact .quiet rfl rfl
  · cases hm with
    | request r => exact .request rfl
    | removeSelf hmain => exact .removeSelf hmain rfl rfl
    | _ => exact .quiet rfl rfl

theorem step_nodeId (h : d.step cfg cookie a = some (d', sent)) :
    d'.state.membership.nodeId = d.state.membership.nodeId := by
  rcases step_cases h with ⟨t, e, s, o, rfl, hs, hm, rfl, -⟩ | ⟨hm, -⟩
  · cases hm with
    | cleaned hp => exact Membership.removeNode_nodeId _ _
    | merged hp hm =>
      obtain ⟨δ, changes, hb, rfl⟩ := DaemonState.mergeSync_eq_some hm
      simp [DaemonState.broadcastEvents]
    | recorded hp => simp [DaemonState.recordHeartbeat]
    | _ => rfl
  · cases hm with
    | request r => cases r <;> rfl
    | removeSelf hmain => exact Membership.removeNode_nodeId _ _
    | _ => rfl

theorem step_replica (h : d.step cfg cookie a = some (d', sent)) :
    P.crdt.replica d'.doc = P.crdt.replica d.doc := by
  cases step_doc h with
  | same hd => rw [hd]
  | request hd => exact hd.replica
  | removeSelf _ hd => exact hd.replica
  | cleaned _ _ hd => exact hd.replica
  | merged _ _ _ hd => rw [hd, P.crdt.replica_merge]

/-- Handles after a step: their vector is the old one, the one the peer gave in
its `HandshakeAck`, or the one that came with the sync just merged. -/
inductive HandleOrigin (d : Daemon P) (k : String) (h : PeerHandle P) : Act P → Prop
  | kept {a : Act P} {h₀ : PeerHandle P} (hk : d.state.peers.lookup k = some h₀)
      (hv : h.lastVv = h₀.lastVv) (ht : h.gossipTx = h₀.gossipTx) (hid : h.id = h₀.id) :
      HandleOrigin d k h a
  | registered {t : TaskId} {e : TaskEvent P} {s : Session P} {peer : PeerId P}
      {vv : VersionVector String} (hs : d.tasks[t]? = some s)
      (hp : s.phase = .opening (.register peer vv)) (hk : k = peer.nodeId) (hv : h.lastVv = vv)
      (ht : h.gossipTx = t) (hid : h.id = peer) : HandleOrigin d k h (.task t e)
  | synced {t : TaskId} {e : TaskEvent P} {s : Session P} {peer : PeerId P}
      {b : P.crdt.Encoded} {v : VersionVector String} {h₀ : PeerHandle P}
      (hs : d.tasks[t]? = some s) (hp : s.phase = .live peer (.handle (.membershipSync b v)))
      (hk : k = peer.nodeId) (hk₀ : d.state.peers.lookup k = some h₀) (hv : h.lastVv = v)
      (ht : h.gossipTx = h₀.gossipTx) (hid : h.id = h₀.id) : HandleOrigin d k h (.task t e)

theorem step_lookup (hstep : d.step cfg cookie a = some (d', sent)) {k : String}
    {h : PeerHandle P} (hk : d'.state.peers.lookup k = some h) : HandleOrigin d k h a := by
  rcases step_cases hstep with ⟨t, e, s, o, rfl, hs, hm, rfl, -⟩ | ⟨hm, -⟩
  · cases hm with
    | registered hp hnew _ =>
      rw [DaemonState.lookup_insertPeer] at hk
      split at hk
      · rename_i hkp
        cases hk
        exact .registered hs hp hkp rfl rfl rfl
      · exact .kept hk rfl rfl rfl
    | cleaned hp =>
      rw [DaemonState.lookup_cleanup] at hk
      split at hk
      · cases hk
      · exact .kept hk rfl rfl rfl
    | recorded hp =>
      rw [DaemonState.recordHeartbeat, DaemonState.lookup_modifyPeer] at hk
      split at hk
      · rename_i hkp
        subst hkp
        obtain ⟨h₀, hk₀, rfl⟩ := Option.map_eq_some_iff.mp hk
        exact .kept hk₀ rfl rfl rfl
      · exact .kept hk rfl rfl rfl
    | merged hp hm =>
      obtain ⟨δ, changes, -, rfl⟩ := DaemonState.mergeSync_eq_some hm
      rw [DaemonState.broadcastEvents, DaemonState.lookup_modifyPeer] at hk
      split at hk
      · rename_i hkp
        subst hkp
        obtain ⟨h₀, hk₀, rfl⟩ := Option.map_eq_some_iff.mp hk
        exact .synced hs hp rfl hk₀ rfl rfl rfl
      · exact .kept hk rfl rfl rfl
    | _ => exact .kept hk rfl rfl rfl
  · cases hm with
    | request r =>
      rw [DaemonState.dispatchRequest_peers] at hk
      exact .kept hk rfl rfl rfl
    | leave hmain =>
      rw [DaemonState.lookup_leave] at hk
      exact .kept (Option.filter_eq_some_iff.mp hk).1 rfl rfl rfl
    | _ => exact .kept hk rfl rfl rfl

end Daemon
end Pmd
