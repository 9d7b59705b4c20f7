import Pmd.Cluster.Provenance
import Pmd.Daemon.Queues

/-!
# Mesh expansion

A daemon with fewer peers than the square root of the number of its members, and than it
has other members, always finds one to dial: the ids of its members are distinct, so its
peers cannot be all of them. The records are those of the start, so the address it queues
is the one at which the other daemon was started.
-/
namespace Pmd
open Foundation

variable {P : Platform}

namespace DaemonState

/-- The nodes that mesh expansion chooses from. -/
def indirect (st : DaemonState P) : List (NodeInfo P) :=
  st.membership.members.filter fun n => n.nodeId ≠ st.membership.nodeId ∧ n.nodeId ∉ st.peers

/-- Fewer peers than the target, and fewer than there are other members. -/
def WantsPeers (st : DaemonState P) : Prop :=
  st.peers.entries.length * st.peers.entries.length < st.membership.members.length ∧
    st.peers.entries.length < st.membership.members.length - 1

/-- The target is the least number whose square is not below the size. -/
theorem lt_meshTarget (k n : ℕ) : k < meshTarget n ↔ k * k < n := by
  rw [meshTarget]
  split
  · rename_i hsquare
    conv_rhs => rw [← hsquare]
    exact Nat.mul_self_lt_mul_self_iff.symm
  · rename_i hsquare
    rw [Nat.lt_succ_iff, Nat.le_sqrt, Nat.le_iff_lt_or_eq, or_iff_left]
    rintro rfl
    exact hsquare (by rw [Nat.sqrt_eq])

theorem meshPick_eq (choice : ℕ) (st : DaemonState P) [Decidable st.WantsPeers] :
    st.meshPick choice = if st.WantsPeers then st.indirect[choice]? else none := by
  have hwants : (meshTarget st.membership.members.length ≤ st.peers.entries.length ∨
      st.membership.members.length - 1 ≤ st.peers.entries.length) ↔ ¬ st.WantsPeers := by
    rw [WantsPeers, not_and_or, ← lt_meshTarget, Nat.not_lt, Nat.not_lt]
  simp only [meshPick, hwants, ite_not]
  rfl

/-- Distinct members are more than the daemon itself and its peers, so one is neither. -/
theorem indirect_ne_nil {st : DaemonState P}
    (hnodup : (st.membership.members.map NodeInfo.nodeId).Nodup) (hwants : st.WantsPeers) :
    st.indirect ≠ [] := by
  intro hnone
  have hsub : st.membership.members.map NodeInfo.nodeId ⊆
      st.membership.nodeId :: st.peers.keys := by
    intro id hid
    obtain ⟨n, hn, rfl⟩ := List.mem_map.mp hid
    have hnot := List.filter_eq_nil_iff.mp hnone n hn
    rw [decide_eq_true_iff, not_and_or, not_not, not_not] at hnot
    exact List.mem_cons.mpr (hnot.imp_right AList.mem_keys.mp)
  have hlen := (List.subperm_of_subset hnodup hsub).length_le
  have hkeys : st.peers.keys.length = st.peers.entries.length := List.length_map _
  rw [List.length_map, List.length_cons, hkeys] at hlen
  have := hwants.2
  omega

end DaemonState

namespace Cluster
variable {W : Setup} {c₀ c c' c'' : Cluster P} {n : NodeId} {a : Act P}

/-! ## The run of one daemon -/

theorem daemon_act {m : NodeId} (h : c.act W m a = some c') (n : NodeId) :
    (Daemon.system P (W.cfg n) W.cookie).Leads System.any (c.daemon n) (c'.daemon n) := by
  obtain ⟨d, sent, hd, rfl⟩ := act_eq_some h
  rw [post_daemon]
  by_cases hn : n = m
  · subst hn
    rw [setDaemon_self]
    refine .single ⟨a, trivial, ?_⟩
    change (Daemon.step _ _ _ _).map Prod.fst = _
    rw [hd]
    rfl
  · rw [setDaemon_ne _ _ _ hn]
    exact .refl

/-- A run of the cluster is one of each daemon. -/
theorem daemon_leads (hl : (system P W).Leads Honest c c') (n : NodeId) :
    (Daemon.system P (W.cfg n) W.cookie).Leads System.any (c.daemon n) (c'.daemon n) := by
  have hstart : (Daemon.system P (W.cfg n) W.cookie).Leads System.any (c.daemon n) (c.daemon n) :=
    .refl
  refine hl.preserves (I := fun c' =>
    (Daemon.system P (W.cfg n) W.cookie).Leads System.any (c.daemon n) (c'.daemon n))
    (fun c₁ x c₂ hi hx h => hi.trans ?_) hstart
  cases x with
  | own m a =>
    obtain ⟨-, h⟩ := Option.ite_none_right_eq_some.mp h
    exact daemon_act h n
  | receive p =>
    obtain ⟨m, rest, -, h⟩ := step_receive h
    exact daemon_act (c := c₁.setInbox p _) h n
  | closed p =>
    obtain ⟨-, h⟩ := Option.ite_none_right_eq_some.mp h
    exact daemon_act h n
  | establish p m nonce =>
    obtain ⟨c₂, h₁, h₂⟩ := Option.bind_eq_some_iff.mp h
    exact (daemon_act (c := c₁.connect p _) h₁ n).trans (daemon_act h₂ n)
  | _ => cases hx

/-! ## What a tick queues -/

/-- A candidate is another daemon, by its address of the start. -/
theorem indirect_authentic {S : Startup P} (h₀ : StartedWith W S c₀)
    (hl : (system P W).Leads Honest c₀ c) {node : NodeInfo P}
    (hnode : node ∈ (c.state n).indirect) : ∃ r : NodeId, r ≠ n ∧ node.nodeId = r.text ∧
      node.addr = S.addr r ∧ (c.state n).membership.Lists r.text ∧
        (c.state n).owner r.text = none := by
  have hi := NodeWrites.leads h₀ hl
  obtain ⟨hmem, hnew⟩ := List.mem_filter.mp hnode
  obtain ⟨hself, hpeer⟩ := of_decide_eq_true hnew
  obtain ⟨val, hval, hinfo⟩ := (Membership.mem_members (hi.docPaths n)).mp hmem
  obtain ⟨r, hid, ⟨rfl, -⟩ | rfl⟩ := hi.shown hval
  · rw [Startup.record, Membership.nodeInfo_nodeRecord, Option.some.injEq] at hinfo
    have haddr : node.addr = S.addr r := by rw [← hinfo]
    refine ⟨r, ?_, hid.symm, haddr, ⟨node, hmem, hid.symm⟩, ?_⟩
    · rintro rfl
      exact hself (hid.symm.trans ((Causal.reach ⟨c₀, h₀.1, hl⟩).nodeId r).symm)
    · rw [← hid] at hpeer
      exact DaemonState.owner_eq_none hpeer
  · rw [Membership.nodeInfo_deadMarker] at hinfo
    cases hinfo

/-- What has been dialled or is to be dialled stays so. -/
theorem queued_leads {d d' : Daemon P} {cfg : Config} {cookie : Bytes} {addr : P.Addr}
    (hl : (Daemon.system P cfg cookie).Leads System.any d d')
    (h : addr ∈ d.dialled ++ d.toDial) : addr ∈ d'.dialled ++ d'.toDial :=
  hl.preserves (I := fun d => addr ∈ d.dialled ++ d.toDial)
    (fun d a d' hi _ hs => by
      rw [Daemon.joins_step hs]
      exact List.mem_append_left _ hi) h

theorem state_of_meshTick {choice : ℕ}
    (h : (system P W).step c (.own n (.meshTick choice)) = some c') :
    c'.state n = (c.state n).meshExpandRandomPeer choice := by
  have h : c.act W n (.meshTick choice) = some c' := h
  obtain ⟨d, sent, hd, rfl⟩ := act_eq_some h
  have hmain := (Daemon.mainStep_eq_some (fun t e he => by cases he) hd).1
  obtain ⟨-, hmain⟩ := Option.ite_none_right_eq_some.mp hmain
  rw [state, post_daemon, setDaemon_self, ← Option.some.inj hmain]

/-- Mesh expansion does what it is for. A tick of a daemon that wants more peers finds a
candidate, and whichever it chooses, that is another daemon, which it lists and is not
connected to; the address at which that one was started is then dialled or queued to be
dialled, in all later states. Otherwise the tick changes nothing. -/
theorem mesh_expands {S : Startup P} (h₀ : StartedWith W S c₀)
    (hl : (system P W).Leads Honest c₀ c) {choice : ℕ}
    (h : (system P W).step c (.own n (.meshTick choice)) = some c') :
    (¬ (c.state n).WantsPeers → c'.state n = c.state n) ∧
    ((c.state n).WantsPeers → (c.state n).indirect ≠ [] ∧
      ∀ node, (c.state n).indirect[choice]? = some node →
        ∃ r : NodeId, r ≠ n ∧ node.nodeId = r.text ∧ (c.state n).membership.Lists r.text ∧
          (c.state n).owner r.text = none ∧
          ∀ c'', (system P W).Leads Honest c' c'' →
            S.addr r ∈ (c''.daemon n).dialled ∨ S.addr r ∈ (c''.daemon n).toDial) := by
  classical
  have htick := state_of_meshTick h
  rw [DaemonState.meshExpandRandomPeer_queues, DaemonState.meshPick_eq] at htick
  refine ⟨fun hnot => ?_, fun hwants => ⟨?_, fun node hnode => ?_⟩⟩
  · rw [htick, if_neg hnot]
    simp
  · exact DaemonState.indirect_ne_nil
      (Membership.nodup_members ((NodeWrites.leads h₀ hl).docPaths n)) hwants
  · obtain ⟨r, hne, hid, haddr, hlists, howner⟩ :=
      indirect_authentic h₀ hl (List.mem_of_getElem? hnode)
    refine ⟨r, hne, hid, hlists, howner, fun c'' hl' => List.mem_append.mp ?_⟩
    refine queued_leads (daemon_leads hl' n) (List.mem_append_right _ ?_)
    have hqueued : P.printAddr (S.addr r) ∈ (c'.state n).pendingJoins := by
      rw [htick, if_pos hwants, hnode, Option.bind_some, haddr, DaemonState.newJoin]
      by_cases hmem : P.printAddr (S.addr r) ∈ (c.state n).pendingJoins
      · exact List.mem_append_left _ hmem
      · simp [hmem]
    exact List.mem_filterMap.mpr ⟨_, hqueued, P.parse_print _⟩

section
open Reference

/-- Nodes `c` and `b` join `a`, each from its own side of the star. -/
def star : List (Action platform) :=
  dials nodeC "10.0.0.1:4369" ++ handshake (nodeC, 0) (nodeA, 0) ++
    exchange (nodeC, 0) (nodeA, 0) ++ dials nodeB "10.0.0.1:4369" ++
    handshake (nodeB, 0) (nodeA, 1) ++ exchange (nodeB, 0) (nodeA, 1)

/-- Node `b` has one peer of three members, and `c` is its only candidate. -/
def choosesC (c : Cluster platform) : Bool :=
  decide ((c.state nodeB).peers.entries.length = 1 ∧ (c.state nodeB).membership.members.length = 3 ∧
    (c.state nodeB).indirect[0]?.map NodeInfo.nodeId = some "c") &&
      (clusters.step c (.own nodeB (.meshTick 0))).isSome

/-- Node `b` then finds `c`, and goes on until it has dialled it. -/
theorem mesh_expands_star : ∃ c c' : Cluster platform, clusters.Leads Honest cluster c ∧
    clusters.step c (.own nodeB (.meshTick 0)) = some c' ∧ (c.state nodeB).owner "c" = none ∧
      ∀ c'', clusters.Leads Honest c' c'' →
        startup.addr nodeC ∈ (c''.daemon nodeB).dialled ∨
          startup.addr nodeC ∈ (c''.daemon nodeB).toDial := by
  have heval : ((clusters.guard fun _ x => x.isHonest).run cluster star).any choosesC = true := by
    decide +kernel
  obtain ⟨c, hl, hp⟩ := System.Leads.of_eval (C := Honest) heval fun _ _ hx => hx
  obtain ⟨hfew, hstep⟩ := Bool.and_eq_true_iff.mp hp
  obtain ⟨hpeers, hmembers, hchoice⟩ := of_decide_eq_true hfew
  obtain ⟨c', hstep⟩ := Option.isSome_iff_exists.mp hstep
  have hwants : (c.state nodeB).WantsPeers := by
    rw [DaemonState.WantsPeers, hpeers, hmembers]
    decide
  obtain ⟨node, hnode, hid⟩ := Option.map_eq_some_iff.mp hchoice
  obtain ⟨r, -, hr, -, howner, hstays⟩ :=
    ((mesh_expands cluster_startedWith hl hstep).2 hwants).2 node hnode
  have hc : r = nodeC := NodeId.text_injective (hr.symm.trans hid)
  subst hc
  exact ⟨c, c', hl, hstep, howner, hstays⟩

end

end Cluster
end Pmd
