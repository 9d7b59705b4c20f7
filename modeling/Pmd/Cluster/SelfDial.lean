import Pmd.Cluster.Causality
import Pmd.Daemon.SelfSession

/-!
# Dials that reach the dialling daemon

Among honest daemons a handshake carries the id of the daemon at the other end of
the connection. A daemon whose dial reaches its own listener registers itself and
later tombstones itself. If no dial does, a daemon is never its own peer.
-/
namespace Pmd
open Foundation

variable {P : Platform}

/-- The dial reaches the listener of the daemon that made it. -/
def Action.isSelfDial : Action P → Bool
  | .establish p n _ => p.1 = n
  | _ => false

namespace Cluster
variable {W : Setup} {c c' : Cluster P} {n : NodeId} {a : Act P}

/-- An honest step that does not connect a daemon to itself. -/
def NoSelfDial (c : Cluster P) (x : Action P) : Prop := Honest c x ∧ x.isSelfDial = false

/-- No connection has both ends at one daemon. -/
def LinksApart (c : Cluster P) : Prop := ∀ p q, c.link p = some (.daemon q) → p.1 ≠ q.1

theorem linksApart_step (hi : LinksApart c) (hl : Links c) {x : Action P} (hx : NoSelfDial c x)
    (h : c.step W x = some c') : LinksApart c' := by
  intro p q hq
  cases x with
  | own n a =>
    obtain ⟨-, h⟩ := Option.ite_none_right_eq_some.mp h
    rw [act_link h] at hq
    exact hi p q hq
  | receive r =>
    obtain ⟨m, rest, -, h⟩ := step_receive h
    rw [act_link h] at hq
    exact hi p q hq
  | closed r =>
    obtain ⟨-, h⟩ := Option.ite_none_right_eq_some.mp h
    rw [act_link h] at hq
    exact hi p q hq
  | establish r m nonce =>
    have hne : r.1 ≠ m := of_decide_eq_false hx.2
    obtain ⟨c₁, h₁, h₂⟩ := Option.bind_eq_some_iff.mp h
    obtain ⟨hpq, -, -⟩ := hl.establish_ports h₁
    rw [act_link h₂, act_link h₁, Links.link_connect hpq] at hq
    split at hq
    · rename_i hp
      cases hq
      rw [hp]
      exact hne
    · split at hq
      · rename_i hp
        cases hq
        rw [hp]
        exact Ne.symm hne
      · exact hi p q hq
  | _ => cases hx.1

theorem linksApart_reach (h : (system P W).Reach NoSelfDial c) : LinksApart c :=
  (h.invariant (I := fun c => LinksApart c ∧ Links c)
    (fun _ hc => ⟨fun p q hq => by simp [hc.2.1 p] at hq, .init hc⟩)
    fun _ _ _ hi hx hs => ⟨linksApart_step hi.1 hi.2 hx hs, hi.2.step hs⟩).1

/-- An authenticated peer is the node at the other end of the connection. -/
theorem remotesApart (h : (system P W).Reach NoSelfDial c) (n : NodeId) :
    (c.daemon n).RemotesApart := by
  have hi : Causal c := .reach (h.mono fun _ _ hx => hx.1)
  intro t s peer hs hr
  have hf := hi.sessions (n, t) s hs
  have hlink : ∃ q, c.link (n, t) = some (.daemon q) ∧ peer.nodeId = q.1.text := by
    cases hp : s.phase with
    | opening o =>
      cases o with
      | register peer' vv =>
        rw [hp] at hr
        cases hr
        obtain ⟨q, hq, hid, -⟩ := hf.claimed peer vv hp
        exact ⟨q, hq, hid⟩
      | _ =>
        rw [hp] at hr
        cases hr
    | live peer' stage => exact hf.remote peer (by rw [hp] at hr ⊢; exact hr)
    | ended left => exact hf.remote peer (by rw [hp] at hr ⊢; exact hr)
  obtain ⟨q, hq, hid⟩ := hlink
  rw [hi.nodeId n, hid]
  intro heq
  exact linksApart_reach h _ _ hq (NodeId.text_injective heq.symm)

/-- In any environment a daemon is its own peer only after a valid handshake with
its own id, and can be after any such. Among honest daemons there is none as long
as no dial reaches the daemon that made it. -/
theorem noSelfSession_iff_noOwnGreeting (W : Setup) :
    (∀ cfg cookie, ∀ d : Daemon P,
      (Daemon.system P cfg cookie).Reach (Daemon.NoOwnGreeting cookie) d → d.NoSelfSession) ∧
    (∀ cfg cookie, ∀ (d d' : Daemon P) (a : Act P),
      (Daemon.system P cfg cookie).Reach System.any d → ¬ d.NoOwnGreeting cookie a →
      (Daemon.system P cfg cookie).step d a = some d' →
      ∃ e, (Daemon.system P cfg cookie).Leads System.any d' e ∧ ¬ e.NoSelfSession) ∧
    (∀ (c : Cluster P) (n : NodeId), (system P W).Reach NoSelfDial c →
      (c.daemon n).NoSelfSession) := by
  refine ⟨fun cfg cookie d hr => ?_, fun cfg cookie d d' a hr hc hs => ?_, fun c n hr => ?_⟩
  · exact (Daemon.remotesApart_reach hr).noSelfSession (Daemon.handlesOwned_reach hr)
  · exact Daemon.ownGreeting_registers hr hc hs
  · exact (remotesApart hr n).noSelfSession (handlesOwned hr n)

section
open Reference

/-- Node `a` is told to join its own address. -/
def selfJoin : List (Action platform) :=
  dials nodeA "10.0.0.1:4369" ++ [.establish (nodeA, 0) nodeA nonce, writes (nodeA, 0),
    .receive (nodeA, 1), locks (nodeA, 1)]

theorem selfJoin_registers : ¬ ∀ (c : Cluster platform) (n : NodeId), clusters.Reach Honest c →
    (c.daemon n).NoSelfSession := by
  have heval : ((some cluster).bind fun c =>
      (clusters.guard fun _ x => x.isHonest).run c selfJoin).any
        (fun c => (c.state nodeA).owner (c.state nodeA).membership.nodeId == some 1) = true := by
    decide +kernel
  obtain ⟨c, hr, hp⟩ := System.Reach.of_eval (C := Honest) heval (fun _ _ hx => hx) cluster_init
  intro hall
  exact (hall c nodeA hr).1 (DaemonState.mem_peers_of_owner (beq_iff_eq.mp hp))

/-- Node `a` joins node `b`; and a daemon with id `a` is greeted by `b`. -/
theorem noSelfSession_join :
    (∃ c : Cluster platform, clusters.Reach NoSelfDial c ∧
      (c.state nodeA).owner "b" = some 0 ∧ (c.daemon nodeA).NoSelfSession) ∧
    ∃ d : Daemon platform, Reference.daemons.Reach (Daemon.NoOwnGreeting cookie) d ∧
      d.state.owner "b" = some 0 ∧ d.NoSelfSession := by
  constructor
  · have heval : ((some cluster).bind fun c =>
        (clusters.guard fun _ x => x.isHonest && !x.isSelfDial).run c
          (dials nodeA "10.0.0.2:4369" ++ handshake (nodeA, 0) (nodeB, 0))).any
          (fun c => (c.state nodeA).owner "b" == some 0) = true := by
      decide +kernel
    obtain ⟨c, hr, hp⟩ := System.Reach.of_eval (C := NoSelfDial) heval
      (fun c x hx => by simpa [NoSelfDial, Honest] using hx) cluster_init
    exact ⟨c, hr, beq_iff_eq.mp hp, (noSelfSession_iff_noOwnGreeting setup).2.2 c nodeA hr⟩
  · have heval : (Reference.daemon.bind fun d =>
        (Reference.daemons.guard (Daemon.greetedByOther cookie)).run d
          (inboundRegisters 0)).any (fun d => d.state.owner "b" == some 0) = true := by
      decide +kernel
    obtain ⟨d, hr, hp⟩ := System.Reach.of_eval (C := Daemon.NoOwnGreeting cookie) heval
      (fun d a hx => Daemon.noOwnGreeting_of_greetedByOther hx) Reference.daemon_init
    exact ⟨d, hr, beq_iff_eq.mp hp,
      (noSelfSession_iff_noOwnGreeting setup).1 config cookie d hr⟩

end

end Cluster
end Pmd
