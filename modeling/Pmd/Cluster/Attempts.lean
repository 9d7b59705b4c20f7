import Pmd.Cluster.Causality
import Pmd.Daemon.Connection

/-!
# Connection attempts in the cluster

An attempt is a dial together with the two tasks that serve it. The steps of two
attempts in opposite directions are lifted from one connection to the cluster: a
step at one port moves its own connection and leaves the other one alone.
-/
namespace Pmd
open Foundation

variable {P : Platform}

/-- A dial and the two tasks that serve it. -/
structure Attempt where
  dialer : Port
  acceptor : Port

/-- Two dials in opposite directions, served by four tasks. -/
structure Attempt.Opposite (x y : Attempt) : Prop where
  apart : x.dialer.1 ≠ x.acceptor.1
  back : y.dialer.1 = x.acceptor.1
  forth : y.acceptor.1 = x.dialer.1
  dialer : x.dialer ≠ y.acceptor
  acceptor : x.acceptor ≠ y.dialer

theorem Attempt.Opposite.symm {x y : Attempt} (h : x.Opposite y) : y.Opposite x :=
  ⟨by rw [h.back, h.forth]; exact h.apart.symm, h.forth.symm, h.back.symm, h.acceptor.symm,
    h.dialer.symm⟩

theorem Attempt.Opposite.ports_ne {x y : Attempt} (h : x.Opposite y) {r : Port}
    (hr : r = x.dialer ∨ r = x.acceptor) : r ≠ y.dialer ∧ r ≠ y.acceptor := by
  rcases hr with rfl | rfl
  · exact ⟨fun he => h.apart (by rw [he, h.back]), h.dialer⟩
  · exact ⟨h.acceptor, fun he => h.apart (by rw [he, h.forth])⟩

theorem Attempt.Opposite.dialer_ne {x y : Attempt} (h : x.Opposite y) : x.dialer ≠ x.acceptor :=
  fun he => h.apart (by rw [he])

/-- The events of a session that are neither a failure nor a shutdown. -/
def TaskEvent.isSmooth : TaskEvent P → Bool
  | .wrote ok => ok
  | .lock _ _ _ | .heartbeatBranch | .phiBranch | .gossipBranch => true
  | _ => false

namespace Cluster
variable {W : Setup} {c c' : Cluster P} {x y : Attempt} {r : Port} {s : Session P}
  {e : TaskEvent P} {o : Outcome P} {rest : List (Message P)} {v : Connection P}

/-- The facts of a reachable honest cluster that the steps need. -/
structure Sound (W : Setup) (c : Cluster P) : Prop where
  links : Links c
  causal : Causal c
  listen : ∀ n, ∃ l, (W.cfg n).listenAddr P = some l

theorem Sound.reach (h : (system P W).Reach Honest c) : Sound W c := by
  refine ⟨.reach h, .reach h, fun n => ?_⟩
  obtain ⟨c₀, hinit, -⟩ := h
  obtain ⟨_, _, _, hd⟩ := hinit.1 n
  exact (Daemon.start_eq_some hd).1

/-! ## A step at one port -/

/-- Task `r.2` of daemon `r.1` takes one step over a reliable connection. -/
structure PortStep (W : Setup) (c c' : Cluster P) (r : Port) (s : Session P) (e : TaskEvent P)
    (o : Outcome P) (rest : List (Message P)) : Prop where
  session : c.session r = some s
  step : sessionStep (W.cfg r.1) W.cookie r.2 (c.state r.1) s e = some o
  delivers : Delivers (c.inbox r) (c.remoteGone r) e rest
  after : c'.session r = some o.session
  others : ∀ q, q ≠ r → c'.session q = c.session q
  state : c'.state r.1 = o.state
  states : ∀ n, n ≠ r.1 → c'.state n = c.state n
  link : c'.link = c.link
  nextPort : ∀ n, c'.nextPort n = c.nextPort n
  own : c.link r ≠ some (.daemon r) → c'.inbox r = rest
  remote : ∀ q, q ≠ r → c.link r = some (.daemon q) → c'.inbox q = c.inbox q ++ o.sent.toList
  quiet : ∀ q, q ≠ r → c.link r ≠ some (.daemon q) → c'.inbox q = c.inbox q

theorem inbox_post_of_link {n : NodeId} {t : TaskId} {q : Port} (m : Option (Message P))
    (h : c.link (n, t) = some (.daemon q)) :
    (c.post n (m.map fun m => (t, m))).inbox q = c.inbox q ++ m.toList := by
  cases m with
  | none => simp [post]
  | some m => simp [post, h]

theorem inbox_post_of_ne {n : NodeId} {t : TaskId} {q : Port} (m : Option (Message P))
    (h : c.link (n, t) ≠ some (.daemon q)) :
    (c.post n (m.map fun m => (t, m))).inbox q = c.inbox q := by
  cases m with
  | none => rfl
  | some m =>
    rw [Option.map_some, post]
    split
    · rename_i q' hq'
      rw [setInbox_ne]
      rintro rfl
      exact h hq'
    · rfl
    · rfl

/-- The event may be one that takes a frame off the inbox: `c₀` is the cluster before. -/
theorem PortStep.of_act (c₀ : Cluster P) (hd : c₀.daemon = c.daemon) (hl : c₀.link = c.link)
    (hin : ∀ q, q ≠ r → c.inbox q = c₀.inbox q)
    (hdel : Delivers (c₀.inbox r) (c₀.remoteGone r) e (c.inbox r))
    (h : c.act W r.1 (.task r.2 e) = some c') :
    ∃ s o, PortStep W c₀ c' r s e o (c.inbox r) := by
  obtain ⟨d, sent, hstep, rfl⟩ := act_eq_some h
  obtain ⟨s, o, hs, -, ho, rfl, rfl⟩ := Daemon.taskStep_eq_some hstep
  have hlt := (List.getElem?_eq_some_iff.mp hs).1
  refine ⟨s, o, ⟨?_, ?_, hdel, ?_, fun q hq => ?_, ?_, fun n hn => ?_, ?_, fun n => ?_,
    fun hself => ?_, fun q hq hlink => ?_, fun q hq hlink => ?_⟩⟩
  · rw [Cluster.session, hd]
    exact hs
  · rw [Cluster.state, hd]
    exact ho
  · simp only [Cluster.session, post_daemon, setDaemon_self]
    exact List.getElem?_set_self hlt
  · simp only [Cluster.session, post_daemon, hd]
    by_cases hn : q.1 = r.1
    · have ht : r.2 ≠ q.2 := fun ht => hq (Prod.ext hn ht.symm)
      rw [hn, setDaemon_self, List.getElem?_set_ne ht]
    · rw [setDaemon_ne _ _ _ hn]
  · simp only [Cluster.state, post_daemon, setDaemon_self]
  · simp only [Cluster.state, post_daemon, hd]
    rw [setDaemon_ne _ _ _ hn]
  · rw [post_link, setDaemon_link, hl]
  · simp only [Cluster.nextPort, post_daemon, hd]
    by_cases hn : n = r.1
    · rw [hn, setDaemon_self, List.length_set]
    · rw [setDaemon_ne _ _ _ hn]
  · rw [inbox_post_of_ne _ (by rw [setDaemon_link, ← hl]; exact hself)]
    rfl
  · rw [inbox_post_of_link _ (by rw [setDaemon_link, ← hl]; exact hlink), setDaemon_inbox, hin q hq]
  · rw [inbox_post_of_ne _ (by rw [setDaemon_link, ← hl]; exact hlink), setDaemon_inbox, hin q hq]

/-! ## The steps of two attempts -/

/-- The action is one of the four tasks, and neither a failure nor a closure by the
failure detector. -/
def Attempts (W : Setup) (x y : Attempt) (c : Cluster P) : Action P → Prop
  | .establish p n _ => (p = x.dialer ∧ n = x.acceptor.1) ∨ (p = y.dialer ∧ n = y.acceptor.1)
  | .receive p | .closed p => p ∈ [x.dialer, x.acceptor, y.dialer, y.acceptor]
  | .own n (.task t e) => (n, t) ∈ [x.dialer, x.acceptor, y.dialer, y.acceptor] ∧
    e.isSmooth = true ∧ ∀ s, c.session (n, t) = some s → ¬ PhiCloses (W.cfg n) (c.state n) s e
  | _ => False

theorem Attempts.honest {z : Action P} (h : Attempts W x y c z) : Honest c z := by
  cases z with
  | attackerDial n => exact h.elim
  | attackerAccept p nonce => exact h.elim
  | attackerSend p m => exact h.elim
  | _ => rfl

/-- Apart from new connections the attempts make port steps. -/
theorem Attempts.portStep {z : Action P} (h : Attempts W x y c z)
    (hz : ∀ p n nonce, z ≠ .establish p n nonce) (hs : c.step W z = some c') :
    ∃ r s e o rest, r ∈ [x.dialer, x.acceptor, y.dialer, y.acceptor] ∧
      PortStep W c c' r s e o rest ∧ ¬ PhiCloses (W.cfg r.1) (c.state r.1) s e ∧
      ∀ nonce epoch now, e = .lock nonce epoch now → z = .own r.1 (.task r.2 e) := by
  cases z with
  | establish p n nonce => exact absurd rfl (hz p n nonce)
  | receive p =>
    obtain ⟨m, rest, hin, hs⟩ := step_receive hs
    obtain ⟨s, o, hstep⟩ := PortStep.of_act c (c := c.setInbox p rest) (r := p) rfl rfl
      (fun q hq => setInbox_ne _ _ _ hq) (by rw [setInbox_self]; exact .message hin) hs
    refine ⟨p, s, _, o, _, h, hstep, ?_, ?_⟩
    · rintro ⟨_, _, _, _, -, he, -⟩
      cases he
    · intro _ _ _ he
      cases he
  | closed p =>
    obtain ⟨⟨hin, hgone⟩, hs⟩ := Option.ite_none_right_eq_some.mp hs
    obtain ⟨s, o, hstep⟩ := PortStep.of_act c rfl rfl (fun _ _ => rfl)
      (.eof (List.isEmpty_iff.mp hin) hgone) hs
    refine ⟨p, s, _, o, _, h, hstep, ?_, ?_⟩
    · rintro ⟨_, _, _, _, -, he, -⟩
      cases he
    · intro _ _ _ he
      cases he
  | own n a =>
    cases a with
    | task t e =>
      obtain ⟨-, hs⟩ := Option.ite_none_right_eq_some.mp hs
      obtain ⟨hmem, hsmooth, hphi⟩ := h
      have hdel : Delivers (c.inbox (n, t)) (c.remoteGone (n, t)) e (c.inbox (n, t)) := by
        cases e with
        | wrote ok =>
          cases hsmooth
          exact .wrote
        | lock nonce epoch now => exact .lock
        | heartbeatBranch => exact .heartbeat
        | phiBranch => exact .phi
        | gossipBranch => exact .gossip
        | _ => cases hsmooth
      obtain ⟨s, o, hstep⟩ := PortStep.of_act c (r := (n, t)) rfl rfl (fun _ _ => rfl)
        hdel hs
      exact ⟨(n, t), s, e, o, _, hmem, hstep, hphi s hstep.session, fun _ _ _ _ => rfl⟩
    | _ => exact h.elim
  | _ => exact h.elim

/-! ## What a connection looks like in the cluster -/

structure Viewed (c : Cluster P) (x : Attempt) (v : Connection P) : Prop where
  link : c.link x.dialer = some (.daemon x.acceptor)
  dialer : c.session x.dialer = some v.dialer
  acceptor : c.session x.acceptor = some v.acceptor
  toDialer : c.inbox x.dialer = v.toDialer
  toAcceptor : c.inbox x.acceptor = v.toAcceptor
  outbound : ∃ addr, v.dialer.side = .outbound addr
  inbound : v.acceptor.side = .inbound

namespace Viewed

theorem remoteGone_dialer (h : Viewed c x v) :
    c.remoteGone x.dialer = v.acceptor.phase.isEnded := by
  simp [remoteGone, h.link, h.acceptor]

theorem remoteGone_acceptor (h : Viewed c x v) (hl : Links c) :
    c.remoteGone x.acceptor = v.dialer.phase.isEnded := by
  simp [remoteGone, hl.symm _ _ h.link, h.dialer]

theorem dialer_step (h : Viewed c x v) (hne : x.dialer ≠ x.acceptor)
    (hs : PortStep W c c' x.dialer s e o rest) :
    s = v.dialer ∧ Viewed c' x (v.afterDialer o rest) := by
  have heq : s = v.dialer := Option.some.inj (hs.session.symm.trans h.dialer)
  subst heq
  refine ⟨rfl, ⟨?_, hs.after, ?_, ?_, ?_, ?_, h.inbound⟩⟩
  · rw [hs.link, h.link]
  · rw [hs.others _ hne.symm, h.acceptor]
    rfl
  · refine hs.own ?_
    rw [h.link]
    simpa using hne.symm
  · rw [hs.remote _ hne.symm h.link, h.toAcceptor]
    rfl
  · obtain ⟨addr, ha⟩ := h.outbound
    exact ⟨addr, (sessionStep_move hs.step).side.trans ha⟩

theorem acceptor_step (h : Viewed c x v) (hl : Links c) (hne : x.dialer ≠ x.acceptor)
    (hs : PortStep W c c' x.acceptor s e o rest) :
    s = v.acceptor ∧ Viewed c' x (v.afterAcceptor o rest) := by
  have heq : s = v.acceptor := Option.some.inj (hs.session.symm.trans h.acceptor)
  subst heq
  have hback := hl.symm _ _ h.link
  refine ⟨rfl, ⟨?_, ?_, hs.after, ?_, ?_, h.outbound, ?_⟩⟩
  · rw [hs.link, h.link]
  · rw [hs.others _ hne, h.dialer]
    rfl
  · rw [hs.remote _ hne hback, h.toDialer]
    rfl
  · refine hs.own ?_
    rw [hback]
    simpa using hne
  · exact (sessionStep_move hs.step).side.trans h.inbound

/-- A step at a port of another connection. -/
theorem other_step (h : Viewed c x v) (hl : Links c) (hd : r ≠ x.dialer) (ha : r ≠ x.acceptor)
    (hs : PortStep W c c' r s e o rest) : Viewed c' x v := by
  have hback := hl.symm _ _ h.link
  refine ⟨?_, ?_, ?_, ?_, ?_, h.outbound, h.inbound⟩
  · rw [hs.link, h.link]
  · rw [hs.others _ hd.symm, h.dialer]
  · rw [hs.others _ ha.symm, h.acceptor]
  · rw [hs.quiet _ hd.symm, h.toDialer]
    intro hlink
    have := hl.symm _ _ hlink
    rw [h.link, Option.some.injEq, Endpoint.daemon.injEq] at this
    exact ha this.symm
  · rw [hs.quiet _ ha.symm, h.toAcceptor]
    intro hlink
    have := hl.symm _ _ hlink
    rw [hback, Option.some.injEq, Endpoint.daemon.injEq] at this
    exact hd this.symm

end Viewed

/-- The dial has not reached the listener yet; its connection will be served by
the next task there. -/
def Pending (c : Cluster P) (x : Attempt) : Prop :=
  (∃ addr, c.session x.dialer = some (.dialing addr)) ∧ x.acceptor = c.nextPort x.acceptor.1

/-- The connection of the attempt is at the stage `S`. -/
def At (c : Cluster P) (x : Attempt) (S : Connection P → Prop) : Prop := ∃ v, c.Viewed x v ∧ S v

def Opens (W : Setup) (c : Cluster P) (x : Attempt) : Prop :=
  c.Pending x ∨ c.At x (Connection.Opening W.cookie x.dialer.1.text)

def Accepts (W : Setup) (c : Cluster P) (x : Attempt) : Prop :=
  c.At x (Connection.Accepted W.cookie x.acceptor.1.text)

def Establishes (c : Cluster P) (x : Attempt) : Prop := c.At x Connection.Established

def Rejects (c : Cluster P) (x : Attempt) : Prop := c.At x Connection.Rejected

def SameOwners (c c' : Cluster P) : Prop := ∀ n k, (c'.state n).owner k = (c.state n).owner k

/-- The task at `r` has put its handle under `k`. -/
def OwnerSet (c c' : Cluster P) (r : Port) (k : String) : Prop :=
  ∀ n k', (c'.state n).owner k' = if n = r.1 ∧ k' = k then some r.2 else (c.state n).owner k'

theorem PortStep.sameOwners (hs : PortStep W c c' r s e o rest)
    (ho : ∀ k, o.state.owner k = (c.state r.1).owner k) : SameOwners c c' := by
  intro n k
  by_cases hn : n = r.1
  · rw [hn, hs.state, ho k]
  · rw [hs.states n hn]

theorem PortStep.ownerSet {cfg : Config} {peer : PeerId P} {vv : VersionVector String}
    (hs : PortStep W c c' r s e o rest)
    (ho : o.state = (c.state r.1).insertPeer cfg r.2 peer vv) : OwnerSet c c' r peer.nodeId := by
  intro n k
  by_cases hn : n = r.1
  · subst hn
    rw [hs.state, ho, DaemonState.owner_insertPeer]
    simp
  · rw [hs.states n hn, if_neg fun h => hn h.1]

theorem At.other_step {S : Connection P → Prop} (h : c.At x S) (hl : Links c) (hd : r ≠ x.dialer)
    (ha : r ≠ x.acceptor) (hs : PortStep W c c' r s e o rest) : c'.At x S := by
  obtain ⟨v, hv, ho⟩ := h
  exact ⟨v, hv.other_step hl hd ha hs, ho⟩

theorem Opens.other_step (h : Opens W c x) (hl : Links c) (hd : r ≠ x.dialer) (ha : r ≠ x.acceptor)
    (hs : PortStep W c c' r s e o rest) : Opens W c' x := by
  rcases h with ⟨⟨addr, hdial⟩, hnext⟩ | hat
  · refine .inl ⟨⟨addr, ?_⟩, ?_⟩
    · rw [hs.others _ hd.symm, hdial]
    · rw [hs.nextPort]
      exact hnext
  · exact .inr (hat.other_step hl hd ha hs)

/-- What a step does to a connection that opens. -/
inductive OpenStep (W : Setup) (c c' : Cluster P) (x : Attempt) (r : Port) (s : Session P)
    (e : TaskEvent P) : Prop
  | goesOn (h : Opens W c' x) (ho : SameOwners c c')
  | rejects (hdup : x.dialer.1.text ∈ (c.state x.acceptor.1).peers) (h : Rejects c' x)
      (ho : SameOwners c c')
  | accepts {peer : PeerId P} {vv : VersionVector String} {nonce : Nonce} {epoch : Option ℕ}
      {now : ℕ} (hr : r = x.acceptor) (hp : s.phase = .opening (.register peer vv))
      (hid : peer.nodeId = x.dialer.1.text) (he : e = .lock nonce epoch now)
      (hnew : x.dialer.1.text ∉ (c.state x.acceptor.1).peers)
      (h : Accepts W c' x) (ho : OwnerSet c c' x.acceptor x.dialer.1.text)

theorem Causal.decodes (hc : Causal c) (hs : c.session r = some s) : s.phase.Decodes := by
  intro peer b v hp
  obtain ⟨q, -, δ, u, hb, -⟩ := (hc.sessions r s hs).incoming peer _ hp
  rw [hb]
  rfl

theorem Opens.step (h : Opens W c x) (hc : Sound W c) (hne : x.dialer ≠ x.acceptor)
    (hr : r = x.dialer ∨ r = x.acceptor) (hs : PortStep W c c' r s e o rest) :
    OpenStep W c c' x r s e := by
  obtain ⟨l, hlisten⟩ := hc.listen x.acceptor.1
  rcases h with ⟨⟨addr, hdial⟩, hnext⟩ | ⟨v, hv, ho⟩
  · exfalso
    rcases hr with rfl | rfl
    · have heq := Option.some.inj (hs.session.symm.trans hdial)
      have hstep := hs.step
      have hdel := hs.delivers
      subst heq
      cases hdel <;> cases hstep
    · have hnone := session_nextPort c x.acceptor.1
      rw [← hnext, hs.session] at hnone
      cases hnone
  · rcases hr with rfl | rfl
    · obtain ⟨rfl, hv'⟩ := hv.dialer_step hne hs
      have hdel := hs.delivers
      rw [hv.remoteGone_dialer, hv.toDialer] at hdel
      obtain ⟨hopen, hst⟩ := ho.dialer_step hdel hs.step
      exact .goesOn (.inr ⟨_, hv', hopen⟩) (hs.sameOwners fun k => by rw [hst])
    · obtain ⟨rfl, hv'⟩ := hv.acceptor_step hc.links hne hs
      have hdel := hs.delivers
      rw [hv.remoteGone_acceptor hc.links, hv.toAcceptor] at hdel
      rcases ho.acceptor_step hv.inbound hlisten (hc.causal.nodeId _) hdel hs.step with
        ⟨hopen, hst⟩ |
        ⟨peer, vv, nonce, epoch, now, hp, hid, he, ⟨hdup, hrej, hst⟩ | ⟨hnew, hacc, hst⟩⟩
      · exact .goesOn (.inr ⟨_, hv', hopen⟩) (hs.sameOwners fun k => by rw [hst])
      · exact .rejects hdup ⟨_, hv', hrej⟩ (hs.sameOwners fun k => by rw [hst])
      · have hset := hs.ownerSet hst
        rw [hid] at hset
        exact .accepts rfl hp hid he hnew ⟨_, hv', hacc⟩ hset

theorem Accepts.step (h : Accepts W c x) (hc : Sound W c)
    (hcfg : ∀ n, 0 < (W.cfg n).heartbeatIntervalSecs)
    (hne : x.dialer ≠ x.acceptor) (hnew : (c.state x.dialer.1).owner x.acceptor.1.text = none)
    (hr : r = x.dialer ∨ r = x.acceptor) (hs : PortStep W c c' r s e o rest)
    (hphi : ¬ PhiCloses (W.cfg r.1) (c.state r.1) s e) :
    (Accepts W c' x ∧ SameOwners c c') ∨
      (Establishes c' x ∧ OwnerSet c c' x.dialer x.acceptor.1.text) := by
  obtain ⟨v, hv, ho⟩ := h
  rcases hr with rfl | rfl
  · obtain ⟨rfl, hv'⟩ := hv.dialer_step hne hs
    have hdel := hs.delivers
    rw [hv.remoteGone_dialer, hv.toDialer] at hdel
    obtain ⟨addr, hside⟩ := hv.outbound
    rcases ho.dialer_step hside (DaemonState.not_mem_peers hnew) hdel hs.step with ⟨hacc, hst⟩ |
      ⟨peer, vv, hid, hest, hst⟩
    · exact .inl ⟨⟨_, hv', hacc⟩, hs.sameOwners fun k => by rw [hst]⟩
    · exact .inr ⟨⟨_, hv', hest⟩, hid ▸ hs.ownerSet hst⟩
  · obtain ⟨rfl, hv'⟩ := hv.acceptor_step hc.links hne hs
    have hdel := hs.delivers
    rw [hv.remoteGone_acceptor hc.links, hv.toAcceptor] at hdel
    obtain ⟨hacc, howner⟩ := ho.acceptor_step (hcfg _) hdel hphi
      (hc.causal.decodes hs.session) hs.step
    exact .inl ⟨⟨_, hv', hacc⟩, hs.sameOwners howner⟩

theorem Establishes.step (h : Establishes c x) (hc : Sound W c)
    (hcfg : ∀ n, 0 < (W.cfg n).heartbeatIntervalSecs)
    (hne : x.dialer ≠ x.acceptor) (hr : r = x.dialer ∨ r = x.acceptor)
    (hs : PortStep W c c' r s e o rest) (hphi : ¬ PhiCloses (W.cfg r.1) (c.state r.1) s e) :
    Establishes c' x ∧ SameOwners c c' := by
  obtain ⟨v, hv, ho⟩ := h
  have hdel := hs.delivers
  rcases hr with rfl | rfl
  · obtain ⟨rfl, hv'⟩ := hv.dialer_step hne hs
    rw [hv.remoteGone_dialer, hv.toDialer] at hdel
    obtain ⟨hest, howner⟩ := ho.dialer_step (hcfg _) hdel hphi
      (hc.causal.decodes hs.session) hs.step
    exact ⟨⟨_, hv', hest⟩, hs.sameOwners howner⟩
  · obtain ⟨rfl, hv'⟩ := hv.acceptor_step hc.links hne hs
    rw [hv.remoteGone_acceptor hc.links, hv.toAcceptor] at hdel
    obtain ⟨hest, howner⟩ := ho.acceptor_step (hcfg _) hdel hphi
      (hc.causal.decodes hs.session) hs.step
    exact ⟨⟨_, hv', hest⟩, hs.sameOwners howner⟩

theorem Rejects.step (h : Rejects c x) (hl : Links c) (hne : x.dialer ≠ x.acceptor)
    (hr : r = x.dialer ∨ r = x.acceptor) (hs : PortStep W c c' r s e o rest) :
    Rejects c' x ∧ SameOwners c c' := by
  obtain ⟨v, hv, ho⟩ := h
  rcases hr with rfl | rfl
  · obtain ⟨rfl, hv'⟩ := hv.dialer_step hne hs
    have hdel := hs.delivers
    rw [hv.remoteGone_dialer, hv.toDialer] at hdel
    obtain ⟨hrej, hst⟩ := ho.dialer_step hdel hs.step
    exact ⟨⟨_, hv', hrej⟩, hs.sameOwners fun k => by rw [hst]⟩
  · obtain ⟨rfl, -⟩ := hv.acceptor_step hl hne hs
    exact (ho.acceptor_step hs.step).elim

/-! ## A new connection -/

/-- The dial of `x` reaches the listener. -/
structure ConnectStep (W : Setup) (c c' : Cluster P) (x : Attempt) : Prop where
  dialer : ∃ addr m, Greets W.cookie x.dialer.1.text m ∧
    c'.session x.dialer = some ⟨.outbound addr, .opening (.writeHandshake m), 0⟩
  acceptor : c'.session x.acceptor = some .accepted
  others : ∀ q, q ≠ x.dialer → q ≠ x.acceptor → c'.session q = c.session q
  state : ∀ n, c'.state n = c.state n
  link : ∀ q, c'.link q = if q = x.dialer then some (.daemon x.acceptor)
    else if q = x.acceptor then some (.daemon x.dialer) else c.link q
  inbox : c'.inbox = c.inbox
  nextPort : ∀ n, n ≠ x.acceptor.1 → c'.nextPort n = c.nextPort n

/-- What a dial that reaches another daemon changes. -/
theorem establish_eq {p : Port} {n : NodeId} {nonce : Nonce} {addr l : P.Addr} (hne : p.1 ≠ n)
    (hs : c.session p = some (.dialing addr)) (hl : (W.cfg p.1).listenAddr P = some l)
    (h : c.step W (.establish p n nonce) = some c') :
    c' = ((c.connect p (c.nextPort n)).setDaemon p.1 { c.daemon p.1 with
      tasks := (c.daemon p.1).tasks.set p.2 ⟨.outbound addr, .opening (.writeHandshake
        (handshakeMessage W.cookie (c.state p.1) l nonce)), 0⟩ }).setDaemon n
        { c.daemon n with tasks := (c.daemon n).tasks ++ [.accepted] } := by
  obtain ⟨c₁, h₁, h₂⟩ := Option.bind_eq_some_iff.mp h
  have ho : sessionStep (W.cfg p.1) W.cookie p.2 (c.state p.1) (.dialing addr)
      (.connected nonce) = some ⟨c.state p.1, ⟨.outbound addr, .opening (.writeHandshake
        (handshakeMessage W.cookie (c.state p.1) l nonce)), 0⟩, none⟩ := by
    simp only [sessionStep, Session.dialing, openingStep, hl]
    rfl
  have hact := act_of_sessionStep (n := p.1) (t := p.2) (c := c.connect p (c.nextPort n)) hs ho
  have hc₁ := Option.some.inj (h₁.symm.trans hact)
  subst hc₁
  rw [act_accept h₂, post_daemon, setDaemon_ne _ _ _ (Ne.symm hne)]
  rfl

theorem ConnectStep.of_establish (hp : c.Pending x) (hapart : x.dialer.1 ≠ x.acceptor.1)
    (hnode : (c.state x.dialer.1).membership.nodeId = x.dialer.1.text) {l : P.Addr}
    (hlisten : (W.cfg x.dialer.1).listenAddr P = some l) {nonce : Nonce}
    (h : c.step W (.establish x.dialer x.acceptor.1 nonce) = some c') : ConnectStep W c c' x := by
  obtain ⟨⟨addr, hs⟩, hnext⟩ := hp
  have hc' := establish_eq hapart hs hlisten h
  rw [← hnext] at hc'
  have hlt := (List.getElem?_eq_some_iff.mp hs).1
  have hnew : x.acceptor.2 = (c.daemon x.acceptor.1).tasks.length := congrArg Prod.snd hnext
  have hne : x.dialer ≠ x.acceptor := fun he => hapart (by rw [he])
  subst hc'
  have hgreets : Greets W.cookie x.dialer.1.text
      (handshakeMessage W.cookie (c.state x.dialer.1) l nonce) := hnode ▸ greets_handshakeMessage
  refine ⟨⟨addr, _, hgreets, ?_⟩, ?_,
    fun q hd ha => ?_, fun n => ?_, Links.link_connect hne, rfl, fun n hn => ?_⟩
  · rw [session, setDaemon_ne _ _ _ hapart, setDaemon_self]
    exact List.getElem?_set_self hlt
  · rw [session, setDaemon_self, hnew]
    exact List.getElem?_concat_length
  · by_cases hqa : q.1 = x.acceptor.1
    · have hq : q.2 ≠ (c.daemon q.1).tasks.length := fun he => ha (Prod.ext hqa (by
        rw [he, hnew, hqa]))
      rw [session, session, hqa, setDaemon_self]
      rw [hqa] at hq
      rcases Nat.lt_or_gt_of_ne hq with hlt' | hlt'
      · exact List.getElem?_append_left hlt'
      · rw [List.getElem?_eq_none hlt'.le, List.getElem?_eq_none]
        rw [List.length_append, List.length_singleton]
        exact hlt'
    · rw [session, setDaemon_ne _ _ _ hqa]
      by_cases hqd : q.1 = x.dialer.1
      · have ht : x.dialer.2 ≠ q.2 := fun ht => hd (Prod.ext hqd ht.symm)
        rw [hqd, setDaemon_self, List.getElem?_set_ne ht, session, hqd]
      · rw [setDaemon_ne _ _ _ hqd]
        rfl
  · by_cases hna : n = x.acceptor.1
    · rw [hna, Cluster.state, setDaemon_self]
    · rw [Cluster.state, setDaemon_ne _ _ _ hna]
      by_cases hnd : n = x.dialer.1
      · rw [hnd, setDaemon_self]
      · rw [setDaemon_ne _ _ _ hnd]
        rfl
  · rw [Cluster.nextPort, Cluster.nextPort, setDaemon_ne _ _ _ hn]
    by_cases hnd : n = x.dialer.1
    · rw [hnd, setDaemon_self, List.length_set]
    · rw [setDaemon_ne _ _ _ hnd]
      rfl

namespace ConnectStep

theorem opens (hs : ConnectStep W c c' x) (hp : c.Pending x) (hl : Links c) : Opens W c' x := by
  obtain ⟨⟨addr, hdial⟩, hnext⟩ := hp
  obtain ⟨addr', m, hm, hd⟩ := hs.dialer
  have hfree : c.inbox x.dialer = [] := by
    rw [List.eq_nil_iff_forall_not_mem]
    intro m' hm'
    obtain ⟨z, hz⟩ := hl.fed _ m' hm'
    rw [hl.link_connecting hdial rfl] at hz
    cases hz
  have hempty : c.inbox x.acceptor = [] := by
    rw [hnext]
    exact hl.inbox_nextPort _
  refine .inr ⟨⟨_, .accepted, [], []⟩, ⟨?_, hd, hs.acceptor, ?_, ?_, ⟨addr', rfl⟩, rfl⟩,
    .greeting rfl hm rfl rfl rfl⟩
  · rw [hs.link, if_pos rfl]
  · rw [hs.inbox, hfree]
  · rw [hs.inbox, hempty]

theorem sameOwners (hs : ConnectStep W c c' x) : SameOwners c c' := fun n k => by rw [hs.state n]

/-- The other attempt is left alone. -/
theorem viewed_other (hs : ConnectStep W c c' x) (hxy : x.Opposite y) (h : c.Viewed y v) :
    c'.Viewed y v := by
  have hdd := (hxy.symm.ports_ne (.inl rfl)).1
  have haa := (hxy.symm.ports_ne (.inr rfl)).2
  refine ⟨?_, ?_, ?_, ?_, ?_, h.outbound, h.inbound⟩
  · rw [hs.link, if_neg hdd, if_neg hxy.acceptor.symm, h.link]
  · rw [hs.others _ hdd hxy.acceptor.symm, h.dialer]
  · rw [hs.others _ hxy.dialer.symm haa, h.acceptor]
  · rw [hs.inbox, h.toDialer]
  · rw [hs.inbox, h.toAcceptor]

theorem at_other {S : Connection P → Prop} (hs : ConnectStep W c c' x) (hxy : x.Opposite y)
    (h : c.At y S) : c'.At y S := by
  obtain ⟨v, hv, hS⟩ := h
  exact ⟨v, hs.viewed_other hxy hv, hS⟩

theorem opens_other (hs : ConnectStep W c c' x) (hxy : x.Opposite y) (h : Opens W c y) :
    Opens W c' y := by
  rcases h with ⟨⟨addr, hdial⟩, hnext⟩ | hat
  · have hdd := (hxy.symm.ports_ne (.inl rfl)).1
    refine .inl ⟨⟨addr, ?_⟩, ?_⟩
    · rw [hs.others _ hdd hxy.acceptor.symm, hdial]
    · rw [hs.nextPort _ (by rw [hxy.forth]; exact hxy.apart)]
      exact hnext
  · exact .inr (hs.at_other hxy hat)

end ConnectStep

/-- Only a dial that waits for its connection gets one. -/
theorem At.not_establish {S : Connection P → Prop} (h : c.At x S) (hl : Links c) {n : NodeId}
    {nonce : Nonce} (hs : c.step W (.establish x.dialer n nonce) = some c') : False := by
  obtain ⟨v, hv, -⟩ := h
  obtain ⟨c₁, h₁, -⟩ := Option.bind_eq_some_iff.mp hs
  obtain ⟨⟨s, hs, hp⟩, -⟩ := Links.taken_connected h₁
  have hnone := hl.link_connecting (c := c) hs hp
  rw [hv.link] at hnone
  cases hnone

end Cluster
end Pmd
