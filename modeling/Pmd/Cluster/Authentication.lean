import Pmd.Cluster.Network
import Mathlib.Data.Fintype.EquivFin

/-!
# Cookie authentication

Both handshake messages carry a nonce chosen by their sender and its HMAC; no
side checks that the nonce answers a challenge of its own. As long as no honest
daemon has written its `Handshake` to the attacker, every registered session ends
at a daemon that holds the cookie. Once one has, the attacker can repeat the proof
on a connection of its own and is registered by any daemon it likes.
-/
namespace Pmd
open Foundation

variable {P : Platform}

/-- The message carries a nonce with the right proof. -/
def Message.Proves (cookie : Bytes) (m : Message P) : Prop :=
  ∃ pair ∈ m.proof, pair.2 = P.hmac cookie pair.1

/-- The remote end has passed the cookie check. -/
def Phase.IsAuthenticated : Phase P → Prop
  | .opening (.register _ _) => True
  | .live _ _ => True
  | .ended left => left.isSome = true
  | _ => False

theorem Phase.isAuthenticated_of_registered {p : Phase P} {peer : PeerId P}
    (h : p.registered = some peer) : p.IsAuthenticated := by
  cases p with
  | opening _ => cases h
  | live _ _ => trivial
  | ended left =>
    have h : left = some peer := h
    simp [IsAuthenticated, h]

theorem checkHandshake_proves {cookie : Bytes} {m : Message P}
    {r : PeerId P × VersionVector String} (h : checkHandshake cookie m = some r) :
    m.Proves cookie := by
  rw [checkHandshake.eq_def] at h
  split at h
  · obtain ⟨⟨-, hv⟩, -⟩ := Option.ite_none_right_eq_some.mp h
    exact ⟨_, rfl, verifyCookieHmac_iff.mp hv⟩
  · cases h

theorem checkAck_proves {cookie : Bytes} {m : Message P}
    {r : PeerId P × VersionVector String} (h : checkAck cookie m = some r) :
    m.Proves cookie := by
  rw [checkAck.eq_def] at h
  split at h
  · obtain ⟨⟨-, hv⟩, -⟩ := Option.ite_none_right_eq_some.mp h
    exact ⟨_, rfl, verifyCookieHmac_iff.mp hv⟩
  · cases h

section Session
variable {cfg : Config} {cookie : Bytes} {t : TaskId} {st : DaemonState P} {s : Session P}
  {e : TaskEvent P} {o : Outcome P}

/-- A session becomes authenticated only by reading a valid proof. -/
theorem sessionMove_isAuthenticated (h : SessionMove cfg cookie t st s e o)
    (ho : o.session.phase.IsAuthenticated) :
    s.phase.IsAuthenticated ∨ ∃ m, e = .read (.message m) ∧ m.Proves cookie := by
  cases h with
  | checked hp hc =>
    rcases hc with ⟨-, hc⟩ | ⟨-, hc⟩
    · exact .inr ⟨_, rfl, checkHandshake_proves hc⟩
    · exact .inr ⟨_, rfl, checkAck_proves hc⟩
  | dialed _ _ => exact ho.elim
  | greeted _ => exact ho.elim
  | refused _ => cases ho
  | cleaned _ => cases ho
  | registered hp _ _ => exact .inl (by rw [hp]; trivial)
  | wrote hp _ => exact .inl (by rw [hp]; trivial)
  | setupFailed hp _ => exact .inl (by rw [hp]; trivial)
  | panicked hp _ => exact .inl (by rw [hp]; trivial)
  | built hp => exact .inl (by rw [hp]; trivial)
  | gossiped hp _ => exact .inl (by rw [hp]; trivial)
  | beat hp _ => exact .inl (by rw [hp]; trivial)
  | token hp _ => exact .inl (by rw [hp]; trivial)
  | received hp => exact .inl (by rw [hp]; trivial)
  | moved hp _ => exact .inl (by rw [hp]; trivial)
  | recorded hp => exact .inl (by rw [hp]; trivial)
  | merged hp _ => exact .inl (by rw [hp]; trivial)

/-- A frame is written by an authenticated session, or it is the `Handshake`. -/
theorem sessionMove_sent {m : Message P} (h : SessionMove cfg cookie t st s e o)
    (ho : o.sent = some m) :
    s.phase.IsAuthenticated ∨ (e = .wrote true ∧ s.phase = .opening (.writeHandshake m)) := by
  cases h with
  | greeted hp =>
    cases ho
    exact .inr ⟨rfl, hp⟩
  | wrote hp _ => exact .inl (by rw [hp]; trivial)
  | _ => cases ho

/-- A prepared `Handshake` carries a valid proof. -/
theorem sessionMove_writeHandshake {m : Message P} (h : SessionMove cfg cookie t st s e o)
    (ho : o.session.phase = .opening (.writeHandshake m)) : m.Proves cookie := by
  cases h with
  | dialed _ _ =>
    cases ho
    exact ⟨_, rfl, rfl⟩
  | _ => cases ho

end Session

namespace Cluster
variable {W : Setup} {c c' : Cluster P} {n : NodeId} {a : Act P}

/-- Every entry was registered by a session whose other end is an honest daemon. -/
def Authentic (c : Cluster P) : Prop :=
  ∀ n k h, (c.state n).peers.lookup k = some h → ∃ q, c.link (n, h.gossipTx) = some (.daemon q)

/-- The step is not an honest daemon writing its `Handshake` to the attacker. -/
def HandshakeWithheld (c : Cluster P) (x : Action P) : Prop :=
  ∀ p s m, x = .own p.1 (.task p.2 (.wrote true)) → c.session p = some s →
    s.phase = .opening (.writeHandshake m) → c.link p ≠ some .attacker

/-- The attacker holds no proof, and only daemons get authenticated. -/
structure ProofsKept (W : Setup) (c : Cluster P) : Prop where
  seen : c.seen = []
  inbox : ∀ p m, m ∈ c.inbox p → ∃ x, c.link p = some x ∧ (m.Proves W.cookie → x ≠ .attacker)
  sessions : ∀ p s, c.session p = some s → s.phase.IsAuthenticated →
    ∃ q, c.link p = some (.daemon q)

namespace ProofsKept

theorem setLink (hi : ProofsKept W c) {p : Port} (hp : c.link p = none) (x : Endpoint) :
    ProofsKept W (c.setLink p x) where
  seen := hi.seen
  inbox r m hm := by
    obtain ⟨y, hy, hv⟩ := hi.inbox r m hm
    exact ⟨y, Links.link_setLink_of_some hp hy, hv⟩
  sessions r s hs ha := by
    obtain ⟨q, hq⟩ := hi.sessions r s hs ha
    exact ⟨q, Links.link_setLink_of_some hp hq⟩

theorem act (hi : ProofsKept W c)
    (hsymm : ∀ p q, c.link p = some (.daemon q) → c.link q = some (.daemon p))
    (hread : ∀ t m, a = .task t (.read (.message m)) → m.Proves W.cookie →
      ∃ q, c.link (n, t) = some (.daemon q))
    (hwrite : ∀ t s m, a = .task t (.wrote true) → c.session (n, t) = some s →
      s.phase = .opening (.writeHandshake m) → c.link (n, t) ≠ some .attacker)
    (h : c.act W n a = some c') : ProofsKept W c' := by
  have hlink := act_link h
  obtain ⟨d, sent, hd, hc'⟩ := act_eq_some h
  have hsent : ∀ t m, sent = some (t, m) → c.link (n, t) ≠ some .attacker := by
    intro t m hm
    rcases Daemon.step_cases hd with ⟨t', e, s, o, rfl, hs, hmove, -, hsent⟩ | ⟨-, hsent⟩
    · rw [hsent] at hm
      obtain ⟨m', hm', heq⟩ := Option.map_eq_some_iff.mp hm
      cases heq
      rcases sessionMove_sent hmove hm' with ha | ⟨rfl, hp⟩
      · obtain ⟨q, hq⟩ := hi.sessions (n, t) s hs ha
        simp [hq]
      · exact hwrite t s m rfl hs hp
    · simp [hsent] at hm
  refine ⟨?_, fun p m hm => ?_, fun p s hs ha => ?_⟩
  · rw [List.eq_nil_iff_forall_not_mem]
    intro pair hpair
    rw [hc'] at hpair
    rcases mem_seen_post hpair with hold | ⟨t, m, hm, hl, -⟩
    · rw [setDaemon_seen, hi.seen] at hold
      cases hold
    · exact hsent t m hm hl
  · rw [hc'] at hm
    rw [hlink]
    rcases mem_inbox_post hm with hold | ⟨t, -, hl⟩
    · exact hi.inbox p m hold
    · exact ⟨_, hsymm _ _ hl, fun _ => by simp⟩
  · rw [hlink]
    rcases session_act h hs with ⟨e, s₀, o, rfl, rfl, hs₀, hm, rfl⟩ | hs | ⟨-, hnew⟩
    · rcases sessionMove_isAuthenticated hm ha with ha | ⟨m, rfl, hv⟩
      · exact hi.sessions p s₀ hs₀ ha
      · exact hread p.2 m rfl hv
    · exact hi.sessions p s hs ha
    · rcases hnew with ⟨addr, rfl⟩ | ⟨-, -, rfl⟩
      · exact ha.elim
      · exact ha.elim

/-- A daemon step that reads nothing and writes no `Handshake`. -/
theorem act_quiet (hi : ProofsKept W c)
    (hsymm : ∀ p q, c.link p = some (.daemon q) → c.link q = some (.daemon p))
    (hread : ∀ t m, a ≠ .task t (.read (.message m))) (hwrite : ∀ t, a ≠ .task t (.wrote true))
    (h : c.act W n a = some c') : ProofsKept W c' :=
  hi.act hsymm (fun t m ha => absurd ha (hread t m)) (fun t _ _ ha => absurd ha (hwrite t)) h

theorem step (hi : ProofsKept W c) (hl : Links c) {x : Action P} (hx : HandshakeWithheld c x)
    (h : c.step W x = some c') : ProofsKept W c' := by
  cases x with
  | own n a =>
    obtain ⟨hown, h⟩ := Option.ite_none_right_eq_some.mp h
    refine hi.act hl.symm (fun t m ha => ?_) (fun t s m ha hs hp => ?_) h
    · rw [ha] at hown
      cases hown
    · exact hx (n, t) s m (by rw [ha]) hs hp
  | receive p =>
    obtain ⟨m, rest, hin, h⟩ := step_receive h
    have hi' : ProofsKept W (c.setInbox p rest) :=
      ⟨hi.seen, fun r m' hm' => hi.inbox r m' (mem_inbox_of_tail hin hm'), hi.sessions⟩
    refine hi'.act hl.symm (fun t m' ha hv => ?_) (fun t s m' ha => by cases ha) h
    cases ha
    obtain ⟨y, hy, hne⟩ := hi.inbox p m (by rw [hin]; exact List.mem_cons_self)
    cases y with
    | daemon q => exact ⟨q, hy⟩
    | attacker => exact absurd rfl (hne hv)
  | closed p =>
    obtain ⟨-, h⟩ := Option.ite_none_right_eq_some.mp h
    exact hi.act_quiet hl.symm (by simp) (by simp) h
  | establish p n nonce =>
    obtain ⟨c₁, h₁, h₂⟩ := Option.bind_eq_some_iff.mp h
    obtain ⟨hpq, hlp, hlq⟩ := hl.establish_ports h₁
    have hsymm := Links.symm_connect hpq hlp hlq hl.symm
    have hi' : ProofsKept W (c.connect p (c.nextPort n)) :=
      (hi.setLink hlp _).setLink (by rw [setLink_ne _ _ _ (Ne.symm hpq), hlq]) _
    have hi₁ := hi'.act_quiet hsymm (by simp) (by simp) h₁
    exact hi₁.act_quiet (by rw [act_link h₁]; exact hsymm) (by simp) (by simp) h₂
  | attackerDial n =>
    have hq := hl.link_nextPort n
    refine (hi.setLink hq _).act_quiet (fun r u hu => ?_) (by simp) (by simp) h
    exact Links.symm_attack hq hl.symm r u hu
  | attackerAccept p nonce =>
    obtain ⟨⟨s, hs, hp⟩, -⟩ := Links.taken_connected h
    have hq := hl.link_connecting hs hp
    refine (hi.setLink hq _).act_quiet (fun r u hu => ?_) (by simp) (by simp) h
    exact Links.symm_attack hq hl.symm r u hu
  | attackerSend p m =>
    obtain ⟨⟨hp, hsend⟩, h⟩ := Option.ite_none_right_eq_some.mp h
    cases h
    refine ⟨hi.seen, fun r m' hm' => ?_, hi.sessions⟩
    rcases mem_inbox_concat hm' with hm' | ⟨rfl, rfl⟩
    · exact hi.inbox r m' hm'
    · refine ⟨_, hp, ?_⟩
      rintro ⟨pair, hpair, hv⟩
      have hseen := hsend pair hpair hv
      rw [hi.seen] at hseen
      cases hseen

theorem reach (h : (system P W).Reach HandshakeWithheld c) : ProofsKept W c := by
  refine (h.invariant (I := fun c => ProofsKept W c ∧ Links c) (fun c hc => ⟨?_, .init hc⟩)
    fun c x c' hi hx hs => ⟨hi.1.step hi.2 hx hs, hi.2.step hs⟩).1
  obtain ⟨hd, hl, hin, hseen⟩ := hc
  refine ⟨hseen, fun p m hm => by simp [hin] at hm, fun p s hs => ?_⟩
  obtain ⟨_, _, _, hstart⟩ := hd p.1
  rw [session, (Daemon.start_eq_some hstart).2.2.2.1] at hs
  cases hs

theorem authentic (h : (system P W).Reach HandshakeWithheld c) : Authentic c := by
  intro n k hd hk
  obtain ⟨peer, hreg, -⟩ := handlesOwned h n k hd.gossipTx (by rw [DaemonState.owner, hk]; rfl)
  obtain ⟨s, hs, hp⟩ := Option.bind_eq_some_iff.mp hreg
  exact (reach h).sessions (n, hd.gossipTx) s hs (Phase.isAuthenticated_of_registered hp)

end ProofsKept

theorem reach_listenAddr {C : Cluster P → Action P → Prop} (h : (system P W).Reach C c)
    (n : NodeId) : ∃ l, (W.cfg n).listenAddr P = some l := by
  obtain ⟨c₀, hc₀, -⟩ := h
  obtain ⟨_, _, _, hd⟩ := hc₀.1 n
  exact (Daemon.start_eq_some hd).1

/-- With one valid proof in hand the attacker gets itself registered by any
daemon: it dials, repeats the proof under an unused node id and waits. -/
theorem attacker_registers (hl : Links c) {nonce : Nonce}
    (hseen : (nonce, P.hmac W.cookie nonce) ∈ c.seen) {l : P.Addr}
    (hlisten : (W.cfg n).listenAddr P = some l) :
    ∃ c', (system P W).Leads System.any c c' ∧ ¬ Authentic c' := by
  obtain ⟨k, hk⟩ := Infinite.exists_notMem_finset (c.state n).peers.keys.toFinset
  have hnew : k ∉ (c.state n).peers := by simpa [AList.mem_keys] using hk
  let q : Port := c.nextPort n
  let peer : PeerId P := ⟨k, l⟩
  let m : Message P := greeting W.cookie peer nonce
  let d₁ : Daemon P := { c.daemon n with tasks := (c.daemon n).tasks ++ [.accepted] }
  let c₁ : Cluster P := (c.setLink q .attacker).setDaemon n d₁
  have h₁ : (system P W).step c (.attackerDial n) = some c₁ := rfl
  let c₂ : Cluster P := c₁.setInbox q (c₁.inbox q ++ [m])
  have h₂ : (system P W).step c₁ (.attackerSend q m) = some c₂ := by
    refine if_pos ⟨setLink_self _ _ _, fun pair hpair _ => ?_⟩
    cases hpair
    exact hseen
  have hin : c₂.inbox q = [m] := by
    have hempty : c₁.inbox q = [] := hl.inbox_nextPort n
    rw [setInbox_self, hempty]
    rfl
  let c₂' : Cluster P := c₂.setInbox q []
  have hs₂ : c₂'.session (n, q.2) = some .accepted := by
    have hd : c₂'.daemon n = d₁ := setDaemon_self _ _ _
    rw [session, hd]
    exact List.getElem?_concat_length
  have ho₂ : sessionStep (W.cfg n) W.cookie q.2 (c₂'.state n) .accepted (.read (.message m)) =
      some ⟨c₂'.state n, Session.accepted.goto (.opening (.register peer ⊥)), none⟩ :=
    sessionStep_handshake rfl (checkHandshake_greeting peer nonce)
  have h₃ := act_of_sessionStep hs₂ ho₂
  obtain ⟨c₃, hc₃⟩ : ∃ c₃, c₃ = c₂'.setDaemon n ⟨c₂'.state n, (c₂'.daemon n).tasks.set q.2
    (Session.accepted.goto (.opening (.register peer ⊥))), (c₂'.daemon n).main⟩ := ⟨_, rfl⟩
  have h₃' : (system P W).step c₂ (.receive q) = some c₃ := by
    simp only [system, Cluster.step, hin, hc₃]
    exact h₃
  have hs₃ : c₃.session (n, q.2) = some (Session.accepted.goto (.opening (.register peer ⊥))) := by
    rw [session, hc₃, setDaemon_self]
    exact List.getElem?_set_self (List.getElem?_eq_some_iff.mp hs₂).1
  have hpeers₃ : peer.nodeId ∉ (c₃.state n).peers := by
    rw [state, hc₃, setDaemon_self]
    have hd : c₂'.daemon n = d₁ := setDaemon_self _ _ _
    rw [state, hd]
    exact hnew
  have h₄ : (system P W).step c₃ (.own n (.task q.2 (.lock nonce none 0))) = some _ :=
    act_of_sessionStep hs₃ (sessionStep_register_inbound rfl rfl hpeers₃ hlisten)
  refine ⟨_, (((Relation.ReflTransGen.single ⟨_, trivial, h₁⟩).tail ⟨_, trivial, h₂⟩).tail
    ⟨_, trivial, h₃'⟩).tail ⟨_, trivial, h₄⟩, fun hauth => ?_⟩
  obtain ⟨r, hr⟩ := hauth n k _ (by
    rw [state, post_daemon, setDaemon_self, DaemonState.lookup_insertPeer, if_pos rfl])
  rw [post_link, setDaemon_link, hc₃] at hr
  have hlink : c₂'.link q = some .attacker := setLink_self _ _ _
  exact absurd (hlink.symm.trans hr) (by simp)

/-- Every prepared `Handshake` of an honest daemon carries a valid proof. -/
theorem writeHandshake_proves {C : Cluster P → Action P → Prop} (h : (system P W).Reach C c)
    {p : Port} {s : Session P} {m : Message P} (hs : c.session p = some s)
    (hp : s.phase = .opening (.writeHandshake m)) : m.Proves W.cookie := by
  refine daemon_reach (I := fun _ d => ∀ t s m, d.tasks[t]? = some s →
    s.phase = .opening (.writeHandshake m) → m.Proves W.cookie) ?_ ?_ h p.1 p.2 s m hs hp
  · intro n d metadata addr now hd t s m hs
    rw [(Daemon.start_eq_some hd).2.2.2.1] at hs
    cases hs
  · intro n d a d' sent hi hd t s m hs hp
    rcases Daemon.session_step hd hs with ⟨e, s₀, o, rfl, -, hm, rfl⟩ | hold | ⟨-, hnew⟩
    · exact sessionMove_writeHandshake hm hp
    · exact hi t s m hold hp
    · rcases hnew with ⟨addr, rfl⟩ | ⟨-, rfl⟩
      · cases hp
      · cases hp

/-- A `Handshake` written to the attacker gives it a valid proof. -/
theorem seen_of_handshake {C : Cluster P → Action P → Prop} (h : (system P W).Reach C c)
    {x : Action P} (hx : ¬ HandshakeWithheld c x) (hs : c.step W x = some c') :
    ∃ nonce, (nonce, P.hmac W.cookie nonce) ∈ c'.seen := by
  simp only [HandshakeWithheld, not_forall, not_not] at hx
  obtain ⟨p, s, m, rfl, hsess, hp, hlink⟩ := hx
  obtain ⟨pair, hpair, hv⟩ := writeHandshake_proves h hsess hp
  have hs : c.act W p.1 (.task p.2 (.wrote true)) = some c' := hs
  have ho : sessionStep (W.cfg p.1) W.cookie p.2 (c.state p.1) s (.wrote true) =
      some ⟨c.state p.1, s.goto (.opening .readAck), some m⟩ := by
    simp only [sessionStep, hp, openingStep]
  rw [act_of_sessionStep hsess ho, Option.some.injEq] at hs
  refine ⟨pair.1, ?_⟩
  rw [← hs, ← hv, Option.map_some, post, setDaemon_link, hlink]
  exact List.mem_append_right _ (Option.mem_toList.mpr hpair)

/-- Every entry ends at a holder of the cookie as long as no honest daemon writes
its `Handshake` to the attacker; and from any state in which one just did, the
attacker can be registered. -/
theorem authentic_iff_handshakeWithheld (W : Setup) :
    (∀ c : Cluster P, (system P W).Reach HandshakeWithheld c → Authentic c) ∧
    (∀ (c c' : Cluster P) (x : Action P), (system P W).Reach System.any c →
      ¬ HandshakeWithheld c x → (system P W).step c x = some c' →
      ∃ c'', (system P W).Leads System.any c' c'' ∧ ¬ Authentic c'') := by
  refine ⟨fun c => ProofsKept.authentic, fun c c' x hr hx hs => ?_⟩
  obtain ⟨nonce, hseen⟩ := seen_of_handshake hr hx hs
  have hl : Links c' := (Links.reach hr).step hs
  obtain ⟨l, hlisten⟩ := reach_listenAddr hr ⟨"a", by decide⟩
  exact attacker_registers hl hseen hlisten

section
open Reference

/-- Node `a` dials an address the attacker answers. The attacker repeats the proof
of its `Handshake` to node `b`, under the node id `x`. -/
def replay : List (Action platform) :=
  dials nodeA "10.0.0.9:4369" ++ [.attackerAccept (nodeA, 0) nonce,
    .own nodeA (.task 0 (.wrote true)), .attackerDial nodeB, .attackerSend (nodeB, 0) (hello "x"),
    .receive (nodeB, 0), .own nodeB (.task 0 locked)]

theorem replay_registers : ¬ ∀ c : Cluster platform, clusters.Reach System.any c → Authentic c := by
  have heval : ((some cluster).bind fun c => (clusters.guard fun _ _ => true).run c replay).any
      (fun c => (c.state nodeB).owner "x" == some 0 && c.link (nodeB, 0) == some .attacker)
        = true := by
    decide +kernel
  obtain ⟨c, hr, hp⟩ := System.Reach.of_eval (C := System.any) heval (fun _ _ _ => trivial)
    cluster_init
  rw [Bool.and_eq_true, beq_iff_eq, beq_iff_eq] at hp
  intro hall
  obtain ⟨h, hh, ht⟩ := Option.map_eq_some_iff.mp hp.1
  obtain ⟨q, hq⟩ := hall c hr nodeB "x" h hh
  rw [ht, hp.2] at hq
  cases hq

/-- The step writes nothing to the attacker. -/
def writesToDaemon (c : Cluster platform) : Action platform → Bool
  | .own n (.task t (.wrote true)) => c.link (n, t) != some .attacker
  | _ => true

/-- Node `a` connects to node `b`, and the attacker dials `b` without a proof. -/
theorem authentic_join : ∃ c : Cluster platform, clusters.Reach HandshakeWithheld c ∧
    (c.state nodeB).owner "a" = some 0 ∧ Authentic c := by
  have heval : ((some cluster).bind fun c => (clusters.guard writesToDaemon).run c
      (dials nodeA "10.0.0.2:4369" ++ [.establish (nodeA, 0) nodeB nonce,
        .own nodeA (.task 0 (.wrote true)), .receive (nodeB, 0), .own nodeB (.task 0 locked),
        .attackerDial nodeB, .attackerSend (nodeB, 1) .heartbeat, .receive (nodeB, 1)])).any
        (fun c => (c.state nodeB).owner "a" == some 0) = true := by
    decide +kernel
  obtain ⟨c, hr, hp⟩ := System.Reach.of_eval (C := HandshakeWithheld) heval
    (fun c x hx p s m he _ _ hl => by simp [writesToDaemon, he, hl] at hx) cluster_init
  exact ⟨c, hr, beq_iff_eq.mp hp, (authentic_iff_handshakeWithheld setup).1 c hr⟩

end

end Cluster
end Pmd
