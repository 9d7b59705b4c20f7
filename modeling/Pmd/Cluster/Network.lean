import Pmd.Daemon.Handles

/-!
# Daemons on a network

A cluster has one daemon per node id, all sharing a cookie. A connection links
two session tasks, or a session task and the attacker, and carries frames in
order; `inbox p` holds those on their way to the session at port `p`. Certificates
are not verified, so the attacker may answer any dial. It reads what is written to
it and may send any message, except that a valid cookie proof must be one it has
seen.
-/
namespace Pmd
open Foundation

variable {P : Platform}

/-- Node ids are UUIDs: one per daemon, and without a slash. -/
structure NodeId where
  text : String
  plain : PlainName text
  deriving DecidableEq

theorem NodeId.text_injective : Function.Injective NodeId.text := by
  rintro ⟨s, hs⟩ ⟨t, ht⟩ h
  cases h
  rfl

abbrev Port := NodeId × TaskId

inductive Endpoint where
  | daemon (p : Port)
  | attacker
  deriving DecidableEq

structure Setup where
  cfg : NodeId → Config
  cookie : Bytes

structure Cluster (P : Platform) where
  daemon : NodeId → Daemon P
  link : Port → Option Endpoint
  inbox : Port → List (Message P)
  /-- The proofs the attacker has read. -/
  seen : List (Nonce × Bytes)

inductive Action (P : Platform) where
  /-- A step that needs nothing from the network. -/
  | own (n : NodeId) (a : Act P)
  | receive (p : Port)
  /-- The session at `p` reads the end of its stream. -/
  | closed (p : Port)
  /-- The dial of the task at `p` reaches the listener of node `n`. -/
  | establish (p : Port) (n : NodeId) (nonce : Nonce)
  | attackerDial (n : NodeId)
  | attackerAccept (p : Port) (nonce : Nonce)
  | attackerSend (p : Port) (m : Message P)

/-- Accepting, connecting, reading a frame and reading the end of the stream
depend on the other end. A read or write may fail on its own. -/
def Act.isOwn : Act P → Bool
  | .accept => false
  | .task _ (.connected _) => false
  | .task _ (.read (.message _)) => false
  | .task _ (.read .eof) => false
  | _ => true

namespace Cluster

abbrev state (c : Cluster P) (n : NodeId) : DaemonState P := (c.daemon n).state

abbrev session (c : Cluster P) (p : Port) : Option (Session P) := (c.daemon p.1).tasks[p.2]?

/-- The next task id of a daemon. -/
def nextPort (c : Cluster P) (n : NodeId) : Port := (n, (c.daemon n).tasks.length)

def setDaemon (c : Cluster P) (n : NodeId) (d : Daemon P) : Cluster P :=
  { c with daemon := Function.update c.daemon n d }

def setInbox (c : Cluster P) (p : Port) (l : List (Message P)) : Cluster P :=
  { c with inbox := Function.update c.inbox p l }

def setLink (c : Cluster P) (p : Port) (x : Endpoint) : Cluster P :=
  { c with link := Function.update c.link p (some x) }

/-- Joins two ports by a connection. -/
def connect (c : Cluster P) (p q : Port) : Cluster P :=
  (c.setLink p (.daemon q)).setLink q (.daemon p)

/-- Puts a written frame on its connection. -/
def post (c : Cluster P) (n : NodeId) : Option (TaskId × Message P) → Cluster P
  | none => c
  | some (t, m) =>
    match c.link (n, t) with
    | some (.daemon q) => c.setInbox q (c.inbox q ++ [m])
    | some .attacker => { c with seen := c.seen ++ m.proof.toList }
    | none => c

/-- One step of one daemon. -/
def act (W : Setup) (c : Cluster P) (n : NodeId) (a : Act P) : Option (Cluster P) := do
  let r ← (c.daemon n).step (W.cfg n) W.cookie a
  return (c.setDaemon n r.1).post n r.2

/-- The other end has closed the connection; the attacker may do so at any time. -/
def remoteGone (c : Cluster P) (p : Port) : Bool :=
  match c.link p with
  | some (.daemon q) => (c.session q).any fun s => s.phase.isEnded
  | some .attacker => true
  | none => false

/-- The attacker cannot make a valid proof, only repeat one. -/
def Sendable (W : Setup) (c : Cluster P) (m : Message P) : Prop :=
  ∀ pair ∈ m.proof, pair.2 = P.hmac W.cookie pair.1 → pair ∈ c.seen

instance (W : Setup) (c : Cluster P) (m : Message P) : Decidable (c.Sendable W m) :=
  inferInstanceAs (Decidable (∀ pair ∈ m.proof, _ → _))

def step (W : Setup) (c : Cluster P) : Action P → Option (Cluster P)
  | .own n a => if a.isOwn then c.act W n a else none
  | .receive p =>
    match c.inbox p with
    | [] => none
    | m :: rest => (c.setInbox p rest).act W p.1 (.task p.2 (.read (.message m)))
  | .closed p =>
    if (c.inbox p).isEmpty ∧ c.remoteGone p then c.act W p.1 (.task p.2 (.read .eof)) else none
  | .establish p n nonce =>
    ((c.connect p (c.nextPort n)).act W p.1 (.task p.2 (.connected nonce))).bind fun c₁ =>
      c₁.act W n .accept
  | .attackerDial n => (c.setLink (c.nextPort n) .attacker).act W n .accept
  | .attackerAccept p nonce => (c.setLink p .attacker).act W p.1 (.task p.2 (.connected nonce))
  | .attackerSend p m =>
    if c.link p = some .attacker ∧ c.Sendable W m then some (c.setInbox p (c.inbox p ++ [m]))
    else none

/-- The phase of the session that gets the lock in a step. -/
def lockedPhase (c : Cluster P) : Action P → Option (NodeId × Phase P)
  | .own n (.task t (.lock _ _ _)) => (c.session (n, t)).map fun s => (n, s.phase)
  | _ => none

/-- The peer for which a step runs the cleanup, and the daemon that does. -/
def cleansUp (c : Cluster P) (x : Action P) : Option (NodeId × PeerId P) :=
  match c.lockedPhase x with
  | some (n, .live peer .cleanup) => some (n, peer)
  | _ => none

/-- The daemon one of whose sessions builds a `MembershipSync` in a step. A session that
has taken a gossip token does so only if the handle of its peer is still there. -/
def buildsSync (c : Cluster P) (x : Action P) : Option NodeId :=
  match c.lockedPhase x with
  | some (n, .live _ .buildDelta) => some n
  | some (n, .live peer .gossip) => if peer.nodeId ∈ (c.state n).peers then some n else none
  | _ => none

def system (P : Platform) (W : Setup) : System (Cluster P) (Action P) where
  init c := (∀ n, ∃ metadata addr now,
      Daemon.start (W.cfg n) n.text metadata addr now = some (c.daemon n)) ∧
    (∀ p, c.link p = none) ∧ (∀ p, c.inbox p = []) ∧ c.seen = []
  step c a := c.step W a

end Cluster

/-- Runs without the attacker. -/
def Action.isHonest : Action P → Bool
  | .attackerDial _ | .attackerAccept _ _ | .attackerSend _ _ => false
  | _ => true

def Honest (_ : Cluster P) (a : Action P) : Prop := a.isHonest = true

namespace Cluster
variable {W : Setup} {c c' : Cluster P} {n : NodeId} {a : Act P}

theorem act_eq_some (h : c.act W n a = some c') :
    ∃ d sent, (c.daemon n).step (W.cfg n) W.cookie a = some (d, sent) ∧
      c' = (c.setDaemon n d).post n sent := by
  obtain ⟨⟨d, sent⟩, hd, h⟩ := Option.bind_eq_some_iff.mp h
  cases h
  exact ⟨d, sent, hd, rfl⟩

theorem cleansUp_eq_some {x : Action P} {peer : PeerId P} (h : c.cleansUp x = some (n, peer)) :
    ∃ t nonce epoch now s, x = .own n (.task t (.lock nonce epoch now)) ∧
      c.session (n, t) = some s ∧ s.phase = .live peer .cleanup := by
  rw [cleansUp] at h
  split at h
  · rename_i m peer' hlocked
    cases h
    rw [lockedPhase.eq_def] at hlocked
    split at hlocked
    · obtain ⟨s, hs, heq⟩ := Option.map_eq_some_iff.mp hlocked
      rw [Prod.mk.injEq] at heq
      obtain ⟨rfl, hp⟩ := heq
      exact ⟨_, _, _, _, s, rfl, hs, hp⟩
    · cases hlocked
  · cases h

section Fields
variable (c : Cluster P) (n : NodeId) (p : Port)

@[simp] theorem post_daemon (sent : Option (TaskId × Message P)) :
    (c.post n sent).daemon = c.daemon := by
  rcases sent with _ | ⟨t, m⟩
  · rfl
  · rw [post]
    split <;> rfl

@[simp] theorem post_link (sent : Option (TaskId × Message P)) :
    (c.post n sent).link = c.link := by
  rcases sent with _ | ⟨t, m⟩
  · rfl
  · rw [post]
    split <;> rfl

@[simp] theorem setDaemon_link (d : Daemon P) : (c.setDaemon n d).link = c.link := rfl

@[simp] theorem setDaemon_inbox (d : Daemon P) : (c.setDaemon n d).inbox = c.inbox := rfl

@[simp] theorem setDaemon_seen (d : Daemon P) : (c.setDaemon n d).seen = c.seen := rfl

@[simp] theorem setDaemon_self (d : Daemon P) : (c.setDaemon n d).daemon n = d :=
  Function.update_self _ _ _

theorem setDaemon_ne {m : NodeId} (d : Daemon P) (h : m ≠ n) :
    (c.setDaemon n d).daemon m = c.daemon m :=
  Function.update_of_ne h _ _

@[simp] theorem setInbox_self (l : List (Message P)) : (c.setInbox p l).inbox p = l :=
  Function.update_self _ _ _

theorem setInbox_ne {q : Port} (l : List (Message P)) (h : q ≠ p) :
    (c.setInbox p l).inbox q = c.inbox q :=
  Function.update_of_ne h _ _

@[simp] theorem setLink_self (x : Endpoint) : (c.setLink p x).link p = some x :=
  Function.update_self _ _ _

theorem setLink_ne {q : Port} (x : Endpoint) (h : q ≠ p) : (c.setLink p x).link q = c.link q :=
  Function.update_of_ne h _ _

end Fields

/-- A session reads the first frame of its inbox. -/
theorem step_receive {p : Port} (h : c.step W (.receive p) = some c') :
    ∃ m rest, c.inbox p = m :: rest ∧
      (c.setInbox p rest).act W p.1 (.task p.2 (.read (.message m))) = some c' := by
  rw [Cluster.step] at h
  split at h
  · cases h
  · rename_i m rest hin
    exact ⟨m, rest, hin, h⟩

/-- Taking the first message out of an inbox adds none. -/
theorem mem_inbox_of_tail {p r : Port} {m m' : Message P} {rest : List (Message P)}
    (hin : c.inbox p = m :: rest) (h : m' ∈ (c.setInbox p rest).inbox r) : m' ∈ c.inbox r := by
  by_cases hr : r = p
  · subst hr
    rw [setInbox_self] at h
    rw [hin]
    exact List.mem_cons_of_mem _ h
  · rwa [setInbox_ne _ _ _ hr] at h

theorem mem_inbox_concat {p r : Port} {m m' : Message P}
    (h : m' ∈ (c.setInbox p (c.inbox p ++ [m])).inbox r) :
    m' ∈ c.inbox r ∨ r = p ∧ m' = m := by
  by_cases hr : r = p
  · subst hr
    rw [setInbox_self, List.mem_append, List.mem_singleton] at h
    exact h.imp_right fun h => ⟨rfl, h⟩
  · rw [setInbox_ne _ _ _ hr] at h
    exact .inl h

/-- What is in an inbox after a frame was posted: the old messages, and the new
one if the writer is linked to this port. -/
theorem mem_inbox_post {sent : Option (TaskId × Message P)} {p : Port} {m : Message P}
    (h : m ∈ (c.post n sent).inbox p) :
    m ∈ c.inbox p ∨ ∃ t, sent = some (t, m) ∧ c.link (n, t) = some (.daemon p) := by
  rcases sent with _ | ⟨t, m'⟩
  · exact .inl h
  · rw [post] at h
    split at h
    · rename_i q hq
      rcases mem_inbox_concat h with h | ⟨rfl, rfl⟩
      · exact .inl h
      · exact .inr ⟨t, rfl, hq⟩
    · exact .inl h
    · exact .inl h

theorem mem_seen_post {sent : Option (TaskId × Message P)} {pair : Nonce × Bytes}
    (h : pair ∈ (c.post n sent).seen) :
    pair ∈ c.seen ∨ ∃ t m, sent = some (t, m) ∧ c.link (n, t) = some .attacker ∧
      m.proof = some pair := by
  rcases sent with _ | ⟨t, m⟩
  · exact .inl h
  · rw [post] at h
    split at h
    · exact .inl h
    · rename_i hl
      rcases List.mem_append.mp h with h | h
      · exact .inl h
      · exact .inr ⟨t, m, rfl, hl, Option.mem_toList.mp h⟩
    · exact .inl h

/-- A session after a daemon step: the one that moved, or one that was there
before, or a new one. -/
theorem session_act {c' : Cluster P} {p : Port} {s : Session P} (h : c.act W n a = some c')
    (hs : c'.session p = some s) :
    (∃ e s₀ o, p.1 = n ∧ a = .task p.2 e ∧ c.session p = some s₀ ∧
      SessionMove (W.cfg n) W.cookie p.2 (c.state n) s₀ e o ∧ s = o.session) ∨
    c.session p = some s ∨
    (c.session p = none ∧
      ((∃ addr, s = .dialing addr) ∨ (p.1 = n ∧ a = .accept ∧ s = .accepted))) := by
  obtain ⟨d, sent, hd, rfl⟩ := act_eq_some h
  simp only [session, post_daemon] at hs
  by_cases hn : p.1 = n
  · subst hn
    rw [setDaemon_self] at hs
    rcases Daemon.session_step hd hs with ⟨e, s₀, o, rfl, hs₀, hm, rfl⟩ | hold | ⟨hnone, hnew⟩
    · exact .inl ⟨e, s₀, o, rfl, rfl, hs₀, hm, rfl⟩
    · exact .inr (.inl hold)
    · exact .inr (.inr ⟨hnone, hnew.imp_right fun h => ⟨rfl, h⟩⟩)
  · rw [setDaemon_ne _ _ _ hn] at hs
    exact .inr (.inl hs)

theorem session_of_act {p : Port} {s : Session P} (h : c.act W n a = some c')
    (hs : c.session p = some s) :
    (∃ e o, p.1 = n ∧ a = .task p.2 e ∧
      SessionMove (W.cfg n) W.cookie p.2 (c.state n) s e o ∧ c'.session p = some o.session) ∨
    c'.session p = some s := by
  obtain ⟨d, sent, hd, rfl⟩ := act_eq_some h
  simp only [session, post_daemon]
  by_cases hn : p.1 = n
  · subst hn
    rw [setDaemon_self]
    by_cases ha : ∃ e, a = .task p.2 e
    · obtain ⟨e, rfl⟩ := ha
      obtain ⟨s', o, hs', hm, -, rfl, -⟩ := Daemon.taskStep_eq_some hd
      have heq : s = s' := Option.some.inj (hs.symm.trans hs')
      subst heq
      exact .inl ⟨e, o, rfl, rfl, hm,
        List.getElem?_set_self (List.getElem?_eq_some_iff.mp hs').1⟩
    · exact .inr (Daemon.tasks_of_step (fun e he => ha ⟨e, he⟩) hs hd)
  · rw [setDaemon_ne _ _ _ hn]
    exact .inr hs

theorem act_link (h : c.act W n a = some c') : c'.link = c.link := by
  obtain ⟨d, sent, -, rfl⟩ := act_eq_some h
  rw [post_link, setDaemon_link]

theorem nextPort_task {t : TaskId} {e : TaskEvent P} (h : c.act W n (.task t e) = some c')
    (m : NodeId) : c'.nextPort m = c.nextPort m := by
  obtain ⟨d, sent, hd, rfl⟩ := act_eq_some h
  obtain ⟨s, o, -, -, -, rfl, -⟩ := Daemon.taskStep_eq_some hd
  simp only [nextPort, post_daemon]
  by_cases hm : m = n
  · subst hm
    simp
  · rw [setDaemon_ne _ _ _ hm]

theorem act_accept (h : c.act W n .accept = some c') :
    c' = c.setDaemon n { c.daemon n with tasks := (c.daemon n).tasks ++ [.accepted] } := by
  obtain ⟨d, sent, hd, rfl⟩ := act_eq_some h
  cases hd
  rfl

theorem session_accept (h : c.act W n .accept = some c') :
    c'.session (c.nextPort n) = some .accepted := by
  rw [act_accept h, session, nextPort, setDaemon_self]
  exact List.getElem?_concat_length

theorem session_nextPort (c : Cluster P) (n : NodeId) : c.session (c.nextPort n) = none :=
  List.getElem?_eq_none (Nat.le_refl _)

/-- No session goes back to connecting. -/
theorem sessionMove_connected {cfg : Config} {cookie : Bytes} {t : TaskId} {st : DaemonState P}
    {s : Session P} {e : TaskEvent P} {o : Outcome P} (h : SessionMove cfg cookie t st s e o) :
    o.session.phase ≠ .opening .connect := by
  cases h <;> simp

/-- Connections join two sessions that have connected, and frames travel on
connections only. -/
structure Links (c : Cluster P) : Prop where
  taken : ∀ p x, c.link p = some x → ∃ s, c.session p = some s ∧ s.phase ≠ .opening .connect
  symm : ∀ p q, c.link p = some (.daemon q) → c.link q = some (.daemon p)
  fed : ∀ p m, m ∈ c.inbox p → ∃ x, c.link p = some x

namespace Links

theorem link_nextPort (h : Links c) (n : NodeId) : c.link (c.nextPort n) = none := by
  cases hl : c.link (c.nextPort n) with
  | none => rfl
  | some x =>
    obtain ⟨s, hs, -⟩ := h.taken _ x hl
    rw [session_nextPort] at hs
    cases hs

theorem link_connecting (h : Links c) {p : Port} {s : Session P} (hs : c.session p = some s)
    (hp : s.phase = .opening .connect) : c.link p = none := by
  cases hl : c.link p with
  | none => rfl
  | some x =>
    obtain ⟨s', hs', hne⟩ := h.taken p x hl
    rw [hs, Option.some.injEq] at hs'
    exact absurd (hs' ▸ hp) hne

/-- A session that has connected stays one. -/
theorem taken_act {p : Port} (h : c.act W n a = some c')
    (hs : ∃ s, c.session p = some s ∧ s.phase ≠ .opening .connect) :
    ∃ s, c'.session p = some s ∧ s.phase ≠ .opening .connect := by
  obtain ⟨s, hs, hne⟩ := hs
  rcases session_of_act h hs with ⟨e, o, -, -, hm, hs'⟩ | hs'
  · exact ⟨_, hs', sessionMove_connected hm⟩
  · exact ⟨s, hs', hne⟩

theorem taken_connected {p : Port} {nonce : Nonce}
    (h : c.act W p.1 (.task p.2 (.connected nonce)) = some c') :
    (∃ s, c.session p = some s ∧ s.phase = .opening .connect) ∧
      ∃ s, c'.session p = some s ∧ s.phase ≠ .opening .connect := by
  obtain ⟨d, sent, hd, rfl⟩ := act_eq_some h
  obtain ⟨s, o, hs, hm, ho, rfl, -⟩ := Daemon.taskStep_eq_some hd
  refine ⟨⟨s, hs, ?_⟩, o.session, ?_, sessionMove_connected hm⟩
  · cases hp : s.phase with
    | opening op => cases op <;> simp [sessionStep, hp, openingStep] at ho ⊢
    | live peer stage => cases stage <;> simp [sessionStep, hp, stageStep] at ho
    | ended left => simp [sessionStep, hp] at ho
  · simp only [session, post_daemon, setDaemon_self]
    exact List.getElem?_set_self (List.getElem?_eq_some_iff.mp hs).1

/-- A daemon step feeds only inboxes that are linked. -/
theorem fed_act (hsymm : ∀ p q, c.link p = some (.daemon q) → c.link q = some (.daemon p))
    (hfed : ∀ p m, m ∈ c.inbox p → ∃ x, c.link p = some x) (h : c.act W n a = some c')
    (p : Port) (m : Message P) (hm : m ∈ c'.inbox p) : ∃ x, c'.link p = some x := by
  rw [act_link h]
  obtain ⟨d, sent, -, rfl⟩ := act_eq_some h
  rcases mem_inbox_post hm with hold | ⟨t, -, hl⟩
  · exact hfed p m hold
  · exact ⟨_, hsymm _ _ hl⟩

theorem act (hi : Links c) (h : c.act W n a = some c') : Links c' := by
  refine ⟨fun p x hx => ?_, fun p q hq => ?_, fed_act hi.symm hi.fed h⟩
  · rw [act_link h] at hx
    exact taken_act h (hi.taken p x hx)
  · rw [act_link h] at hq ⊢
    exact hi.symm p q hq

/-- A port that is linked is not one of two unlinked ports. -/
theorem link_setLink_of_some {p r : Port} {x y : Endpoint} (hp : c.link p = none)
    (hr : c.link r = some x) : (c.setLink p y).link r = some x := by
  rw [setLink_ne _ _ _ (fun h => by rw [h, hp] at hr; cases hr), hr]

theorem link_connect {p q : Port} (hpq : p ≠ q) (r : Port) :
    (c.connect p q).link r = if r = p then some (.daemon q) else if r = q then some (.daemon p)
      else c.link r := by
  by_cases hq : r = q
  · subst hq
    rw [connect, setLink_self, if_neg (Ne.symm hpq), if_pos rfl]
  · rw [connect, setLink_ne _ _ _ hq, if_neg hq]
    by_cases hp : r = p
    · rw [hp, setLink_self, if_pos rfl]
    · rw [setLink_ne _ _ _ hp, if_neg hp]

theorem symm_connect {p q : Port} (hpq : p ≠ q) (hp : c.link p = none) (hq : c.link q = none)
    (hi : ∀ r u, c.link r = some (.daemon u) → c.link u = some (.daemon r)) (r u : Port)
    (hu : (c.connect p q).link r = some (.daemon u)) :
    (c.connect p q).link u = some (.daemon r) := by
  rw [link_connect hpq] at hu ⊢
  split at hu
  · rename_i hr
    cases hu
    rw [if_neg (Ne.symm hpq), if_pos rfl, hr]
  · split at hu
    · rename_i hr
      cases hu
      rw [if_pos rfl, hr]
    · have hback := hi r u hu
      rw [if_neg (fun he => by rw [he, hp] at hback; cases hback),
        if_neg (fun he => by rw [he, hq] at hback; cases hback), hback]

theorem fed_setLink {p : Port} {x : Endpoint} (hp : c.link p = none)
    (hfed : ∀ p m, m ∈ c.inbox p → ∃ x, c.link p = some x) (r : Port) (m : Message P)
    (hm : m ∈ (c.setLink p x).inbox r) : ∃ y, (c.setLink p x).link r = some y := by
  obtain ⟨y, hy⟩ := hfed r m hm
  exact ⟨y, link_setLink_of_some hp hy⟩

/-- The two ports of a new connection: both were free. -/
theorem establish_ports (hi : Links c) {p : Port} {nonce : Nonce} {c₁ : Cluster P}
    (h : (c.connect p (c.nextPort n)).act W p.1 (.task p.2 (.connected nonce)) = some c₁) :
    p ≠ c.nextPort n ∧ c.link p = none ∧ c.link (c.nextPort n) = none := by
  obtain ⟨⟨s, hs, hp⟩, -⟩ := taken_connected h
  have hs : c.session p = some s := hs
  refine ⟨fun heq => ?_, hi.link_connecting hs hp, hi.link_nextPort n⟩
  have hnone := session_nextPort c n
  rw [← heq, hs] at hnone
  cases hnone

theorem establish (hi : Links c) {p : Port} {nonce : Nonce}
    (h : c.step W (.establish p n nonce) = some c') : Links c' := by
  obtain ⟨c₁, h₁, h₂⟩ := Option.bind_eq_some_iff.mp h
  obtain ⟨hpq, hlp, hlq⟩ := hi.establish_ports h₁
  have hlink : c'.link = (c.connect p (c.nextPort n)).link := by rw [act_link h₂, act_link h₁]
  have hsymm := symm_connect hpq hlp hlq hi.symm
  have hfed := fed_setLink (x := .daemon p) (by rw [setLink_ne _ _ _ (Ne.symm hpq), hlq])
    (fed_setLink (x := .daemon (c.nextPort n)) hlp hi.fed)
  refine ⟨fun r x hx => ?_, ?_, fed_act (by rw [act_link h₁]; exact hsymm)
    (fed_act hsymm hfed h₁) h₂⟩
  · by_cases hrp : r = p
    · subst hrp
      exact taken_act h₂ (taken_connected h₁).2
    · by_cases hrq : r = c.nextPort n
      · have hnext : c₁.nextPort n = c.nextPort n := nextPort_task h₁ n
        rw [hrq, ← hnext]
        exact ⟨_, session_accept h₂, by simp [Session.accepted]⟩
      · rw [hlink, link_connect hpq, if_neg hrp, if_neg hrq] at hx
        exact taken_act h₂ (taken_act h₁ (hi.taken r x hx))
  · rw [hlink]
    exact hsymm

theorem symm_attack {p : Port} (hp : c.link p = none)
    (hi : ∀ r u, c.link r = some (.daemon u) → c.link u = some (.daemon r)) (r u : Port)
    (hu : (c.setLink p .attacker).link r = some (.daemon u)) :
    (c.setLink p .attacker).link u = some (.daemon r) := by
  by_cases hrp : r = p
  · rw [hrp, setLink_self] at hu
    cases hu
  · rw [setLink_ne _ _ _ hrp] at hu
    exact link_setLink_of_some hp (hi r u hu)

/-- The attacker takes the other end of a port that becomes connected. -/
theorem attack (hi : Links c) {p : Port} (hp : c.link p = none)
    (h : (c.setLink p .attacker).act W n a = some c')
    (hafter : ∃ s, c'.session p = some s ∧ s.phase ≠ .opening .connect) : Links c' := by
  have hlink := act_link h
  have hsymm := symm_attack hp hi.symm
  refine ⟨fun r x hx => ?_, ?_, fed_act hsymm (fed_setLink hp hi.fed) h⟩
  · by_cases hrp : r = p
    · rw [hrp]
      exact hafter
    · rw [hlink, setLink_ne _ _ _ hrp] at hx
      exact taken_act h (hi.taken r x hx)
  · rw [hlink]
    exact hsymm

theorem step (hi : Links c) {x : Action P} (h : c.step W x = some c') : Links c' := by
  cases x with
  | own n a =>
    obtain ⟨-, h⟩ := Option.ite_none_right_eq_some.mp h
    exact hi.act h
  | receive p =>
    obtain ⟨m, rest, hin, h⟩ := step_receive h
    have hi' : Links (c.setInbox p rest) :=
      ⟨hi.taken, hi.symm, fun r m' hm' => hi.fed r m' (mem_inbox_of_tail hin hm')⟩
    exact hi'.act h
  | closed p =>
    obtain ⟨-, h⟩ := Option.ite_none_right_eq_some.mp h
    exact hi.act h
  | establish p n nonce => exact hi.establish h
  | attackerDial n =>
    have hnew := session_accept (c := c.setLink (c.nextPort n) .attacker) h
    exact hi.attack (hi.link_nextPort n) h ⟨_, hnew, by simp [Session.accepted]⟩
  | attackerAccept p nonce =>
    obtain ⟨⟨s, hs, hp⟩, hafter⟩ := taken_connected h
    exact hi.attack (hi.link_connecting hs hp) h hafter
  | attackerSend p m =>
    obtain ⟨⟨hp, -⟩, h⟩ := Option.ite_none_right_eq_some.mp h
    cases h
    refine ⟨hi.taken, hi.symm, fun r m' hm' => ?_⟩
    rcases mem_inbox_concat hm' with hm' | ⟨rfl, rfl⟩
    · exact hi.fed r m' hm'
    · exact ⟨_, hp⟩

theorem init (h : (system P W).init c) : Links c where
  taken p x hx := by simp [h.2.1 p] at hx
  symm p q hq := by simp [h.2.1 p] at hq
  fed p m hm := by simp [h.2.2.1 p] at hm

theorem reach {C : Cluster P → Action P → Prop} (h : (system P W).Reach C c) : Links c :=
  h.invariant (fun _ => init) fun _ _ _ hi _ hs => hi.step hs

theorem inbox_nextPort (hi : Links c) (n : NodeId) : c.inbox (c.nextPort n) = [] := by
  rw [List.eq_nil_iff_forall_not_mem]
  intro m hm
  obtain ⟨x, hx⟩ := hi.fed _ m hm
  rw [hi.link_nextPort] at hx
  cases hx

end Links

/-- A step of the session at `(n, t)` as a step of the cluster. -/
theorem act_of_sessionStep {t : TaskId} {s : Session P} {e : TaskEvent P} {o : Outcome P}
    (hs : c.session (n, t) = some s)
    (ho : sessionStep (W.cfg n) W.cookie t (c.state n) s e = some o) :
    c.act W n (.task t e) = some ((c.setDaemon n
      ⟨o.state, (c.daemon n).tasks.set t o.session, (c.daemon n).main⟩).post n
        (o.sent.map fun m => (t, m))) := by
  rw [Cluster.act, Daemon.step_of_sessionStep hs ho]
  rfl

/-- A property of single daemons that every daemon step keeps holds throughout. -/
theorem daemon_reach {I : NodeId → Daemon P → Prop} {C : Cluster P → Action P → Prop}
    (hinit : ∀ n d metadata addr now,
      Daemon.start (W.cfg n) n.text metadata addr now = some d → I n d)
    (hstep : ∀ n d a d' sent, I n d → d.step (W.cfg n) W.cookie a = some (d', sent) → I n d')
    (h : (system P W).Reach C c) (n : NodeId) : I n (c.daemon n) := by
  have hact : ∀ {c c' : Cluster P} {m : NodeId} {a : Act P}, (∀ n, I n (c.daemon n)) →
      c.act W m a = some c' → ∀ n, I n (c'.daemon n) := by
    intro c c' m a hi h n
    obtain ⟨d, sent, hd, rfl⟩ := act_eq_some h
    rw [post_daemon]
    by_cases hn : n = m
    · subst hn
      rw [setDaemon_self]
      exact hstep n _ _ _ _ (hi n) hd
    · rw [setDaemon_ne _ _ _ hn]
      exact hi n
  refine h.invariant (I := fun c => ∀ n, I n (c.daemon n)) (fun c hc n => ?_)
    (fun c x c' hi _ h => ?_) n
  · obtain ⟨metadata, addr, now, hd⟩ := hc.1 n
    exact hinit n _ _ _ _ hd
  · cases x with
    | own n a =>
      obtain ⟨-, h⟩ := Option.ite_none_right_eq_some.mp h
      exact hact hi h
    | receive p =>
      obtain ⟨m, rest, -, h⟩ := step_receive h
      exact hact (c := c.setInbox p _) hi h
    | closed p =>
      obtain ⟨-, h⟩ := Option.ite_none_right_eq_some.mp h
      exact hact hi h
    | establish p n nonce =>
      obtain ⟨c₁, h₁, h₂⟩ := Option.bind_eq_some_iff.mp h
      exact hact (hact (c := c.connect p _) hi h₁) h₂
    | attackerDial n => exact hact (c := c.setLink _ _) hi h
    | attackerAccept p nonce => exact hact (c := c.setLink _ _) hi h
    | attackerSend p m =>
      obtain ⟨-, h⟩ := Option.ite_none_right_eq_some.mp h
      cases h
      exact hi

theorem handlesOwned {C : Cluster P → Action P → Prop} (h : (system P W).Reach C c) (n : NodeId) :
    Daemon.HandlesOwned (c.daemon n) := by
  refine daemon_reach (I := fun _ d => Daemon.HandlesOwned d) ?_ ?_ h n
  · intro n d metadata addr now hd k t hk
    rw [Daemon.start_owner hd] at hk
    cases hk
  · intro n d a d' sent hi hs
    exact Daemon.handlesOwned_step hi (Daemon.step_handles hs)

end Cluster

namespace Reference

def nodeA : NodeId := ⟨"a", by decide⟩

def nodeB : NodeId := ⟨"b", by decide⟩

def nodeC : NodeId := ⟨"c", by decide⟩

/-- Node `a` is at host 1, node `b` at host 2 and all others at host 3. -/
def host (n : NodeId) : ℕ := if n = nodeA then 1 else if n = nodeB then 2 else 3

def configAt (h : ℕ) : Config := { config with bind := "10.0.0." ++ toString h }

def setup : Setup where
  cfg n := configAt (host n)
  cookie := cookie

theorem setup_interval (n : NodeId) : 0 < (setup.cfg n).heartbeatIntervalSecs := Nat.succ_pos 9

theorem listenAddr_configAt (K : Concordat) (h : ℕ) (hh : h ∈ [1, 2, 3]) :
    (configAt h).listenAddr (platformOn K) = some (addr h) := by
  have hall : ∀ h ∈ [1, 2, 3], SocketAddrV4.parse ((configAt h).bind ++ ":" ++
      toString (configAt h).port.toNat) = some (addr h) := by
    decide +kernel
  rw [Config.listenAddr, platformOn_parseAddr]
  exact hall h hh

theorem host_mem (n : NodeId) : host n ∈ [1, 2, 3] := by
  rw [host]
  split
  · decide
  · split <;> decide

section Start
variable (K : Concordat)

def startOn (n : NodeId) : Option (Daemon (platformOn K)) :=
  Daemon.start (setup.cfg n) n.text ∅ (addr (host n)) 0

theorem startOn_isSome (n : NodeId) : (startOn K n).isSome = true := by
  have hl : (setup.cfg n).listenAddr (platformOn K) = some (addr (host n)) :=
    listenAddr_configAt K (host n) (host_mem n)
  simp only [startOn, Daemon.start, hl]
  rfl

/-- All daemons have just started, on a document store. -/
def clusterOn : Cluster (platformOn K) where
  daemon n := (startOn K n).get (startOn_isSome K n)
  link _ := none
  inbox _ := []
  seen := []

theorem startOn_eq_daemon (n : NodeId) : startOn K n = some ((clusterOn K).daemon n) := by
  simp only [clusterOn, Option.some_get]

theorem clusterOn_init : (Cluster.system (platformOn K) setup).init (clusterOn K) :=
  ⟨fun n => ⟨_, _, _, startOn_eq_daemon K n⟩, fun _ => rfl, fun _ => rfl, rfl⟩

end Start

abbrev cluster : Cluster platform := clusterOn concordat

abbrev clusters : System (Cluster platform) (Action platform) := Cluster.system platform setup

theorem cluster_init (c : Cluster platform) (h : some cluster = some c) : clusters.init c := by
  cases h
  exact clusterOn_init concordat

section Runs
variable {P : Platform}

/-- Node `n` is told to join an address and spawns the task that dials it. -/
def dials (n : NodeId) (text : String) : List (Action P) :=
  [.own n (.request (.join text)), .own n .tick, .own n .drain, .own n .leave]

/-- The session at `p` writes what it has ready. -/
abbrev writes (p : Port) : Action P := .own p.1 (.task p.2 (.wrote true))

/-- The session at `p` gets the lock. -/
abbrev locks (p : Port) : Action P := .own p.1 (.task p.2 locked)

/-- The dial at `p` reaches the node of `q`, and both ends register. -/
def handshake (p q : Port) : List (Action P) :=
  [.establish p q.1 nonce, writes p, .receive q, locks q, writes q, .receive p, locks p]

/-- Both ends send their full delta, enter their loop and merge the other's. -/
def exchange (p q : Port) : List (Action P) :=
  [locks p, writes p, locks p, locks q, writes q, locks q, .receive p, locks p, .receive q, locks q]

end Runs

def hasMerged (p : Port) (c : Cluster platform) : Bool := (c.session p).any fun s => 0 < s.merged

end Reference
end Pmd
