import Pmd.Cluster.Conversation

/-!
# One connection in a cluster

For two linked sessions a step of the cluster is a step of one of them, which takes a
frame off its inbox or adds one to the other's, or it leaves both as they are. What
belongs to one connection is proved from this list.
-/
namespace Pmd
open Foundation

variable {P : Platform}

/-- The session in which an action takes a step. -/
def Action.sessionAt : Action P → Option Port
  | .own n (.task t _) => some (n, t)
  | .receive p | .closed p | .establish p _ _ | .attackerAccept p _ => some p
  | _ => none

theorem Action.sessionAt_of_eventAt {x : Action P} {p : Port} {e : TaskEvent P}
    (h : x.EventAt p e) : x.sessionAt = some p := by
  cases x with
  | own n a =>
    cases a with
    | task t e' =>
      obtain ⟨rfl, -⟩ := h
      rfl
    | _ => exact h.elim
  | receive r =>
    obtain ⟨rfl, -⟩ := h
    rfl
  | closed r =>
    obtain ⟨rfl, -⟩ := h
    rfl
  | establish r n nonce =>
    obtain ⟨rfl, -⟩ := h
    rfl
  | _ => exact h.elim

namespace Cluster
variable {W : Setup} {c c' c₁ : Cluster P} {p q r : Port} {s : Session P} {x : Action P}
  {e : TaskEvent P} {o : Outcome P}

/-- The session at `p` takes a step on its connection with the one at `q`. -/
structure PairMove (W : Setup) (c c' : Cluster P) (x : Action P) (p q : Port) (s : Session P)
    (e : TaskEvent P) (o : Outcome P) : Prop where
  event : x.EventAt p e
  step : sessionStep (W.cfg p.1) W.cookie p.2 (c.state p.1) s e = some o
  before : c.session p = some s
  after : c'.session p = some o.session
  other : c'.session q = c.session q
  taken : c.inbox p = e.frame.toList ++ c'.inbox p
  fed : c'.inbox q = c.inbox q ++ o.sent.toList

/-- Nothing changes at `p`. -/
structure Still (c c' : Cluster P) (x : Action P) (p : Port) : Prop where
  event : x.sessionAt ≠ some p
  session : c'.session p = c.session p
  inbox : c'.inbox p = c.inbox p

/-- A step of the task at `r`, whose frame `c₁` has taken off the inbox. -/
theorem pair_task (hl : Links c) (ht : Talks W c) (hpq : c.link p = some (.daemon q))
    (hsame : c₁.daemon = c.daemon) (hlink : c₁.link = c.link)
    (hin : c.inbox r = e.frame.toList ++ c₁.inbox r)
    (hothers : ∀ q, q ≠ r → c₁.inbox q = c.inbox q) (hx : x.EventAt r e)
    (h : c₁.act W r.1 (.task r.2 e) = some c') :
    (Still c c' x p ∧ Still c c' x q) ∨ (∃ s o, PairMove W c c' x p q s e o) ∨
      ∃ s o, PairMove W c c' x q p s e o := by
  have hsession : ∀ q, c₁.session q = c.session q := fun q => by
    rw [Cluster.session, Cluster.session, hsame]
  have hmove : ∀ {p q : Port}, r = p → c.link p = some (.daemon q) →
      ∃ s o, PairMove W c c' x p q s e o := by
    rintro p q rfl hpq
    obtain ⟨s, o, hm, ho⟩ := taskMove_of_act h
    have hne := ht.link_ne hl hpq
    have hquiet : c₁.link r ≠ some (.daemon r) := by
      rw [hlink, hpq]
      simpa using hne.symm
    refine ⟨s, o, hx, by rwa [Cluster.state, hsame] at ho, by rw [← hsession, hm.before],
      hm.after, by rw [hm.others q hne.symm, hsession], ?_, ?_⟩
    · rw [hm.quiet r hquiet, hin]
    · rw [hm.fed q (by rw [hlink, hpq]), hothers q hne.symm]
  have hstill : ∀ {p q : Port}, r ≠ p → r ≠ q → c.link p = some (.daemon q) → Still c c' x p := by
    intro p q hp hq hpq
    obtain ⟨s, o, hm, -⟩ := taskMove_of_act h
    refine ⟨?_, by rw [hm.others p hp.symm, hsession], ?_⟩
    · rw [Action.sessionAt_of_eventAt hx]
      simpa using hp
    · rw [hm.quiet p, hothers p hp.symm]
      intro hr
      rw [hlink] at hr
      have hback := hl.symm _ _ hr
      rw [hpq] at hback
      cases hback
      exact hq rfl
  have hqp := hl.symm p q hpq
  by_cases hp : r = p
  · exact .inr (.inl (hmove hp hpq))
  · by_cases hq : r = q
    · exact .inr (.inr (hmove hq hqp))
    · exact .inl ⟨hstill hp hq hpq, hstill hq hp hqp⟩

/-- A step of no session that exists. -/
theorem idle_keeps {n : NodeId} {a : Act P} (ha : ∀ t e, a ≠ .task t e)
    (hp : c.session p = some s) (h : c.act W n a = some c') :
    c'.session p = some s ∧ c'.inbox = c.inbox := by
  constructor
  · rcases session_of_act h hp with ⟨e, o, -, rfl, -⟩ | hp'
    · exact absurd rfl (ha p.2 e)
    · exact hp'
  · obtain ⟨d, sent, hd, rfl⟩ := act_eq_some h
    rcases Daemon.step_cases hd with ⟨t, e, -, -, rfl, -⟩ | ⟨-, rfl⟩
    · exact absurd rfl (ha t e)
    · rfl

/-- A new connection leaves the sessions that are linked as they are. -/
theorem still_establish (hl : Links c) {n : NodeId} {nonce : Nonce} {y : Endpoint}
    (hp : c.link p = some y) (h : c.step W (.establish r n nonce) = some c') :
    Still c c' (.establish r n nonce) p := by
  obtain ⟨c₁, h₁, h₂⟩ := Option.bind_eq_some_iff.mp h
  obtain ⟨hne, hr, hn⟩ := hl.establish_ports h₁
  have hpr : p ≠ r := by
    rintro rfl
    rw [hr] at hp
    cases hp
  have hpn : p ≠ c.nextPort n := by
    rintro rfl
    rw [hn] at hp
    cases hp
  obtain ⟨s, o, hm, -⟩ := taskMove_of_act h₁
  obtain ⟨s₁, hs₁, -⟩ := hl.taken p y hp
  have hs : c₁.session p = some s₁ := (hm.others p hpr).trans hs₁
  obtain ⟨hs', hin⟩ := idle_keeps (by simp) hs h₂
  refine ⟨by simpa [Action.sessionAt] using hpr.symm, hs'.trans hs₁.symm, ?_⟩
  rw [hin, hm.quiet p]
  · rfl
  · rw [Links.link_connect hne, if_pos rfl]
    simpa using hpn.symm

/-- A step of the cluster is a step of one of two linked sessions, or of neither. -/
theorem pair_step (hl : Links c) (ht : Talks W c) (hpq : c.link p = some (.daemon q))
    (hx : Honest c x) (h : c.step W x = some c') :
    (Still c c' x p ∧ Still c c' x q) ∨ (∃ s e o, PairMove W c c' x p q s e o) ∨
      ∃ s e o, PairMove W c c' x q p s e o := by
  have hqp := hl.symm p q hpq
  cases x with
  | own n a =>
    obtain ⟨hown, h⟩ := Option.ite_none_right_eq_some.mp h
    by_cases ha : ∃ t e, a = .task t e
    · obtain ⟨t, e, rfl⟩ := ha
      have hframe : e.frame = none := by
        rw [TaskEvent.frame.eq_def]
        split
        · cases hown
        · rfl
      have hev : Action.EventAt (.own n (.task t e)) (n, t) e := ⟨rfl, rfl⟩
      rcases pair_task (r := (n, t)) hl ht hpq rfl rfl (by rw [hframe]; rfl) (fun _ _ => rfl)
        hev h with hs | ⟨s, o, hm⟩ | ⟨s, o, hm⟩
      · exact .inl hs
      · exact .inr (.inl ⟨s, e, o, hm⟩)
      · exact .inr (.inr ⟨s, e, o, hm⟩)
    · have hnot : ∀ t e, a ≠ .task t e := fun t e he => ha ⟨t, e, he⟩
      have hat : Action.sessionAt (.own n a) = none := by
        cases a with
        | task t e => exact absurd rfl (hnot t e)
        | _ => rfl
      have hstill : ∀ {r y}, c.link r = some y → Still c c' (.own n a) r := by
        intro r y hr
        obtain ⟨s, hs, -⟩ := hl.taken r y hr
        obtain ⟨hs', hin⟩ := idle_keeps hnot hs h
        exact ⟨by simp [hat], hs'.trans hs.symm, by rw [hin]⟩
      exact .inl ⟨hstill hpq, hstill hqp⟩
  | receive r =>
    obtain ⟨m, rest, hin, h⟩ := step_receive h
    have hev : Action.EventAt (P := P) (.receive r) r (.read (.message m)) := ⟨rfl, m, rfl⟩
    rcases pair_task (r := r) hl ht hpq (by rfl) (by rfl) (by rw [setInbox_self]; exact hin)
      (fun q hq => setInbox_ne _ _ _ hq) hev h with hs | ⟨s, o, hm⟩ | ⟨s, o, hm⟩
    · exact .inl hs
    · exact .inr (.inl ⟨s, _, o, hm⟩)
    · exact .inr (.inr ⟨s, _, o, hm⟩)
  | closed r =>
    obtain ⟨-, h⟩ := Option.ite_none_right_eq_some.mp h
    have hev : Action.EventAt (P := P) (.closed r) r (.read .eof) := ⟨rfl, rfl⟩
    rcases pair_task (r := r) hl ht hpq rfl rfl rfl (fun _ _ => rfl) hev h with
      hs | ⟨s, o, hm⟩ | ⟨s, o, hm⟩
    · exact .inl hs
    · exact .inr (.inl ⟨s, _, o, hm⟩)
    · exact .inr (.inr ⟨s, _, o, hm⟩)
  | establish r n nonce => exact .inl ⟨still_establish hl hpq h, still_establish hl hqp h⟩
  | _ => cases hx

/-- Connections last. -/
theorem link_step (hl : Links c) (hx : Honest c x) (h : c.step W x = some c') {y : Endpoint}
    (hp : c.link p = some y) : c'.link p = some y := by
  cases x with
  | own n a =>
    obtain ⟨-, h⟩ := Option.ite_none_right_eq_some.mp h
    rw [act_link h, hp]
  | receive r =>
    obtain ⟨m, rest, -, h⟩ := step_receive h
    rw [act_link h]
    exact hp
  | closed r =>
    obtain ⟨-, h⟩ := Option.ite_none_right_eq_some.mp h
    rw [act_link h, hp]
  | establish r n nonce =>
    obtain ⟨c₁, h₁, h₂⟩ := Option.bind_eq_some_iff.mp h
    obtain ⟨hne, hr, hn⟩ := hl.establish_ports h₁
    rw [act_link h₂, act_link h₁, Links.link_connect hne, if_neg, if_neg, hp]
    · rintro rfl
      rw [hn] at hp
      cases hp
    · rintro rfl
      rw [hr] at hp
      cases hp
  | _ => cases hx

/-- The ends of a connection are two sessions that have connected. -/
theorem linked_sessions (h : (system P W).Reach Honest c) (hpq : c.link p = some (.daemon q)) :
    ∃ s s', c.session p = some s ∧ c.session q = some s' ∧ p ≠ q ∧
      s.phase ≠ .opening .connect ∧ s'.phase ≠ .opening .connect := by
  have hl := Links.reach h
  obtain ⟨s, hs, hsc⟩ := hl.taken p _ hpq
  obtain ⟨s', hs', hsc'⟩ := hl.taken q _ (hl.symm p q hpq)
  exact ⟨s, s', hs, hs', (Talks.reach h).link_ne hl hpq, hsc, hsc'⟩

theorem linked_step (h : (system P W).Reach Honest c ∧ c.link p = some (.daemon q))
    (hx : Honest c x) (hs : (system P W).step c x = some c') :
    (system P W).Reach Honest c' ∧ c'.link p = some (.daemon q) :=
  ⟨h.1.leads (.single ⟨x, hx, hs⟩), link_step (.reach h.1) hx hs h.2⟩

end Cluster
end Pmd
