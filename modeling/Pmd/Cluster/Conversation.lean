import Pmd.Cluster.Attempts
import Pmd.Protocol.Frames
import Pmd.Daemon.Conversation

/-!
# Conversations of honest daemons

Both directions of every connection are orderly: a session never reads a frame it
does not expect. Whatever the interleaving and whatever fails, no honest daemon
sees a protocol error from another one, as long as no frame exceeds the reader's limit.
-/
namespace Pmd
open Foundation

variable {P : Platform}

/-- The event that an action is for the session at `p`. -/
def Action.EventAt (x : Action P) (p : Port) (e : TaskEvent P) : Prop :=
  match x with
  | .own n (.task t e') => p = (n, t) ∧ e = e'
  | .receive q => p = q ∧ ∃ m, e = .read (.message m)
  | .closed q => p = q ∧ e = .read .eof
  | .establish q _ nonce => p = q ∧ e = .connected nonce
  | _ => False

/-- The session stands before its first frame on the accepting side. -/
def Phase.awaitsHandshake : Phase P → Bool
  | .opening .readHandshake => true
  | _ => false

namespace Cluster
variable {W : Setup} {c c' c₁ : Cluster P} {n : NodeId} {r : Port} {s : Session P}
  {e : TaskEvent P} {o : Outcome P}

/-- Every session plays its role, and the frames between two linked sessions are in
order. -/
structure Talks (W : Setup) (c : Cluster P) : Prop where
  role : ∀ p s, c.session p = some s → s.InRole W.cookie
  pair : ∀ p q s s', c.link p = some (.daemon q) → c.session p = some s →
    c.session q = some s' → s.side.Opposite s'.side ∧
      Orderly (s'.side.Accepts W.cookie) Message.InLoop s.speaker s'.hearer (c.inbox q)

/-- The task at `r` has taken one step. -/
structure TaskMove (c c' : Cluster P) (r : Port) (s : Session P) (o : Outcome P) : Prop where
  before : c.session r = some s
  after : c'.session r = some o.session
  others : ∀ q, q ≠ r → c'.session q = c.session q
  link : c'.link = c.link
  fed : ∀ q, c.link r = some (.daemon q) → c'.inbox q = c.inbox q ++ o.sent.toList
  quiet : ∀ q, c.link r ≠ some (.daemon q) → c'.inbox q = c.inbox q

theorem taskMove_of_act (h : c.act W r.1 (.task r.2 e) = some c') :
    ∃ s o, TaskMove c c' r s o ∧
      sessionStep (W.cfg r.1) W.cookie r.2 (c.state r.1) s e = some o := by
  obtain ⟨d, sent, hstep, rfl⟩ := act_eq_some h
  obtain ⟨s, o, hs, -, ho, rfl, rfl⟩ := Daemon.taskStep_eq_some hstep
  refine ⟨s, o, ⟨hs, ?_, fun q hq => ?_, ?_, fun q hq => ?_, fun q hq => ?_⟩, ho⟩
  · simp only [Cluster.session, post_daemon, setDaemon_self]
    exact List.getElem?_set_self (List.getElem?_eq_some_iff.mp hs).1
  · simp only [Cluster.session, post_daemon]
    by_cases hn : q.1 = r.1
    · have ht : r.2 ≠ q.2 := fun ht => hq (Prod.ext hn ht.symm)
      rw [hn, setDaemon_self, List.getElem?_set_ne ht]
    · rw [setDaemon_ne _ _ _ hn]
  · rw [post_link, setDaemon_link]
  · rw [inbox_post_of_link _ (by rw [setDaemon_link]; exact hq), setDaemon_inbox]
  · rw [inbox_post_of_ne _ (by rw [setDaemon_link]; exact hq), setDaemon_inbox]

/-- A session that has returned takes no step. -/
theorem hearer_ne_gone {cfg : Config} {cookie : Bytes} {t : TaskId} {st : DaemonState P}
    (ho : sessionStep cfg cookie t st s e = some o) : s.hearer ≠ .gone := by
  intro hg
  cases hp : s.phase with
  | opening op => cases op <;> simp [Session.hearer, hp] at hg
  | live peer stage => simp [Session.hearer, hp] at hg
  | ended left => simp [sessionStep, hp] at ho

/-- Accepting a connection changes no other session. -/
theorem session_of_accept {q : Port} (h : c.act W n .accept = some c') (hq : q ≠ c.nextPort n) :
    c'.session q = c.session q := by
  rw [act_accept h, Cluster.session, Cluster.session]
  by_cases hn : q.1 = n
  · subst hn
    have ht : q.2 ≠ (c.daemon q.1).tasks.length := fun ht => hq (Prod.ext rfl ht)
    rw [setDaemon_self, List.getElem?_append]
    split
    · rfl
    · rename_i hlt
      have hge := Nat.le_of_not_lt hlt
      rw [List.getElem?_eq_none hge,
        List.getElem?_eq_none (Nat.sub_pos_of_lt (lt_of_le_of_ne hge ht.symm))]
  · rw [setDaemon_ne _ _ _ hn]

namespace Talks

/-- A port is not linked to itself. -/
theorem link_ne (hi : Talks W c) (hl : Links c) {p q : Port}
    (h : c.link p = some (.daemon q)) : p ≠ q := by
  rintro rfl
  obtain ⟨s, hs, -⟩ := hl.taken p _ h
  have hside := (hi.pair p p s s h hs hs).1
  cases hp : s.side <;> rw [hp] at hside <;> exact hside.elim

/-- A step of the task at `r` of the cluster `c₁`, in which the frame that is read has
been taken off its inbox. -/
theorem task (hi : Talks W c)
    (hsymm : ∀ p q, c.link p = some (.daemon q) → c.link q = some (.daemon p))
    (hne : ∀ p q, c.link p = some (.daemon q) → p ≠ q) (hsame : c₁.daemon = c.daemon)
    (hlink : c₁.link = c.link) (hin : c.inbox r = e.frame.toList ++ c₁.inbox r)
    (hothers : ∀ q, q ≠ r → c₁.inbox q = c.inbox q) (hm : TaskMove c₁ c' r s o)
    (ht : Turn (W.cfg r.1) W.cookie (c.state r.1) s e o) (hside : o.session.side = s.side) :
    Talks W c' := by
  have hsession : ∀ q, c₁.session q = c.session q := fun q => by
    rw [Cluster.session, Cluster.session, hsame]
  have hs : c.session r = some s := by rw [← hsession, hm.before]
  have hmoved : ∀ q s', c'.session q = some s' → q = r ∧ s' = o.session ∨
      q ≠ r ∧ c.session q = some s' := by
    intro q s' hq
    by_cases hqr : q = r
    · subst hqr
      rw [hm.after, Option.some.injEq] at hq
      exact .inl ⟨rfl, hq.symm⟩
    · rw [hm.others q hqr, hsession] at hq
      exact .inr ⟨hqr, hq⟩
  refine ⟨fun p s' hp => ?_, fun p q s₁ s₂ hpq hp hq => ?_⟩
  · rcases hmoved p s' hp with ⟨-, rfl⟩ | ⟨-, hold⟩
    · exact ht.role
    · exact hi.role p s' hold
  · have hpq : c.link p = some (.daemon q) := by rw [← hlink, ← hm.link, hpq]
    rcases hmoved p s₁ hp with ⟨rfl, rfl⟩ | ⟨hpr, hp⟩
    · -- the speaker moves
      rcases hmoved q s₂ hq with ⟨hqr, -⟩ | ⟨hqr, hq⟩
      · exact absurd hqr.symm (hne _ _ hpq)
      · obtain ⟨hopp, hord⟩ := hi.pair p q s s₂ hpq hs hq
        refine ⟨hside ▸ hopp, ?_⟩
        rw [hm.fed q (by rw [hlink]; exact hpq), hothers q hqr]
        exact ht.speaks.orderly hord fun m => hopp.accepts
    · have hquiet : ∀ q', c.link p = some (.daemon q') → c₁.link r ≠ some (.daemon q') := by
        intro q' hq' hr
        rw [hlink] at hr
        have hback := hsymm _ _ hr
        rw [hsymm _ _ hq', Option.some.injEq, Endpoint.daemon.injEq] at hback
        exact hpr hback
      rcases hmoved q s₂ hq with ⟨rfl, rfl⟩ | ⟨hqr, hq⟩
      · -- the hearer moves
        obtain ⟨hopp, hord⟩ := hi.pair p q s₁ s hpq hp hs
        refine ⟨hside ▸ hopp, ?_⟩
        rw [hm.quiet q (hquiet q hpq), hside]
        rw [hin] at hord
        exact ht.hears.orderly hord
      · rw [hm.quiet q (hquiet q hpq), hothers q hqr]
        exact hi.pair p q s₁ s₂ hpq hp hq

/-- The frame a session reads is one that it expects. -/
theorem expects (hi : Talks W c) (hl : Links c) {q : Port} {m : Message P}
    {rest : List (Message P)} (hq : c.link r = some (.daemon q)) (hs : c.session r = some s)
    (hin : c.inbox r = m :: rest) (hg : s.hearer ≠ .gone) : s.Expects W.cookie m := by
  have hback := hl.symm _ _ hq
  obtain ⟨s', hs', -⟩ := hl.taken _ _ hback
  obtain ⟨-, hord⟩ := hi.pair q r s' s hback hs' hs
  rw [hin] at hord
  exact Session.expects_of_orderly hord hg

/-- A step of no session: what is linked stays as it is, and a new session is a dial. -/
theorem idle (hi : Talks W c) (hl : Links c) {a : Act P} (ha : ∀ t e, a ≠ .task t e)
    (hacc : a ≠ .accept) (h : c.act W n a = some c') :
    Talks W c' ∧ ∀ p s, c.session p = some s → c'.session p = some s := by
  have hkeep : ∀ p s, c.session p = some s → c'.session p = some s := by
    intro p s hp
    rcases session_of_act h hp with ⟨e, o, -, rfl, -⟩ | hp'
    · exact absurd rfl (ha p.2 e)
    · exact hp'
  have hinbox : c'.inbox = c.inbox := by
    obtain ⟨d, sent, hd, rfl⟩ := act_eq_some h
    rcases Daemon.step_cases hd with ⟨t, e, -, -, rfl, -⟩ | ⟨-, rfl⟩
    · exact absurd rfl (ha t e)
    · rfl
  refine ⟨⟨fun p s hp => ?_, fun p q s₁ s₂ hpq hp hq => ?_⟩, hkeep⟩
  · rcases session_act h hp with ⟨e, _, _, -, rfl, -⟩ | hold | ⟨-, hnew⟩
    · exact absurd rfl (ha p.2 e)
    · exact hi.role p s hold
    · rcases hnew with ⟨addr, rfl⟩ | ⟨-, rfl, -⟩
      · trivial
      · exact absurd rfl hacc
  · rw [act_link h] at hpq
    obtain ⟨s₁', hp', -⟩ := hl.taken p _ hpq
    obtain ⟨s₂', hq', -⟩ := hl.taken q _ (hl.symm _ _ hpq)
    rw [hkeep p s₁' hp', Option.some.injEq] at hp
    rw [hkeep q s₂' hq', Option.some.injEq] at hq
    subst hp hq
    rw [hinbox]
    exact hi.pair p q s₁' s₂' hpq hp' hq'

/-- The two ports of a connection that is being made have no session at one end yet. -/
theorem connect (hi : Talks W c) {p q : Port} (hpq : p ≠ q) (hq : c.session q = none) :
    Talks W (c.connect p q) where
  role := hi.role
  pair x y s₁ s₂ hxy hx hy := by
    rw [Links.link_connect hpq] at hxy
    split at hxy
    · cases hxy
      have hy : c.session q = some s₂ := hy
      rw [hq] at hy
      cases hy
    · split at hxy
      · rename_i hxq
        have hx : c.session x = some s₁ := hx
        rw [hxq, hq] at hx
        cases hx
      · exact hi.pair x y s₁ s₂ hxy hx hy

/-- The listener takes the connection of the dialler. -/
theorem accept (hi : Talks W c) {p q : Port} (hq : c.nextPort n = q)
    (hs : c.session p = some s) (hside : ∃ addr, s.side = .outbound addr)
    (hspeaker : s.speaker = .silent) (hhearer : s.hearer = .waiting)
    (hlp : c.link p = some (.daemon q)) (hlq : c.link q = some (.daemon p))
    (hsymm : ∀ p q, c.link p = some (.daemon q) → c.link q = some (.daemon p))
    (hinp : c.inbox p = []) (hinq : c.inbox q = []) (h : c.act W n .accept = some c') :
    Talks W c' ∧ ∀ p s, c.session p = some s → c'.session p = some s := by
  have hkeep : ∀ p s, c.session p = some s → c'.session p = some s := by
    intro p s hp
    rcases session_of_act h hp with ⟨e, o, -, ha, -⟩ | hp'
    · cases ha
    · exact hp'
  have hnew : c'.session q = some .accepted := hq ▸ session_accept h
  have hold : ∀ r, r ≠ q → c'.session r = c.session r := fun r hr =>
    session_of_accept h (by rwa [hq])
  have hinbox : c'.inbox = c.inbox := by
    rw [act_accept h]
    rfl
  obtain ⟨addr, haddr⟩ := hside
  refine ⟨⟨fun r s' hr => ?_, fun x y s₁ s₂ hxy hx hy => ?_⟩, hkeep⟩
  · by_cases hrq : r = q
    · rw [hrq, hnew, Option.some.injEq] at hr
      subst hr
      trivial
    · exact hi.role r s' (hold r hrq ▸ hr)
  · rw [act_link h] at hxy
    rw [hinbox]
    by_cases hxq : x = q
    · subst hxq
      rw [hlq, Option.some.injEq, Endpoint.daemon.injEq] at hxy
      subst hxy
      rw [hnew, Option.some.injEq] at hx
      rw [hkeep p s hs, Option.some.injEq] at hy
      subst hx hy
      rw [haddr, hinp, hhearer]
      exact ⟨trivial, .quiet (by simp [Session.accepted, Session.speaker]) (by simp)⟩
    · by_cases hyq : y = q
      · subst hyq
        have hback := hsymm _ _ hxy
        rw [hlq, Option.some.injEq, Endpoint.daemon.injEq] at hback
        subst hback
        rw [hnew, Option.some.injEq] at hy
        rw [hkeep p s hs, Option.some.injEq] at hx
        subst hx hy
        rw [haddr, hinq, hspeaker]
        exact ⟨trivial, .quiet (by simp) (by simp [Session.accepted, Session.hearer])⟩
      · exact hi.pair x y s₁ s₂ hxy (hold x hxq ▸ hx) (hold y hyq ▸ hy)

/-- A session that was there before stays as it is or takes its turn in the step `x`. -/
def Turns (W : Setup) (c c' : Cluster P) (x : Action P) : Prop :=
  ∀ p s, c.session p = some s → c'.session p = some s ∨
    ∃ e o, x.EventAt p e ∧ Turn (W.cfg p.1) W.cookie (c.state p.1) s e o ∧
      c'.session p = some o.session

/-- One task takes its turn, having read the frame that was taken off its inbox. -/
theorem turn (hi : Talks W c) (hc : Sound W c)
    (hsymm : ∀ p q, c.link p = some (.daemon q) → c.link q = some (.daemon p))
    (hne : ∀ p q, c.link p = some (.daemon q) → p ≠ q) (hsame : c₁.daemon = c.daemon)
    (hlink : c₁.link = c.link) (hin : c.inbox r = e.frame.toList ++ c₁.inbox r)
    (hothers : ∀ q, q ≠ r → c₁.inbox q = c.inbox q)
    (hread : ∀ s m, c.session r = some s → s.hearer ≠ .gone → e = .read (.message m) →
      s.Expects W.cookie m) {x : Action P} (hx : x.EventAt r e)
    (h : c₁.act W r.1 (.task r.2 e) = some c') : Talks W c' ∧ Turns W c c' x := by
  obtain ⟨s, o, hm, ho⟩ := taskMove_of_act h
  have hsession : ∀ q, c₁.session q = c.session q := fun q => by
    rw [Cluster.session, Cluster.session, hsame]
  have hs : c.session r = some s := by rw [← hsession, hm.before]
  rw [Cluster.state, hsame] at ho
  obtain ⟨l, hl⟩ := hc.listen r.1
  have ht := Turn.of_step hl (hi.role r s hs) (fun m => hread s m hs (hearer_ne_gone ho)) ho
  refine ⟨hi.task hsymm hne hsame hlink hin hothers hm ht (sessionStep_move ho).side, ?_⟩
  intro p s' hp
  by_cases hpr : p = r
  · subst hpr
    rw [hs, Option.some.injEq] at hp
    subst hp
    exact .inr ⟨e, o, hx, ht, hm.after⟩
  · exact .inl (by rw [hm.others p hpr, hsession, hp])

theorem establish (hi : Talks W c) (hc : Sound W c) {p : Port} {nonce : Nonce}
    (h : c.step W (.establish p n nonce) = some c') :
    Talks W c' ∧ Turns W c c' (.establish p n nonce) := by
  obtain ⟨c₁, h₁, h₂⟩ := Option.bind_eq_some_iff.mp h
  obtain ⟨hpq, hlp, hlq⟩ := hc.links.establish_ports h₁
  obtain ⟨⟨s, hs, hp⟩, -⟩ := Links.taken_connected h₁
  have hs : c.session p = some s := hs
  have hsymm := Links.symm_connect hpq hlp hlq hc.links.symm
  have hinp : c.inbox p = [] := by
    refine List.eq_nil_iff_forall_not_mem.mpr fun m hm => ?_
    obtain ⟨x, hx⟩ := hc.links.fed p m hm
    rw [hlp] at hx
    cases hx
  have hne : ∀ x y, (c.connect p (c.nextPort n)).link x = some (.daemon y) → x ≠ y := by
    intro x y hxy
    rw [Links.link_connect hpq] at hxy
    split at hxy
    · rename_i hx
      cases hxy
      rw [hx]
      exact hpq
    · split at hxy
      · rename_i hx
        cases hxy
        rw [hx]
        exact hpq.symm
      · exact hi.link_ne hc.links hxy
  have hcon := hi.connect hpq (session_nextPort c n)
  obtain ⟨l, hl⟩ := hc.listen p.1
  obtain ⟨s', o, hm, ho⟩ := taskMove_of_act h₁
  have heq : s = s' := Option.some.inj (hs.symm.trans hm.before)
  subst heq
  have hrole := hi.role p s hs
  have hturn := Turn.of_step hl hrole (fun m hm => by cases hm) ho
  have htalks : Talks W c₁ := hcon.task hsymm hne rfl rfl rfl (fun _ _ => rfl) hm hturn
    (sessionStep_move ho).side
  simp only [sessionStep, hp, openingStep, hl, Option.some.injEq] at ho
  have hside : ∃ addr, s.side = .outbound addr := by
    cases hside : s.side with
    | inbound => simp [Session.InRole, hp, hside] at hrole
    | outbound addr => exact ⟨addr, rfl⟩
  have hsent : o.sent = none := by rw [← ho]
  have hin : ∀ q, c₁.inbox q = c.inbox q := by
    intro q
    by_cases hq : (c.connect p (c.nextPort n)).link p = some (.daemon q)
    · rw [hm.fed q hq, hsent, Option.toList_none, List.append_nil]
      rfl
    · rw [hm.quiet q hq]
      rfl
  have hnext := nextPort_task h₁ n
  have hlink : c₁.link = (c.connect p (c.nextPort n)).link := act_link h₁
  obtain ⟨htalks', hkeep⟩ := htalks.accept (p := p) (q := c.nextPort n) hnext hm.after
    (by rw [← ho]; exact hside) (by rw [← ho]; rfl) (by rw [← ho]; rfl)
    (by rw [hlink, Links.link_connect hpq, if_pos rfl])
    (by rw [hlink, Links.link_connect hpq, if_neg hpq.symm, if_pos rfl])
    (by rw [hlink]; exact hsymm) (by rw [hin, hinp]) (by rw [hin, hc.links.inbox_nextPort]) h₂
  refine ⟨htalks', fun x s' hx => ?_⟩
  by_cases hxp : x = p
  · subst hxp
    rw [hs, Option.some.injEq] at hx
    subst hx
    exact .inr ⟨_, o, ⟨rfl, rfl⟩, hturn, hkeep _ _ hm.after⟩
  · exact .inl (hkeep x s' (by rw [hm.others x hxp]; exact hx))

theorem step (hi : Talks W c) (hc : Sound W c) {x : Action P} (hx : Honest c x)
    (h : c.step W x = some c') : Talks W c' ∧ Turns W c c' x := by
  cases x with
  | own n a =>
    obtain ⟨hown, h⟩ := Option.ite_none_right_eq_some.mp h
    by_cases ha : ∃ t e, a = .task t e
    · obtain ⟨t, e, rfl⟩ := ha
      have hframe : e.frame = none := by
        rw [TaskEvent.frame.eq_def]
        split
        · cases hown
        · rfl
      refine hi.turn hc (r := (n, t)) hc.links.symm (fun _ _ => hi.link_ne hc.links) rfl rfl
        (by rw [hframe]; rfl) (fun _ _ => rfl) (fun s m _ _ he => ?_) ⟨rfl, rfl⟩ h
      subst he
      cases hown
    · obtain ⟨ht, hkeep⟩ := hi.idle hc.links (fun t e he => ha ⟨t, e, he⟩)
        (fun he => by subst he; cases hown) h
      exact ⟨ht, fun p s hs => .inl (hkeep p s hs)⟩
  | receive p =>
    obtain ⟨m, rest, hin, h⟩ := step_receive h
    refine hi.turn hc (r := p) hc.links.symm (fun _ _ => hi.link_ne hc.links) (by rfl) (by rfl)
      ?_ (fun q hq => setInbox_ne _ _ _ hq) ?_ ⟨rfl, m, rfl⟩ h
    · rw [setInbox_self]
      exact hin
    · intro s m' hs hg he
      cases he
      obtain ⟨q, hq, -⟩ := hc.causal.inbox p m (by rw [hin]; exact List.mem_cons_self)
      exact hi.expects hc.links hq hs hin hg
  | closed p =>
    obtain ⟨-, h⟩ := Option.ite_none_right_eq_some.mp h
    exact hi.turn hc (r := p) hc.links.symm (fun _ _ => hi.link_ne hc.links) rfl rfl rfl
      (fun _ _ => rfl) (fun s m _ _ he => by cases he) ⟨rfl, rfl⟩ h
  | establish p n nonce => exact hi.establish hc h
  | _ => cases hx

theorem init (h : (system P W).init c) : Talks W c := by
  have hnone : ∀ p, c.session p = none := by
    intro p
    obtain ⟨metadata, addr, now, hd⟩ := h.1 p.1
    rw [Cluster.session, (Daemon.start_eq_some hd).2.2.2.1]
    rfl
  exact ⟨fun p s hs => by simp [hnone] at hs, fun p q s s' _ hs => by simp [hnone] at hs⟩

theorem reach (h : (system P W).Reach Honest c) : Talks W c := by
  obtain ⟨c₀, h₀, hl⟩ := h
  refine (hl.preserves (I := fun c => (system P W).Reach Honest c ∧ Talks W c)
    (fun c₁ x c₂ hi hx hs => ?_) ⟨⟨c₀, h₀, .refl⟩, init h₀⟩).2
  exact ⟨hi.1.leads (.single ⟨x, hx, hs⟩), (hi.2.step (.reach hi.1) hx hs).1⟩

end Talks

/-- An honest step that reads no frame whose payload is over the reader's limit. -/
def FramesFit (bincode : Codec (Message P)) (c : Cluster P) (x : Action P) : Prop :=
  Honest c x ∧ ∀ p m rest, x = .receive p → c.inbox p = m :: rest →
    ∃ payload, bincode.serialize m = some payload ∧ payload.length ≤ MAX_FRAME_LEN

/-- Session fidelity: as long as frames keep to the limit, a frame that an honest daemon
reads arrives as it was written and is one its session waits for, with a valid proof and
a sync that decodes; and a session stops only when the connection fails or closes, the
peer has another session or is taken for dead, the daemon shuts down, or there is no
heartbeat interval. -/
theorem session_fidelity (bincode : Codec (Message P))
    (h : (system P W).Reach (FramesFit bincode) c) :
    (∀ p m rest s c', FramesFit bincode c (.receive p) → c.inbox p = m :: rest →
      c.session p = some s → (system P W).step c (.receive p) = some c' →
        (∃ b, writeFrame bincode m = .ok b ∧ ∀ after e,
          readFrame bincode ⟨b ++ after, e⟩ = .ok (some m, ⟨after, e⟩)) ∧ s.Expects W.cookie m) ∧
    (∀ p s peer m, c.session p = some s → s.phase = .live peer (.handle m) → m.InLoop) ∧
    ∀ x c' p s s', FramesFit bincode c x → (system P W).step c x = some c' →
      c.session p = some s → c'.session p = some s' → s.finishing = false →
        s'.finishing = true → ∃ e, x.EventAt p e ∧ Ends (W.cfg p.1) (c.state p.1) s e := by
  have h : (system P W).Reach Honest c := h.mono fun _ _ hx => hx.1
  have hi := Talks.reach h
  have hc := Sound.reach h
  refine ⟨fun p m rest s c' hfit hin hs hstep => ⟨?_, ?_⟩, fun p s peer m hs hp => ?_,
    fun x c' p s s' hx hstep hs hs' hgo hend => ?_⟩
  · obtain ⟨payload, hm, hlen⟩ := hfit.2 p m rest rfl hin
    refine ⟨_, writeFrame_of_serialize hm (hlen.trans_lt (by decide)), fun _ _ => ?_⟩
    exact readFrame_frame hm hlen
  · obtain ⟨m', rest', hin', hact⟩ := step_receive hstep
    obtain ⟨q, hq, -⟩ := hc.causal.inbox p m (by rw [hin]; exact List.mem_cons_self)
    refine hi.expects hc.links hq hs hin fun hg => ?_
    obtain ⟨s', o, hm, ho⟩ := taskMove_of_act hact
    have heq : s = s' := Option.some.inj (hs.symm.trans hm.before)
    subst heq
    exact absurd hg (hearer_ne_gone ho)
  · have hrole := hi.role p s hs
    cases hside : s.side <;> simpa [Session.InRole, hp, hside] using hrole
  · rcases (hi.step hc hx.1 hstep).2 p s hs with hkeep | ⟨e, o, he, ht, ho⟩
    · rw [hs', Option.some.injEq] at hkeep
      rw [hkeep, hgo] at hend
      cases hend
    · rw [hs', Option.some.injEq] at ho
      exact ⟨e, he, ht.ends hgo (by rw [← ho, hend])⟩

section
open Reference

/-- The frames on their way to `p` keep to the limit. -/
def inboxFits (p : Port) (c : Cluster platform) : Bool :=
  (c.inbox p).all fun m => (serialize m).any fun payload => payload.length ≤ MAX_FRAME_LEN

theorem framesFit_receive {p : Port} {c : Cluster platform} (h : inboxFits p c = true) :
    FramesFit bincode c (.receive p) := by
  refine ⟨rfl, fun q m rest hq hin => ?_⟩
  cases hq
  have hm := List.all_eq_true.mp h m (by rw [hin]; exact List.mem_cons_self)
  obtain ⟨payload, hpayload, hlen⟩ := (Option.any_eq_true _ _).mp hm
  exact ⟨payload, hpayload, of_decide_eq_true hlen⟩

def fits (c : Cluster platform) (x : Action platform) : Bool :=
  x.isHonest && match x with
    | .receive p => inboxFits p c
    | _ => true

theorem framesFit_of_fits {c : Cluster platform} {x : Action platform} (h : fits c x = true) :
    FramesFit bincode c x := by
  cases x with
  | receive p => exact framesFit_receive (Bool.and_eq_true_iff.mp h).2
  | _ => exact ⟨(Bool.and_eq_true_iff.mp h).1, fun _ _ _ hx => by cases hx⟩

/-- Node `b` reads the `Handshake` of node `a`. -/
theorem session_fidelity_handshake : ∃ (c : Cluster platform) (s : Session platform)
    (m : Message platform), clusters.Reach (FramesFit bincode) c ∧
      c.session (nodeB, 0) = some s ∧ c.inbox (nodeB, 0) = [m] ∧
      s.phase = .opening .readHandshake ∧ s.Expects setup.cookie m := by
  have heval : ((some cluster).bind fun c => (clusters.guard fits).run c
      (dials nodeA "10.0.0.2:4369" ++ [.establish (nodeA, 0) nodeB nonce, writes (nodeA, 0)])).any
        (fun c => (clusters.step c (.receive (nodeB, 0))).isSome && inboxFits (nodeB, 0) c &&
          (c.inbox (nodeB, 0)).length == 1 &&
          (c.session (nodeB, 0)).any fun s => s.phase.awaitsHandshake) = true := by
    decide +kernel
  obtain ⟨c, hr, hp⟩ := System.Reach.of_eval (C := FramesFit bincode) heval
    (fun _ _ => framesFit_of_fits) cluster_init
  simp only [Bool.and_eq_true, beq_iff_eq, Option.any_eq_true] at hp
  obtain ⟨⟨⟨hstep, hfits⟩, hlen⟩, s, hs, hphase⟩ := hp
  obtain ⟨c', hstep⟩ := Option.isSome_iff_exists.mp hstep
  obtain ⟨m, hin⟩ := List.length_eq_one_iff.mp hlen
  have hexpects :=
    (session_fidelity bincode hr).1 _ m [] s c' (framesFit_receive hfits) hin hs hstep
  refine ⟨c, s, m, hr, hs, hin, ?_, hexpects.2⟩
  rw [Phase.awaitsHandshake.eq_def] at hphase
  split at hphase
  · assumption
  · cases hphase

end

end Cluster
end Pmd
