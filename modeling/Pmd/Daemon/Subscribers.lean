import Pmd.Daemon.Documents
import Pmd.Daemon.Handles
import Pmd.Foundation.Broadcast

/-!
# Subscribers of membership events

`broadcast_events` sends the changes one by one on a broadcast channel of capacity 256,
while the lock is held. A `Subscribe` client takes its receiver under the lock, confirms
with `Ok`, and writes each change it receives as one line, until a write fails or the
receiver has lagged. Receiving and writing need no lock, so they interleave with the
sends and with everything else the daemon does.
-/
namespace Pmd
open Foundation

variable {P : Platform}

/-- The responses written on a subscription. -/
inductive ControlResponse where
  | ok
  | event (event : MembershipEvent) (nodeId addr : String)
  deriving DecidableEq

def eventResponse (change : MembershipChange) : ControlResponse :=
  .event change.event change.nodeId change.addr

/-- Where `handle_control_client` stands after `subscribe`. -/
inductive SubscriberPhase where
  | okText
  | okNewline
  | okFlush
  | receiving
  | eventText (change : MembershipChange)
  | eventNewline (change : MembershipChange)
  /-- The task has returned; its receiver is dropped. -/
  | closed

structure Subscriber (B : BroadcastChannel MembershipChange) where
  rx : B.Receiver
  phase : SubscriberPhase
  /-- The lines written, each with its newline. -/
  lines : List ControlResponse
  /-- How many changes had been broadcast when the subscription was taken. -/
  taken : ℕ

inductive SubscriberEvent where
  | wrote (ok : Bool)
  | received

namespace Subscriber
variable {B : BroadcastChannel MembershipChange}

def goto (c : Subscriber B) (phase : SubscriberPhase) : Subscriber B := { c with phase := phase }

/-- The end of the task. -/
def close (tx : B.Sender) (c : Subscriber B) : B.Sender × Subscriber B :=
  (B.dropReceiver tx c.rx, c.goto .closed)

def writeLine (c : Subscriber B) (line : ControlResponse) (phase : SubscriberPhase) :
    Subscriber B :=
  { c with lines := c.lines ++ [line], phase := phase }

/-- Errors of the initial `Ok` end the task, as do errors of the two writes of an event.
The result of the flush after an event is ignored. -/
def step (tx : B.Sender) (c : Subscriber B) : SubscriberEvent → Option (B.Sender × Subscriber B)
  | .wrote ok =>
    match c.phase with
    | .okText => some (if ok then (tx, c.goto .okNewline) else c.close tx)
    | .okNewline => some (if ok then (tx, c.writeLine .ok .okFlush) else c.close tx)
    | .okFlush => some (if ok then (tx, c.goto .receiving) else c.close tx)
    | .eventText change => some (if ok then (tx, c.goto (.eventNewline change)) else c.close tx)
    | .eventNewline change =>
      some (if ok then (tx, c.writeLine (eventResponse change) .receiving) else c.close tx)
    | _ => none
  | .received =>
    match c.phase with
    | .receiving =>
      match B.recv tx c.rx with
      | (.value change, rx) => some (tx, { c with rx := rx, phase := .eventText change })
      | (.empty, rx) => some (tx, { c with rx := rx })
      | (.lagged _, _) => some (c.close tx)
    | _ => none

end Subscriber

/-- A daemon with its event channel and its subscribers. Of the changes of the daemon's
critical sections the first `sent` have been sent. -/
structure Broadcasting (P : Platform) (B : BroadcastChannel MembershipChange) where
  daemon : Daemon P
  tx : B.Sender
  sent : ℕ
  subscribers : List (Subscriber B)

inductive BroadcastAct (P : Platform) where
  | daemon (a : Act P)
  /-- One iteration of `broadcast_events`. -/
  | send
  | subscribe
  | subscriber (i : ℕ) (e : SubscriberEvent)

namespace Broadcasting
variable {B : BroadcastChannel MembershipChange} {cfg : Config} {cookie : Bytes}

abbrev events (s : Broadcasting P B) : List MembershipChange := s.daemon.state.events

/-- The lock is free only when all changes have been sent. -/
def subscribe (s : Broadcasting P B) : Option (Broadcasting P B) :=
  if s.sent = s.events.length then
    some { s with
      tx := (B.subscribe s.tx).1
      subscribers := s.subscribers ++ [⟨(B.subscribe s.tx).2, .okText, [], s.sent⟩] }
  else none

def step (cfg : Config) (cookie : Bytes) (s : Broadcasting P B) :
    BroadcastAct P → Option (Broadcasting P B)
  | .daemon a => (s.daemon.step cfg cookie a).map fun o => { s with daemon := o.1 }
  | .send => (s.events[s.sent]?).map fun change =>
      { s with tx := B.send s.tx change, sent := s.sent + 1 }
  | .subscribe => s.subscribe
  | .subscriber i e => do
    let c ← s.subscribers[i]?
    let (tx, c') ← c.step s.tx e
    return { s with tx := tx, subscribers := s.subscribers.set i c' }

def system (P : Platform) (B : BroadcastChannel MembershipChange) (cfg : Config)
    (cookie : Bytes) : System (Broadcasting P B) (BroadcastAct P) where
  init s := (Daemon.system P cfg cookie).init s.daemon ∧ s.tx = B.channel 256 ∧ s.sent = 0 ∧
    s.subscribers = []
  step := step cfg cookie

end Broadcasting

/-! ## One step of a subscriber -/

/-- The line that is still to be written before anything else is received. -/
def SubscriberPhase.pending : SubscriberPhase → List ControlResponse
  | .okText => [.ok]
  | .okNewline => [.ok]
  | .eventText change => [eventResponse change]
  | .eventNewline change => [eventResponse change]
  | _ => []

def SubscriberPhase.isOpen : SubscriberPhase → Bool
  | .closed => false
  | _ => true

namespace Subscriber
variable {B : BroadcastChannel MembershipChange} {tx tx' : B.Sender} {c c' : Subscriber B}
  {e : SubscriberEvent}

/-- The lines written and the one being written. -/
def output (c : Subscriber B) : List ControlResponse := c.lines ++ c.phase.pending

theorem lines_prefix_output (c : Subscriber B) : c.lines <+: c.output := List.prefix_append _ _

/-- What a step does: write, take one change from the channel, or end. -/
inductive Moves (tx : B.Sender) (c : Subscriber B) : B.Sender → Subscriber B → Prop
  | wrote {c' : Subscriber B} (hrx : c'.rx = c.rx) (hout : c'.output = c.output)
      (hopen : c'.phase.isOpen = true) (htaken : c'.taken = c.taken) : Moves tx c tx c'
  | received {change : MembershipChange} {rx : B.Receiver} (hphase : c.phase = .receiving)
      (hrecv : B.recv tx c.rx = (.value change, rx)) :
      Moves tx c tx { c with rx := rx, phase := .eventText change }
  | closed : Moves tx c (B.dropReceiver tx c.rx) (c.goto .closed)

theorem step_cases (h : c.step tx e = some (tx', c')) :
    c.phase.isOpen = true ∧ Moves tx c tx' c' := by
  have hwrote : ∀ {ok : Bool} {c₁ : Subscriber B},
      (if ok then (tx, c₁) else c.close tx) = (tx', c') → c₁.rx = c.rx → c₁.output = c.output →
      c₁.phase.isOpen = true → c₁.taken = c.taken → Moves tx c tx' c' := by
    intro ok c₁ h hrx hout hopen htaken
    cases ok with
    | true =>
      cases h
      exact .wrote hrx hout hopen htaken
    | false =>
      cases h
      exact .closed
  cases e with
  | wrote ok =>
    rw [step] at h
    cases hphase : c.phase with
    | receiving => simp [hphase] at h
    | closed => simp [hphase] at h
    | _ =>
      simp only [hphase, Option.some.injEq] at h
      refine ⟨rfl, hwrote h rfl ?_ rfl rfl⟩
      simp [output, goto, writeLine, hphase, SubscriberPhase.pending]
  | received =>
    rw [step] at h
    cases hphase : c.phase with
    | receiving =>
      simp only [hphase] at h
      refine ⟨rfl, ?_⟩
      rcases hrecv : B.recv tx c.rx with ⟨r, rx⟩
      rw [hrecv] at h
      cases r with
      | value change =>
        cases h
        exact .received hphase hrecv
      | empty =>
        cases h
        have hrx := BroadcastChannel.eq_of_recv_empty hrecv
        exact .wrote hrx (by rw [output, output, hphase]) rfl rfl
      | lagged skipped =>
        cases h
        exact .closed
    | _ => simp [hphase] at h

end Subscriber

/-! ## What a subscriber has seen -/

/-- A step of the daemon broadcasts after what it has broadcast before. -/
theorem Daemon.events_grow {cfg : Config} {cookie : Bytes} {d d' : Daemon P} {a : Act P}
    {sent : Option (TaskId × Message P)} (h : d.step cfg cookie a = some (d', sent)) :
    d.state.events <+: d'.state.events := by
  cases step_events h with
  | quiet he => rw [he]
  | request hst => rw [hst, DaemonState.dispatchRequest_events]
  | removeSelf _ _ hst =>
    rw [hst]
    exact List.prefix_rfl
  | left _ _ hst =>
    rw [hst]
    exact List.prefix_append _ _
  | merged he =>
    rw [he]
    exact List.prefix_append _ _

namespace Broadcasting
variable {B : BroadcastChannel MembershipChange} {cfg : Config} {cookie : Bytes}
  {s s' : Broadcasting P B} {c : Subscriber B}

/-- The confirmation and every change broadcast since the subscription. -/
def stream (s : Broadcasting P B) (c : Subscriber B) : List ControlResponse :=
  .ok :: (s.events.drop c.taken).map eventResponse

/-- The lines are where the stream begins. While the subscription is open, all that has
been sent since is in the lines, in the one being written or in the backlog. -/
structure Tracks (s : Broadcasting P B) (c : Subscriber B) : Prop where
  taken : c.taken ≤ s.sent
  cursor : c.phase.isOpen = true → B.next c.rx ≤ (B.sent s.tx).length
  lines : c.lines <+: s.stream c
  complete : c.phase.isOpen = true → c.output ++ (B.backlog s.tx c.rx).map eventResponse =
    .ok :: ((s.events.take s.sent).drop c.taken).map eventResponse

/-- The channel has a receiver for each open subscription. -/
structure Inv (s : Broadcasting P B) : Prop where
  sent : s.sent ≤ s.events.length
  receivers : B.receivers s.tx = s.subscribers.countP (·.phase.isOpen)
  tracks : ∀ c ∈ s.subscribers, s.Tracks c

namespace Tracks

theorem output_begins (h : s.Tracks c) (hopen : c.phase.isOpen = true) :
    c.output <+: s.stream c := by
  have hall : c.output <+: .ok :: ((s.events.take s.sent).drop c.taken).map eventResponse := by
    rw [← h.complete hopen]
    exact List.prefix_append _ _
  refine hall.trans ((List.prefix_cons_inj _).mpr (List.IsPrefix.map _ ?_))
  exact (List.take_prefix _ _).drop _

/-- Only what is broadcast, sent and received counts. -/
theorem of_same (h : s.Tracks c) (hev : s'.events = s.events) (hsent : s'.sent = s.sent)
    (htx : B.sent s'.tx = B.sent s.tx) : s'.Tracks c := by
  refine ⟨?_, fun hopen => ?_, ?_, fun hopen => ?_⟩
  · rw [hsent]
    exact h.taken
  · rw [htx]
    exact h.cursor hopen
  · rw [stream, hev]
    exact h.lines
  · rw [BroadcastChannel.backlog, htx, hev, hsent]
    exact h.complete hopen

theorem daemon (h : s.Tracks c) (hle : s.sent ≤ s.events.length) {d : Daemon P}
    (hev : s.events <+: d.state.events) : Tracks { s with daemon := d } c := by
  refine ⟨h.taken, h.cursor, h.lines.trans ?_, fun hopen => ?_⟩
  · exact (List.prefix_cons_inj _).mpr ((hev.drop _).map _)
  · rw [h.complete hopen]
    obtain ⟨rest, hrest⟩ := hev
    simp only [events] at hle ⊢
    rw [← hrest, List.take_append_of_le_length hle]

theorem send (h : s.Tracks c) {change : MembershipChange}
    (hchange : s.events[s.sent]? = some change)
    (hr : c.phase.isOpen = true → 0 < B.receivers s.tx) :
    Tracks { s with tx := B.send s.tx change, sent := s.sent + 1 } c := by
  refine ⟨h.taken.trans (Nat.le_succ _), fun hopen => ?_, h.lines, fun hopen => ?_⟩
  · rw [B.sent_send _ _ (hr hopen), List.length_append]
    exact (h.cursor hopen).trans (Nat.le_add_right _ _)
  · have hlt := (List.getElem?_eq_some_iff.mp hchange).1
    have hlen : c.taken ≤ (s.events.take s.sent).length := by
      rw [List.length_take]
      exact le_min h.taken (h.taken.trans hlt.le)
    rw [BroadcastChannel.backlog_send (hr hopen) (h.cursor hopen), List.map_append,
      ← List.append_assoc, h.complete hopen, List.take_add_one, hchange,
      List.drop_append_of_le_length hlen, List.map_append]
    rfl

theorem moves (h : s.Tracks c) (hopen : c.phase.isOpen = true) {c' : Subscriber B} {tx : B.Sender}
    (hm : Subscriber.Moves s.tx c tx c') (subscribers : List (Subscriber B)) :
    Tracks { s with tx := tx, subscribers := subscribers } c' := by
  cases hm with
  | wrote hrx hout hopen' htaken =>
    refine ⟨htaken ▸ h.taken, fun _ => hrx ▸ h.cursor hopen, ?_, fun _ => ?_⟩
    · refine (c'.lines_prefix_output).trans ?_
      rw [hout, stream, htaken]
      exact h.output_begins hopen
    · rw [hout, hrx, htaken]
      exact h.complete hopen
  | received hphase hrecv =>
    obtain ⟨hback, hnext⟩ := BroadcastChannel.backlog_recv (h.cursor hopen) hrecv
    refine ⟨h.taken, fun _ => hnext, h.lines, fun _ => ?_⟩
    have hall := h.complete hopen
    rw [hback, Subscriber.output, hphase] at hall
    rw [← hall]
    simp [Subscriber.output, SubscriberPhase.pending]
  | closed =>
    have hclosed : (c.goto .closed).phase.isOpen ≠ true := Bool.false_ne_true
    exact ⟨h.taken, fun h => absurd h hclosed, h.lines, fun h => absurd h hclosed⟩

end Tracks

theorem receivers_pos (hi : s.Inv) (hc : c ∈ s.subscribers) (hopen : c.phase.isOpen = true) :
    0 < B.receivers s.tx := by
  rw [hi.receivers, List.countP_pos_iff]
  exact ⟨c, hc, hopen⟩

namespace Inv

theorem subscribe (hi : s.Inv) (h : s.subscribe = some s') : s'.Inv := by
  obtain ⟨hsent, h⟩ := Option.ite_none_right_eq_some.mp h
  cases h
  refine ⟨hi.sent, ?_, fun c hc => ?_⟩
  · rw [B.receivers_subscribe, hi.receivers, List.countP_append]
    rfl
  · rcases List.mem_append.mp hc with hc | hc
    · exact (hi.tracks c hc).of_same rfl rfl (B.sent_subscribe _)
    · rw [List.mem_singleton] at hc
      subst hc
      refine ⟨le_rfl, fun _ => ?_, List.nil_prefix, fun _ => ?_⟩
      · rw [B.next_subscribe, B.sent_subscribe]
      · have htake : (s.events.take s.sent).drop s.sent = [] := by
          simp
        rw [BroadcastChannel.backlog_subscribe_self, htake]
        rfl

/-- A subscription that ends gives back its receiver. -/
theorem receivers_set (hi : s.Inv) {i : ℕ} {c c' : Subscriber B} {tx : B.Sender}
    (hc : s.subscribers[i]? = some c) (hopen : c.phase.isOpen = true)
    (hm : Subscriber.Moves s.tx c tx c') :
    B.receivers tx = (s.subscribers.set i c').countP (·.phase.isOpen) := by
  obtain ⟨hlt, hget⟩ := List.getElem?_eq_some_iff.mp hc
  have hpos := receivers_pos hi (List.mem_of_getElem? hc) hopen
  rw [hi.receivers] at hpos
  rw [List.countP_set hlt, hget, if_pos hopen]
  cases hm with
  | wrote _ _ hopen' _ =>
    rw [hi.receivers, if_pos hopen']
    omega
  | received _ _ =>
    rw [hi.receivers, if_pos (by rfl)]
    omega
  | closed =>
    rw [B.receivers_drop, hi.receivers, if_neg (by exact Bool.false_ne_true)]
    rfl

/-- The step of one subscriber. The others only see that the channel holds what it held. -/
theorem subscriber (hi : s.Inv) {i : ℕ} {c c' : Subscriber B} {tx : B.Sender}
    (hc : s.subscribers[i]? = some c) (hopen : c.phase.isOpen = true)
    (hm : Subscriber.Moves s.tx c tx c') :
    Inv { s with tx := tx, subscribers := s.subscribers.set i c' } := by
  refine ⟨hi.sent, hi.receivers_set hc hopen hm, fun x hx => ?_⟩
  rcases List.mem_or_eq_of_mem_set hx with hx | rfl
  · have hsame : B.sent tx = B.sent s.tx := by
      cases hm with
      | closed => exact B.sent_drop _ _
      | _ => rfl
    exact (hi.tracks x hx).of_same rfl rfl hsame
  · exact (hi.tracks c (List.mem_of_getElem? hc)).moves hopen hm _

theorem step (hi : s.Inv) {a : BroadcastAct P} (h : s.step cfg cookie a = some s') : s'.Inv := by
  cases a with
  | daemon a =>
    obtain ⟨⟨d, m⟩, hd, rfl⟩ := Option.map_eq_some_iff.mp h
    have hev := Daemon.events_grow hd
    exact ⟨hi.sent.trans hev.length_le, hi.receivers, fun c hc =>
      (hi.tracks c hc).daemon hi.sent hev⟩
  | send =>
    obtain ⟨change, hchange, rfl⟩ := Option.map_eq_some_iff.mp h
    refine ⟨(List.getElem?_eq_some_iff.mp hchange).1, ?_, fun c hc => ?_⟩
    · rw [B.receivers_send]
      exact hi.receivers
    · exact (hi.tracks c hc).send hchange (receivers_pos hi hc)
  | subscribe => exact hi.subscribe h
  | subscriber i e =>
    obtain ⟨c, hc, h⟩ := Option.bind_eq_some_iff.mp h
    obtain ⟨⟨tx, c'⟩, hstep, h⟩ := Option.bind_eq_some_iff.mp h
    cases h
    obtain ⟨hopen, hm⟩ := Subscriber.step_cases hstep
    exact hi.subscriber hc hopen hm

end Inv

theorem inv_reach (h : (system P B cfg cookie).Reach System.any s) : s.Inv := by
  refine h.invariant (fun s h₀ => ?_) fun s a s' hi _ hs => hi.step hs
  obtain ⟨-, htx, hsent, hsubs⟩ := h₀
  refine ⟨hsent ▸ Nat.zero_le _, ?_, fun c hc => ?_⟩
  · rw [htx, hsubs, B.receivers_channel]
    rfl
  · rw [hsubs] at hc
    cases hc

/-! ## Lost events -/

/-- More has been sent than the channel holds since the last change the subscriber took:
its next one is overwritten. -/
def Lost (s : Broadcasting P B) (c : Subscriber B) : Prop :=
  B.capacity s.tx < (B.backlog s.tx c.rx).length

/-- Subscriber `i` writes no more than `out`: its task has ended, or it has lost the next
change. -/
def Ends (i : ℕ) (out : List ControlResponse) (s : Broadcasting P B) : Prop :=
  ∃ c, s.subscribers[i]? = some c ∧ c.output <+: out ∧ (c.phase.isOpen = true → s.Lost c)

/-- A subscriber that has lost a change takes no later one. -/
theorem Lost.moves {c' : Subscriber B} {tx : B.Sender} (hlost : s.Lost c)
    (hm : Subscriber.Moves s.tx c tx c') : c'.output <+: c.output ∧
      (c'.phase.isOpen = true → tx = s.tx ∧ c'.rx = c.rx) := by
  cases hm with
  | wrote hrx hout _ _ => exact ⟨hout ▸ List.prefix_rfl, fun _ => ⟨rfl, hrx⟩⟩
  | received _ hrecv =>
    obtain ⟨skipped, rx', hlagged⟩ := BroadcastChannel.recv_of_lost hlost
    rw [hlagged, Prod.mk.injEq] at hrecv
    cases hrecv.1
  | closed =>
    refine ⟨?_, fun h => absurd h Bool.false_ne_true⟩
    have hclosed : (c.goto .closed).output = c.lines := List.append_nil _
    rw [hclosed]
    exact c.lines_prefix_output

/-- The step of another subscriber does not bring a lost change back. -/
theorem Lost.of_other {c₁ c' : Subscriber B} {tx : B.Sender} (hlost : s.Lost c)
    (hm : Subscriber.Moves s.tx c₁ tx c') (subscribers : List (Subscriber B)) :
    Lost { s with tx := tx, subscribers := subscribers } c := by
  cases hm with
  | closed =>
    rw [Lost, B.capacity_drop, BroadcastChannel.backlog_drop]
    exact hlost
  | _ => exact hlost

theorem ends_step {i : ℕ} {out : List ControlResponse} {a : BroadcastAct P} (hi : s.Inv)
    (he : s.Ends i out) (h : s.step cfg cookie a = some s') : s'.Ends i out := by
  obtain ⟨c, hc, hout, hlost⟩ := he
  have hmem : c ∈ s.subscribers := List.mem_of_getElem? hc
  cases a with
  | daemon a =>
    obtain ⟨⟨d, m⟩, -, rfl⟩ := Option.map_eq_some_iff.mp h
    exact ⟨c, hc, hout, hlost⟩
  | send =>
    obtain ⟨change, -, rfl⟩ := Option.map_eq_some_iff.mp h
    refine ⟨c, hc, hout, fun hopen => ?_⟩
    rw [Lost, B.capacity_send, BroadcastChannel.backlog_send (receivers_pos hi hmem hopen)
      ((hi.tracks c hmem).cursor hopen), List.length_append]
    exact (hlost hopen).trans (Nat.lt_succ_self _)
  | subscribe =>
    obtain ⟨-, h⟩ := Option.ite_none_right_eq_some.mp h
    cases h
    refine ⟨c, ?_, hout, fun hopen => ?_⟩
    · exact (List.getElem?_append_left (List.getElem?_eq_some_iff.mp hc).1).trans hc
    · rw [Lost, B.capacity_subscribe, BroadcastChannel.backlog_subscribe]
      exact hlost hopen
  | subscriber j e =>
    obtain ⟨c₁, hc₁, h⟩ := Option.bind_eq_some_iff.mp h
    obtain ⟨⟨tx, c'⟩, hstep, h⟩ := Option.bind_eq_some_iff.mp h
    cases h
    obtain ⟨hopen₁, hm⟩ := Subscriber.step_cases hstep
    by_cases hj : j = i
    · subst hj
      rw [hc, Option.some.injEq] at hc₁
      subst hc₁
      obtain ⟨hout', hrest⟩ := (hlost hopen₁).moves hm
      refine ⟨c', List.getElem?_set_self (List.getElem?_eq_some_iff.mp hc).1, hout'.trans hout,
        fun hopen => ?_⟩
      obtain ⟨htx, hrx⟩ := hrest hopen
      rw [Lost, htx, hrx]
      exact hlost hopen₁
    · exact ⟨c, by rw [List.getElem?_set_ne hj, hc], hout, fun hopen =>
        (hlost hopen).of_other hm _⟩

/-- The events of one session, while nothing else happens. -/
def sessionRun (cfg : Config) (cookie : Bytes) (t : TaskId) :
    DaemonState P × Session P → List (TaskEvent P) → Option (DaemonState P × Session P)
  | x, [] => some x
  | (st, s), e :: es =>
    (sessionStep cfg cookie t st s e).bind fun o => sessionRun cfg cookie t (o.state, o.session) es

/-- The daemon does what its one busy session does. -/
theorem leads_of_sessionRun {d : Daemon P} {t : TaskId} {s s' : Session P} {st : DaemonState P}
    {es : List (TaskEvent P)} (hs : d.tasks[t]? = some s)
    (h : sessionRun cfg cookie t (d.state, s) es = some (st, s')) :
    ∃ d', (Daemon.system P cfg cookie).Leads System.any d d' ∧ d'.state = st := by
  induction es generalizing d s with
  | nil =>
    cases h
    exact ⟨d, .refl, rfl⟩
  | cons e es ih =>
    obtain ⟨o, ho, hrest⟩ := Option.bind_eq_some_iff.mp h
    have hlt : t < d.tasks.length := (List.getElem?_eq_some_iff.mp hs).1
    obtain ⟨d', hl, hd'⟩ := ih (d := { d with state := o.state, tasks := d.tasks.set t o.session })
      (List.getElem?_set_self hlt) hrest
    exact ⟨d', .head ⟨_, trivial, Daemon.step_task hs ho⟩ hl, hd'⟩

variable (cookie) in
/-- A node that is not connected connects, and its link is lost. -/
theorem peer_comesAndGoes {d : Daemon P} {peer : PeerId P} {l : P.Addr}
    (hcfg : 0 < cfg.heartbeatIntervalSecs) (hl : cfg.listenAddr P = some l)
    (hnew : peer.nodeId ∉ d.state.peers) (nonce : Nonce) :
    ∃ d', (Daemon.system P cfg cookie).Leads System.any d d' ∧ peer.nodeId ∉ d'.state.peers ∧
      d'.state.events =
        d.state.events ++ [⟨.nodeLeft, peer.nodeId, P.printAddr peer.addr⟩] := by
  let t : TaskId := d.tasks.length
  let lock : TaskEvent P := .lock nonce none 0
  let st : DaemonState P := d.state.insertPeer cfg t peer ⊥
  have haccept : (Daemon.system P cfg cookie).step d .accept =
      some { d with tasks := d.tasks ++ [Session.accepted] } := rfl
  have hrun : sessionRun cfg cookie t (d.state, Session.accepted)
      [.read (.message (greeting cookie peer nonce)), lock, .wrote true, lock, .wrote true, lock,
        .read .eof, lock] = some (st.cleanup peer, Session.accepted.goto (.ended none)) := by
    rw [sessionRun, sessionStep_handshake rfl (checkHandshake_greeting peer nonce),
      Option.bind_some, sessionRun, sessionStep_register_inbound rfl rfl hnew hl, Option.bind_some]
    simp only [sessionRun, sessionStep, stageStep, Session.goto, if_neg hcfg.ne', receiveStep,
      lock, Option.bind_some, st]
  obtain ⟨d', hleads, hd'⟩ := leads_of_sessionRun
    (d := { d with tasks := d.tasks ++ [Session.accepted] }) List.getElem?_concat_length hrun
  refine ⟨d', .head ⟨_, trivial, haccept⟩ hleads, ?_, by rw [hd']; rfl⟩
  rw [hd']
  exact fun h => (AList.mem_erase.mp h).1 rfl

/-- All changes have been sent, `n` of them since `s₀`, and no subscriber has moved. -/
structure Sends (nodeId : String) (n : ℕ) (s₀ s : Broadcasting P B) : Prop where
  peers : nodeId ∉ s.daemon.state.peers
  all : s.sent = s.events.length
  sent : s.sent = s₀.sent + n
  capacity : B.capacity s.tx = B.capacity s₀.tx
  subscribers : s.subscribers = s₀.subscribers

theorem leads_daemon {d : Daemon P}
    (h : (Daemon.system P cfg cookie).Leads System.any s.daemon d) :
    (system P B cfg cookie).Leads System.any s { s with daemon := d } := by
  refine h.lift (fun d => { s with daemon := d }) ?_
  rintro d₁ d₂ ⟨a, -, ha⟩
  refine ⟨.daemon a, trivial, ?_⟩
  obtain ⟨o, ho, rfl⟩ := Option.map_eq_some_iff.mp ha
  exact Option.map_eq_some_iff.mpr ⟨o, ho, rfl⟩

variable (cookie) in
theorem leads_sends {s₀ : Broadcasting P B} (peer : PeerId P) {l : P.Addr}
    (hcfg : 0 < cfg.heartbeatIntervalSecs) (hl : cfg.listenAddr P = some l)
    (hnew : peer.nodeId ∉ s₀.daemon.state.peers) (hall : s₀.sent = s₀.events.length) (n : ℕ) :
    ∃ s, (system P B cfg cookie).Leads System.any s₀ s ∧ Sends peer.nodeId n s₀ s := by
  induction n with
  | zero => exact ⟨s₀, .refl, hnew, hall, rfl, rfl, rfl⟩
  | succ n ih =>
    obtain ⟨s, hleads, hs⟩ := ih
    obtain ⟨d, hd, hpeers, hevents⟩ :=
      peer_comesAndGoes cookie hcfg hl hs.peers (Vector.replicate 32 0)
    let change : MembershipChange := ⟨.nodeLeft, peer.nodeId, P.printAddr peer.addr⟩
    have hget : d.state.events[s.sent]? = some change := by
      rw [hevents, hs.all]
      exact List.getElem?_concat_length
    have hsend : step cfg cookie { s with daemon := d } .send =
        some { s with daemon := d, tx := B.send s.tx change, sent := s.sent + 1 } := by
      rw [step, events, hget]
      rfl
    refine ⟨_, (hleads.trans (leads_daemon hd)).tail ⟨.send, trivial, hsend⟩, hpeers, ?_, ?_, ?_,
      hs.subscribers⟩
    · simp only [events, hevents, List.length_append, List.length_singleton]
      rw [hs.all]
    · exact congrArg (· + 1) hs.sent
    · exact (B.capacity_send _ _).trans hs.capacity

/-- A client that does not receive while the channel is filled loses its next change. -/
theorem leads_lost (h : (system P B cfg cookie).Reach System.any s) {i : ℕ} {nodeId : String}
    (hcfg : 0 < cfg.heartbeatIntervalSecs) (hc : s.subscribers[i]? = some c)
    (hopen : c.phase.isOpen = true) (hnew : nodeId ∉ s.daemon.state.peers)
    (hall : s.sent = s.events.length) :
    ∃ s', (system P B cfg cookie).Leads System.any s s' ∧ s'.subscribers[i]? = some c ∧
      s'.Lost c := by
  obtain ⟨s₀, ⟨hinit, -⟩, -⟩ := id h
  obtain ⟨l, hl⟩ := Daemon.reach_listenAddr (C := System.any) ⟨_, hinit, .refl⟩
  obtain ⟨s', hleads, hs'⟩ := leads_sends cookie ⟨nodeId, l⟩ hcfg hl hnew
    hall (B.capacity s.tx + 1)
  have hc' : s'.subscribers[i]? = some c := by rw [hs'.subscribers, hc]
  refine ⟨s', hleads, hc', ?_⟩
  -- What has been sent since is in the backlog: the lines have not changed.
  have hcount : ∀ {u : Broadcasting P B}, (system P B cfg cookie).Reach System.any u →
      u.subscribers[i]? = some c →
      c.output.length + (B.backlog u.tx c.rx).length = u.sent - c.taken + 1 := by
    intro u hu hcu
    have hinv := inv_reach hu
    have hlen := congrArg List.length
      ((hinv.tracks c (List.mem_of_getElem? hcu)).complete hopen)
    rwa [List.length_append, List.length_map, List.length_cons, List.length_map, List.length_drop,
      List.length_take_of_le hinv.sent] at hlen
  have hbefore := hcount h hc
  have hafter := hcount (h.leads hleads) hc'
  have htaken := ((inv_reach h).tracks c (List.mem_of_getElem? hc)).taken
  have hsent := hs'.sent
  rw [Lost, hs'.capacity]
  omega

/-- The lines a subscriber is written are the beginning of the stream, without gap,
duplicate or reordering. If its next change is lost, nothing follows the line that is
being written, and the next time it receives the stream ends. -/
theorem subscriber_never_skips (h : (system P B cfg cookie).Reach System.any s) {i : ℕ}
    (hc : s.subscribers[i]? = some c) :
    c.lines <+: .ok :: (s.events.drop c.taken).map eventResponse ∧
      (c.phase.isOpen = true → s.Lost c →
        (∀ s', (system P B cfg cookie).Leads System.any s s' →
          ∃ c', s'.subscribers[i]? = some c' ∧ c'.lines <+: c.output) ∧
        (c.phase = .receiving → ∃ s' c', s.step cfg cookie (.subscriber i .received) = some s' ∧
          s'.subscribers[i]? = some c' ∧ c'.phase = .closed ∧ c'.lines = c.lines)) := by
  have hinv := inv_reach h
  refine ⟨(hinv.tracks c (List.mem_of_getElem? hc)).lines, fun hopen hlost =>
    ⟨fun s' hs' => ?_, fun hphase => ?_⟩⟩
  · have hends : s'.Inv ∧ s'.Ends i c.output :=
      hs'.preserves (I := fun s' => s'.Inv ∧ s'.Ends i c.output)
        (fun _ _ _ hi _ hs => ⟨hi.1.step hs, ends_step hi.1 hi.2 hs⟩)
        ⟨hinv, c, hc, List.prefix_rfl, fun _ => hlost⟩
    obtain ⟨-, c', hc', hout, -⟩ := hends
    exact ⟨c', hc', c'.lines_prefix_output.trans hout⟩
  · obtain ⟨skipped, rx, hlagged⟩ := BroadcastChannel.recv_of_lost hlost
    have hstep : c.step s.tx .received = some (c.close s.tx) := by
      rw [Subscriber.step, hphase]
      simp only [hlagged]
    refine ⟨{ s with tx := (c.close s.tx).1, subscribers := s.subscribers.set i (c.goto .closed) },
      c.goto .closed, ?_, List.getElem?_set_self (List.getElem?_eq_some_iff.mp hc).1, rfl, rfl⟩
    rw [step, hc]
    simp only [Option.bind_eq_bind, Option.bind_some, hstep]
    rfl

section
open Reference

abbrev broadcasts : System (Broadcasting platform (.history MembershipChange))
    (BroadcastAct platform) := system platform (.history MembershipChange) config Reference.cookie

/-- Node `b` connects and the link is lost. -/
def connectAndLose : List (Act platform) :=
  inboundRegisters 0 ++ [.task 0 (.wrote true), .task 0 locked, .task 0 (.wrote true),
    .task 0 locked, .task 0 (.read .eof), .task 0 locked]

/-- A client subscribes, is told so and waits for events. -/
def subscribes : List (BroadcastAct platform) :=
  [.subscribe, .subscriber 0 (.wrote true), .subscriber 0 (.wrote true),
    .subscriber 0 (.wrote true)]

/-- A client subscribes, node `b` comes and goes, and the client is told. -/
def subscribeAndLeave : List (BroadcastAct platform) :=
  subscribes ++ connectAndLose.map .daemon ++
  [.send, .subscriber 0 .received, .subscriber 0 (.wrote true), .subscriber 0 (.wrote true)]

def waits (c : Subscriber (.history MembershipChange)) : Bool :=
  match c.phase with
  | .receiving => c.lines = [.ok]
  | _ => false

theorem waits_iff {c : Subscriber (.history MembershipChange)} (h : waits c = true) :
    c.phase = .receiving ∧ c.lines = [.ok] := by
  rw [waits] at h
  split at h
  · exact ⟨‹_›, of_decide_eq_true h⟩
  · cases h

/-- Before it has received the 257th change the client has lost the first. -/
theorem subscriber_lags : ∃ s c, broadcasts.Reach System.any s ∧ s.subscribers[0]? = some c ∧
    waits c = true ∧ s.Lost c := by
  have heval : ((Reference.daemon.map fun d => ⟨d, ⟨256, 0, []⟩, 0, []⟩).bind fun s =>
      (broadcasts.guard fun _ _ => true).run s subscribes).any (fun s =>
        decide ("b" ∉ s.daemon.state.peers ∧ s.sent = s.events.length) &&
          (s.subscribers[0]?).any waits) = true := by
    decide +kernel
  obtain ⟨s, hs, h⟩ := System.Reach.of_eval (C := System.any) heval (fun _ _ _ => trivial)
    fun s hs => by
      obtain ⟨d, hd, rfl⟩ := Option.map_eq_some_iff.mp hs
      exact ⟨daemon_init d hd, rfl, rfl, rfl⟩
  obtain ⟨hidle, hany⟩ := (Bool.and_eq_true _ _).mp h
  obtain ⟨c, hc, hwaits⟩ := (Option.any_eq_true _ _).mp hany
  obtain ⟨hnew, hall⟩ := of_decide_eq_true hidle
  have hopen : c.phase.isOpen = true := by
    rw [(waits_iff hwaits).1]
    rfl
  obtain ⟨s', hleads, hc', hlost⟩ := leads_lost hs (by decide) hc hopen hnew hall
  exact ⟨s', c, hs.leads hleads, hc', hwaits, hlost⟩

/-- One client is told of a change. Another lags, and is written nothing after its `Ok`. -/
theorem subscriber_never_skips_told :
    (∃ s c, broadcasts.Reach System.any s ∧ s.subscribers[0]? = some c ∧
      c.lines = [.ok, .event .nodeLeft "b" "10.0.0.2:4369"] ∧
        c.lines <+: .ok :: (s.events.drop c.taken).map eventResponse) ∧
    ∃ s c, broadcasts.Reach System.any s ∧ s.subscribers[0]? = some c ∧ s.Lost c ∧
      c.lines = [.ok] ∧
      (∀ s', broadcasts.Leads System.any s s' →
        ∃ c', s'.subscribers[0]? = some c' ∧ c'.lines <+: [.ok]) ∧
      ∃ s' c', broadcasts.step s (.subscriber 0 .received) = some s' ∧
        s'.subscribers[0]? = some c' ∧ c'.phase = .closed ∧ c'.lines = [.ok] := by
  constructor
  · have heval : ((Reference.daemon.map fun d => ⟨d, ⟨256, 0, []⟩, 0, []⟩).bind fun s =>
        (broadcasts.guard fun _ _ => true).run s subscribeAndLeave).any (fun s =>
          (s.subscribers[0]?).any fun c =>
            c.lines = [.ok, .event .nodeLeft "b" "10.0.0.2:4369"]) = true := by
      decide +kernel
    obtain ⟨s, hs, htold⟩ := System.Reach.of_eval (C := System.any) heval (fun _ _ _ => trivial)
      fun s hs => by
        obtain ⟨d, hd, rfl⟩ := Option.map_eq_some_iff.mp hs
        exact ⟨daemon_init d hd, rfl, rfl, rfl⟩
    obtain ⟨c, hc, hlines⟩ := (Option.any_eq_true _ _).mp htold
    exact ⟨s, c, hs, hc, of_decide_eq_true hlines, (subscriber_never_skips hs hc).1⟩
  · obtain ⟨s, c, hs, hc, hwaits, hlost⟩ := subscriber_lags
    obtain ⟨hphase, hlines⟩ := waits_iff hwaits
    have hopen : c.phase.isOpen = true := by
      rw [hphase]
      rfl
    have hout : c.output = [.ok] := by
      rw [Subscriber.output, hphase, hlines]
      rfl
    obtain ⟨hrest, hnext⟩ := (subscriber_never_skips hs hc).2 hopen hlost
    obtain ⟨s', c', hstep, hc', hclosed, hsame⟩ := hnext hphase
    refine ⟨s, c, hs, hc, hlost, hlines, fun s' hs' => ?_, s', c', hstep, hc', hclosed,
      hsame.trans hlines⟩
    obtain ⟨c', hc', hprefix⟩ := hrest s' hs'
    exact ⟨c', hc', hout ▸ hprefix⟩

end

end Broadcasting
end Pmd
