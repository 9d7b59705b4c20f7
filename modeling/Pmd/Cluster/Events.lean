import Pmd.Cluster.Provenance
import Pmd.Membership.Changes

/-!
# Events and the membership they report

Merges report their diff, and a session cleanup both tombstones the remote node and
reports that it left. Where writes for another node are concurrent, the document crate
chooses the one it shows, and a cleanup or a request, which report nothing about that
node, may change the choice: exactly then the events of a daemon part from its members.
A cleanup reports that the node left whether or not it was listed, and apart from such
changes that is the only way in which the events of one node fail to alternate.
-/
namespace Pmd
open Foundation

variable {P : Platform}

/-- The shutdown sequence has removed the daemon from its own document. -/
def MainPc.removedSelf : MainPc → Bool
  | .sleeping | .stopped => true
  | _ => false

theorem Daemon.step_removedSelf {cfg : Config} {cookie : Bytes} {d d' : Daemon P} {a : Act P}
    {sent : Option (TaskId × Message P)} (h : d.step cfg cookie a = some (d', sent))
    (hself : d'.main.removedSelf = false) : d.main.removedSelf = false := by
  rcases step_cases h with ⟨t, e, s, o, rfl, hs, hm, rfl, -⟩ | ⟨hm, -⟩
  · exact hself
  · cases hm with
    | queued _ _ hstop =>
      cases hd : d.main with
      | sleeping | stopped =>
        rw [hstop (by rw [hd]; rfl), hd] at hself
        cases hself
      | _ => rfl
    | drain hmain => rw [hmain]; rfl
    | leave hmain => rw [hmain]; rfl
    | gossipSend hmain => rw [hmain]; rfl
    | removeSelf hmain => cases hself
    | cancel hmain => cases hself
    | _ => exact hself

/-- What needs the network leaves the shared state alone. -/
theorem Daemon.step_state_of_not_own {cfg : Config} {cookie : Bytes} {d d' : Daemon P} {a : Act P}
    {sent : Option (TaskId × Message P)} (h : d.step cfg cookie a = some (d', sent))
    (ha : a.isOwn = false) : d'.state = d.state ∧ d'.main = d.main := by
  cases a with
  | accept =>
    cases h
    exact ⟨rfl, rfl⟩
  | task t e =>
    obtain ⟨s, o, -, hm, -, rfl, -⟩ := Daemon.taskStep_eq_some h
    refine ⟨?_, rfl⟩
    cases hm with
    | registered | token | recorded | merged | cleaned => cases ha
    | _ => rfl
  | _ => cases ha

namespace Cluster
variable {W : Setup} {c c' : Cluster P} {n : NodeId} {a : Act P} {x : Action P}

theorem act_state {m : NodeId} (h : c.act W m a = some c') (hown : a.isOwn = false ∨ m ≠ n) :
    c'.state n = c.state n ∧ (c'.daemon n).main = (c.daemon n).main := by
  obtain ⟨d, sent, hd, rfl⟩ := act_eq_some h
  rw [state, post_daemon]
  by_cases hnm : n = m
  · subst hnm
    rw [setDaemon_self]
    exact Daemon.step_state_of_not_own hd (hown.resolve_right (not_not_intro rfl))
  · rw [setDaemon_ne _ _ _ hnm]
    exact ⟨rfl, rfl⟩

/-- A daemon's shared state changes only in its own steps. -/
theorem state_step (hx : Honest c x) (h : (system P W).step c x = some c') (n : NodeId) :
    (c'.state n = c.state n ∧ (c'.daemon n).main = (c.daemon n).main ∧ ∀ a, x ≠ .own n a) ∨
      ∃ a sent, x = .own n a ∧
        (c.daemon n).step (W.cfg n) W.cookie a = some (c'.daemon n, sent) := by
  have h : c.step W x = some c' := h
  cases x with
  | own m a =>
    obtain ⟨-, h⟩ := Option.ite_none_right_eq_some.mp h
    by_cases hmn : m = n
    · subst hmn
      obtain ⟨d, sent, hd, rfl⟩ := act_eq_some h
      refine .inr ⟨a, sent, rfl, ?_⟩
      rw [post_daemon, setDaemon_self]
      exact hd
    · obtain ⟨hst, hmain⟩ := act_state h (.inr hmn)
      refine .inl ⟨hst, hmain, fun a' heq => ?_⟩
      cases heq
      exact hmn rfl
  | receive p =>
    obtain ⟨m, rest, -, h⟩ := step_receive h
    obtain ⟨hst, hmain⟩ := act_state (n := n) h (.inl rfl)
    exact .inl ⟨hst, hmain, by simp⟩
  | closed p =>
    obtain ⟨-, h⟩ := Option.ite_none_right_eq_some.mp h
    obtain ⟨hst, hmain⟩ := act_state (n := n) h (.inl rfl)
    exact .inl ⟨hst, hmain, by simp⟩
  | establish p m nonce =>
    obtain ⟨c₁, h₁, h₂⟩ := Option.bind_eq_some_iff.mp h
    obtain ⟨hst₁, hmain₁⟩ := act_state (n := n) h₁ (.inl rfl)
    obtain ⟨hst₂, hmain₂⟩ := act_state (n := n) h₂ (.inl rfl)
    exact .inl ⟨hst₂.trans hst₁, hmain₂.trans hmain₁, by simp⟩
  | _ => cases hx

theorem NodeWrites.plain {S : Startup P} (hi : NodeWrites S c) (n : NodeId) :
    (c.state n).membership.Plain := by
  refine ⟨hi.docPaths n, fun id val hval => ?_⟩
  obtain ⟨r, -, ⟨rfl, -⟩ | rfl⟩ := hi.shown hval
  · exact .inr ⟨_, _, _, rfl⟩
  · exact .inl rfl

/-- Replaying the events of node `n` gives the ids it lists. For its own id this ends
when it removes itself, which is not reported. -/
def EventsFit (c : Cluster P) (n : NodeId) : Prop :=
  ∀ id, (id = n.text → (c.daemon n).main.removedSelf = false) →
    (id ∈ replayChanges {n.text} (c.state n).events ↔ (c.state n).membership.Lists id)

/-- What the document shows for a node. -/
def shownNode (d : P.Doc) (id : String) : Option Json := P.crdt.shown d ["nodes", id]

/-- The edits the daemon makes itself in a step leave what its document shows for all
other nodes. -/
structure LeavesOthers (n : NodeId) (c : Cluster P) (x : Action P) : Prop where
  request : ∀ r, x = .own n (.request r) → ∀ id,
    shownNode ((c.state n).dispatchRequest r).membership.doc id = shownNode (c.daemon n).doc id
  removal : ∀ r, c.Tombstones x n r → ∀ id, id ≠ r.text →
    shownNode ((c.state n).membership.removeNode r.text).doc id = shownNode (c.daemon n).doc id

/-- If what is shown at a path depends only on the writes at it and above it, all steps
do so. -/
theorem LeavesOthers.of_pathLocal (hlocal : P.crdt.PathLocal) (hr : (system P W).Reach Honest c)
    (n : NodeId) (x : Action P) : LeavesOthers n c x := by
  have hdots : DotsIdentify (P.crdt.writes (c.daemon n).doc) :=
    (Causal.reach hr).coherent.identify.subset fun w hw => ⟨n, hw⟩
  constructor
  · rintro r - id
    exact (Daemon.dispatchRequest_doc (c.state n) r).shown_eq hlocal hdots
      fun _ _ h => h.not_above id
  · rintro r - id hne
    exact ((c.state n).membership.removeNode_edits r.text).shown_eq hlocal hdots
      fun _ _ h => h.not_above r.plain hne

/-- What a cleanup lists: the remote node no longer, all others as before. -/
theorem lists_removeNode {m : Membership P} {r : NodeId} (hm : m.Plain)
    (hm' : (m.removeNode r.text).Plain)
    (hcov : ∀ w ∈ P.crdt.writes m.doc, Covers (P.crdt.versionVector m.doc) w.dot)
    (hkeep : ∀ id, id ≠ r.text → shownNode (m.removeNode r.text).doc id = shownNode m.doc id)
    (id : String) : (m.removeNode r.text).Lists id ↔ id ≠ r.text ∧ m.Lists id := by
  by_cases hid : id = r.text
  · subst hid
    refine ⟨fun hlists => absurd hlists ?_, fun h => absurd rfl h.1⟩
    refine hm'.not_lists (m.mem_removeNode r.text) (splitPath_nodePath r.plain) rfl ?_
    intro w hw _
    rcases (m.removeNode_edits r.text).mem_writes hw with hw | ⟨path, hrem, -, -⟩
    · exact .inr (hcov w hw)
    · exact .inl hrem.1
  · rw [hm'.lists_congr hm (hkeep id hid), and_iff_right hid]

/-- One cleanup step, on the shared state. -/
theorem state_of_cleansUp {peer : PeerId P} (hc : c.cleansUp x = some (n, peer))
    (h : (system P W).step c x = some c') : c'.state n = (c.state n).cleanup peer := by
  obtain ⟨t, nonce, epoch, now, s, rfl, hs, hp⟩ := cleansUp_eq_some hc
  have hact : c.act W n (.task t (.lock nonce epoch now)) = some c' := h
  have ho : sessionStep (W.cfg n) W.cookie t (c.state n) s (.lock nonce epoch now) =
      some ⟨(c.state n).cleanup peer, s.goto (.ended none), none⟩ := by
    simp only [sessionStep, hp, stageStep]
  rw [act_of_sessionStep hs ho, Option.some.injEq] at hact
  rw [← hact, state, post_daemon, setDaemon_self]

theorem events_cleanup (st : DaemonState P) (peer : PeerId P) :
    (st.cleanup peer).events = st.events ++ [⟨.nodeLeft, peer.nodeId, P.printAddr peer.addr⟩] :=
  rfl

section Step
variable (hr : (system P W).Reach Honest c) (hx : Honest c x)
  (h : (system P W).step c x = some c')
include hr hx h

theorem EventsFit.step (hkeep : LeavesOthers n c x) (hi : c.EventsFit n) : c'.EventsFit n := by
  have hr' : (system P W).Reach Honest c' := hr.leads (.single ⟨x, hx, h⟩)
  have hc := Causal.reach hr
  obtain ⟨S, hS⟩ := NodeWrites.reach hr
  obtain ⟨S', hS'⟩ := NodeWrites.reach hr'
  have hplain := hS.plain n
  have hplain' := hS'.plain n
  intro id hid
  rcases state_step hx h n with ⟨hst, hmain, -⟩ | ⟨a, sent, rfl, hstep⟩
  · rw [hst]
    exact hi id fun hown => by rw [← hmain]; exact hid hown
  · have hfit := hi id fun hown => Daemon.step_removedSelf hstep (hid hown)
    cases Daemon.step_events hstep with
    | quiet he hd =>
      rw [he, hfit]
      exact hplain.lists_congr hplain' (congrArg (fun d => shownNode d id) hd).symm
    | @request r hst =>
      have hst : c'.state n = (c.state n).dispatchRequest r := hst
      rw [hst] at hplain' ⊢
      rw [DaemonState.dispatchRequest_events, hfit]
      exact hplain.lists_congr hplain' (hkeep.request _ rfl id).symm
    | removeSelf hmain hsleep hst =>
      have hst : c'.state n = (c.state n).removeSelf := hst
      have hne : id ≠ n.text := by
        intro hown
        have hself := hid hown
        rw [hsleep] at hself
        cases hself
      have hm : (c'.state n).membership = (c.state n).membership.removeNode n.text := by
        rw [hst, ← hc.nodeId n]
        rfl
      have he : (c'.state n).events = (c.state n).events := by rw [hst]; rfl
      rw [he, hfit]
      rw [hm] at hplain' ⊢
      exact hplain.lists_congr hplain' (hkeep.removal n (.inl ⟨rfl, rfl, hmain⟩) id hne).symm
    | @left t s peer nonce epoch now hs hp hst =>
      have hst : c'.state n = (c.state n).cleanup peer := hst
      obtain ⟨q, -, hpeer⟩ := (hc.sessions (n, t) s hs).remote peer (by rw [hp]; rfl)
      have htomb : c.Tombstones (.own n (.task t (.lock nonce epoch now))) n q.1 :=
        .inr ⟨peer, by simp [cleansUp, lockedPhase, hs, hp], hpeer⟩
      have hm : (c'.state n).membership = (c.state n).membership.removeNode q.1.text := by
        rw [hst, ← hpeer]
        rfl
      have hcov : ∀ w ∈ P.crdt.writes (c.daemon n).doc, Covers (c.vv n) w.dot := by
        intro w hw
        have hcut : P.crdt.writes (c.daemon n).doc = cut (commonLog c.replicas) (c.vv n) :=
          hc.coherent.cuts n
        rw [hcut] at hw
        exact hw.2
      rw [hm] at hplain' ⊢
      rw [lists_removeNode hplain hplain' hcov (hkeep.removal q.1 htomb), ← hfit, hst,
        events_cleanup, hpeer, replay_append]
      simp [replayChanges, MembershipChange.apply]
    | merged he =>
      rw [he, replay_append, ← hplain'.mem_memberIds]
      refine mem_replay_diffMembers ?_
      rw [hfit, hplain.mem_memberIds]

end Step

theorem EventsFit.init (h : (system P W).init c) (n : NodeId) : c.EventsFit n := by
  obtain ⟨S, hS⟩ := exists_startedWith h
  have hwrites := hS.writes n
  have hevents : (c.state n).events = [] := Daemon.start_events (hS.2 n)
  intro id _
  rw [hevents, ((NodeWrites.init hS).plain n).lists_iff]
  constructor
  · intro hid
    have hid : id = n.text := Finset.mem_singleton.mp hid
    subst hid
    have hsurv : Survives (P.crdt.writes (c.daemon n).doc) (S.write n) := by
      rw [hwrites]
      refine ⟨rfl, fun u hu hsup => ?_⟩
      rw [Set.mem_singleton_iff.mp hu] at hsup
      exact absurd hsup.2.1 (by simp [Covers, Startup.write, Replica.next])
    refine ⟨_, _, _, P.crdt.shown_of_unique hsurv rfl fun u hu _ => ?_⟩
    rw [hwrites] at hu
    exact hu.1
  · rintro ⟨addr, metadata, joinedAt, hshown⟩
    obtain ⟨w, hw, hpath, -⟩ := P.crdt.exists_write_of_shown (by rw [hshown]; rfl)
    rw [hwrites] at hw
    rw [Set.mem_singleton_iff.mp hw.1] at hpath
    simp only [Startup.write, Replica.next, List.cons.injEq, and_true, true_and] at hpath
    exact Finset.mem_singleton.mpr hpath.symm

section Run
variable {xs : List (Action P)} (hr : (system P W).Reach Honest c)
  (hh : (system P W).Meets Honest c xs)
include hr hh

theorem LeavesOthers.run (hlocal : P.crdt.PathLocal) (n : NodeId) :
    (system P W).Meets (LeavesOthers n) c xs := by
  induction xs generalizing c with
  | nil => trivial
  | cons x xs ih =>
    exact ⟨.of_pathLocal hlocal hr n x, fun c₁ h₁ =>
      ih (hr.leads (.single ⟨x, hh.1, h₁⟩)) (hh.2 c₁ h₁)⟩

end Run

/-- The events node `n` has reported for any other node alternate. -/
def EventsAlternate (c : Cluster P) (n : NodeId) : Prop :=
  ∀ id, id ≠ n.text → Alternates (eventsOf id (c.state n).events)

/-- If the step is the cleanup of a session of `n` with another node, `n` lists it. -/
def CleansListed (n : NodeId) (c : Cluster P) (x : Action P) : Prop :=
  ∀ peer, c.cleansUp x = some (n, peer) → peer.nodeId ≠ n.text →
    (c.state n).membership.Lists peer.nodeId

theorem EventsFit.getLast?_eventsOf (hi : c.EventsFit n) {id : String} (hid : id ≠ n.text) :
    (eventsOf id (c.state n).events).getLast? = some .nodeJoined ↔
      (c.state n).membership.Lists id := by
  rw [← hi id (fun h => absurd h hid), mem_replay, Finset.mem_singleton]
  exact ⟨.inl, fun h => h.resolve_right fun h => hid h.2⟩

/-- A step keeps the events alternating exactly if it cleans up only a listed node. -/
theorem eventsAlternate_step (hr : (system P W).Reach Honest c) (hx : Honest c x)
    (h : (system P W).step c x = some c') (hfit : c.EventsFit n) :
    c'.EventsAlternate n ↔ c.EventsAlternate n ∧ CleansListed n c x := by
  by_cases hclean : ∃ peer, c.cleansUp x = some (n, peer)
  · obtain ⟨peer, hclean⟩ := hclean
    have hevents : (c'.state n).events =
        (c.state n).events ++ [⟨.nodeLeft, peer.nodeId, P.printAddr peer.addr⟩] := by
      rw [state_of_cleansUp hclean h, events_cleanup]
    have hlisted : CleansListed n c x ↔
        (peer.nodeId ≠ n.text → (c.state n).membership.Lists peer.nodeId) := by
      simp [CleansListed, hclean]
    rw [hlisted, EventsAlternate, EventsAlternate, hevents]
    have hid : ∀ id, id ≠ n.text → (Alternates (eventsOf id ((c.state n).events ++
        [⟨.nodeLeft, peer.nodeId, P.printAddr peer.addr⟩])) ↔
          Alternates (eventsOf id (c.state n).events) ∧
            (peer.nodeId = id → (c.state n).membership.Lists id)) := by
      intro id hne
      rw [eventsOf_append, eventsOf_singleton]
      by_cases hpeer : peer.nodeId = id
      · simp [hpeer, alternates_concat, hfit.getLast?_eventsOf hne]
      · simp [hpeer]
    constructor
    · intro hall
      exact ⟨fun id hne => ((hid id hne).mp (hall id hne)).1,
        fun hne => ((hid _ hne).mp (hall _ hne)).2 rfl⟩
    · rintro ⟨hall, hlist⟩ id hne
      exact (hid id hne).mpr ⟨hall id hne, fun hpeer => hpeer ▸ hlist (hpeer ▸ hne)⟩
  · have hlisted : CleansListed n c x := fun peer hpeer => absurd ⟨peer, hpeer⟩ hclean
    rw [and_iff_left hlisted]
    rcases state_step hx h n with ⟨hst, -⟩ | ⟨a, sent, rfl, hstep⟩
    · rw [EventsAlternate, hst, EventsAlternate]
    · cases Daemon.step_events hstep with
      | quiet he _ => rw [EventsAlternate, he, EventsAlternate]
      | @request r hst =>
        have hst : c'.state n = (c.state n).dispatchRequest r := hst
        rw [EventsAlternate, hst, DaemonState.dispatchRequest_events, EventsAlternate]
      | removeSelf _ _ hst =>
        have hst : c'.state n = (c.state n).removeSelf := hst
        have he : (c'.state n).events = (c.state n).events := by rw [hst]; rfl
        rw [EventsAlternate, he, EventsAlternate]
      | @left t s peer _ _ _ hs hp _ =>
        exact absurd ⟨peer, by simp [cleansUp, lockedPhase, hs, hp]⟩ hclean
      | merged he =>
        rw [EventsAlternate, he, EventsAlternate]
        refine forall_congr' fun id => imp_congr_right fun hne => ?_
        rw [eventsOf_append]
        refine ⟨Alternates.of_append, alternates_diffMembers ?_⟩
        obtain ⟨S, hS⟩ := NodeWrites.reach hr
        rw [hfit.getLast?_eventsOf hne, (hS.plain n).mem_memberIds]

theorem eventsAlternate_run {xs : List (Action P)} (hr : (system P W).Reach Honest c)
    (h : (system P W).run c xs = some c') (hh : (system P W).Meets Honest c xs)
    (hkeep : (system P W).Meets (LeavesOthers n) c xs) (hi : c.EventsFit n) :
    c'.EventsAlternate n ↔ c.EventsAlternate n ∧ (system P W).Meets (CleansListed n) c xs := by
  induction xs generalizing c with
  | nil =>
    cases h
    exact (and_iff_left trivial).symm
  | cons x xs ih =>
    obtain ⟨c₁, h₁, h⟩ := Option.bind_eq_some_iff.mp h
    have hr₁ : (system P W).Reach Honest c₁ := hr.leads (.single ⟨x, hh.1, h₁⟩)
    have hi₁ : c₁.EventsFit n := hi.step hr hh.1 h₁ hkeep.1
    rw [ih hr₁ h (hh.2 c₁ h₁) (hkeep.2 c₁ h₁) hi₁, eventsAlternate_step hr hh.1 h₁ hi, and_assoc,
      System.meets_cons h₁]

/-- In a run of honest daemons in which the edits of `n` leave what its document shows for
others, its events for every other node alternate exactly if every cleanup it has run was
for a node it listed at that moment. -/
theorem eventsAlternate_iff_cleansListed {c₀ : Cluster P} {xs : List (Action P)}
    (h₀ : (system P W).init c₀) (h : (system P W).run c₀ xs = some c)
    (hh : (system P W).Meets Honest c₀ xs) (n : NodeId)
    (hkeep : (system P W).Meets (LeavesOthers n) c₀ xs) :
    c.EventsAlternate n ↔ (system P W).Meets (CleansListed n) c₀ xs := by
  rw [eventsAlternate_run ⟨c₀, h₀, .refl⟩ h hh hkeep (.init h₀ n)]
  refine and_iff_right fun id _ => ?_
  obtain ⟨metadata, addr, now, hd⟩ := h₀.1 n
  rw [state, Daemon.start_events hd]
  simp [Alternates]

section
open Reference

/-- The session of `p` with the daemon of `q` fails before `p` has merged its record. -/
def failsEarly (p q : Port) (text : String) : List (Action P) :=
  dials p.1 text ++ handshake p q ++
    [locks p, writes p, locks p, .own p.1 (.task p.2 (.read .error)), locks p]

/-- The session at `p` fails in its loop. -/
def fails (p : Port) : List (Action P) := [.own p.1 (.task p.2 (.read .error)), locks p]

/-- If the session of `a` with `b` fails early, the first event of `a` for `b` is that it
left. -/
theorem events_start_with_left :
    ¬ ∀ c : Cluster platform, clusters.Reach Honest c → ∀ n, c.EventsAlternate n := by
  have heval : ((some cluster).bind fun c => (clusters.guard fun _ x => x.isHonest).run c
      (failsEarly (nodeA, 0) (nodeB, 0) "10.0.0.2:4369")).any
        (fun c => eventsOf "b" (c.state nodeA).events = [.nodeLeft]) = true := by
    decide +kernel
  obtain ⟨c, hr, hp⟩ := System.Reach.of_eval (C := Honest) heval (fun _ _ hx => hx) cluster_init
  intro hall
  have halt := hall c hr nodeA "b" (by decide)
  rw [of_decide_eq_true hp] at halt
  exact absurd halt (by decide)

/-- Nodes `a` and `b` join, and the session of `a` ends while it lists `b`. -/
theorem eventsAlternate_iff_cleansListed_join : ∃ c : Cluster platform,
    clusters.run cluster (joins ++ fails (nodeA, 0)) = some c ∧
    eventsOf "b" (c.state nodeA).events = [.nodeJoined, .nodeLeft] ∧ c.EventsAlternate nodeA := by
  have heval : ((clusters.guard fun c x => x.isHonest && (c.cleansUp x).all fun r =>
      (c.state nodeA).membership.members.any fun info => info.nodeId = r.2.nodeId).run cluster
        (joins ++ fails (nodeA, 0))).any
          (fun c => eventsOf "b" (c.state nodeA).events = [.nodeJoined, .nodeLeft]) = true := by
    decide +kernel
  obtain ⟨c, hrun, hp⟩ := (Option.any_eq_true _ _).mp heval
  have hguard : ∀ (c : Cluster platform) (x : Action platform),
      (x.isHonest && (c.cleansUp x).all fun r => (c.state nodeA).membership.members.any
        fun info => info.nodeId = r.2.nodeId) = true → Honest c x ∧ CleansListed nodeA c x := by
    intro c x hx
    rw [Bool.and_eq_true] at hx
    refine ⟨hx.1, fun peer hpeer _ => ?_⟩
    rw [hpeer] at hx
    simpa [Membership.Lists] using hx.2
  obtain ⟨hrun', hh⟩ := System.run_of_guard (M := clusters) (C := Honest)
    (fun c x hx => (hguard c x hx).1) hrun
  obtain ⟨-, hl⟩ := System.run_of_guard (M := clusters) (C := CleansListed nodeA)
    (fun c x hx => (hguard c x hx).2) hrun
  have hinit := cluster_init cluster rfl
  exact ⟨c, hrun', of_decide_eq_true hp, (eventsAlternate_iff_cleansListed hinit hrun' hh nodeA
    (LeavesOthers.run ⟨_, hinit, .refl⟩ hh hierarchical.path nodeA)).mpr hl⟩

end

end Cluster
end Pmd
