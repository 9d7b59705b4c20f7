import Pmd.Daemon.Effects
import Pmd.Platform.Reference

/-!
# Who owns a peer handle

The `peers` map is keyed by node id and a handle names the session that put it
there. For one daemon in an arbitrary environment: every handle belongs to a
session that has registered and not run its cleanup; a session that got through
its setup writes leaves none behind; and while no Leave drops an entry, a session
that has registered owns the handle under its node id until its own cleanup.
-/
namespace Pmd
open Foundation

variable {P : Platform}

namespace Reference

/-- A daemon named `a` at host 1. -/
def daemon : Option (Daemon platform) := Daemon.start config "a" ∅ (addr 1) 0

/-- The `Handshake` of a daemon at host 2. -/
def hello (nodeId : String) : Message platform :=
  .handshake nodeId (addr 2) nonce (computeCookieHmac platform cookie nonce) CARGO_PKG_VERSION
    PROTOCOL_VERSION

abbrev daemons : System (Daemon platform) (Act platform) := Daemon.system platform config cookie

theorem daemon_init (d : Daemon platform) (h : daemon = some d) : daemons.init d :=
  ⟨_, _, _, _, h⟩

abbrev locked : TaskEvent P := .lock nonce none 0

/-- Task `t` accepts a connection of node `b` and registers it. -/
def inboundRegisters (t : TaskId) : List (Act platform) :=
  [.accept, .task t (.read (.message (hello "b"))), .task t locked]

def hasEnded (t : TaskId) (d : Daemon platform) : Bool :=
  (d.tasks[t]?).any fun s => s.phase.isEnded

end Reference

namespace Daemon

/-- The peer task `t` has registered and not cleaned up. -/
def registered (d : Daemon P) (t : TaskId) : Option (PeerId P) :=
  (d.tasks[t]?).bind fun s => s.phase.registered

variable {cfg : Config} {cookie : Bytes} {d d' : Daemon P} {a : Act P}

theorem system_step (h : (system P cfg cookie).step d a = some d') :
    ∃ sent, d.step cfg cookie a = some (d', sent) := by
  obtain ⟨⟨d₁, sent⟩, hd, rfl⟩ := Option.map_eq_some_iff.mp h
  exact ⟨sent, hd⟩

theorem registered_append {new : List (Session P)} (hnew : ∀ s ∈ new, s.phase.registered = none)
    {st : DaemonState P} {main : MainPc} (t : TaskId) :
    registered ⟨st, d.tasks ++ new, main⟩ t = d.registered t := by
  simp only [registered, List.getElem?_append]
  split
  · rfl
  · rename_i h
    rw [List.getElem?_eq_none (Nat.le_of_not_lt h)]
    cases hs : new[t - d.tasks.length]? with
    | none => rfl
    | some s => exact hnew s (List.mem_of_getElem? hs)

theorem registered_set {t : TaskId} {s s' : Session P} (hs : d.tasks[t]? = some s)
    {st : DaemonState P} {main : MainPc} (u : TaskId) :
    registered ⟨st, d.tasks.set t s', main⟩ u =
      if u = t then s'.phase.registered else d.registered u := by
  have ht : t < d.tasks.length := (List.getElem?_eq_some_iff.mp hs).1
  split
  · rename_i h
    subst h
    simp [registered, List.getElem?_set_self ht]
  · rename_i h
    simp [registered, List.getElem?_set_ne (Ne.symm h)]

theorem registered_of_phase {t : TaskId} {s : Session P} (hs : d.tasks[t]? = some s) :
    d.registered t = s.phase.registered := by
  rw [registered, hs]
  rfl

theorem spawned_registered {joins : List String} {s : Session P} (hs : s ∈ spawned joins) :
    s.phase.registered = none := by
  obtain ⟨addr, -, h⟩ := List.mem_filterMap.mp hs
  obtain ⟨x, -, rfl⟩ := Option.map_eq_some_iff.mp h
  rfl

/-- How a step changes handle owners and registrations. -/
inductive HandleMove (d d' : Daemon P) : Act P → Prop
  | same {a : Act P} (ho : ∀ k, d'.state.owner k = d.state.owner k)
      (hr : ∀ t, d'.registered t = d.registered t) : HandleMove d d' a
  | registered {t : TaskId} {e : TaskEvent P} {peer : PeerId P}
      (hnew : d.state.owner peer.nodeId = none) (hfree : d.registered t = none)
      (ho : ∀ k, d'.state.owner k = if k = peer.nodeId then some t else d.state.owner k)
      (hr : ∀ u, d'.registered u = if u = t then some peer else d.registered u) :
      HandleMove d d' (.task t e)
  | cleaned {t : TaskId} {e : TaskEvent P} {peer : PeerId P} (hreg : d.registered t = some peer)
      (ho : ∀ k, d'.state.owner k = if k = peer.nodeId then none else d.state.owner k)
      (hr : ∀ u, d'.registered u = if u = t then none else d.registered u) :
      HandleMove d d' (.task t e)
  | left {addr : String} {rest : List String} (hmain : d.main = .leaving (addr :: rest))
      (hd : d'.state = d.state.leave addr) (hr : ∀ t, d'.registered t = d.registered t) :
      HandleMove d d' .leave

theorem sessionMove_handles {t : TaskId} {s : Session P} {e : TaskEvent P} {o : Outcome P}
    (hs : d.tasks[t]? = some s) (hm : SessionMove cfg cookie t d.state s e o) :
    HandleMove d { d with state := o.state, tasks := d.tasks.set t o.session } (.task t e) := by
  have hsame : ∀ {o : Outcome P}, (∀ k, o.state.owner k = d.state.owner k) →
      o.session.phase.registered = s.phase.registered →
      HandleMove d { d with state := o.state, tasks := d.tasks.set t o.session } (.task t e) := by
    intro o ho hp
    refine .same ho fun u => ?_
    rw [registered_set hs]
    split
    · rename_i h
      rw [hp, h, registered_of_phase hs]
    · rfl
  cases hm with
  | registered hp hnew hst =>
    refine .registered (DaemonState.owner_eq_none hnew) (by rw [registered_of_phase hs, hp]; rfl)
      (fun k => DaemonState.owner_insertPeer _ k _ _ _ _) (fun u => ?_)
    rw [registered_set hs]
    rfl
  | cleaned hp =>
    refine .cleaned (by rw [registered_of_phase hs, hp]; rfl)
      (fun k => DaemonState.owner_cleanup _ k _) (fun u => ?_)
    rw [registered_set hs]
    rfl
  | recorded hp =>
    refine hsame (fun k => DaemonState.owner_modifyPeer _ k fun _ => rfl) ?_
    rw [hp]
    rfl
  | merged hp hm =>
    obtain ⟨δ, changes, -, rfl⟩ := DaemonState.mergeSync_eq_some hm
    refine hsame (fun k => DaemonState.owner_modifyPeer _ k fun _ => rfl) ?_
    rw [hp]
    rfl
  | token hp hg => exact hsame (fun _ => rfl) (by rw [hp]; rfl)
  | dialed hp _ => exact hsame (fun _ => rfl) (by rw [hp]; rfl)
  | refused hp => exact hsame (fun _ => rfl) (by rw [hp]; rfl)
  | greeted hp => exact hsame (fun _ => rfl) (by rw [hp]; rfl)
  | checked hp _ => exact hsame (fun _ => rfl) (by rw [hp]; rfl)
  | wrote hp _ => exact hsame (fun _ => rfl) (by rw [hp]; rfl)
  | setupFailed hp _ => exact hsame (fun _ => rfl) (by rw [hp]; rfl)
  | panicked hp _ => exact hsame (fun _ => rfl) (by rw [hp]; rfl)
  | built hp => exact hsame (fun _ => rfl) (by rw [hp]; rfl)
  | gossiped hp _ => exact hsame (fun _ => rfl) (by rw [hp]; rfl)
  | beat hp _ => exact hsame (fun _ => rfl) (by rw [hp]; rfl)
  | received hp => exact hsame (fun _ => rfl) (by rw [hp]; rfl)
  | moved hp _ => exact hsame (fun _ => rfl) (by rw [hp]; rfl)

theorem step_handles {sent : Option (TaskId × Message P)}
    (h : d.step cfg cookie a = some (d', sent)) : HandleMove d d' a := by
  rcases step_cases h with ⟨t, e, s, o, rfl, hs, hm, rfl, -⟩ | ⟨hm, -⟩
  · exact sessionMove_handles hs hm
  · cases hm with
    | request r =>
      refine .same (fun k => ?_) fun _ => rfl
      rw [DaemonState.owner, DaemonState.owner, DaemonState.dispatchRequest_peers]
    | queued _ _ _ => exact .same (fun _ => rfl) fun _ => rfl
    | drain _ => exact .same (fun _ => rfl) (registered_append fun _ => spawned_registered)
    | leave hmain => exact .left hmain rfl fun _ => rfl
    | gossipSend _ => exact .same (fun _ => rfl) fun _ => rfl
    | removeSelf _ => exact .same (fun _ => rfl) fun _ => rfl
    | cancel _ => exact .same (fun _ => rfl) fun _ => rfl
    | accept =>
      refine .same (fun _ => rfl) (registered_append fun s hs => ?_)
      rw [List.mem_singleton.mp hs]
      rfl

/-- Every handle belongs to a session registered for its node id. -/
def HandlesOwned (d : Daemon P) : Prop :=
  ∀ k t, d.state.owner k = some t → ∃ peer, d.registered t = some peer ∧ peer.nodeId = k

/-- Every registered session owns the handle under its node id. -/
def SessionsOwn (d : Daemon P) : Prop :=
  ∀ t peer, d.registered t = some peer → d.state.owner peer.nodeId = some t

theorem start_eq_some {nodeId : String} {metadata : StrMap String} {addr : P.Addr} {now : ℕ}
    (h : start cfg nodeId metadata addr now = some d) :
    (∃ l, cfg.listenAddr P = some l) ∧
      d.state.membership = (Membership.new nodeId).addNode nodeId addr metadata now ∧
      d.state.peers = ∅ ∧ d.tasks = [] ∧ d.main = .select ∧ d.state.shutdown = false := by
  rw [start] at h
  obtain ⟨l, hl, h⟩ := Option.bind_eq_some_iff.mp h
  cases h
  exact ⟨⟨l, hl⟩, rfl, rfl, rfl, rfl, rfl⟩

theorem start_events {nodeId : String} {metadata : StrMap String} {addr : P.Addr} {now : ℕ}
    (h : start cfg nodeId metadata addr now = some d) : d.state.events = [] := by
  rw [start] at h
  obtain ⟨l, -, h⟩ := Option.bind_eq_some_iff.mp h
  cases h
  rfl

theorem start_owner {nodeId : String} {metadata : StrMap String} {addr : P.Addr} {now : ℕ}
    (h : start cfg nodeId metadata addr now = some d) (k : String) : d.state.owner k = none := by
  obtain ⟨-, -, hp, -⟩ := start_eq_some h
  rw [DaemonState.owner, hp]
  rfl

theorem init_tasks (h : (system P cfg cookie).init d) : d.tasks = [] := by
  obtain ⟨_, _, _, _, h⟩ := h
  exact (start_eq_some h).2.2.2.1

theorem handlesOwned_step (hi : HandlesOwned d) (h : HandleMove d d' a) : HandlesOwned d' := by
  intro k t hk
  cases h with
  | same ho hr =>
    rw [ho] at hk
    rw [hr]
    exact hi k t hk
  | registered hnew hfree ho hr =>
    rw [ho] at hk
    rw [hr]
    split at hk
    · rename_i hkp
      cases hk
      exact ⟨_, if_pos rfl, hkp.symm⟩
    · obtain ⟨peer', hp, hkp⟩ := hi k t hk
      have hne : t ≠ _ := fun heq => by
        rw [heq, hfree] at hp
        cases hp
      exact ⟨peer', by rw [if_neg hne, hp], hkp⟩
  | cleaned hreg ho hr =>
    rw [ho] at hk
    rw [hr]
    split at hk
    · cases hk
    · rename_i hkp
      obtain ⟨peer', hp, hkp'⟩ := hi k t hk
      have hne : t ≠ _ := fun heq => by
        rw [heq, hreg] at hp
        cases hp
        exact hkp hkp'.symm
      exact ⟨peer', by rw [if_neg hne, hp], hkp'⟩
  | left hmain hd hr =>
    rw [hr]
    rw [hd] at hk
    rcases DaemonState.owner_leave d.state k _ with hl | hl
    · rw [hl] at hk
      cases hk
    · exact hi k t (by rw [← hl, hk])

theorem handlesOwned_reach {C : Daemon P → Act P → Prop} (h : (system P cfg cookie).Reach C d) :
    HandlesOwned d := by
  refine h.invariant (fun d hd k t hk => ?_) fun d a d' hi _ hs => ?_
  · obtain ⟨_, _, _, _, hd⟩ := hd
    rw [start_owner hd] at hk
    cases hk
  · obtain ⟨_, hs⟩ := system_step hs
    exact handlesOwned_step hi (step_handles hs)

/-! ## Ended sessions -/

/-- Once task `t` has ended, no entry of the map is the one it inserted. -/
def NoHandleLeft (t : TaskId) (d : Daemon P) : Prop :=
  ∀ s, d.tasks[t]? = some s → s.phase.isEnded = true → ∀ k, d.state.owner k ≠ some t

/-- The setup of task `t` goes through: neither the write of the `HandshakeAck` nor that of
the initial full delta fails in this step, and the loop is not entered with a zero
heartbeat interval. -/
structure SetupSucceeds (cfg : Config) (t : TaskId) (d : Daemon P) (a : Act P) : Prop where
  writes : a = .task t (.wrote false) → ∀ s peer m, d.tasks[t]? = some s →
    s.phase ≠ .live peer (.writeAck m) ∧ s.phase ≠ .live peer (.writeDelta m)
  interval : cfg.heartbeatIntervalSecs = 0 → ∀ nonce epoch now s peer,
    a = .task t (.lock nonce epoch now) → d.tasks[t]? = some s → s.phase ≠ .live peer .enterLoop

/-- A session that ended has nothing registered. -/
def EndsClean (t : TaskId) (d : Daemon P) : Prop :=
  ∀ s left, d.tasks[t]? = some s → s.phase = .ended left → left = none

theorem endsClean_sessionMove {t : TaskId} {s : Session P} {e : TaskEvent P} {o : Outcome P}
    (hc : SetupSucceeds cfg t d (.task t e)) (hs : d.tasks[t]? = some s)
    (hm : SessionMove cfg cookie t d.state s e o) {left : Option (PeerId P)}
    (hleft : o.session.phase = .ended left) : left = none := by
  cases hm with
  | setupFailed hp hst =>
    obtain ⟨h₁, h₂⟩ := hc.writes rfl s _ _ hs
    rcases hst with rfl | rfl
    · exact absurd hp h₁
    · exact absurd hp h₂
  | panicked hp hz => exact absurd hp (hc.interval hz _ _ _ s _ rfl hs)
  | refused _ =>
    cases hleft
    rfl
  | cleaned _ =>
    cases hleft
    rfl
  | _ => cases hleft

theorem endsClean_step {t : TaskId} {sent : Option (TaskId × Message P)} (hi : EndsClean t d)
    (hc : SetupSucceeds cfg t d a) (h : d.step cfg cookie a = some (d', sent)) :
    EndsClean t d' := by
  intro s left hs hleft
  rcases session_step h hs with ⟨e, s₀, o, rfl, hs₀, hm, rfl⟩ | hold | ⟨-, hnew⟩
  · exact endsClean_sessionMove hc hs₀ hm hleft
  · exact hi s left hold hleft
  · rcases hnew with ⟨addr, rfl⟩ | ⟨-, rfl⟩
    · cases hleft
    · cases hleft

theorem endsClean_reach {t : TaskId} (h : (system P cfg cookie).Reach (SetupSucceeds cfg t) d) :
    EndsClean t d := by
  refine h.invariant (fun d hd s left hs => ?_) fun d a d' hi hc hs => ?_
  · simp [init_tasks hd] at hs
  · obtain ⟨_, hs⟩ := system_step hs
    exact endsClean_step hi hc hs

/-- A step of task `t` that does not meet the condition ends its session at once, without
a change of the shared state. -/
theorem sessionStep_of_not_setupSucceeds {t : TaskId} (hbad : ¬ SetupSucceeds cfg t d a)
    (hstep : d.step cfg cookie a = some (d', sent)) : ∃ s s' : Session P, d.tasks[t]? = some s ∧
      s'.phase.isEnded = true ∧ d' = { d with tasks := d.tasks.set t s' } := by
  have hcases : (∃ s peer m, a = .task t (.wrote false) ∧ d.tasks[t]? = some s ∧
        (s.phase = .live peer (.writeAck m) ∨ s.phase = .live peer (.writeDelta m))) ∨
      ∃ nonce epoch now s peer, cfg.heartbeatIntervalSecs = 0 ∧
        a = .task t (.lock nonce epoch now) ∧ d.tasks[t]? = some s ∧
        s.phase = .live peer .enterLoop := by
    by_contra hnone
    rw [not_or] at hnone
    refine hbad ⟨fun ha s peer m hs => ⟨fun hp => ?_, fun hp => ?_⟩,
      fun hz nonce epoch now s peer ha hs hp => ?_⟩
    · exact hnone.1 ⟨s, peer, m, ha, hs, .inl hp⟩
    · exact hnone.1 ⟨s, peer, m, ha, hs, .inr hp⟩
    · exact hnone.2 ⟨nonce, epoch, now, s, peer, hz, ha, hs, hp⟩
  have hended : ∀ (peer : PeerId P) {e : TaskEvent P} {s : Session P}, a = .task t e →
      d.tasks[t]? = some s → sessionStep cfg cookie t d.state s e =
        some ⟨d.state, s.goto (.ended (some peer)), none⟩ →
      ∃ s s' : Session P, d.tasks[t]? = some s ∧ s'.phase.isEnded = true ∧
        d' = { d with tasks := d.tasks.set t s' } := by
    rintro peer e s rfl hs ho
    rw [step_of_sessionStep hs ho] at hstep
    cases hstep
    exact ⟨s, _, hs, rfl, rfl⟩
  rcases hcases with ⟨s, peer, m, ha, hs, hp⟩ | ⟨nonce, epoch, now, s, peer, hz, ha, hs, hp⟩
  · refine hended peer ha hs ?_
    rcases hp with hp | hp <;> simp only [sessionStep, hp, stageStep]
  · refine hended peer ha hs ?_
    simp only [sessionStep, hp, stageStep, hz, if_true]

/-- A session whose setup goes through leaves no handle behind, whatever its other reads
and writes do; and a step that breaks the setup of a session with a handle does leave it. -/
theorem noHandleLeft_iff_setupSucceeds (cfg : Config) (cookie : Bytes) (t : TaskId) :
    (∀ d : Daemon P, (system P cfg cookie).Reach (SetupSucceeds cfg t) d → NoHandleLeft t d) ∧
    (∀ (d d' : Daemon P) (a : Act P), (system P cfg cookie).Reach System.any d →
      ¬ SetupSucceeds cfg t d a → (∃ k, d.state.owner k = some t) →
      (system P cfg cookie).step d a = some d' → ¬ NoHandleLeft t d') := by
  constructor
  · intro d hr s hs hend k hk
    obtain ⟨peer, hp, -⟩ := handlesOwned_reach hr k t hk
    rw [registered_of_phase hs] at hp
    cases hphase : s.phase with
    | ended left =>
      rw [hphase, endsClean_reach hr s left hs hphase] at hp
      cases hp
    | _ => simp [hphase, Phase.isEnded] at hend
  · rintro d d' a - hbad ⟨k, hk⟩ hstep hleft
    obtain ⟨sent, hstep⟩ := system_step hstep
    obtain ⟨s, s', hs, hend, rfl⟩ := sessionStep_of_not_setupSucceeds hbad hstep
    have hlt : t < d.tasks.length := (List.getElem?_eq_some_iff.mp hs).1
    exact hleft s' (List.getElem?_set_self hlt) hend k hk

section
open Reference

/-- The `HandshakeAck` cannot be written: the session is over and node `b` stays
in the map. -/
theorem ackFails_handleLeft :
    ¬ ∀ (t : TaskId) (d : Daemon platform), daemons.Reach System.any d → NoHandleLeft t d := by
  have heval : (daemon.bind fun d => (daemons.guard fun _ _ => true).run d
      (inboundRegisters 0 ++ [.task 0 (.wrote false)])).any
        (fun d => hasEnded 0 d && d.state.owner "b" == some 0) = true := by
    decide +kernel
  obtain ⟨d, hr, hp⟩ := System.Reach.of_eval (C := System.any) heval (fun _ _ _ => trivial)
    daemon_init
  intro hall
  rw [Bool.and_eq_true, beq_iff_eq] at hp
  obtain ⟨s, hs, hend⟩ := (Option.any_eq_true _ _).mp hp.1
  exact hall 0 d hr s hs hend "b" hp.2

def writesSucceed : Act platform → Bool
  | .task _ (.wrote false) => false
  | _ => true

/-- A session that gets through its setup, loses its link and cleans up. -/
theorem noHandleLeft_linkLost : ∃ d : Daemon platform,
    daemons.Reach (SetupSucceeds config 0) d ∧ hasEnded 0 d = true ∧ NoHandleLeft 0 d := by
  have heval : (daemon.bind fun d => (daemons.guard fun _ => writesSucceed).run d
      (inboundRegisters 0 ++ [.task 0 (.wrote true), .task 0 locked,
        .task 0 (.wrote true), .task 0 locked, .task 0 (.read .eof), .task 0 locked])).any
        (hasEnded 0) = true := by
    decide +kernel
  have hguard : ∀ (d : Daemon platform) (a : Act platform), writesSucceed a = true →
      SetupSucceeds config 0 d a := by
    refine fun d a ha => ⟨fun hwrote => ?_, fun hz => absurd hz (by decide)⟩
    simp [writesSucceed, hwrote] at ha
  obtain ⟨d, hr, hp⟩ := System.Reach.of_eval (C := SetupSucceeds config 0) heval hguard daemon_init
  exact ⟨d, hr, hp, (noHandleLeft_iff_setupSucceeds config Reference.cookie 0).1 d hr⟩

end

/-! ## One session per peer -/

/-- At most one session per node id has not run its cleanup; a session about to
clean up owns the handle it will remove, and no other session is registered for
the node it will tombstone. -/
structure OneSessionPerPeer (d : Daemon P) : Prop where
  unique : ∀ t u peer peer', d.registered t = some peer → d.registered u = some peer' →
    peer.nodeId = peer'.nodeId → t = u
  ownHandle : ∀ t s peer, d.tasks[t]? = some s → s.phase = .live peer .cleanup →
    d.state.owner peer.nodeId = some t
  othersApart : ∀ t s peer, d.tasks[t]? = some s → s.phase = .live peer .cleanup →
    ∀ u peer', u ≠ t → d.registered u = some peer' → peer'.nodeId ≠ peer.nodeId

/-- The Leave being processed drops no entry: its address is not the one any
connected peer advertised. -/
def LeaveDropsNothing (d : Daemon P) (a : Act P) : Prop :=
  a = .leave → ∀ addr rest, d.main = .leaving (addr :: rest) →
    ∀ k h, d.state.peers.lookup k = some h → P.printAddr h.id.addr ≠ addr

theorem sessionsOwn_step (hi : SessionsOwn d) (hc : LeaveDropsNothing d a)
    (h : HandleMove d d' a) : SessionsOwn d' := by
  intro t peer ht
  cases h with
  | same ho hr =>
    rw [hr] at ht
    rw [ho]
    exact hi t peer ht
  | registered hnew hfree ho hr =>
    rw [hr] at ht
    rw [ho]
    split at ht
    · rename_i htu
      cases ht
      rw [if_pos rfl, htu]
    · have hne : peer.nodeId ≠ _ := fun heq => by
        have := hi t peer ht
        rw [heq, hnew] at this
        cases this
      rw [if_neg hne]
      exact hi t peer ht
  | cleaned hreg ho hr =>
    rw [hr] at ht
    rw [ho]
    split at ht
    · cases ht
    · rename_i htu
      have hne : peer.nodeId ≠ _ := fun heq => by
        have hown := hi t peer ht
        rw [heq, hi _ _ hreg] at hown
        cases hown
        exact htu rfl
      rw [if_neg hne]
      exact hi t peer ht
  | left hmain hd hr =>
    rw [hr] at ht
    have hown := hi t peer ht
    rw [hd, DaemonState.owner, DaemonState.lookup_leave]
    rw [DaemonState.owner] at hown
    obtain ⟨h, hl, hg⟩ := Option.map_eq_some_iff.mp hown
    have hkeep := hc rfl _ _ hmain _ h hl
    simp [hl, Option.filter, hkeep, hg]

theorem sessionsOwn_reach (h : (system P cfg cookie).Reach LeaveDropsNothing d) :
    SessionsOwn d := by
  refine h.invariant (fun d hd t peer ht => ?_) fun d a d' hi hc hs => ?_
  · simp [registered, init_tasks hd] at ht
  · obtain ⟨_, hs⟩ := system_step hs
    exact sessionsOwn_step hi hc (step_handles hs)

theorem SessionsOwn.oneSessionPerPeer (h : SessionsOwn d) : OneSessionPerPeer d := by
  have hunique : ∀ t u peer peer', d.registered t = some peer → d.registered u = some peer' →
      peer.nodeId = peer'.nodeId → t = u := by
    intro t u peer peer' ht hu heq
    have hown := h t peer ht
    rw [heq, h u peer' hu] at hown
    cases hown
    rfl
  have hclean : ∀ {t s peer}, d.tasks[t]? = some s → s.phase = .live peer .cleanup →
      d.registered t = some peer := by
    intro t s peer hs hp
    rw [registered_of_phase hs, hp]
    rfl
  exact ⟨hunique, fun t s peer hs hp => h t peer (hclean hs hp),
    fun t s peer hs hp u peer' hne hu heq => hne (hunique u t _ _ hu (hclean hs hp) heq)⟩

/-- The system is running: its listen address is known. -/
theorem reach_listenAddr {C : Daemon P → Act P → Prop} (h : (system P cfg cookie).Reach C d) :
    ∃ l, cfg.listenAddr P = some l := by
  obtain ⟨_, ⟨_, _, _, _, h⟩, -⟩ := h
  exact (start_eq_some h).1

theorem step_task {t : TaskId} {s : Session P} {e : TaskEvent P} {o : Outcome P}
    (hs : d.tasks[t]? = some s) (ho : sessionStep cfg cookie t d.state s e = some o) :
    (system P cfg cookie).step d (.task t e) =
      some { d with state := o.state, tasks := d.tasks.set t o.session } := by
  exact congrArg (Option.map Prod.fst) (step_of_sessionStep hs ho)

/-- A node without an entry can always open a session: it connects, greets and
is registered. -/
theorem run_inbound (cookie : Bytes) {peer : PeerId P} {l : P.Addr}
    (hnew : peer.nodeId ∉ d.state.peers) (hl : cfg.listenAddr P = some l) (nonce : Nonce) :
    ∃ d', (system P cfg cookie).run d [.accept,
        .task d.tasks.length (.read (.message (greeting cookie peer nonce))),
        .task d.tasks.length (.lock nonce none 0)] = some d' ∧
      d'.registered d.tasks.length = some peer ∧
      ∀ u, u ≠ d.tasks.length → d'.registered u = d.registered u := by
  let d₁ : Daemon P := { d with tasks := d.tasks ++ [Session.accepted] }
  have hlast : d₁.tasks[d.tasks.length]? = some Session.accepted := List.getElem?_concat_length
  let d₂ : Daemon P := { d₁ with
    tasks := d₁.tasks.set d.tasks.length (Session.accepted.goto (.opening (.register peer ⊥))) }
  have h₂ : (system P cfg cookie).step d₁ (.task d.tasks.length
      (.read (.message (greeting cookie peer nonce)))) = some d₂ :=
    step_task hlast (sessionStep_handshake rfl (checkHandshake_greeting peer nonce))
  have hset : d₂.tasks[d.tasks.length]? =
      some (Session.accepted.goto (.opening (.register peer ⊥))) :=
    List.getElem?_set_self (List.getElem?_eq_some_iff.mp hlast).1
  have h₃ : (system P cfg cookie).step d₂ (.task d.tasks.length (.lock nonce none 0)) = some _ :=
    step_task hset (sessionStep_register_inbound rfl rfl hnew hl)
  have h₁ : (system P cfg cookie).step d .accept = some d₁ := rfl
  refine ⟨_, System.run_step h₁ (System.run_step h₂ (System.run_step h₃ rfl)), ?_, fun u hu => ?_⟩
  · rw [registered_set hset, if_pos rfl]
    rfl
  · rw [registered_set hset, if_neg hu, registered_set hlast, if_neg hu]
    exact registered_append (by simp [Session.accepted, Phase.registered]) u

theorem step_leave {text : String} {rest : List String} (hmain : d.main = .leaving (text :: rest))
    (hstep : (system P cfg cookie).step d .leave = some d') :
    d' = { d with state := d.state.leave text, main := .leaving rest } := by
  simp only [system, step, mainStep, hmain, Option.map_some, Option.some.injEq] at hstep
  exact hstep.symm

/-- While no Leave drops an entry there is one session per peer. A Leave that
does drop one opens the way to two: the running session keeps its registration,
and the node can register again. -/
theorem oneSessionPerPeer_iff_leaveDropsNothing (cfg : Config) (cookie : Bytes) :
    (∀ d : Daemon P, (system P cfg cookie).Reach LeaveDropsNothing d → OneSessionPerPeer d) ∧
    (∀ d d' : Daemon P, (system P cfg cookie).Reach System.any d →
      ¬ LeaveDropsNothing d .leave → (system P cfg cookie).step d .leave = some d' →
      ∃ e, (system P cfg cookie).Leads System.any d' e ∧ ¬ OneSessionPerPeer e) := by
  refine ⟨fun d hr => (sessionsOwn_reach hr).oneSessionPerPeer, ?_⟩
  intro d d' hr hdrop hstep
  simp only [LeaveDropsNothing, forall_const, not_forall, not_not] at hdrop
  obtain ⟨addr, rest, hmain, k, h, hl, haddr⟩ := hdrop
  obtain ⟨listen, hlisten⟩ := reach_listenAddr hr
  obtain ⟨peer, hpeer, hkey⟩ := handlesOwned_reach hr k h.gossipTx
    (by rw [DaemonState.owner, hl]; rfl)
  have hd' := step_leave hmain hstep
  have hgone : peer.nodeId ∉ d'.state.peers := by
    rw [← AList.lookup_eq_none, hd', hkey, DaemonState.lookup_leave, hl]
    simp [Option.filter, haddr]
  obtain ⟨e, hrun, hnew, hold⟩ := run_inbound cookie hgone hlisten (Vector.replicate 32 0)
  refine ⟨e, .of_run hrun (System.meets_any _ _), fun hone => ?_⟩
  have hlt : h.gossipTx < d'.tasks.length := by
    rw [registered] at hpeer
    obtain ⟨s, hs, -⟩ := Option.bind_eq_some_iff.mp hpeer
    rw [hd']
    exact (List.getElem?_eq_some_iff.mp hs).1
  have hsame : e.registered h.gossipTx = some peer := by
    rw [hold _ (Nat.ne_of_lt hlt), hd', ← hpeer]
    rfl
  exact absurd (hone.unique _ _ _ _ hsame hnew rfl) (Nat.ne_of_lt hlt)

section
open Reference

/-- Node `b` is connected, a Leave drops its handle and it connects again. The
session of the first connection then ends and takes the second one's handle. -/
theorem leave_twoSessions :
    ¬ ∀ d : Daemon platform, daemons.Reach System.any d → OneSessionPerPeer d := by
  have heval : (daemon.bind fun d => (daemons.guard fun _ _ => true).run d
      (inboundRegisters 0 ++ [.task 0 (.wrote true), .task 0 locked, .task 0 (.wrote true),
        .task 0 locked, .request (.leave "10.0.0.2:4369"), .tick, .drain, .leave] ++
        inboundRegisters 1 ++ [.task 0 (.read .eof)])).any
        (fun d => (d.registered 0).any (·.nodeId = "b") && (d.registered 1).any (·.nodeId = "b"))
          = true := by
    decide +kernel
  obtain ⟨d, hr, hp⟩ := System.Reach.of_eval (C := System.any) heval (fun _ _ _ => trivial)
    daemon_init
  intro hall
  rw [Bool.and_eq_true] at hp
  obtain ⟨p₀, h₀, hb₀⟩ := (Option.any_eq_true _ _).mp hp.1
  obtain ⟨p₁, h₁, hb₁⟩ := (Option.any_eq_true _ _).mp hp.2
  have heq := (hall d hr).unique 0 1 p₀ p₁ h₀ h₁
    ((of_decide_eq_true hb₀).trans (of_decide_eq_true hb₁).symm)
  cases heq

def isNotLeave : Act platform → Bool
  | .leave => false
  | _ => true

/-- A session about to clean up, and no Leave. -/
theorem oneSessionPerPeer_linkLost : ∃ d : Daemon platform,
    daemons.Reach LeaveDropsNothing d ∧ (d.registered 0).isSome = true ∧ OneSessionPerPeer d := by
  have heval : (daemon.bind fun d => (daemons.guard fun _ => isNotLeave).run d
      (inboundRegisters 0 ++ [.task 0 (.wrote true), .task 0 locked,
        .task 0 (.wrote true), .task 0 locked, .task 0 (.read .eof)])).any
        (fun d => (d.registered 0).isSome) = true := by
    decide +kernel
  obtain ⟨d, hr, hp⟩ := System.Reach.of_eval (C := LeaveDropsNothing) heval
    (fun d a ha hleave => by simp [isNotLeave, hleave] at ha) daemon_init
  exact ⟨d, hr, hp, (oneSessionPerPeer_iff_leaveDropsNothing config Reference.cookie).1 d hr⟩

end

end Daemon
end Pmd
