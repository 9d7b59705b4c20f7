import Pmd.Daemon.Handles

/-!
# What a Leave does to the session

`process_tick` answers a Leave by dropping the map entries that advertise the
address. The session task is not told: it stays in its loop, still writes frames
and still merges what it reads. Only a session whose loop had already finished
on its own stays silent.
-/
namespace Pmd
open Foundation

variable {P : Platform}

namespace Daemon

section Definitions
variable (cfg : Config) (cookie : Bytes) (t : TaskId)

/-- The next step of task `t` can write a frame. -/
def CanWrite (d : Daemon P) : Prop :=
  ∃ e d' m, d.step cfg cookie (.task t e) = some (d', some (t, m))

/-- The next step of task `t` can merge `δ` into the document. -/
def CanMerge (δ : P.crdt.Delta) (d : Daemon P) : Prop :=
  ∃ e d' sent, d.step cfg cookie (.task t e) = some (d', sent) ∧
    d'.doc = P.crdt.mergeDelta d.doc δ

/-- The session is closed: in every later state the map has no entry of it, it
writes no frame and no message it received changes the document. -/
def Closed (d : Daemon P) : Prop :=
  ∀ d₁, (system P cfg cookie).Leads System.any d d₁ →
    (∀ k, d₁.state.owner k ≠ some t) ∧
    ∀ e d₂ sent, d₁.step cfg cookie (.task t e) = some (d₂, sent) → sent = none ∧
      ∀ s peer m, d₁.tasks[t]? = some s → s.phase = .live peer (.handle m) → d₂.doc = d₁.doc

end Definitions

/-- Stages from which the session leaves its loop whatever comes next: waiting to
clean up, or holding a sync that does not decode. -/
def LoopFinished : Stage P → Prop
  | .cleanup => True
  | .handle (.membershipSync b _) => P.crdt.decode b = none
  | _ => False

/-- The session checks a detector that is above the threshold at every instant. -/
def PhiFails (cfg : Config) (d : Daemon P) (peer : PeerId P) (stage : Stage P) : Prop :=
  stage = .phiCheck ∧ ∀ now, ((d.state.peers.lookup peer.nodeId).any fun h =>
    P.phiExceeds h.phiDetector now cfg.phiThreshold) = true

/-- It checks the detector of another session's handle, and that one is above the
threshold at every instant. -/
def ForeignPhiFails (cfg : Config) (t : TaskId) (d : Daemon P) (peer : PeerId P) (stage : Stage P) :
    Prop :=
  stage = .phiCheck ∧ ∃ h, d.state.peers.lookup peer.nodeId = some h ∧ h.gossipTx ≠ t ∧
    ∀ now, P.phiExceeds h.phiDetector now cfg.phiThreshold = true

/-- The entries of task `t` advertise the address `text`. -/
def Advertises (d : Daemon P) (t : TaskId) (text : String) : Prop :=
  ∀ k h, d.state.peers.lookup k = some h → h.gossipTx = t → P.printAddr h.id.addr = text

section Continue
variable {cfg : Config} {cookie : Bytes} {t : TaskId} {d d' : Daemon P} {s : Session P}
  {peer : PeerId P}

theorem leads_task {e : TaskEvent P} {o : Outcome P} (hs : d.tasks[t]? = some s)
    (ho : sessionStep cfg cookie t d.state s e = some o) :
    ∃ d', (system P cfg cookie).Leads System.any d d' ∧ d'.tasks[t]? = some o.session ∧
      d'.state = o.state := by
  refine ⟨_, .single ⟨_, trivial, step_task hs ho⟩, ?_, rfl⟩
  exact List.getElem?_set_self (List.getElem?_eq_some_iff.mp hs).1

theorem canWrite_of_outgoing {m : Message P} (hs : d.tasks[t]? = some s)
    (hm : s.phase.outgoing = some m) : CanWrite cfg cookie t d := by
  obtain ⟨o, ho, hsent⟩ : ∃ o, sessionStep cfg cookie t d.state s (.wrote true) = some o ∧
      o.sent = some m := by
    rw [Phase.outgoing.eq_def] at hm
    split at hm
    all_goals
      cases hm
      try
        rename_i hp
        simp only [sessionStep, hp]
        exact ⟨_, rfl, rfl⟩
  have hstep := step_of_sessionStep hs ho
  rw [hsent] at hstep
  exact ⟨.wrote true, _, m, hstep⟩

/-- In its `select!` a session can always send a heartbeat. -/
theorem canWrite_of_select (cfg : Config) (cookie : Bytes) (hs : d.tasks[t]? = some s)
    (hp : s.phase = .live peer .select) :
    ∃ d', (system P cfg cookie).Leads System.any d d' ∧ CanWrite cfg cookie t d' := by
  have ho : sessionStep cfg cookie t d.state s .heartbeatBranch =
      some ⟨d.state, s.goto (.live peer (.write .heartbeat)), none⟩ := by
    simp only [sessionStep, hp, stageStep]
  obtain ⟨d', hl, hs', -⟩ := leads_task hs ho
  exact ⟨d', hl, canWrite_of_outgoing (m := .heartbeat) hs' rfl⟩

/-- In its `select!` a session takes any sync that decodes. -/
theorem canMerge_of_select (cfg : Config) (cookie : Bytes) {b : P.crdt.Encoded}
    {δ : P.crdt.Delta} (v : VersionVector String)
    (hb : P.crdt.decode b = some δ) (hs : d.tasks[t]? = some s)
    (hp : s.phase = .live peer .select) :
    ∃ d', (system P cfg cookie).Leads System.any d d' ∧ CanMerge cfg cookie t δ d' := by
  have ho : sessionStep cfg cookie t d.state s (.read (.message (.membershipSync b v))) =
      some ⟨d.state, s.goto (.live peer (.handle (.membershipSync b v))), none⟩ := by
    simp only [sessionStep, hp, stageStep, receiveStep]
  obtain ⟨d', hl, hs', -⟩ := leads_task hs ho
  have hmerge : ∃ st', d'.state.mergeSync peer.nodeId b v = some st' ∧
      st'.membership.doc = P.crdt.mergeDelta d'.doc δ := by
    simp [DaemonState.mergeSync, Membership.mergeRemote, hb, DaemonState.broadcastEvents]
  obtain ⟨st', hm, hdoc⟩ := hmerge
  have ho' : sessionStep cfg cookie t d'.state
      (s.goto (.live peer (.handle (.membershipSync b v)))) (.lock (Vector.replicate 32 0) none 0) =
        some ⟨st', { s with phase := .live peer .select, merged := s.merged + 1 }, none⟩ := by
    simp only [sessionStep, Session.goto_phase, stageStep, handleStep, hm]
    rfl
  exact ⟨d', hl, _, _, _, step_of_sessionStep hs' ho', hdoc⟩

/-- Task `t` can come back to the `select!` of its loop. -/
def Returns (cfg : Config) (cookie : Bytes) (t : TaskId) (peer : PeerId P) (d : Daemon P) : Prop :=
  ∃ d' s', (system P cfg cookie).Leads System.any d d' ∧ d'.tasks[t]? = some s' ∧
    s'.phase = .live peer .select

theorem Returns.of_select (hs : d.tasks[t]? = some s) (hp : s.phase = .live peer .select) :
    Returns cfg cookie t peer d :=
  ⟨d, s, .refl, hs, hp⟩

theorem Returns.of_step {e : TaskEvent P} {o : Outcome P} (hs : d.tasks[t]? = some s)
    (ho : sessionStep cfg cookie t d.state s e = some o)
    (hnext : ∀ d' : Daemon P, d'.tasks[t]? = some o.session → Returns cfg cookie t peer d') :
    Returns cfg cookie t peer d := by
  obtain ⟨d', hl, hs', -⟩ := leads_task hs ho
  obtain ⟨d'', s'', hl', hs'', hsel⟩ := hnext d' hs'
  exact ⟨d'', s'', hl.trans hl', hs'', hsel⟩

theorem returns_of_write {m : Message P} (hs : d.tasks[t]? = some s)
    (hp : s.phase = .live peer (.write m)) : Returns cfg cookie t peer d :=
  .of_step (e := .wrote true) hs (by simp only [sessionStep, hp, stageStep]; rfl)
    fun _ hs' => .of_select hs' rfl

theorem returns_of_handle {m : Message P} (hs : d.tasks[t]? = some s)
    (hp : s.phase = .live peer (.handle m)) (hloop : ¬ LoopFinished (.handle m)) :
    Returns cfg cookie t peer d := by
  have hout : (handleStep d.state s peer none 0 m).session.phase = .live peer .select := by
    cases m with
    | membershipSync b v =>
      cases hb : P.crdt.decode b with
      | none => exact absurd hb hloop
      | some δ => simp [handleStep, DaemonState.mergeSync, Membership.mergeRemote, hb]
    | _ => rfl
  exact .of_step (e := .lock (Vector.replicate 32 0) none 0) hs
    (by simp only [sessionStep, hp, stageStep]) fun _ hs' => .of_select hs' hout

section Running
variable (hcfg : 0 < cfg.heartbeatIntervalSecs)
include hcfg

theorem returns_of_enterLoop (hs : d.tasks[t]? = some s) (hp : s.phase = .live peer .enterLoop) :
    Returns cfg cookie t peer d :=
  .of_step (e := .lock (Vector.replicate 32 0) none 0) hs
    (by simp only [sessionStep, hp, stageStep, if_neg hcfg.ne']; rfl)
    fun _ hs' => .of_select hs' rfl

theorem returns_of_writeDelta {m : Message P} (hs : d.tasks[t]? = some s)
    (hp : s.phase = .live peer (.writeDelta m)) : Returns cfg cookie t peer d :=
  .of_step (e := .wrote true) hs (by simp only [sessionStep, hp, stageStep]; rfl)
    fun _ hs' => returns_of_enterLoop hcfg hs' rfl

theorem returns_of_buildDelta (hs : d.tasks[t]? = some s)
    (hp : s.phase = .live peer .buildDelta) : Returns cfg cookie t peer d :=
  .of_step (e := .lock (Vector.replicate 32 0) none 0) hs
    (by simp only [sessionStep, hp, stageStep]; rfl) fun _ hs' => returns_of_writeDelta hcfg hs' rfl

/-- A session that has not finished its loop can come back to its `select!`. -/
theorem returns_of_loop {stage : Stage P} (hs : d.tasks[t]? = some s)
    (hp : s.phase = .live peer stage) (hloop : ¬ LoopFinished stage)
    (hphi : ¬ PhiFails cfg d peer stage) : Returns cfg cookie t peer d := by
  cases stage with
  | writeAck m =>
    exact .of_step (e := .wrote true) hs (by simp only [sessionStep, hp, stageStep]; rfl)
      fun _ hs' => returns_of_buildDelta hcfg hs' rfl
  | buildDelta => exact returns_of_buildDelta hcfg hs hp
  | writeDelta m => exact returns_of_writeDelta hcfg hs hp
  | enterLoop => exact returns_of_enterLoop hcfg hs hp
  | select => exact .of_select hs hp
  | write m => exact returns_of_write hs hp
  | phiCheck =>
    simp only [PhiFails, true_and, not_forall] at hphi
    obtain ⟨now, hnow⟩ := hphi
    exact .of_step (e := .lock (Vector.replicate 32 0) none now) hs
      (by simp only [sessionStep, hp, stageStep, if_neg hnow]; rfl) fun _ hs' => .of_select hs' rfl
  | gossip =>
    cases hh : d.state.peers.lookup peer.nodeId with
    | none =>
      exact .of_step (e := .lock (Vector.replicate 32 0) none 0) hs
        (by simp only [sessionStep, hp, stageStep, hh]; rfl) fun _ hs' => .of_select hs' rfl
    | some h =>
      exact .of_step (e := .lock (Vector.replicate 32 0) none 0) hs
        (by simp only [sessionStep, hp, stageStep, hh]; rfl) fun _ hs' => returns_of_write hs' rfl
  | handle m => exact returns_of_handle hs hp hloop
  | cleanup => exact absurd trivial hloop

end Running
end Continue

section Silent
variable {cfg : Config} {cookie : Bytes} {t : TaskId} {d d' : Daemon P} {a : Act P}

/-- Task `t` has finished its loop and the map has no entry of it. -/
def Silent (t : TaskId) (d : Daemon P) : Prop :=
  (∃ s, d.tasks[t]? = some s ∧
    ((∃ peer stage, s.phase = .live peer stage ∧ LoopFinished stage) ∨ s.phase = .ended none)) ∧
  ∀ k, d.state.owner k ≠ some t

/-- The steps left to a finished session: give up its sync, then clean up. -/
theorem sessionStep_finished {st : DaemonState P} {s : Session P} {peer : PeerId P}
    {stage : Stage P} {e : TaskEvent P} {o : Outcome P} (hp : s.phase = .live peer stage)
    (hf : LoopFinished stage) (ho : sessionStep cfg cookie t st s e = some o) :
    (stage = .cleanup ∧ o = ⟨st.cleanup peer, s.goto (.ended none), none⟩) ∨
      o = ⟨st, s.goto (.live peer .cleanup), none⟩ := by
  rw [sessionStep, hp] at ho
  cases stage with
  | cleanup =>
    cases e with
    | lock => exact .inl ⟨rfl, (Option.some.inj ho).symm⟩
    | _ => cases ho
  | handle m =>
    cases m with
    | membershipSync b v =>
      have hm : st.mergeSync peer.nodeId b v = none := by
        rw [LoopFinished] at hf
        simp [DaemonState.mergeSync, Membership.mergeRemote, hf]
      cases e with
      | lock =>
        simp only [stageStep, handleStep, hm] at ho
        exact .inr (Option.some.inj ho).symm
      | _ => cases ho
    | _ => cases hf
  | _ => cases hf

theorem silent_step {sent : Option (TaskId × Message P)} (hi : Silent t d)
    (h : d.step cfg cookie a = some (d', sent)) : Silent t d' := by
  obtain ⟨⟨s, hs, hphase⟩, hown⟩ := hi
  by_cases ha : ∃ e, a = .task t e
  · obtain ⟨e, rfl⟩ := ha
    obtain ⟨s', o, hs', -, ho, rfl, -⟩ := taskStep_eq_some h
    rw [hs, Option.some.injEq] at hs'
    subst hs'
    have hset : (d.tasks.set t o.session)[t]? = some o.session :=
      List.getElem?_set_self (List.getElem?_eq_some_iff.mp hs).1
    rcases hphase with ⟨peer, stage, hp, hf⟩ | hp
    · rcases sessionStep_finished hp hf ho with ⟨-, rfl⟩ | rfl
      · refine ⟨⟨_, hset, .inr rfl⟩, fun k => ?_⟩
        rw [DaemonState.owner_cleanup]
        split
        · simp
        · exact hown k
      · exact ⟨⟨_, hset, .inl ⟨peer, .cleanup, rfl, trivial⟩⟩, hown⟩
    · simp [sessionStep, hp] at ho
  · have hs' := tasks_of_step (fun e he => ha ⟨e, he⟩) hs h
    refine ⟨⟨s, hs', hphase⟩, fun k hk => ?_⟩
    cases step_handles h with
    | same ho _ => exact hown k (by rw [← ho, hk])
    | registered _ _ ho _ =>
      rw [ho] at hk
      split at hk
      · cases hk
        exact ha ⟨_, rfl⟩
      · exact hown k hk
    | cleaned _ ho _ =>
      rw [ho] at hk
      split at hk
      · cases hk
      · exact hown k hk
    | left _ hd _ =>
      rw [hd] at hk
      rcases DaemonState.owner_leave d.state k _ with hl | hl
      · rw [hl] at hk
        cases hk
      · exact hown k (by rw [← hl, hk])

theorem Silent.closed (h : Silent t d) : Closed cfg cookie t d := by
  intro d₁ hl
  have hi : Silent t d₁ := by
    refine hl.preserves (fun d a d' hi _ hs => ?_) h
    obtain ⟨_, hs⟩ := system_step hs
    exact silent_step hi hs
  obtain ⟨⟨s, hs, hphase⟩, hown⟩ := hi
  refine ⟨hown, fun e d₂ sent hstep => ?_⟩
  obtain ⟨s', o, hs', -, ho, rfl, rfl⟩ := taskStep_eq_some hstep
  rw [hs, Option.some.injEq] at hs'
  subst hs'
  rcases hphase with ⟨peer, stage, hp, hf⟩ | hp
  · rcases sessionStep_finished hp hf ho with ⟨rfl, rfl⟩ | rfl
    · refine ⟨rfl, fun s' peer' m hs' hp' => ?_⟩
      rw [hs, Option.some.injEq] at hs'
      subst hs'
      rw [hp] at hp'
      cases hp'
    · exact ⟨rfl, fun _ _ _ _ _ => rfl⟩
  · simp [sessionStep, hp] at ho

end Silent

section Leave
variable {cfg : Config} {cookie : Bytes} {t : TaskId} {d d' : Daemon P} {s : Session P}
  {peer : PeerId P} {stage : Stage P} {text : String} {rest : List String}

theorem not_phiFails_leave (hphi : ¬ PhiFails cfg d peer stage) (text : String)
    (main : MainPc) : ¬ PhiFails cfg { d with state := d.state.leave text, main := main } peer
      stage := by
  rintro ⟨hst, hall⟩
  refine hphi ⟨hst, fun now => ?_⟩
  have h := hall now
  rw [DaemonState.lookup_leave] at h
  cases hl : d.state.peers.lookup peer.nodeId with
  | none => simp [hl] at h
  | some handle =>
    rw [hl] at h
    by_cases ha : P.printAddr handle.id.addr = text
    · simp [Option.filter, ha] at h
    · simpa [Option.filter, ha] using h

theorem not_closed_of_canWrite
    (h : ∃ d₁, (system P cfg cookie).Leads System.any d d₁ ∧ CanWrite cfg cookie t d₁) :
    ¬ Closed cfg cookie t d := by
  obtain ⟨d₁, hl, e, d₂, m, hstep⟩ := h
  intro hc
  cases ((hc d₁ hl).2 e d₂ _ hstep).1

theorem goesOn_of_returns (h : Returns cfg cookie t peer d) :
    (∃ d₁, (system P cfg cookie).Leads System.any d d₁ ∧ CanWrite cfg cookie t d₁) ∧
      ∀ b δ, P.crdt.decode b = some δ →
        ∃ d₁, (system P cfg cookie).Leads System.any d d₁ ∧ CanMerge cfg cookie t δ d₁ := by
  obtain ⟨d₁, s₁, hl, hs₁, hsel⟩ := h
  refine ⟨?_, fun b δ hb => ?_⟩
  · obtain ⟨d₂, hl₂, hw⟩ := canWrite_of_select cfg cookie hs₁ hsel
    exact ⟨d₂, hl.trans hl₂, hw⟩
  · obtain ⟨d₂, hl₂, hm⟩ := canMerge_of_select cfg cookie ⊥ hb hs₁ hsel
    exact ⟨d₂, hl.trans hl₂, hm⟩

/-- Processing a Leave closes a running session if its loop had already finished
and every entry of it advertises the address. Otherwise the session is not closed,
leaving aside that it is about to judge the detector of another session's handle.
One still in its loop goes on: it can write frames and merge any sync. -/
theorem leave_closed_iff (hs : d.tasks[t]? = some s) (hp : s.phase = .live peer stage)
    (hmain : d.main = .leaving (text :: rest)) (hcfg : 0 < cfg.heartbeatIntervalSecs)
    (hstep : (system P cfg cookie).step d .leave = some d') :
    (LoopFinished stage ∧ Advertises d t text → Closed cfg cookie t d') ∧
    (¬ ForeignPhiFails cfg t d peer stage →
      Closed cfg cookie t d' → LoopFinished stage ∧ Advertises d t text) ∧
    (¬ PhiFails cfg d peer stage → ¬ LoopFinished stage →
      (∃ d₁, (system P cfg cookie).Leads System.any d' d₁ ∧ CanWrite cfg cookie t d₁) ∧
      ∀ b δ, P.crdt.decode b = some δ →
        ∃ d₁, (system P cfg cookie).Leads System.any d' d₁ ∧ CanMerge cfg cookie t δ d₁) := by
  have hd' := step_leave hmain hstep
  have hs' : d'.tasks[t]? = some s := by rw [hd', hs]
  refine ⟨fun hdone => ?_, fun hphi hc => ⟨?_, fun k h hk ht => ?_⟩, fun hphi hloop => ?_⟩
  · obtain ⟨hf, hmatch⟩ := hdone
    refine Silent.closed ⟨⟨s, hs', .inl ⟨peer, stage, hp, hf⟩⟩, fun k hk => ?_⟩
    rw [hd', DaemonState.owner, DaemonState.lookup_leave] at hk
    obtain ⟨h, hfil, ht⟩ := Option.map_eq_some_iff.mp hk
    obtain ⟨hl, hne⟩ := Option.filter_eq_some_iff.mp hfil
    simp [hmatch k h hl ht] at hne
  · by_contra hloop
    by_cases hfails : PhiFails cfg d' peer stage
    · refine hphi ?_
      obtain ⟨h, hh, -⟩ := (Option.any_eq_true _ _).mp (hfails.2 0)
      have hne : h.gossipTx ≠ t := fun ht =>
        (hc d' .refl).1 peer.nodeId (by rw [DaemonState.owner, hh, Option.map_some, ht])
      have hall : ∀ now, P.phiExceeds h.phiDetector now cfg.phiThreshold = true := fun now => by
        have hany := hfails.2 now
        rwa [hh] at hany
      rw [hd', DaemonState.lookup_leave] at hh
      exact ⟨hfails.1, h, (Option.filter_eq_some_iff.mp hh).1, hne, hall⟩
    · exact not_closed_of_canWrite
        (goesOn_of_returns (returns_of_loop hcfg hs' hp hloop hfails)).1 hc
  · by_contra hne
    refine (hc d' .refl).1 k ?_
    rw [hd', DaemonState.owner, DaemonState.lookup_leave, hk]
    simp [Option.filter, hne, ht]
  · exact goesOn_of_returns
      (returns_of_loop hcfg hs' hp hloop (hd' ▸ not_phiFails_leave hphi text _))

end Leave

section
open Reference

/-- A session dialled by a Join, in its loop, when the Leave of the same address
is about to be processed. -/
def joinThenLeave : List (Act platform) :=
  [.request (.join "10.0.0.2:4369"), .tick, .drain, .leave, .task 0 (.connected nonce),
    .task 0 (.wrote true), .task 0 (.read (.message (.handshakeAck "b" (addr 2) nonce
      (computeCookieHmac platform Reference.cookie nonce) ⊥ CARGO_PKG_VERSION PROTOCOL_VERSION))),
    .task 0 locked, .task 0 locked, .task 0 (.wrote true), .task 0 locked,
    .request (.leave "10.0.0.2:4369"), .tick, .drain]

def inLoop (t : TaskId) (d : Daemon platform) : Bool :=
  (d.tasks[t]?).any fun s =>
    match s.side, s.phase with
    | .outbound a, .live _ .select => a == addr 2
    | _, _ => false

theorem inLoop_iff {t : TaskId} {d : Daemon platform} (h : inLoop t d = true) :
    ∃ s peer, d.tasks[t]? = some s ∧ s.side = .outbound (addr 2) ∧
      s.phase = .live peer .select := by
  obtain ⟨s, hs, h⟩ := (Option.any_eq_true _ _).mp h
  split at h
  · rename_i hside hphase
    exact ⟨s, _, hs, by rw [hside, beq_iff_eq.mp h], hphase⟩
  · cases h

theorem joinThenLeave_reach : ∃ d : Daemon platform, daemons.Reach System.any d ∧
    d.main = .leaving ["10.0.0.2:4369"] ∧ inLoop 0 d = true := by
  have heval : (daemon.bind fun d => (daemons.guard fun _ _ => true).run d joinThenLeave).any
      (fun d => d.main == .leaving ["10.0.0.2:4369"] && inLoop 0 d) = true := by
    decide +kernel
  obtain ⟨d, hr, hp⟩ := System.Reach.of_eval (C := System.any) heval (fun _ _ _ => trivial)
    daemon_init
  rw [Bool.and_eq_true, beq_iff_eq] at hp
  exact ⟨d, hr, hp⟩

/-- The session joined to an address is not closed by a Leave of that address. -/
theorem leave_sessionGoesOn :
    ¬ ∀ (d d' : Daemon platform) (t : TaskId) (s : Session platform) (peer : PeerId platform)
      (stage : Stage platform) (text : String) (rest : List String) (a : platform.Addr),
      daemons.Reach System.any d → d.tasks[t]? = some s → s.side = .outbound a →
      platform.parseAddr text = some a → s.phase = .live peer stage →
      d.main = .leaving (text :: rest) → daemons.step d .leave = some d' →
      Closed config Reference.cookie t d' := by
  intro hall
  obtain ⟨d, hr, hmain, hloop⟩ := joinThenLeave_reach
  obtain ⟨s, peer, hs, hside, hphase⟩ := inLoop_iff hloop
  have hparse : platform.parseAddr "10.0.0.2:4369" = some (addr 2) := by
    have : SocketAddrV4.parse "10.0.0.2:4369" = some (addr 2) := by decide +kernel
    exact this
  have hstep : daemons.step d .leave = some { d with
      state := d.state.leave "10.0.0.2:4369", main := .leaving [] } := by
    simp only [daemons, system, step, mainStep, hmain, Option.map_some]
  refine not_closed_of_canWrite ?_
    (hall d _ 0 s peer .select _ [] _ hr hs hside hparse hphase hmain hstep)
  exact canWrite_of_select _ _ (d := { d with
    state := d.state.leave "10.0.0.2:4369", main := .leaving [] }) hs hphase

def awaitsCleanup (t : TaskId) (d : Daemon platform) : Bool :=
  (d.tasks[t]?).any fun s =>
    match s.phase with
    | .live _ .cleanup => true
    | _ => false

theorem awaitsCleanup_iff {t : TaskId} {d : Daemon platform} (h : awaitsCleanup t d = true) :
    ∃ s peer, d.tasks[t]? = some s ∧ s.phase = .live peer .cleanup := by
  obtain ⟨s, hs, h⟩ := (Option.any_eq_true _ _).mp h
  split at h
  · rename_i peer hphase
    exact ⟨s, peer, hs, hphase⟩
  · cases h

/-- The same session, whose link has failed before the Leave is processed. -/
theorem linkLost_reach : ∃ (d : Daemon platform) (s : Session platform) (peer : PeerId platform),
    daemons.Reach System.any d ∧ d.main = .leaving ["10.0.0.2:4369"] ∧ d.tasks[0]? = some s ∧
      s.phase = .live peer .cleanup ∧ Advertises d 0 "10.0.0.2:4369" := by
  have heval : (daemon.bind fun d => (daemons.guard fun _ _ => true).run d
      (joinThenLeave ++ [.task 0 (.read .error)])).any (fun d =>
        d.main == .leaving ["10.0.0.2:4369"] && awaitsCleanup 0 d &&
        d.state.peers.entries.all fun e => SocketAddrV4.print e.2.id.addr == "10.0.0.2:4369") =
          true := by
    decide +kernel
  obtain ⟨d, hr, hp⟩ := System.Reach.of_eval (C := System.any) heval (fun _ _ _ => trivial)
    daemon_init
  rw [Bool.and_eq_true, Bool.and_eq_true, beq_iff_eq] at hp
  obtain ⟨⟨hmain, htask⟩, hall⟩ := hp
  obtain ⟨s, peer, hs, hphase⟩ := awaitsCleanup_iff htask
  refine ⟨d, s, peer, hr, hmain, hs, hphase, fun k h hk _ => ?_⟩
  exact beq_iff_eq.mp (List.all_eq_true.mp hall ⟨k, h⟩ (AList.mem_lookup_iff.mp hk))

/-- A Leave closes the session whose loop had finished, and not the one in its loop. -/
theorem leave_closed_iff_joinThenLeave :
    (∃ d d' : Daemon platform, daemons.Reach System.any d ∧ daemons.step d .leave = some d' ∧
      Closed config Reference.cookie 0 d') ∧
    ∃ d d' : Daemon platform, daemons.Reach System.any d ∧ daemons.step d .leave = some d' ∧
      ¬ Closed config Reference.cookie 0 d' := by
  have hstep : ∀ d : Daemon platform, d.main = .leaving ["10.0.0.2:4369"] →
      daemons.step d .leave = some { d with
        state := d.state.leave "10.0.0.2:4369", main := .leaving [] } := by
    intro d hmain
    simp only [daemons, system, step, mainStep, hmain, Option.map_some]
  constructor
  · obtain ⟨d, s, peer, hr, hmain, hs, hphase, hadvertises⟩ := linkLost_reach
    refine ⟨d, _, hr, hstep d hmain, ?_⟩
    exact (leave_closed_iff hs hphase hmain (by decide) (hstep d hmain)).1 ⟨trivial, hadvertises⟩
  · obtain ⟨d, hr, hmain, hloop⟩ := joinThenLeave_reach
    obtain ⟨s, peer, hs, -, hphase⟩ := inLoop_iff hloop
    refine ⟨d, _, hr, hstep d hmain, fun hc => ?_⟩
    exact ((leave_closed_iff hs hphase hmain (by decide) (hstep d hmain)).2.1
      (fun h => by cases h.1) hc).1

end

end Daemon
end Pmd
