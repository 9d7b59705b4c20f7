import Pmd.Daemon.Discovery

/-!
# The queues of joins and leaves

Addresses are queued by control requests, by the discovery task and by mesh expansion, and
taken by `process_tick`, a queue at a time. Every queued join is dialled once and in order,
unless its text is not an address; every queued leave is worked off once and in order. What
stands in the queues when the main loop is left stays there.
-/
namespace Pmd
open Foundation

variable {P : Platform} {cfg : Config} {cookie : Bytes}

/-! ## What is queued -/

namespace DaemonState

def connected (addr : P.Addr) (st : DaemonState P) : Bool :=
  st.peers.entries.any fun e => e.2.id.addr = addr

/-- The node that mesh expansion picks: the daemon has fewer peers than it aims at and than
there are other nodes, and the node is another one and not a peer. -/
def meshPick (choice : ℕ) (st : DaemonState P) : Option (NodeInfo P) :=
  let members := st.membership.members
  let directPeers := st.peers.entries.length
  if meshTarget members.length ≤ directPeers ∨ members.length - 1 ≤ directPeers then none
  else (members.filter fun n => n.nodeId ≠ st.membership.nodeId ∧ n.nodeId ∉ st.peers)[choice]?

/-- The address that is queued, unless it is queued already. -/
def newJoin (addr : P.Addr) (st : DaemonState P) : Option String :=
  if st.pendingJoins.contains (P.printAddr addr) then none else some (P.printAddr addr)

theorem forwardDiscovered_queues (addr : P.Addr) (st : DaemonState P) :
    st.forwardDiscovered addr = { st with pendingJoins := st.pendingJoins ++
      (if st.connected addr then none else st.newJoin addr).toList } := by
  rw [forwardDiscovered, connected, newJoin]
  cases hc : st.peers.entries.any fun e => e.2.id.addr = addr <;>
    cases hp : st.pendingJoins.contains (P.printAddr addr) <;> simp

theorem meshExpandRandomPeer_queues (choice : ℕ) (st : DaemonState P) :
    st.meshExpandRandomPeer choice = { st with pendingJoins := st.pendingJoins ++
      ((st.meshPick choice).bind fun node => st.newJoin node.addr).toList } := by
  simp only [meshExpandRandomPeer, meshPick]
  split
  · simp
  · split
    · rename_i node hnode
      rw [hnode, Option.bind_some, newJoin]
      split <;> simp
    · rename_i hnone
      rw [hnone]
      simp

end DaemonState

/-- The text that a step adds to the queue of joins. -/
def queuedJoin (d : Daemon P) : Act P → Option String
  | .request (.join addr) => some addr
  | .discovered addr => if d.state.connected addr then none else d.state.newJoin addr
  | .meshTick choice => (d.state.meshPick choice).bind fun node => d.state.newJoin node.addr
  | _ => none

def queuedLeave (_ : Daemon P) : Act P → Option String
  | .request (.leave addr) => some addr
  | _ => none

/-- The text that an iteration of the leave loop works off. -/
def processedLeave (d : Daemon P) : Act P → Option String
  | .leave =>
    match d.main with
    | .leaving (addr :: _) => some addr
    | _ => none
  | _ => none

/-! ## What is taken -/

def Side.addr : Side P → Option P.Addr
  | .inbound => none
  | .outbound addr => some addr

/-- What the leave loop still has to work off. -/
def MainPc.leaves : MainPc → List String
  | .leaving rest => rest
  | _ => []

namespace Daemon

/-- The addresses dialled so far, in order. -/
def dialled (d : Daemon P) : List P.Addr := d.tasks.filterMap fun s => s.side.addr

/-- The addresses that are queued. -/
def toDial (d : Daemon P) : List P.Addr := d.state.pendingJoins.filterMap P.parseAddr

def toLeave (d : Daemon P) : List String := d.main.leaves ++ d.state.pendingLeaves

theorem dialled_spawned (joins : List String) :
    ((spawned joins : List (Session P)).filterMap fun s => s.side.addr) =
      joins.filterMap P.parseAddr := by
  rw [spawned, List.filterMap_filterMap]
  congr 1
  funext addr
  cases P.parseAddr addr <;> rfl

variable {d d' : Daemon P} {a : Act P}

theorem sessionMove_pendingLeaves {t : TaskId} {st : DaemonState P} {s : Session P}
    {e : TaskEvent P} {o : Outcome P} (hm : SessionMove cfg cookie t st s e o) :
    o.state.pendingLeaves = st.pendingLeaves := by
  have hmodify : ∀ (st : DaemonState P) (key : String) (f : PeerHandle P → PeerHandle P),
      (st.modifyPeer key f).pendingLeaves = st.pendingLeaves := by
    intro st key f
    rw [DaemonState.modifyPeer]
    split <;> rfl
  cases hm with
  | recorded => exact hmodify _ _ _
  | merged _ hmerge =>
    obtain ⟨m, changes, -, rfl⟩ := DaemonState.mergeSync_eq_some hmerge
    exact hmodify _ _ _
  | _ => rfl

theorem filterMap_set {α β : Type} {f : α → Option β} {l : List α} {n : ℕ} {x y : α}
    (hx : l[n]? = some x) (hy : f y = f x) : (l.set n y).filterMap f = l.filterMap f := by
  induction l generalizing n with
  | nil => cases hx
  | cons z l ih =>
    cases n with
    | zero =>
      cases hx
      rw [List.set_cons_zero, List.filterMap_cons, List.filterMap_cons, hy]
    | succ n => rw [List.set_cons_succ, List.filterMap_cons, List.filterMap_cons, ih hx]

/-- A step of any other task. -/
theorem mainStep_of_step (ha : ∀ t e, a ≠ .task t e)
    (h : (system P cfg cookie).step d a = some d') : d.mainStep a = some d' := by
  obtain ⟨⟨d₁, sent⟩, hd, rfl⟩ := Option.map_eq_some_iff.mp h
  exact (mainStep_eq_some ha hd).1

/-- What a step does to the queues: the main task takes both, or works off one leave, or
something may be added. -/
inductive QueueMove (d : Daemon P) (a : Act P) (d' : Daemon P) : Prop
  | drain (ha : a = .drain) (hmain : d.main = .processing)
      (htasks : d'.tasks = d.tasks ++ spawned d.state.pendingJoins)
      (hmain' : d'.main = .leaving d.state.pendingLeaves) (hjoins : d'.state.pendingJoins = [])
      (hleaves : d'.state.pendingLeaves = [])
  | leave {addr : String} {rest : List String} (ha : a = .leave)
      (hmain : d.main = .leaving (addr :: rest)) (hmain' : d'.main = .leaving rest)
      (hdialled : d'.dialled = d.dialled) (hjoins : d'.state.pendingJoins = d.state.pendingJoins)
      (hleaves : d'.state.pendingLeaves = d.state.pendingLeaves)
  | add (hdialled : d'.dialled = d.dialled) (hmain : d'.main.leaves = d.main.leaves)
      (hjoins : d'.state.pendingJoins = d.state.pendingJoins ++ (queuedJoin d a).toList)
      (hleaves : d'.state.pendingLeaves = d.state.pendingLeaves ++ (queuedLeave d a).toList)
      (hnone : processedLeave d a = none)

/-- A step that queues nothing and works off nothing. -/
theorem QueueMove.rest (hj : queuedJoin d a = none) (hl : queuedLeave d a = none)
    (hnone : processedLeave d a = none) (hdialled : d'.dialled = d.dialled)
    (hmain : d'.main.leaves = d.main.leaves) (hjoins : d'.state.pendingJoins = d.state.pendingJoins)
    (hleaves : d'.state.pendingLeaves = d.state.pendingLeaves) : QueueMove d a d' := by
  refine .add hdialled hmain ?_ ?_ hnone
  · rw [hjoins, hj]
    exact (List.append_nil _).symm
  · rw [hleaves, hl]
    exact (List.append_nil _).symm

theorem request_queues (r : ControlRequest) :
    QueueMove d (.request r) { d with state := d.state.dispatchRequest r } := by
  cases r with
  | join addr => exact .add rfl rfl rfl (List.append_nil _).symm rfl
  | leave addr => exact .add rfl rfl (List.append_nil _).symm rfl rfl
  | _ => exact .rest rfl rfl rfl rfl rfl rfl rfl

theorem queueMove_of_step (h : (system P cfg cookie).step d a = some d') : QueueMove d a d' := by
  by_cases htask : ∃ t e, a = .task t e
  · obtain ⟨t, e, rfl⟩ := htask
    obtain ⟨⟨d₁, sent⟩, hd, rfl⟩ := Option.map_eq_some_iff.mp h
    obtain ⟨s, o, hs, hm, -, rfl, -⟩ := taskStep_eq_some hd
    exact .rest rfl rfl rfl (filterMap_set hs (by rw [hm.side])) rfl (sessionMove_pendingJoins hm)
      (sessionMove_pendingLeaves hm)
  · have hmain := mainStep_of_step (fun t e he => htask ⟨t, e, he⟩) h
    cases a with
    | request r =>
      cases hmain
      exact request_queues r
    | discovered addr =>
      cases hmain
      rw [DaemonState.forwardDiscovered_queues]
      exact .add rfl rfl rfl (List.append_nil _).symm rfl
    | tick =>
      obtain ⟨hm, hmain⟩ := Option.ite_none_right_eq_some.mp hmain
      cases hmain
      refine .rest rfl rfl rfl rfl ?_ rfl rfl
      rw [hm]
      dsimp only
      split <;> rfl
    | drain =>
      obtain ⟨hm, hmain⟩ := Option.ite_none_right_eq_some.mp hmain
      cases hmain
      exact .drain rfl hm rfl rfl rfl rfl
    | leave =>
      rw [mainStep] at hmain
      split at hmain
      · rename_i hm
        cases hmain
        exact .leave rfl hm rfl rfl rfl rfl
      · rename_i hm
        cases hmain
        refine .rest rfl rfl ?_ rfl ?_ rfl rfl
        · rw [processedLeave, hm]
        · rw [hm]
          rfl
      · cases hmain
    | gossipTick choice =>
      obtain ⟨hm, hmain⟩ := Option.ite_none_right_eq_some.mp hmain
      split at hmain
      · cases hmain
        refine .rest rfl rfl rfl rfl ?_ rfl rfl
        rw [hm]
        rfl
      · cases hmain
        exact .rest rfl rfl rfl rfl rfl rfl rfl
    | gossipSend =>
      rw [mainStep] at hmain
      split at hmain
      · rename_i hm
        cases hmain
        refine .rest rfl rfl rfl rfl ?_ rfl rfl
        rw [hm]
        rfl
      · cases hmain
    | meshTick choice =>
      obtain ⟨-, hmain⟩ := Option.ite_none_right_eq_some.mp hmain
      cases hmain
      rw [DaemonState.meshExpandRandomPeer_queues]
      exact .add rfl rfl rfl (List.append_nil _).symm rfl
    | interrupt =>
      obtain ⟨hm, hmain⟩ := Option.ite_none_right_eq_some.mp hmain
      cases hmain
      refine .rest rfl rfl rfl rfl ?_ rfl rfl
      rw [hm]
      rfl
    | removeSelf =>
      obtain ⟨hm, hmain⟩ := Option.ite_none_right_eq_some.mp hmain
      cases hmain
      refine .rest rfl rfl rfl rfl ?_ rfl rfl
      rw [hm]
      rfl
    | cancel =>
      obtain ⟨hm, hmain⟩ := Option.ite_none_right_eq_some.mp hmain
      cases hmain
      refine .rest rfl rfl rfl rfl ?_ rfl rfl
      rw [hm]
      rfl
    | accept =>
      cases hmain
      refine .rest rfl rfl rfl ?_ rfl rfl rfl
      rw [dialled, List.filterMap_append]
      exact List.append_nil _
    | task t e => exact absurd ⟨t, e, rfl⟩ htask

/-- A join is dialled or queued, after those that were dialled and queued. -/
theorem joins_step (h : (system P cfg cookie).step d a = some d') :
    d'.dialled ++ d'.toDial = d.dialled ++ d.toDial ++
      ((queuedJoin d a).bind P.parseAddr).toList := by
  cases queueMove_of_step h with
  | drain ha hmain htasks hmain' hjoins hleaves =>
    subst ha
    rw [dialled, toDial, hjoins, htasks, List.filterMap_append, dialled_spawned]
    rfl
  | leave ha hmain hmain' hdialled hjoins hleaves =>
    subst ha
    rw [hdialled, toDial, hjoins]
    exact (List.append_nil _).symm
  | add hdialled hmain hjoins hleaves hnone =>
    have hone : (queuedJoin d a).toList.filterMap P.parseAddr =
        ((queuedJoin d a).bind P.parseAddr).toList := by
      cases queuedJoin d a with
      | none => rfl
      | some x =>
        rw [Option.bind_some, Option.toList_some, List.filterMap_cons]
        cases P.parseAddr x <;> rfl
    rw [hdialled, toDial, hjoins, List.filterMap_append, List.append_assoc, hone]
    rfl

theorem leaves_step (h : (system P cfg cookie).step d a = some d') :
    (processedLeave d a).toList ++ d'.toLeave = d.toLeave ++ (queuedLeave d a).toList := by
  cases queueMove_of_step h with
  | drain ha hmain htasks hmain' hjoins hleaves =>
    subst ha
    rw [toLeave, toLeave, hmain, hmain', hleaves]
    exact (List.append_nil _).trans (List.append_nil _).symm
  | leave ha hmain hmain' hdialled hjoins hleaves =>
    subst ha
    rw [toLeave, toLeave, hmain, hmain', hleaves, processedLeave, hmain]
    exact (List.append_nil _).symm
  | add hdialled hmain hjoins hleaves hnone =>
    rw [hnone, toLeave, toLeave, hmain, hleaves, List.append_assoc]
    rfl

/-- Outside the main loop nothing is taken any more. -/
theorem step_stopped (hmain : d.main.inLoop = false)
    (h : (system P cfg cookie).step d a = some d') :
    d'.dialled = d.dialled ∧ processedLeave d a = none ∧ d'.main.inLoop = false := by
  have hstays : d'.main.inLoop = false := by
    obtain ⟨⟨d₁, sent⟩, hd, rfl⟩ := Option.map_eq_some_iff.mp h
    rcases step_cases hd with ⟨t, e, s, o, -, -, -, rfl, -⟩ | ⟨hm, -⟩
    · exact hmain
    · cases hm with
      | queued _ _ hstop =>
        rw [← hstop hmain] at hmain
        exact hmain
      | drain hm =>
        rw [hm] at hmain
        cases hmain
      | leave hm =>
        rw [hm] at hmain
        cases hmain
      | gossipSend hm =>
        rw [hm] at hmain
        cases hmain
      | removeSelf _ => rfl
      | cancel _ => rfl
      | _ => exact hmain
  cases queueMove_of_step h with
  | drain _ hm =>
    rw [hm] at hmain
    cases hmain
  | leave _ hm =>
    rw [hm] at hmain
    cases hmain
  | add hdialled _ _ _ hnone => exact ⟨hdialled, hnone, hstays⟩

theorem run_stopped {acts : List (Act P)} (hmain : d.main.inLoop = false)
    (h : (system P cfg cookie).run d acts = some d') :
    d'.dialled = d.dialled ∧ (system P cfg cookie).observe processedLeave d acts = [] := by
  induction acts generalizing d with
  | nil =>
    cases h
    exact ⟨rfl, rfl⟩
  | cons a acts ih =>
    obtain ⟨d₁, hd, h⟩ := Option.bind_eq_some_iff.mp h
    obtain ⟨hdialled, hnone, hmain₁⟩ := step_stopped hmain hd
    obtain ⟨hdialled', hnone'⟩ := ih hmain₁ h
    rw [System.observe, hnone, hd, Option.elim_some, hnone']
    exact ⟨hdialled'.trans hdialled, rfl⟩

/-- Over every run the daemon dials the queued addresses, each once and in the order in
which they were queued, and works off the queued leaves likewise; the others are still in
the queues, and stay there when the main loop is left. -/
theorem queues_worked_off {acts : List (Act P)} (h₀ : (system P cfg cookie).init d)
    (h : (system P cfg cookie).run d acts = some d') :
    ((system P cfg cookie).observe queuedJoin d acts).filterMap P.parseAddr =
      d'.dialled ++ d'.toDial ∧
    (system P cfg cookie).observe queuedLeave d acts =
      (system P cfg cookie).observe processedLeave d acts ++ d'.toLeave ∧
    (d'.main.inLoop = false → ∀ more d'', (system P cfg cookie).run d' more = some d'' →
      d''.dialled = d'.dialled ∧ (system P cfg cookie).observe processedLeave d' more = []) := by
  have hjoins := System.run_queue (M := system P cfg cookie) (o := fun _ _ => none)
    (i := fun d a => (queuedJoin d a).bind P.parseAddr) (f := fun d => d.dialled ++ d.toDial)
    (fun d a d' h => joins_step h) h
  have hleaves := System.run_queue (M := system P cfg cookie) (o := processedLeave)
    (i := queuedLeave) (f := toLeave) (fun d a d' h => leaves_step h) h
  rw [System.observe_none, System.observe_bind] at hjoins
  obtain ⟨nodeId, metadata, actualAddr, now, h₀⟩ := h₀
  obtain ⟨l, -, h₀⟩ := Option.bind_eq_some_iff.mp h₀
  cases h₀
  exact ⟨hjoins.symm, hleaves.symm, fun hmain more d'' hmore => run_stopped hmain hmore⟩

section
open Reference

/-- Client requests, a discovered address and a tick. -/
def queueing : List (Act platform) :=
  [.request (.join "10.0.0.2:4369"), .request (.join "nowhere"), .discovered (addr 3),
    .discovered (addr 3), .request (.leave "10.0.0.9:4369"), .tick, .drain, .leave,
    .leave, .request (.join "10.0.0.4:4369"), .interrupt]

theorem queues_worked_off_queueing : ∃ d d', daemons.run d queueing = some d' ∧
    daemons.observe queuedJoin d queueing =
      ["10.0.0.2:4369", "nowhere", "10.0.0.3:4369", "10.0.0.4:4369"] ∧
    (daemons.observe queuedJoin d queueing).filterMap SocketAddrV4.parse =
      d'.dialled ++ d'.toDial ∧
    d'.dialled.map platform.printAddr = ["10.0.0.2:4369", "10.0.0.3:4369"] := by
  have heval : Reference.daemon.any (fun d => (daemons.run d queueing).any fun d' =>
      decide (daemons.observe queuedJoin d queueing =
        ["10.0.0.2:4369", "nowhere", "10.0.0.3:4369", "10.0.0.4:4369"]) &&
          decide (d'.dialled.map platform.printAddr =
            ["10.0.0.2:4369", "10.0.0.3:4369"])) = true := by
    decide +kernel
  obtain ⟨d, hd, heval⟩ := (Option.any_eq_true _ _).mp heval
  obtain ⟨d', hrun, hq⟩ := (Option.any_eq_true _ _).mp heval
  obtain ⟨hqueued, hdialled⟩ := Bool.and_eq_true_iff.mp hq
  exact ⟨d, d', hrun, of_decide_eq_true hqueued, (queues_worked_off (daemon_init d hd) hrun).1,
    of_decide_eq_true hdialled⟩

end

end Daemon
end Pmd
