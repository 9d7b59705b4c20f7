import Pmd.Daemon.Session
import Pmd.Foundation.Runs

/-!
# The daemon as a transition system

`Daemon` is the shared state together with the task table and the program
counter of the main task. An action is one atomic step of one task: a control
request, a step of the main loop, an accepted connection or a session step. The
environment chooses the actions, so every interleaving is a run.
-/
namespace Pmd
open Foundation

variable {P : Platform}

/-- Where the main task of `run` stands. -/
inductive MainPc where
  | select
  /-- `process_tick` is about to take the queued addresses. -/
  | processing
  | leaving (leaves : List String)
  /-- `gossip_sync_random_peer` has released the lock, holding the sender. -/
  | gossiping (tx : TaskId)
  /-- The loop is left; the shutdown sequence follows. -/
  | stopping
  | sleeping
  | stopped
  deriving DecidableEq

/-- The main loop has not been left. -/
def MainPc.inLoop : MainPc → Bool
  | .stopping | .sleeping | .stopped => false
  | _ => true

inductive Act (P : Platform) where
  | request (r : ControlRequest)
  | discovered (addr : P.Addr)
  | tick
  | drain
  | leave
  | gossipTick (choice : ℕ)
  | gossipSend
  | meshTick (choice : ℕ)
  /-- SIGINT. -/
  | interrupt
  | removeSelf
  | cancel
  | accept
  | task (t : TaskId) (e : TaskEvent P)

/-- The task table only grows: a task is named by its index. -/
structure Daemon (P : Platform) where
  state : DaemonState P
  tasks : List (Session P)
  main : MainPc

namespace Daemon

abbrev doc (d : Daemon P) : P.Doc := d.state.membership.doc

/-- `run` up to its main loop. Without a listen address the daemon does not start;
`actualAddr` is the one the listener reports. -/
def start (cfg : Config) (nodeId : String) (metadata : StrMap String) (actualAddr : P.Addr)
    (now : ℕ) : Option (Daemon P) := do
  let _ ← cfg.listenAddr P
  return {
    state := {
      membership := (Membership.new nodeId).addNode nodeId actualAddr metadata now
      listenAddr := actualAddr
      peers := ∅
      pendingJoins := []
      pendingLeaves := []
      shutdown := false
      shutdownRequested := false
      events := []
      gossip := fun _ => false }
    tasks := []
    main := .select }

/-- The connection tasks `process_tick` spawns; an invalid address is skipped. -/
def spawned (joins : List String) : List (Session P) :=
  joins.filterMap fun addr => (P.parseAddr addr).map Session.dialing

def mainStep (d : Daemon P) : Act P → Option (Daemon P)
  | .request r => some { d with state := d.state.dispatchRequest r }
  | .discovered addr => some { d with state := d.state.forwardDiscovered addr }
  | .tick =>
    if d.main = .select then
      some { d with main := if d.state.shutdownRequested then .stopping else .processing }
    else none
  | .drain =>
    if d.main = .processing then
      some {
        state := { d.state with pendingJoins := [], pendingLeaves := [] }
        tasks := d.tasks ++ spawned d.state.pendingJoins
        main := .leaving d.state.pendingLeaves }
    else none
  | .leave =>
    match d.main with
    | .leaving (addr :: rest) => some { d with state := d.state.leave addr, main := .leaving rest }
    | .leaving [] => some { d with main := .select }
    | _ => none
  | .gossipTick choice =>
    if d.main = .select then
      match d.state.peers.entries[choice]? with
      | some e => some { d with main := .gossiping e.2.gossipTx }
      | none => some d
    else none
  | .gossipSend =>
    match d.main with
    | .gossiping tx =>
      some { d with
        state := { d.state with gossip := Function.update d.state.gossip tx true }
        main := .select }
    | _ => none
  | .meshTick choice =>
    if d.main = .select then some { d with state := d.state.meshExpandRandomPeer choice } else none
  | .interrupt => if d.main = .select then some { d with main := .stopping } else none
  | .removeSelf =>
    if d.main = .stopping then some { d with state := d.state.removeSelf, main := .sleeping }
    else none
  | .cancel =>
    if d.main = .sleeping then
      some { d with state := { d.state with shutdown := true }, main := .stopped }
    else none
  | .accept => some { d with tasks := d.tasks ++ [Session.accepted] }
  | .task _ _ => none

def taskStep (cfg : Config) (cookie : Bytes) (d : Daemon P) (t : TaskId) (e : TaskEvent P) :
    Option (Daemon P × Option (TaskId × Message P)) := do
  let s ← d.tasks[t]?
  let o ← sessionStep cfg cookie t d.state s e
  return ({ d with state := o.state, tasks := d.tasks.set t o.session }, o.sent.map fun m => (t, m))

/-- One step, with the frame it writes and the task that writes it. -/
def step (cfg : Config) (cookie : Bytes) (d : Daemon P) :
    Act P → Option (Daemon P × Option (TaskId × Message P))
  | .task t e => d.taskStep cfg cookie t e
  | a => (d.mainStep a).map fun d' => (d', none)

/-- One daemon in an arbitrary environment. -/
def system (P : Platform) (cfg : Config) (cookie : Bytes) : System (Daemon P) (Act P) where
  init d := ∃ nodeId metadata actualAddr now, start cfg nodeId metadata actualAddr now = some d
  step d a := (d.step cfg cookie a).map Prod.fst

end Daemon
end Pmd
