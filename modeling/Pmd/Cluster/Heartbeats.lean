import Pmd.Cluster.Connections
import Pmd.Cluster.Provenance

/-!
# Heartbeats and their acknowledgements

A heartbeat that one end of a connection writes is read by the other, which writes an
acknowledgement; the first end reads it and, once it has the lock, records the arrival
at the failure detector of the peer, if the handle of the peer is still there. Between
two daemons nothing of this is lost or made up: a heartbeat whose acknowledgement has
not been handled is on one of the four ways, or that could not be written.
-/
namespace Pmd
open Foundation

variable {P : Platform}

def Message.isHeartbeat : Message P → Bool
  | .heartbeat => true
  | _ => false

def Message.isHeartbeatAck : Message P → Bool
  | .heartbeatAck => true
  | _ => false

/-- A received message that waits for the lock. -/
def Phase.handling : Phase P → Option (Message P)
  | .live _ (.handle m) => some m
  | _ => none

namespace Session
variable (s : Session P)

def written : TaskEvent P → Option (Message P)
  | .wrote true => s.phase.outgoing
  | _ => none

def unwritten : TaskEvent P → Option (Message P)
  | .wrote false => s.phase.outgoing
  | _ => none

def handled : TaskEvent P → Option (Message P)
  | .lock _ _ _ => s.phase.handling
  | _ => none

end Session

/-- How many messages of a kind there are. -/
def howMany (f : Message P → Bool) (m : Option (Message P)) : ℕ := (m.any f).toNat

@[simp] theorem howMany_none (f : Message P → Bool) : howMany f none = 0 := rfl

@[simp] theorem howMany_some (f : Message P → Bool) (m : Message P) :
    howMany f (some m) = (f m).toNat := rfl

/-- A step of a session turns a heartbeat into an acknowledgement to be written, and an
acknowledgement that has come into one to be handled. -/
structure KeepsBeats (s : Session P) (e : TaskEvent P) (o : Outcome P) : Prop where
  sent : o.sent = s.written e
  answers : howMany Message.isHeartbeat e.frame + howMany Message.isHeartbeatAck s.phase.outgoing =
    howMany Message.isHeartbeatAck o.sent + howMany Message.isHeartbeatAck (s.unwritten e) +
      howMany Message.isHeartbeatAck o.session.phase.outgoing
  handles : howMany Message.isHeartbeatAck e.frame +
      howMany Message.isHeartbeatAck s.phase.handling =
    howMany Message.isHeartbeatAck (s.handled e) +
      howMany Message.isHeartbeatAck o.session.phase.handling

section
variable {cfg : Config} {cookie : Bytes} {t : TaskId} {st : DaemonState P} {s : Session P}
  {e : TaskEvent P} {o : Outcome P}

/-- A frame that opens a connection is no heartbeat. -/
theorem not_beat_of_accepts {side : Side P} {m : Message P} (h : side.Accepts cookie m) :
    m.isHeartbeat = false ∧ m.isHeartbeatAck = false := by
  cases side <;> cases m <;>
    first | exact ⟨rfl, rfl⟩ | simp [Side.Accepts, checkHandshake, checkAck] at h

/-- Neither is an event of a write or of the lock. -/
theorem KeepsBeats.quiet (hframe : e.frame = none) (hsent : o.sent = none)
    (hwritten : s.written e = none) (hunwritten : s.unwritten e = none)
    (hhandled : s.handled e = none)
    (hout : howMany Message.isHeartbeatAck o.session.phase.outgoing =
      howMany Message.isHeartbeatAck s.phase.outgoing)
    (hhandle : o.session.phase.handling = s.phase.handling) : KeepsBeats s e o := by
  refine ⟨by rw [hsent, hwritten], ?_, ?_⟩
  · simp [hframe, hsent, hunwritten, hout]
  · simp [hframe, hhandled, hhandle]

/-- The frame a session stood ready to write has been written. -/
theorem KeepsBeats.writes {m : Message P} (hs : s.phase.outgoing = some m)
    (hsent : o.sent = some m) (hout : o.session.phase.outgoing = none)
    (hhandle : o.session.phase.handling = s.phase.handling) : KeepsBeats s (.wrote true) o := by
  refine ⟨by rw [hsent, Session.written, hs], ?_, ?_⟩
  · simp [TaskEvent.frame, Session.unwritten, hs, hsent, hout]
  · simp [TaskEvent.frame, Session.handled, hhandle]

theorem KeepsBeats.fails {m : Message P} (hs : s.phase.outgoing = some m)
    (hsent : o.sent = none) (hout : o.session.phase.outgoing = none)
    (hhandle : o.session.phase.handling = s.phase.handling) : KeepsBeats s (.wrote false) o := by
  refine ⟨hsent, ?_, ?_⟩
  · simp [TaskEvent.frame, Session.unwritten, hs, hsent, hout]
  · simp [TaskEvent.frame, Session.handled, hhandle]

/-- A frame has been read that is neither. -/
theorem KeepsBeats.passes {m : Message P} (hb : m.isHeartbeat = false)
    (ha : m.isHeartbeatAck = false) (hsent : o.sent = none)
    (hout : o.session.phase.outgoing = s.phase.outgoing)
    (hhandle : howMany Message.isHeartbeatAck o.session.phase.handling =
      howMany Message.isHeartbeatAck s.phase.handling) :
    KeepsBeats s (.read (.message m)) o := by
  refine ⟨hsent, ?_, ?_⟩
  · simp [TaskEvent.frame, Session.unwritten, hsent, hb, hout]
  · simp [TaskEvent.frame, Session.handled, ha, hhandle]

/-- The lock has been acquired for a received message. -/
theorem KeepsBeats.handling {peer : PeerId P} {m : Message P} {nonce : Nonce} {epoch : Option ℕ}
    {now : ℕ} (hp : s.phase = .live peer (.handle m)) :
    KeepsBeats s (.lock nonce epoch now) (handleStep st s peer epoch now m) := by
  have hnext : (handleStep st s peer epoch now m).sent = none ∧
      ((handleStep st s peer epoch now m).session.phase = .live peer .select ∨
        (handleStep st s peer epoch now m).session.phase = .live peer .cleanup) := by
    rw [handleStep.eq_def]
    split
    · exact ⟨rfl, .inl rfl⟩
    · split
      · exact ⟨rfl, .inl rfl⟩
      · exact ⟨rfl, .inr rfl⟩
    · exact ⟨rfl, .inl rfl⟩
  obtain ⟨hsent, hphase⟩ := hnext
  refine ⟨hsent, ?_, ?_⟩
  · rcases hphase with ho | ho <;>
      simp [hsent, ho, hp, Phase.outgoing, TaskEvent.frame, Session.unwritten]
  · rcases hphase with ho | ho <;>
      simp [ho, hp, Phase.handling, TaskEvent.frame, Session.handled]

theorem KeepsBeats.opening {op : Opening P} (hp : s.phase = .opening op)
    (hread : ∀ m, e = .read (.message m) → s.Expects cookie m)
    (ho : openingStep cfg cookie t st s op e = some o) : KeepsBeats s e o := by
  obtain ⟨side, phase, merged⟩ := s
  cases hp
  cases op with
  | connect =>
    cases e with
    | connected nonce =>
      rw [openingStep] at ho
      split at ho <;> cases ho <;> exact .quiet rfl rfl rfl rfl rfl rfl rfl
    | connectFailed =>
      cases ho
      exact .quiet rfl rfl rfl rfl rfl rfl rfl
    | _ => cases ho
  | writeHandshake m =>
    cases e with
    | wrote ok =>
      cases ok <;> cases ho
      · exact .fails rfl rfl rfl rfl
      · exact .writes rfl rfl rfl rfl
    | _ => cases ho
  | readHandshake =>
    cases e with
    | read r =>
      cases r with
      | message m =>
        obtain ⟨hb, ha⟩ := not_beat_of_accepts (hread m rfl)
        simp only [openingStep] at ho
        split at ho <;> cases ho <;> exact .passes hb ha rfl rfl rfl
      | _ =>
        cases ho
        exact .quiet rfl rfl rfl rfl rfl rfl rfl
    | _ => cases ho
  | readAck =>
    cases e with
    | read r =>
      cases r with
      | message m =>
        obtain ⟨hb, ha⟩ := not_beat_of_accepts (hread m rfl)
        simp only [openingStep] at ho
        split at ho <;> cases ho <;> exact .passes hb ha rfl rfl rfl
      | _ =>
        cases ho
        exact .quiet rfl rfl rfl rfl rfl rfl rfl
    | _ => cases ho
  | register peer vv =>
    cases e with
    | lock nonce epoch now =>
      simp only [openingStep, registerStep, Option.some.injEq] at ho
      split at ho
      · cases ho
        exact .quiet rfl rfl rfl rfl rfl rfl rfl
      · cases side with
        | outbound addr =>
          cases ho
          exact .quiet rfl rfl rfl rfl rfl rfl rfl
        | inbound =>
          simp only at ho
          split at ho <;> cases ho <;> exact .quiet rfl rfl rfl rfl rfl rfl rfl
    | _ => cases ho

/-- One turn of the loop: a heartbeat is answered, an acknowledgement kept for the lock. -/
theorem KeepsBeats.select {peer : PeerId P} (hp : s.phase = .live peer .select)
    (ho : stageStep cfg t st s peer .select e = some o) : KeepsBeats s e o := by
  obtain ⟨side, phase, merged⟩ := s
  cases hp
  cases e with
  | read r =>
    cases r with
    | message m =>
      cases m with
      | heartbeat =>
        cases ho
        exact ⟨rfl, rfl, rfl⟩
      | heartbeatAck =>
        cases ho
        exact ⟨rfl, rfl, rfl⟩
      | _ =>
        cases ho
        exact .passes rfl rfl rfl rfl rfl
    | _ =>
      cases ho
      exact .quiet rfl rfl rfl rfl rfl rfl rfl
  | shutdownBranch =>
    obtain ⟨-, ho⟩ := Option.ite_none_right_eq_some.mp ho
    cases ho
    exact .quiet rfl rfl rfl rfl rfl rfl rfl
  | gossipBranch =>
    obtain ⟨-, ho⟩ := Option.ite_none_right_eq_some.mp ho
    cases ho
    exact .quiet rfl rfl rfl rfl rfl rfl rfl
  | heartbeatBranch =>
    cases ho
    exact .quiet rfl rfl rfl rfl rfl rfl rfl
  | phiBranch =>
    cases ho
    exact .quiet rfl rfl rfl rfl rfl rfl rfl
  | _ => cases ho

theorem KeepsBeats.live {peer : PeerId P} {stage : Stage P} (hp : s.phase = .live peer stage)
    (ho : stageStep cfg t st s peer stage e = some o) : KeepsBeats s e o := by
  have hlock : ∀ {nonce epoch now}, e = .lock nonce epoch now → s.phase.handling = none →
      o.sent = none → howMany Message.isHeartbeatAck o.session.phase.outgoing =
        howMany Message.isHeartbeatAck s.phase.outgoing → o.session.phase.handling = none →
      KeepsBeats s e o := by
    intro nonce epoch now he hs hsent hout hhandle
    subst he
    exact .quiet rfl hsent rfl rfl hs hout (by rw [hs, hhandle])
  obtain ⟨side, phase, merged⟩ := s
  cases hp
  cases stage with
  | writeAck m | writeDelta m | write m =>
    cases e with
    | wrote ok =>
      cases ok <;> cases ho
      · exact .fails rfl rfl rfl rfl
      · exact .writes rfl rfl rfl rfl
    | _ => cases ho
  | buildDelta =>
    cases e with
    | lock nonce epoch now =>
      cases ho
      exact hlock rfl rfl rfl rfl rfl
    | _ => cases ho
  | enterLoop =>
    cases e with
    | lock nonce epoch now =>
      simp only [stageStep] at ho
      split at ho <;> cases ho <;> exact hlock rfl rfl rfl rfl rfl
    | _ => cases ho
  | select => exact .select rfl ho
  | phiCheck =>
    cases e with
    | lock nonce epoch now =>
      simp only [stageStep] at ho
      split at ho <;> cases ho <;> exact hlock rfl rfl rfl rfl rfl
    | _ => cases ho
  | gossip =>
    cases e with
    | lock nonce epoch now =>
      simp only [stageStep] at ho
      split at ho <;> cases ho <;> exact hlock rfl rfl rfl rfl rfl
    | _ => cases ho
  | handle m =>
    cases e with
    | lock nonce epoch now =>
      cases ho
      exact .handling rfl
    | _ => cases ho
  | cleanup =>
    cases e with
    | lock nonce epoch now =>
      cases ho
      exact hlock rfl rfl rfl rfl rfl
    | _ => cases ho

theorem KeepsBeats.of_step (hread : ∀ m, e = .read (.message m) → s.Expects cookie m)
    (ho : sessionStep cfg cookie t st s e = some o) : KeepsBeats s e o := by
  rw [sessionStep] at ho
  split at ho
  · rename_i hp
    exact .opening hp hread ho
  · rename_i hp
    exact .live hp ho
  · cases ho

end

namespace Cluster
variable {W : Setup} {c c' : Cluster P} {p q : Port} {s : Session P} {x : Action P}
  {e : TaskEvent P} {o : Outcome P}

section
open Reference

end

end Cluster
end Pmd
