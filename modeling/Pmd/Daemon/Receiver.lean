import Pmd.Daemon.Handles
import Pmd.Protocol.Frames

/-!
# What a session reads

A session together with the incoming half of its connection. Bytes arrive in
chunks; the first `read_frame` call belongs to the handshake, the later ones to a
task that passes what it reads through a bounded channel to the `select!` of the
message loop. Neither a suspended read nor a waiting `send` is undone by another
branch, so the place in the stream is never lost.

The other tasks of the daemon may replace the shared state at any time. An aborted
reader task is one that takes no further step.
-/
namespace Pmd
open Foundation

inductive ReaderTask (P : Platform) where
  | notSpawned
  | reading
  /-- In `msg_tx.send(..)`. -/
  | sending (r : ReadResult P)
  | finished

structure Receiver (P : Platform) where
  state : DaemonState P
  session : Session P
  /-- Written by the remote and not yet arrived. -/
  inFlight : Bytes
  /-- Arrived and not yet read. -/
  arrived : Bytes
  /-- How the stream has ended, if it has. -/
  ending : Option Ending
  /-- The `read_frame` call in progress. -/
  reader : Partial
  task : ReaderTask P
  channel : List (ReadResult P)
  /-- The messages given to the handshake and to the handlers of the loop, in order. -/
  handed : List (Message P)

inductive RecvAct (P : Platform) where
  /-- Other tasks have run. -/
  | others (st : DaemonState P)
  | arrive (n : ℕ)
  | close (e : Ending)
  /-- The read in progress takes a byte or meets the end of the stream. -/
  | poll
  /-- `msg_tx.send(..)` finds room. -/
  | send
  /-- `msg_rx.recv()` in the `select!`. -/
  | recv
  /-- Another await of the session ends. -/
  | event (e : TaskEvent P)

def CHANNEL_CAPACITY : ℕ := 32

variable {P : Platform}

/-- The stages of the handshake that call `read_frame`. -/
def Phase.readsHandshake : Phase P → Bool
  | .opening .readHandshake | .opening .readAck => true
  | _ => false

/-- The stages before the message loop. -/
def Phase.beforeLoop : Phase P → Bool
  | .opening _ | .live _ (.writeAck _) | .live _ .buildDelta | .live _ (.writeDelta _)
  | .live _ .enterLoop => true
  | _ => false

theorem Phase.beforeLoop_of_readsHandshake {p : Phase P} (h : p.readsHandshake = true) :
    p.beforeLoop = true := by
  rw [readsHandshake.eq_def] at h
  split at h
  · rfl
  · rfl
  · cases h

def ReadResult.messages : ReadResult P → List (Message P)
  | .message m => [m]
  | _ => []

/-- The message a task is sending. -/
def ReaderTask.messages : ReaderTask P → List (Message P)
  | .sending res => res.messages
  | _ => []

/-- The reader task is spawned when the loop is entered. -/
def ReaderTask.spawn (task : ReaderTask P) : Phase P → ReaderTask P
  | .live _ .enterLoop => .reading
  | _ => task

/-- What the read in progress gives next: it goes on, or `read_frame` returns a message
with `rest` still unread, or it returns for the last time. -/
inductive Polled (P : Platform) where
  | more (p : Partial) (rest : Bytes)
  | message (m : Message P) (rest : Bytes)
  | stopped (res : ReadResult P)

/-- Before the loop a session only moves on, and it does not come back. -/
theorem SessionMove.beforeLoop {cfg : Config} {cookie : Bytes} {t : TaskId} {st : DaemonState P}
    {s : Session P} {e : TaskEvent P} {o : Outcome P} (hm : SessionMove cfg cookie t st s e o)
    (h : o.session.phase.beforeLoop = true) :
    s.phase.beforeLoop = true ∧ ∀ task : ReaderTask P, task.spawn s.phase = task := by
  cases hm with
  | dialed hp _ | greeted hp | checked hp _ | registered hp _ _ | built hp =>
    rw [hp]
    exact ⟨rfl, fun _ => rfl⟩
  | wrote hp hs =>
    rw [hp]
    rcases hs with ⟨rfl, rfl⟩ | ⟨rfl, rfl⟩ | ⟨rfl, rfl⟩
    · exact ⟨rfl, fun _ => rfl⟩
    · exact ⟨rfl, fun _ => rfl⟩
    · cases h
  | moved _ hs => rcases hs with rfl | rfl | rfl <;> cases h
  | _ => cases h

namespace Receiver
variable (bincode : Codec (Message P)) (cfg : Config) (cookie : Bytes) (t : TaskId)

def polled (r : Receiver P) : Option (Polled P) :=
  match r.arrived, r.ending with
  | b :: rest, _ =>
    match r.reader.push bincode MAX_FRAME_LEN b with
    | .more p => some (.more p rest)
    | .message m => some (.message m rest)
    | .bad _ => some (.stopped .error)
  | [], some e =>
    match r.reader.finish e with
    | .ok _ => some (.stopped .eof)
    | .error _ => some (.stopped .error)
  | [], none => none

/-- A result of `read_frame` is given to the session. -/
def hand (r : Receiver P) (res : ReadResult P) : Option (Receiver P) :=
  (sessionStep cfg cookie t r.state r.session (.read res)).map fun o =>
    { r with state := o.state, session := o.session, handed := r.handed ++ res.messages }

/-- The `read_frame` call of the handshake. -/
def pollHandshake (r : Receiver P) : Option (Receiver P) :=
  match r.polled bincode with
  | some (.more p rest) => some { r with reader := p, arrived := rest }
  | some (.message m rest) =>
    hand cfg cookie t { r with reader := .start, arrived := rest } (.message m)
  | some (.stopped res) => hand cfg cookie t r res
  | none => none

/-- The `read_frame` calls of the reader task. -/
def pollTask (r : Receiver P) : Option (Receiver P) :=
  match r.polled bincode with
  | some (.more p rest) => some { r with reader := p, arrived := rest }
  | some (.message m rest) =>
    some { r with reader := .start, arrived := rest, task := .sending (.message m) }
  | some (.stopped .eof) => some { r with task := .finished }
  | some (.stopped res) => some { r with task := .sending res }
  | none => none

def poll (r : Receiver P) : Option (Receiver P) :=
  if r.session.phase.readsHandshake then r.pollHandshake bincode cfg cookie t
  else
    match r.task with
    | .reading => r.pollTask bincode
    | _ => none

/-- After an error has been sent the task ends. -/
def send (r : Receiver P) : Option (Receiver P) :=
  match r.task with
  | .sending (.message m) =>
    if r.channel.length < CHANNEL_CAPACITY then
      some { r with channel := r.channel ++ [.message m], task := .reading }
    else none
  | .sending res =>
    if r.channel.length < CHANNEL_CAPACITY then
      some { r with channel := r.channel ++ [res], task := .finished }
    else none
  | _ => none

/-- An empty channel without a sender gives `None`. -/
def recv (r : Receiver P) : Option (Receiver P) :=
  match r.session.phase with
  | .live _ .select =>
    match r.channel, r.task with
    | res :: rest, _ => hand cfg cookie t { r with channel := rest } res
    | [], .finished => hand cfg cookie t r .eof
    | [], _ => none
  | _ => none

def event (r : Receiver P) (e : TaskEvent P) : Option (Receiver P) :=
  (sessionStep cfg cookie t r.state r.session e).map fun o =>
    { r with
      state := o.state
      session := o.session
      task := r.task.spawn r.session.phase }

def step (r : Receiver P) : RecvAct P → Option (Receiver P)
  | .others st => some { r with state := st }
  | .arrive n =>
    some { r with inFlight := r.inFlight.drop n, arrived := r.arrived ++ r.inFlight.take n }
  | .close e => if r.ending.isNone then some { r with inFlight := [], ending := some e } else none
  | .poll => r.poll bincode cfg cookie t
  | .send => r.send
  | .recv => r.recv cfg cookie t
  | .event (.read _) => none
  | .event e => r.event cfg cookie t e

/-- A session that has just begun, on a connection whose remote writes `stream`. -/
def opened (st : DaemonState P) (s : Session P) (stream : Bytes) : Receiver P where
  state := st
  session := s
  inFlight := stream
  arrived := []
  ending := none
  reader := .start
  task := .notSpawned
  channel := []
  handed := []

/-- Every interleaving, every way of arriving and every way of ending. -/
def system (stream : Bytes) : System (Receiver P) (RecvAct P) where
  init r := ∃ st s, (s = .accepted ∨ ∃ addr, s = .dialing addr) ∧ r = opened st s stream
  step r x := r.step bincode cfg cookie t x

section Inversion
variable {bincode} {cfg cookie t} {r r' : Receiver P} {x : RecvAct P}

theorem hand_eq_some {res : ReadResult P} (h : r.hand cfg cookie t res = some r') :
    ∃ o, sessionStep cfg cookie t r.state r.session (.read res) = some o ∧
      r' = { r with
        state := o.state, session := o.session, handed := r.handed ++ res.messages } := by
  obtain ⟨o, ho, rfl⟩ := Option.map_eq_some_iff.mp h
  exact ⟨o, ho, rfl⟩

/-- A byte is taken, or the end is met. -/
theorem polled_cases {q : Polled P} (h : r.polled bincode = some q) :
    (∃ b rest p, r.arrived = b :: rest ∧ r.reader.push bincode MAX_FRAME_LEN b = .more p ∧
      q = .more p rest) ∨
    (∃ b rest m, r.arrived = b :: rest ∧ r.reader.push bincode MAX_FRAME_LEN b = .message m ∧
      q = .message m rest) ∨ q = .stopped .eof ∨ q = .stopped .error := by
  rw [polled] at h
  split at h
  · rename_i b rest ha
    split at h <;> cases h
    · rename_i p hb
      exact .inl ⟨b, rest, p, ha, hb, rfl⟩
    · rename_i m hb
      exact .inr (.inl ⟨b, rest, m, ha, hb, rfl⟩)
    · exact .inr (.inr (.inr rfl))
  · split at h <;> cases h
    · exact .inr (.inr (.inl rfl))
    · exact .inr (.inr (.inr rfl))
  · cases h

theorem polled_more {p : Partial} {rest : Bytes} (h : r.polled bincode = some (.more p rest)) :
    ∃ b, r.arrived = b :: rest ∧ r.reader.push bincode MAX_FRAME_LEN b = .more p := by
  rcases polled_cases h with ⟨b, rest', p', ha, hb, hq⟩ | ⟨b, rest', m, -, -, hq⟩ | hq | hq <;>
    cases hq
  exact ⟨b, ha, hb⟩

theorem polled_message {m : Message P} {rest : Bytes}
    (h : r.polled bincode = some (.message m rest)) :
    ∃ b, r.arrived = b :: rest ∧ r.reader.push bincode MAX_FRAME_LEN b = .message m := by
  rcases polled_cases h with ⟨b, rest', p, -, -, hq⟩ | ⟨b, rest', m', ha, hb, hq⟩ | hq | hq <;>
    cases hq
  exact ⟨b, ha, hb⟩

/-- The last return of `read_frame` carries no message. -/
theorem polled_stopped {res : ReadResult P} (h : r.polled bincode = some (.stopped res)) :
    res = .eof ∨ res = .error := by
  rcases polled_cases h with ⟨b, rest, p, -, -, hq⟩ | ⟨b, rest, m, -, -, hq⟩ | hq | hq <;> cases hq
  · exact .inl rfl
  · exact .inr rfl

end Inversion

/-- What a step can do. -/
inductive Move (r : Receiver P) : RecvAct P → Receiver P → Prop
  | others (st : DaemonState P) : Move r (.others st) { r with state := st }
  | arrived (n : ℕ) : Move r (.arrive n)
      { r with inFlight := r.inFlight.drop n, arrived := r.arrived ++ r.inFlight.take n }
  | closed (e : Ending) : Move r (.close e) { r with inFlight := [], ending := some e }
  | took {p : Partial} {rest : Bytes} (h : r.polled bincode = some (.more p rest)) :
      Move r .poll { r with reader := p, arrived := rest }
  | greeted {m : Message P} {rest : Bytes} {r' : Receiver P}
      (hp : r.session.phase.readsHandshake = true)
      (h : r.polled bincode = some (.message m rest))
      (hr : hand cfg cookie t { r with reader := .start, arrived := rest } (.message m) = some r') :
      Move r .poll r'
  | ungreeted {res : ReadResult P} {r' : Receiver P}
      (hp : r.session.phase.readsHandshake = true) (h : r.polled bincode = some (.stopped res))
      (hr : hand cfg cookie t r res = some r') : Move r .poll r'
  | decoded {m : Message P} {rest : Bytes} (ht : r.task = .reading)
      (h : r.polled bincode = some (.message m rest)) :
      Move r .poll { r with reader := .start, arrived := rest, task := .sending (.message m) }
  | stopped {task : ReaderTask P} (ht : r.task = .reading) (hm : task.messages = []) :
      Move r .poll { r with task := task }
  | sent {res : ReadResult P} {task : ReaderTask P} (ht : r.task = .sending res)
      (hm : task.messages = []) :
      Move r .send { r with channel := r.channel ++ [res], task := task }
  | received {peer : PeerId P} {res : ReadResult P} {rest : List (ReadResult P)}
      {r' : Receiver P} (hp : r.session.phase = .live peer .select) (hc : r.channel = res :: rest)
      (hr : hand cfg cookie t { r with channel := rest } res = some r') : Move r .recv r'
  | ended {peer : PeerId P} {r' : Receiver P} (hp : r.session.phase = .live peer .select)
      (hr : hand cfg cookie t r .eof = some r') : Move r .recv r'
  | event {e : TaskEvent P} {o : Outcome P} (he : ∀ res, e ≠ .read res)
      (ho : sessionStep cfg cookie t r.state r.session e = some o) :
      Move r (.event e)
        { r with state := o.state, session := o.session, task := r.task.spawn r.session.phase }

section Steps
variable {bincode} {cfg cookie t} {r r' : Receiver P} {x : RecvAct P}

theorem poll_move (h : r.poll bincode cfg cookie t = some r') :
    Move bincode cfg cookie t r .poll r' := by
  rw [poll] at h
  split at h
  · rename_i hp
    rw [pollHandshake] at h
    split at h
    · rename_i hpolled
      cases h
      exact .took hpolled
    · rename_i hpolled
      exact .greeted hp hpolled h
    · rename_i hpolled
      exact .ungreeted hp hpolled h
    · cases h
  · split at h
    · rename_i ht
      rw [pollTask] at h
      split at h
      · rename_i hpolled
        cases h
        exact .took hpolled
      · rename_i hpolled
        cases h
        exact .decoded ht hpolled
      · cases h
        exact .stopped ht rfl
      · rename_i res _ hpolled
        cases h
        refine .stopped ht ?_
        rcases polled_stopped hpolled with rfl | rfl <;> rfl
      · cases h
    · cases h

theorem send_move (h : r.send = some r') : Move bincode cfg cookie t r .send r' := by
  rw [send] at h
  split at h
  · rename_i ht
    split at h
    · cases h
      exact .sent ht rfl
    · cases h
  · rename_i ht
    split at h
    · cases h
      exact .sent ht rfl
    · cases h
  · cases h

theorem recv_move (h : r.recv cfg cookie t = some r') : Move bincode cfg cookie t r .recv r' := by
  rw [recv] at h
  split at h
  · rename_i hp
    split at h
    · rename_i hc
      exact .received hp hc h
    · exact .ended hp h
    · cases h
  · cases h

theorem step_move (h : r.step bincode cfg cookie t x = some r') :
    Move bincode cfg cookie t r x r' := by
  rw [step.eq_def] at h
  split at h
  · cases h
    exact .others _
  · cases h
    exact .arrived _
  · split at h
    · cases h
      exact .closed _
    · cases h
  · exact poll_move h
  · exact send_move h
  · exact recv_move h
  · cases h
  · rename_i e he
    obtain ⟨o, ho, rfl⟩ := Option.map_eq_some_iff.mp h
    exact .event he ho

end Steps

/-- The reader has taken the front of `bytes`; what has arrived and what is in flight
follows. -/
def Reads (bytes : Bytes) (r : Receiver P) : Prop :=
  Partial.Unread bincode MAX_FRAME_LEN bytes r.reader (r.arrived ++ r.inFlight)

/-! ## Order and loss -/

variable {bincode} {cfg cookie t} {r r' : Receiver P} {x : RecvAct P}

section Reads
variable {bytes : Bytes}

theorem Reads.arrive (h : r.Reads bincode bytes) (n : ℕ) :
    Reads bincode bytes
      { r with inFlight := r.inFlight.drop n, arrived := r.arrived ++ r.inFlight.take n } := by
  rw [Reads, List.append_assoc, List.take_append_drop]
  exact h

theorem Reads.close (h : r.Reads bincode bytes) (e : Ending) :
    Reads bincode bytes { r with inFlight := [], ending := some e } := by
  rw [Reads, List.append_nil]
  exact h.lose

theorem Reads.take {p : Partial} {rest : Bytes} (h : r.Reads bincode bytes)
    (hpolled : r.polled bincode = some (.more p rest)) :
    Reads bincode bytes { r with reader := p, arrived := rest } := by
  obtain ⟨b, ha, hb⟩ := polled_more hpolled
  rw [Reads, ha] at h
  exact h.more hb

/-- The verdict on a frame is one on the whole stream. -/
theorem Reads.message {m : Message P} {rest : Bytes} (h : r.Reads bincode bytes)
    (hpolled : r.polled bincode = some (.message m rest)) :
    ∃ lost, Partial.feed bincode MAX_FRAME_LEN .start bytes =
      (.message m, rest ++ r.inFlight ++ lost) := by
  obtain ⟨b, ha, hb⟩ := polled_message hpolled
  rw [Reads, ha] at h
  exact h.decided hb (by simp)

end Reads

/-- Read by the task and not yet handled. -/
def pending (r : Receiver P) : List (Message P) :=
  r.channel.flatMap ReadResult.messages ++ r.task.messages

/-- Before the loop there is no reader task and nothing in the channel. -/
def Quiet (r : Receiver P) : Prop :=
  r.session.phase.beforeLoop = true → r.task = .notSpawned ∧ r.channel = []

theorem Quiet.pending_eq_nil (hq : r.Quiet) (hp : r.session.phase.beforeLoop = true) :
    r.pending = [] := by
  obtain ⟨ht, hc⟩ := hq hp
  rw [pending, ht, hc]
  rfl

/-- Spawning the reader task loses nothing. -/
theorem Quiet.messages_spawn (hq : r.Quiet) :
    (r.task.spawn r.session.phase).messages = r.task.messages := by
  rw [ReaderTask.spawn.eq_def]
  split
  · rename_i hp
    have hb : r.session.phase.beforeLoop = true := by
      rw [hp]
      rfl
    rw [(hq hb).1]
    rfl
  · rfl

theorem hand_beforeLoop {res : ReadResult P} (h : r.hand cfg cookie t res = some r')
    (hb : r'.session.phase.beforeLoop = true) : r.session.phase.beforeLoop = true := by
  obtain ⟨o, ho, rfl⟩ := hand_eq_some h
  exact ((sessionStep_move ho).beforeLoop hb).1

theorem quiet_step (hq : r.Quiet) (h : r.step bincode cfg cookie t x = some r') : r'.Quiet := by
  intro hb
  cases step_move h with
  | others | arrived | closed | took => exact hq hb
  | greeted _ _ hr | ungreeted _ _ hr =>
    have hbefore := hand_beforeLoop hr hb
    have hr' := hq hbefore
    obtain ⟨o, -, rfl⟩ := hand_eq_some hr
    exact hr'
  | decoded ht | stopped ht | sent ht =>
    have hnone := (hq hb).1
    rw [ht] at hnone
    cases hnone
  | received hp _ hr | ended hp hr =>
    have hsel := hand_beforeLoop hr hb
    rw [hp] at hsel
    cases hsel
  | event _ ho =>
    obtain ⟨hbefore, hspawn⟩ := (sessionStep_move ho).beforeLoop hb
    rw [hspawn]
    exact hq hbefore

/-- A read that completes gives the next message. -/
theorem Reads.next {ms : List (Message P)} {payloads : List Bytes} {m : Message P} {rest : Bytes}
    (h : r.Reads bincode (stream payloads)) (hms : Payloads bincode ms payloads)
    (hpolled : r.polled bincode = some (.message m rest)) :
    ∃ ms' payloads', ms = m :: ms' ∧ Payloads bincode ms' payloads' ∧
      Partial.Unread bincode MAX_FRAME_LEN (stream payloads') .start (rest ++ r.inFlight) := by
  obtain ⟨lost, hfeed⟩ := h.message hpolled
  cases hms with
  | nil => cases hfeed
  | @cons m' payload ms' payloads' hm hms =>
    rw [stream_cons, feed_frame bincode hm.1 hm.2, Prod.mk.injEq] at hfeed
    obtain ⟨hm', hrest⟩ := hfeed
    cases hm'
    exact ⟨ms', payloads', rfl, hms, ⟨[], lost, hrest, rfl⟩⟩

/-- The messages not yet read are those of a stream that the reader is at the front of. -/
def Delivers (bincode : Codec (Message P)) (ms : List (Message P)) (r : Receiver P) : Prop :=
  ∃ ms' payloads, Payloads bincode ms' payloads ∧ ms = r.handed ++ r.pending ++ ms' ∧
    r.Reads bincode (stream payloads)

theorem delivers_step {ms : List (Message P)} (hq : r.Quiet) (hi : Delivers bincode ms r)
    (h : r.step bincode cfg cookie t x = some r') : Delivers bincode ms r' := by
  obtain ⟨ms', payloads, hms, heq, hu⟩ := hi
  cases step_move h with
  | others => exact ⟨ms', payloads, hms, heq, hu⟩
  | arrived n => exact ⟨ms', payloads, hms, heq, hu.arrive n⟩
  | closed e => exact ⟨ms', payloads, hms, heq, hu.close e⟩
  | took hpolled => exact ⟨ms', payloads, hms, heq, hu.take hpolled⟩
  | @greeted m rest r' hp hpolled hr =>
    obtain ⟨ms'', payloads', rfl, hms', hu'⟩ := hu.next hms hpolled
    -- Nothing is read ahead of the handshake, so this message is the next one.
    have hpend := hq.pending_eq_nil (Phase.beforeLoop_of_readsHandshake hp)
    obtain ⟨o, -, rfl⟩ := hand_eq_some hr
    refine ⟨ms'', payloads', hms', ?_, hu'⟩
    change ms = r.handed ++ [m] ++ r.pending ++ ms''
    rw [heq, hpend]
    simp
  | ungreeted hp hpolled hr =>
    obtain ⟨o, -, rfl⟩ := hand_eq_some hr
    refine ⟨ms', payloads, hms, ?_, hu⟩
    rcases polled_stopped hpolled with rfl | rfl <;>
      exact heq.trans (congrArg (· ++ r.pending ++ ms') (List.append_nil _).symm)
  | decoded ht hpolled =>
    obtain ⟨ms'', payloads', rfl, hms', hu'⟩ := hu.next hms hpolled
    refine ⟨ms'', payloads', hms', ?_, hu'⟩
    rw [heq]
    simp [pending, ht, ReaderTask.messages, ReadResult.messages]
  | stopped ht hm =>
    refine ⟨ms', payloads, hms, ?_, hu⟩
    rw [heq, pending, pending, hm, ht]
    rfl
  | sent ht hm =>
    refine ⟨ms', payloads, hms, ?_, hu⟩
    rw [heq, pending, pending, hm, ht]
    simp [ReaderTask.messages]
  | received hp hc hr =>
    obtain ⟨o, -, rfl⟩ := hand_eq_some hr
    refine ⟨ms', payloads, hms, ?_, hu⟩
    rw [heq]
    simp [pending, hc]
  | ended hp hr =>
    obtain ⟨o, -, rfl⟩ := hand_eq_some hr
    exact ⟨ms', payloads, hms,
      heq.trans (congrArg (· ++ r.pending ++ ms') (List.append_nil _).symm), hu⟩
  | event _ ho =>
    refine ⟨ms', payloads, hms, ?_, hu⟩
    rw [heq, pending, pending, hq.messages_spawn]

/-- For every sequence of messages, every way its bytes arrive and every interleaving of
the reads with the rest of the daemon, the messages handed to the handshake and to the
handlers of the loop are a prefix of those sent. -/
theorem handed_prefix {ms : List (Message P)} {payloads : List Bytes}
    (hms : Payloads bincode ms payloads)
    (hr : (system bincode cfg cookie t (stream payloads)).Reach System.any r) :
    r.handed <+: ms := by
  have hi : r.Quiet ∧ Delivers bincode ms r := by
    refine hr.invariant (I := fun r => r.Quiet ∧ Delivers bincode ms r) ?_ fun r x r' hi _ hs =>
      ⟨quiet_step hi.1 hs, delivers_step hi.1 hi.2 hs⟩
    rintro _ ⟨st, s, -, rfl⟩
    exact ⟨fun _ => ⟨rfl, rfl⟩, ms, payloads, hms, rfl, Partial.Unread.start⟩
  obtain ⟨-, ms', payloads', -, heq, -⟩ := hi
  rw [heq, List.append_assoc]
  exact List.prefix_append _ _

section
open Reference

/-- The payloads of a handshake of `b` and a heartbeat. -/
def greetingAndBeat : List Bytes := [(serialize (hello "b")).getD [], [4, 0, 0, 0]]

abbrev receivers (bytes : Bytes) : System (Receiver platform) (RecvAct platform) :=
  system Reference.bincode config Reference.cookie 0 bytes

/-- A connection just accepted by the daemon `a`. -/
def acceptedOn (bytes : Bytes) : Option (Receiver platform) :=
  daemon.map fun d => opened d.state .accepted bytes

theorem acceptedOn_init {bytes : Bytes} (r : Receiver platform) (h : acceptedOn bytes = some r) :
    (receivers bytes).init r := by
  obtain ⟨d, -, rfl⟩ := Option.map_eq_some_iff.mp h
  exact ⟨d.state, .accepted, .inl rfl, rfl⟩

/-- `b` is registered, the loop is entered and a heartbeat is received there. -/
def registersAndReceives : List (RecvAct platform) :=
  .arrive 200 :: .replicate 117 .poll ++ [.event locked, .event (.wrote true), .event locked,
    .event (.wrote true), .event locked] ++ .replicate 8 .poll ++ [.send, .recv]

theorem handed_prefix_loop : ∃ r, (receivers (stream greetingAndBeat)).Reach System.any r ∧
    r.handed <+: [hello "b", .heartbeat] ∧ r.handed.length = 2 := by
  have heval : ((acceptedOn (stream greetingAndBeat)).bind fun r =>
      ((receivers (stream greetingAndBeat)).guard fun _ _ => true).run r
        registersAndReceives).any (fun r => r.handed.length == 2) = true := by
    decide +kernel
  obtain ⟨r, hr, hlen⟩ := System.Reach.of_eval (C := System.any) heval (fun _ _ _ => trivial)
    acceptedOn_init
  exact ⟨r, hr, handed_prefix (.cons ⟨rfl, by decide +kernel⟩ (.cons ⟨rfl, by decide⟩ .nil)) hr,
    beq_iff_eq.mp hlen⟩

end

end Receiver
end Pmd
