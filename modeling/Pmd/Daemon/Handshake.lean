import Pmd.Daemon.Receiver

/-!
# Handshakes that fail

Both session functions make their checks before they touch the shared state, the
last of them under the lock that also covers the registration. So an unregistered
session has changed nothing, whatever it has read, and one that registers has read
a message that passes.
-/
namespace Pmd
open Foundation

variable {P : Platform}

/-- What the checks look at. -/
structure Hello (P : Platform) where
  peer : PeerId P
  nonce : Nonce
  cookieHmac : Bytes
  protocolVersion : UInt32

def Hello.Proves (cookie : Bytes) (f : Hello P) : Prop :=
  f.protocolVersion = PROTOCOL_VERSION ∧ verifyCookieHmac P cookie f.nonce f.cookieHmac = true

namespace Side

/-- A `Handshake` on an accepted connection, a `HandshakeAck` on a dialed one. -/
def expects : Side P → Message P → Option (Hello P)
  | .inbound, .handshake nodeId addr nonce mac _ v => some ⟨⟨nodeId, addr⟩, nonce, mac, v⟩
  | .outbound _, .handshakeAck nodeId addr nonce mac _ _ v => some ⟨⟨nodeId, addr⟩, nonce, mac, v⟩
  | _, _ => none

def awaits : Side P → Opening P
  | .inbound => .readHandshake
  | .outbound _ => .readAck

def check (cookie : Bytes) : Side P → Message P → Option (PeerId P × VersionVector String)
  | .inbound => checkHandshake cookie
  | .outbound _ => checkAck cookie

variable {cookie : Bytes} {side : Side P} {m : Message P} {peer : PeerId P}
  {vv : VersionVector String}

theorem check_eq_some (h : side.check cookie m = some (peer, vv)) :
    ∃ f, side.expects m = some f ∧ f.peer = peer ∧ f.Proves cookie := by
  cases side with
  | inbound =>
    rw [check, checkHandshake.eq_def] at h
    split at h
    · obtain ⟨hproof, h⟩ := Option.ite_none_right_eq_some.mp h
      cases h
      exact ⟨_, rfl, rfl, hproof⟩
    · cases h
  | outbound addr =>
    rw [check, checkAck.eq_def] at h
    split at h
    · obtain ⟨hproof, h⟩ := Option.ite_none_right_eq_some.mp h
      cases h
      exact ⟨_, rfl, rfl, hproof⟩
    · cases h

theorem check_eq_none (h : ∀ f, side.expects m = some f → ¬ f.Proves cookie) :
    side.check cookie m = none := by
  cases hc : side.check cookie m with
  | none => rfl
  | some c =>
    obtain ⟨f, hf, -, hproof⟩ := check_eq_some hc
    exact absurd hproof (h f hf)

theorem readsHandshake_of_awaits {p : Phase P} (hp : p = .opening side.awaits) :
    p.readsHandshake = true := by
  rw [hp]
  cases side <;> rfl

/-- No other await reads the handshake. -/
theorem eq_of_awaits {o : Opening P} (h : Phase.opening side.awaits = .opening o) :
    o = .readHandshake ∨ o = .readAck := by
  cases h
  cases side with
  | inbound => exact .inl rfl
  | outbound _ => exact .inr rfl

end Side

section Session
variable {cfg : Config} {cookie : Bytes} {t : TaskId} {st : DaemonState P} {s : Session P}

theorem sessionStep_check {m : Message P} (hp : s.phase = .opening s.side.awaits) :
    sessionStep cfg cookie t st s (.read (.message m)) =
      some ⟨st, s.goto ((s.side.check cookie m).elim (.ended none)
        fun c => .opening (.register c.1 c.2)), none⟩ := by
  cases hs : s.side with
  | inbound =>
    rw [hs] at hp
    simp only [sessionStep, hp, Side.awaits, openingStep, Side.check]
    cases checkHandshake cookie m <;> rfl
  | outbound addr =>
    rw [hs] at hp
    simp only [sessionStep, hp, Side.awaits, openingStep, Side.check]
    cases checkAck cookie m <;> rfl

theorem sessionStep_unread {res : ReadResult P} (hp : s.phase = .opening s.side.awaits)
    (hr : res = .eof ∨ res = .error) :
    sessionStep cfg cookie t st s (.read res) = some ⟨st, s.goto (.ended none), none⟩ := by
  cases hs : s.side <;> rw [hs] at hp <;> rcases hr with rfl | rfl <;>
    simp only [sessionStep, hp, Side.awaits, openingStep]

/-- An inbound session that registers has parsed the listen address. -/
theorem registerStep_listens {peer peer' : PeerId P} {vv : VersionVector String} {nonce : Nonce}
    {stage : Stage P} (hs : s.side = .inbound)
    (h : (registerStep cfg cookie t st s peer vv nonce).session.phase = .live peer' stage) :
    (cfg.listenAddr P).isSome = true := by
  cases hl : cfg.listenAddr P with
  | some l => rfl
  | none =>
    simp only [registerStep, hs, hl] at h
    split at h <;> cases h

end Session

/-- What the steps of the other tasks leave of the shared state. -/
def RecvAct.effect : RecvAct P → DaemonState P → DaemonState P
  | .others st, _ => st
  | _, st => st

namespace Receiver
variable (bincode : Codec (Message P)) (cfg : Config) (cookie : Bytes) (t : TaskId)

/-- The step `x` makes the session one that is registered. -/
def Registers (r : Receiver P) (x : RecvAct P) : Prop :=
  ∃ r' peer stage, r.step bincode cfg cookie t x = some r' ∧ r'.session.phase = .live peer stage

/-- All checks: `bytes` begins with a frame of the message expected, of this protocol
version and with a proof of the cookie; its sender is not connected, and the address
to listen on parses. -/
structure Passes (bytes : Bytes) (st : DaemonState P) (side : Side P) (peer : PeerId P) : Prop where
  read : ∃ m rest f, readFrame bincode ⟨bytes, .eof⟩ = .ok (some m, rest) ∧
    side.expects m = some f ∧ f.peer = peer ∧ f.Proves cookie
  new : peer.nodeId ∉ st.peers
  listens : (cfg.listenAddr P).isSome = true

/-- The ways a session can fail before its registration. -/
inductive Refused (r : Receiver P) : RecvAct P → Prop
  /-- The stream is closed, or breaks off inside the frame. -/
  | closed {e : Ending} (hp : r.session.phase.readsHandshake = true) (ha : r.arrived = [])
      (he : r.ending = some e) : Refused r .poll
  /-- The frame is oversized or does not decode. -/
  | malformed {b : UInt8} {rest : Bytes} {err : FrameError}
      (hp : r.session.phase.readsHandshake = true) (ha : r.arrived = b :: rest)
      (hb : r.reader.push bincode MAX_FRAME_LEN b = .bad err) : Refused r .poll
  | unexpected {b : UInt8} {rest : Bytes} {m : Message P}
      (hp : r.session.phase.readsHandshake = true) (ha : r.arrived = b :: rest)
      (hb : r.reader.push bincode MAX_FRAME_LEN b = .message m)
      (hm : r.session.side.expects m = none) : Refused r .poll
  | version {b : UInt8} {rest : Bytes} {m : Message P} {f : Hello P}
      (hp : r.session.phase.readsHandshake = true) (ha : r.arrived = b :: rest)
      (hb : r.reader.push bincode MAX_FRAME_LEN b = .message m)
      (hm : r.session.side.expects m = some f) (hv : f.protocolVersion ≠ PROTOCOL_VERSION) :
      Refused r .poll
  | proof {b : UInt8} {rest : Bytes} {m : Message P} {f : Hello P}
      (hp : r.session.phase.readsHandshake = true) (ha : r.arrived = b :: rest)
      (hb : r.reader.push bincode MAX_FRAME_LEN b = .message m)
      (hm : r.session.side.expects m = some f)
      (hv : verifyCookieHmac P cookie f.nonce f.cookieHmac = false) : Refused r .poll
  | duplicate {peer : PeerId P} {vv : VersionVector String} {nonce : Nonce} {epoch : Option ℕ}
      {now : ℕ} (hp : r.session.phase = .opening (.register peer vv))
      (hd : peer.nodeId ∈ r.state.peers) : Refused r (.event (.lock nonce epoch now))
  | unparsableInbound {peer : PeerId P} {vv : VersionVector String} {nonce : Nonce}
      {epoch : Option ℕ} {now : ℕ} (hp : r.session.phase = .opening (.register peer vv))
      (hs : r.session.side = .inbound) (hl : cfg.listenAddr P = none) :
      Refused r (.event (.lock nonce epoch now))
  | unparsableOutbound {nonce : Nonce} (hp : r.session.phase = .opening .connect)
      (hl : cfg.listenAddr P = none) : Refused r (.event (.connected nonce))
  | unreachable (hp : r.session.phase = .opening .connect) : Refused r (.event .connectFailed)
  | unwritten {m : Message P} (hp : r.session.phase = .opening (.writeHandshake m)) :
      Refused r (.event (.wrote false))

/-- Where a session stands that has not registered. -/
inductive Unregistered (bytes : Bytes) (r : Receiver P) : Prop
  | connecting {addr : P.Addr} (hs : r.session.side = .outbound addr)
      (hp : r.session.phase = .opening .connect) (hu : r.Reads bincode bytes)
  | greeting {addr : P.Addr} {m : Message P} (hs : r.session.side = .outbound addr)
      (hp : r.session.phase = .opening (.writeHandshake m))
      (hl : (cfg.listenAddr P).isSome = true) (hu : r.Reads bincode bytes)
  | awaiting (hp : r.session.phase = .opening r.session.side.awaits)
      (hl : r.session.side = .inbound ∨ (cfg.listenAddr P).isSome = true)
      (hu : r.Reads bincode bytes)
  | checked {peer : PeerId P} {vv : VersionVector String} {m : Message P} {lost : Bytes}
      (hp : r.session.phase = .opening (.register peer vv))
      (hl : r.session.side = .inbound ∨ (cfg.listenAddr P).isSome = true)
      (hm : Partial.feed bincode MAX_FRAME_LEN .start bytes = (.message m, lost))
      (hc : r.session.side.check cookie m = some (peer, vv))
  | refused (hp : r.session.phase = .ended none)

section Steps
variable {bincode} {cfg cookie t} {r r' : Receiver P} {x : RecvAct P} {bytes : Bytes}

theorem Unregistered.opening_or_ended (hi : Unregistered bincode cfg cookie bytes r) :
    (∃ o, r.session.phase = .opening o) ∨ r.session.phase = .ended none := by
  cases hi with
  | connecting _ hp | greeting _ hp | awaiting hp | checked hp => exact .inl ⟨_, hp⟩
  | refused hp => exact .inr hp

/-- The read of an unregistered session is at the front of the stream. -/
theorem Unregistered.unread (hi : Unregistered bincode cfg cookie bytes r)
    (hp : r.session.phase.readsHandshake = true) :
    r.session.phase = .opening r.session.side.awaits ∧
      (r.session.side = .inbound ∨ (cfg.listenAddr P).isSome = true) ∧ r.Reads bincode bytes := by
  cases hi with
  | awaiting hp' hl hu => exact ⟨hp', hl, hu⟩
  | connecting _ hp' | greeting _ hp' | checked hp' | refused hp' =>
    rw [hp'] at hp
    cases hp

/-- While bytes arrive or are read without a verdict, the session stays where it is. -/
theorem Unregistered.wait (hi : Unregistered bincode cfg cookie bytes r)
    (hs : r'.session = r.session) (hu : r.Reads bincode bytes → r'.Reads bincode bytes) :
    Unregistered bincode cfg cookie bytes r' := by
  cases hi with
  | connecting hside hp h => exact .connecting (hs ▸ hside) (hs ▸ hp) (hu h)
  | greeting hside hp hl h => exact .greeting (hs ▸ hside) (hs ▸ hp) hl (hu h)
  | awaiting hp hl h => exact .awaiting (hs ▸ hp) (hs ▸ hl) (hu h)
  | checked hp hl hm hc => exact .checked (hs ▸ hp) (hs ▸ hl) hm (hs ▸ hc)
  | refused hp => exact .refused (hs ▸ hp)

theorem Unregistered.not_live (hi : Unregistered bincode cfg cookie bytes r) (peer : PeerId P)
    (stage : Stage P) : r.session.phase ≠ .live peer stage := by
  rcases hi.opening_or_ended with ⟨o, hp⟩ | hp <;> rw [hp] <;> simp

theorem Unregistered.of_connect (hi : Unregistered bincode cfg cookie bytes r)
    (hp : r.session.phase = .opening .connect) :
    ∃ addr, r.session.side = .outbound addr ∧ r.Reads bincode bytes := by
  cases hi with
  | connecting hs _ hu => exact ⟨_, hs, hu⟩
  | awaiting hp' => rcases Side.eq_of_awaits (hp'.symm.trans hp) with h | h <;> cases h
  | greeting _ hp' | checked hp' | refused hp' => cases hp'.symm.trans hp

theorem Unregistered.of_greeting {m : Message P} (hi : Unregistered bincode cfg cookie bytes r)
    (hp : r.session.phase = .opening (.writeHandshake m)) :
    ∃ addr, r.session.side = .outbound addr ∧ (cfg.listenAddr P).isSome = true ∧
      r.Reads bincode bytes := by
  cases hi with
  | greeting hs _ hl hu => exact ⟨_, hs, hl, hu⟩
  | awaiting hp' => rcases Side.eq_of_awaits (hp'.symm.trans hp) with h | h <;> cases h
  | connecting _ hp' | checked hp' | refused hp' => cases hp'.symm.trans hp

theorem Unregistered.of_register {peer : PeerId P} {vv : VersionVector String}
    (hi : Unregistered bincode cfg cookie bytes r)
    (hp : r.session.phase = .opening (.register peer vv)) :
    (r.session.side = .inbound ∨ (cfg.listenAddr P).isSome = true) ∧ ∃ m lost,
      Partial.feed bincode MAX_FRAME_LEN .start bytes = (.message m, lost) ∧
      r.session.side.check cookie m = some (peer, vv) := by
  cases hi with
  | checked hp' hl hm hc =>
    cases hp'.symm.trans hp
    exact ⟨hl, _, _, hm, hc⟩
  | awaiting hp' => rcases Side.eq_of_awaits (hp'.symm.trans hp) with h | h <;> cases h
  | connecting _ hp' | greeting _ hp' | refused hp' => cases hp'.symm.trans hp

theorem Unregistered.event {e : TaskEvent P} {o : Outcome P}
    (hi : Unregistered bincode cfg cookie bytes r) (he : ∀ res, e ≠ .read res)
    (ho : sessionStep cfg cookie t r.state r.session e = some o) (task : ReaderTask P) :
    (Unregistered bincode cfg cookie bytes
        { r with state := o.state, session := o.session, task := task } ∧ o.state = r.state) ∨
      ∃ peer stage, o.session.phase = .live peer stage ∧
        Passes bincode cfg cookie bytes r.state r.session.side peer := by
  cases sessionStep_move ho with
  | dialed hp hl =>
    obtain ⟨addr, hs, hu⟩ := hi.of_connect hp
    exact .inl ⟨.greeting hs rfl (by rw [hl]; rfl) hu, rfl⟩
  | refused => exact .inl ⟨.refused rfl, rfl⟩
  | greeted hp =>
    obtain ⟨addr, hs, hl, hu⟩ := hi.of_greeting hp
    refine .inl ⟨.awaiting ?_ (.inr hl) hu, rfl⟩
    change Phase.opening .readAck = .opening r.session.side.awaits
    rw [hs]
    rfl
  | checked => exact absurd rfl (he _)
  | registered hp hnew =>
    obtain ⟨hl, m, lost, hm, hc⟩ := hi.of_register hp
    obtain ⟨f, hf, hpeer, hproof⟩ := Side.check_eq_some hc
    simp only [sessionStep, hp, openingStep, Option.some.injEq] at ho
    refine .inr ⟨_, _, rfl, ⟨m, ⟨lost, .eof⟩, f, ?_, hf, hpeer, hproof⟩, hnew, ?_⟩
    · rw [readFrame_eq_outcome, hm]
      rfl
    · exact hl.elim (fun hs => registerStep_listens hs (by rw [ho]; rfl)) id
  | wrote hp | setupFailed hp | panicked hp | built hp | gossiped hp | beat hp | token hp
  | received hp | moved hp | recorded hp | merged hp | cleaned hp =>
    exact absurd hp (hi.not_live _ _)

theorem unregistered_step (hq : r.Quiet) (hi : Unregistered bincode cfg cookie bytes r)
    (h : r.step bincode cfg cookie t x = some r') :
    (Unregistered bincode cfg cookie bytes r' ∧ r'.state = x.effect r.state) ∨
      ∃ peer stage, r'.session.phase = .live peer stage ∧
        Passes bincode cfg cookie bytes r.state r.session.side peer := by
  cases step_move h with
  | others => exact .inl ⟨hi.wait rfl id, rfl⟩
  | arrived n => exact .inl ⟨hi.wait rfl fun hu => hu.arrive n, rfl⟩
  | closed e => exact .inl ⟨hi.wait rfl fun hu => hu.close e, rfl⟩
  | took hpolled => exact .inl ⟨hi.wait rfl fun hu => hu.take hpolled, rfl⟩
  | @greeted m rest r' hp hpolled hr =>
    obtain ⟨hp', hl, hu⟩ := hi.unread hp
    obtain ⟨lost, hfeed⟩ := hu.message hpolled
    obtain ⟨o, ho, rfl⟩ := hand_eq_some hr
    rw [sessionStep_check hp', Option.some.injEq] at ho
    subst ho
    refine .inl ⟨?_, rfl⟩
    rcases hc : r.session.side.check cookie m with _ | ⟨peer, vv⟩
    · exact .refused rfl
    · exact .checked rfl hl hfeed hc
  | ungreeted hp hpolled hr =>
    obtain ⟨hp', -, -⟩ := hi.unread hp
    obtain ⟨o, ho, rfl⟩ := hand_eq_some hr
    rw [sessionStep_unread hp' (polled_stopped hpolled), Option.some.injEq] at ho
    subst ho
    exact .inl ⟨.refused rfl, rfl⟩
  | decoded ht =>
    -- The reader task is spawned after the registration only.
    rcases hi.opening_or_ended with ⟨o, hp⟩ | hp
    · have hnone := (hq (by rw [hp]; rfl)).1
      rw [ht] at hnone
      cases hnone
    · exact .inl ⟨.refused hp, rfl⟩
  | stopped | sent => exact .inl ⟨hi.wait rfl id, rfl⟩
  | received hp | ended hp => exact absurd hp (hi.not_live _ _)
  | event he ho => exact hi.event he ho _

/-- A message that does not prove the cookie ends the session. -/
theorem poll_unproved {b : UInt8} {rest : Bytes} {m : Message P}
    (hp : r.session.phase = .opening r.session.side.awaits) (ha : r.arrived = b :: rest)
    (hb : r.reader.push bincode MAX_FRAME_LEN b = .message m)
    (hm : ∀ f, r.session.side.expects m = some f → ¬ f.Proves cookie) :
    ∃ r', r.poll bincode cfg cookie t = some r' ∧ r'.state = r.state ∧
      r'.session.phase = .ended none := by
  have hpolled : r.polled bincode = some (.message m rest) := by
    simp only [polled, ha, hb]
  rw [poll, if_pos (Side.readsHandshake_of_awaits hp), pollHandshake, hpolled]
  simp only [hand, sessionStep_check hp, Side.check_eq_none hm, Option.map_some]
  exact ⟨_, rfl, rfl, rfl⟩

theorem poll_stopped {res : ReadResult P} (hp : r.session.phase = .opening r.session.side.awaits)
    (h : r.polled bincode = some (.stopped res)) :
    ∃ r', r.poll bincode cfg cookie t = some r' ∧ r'.state = r.state ∧
      r'.session.phase = .ended none := by
  rw [poll, if_pos (Side.readsHandshake_of_awaits hp), pollHandshake, h]
  simp only [hand, sessionStep_unread hp (polled_stopped h), Option.map_some]
  exact ⟨_, rfl, rfl, rfl⟩

theorem event_ends {e : TaskEvent P} (h : sessionStep cfg cookie t r.state r.session e =
      some ⟨r.state, r.session.goto (.ended none), none⟩) :
    ∃ r', r.event cfg cookie t e = some r' ∧ r'.state = r.state ∧
      r'.session.phase = .ended none := by
  rw [event, h]
  exact ⟨_, rfl, rfl, rfl⟩

/-- Every failure ends the session and leaves the shared state as it was. -/
theorem Refused.ends (hi : Unregistered bincode cfg cookie bytes r)
    (h : Refused bincode cfg cookie r x) :
    ∃ r', r.step bincode cfg cookie t x = some r' ∧ r'.state = r.state ∧
      r'.session.phase = .ended none := by
  cases h with
  | @closed e hp ha he =>
    cases hend : r.reader.finish e with
    | ok _ =>
      have hpolled : r.polled bincode = some (.stopped .eof) := by
        simp only [polled, ha, he, hend]
      exact poll_stopped (hi.unread hp).1 hpolled
    | error _ =>
      have hpolled : r.polled bincode = some (.stopped .error) := by
        simp only [polled, ha, he, hend]
      exact poll_stopped (hi.unread hp).1 hpolled
  | malformed hp ha hb =>
    have hpolled : r.polled bincode = some (.stopped .error) := by
      simp only [polled, ha, hb]
    exact poll_stopped (hi.unread hp).1 hpolled
  | unexpected hp ha hb hm =>
    refine poll_unproved (hi.unread hp).1 ha hb fun f hf => ?_
    rw [hm] at hf
    cases hf
  | version hp ha hb hm hv =>
    refine poll_unproved (hi.unread hp).1 ha hb fun f hf hproof => hv ?_
    rw [hm, Option.some.injEq] at hf
    rw [hf]
    exact hproof.1
  | proof hp ha hb hm hv =>
    refine poll_unproved (hi.unread hp).1 ha hb fun f hf hproof => ?_
    rw [hm, Option.some.injEq] at hf
    rw [hf, hproof.2] at hv
    cases hv
  | duplicate hp hd =>
    exact event_ends (by simp only [sessionStep, hp, openingStep, registerStep, if_pos hd])
  | unparsableInbound hp hs hl =>
    refine event_ends ?_
    simp only [sessionStep, hp, openingStep, registerStep, hs, hl, ite_self]
  | unparsableOutbound hp hl => exact event_ends (by simp only [sessionStep, hp, openingStep, hl])
  | unreachable hp | unwritten hp => exact event_ends (by simp only [sessionStep, hp, openingStep])

theorem unregistered_opened {st : DaemonState P} {s : Session P}
    (hs : s = .accepted ∨ ∃ addr, s = .dialing addr) :
    Unregistered bincode cfg cookie bytes (opened st s bytes) := by
  rcases hs with rfl | ⟨addr, rfl⟩
  · exact .awaiting rfl (.inl rfl) .start
  · exact .connecting rfl rfl .start

/-- A run without a registration leaves the shared state to the other tasks. -/
theorem unregistered_run {xs : List (RecvAct P)} (hq : r.Quiet)
    (hi : Unregistered bincode cfg cookie bytes r)
    (h : (system bincode cfg cookie t bytes).run r xs = some r')
    (hun : (system bincode cfg cookie t bytes).Meets
      (fun r x => ¬ Registers bincode cfg cookie t r x) r xs) :
    r'.state = xs.foldl (fun st x => x.effect st) r.state ∧ r'.Quiet ∧
      Unregistered bincode cfg cookie bytes r' := by
  induction xs generalizing r with
  | nil =>
    cases h
    exact ⟨rfl, hq, hi⟩
  | cons x xs ih =>
    obtain ⟨u, hu, hrest⟩ := Option.bind_eq_some_iff.mp h
    rcases unregistered_step hq hi hu with ⟨hiu, hstate⟩ | ⟨peer, stage, hlive, -⟩
    · rw [List.foldl_cons, ← hstate]
      exact ih (quiet_step hq hu) hiu hrest (hun.2 u hu)
    · exact absurd ⟨u, peer, stage, hu, hlive⟩ hun.1

/-- As long as a session has not registered, whatever bytes the remote sends and
whatever the other tasks do, it has changed nothing; every failure ends it with nothing
changed; and if it registers, its peer has passed all checks. -/
theorem failed_handshake_changes_nothing {r₀ : Receiver P} {xs : List (RecvAct P)}
    (h₀ : (system bincode cfg cookie t bytes).init r₀)
    (hrun : (system bincode cfg cookie t bytes).run r₀ xs = some r)
    (hun : (system bincode cfg cookie t bytes).Meets
      (fun r x => ¬ Registers bincode cfg cookie t r x) r₀ xs) :
    (r.state = xs.foldl (fun st x => x.effect st) r₀.state ∧
        ((∃ o, r.session.phase = .opening o) ∨ r.session.phase = .ended none)) ∧
      (∀ x, Refused bincode cfg cookie r x → ∃ r', r.step bincode cfg cookie t x = some r' ∧
        r'.state = r.state ∧ r'.session.phase = .ended none) ∧
      ∀ x r' peer stage, r.step bincode cfg cookie t x = some r' →
        r'.session.phase = .live peer stage →
          Passes bincode cfg cookie bytes r.state r.session.side peer := by
  obtain ⟨st, s, hs, rfl⟩ := h₀
  have hq₀ : (opened st s bytes).Quiet := fun _ => ⟨rfl, rfl⟩
  obtain ⟨hstate, hq, hi⟩ := unregistered_run hq₀ (unregistered_opened hs) hrun hun
  refine ⟨⟨hstate, hi.opening_or_ended⟩, fun x hx => hx.ends hi, fun x r' peer stage hs hlive => ?_⟩
  rcases unregistered_step hq hi hs with ⟨hi', -⟩ | ⟨peer', stage', hlive', hpass⟩
  · exact absurd hlive (hi'.not_live peer stage)
  · cases hlive.symm.trans hlive'
    exact hpass

end Steps

section
open Reference

/-- The next byte completes a message of the wrong kind. -/
def wrongNext (r : Receiver platform) : Bool :=
  r.session.phase.readsHandshake &&
    match r.arrived with
    | b :: _ =>
      match r.reader.push Reference.bincode MAX_FRAME_LEN b with
      | .message m => (r.session.side.expects m).isNone
      | _ => false
    | [] => false

theorem refused_of_wrongNext {r : Receiver platform} (h : wrongNext r = true) :
    Refused Reference.bincode config Reference.cookie r .poll := by
  rw [wrongNext, Bool.and_eq_true] at h
  obtain ⟨hp, h⟩ := h
  split at h
  · rename_i ha
    split at h
    · rename_i hb
      exact .unexpected hp ha hb (Option.isNone_iff_eq_none.mp h)
    · cases h
  · cases h

/-- The step does not register the session. -/
def staysOut (r : Receiver platform) (x : RecvAct platform) : Bool :=
  (r.step Reference.bincode config Reference.cookie 0 x).all fun r' =>
    match r'.session.phase with
    | .live _ _ => false
    | _ => true

theorem not_registers_of_staysOut {r : Receiver platform} {x : RecvAct platform}
    (h : staysOut r x = true) : ¬ Registers Reference.bincode config Reference.cookie 0 r x := by
  rintro ⟨r', peer, stage, hs, hp⟩
  simp only [staysOut, hs, Option.all_some, hp] at h
  cases h

/-- The first frame is a heartbeat, up to its last byte. -/
def beatsFirst : List (RecvAct platform) := .arrive 8 :: .replicate 7 .poll

theorem failed_handshake_changes_nothing_heartbeat : ∃ r₀ r r',
    (receivers (stream [[4, 0, 0, 0]])).run r₀ beatsFirst = some r ∧
      r.poll Reference.bincode config Reference.cookie 0 = some r' ∧ r'.state = r₀.state ∧
      r'.session.phase = .ended none := by
  have heval : ((acceptedOn (stream [[4, 0, 0, 0]])).bind fun r =>
      ((receivers (stream [[4, 0, 0, 0]])).guard staysOut).run r beatsFirst).any wrongNext =
        true := by
    decide +kernel
  obtain ⟨r, hr, hwrong⟩ := (Option.any_eq_true _ _).mp heval
  obtain ⟨r₀, h₀, hrun⟩ := Option.bind_eq_some_iff.mp hr
  obtain ⟨hrun, hmeets⟩ := System.run_of_guard (fun _ _ => not_registers_of_staysOut) hrun
  obtain ⟨⟨hstate, -⟩, hrefused, -⟩ :=
    failed_handshake_changes_nothing (acceptedOn_init r₀ h₀) hrun hmeets
  obtain ⟨r', hs, hsame, hended⟩ := hrefused .poll (refused_of_wrongNext hwrong)
  exact ⟨r₀, r, r', hrun, hs, hsame.trans hstate, hended⟩

end

end Receiver
end Pmd
