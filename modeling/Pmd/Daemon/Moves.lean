import Pmd.Daemon.Step

/-!
# What a step can do

`SessionMove` lists the transitions of a session with their guards, the shared
state they leave and the frame they write. Every session step is one of them, so
an invariant is checked against this list and not against the code of the
handlers. The main task and the request handlers touch the task table, the
`peers` map and the document only as said at the end.
-/
namespace Pmd
open Foundation

variable {P : Platform}

/-- The frame a session is about to write. -/
def Phase.outgoing : Phase P → Option (Message P)
  | .opening (.writeHandshake m) => some m
  | .live _ (.writeAck m) | .live _ (.writeDelta m) | .live _ (.write m) => some m
  | _ => none

/-- The peer a session has registered without having run its cleanup. -/
def Phase.registered : Phase P → Option (PeerId P)
  | .opening _ => none
  | .live peer _ => some peer
  | .ended left => left

def Phase.isEnded : Phase P → Bool
  | .ended _ => true
  | _ => false

@[simp] theorem Session.goto_phase (s : Session P) (p : Phase P) : (s.goto p).phase = p := rfl

theorem Session.goto_self {s : Session P} {p : Phase P} (h : s.phase = p) : s.goto p = s := by
  subst h
  rfl

inductive SessionMove (cfg : Config) (cookie : Bytes) (t : TaskId) (st : DaemonState P)
    (s : Session P) : TaskEvent P → Outcome P → Prop
  | dialed {nonce : Nonce} {l : P.Addr} (hp : s.phase = .opening .connect)
      (hl : cfg.listenAddr P = some l) :
      SessionMove cfg cookie t st s (.connected nonce)
        ⟨st, s.goto (.opening (.writeHandshake (handshakeMessage cookie st l nonce))), none⟩
  | refused {o : Opening P} {e : TaskEvent P} (hp : s.phase = .opening o) :
      SessionMove cfg cookie t st s e ⟨st, s.goto (.ended none), none⟩
  | greeted {m : Message P} (hp : s.phase = .opening (.writeHandshake m)) :
      SessionMove cfg cookie t st s (.wrote true) ⟨st, s.goto (.opening .readAck), some m⟩
  | checked {o : Opening P} {m : Message P} {peer : PeerId P} {vv : VersionVector String}
      (hp : s.phase = .opening o)
      (hc : o = .readHandshake ∧ checkHandshake cookie m = some (peer, vv) ∨
        o = .readAck ∧ checkAck cookie m = some (peer, vv)) :
      SessionMove cfg cookie t st s (.read (.message m))
        ⟨st, s.goto (.opening (.register peer vv)), none⟩
  | registered {peer : PeerId P} {vv : VersionVector String} {nonce : Nonce} {epoch : Option ℕ}
      {now : ℕ} {stage : Stage P} (hp : s.phase = .opening (.register peer vv))
      (hnew : peer.nodeId ∉ st.peers)
      (hs : stage = .buildDelta ∨
        ∃ l, cfg.listenAddr P = some l ∧ stage = .writeAck (ackMessage cookie st l nonce)) :
      SessionMove cfg cookie t st s (.lock nonce epoch now)
        ⟨st.insertPeer cfg t peer vv, s.goto (.live peer stage), none⟩
  | wrote {peer : PeerId P} {stage stage' : Stage P} {m : Message P}
      (hp : s.phase = .live peer stage)
      (hs : stage = .writeAck m ∧ stage' = .buildDelta ∨
        stage = .writeDelta m ∧ stage' = .enterLoop ∨ stage = .write m ∧ stage' = .select) :
      SessionMove cfg cookie t st s (.wrote true) ⟨st, s.goto (.live peer stage'), some m⟩
  | setupFailed {peer : PeerId P} {stage : Stage P} {m : Message P}
      (hp : s.phase = .live peer stage) (hs : stage = .writeAck m ∨ stage = .writeDelta m) :
      SessionMove cfg cookie t st s (.wrote false) ⟨st, s.goto (.ended (some peer)), none⟩
  | panicked {peer : PeerId P} {nonce : Nonce} {epoch : Option ℕ} {now : ℕ}
      (hp : s.phase = .live peer .enterLoop) (hz : cfg.heartbeatIntervalSecs = 0) :
      SessionMove cfg cookie t st s (.lock nonce epoch now)
        ⟨st, s.goto (.ended (some peer)), none⟩
  | built {peer : PeerId P} {nonce : Nonce} {epoch : Option ℕ} {now : ℕ}
      (hp : s.phase = .live peer .buildDelta) :
      SessionMove cfg cookie t st s (.lock nonce epoch now)
        ⟨st, s.goto (.live peer (.writeDelta st.fullSync)), none⟩
  | gossiped {peer : PeerId P} {h : PeerHandle P} {nonce : Nonce} {epoch : Option ℕ} {now : ℕ}
      (hp : s.phase = .live peer .gossip) (hh : st.peers.lookup peer.nodeId = some h) :
      SessionMove cfg cookie t st s (.lock nonce epoch now)
        ⟨st, s.goto (.live peer (.write (st.deltaSync h))), none⟩
  | beat {peer : PeerId P} {m : Message P} {e : TaskEvent P} (hp : s.phase = .live peer .select)
      (hm : m = .heartbeat ∨ m = .heartbeatAck) :
      SessionMove cfg cookie t st s e ⟨st, s.goto (.live peer (.write m)), none⟩
  | token {peer : PeerId P} (hp : s.phase = .live peer .select) (hg : st.gossip t = true) :
      SessionMove cfg cookie t st s .gossipBranch
        ⟨{ st with gossip := Function.update st.gossip t false }, s.goto (.live peer .gossip), none⟩
  | received {peer : PeerId P} {m : Message P} (hp : s.phase = .live peer .select) :
      SessionMove cfg cookie t st s (.read (.message m))
        ⟨st, s.goto (.live peer (.handle m)), none⟩
  | moved {peer : PeerId P} {stage stage' : Stage P} {e : TaskEvent P}
      (hp : s.phase = .live peer stage)
      (hs : stage' = .select ∨ stage' = .phiCheck ∨ stage' = .cleanup) :
      SessionMove cfg cookie t st s e ⟨st, s.goto (.live peer stage'), none⟩
  | recorded {peer : PeerId P} {nonce : Nonce} {epoch : Option ℕ} {now : ℕ}
      (hp : s.phase = .live peer (.handle .heartbeatAck)) :
      SessionMove cfg cookie t st s (.lock nonce epoch now)
        ⟨st.recordHeartbeat peer.nodeId epoch now, s.goto (.live peer .select), none⟩
  | merged {peer : PeerId P} {b : P.crdt.Encoded} {v : VersionVector String}
      {st' : DaemonState P} {nonce : Nonce} {epoch : Option ℕ} {now : ℕ}
      (hp : s.phase = .live peer (.handle (.membershipSync b v)))
      (hm : st.mergeSync peer.nodeId b v = some st') :
      SessionMove cfg cookie t st s (.lock nonce epoch now)
        ⟨st', { s with phase := .live peer .select, merged := s.merged + 1 }, none⟩
  | cleaned {peer : PeerId P} {nonce : Nonce} {epoch : Option ℕ} {now : ℕ}
      (hp : s.phase = .live peer .cleanup) :
      SessionMove cfg cookie t st s (.lock nonce epoch now)
        ⟨st.cleanup peer, s.goto (.ended none), none⟩

section Inversion
variable {cfg : Config} {cookie : Bytes} {t : TaskId} {st : DaemonState P} {s : Session P}

theorem registerStep_move {peer : PeerId P} {vv : VersionVector String} {nonce : Nonce}
    {epoch : Option ℕ} {now : ℕ} (hp : s.phase = .opening (.register peer vv)) :
    SessionMove cfg cookie t st s (.lock nonce epoch now)
      (registerStep cfg cookie t st s peer vv nonce) := by
  rw [registerStep]
  split
  · exact .refused hp
  · rename_i hnew
    split
    · exact .registered hp hnew (.inl rfl)
    · split
      · exact .refused hp
      · rename_i l hl
        exact .registered hp hnew (.inr ⟨l, hl, rfl⟩)

theorem openingStep_move {o : Opening P} {e : TaskEvent P} {out : Outcome P}
    (hp : s.phase = .opening o) (h : openingStep cfg cookie t st s o e = some out) :
    SessionMove cfg cookie t st s e out := by
  rw [openingStep.eq_def] at h
  split at h
  · split at h
    · cases h
      exact .refused hp
    · rename_i l hl
      cases h
      exact .dialed hp hl
  · cases h
    exact .refused hp
  · cases h
    exact .greeted hp
  · cases h
    exact .refused hp
  · split at h
    · rename_i hc
      cases h
      exact .checked hp (.inl ⟨rfl, hc⟩)
    · cases h
      exact .refused hp
  · split at h
    · rename_i hc
      cases h
      exact .checked hp (.inr ⟨rfl, hc⟩)
    · cases h
      exact .refused hp
  · cases h
    exact .refused hp
  · cases h
    exact .refused hp
  · cases h
    exact registerStep_move hp
  · cases h

theorem SessionMove.stay {peer : PeerId P} {e : TaskEvent P} (hp : s.phase = .live peer .select) :
    SessionMove cfg cookie t st s e ⟨st, s, none⟩ := by
  have h : SessionMove cfg cookie t st s e ⟨st, s.goto (.live peer .select), none⟩ :=
    .moved hp (.inl rfl)
  rwa [Session.goto_self hp] at h

theorem receiveStep_move {peer : PeerId P} (hp : s.phase = .live peer .select)
    (r : ReadResult P) : SessionMove cfg cookie t st s (.read r) (receiveStep st s peer r) := by
  rw [receiveStep.eq_def]
  split
  · exact .beat hp (.inr rfl)
  · exact .received hp
  · exact .received hp
  · exact .stay hp
  · exact .moved hp (.inr (.inr rfl))
  · exact .moved hp (.inr (.inr rfl))

theorem handleStep_move {peer : PeerId P} {m : Message P} {nonce : Nonce} {epoch : Option ℕ}
    {now : ℕ} (hp : s.phase = .live peer (.handle m)) :
    SessionMove cfg cookie t st s (.lock nonce epoch now) (handleStep st s peer epoch now m) := by
  rw [handleStep.eq_def]
  split
  · exact .recorded hp
  · split
    · rename_i hm
      exact .merged hp hm
    · exact .moved hp (.inr (.inr rfl))
  · exact .moved hp (.inl rfl)

theorem stageStep_move {peer : PeerId P} {stage : Stage P} {e : TaskEvent P} {out : Outcome P}
    (hp : s.phase = .live peer stage) (h : stageStep cfg t st s peer stage e = some out) :
    SessionMove cfg cookie t st s e out := by
  rw [stageStep.eq_def] at h
  split at h
  · cases h
    exact .wrote hp (.inl ⟨rfl, rfl⟩)
  · cases h
    exact .setupFailed hp (.inl rfl)
  · cases h
    exact .built hp
  · cases h
    exact .wrote hp (.inr (.inl ⟨rfl, rfl⟩))
  · cases h
    exact .setupFailed hp (.inr rfl)
  · split at h
    · rename_i hz
      cases h
      exact .panicked hp hz
    · cases h
      exact .moved hp (.inl rfl)
  · split at h
    · cases h
      exact .moved hp (.inr (.inr rfl))
    · cases h
  · cases h
    exact .beat hp (.inl rfl)
  · cases h
    exact .moved hp (.inr (.inl rfl))
  · split at h
    · rename_i hg
      cases h
      exact .token hp hg
    · cases h
  · cases h
    exact receiveStep_move hp _
  · cases h
    exact .wrote hp (.inr (.inr ⟨rfl, rfl⟩))
  · cases h
    exact .moved hp (.inr (.inr rfl))
  · split at h
    · cases h
      exact .moved hp (.inr (.inr rfl))
    · cases h
      exact .moved hp (.inl rfl)
  · split at h
    · rename_i hh
      cases h
      exact .gossiped hp hh
    · cases h
      exact .moved hp (.inl rfl)
  · cases h
    exact handleStep_move hp
  · cases h
    exact .cleaned hp
  · cases h

theorem sessionStep_move {e : TaskEvent P} {out : Outcome P}
    (h : sessionStep cfg cookie t st s e = some out) : SessionMove cfg cookie t st s e out := by
  rw [sessionStep] at h
  split at h
  · rename_i hp
    exact openingStep_move hp h
  · rename_i hp
    exact stageStep_move hp h
  · cases h

theorem SessionMove.side {e : TaskEvent P} {out : Outcome P}
    (h : SessionMove cfg cookie t st s e out) : out.session.side = s.side := by
  cases h <;> rfl

/-- The frame written is the one the session had ready. -/
theorem SessionMove.outgoing_of_sent {e : TaskEvent P} {out : Outcome P} {m : Message P}
    (h : SessionMove cfg cookie t st s e out) (hm : out.sent = some m) :
    s.phase.outgoing = some m := by
  cases h with
  | greeted hp =>
    cases hm
    rw [hp]
    rfl
  | wrote hp hs =>
    cases hm
    rw [hp]
    rcases hs with ⟨rfl, -⟩ | ⟨rfl, -⟩ | ⟨rfl, -⟩ <;> rfl
  | _ => cases hm

/-- A frame made ready is a `MembershipSync` only if the session just built it. -/
theorem SessionMove.outgoing_new {e : TaskEvent P} {out : Outcome P} {b : P.crdt.Encoded}
    {v : VersionVector String} (h : SessionMove cfg cookie t st s e out)
    (hm : out.session.phase.outgoing = some (.membershipSync b v)) :
    ∃ peer nonce epoch now, e = .lock nonce epoch now ∧
      (s.phase = .live peer .buildDelta ∨
        s.phase = .live peer .gossip ∧ peer.nodeId ∈ st.peers) := by
  cases h with
  | built hp => exact ⟨_, _, _, _, rfl, .inl hp⟩
  | gossiped hp hh =>
    exact ⟨_, _, _, _, rfl, .inr ⟨hp, AList.lookup_isSome.mp (Option.isSome_of_eq_some hh)⟩⟩
  | registered _ _ hs => rcases hs with rfl | ⟨l, -, rfl⟩ <;> cases hm
  | wrote _ hs => rcases hs with ⟨-, rfl⟩ | ⟨-, rfl⟩ | ⟨-, rfl⟩ <;> cases hm
  | beat _ hb => rcases hb with rfl | rfl <;> cases hm
  | moved _ hs => rcases hs with rfl | rfl | rfl <;> cases hm
  | _ => cases hm

end Inversion

/-! ## An inbound handshake that passes -/

/-- The `Handshake` of a daemon that holds the cookie. -/
def greeting (cookie : Bytes) (peer : PeerId P) (nonce : Nonce) : Message P :=
  .handshake peer.nodeId peer.addr nonce (computeCookieHmac P cookie nonce) CARGO_PKG_VERSION
    PROTOCOL_VERSION

section Inbound
variable {cfg : Config} {cookie : Bytes} {t : TaskId} {st : DaemonState P} {s : Session P}
  {peer : PeerId P}

theorem checkHandshake_of_proof {nodeId version : String} {addr : P.Addr} {nonce : Nonce}
    {mac : Bytes} (hmac : mac = P.hmac cookie nonce) :
    checkHandshake cookie (.handshake nodeId addr nonce mac version PROTOCOL_VERSION) =
      some (⟨nodeId, addr⟩, ⊥) := by
  rw [checkHandshake, if_pos ⟨rfl, verifyCookieHmac_iff.mpr hmac⟩]

theorem checkHandshake_greeting (peer : PeerId P) (nonce : Nonce) :
    checkHandshake cookie (greeting cookie peer nonce) = some (peer, ⊥) :=
  checkHandshake_of_proof rfl

theorem sessionStep_handshake {m : Message P} {vv : VersionVector String}
    (hp : s.phase = .opening .readHandshake) (hc : checkHandshake cookie m = some (peer, vv)) :
    sessionStep cfg cookie t st s (.read (.message m)) =
      some ⟨st, s.goto (.opening (.register peer vv)), none⟩ := by
  simp only [sessionStep, hp, openingStep, hc]

theorem sessionStep_register_inbound {vv : VersionVector String} {l : P.Addr} {nonce : Nonce}
    {epoch : Option ℕ} {now : ℕ} (hp : s.phase = .opening (.register peer vv))
    (hside : s.side = .inbound) (hnew : peer.nodeId ∉ st.peers) (hl : cfg.listenAddr P = some l) :
    sessionStep cfg cookie t st s (.lock nonce epoch now) =
      some ⟨st.insertPeer cfg t peer vv,
        s.goto (.live peer (.writeAck (ackMessage cookie st l nonce))), none⟩ := by
  simp only [sessionStep, hp, openingStep, registerStep, if_neg hnew, hside, hl]

end Inbound
end Pmd
