import Pmd.Daemon.Documents
import Pmd.Daemon.Handles

/-!
# Sessions of a daemon with itself

Neither handshake compares the remote node id with the daemon's own. The daemon
is in an arbitrary environment here: it registers itself as a peer exactly when
a handshake that passes the checks carries its own id.
-/
namespace Pmd
open Foundation

variable {P : Platform}

/-- The peer a session has authenticated. -/
def Phase.remote : Phase P → Option (PeerId P)
  | .opening (.register peer _) => some peer
  | .opening _ => none
  | .live peer _ => some peer
  | .ended left => left

/-- The peer named by the first message of a session, if it passes the checks. -/
def Session.greetedBy (cookie : Bytes) (s : Session P) (m : Message P) : Option (PeerId P) :=
  match s.phase with
  | .opening .readHandshake => (checkHandshake cookie m).map Prod.fst
  | .opening .readAck => (checkAck cookie m).map Prod.fst
  | _ => none

theorem Phase.remote_of_registered {p : Phase P} {peer : PeerId P}
    (h : p.registered = some peer) : p.remote = some peer := by
  cases p with
  | opening _ => cases h
  | live _ _ => exact h
  | ended _ => exact h

/-- The authenticated peer of a session comes from the message that was checked. -/
theorem SessionMove.remote {cfg : Config} {cookie : Bytes} {t : TaskId} {st : DaemonState P}
    {s : Session P} {e : TaskEvent P} {o : Outcome P} {peer : PeerId P}
    (hm : SessionMove cfg cookie t st s e o) (hr : o.session.phase.remote = some peer) :
    s.phase.remote = some peer ∨
      ∃ m, e = .read (.message m) ∧ s.greetedBy cookie m = some peer := by
  cases hm with
  | dialed hp hl => cases hr
  | refused hp => cases hr
  | greeted hp => cases hr
  | @checked _ m _ vv hp hc =>
    cases hr
    refine .inr ⟨m, rfl, ?_⟩
    rcases hc with ⟨rfl, hc⟩ | ⟨rfl, hc⟩
    · simp [Session.greetedBy, hp, hc]
    · simp [Session.greetedBy, hp, hc]
  | cleaned hp => cases hr
  | registered hp hnew hs => exact .inl (by rw [hp]; exact hr)
  | wrote hp hs => exact .inl (by rw [hp]; exact hr)
  | setupFailed hp hs => exact .inl (by rw [hp]; exact hr)
  | panicked hp hz => exact .inl (by rw [hp]; exact hr)
  | built hp => exact .inl (by rw [hp]; exact hr)
  | gossiped hp hh => exact .inl (by rw [hp]; exact hr)
  | beat hp hm => exact .inl (by rw [hp]; exact hr)
  | token hp hg => exact .inl (by rw [hp]; exact hr)
  | received hp => exact .inl (by rw [hp]; exact hr)
  | moved hp hs => exact .inl (by rw [hp]; exact hr)
  | recorded hp => exact .inl (by rw [hp]; exact hr)
  | merged hp hm => exact .inl (by rw [hp]; exact hr)

namespace Daemon
variable {cfg : Config} {cookie : Bytes} {d d' : Daemon P} {a : Act P}

/-- The daemon's own id is not a key of its map, and no session of it is about to
remove that id. -/
def NoSelfSession (d : Daemon P) : Prop :=
  d.state.membership.nodeId ∉ d.state.peers ∧
    ∀ (t : TaskId) s peer, d.tasks[t]? = some s → s.phase = .live peer .cleanup →
      peer.nodeId ≠ d.state.membership.nodeId

/-- No handshake that passes the checks carries the daemon's own id. -/
def NoOwnGreeting (cookie : Bytes) (d : Daemon P) (a : Act P) : Prop :=
  ∀ t s m peer, a = .task t (.read (.message m)) → d.tasks[t]? = some s →
    s.greetedBy cookie m = some peer → peer.nodeId ≠ d.state.membership.nodeId

/-- The test of `NoOwnGreeting`. -/
def greetedByOther (cookie : Bytes) (d : Daemon P) : Act P → Bool
  | .task t (.read (.message m)) =>
    ((d.tasks[t]?).bind fun s => s.greetedBy cookie m).all
      fun peer => peer.nodeId != d.state.membership.nodeId
  | _ => true

theorem noOwnGreeting_of_greetedByOther (h : d.greetedByOther cookie a = true) :
    NoOwnGreeting cookie d a := by
  rintro t s m peer rfl hs hg
  simpa [greetedByOther, hs, hg] using h

/-- Every authenticated peer is another node. -/
def RemotesApart (d : Daemon P) : Prop :=
  ∀ (t : TaskId) s peer, d.tasks[t]? = some s → s.phase.remote = some peer →
    peer.nodeId ≠ d.state.membership.nodeId

theorem remotesApart_step {sent : Option (TaskId × Message P)} (hi : RemotesApart d)
    (hc : NoOwnGreeting cookie d a) (h : d.step cfg cookie a = some (d', sent)) :
    RemotesApart d' := by
  intro t s peer hs hr
  rw [step_nodeId h]
  rcases session_step h hs with ⟨e, s₀, o, rfl, hs₀, hm, rfl⟩ | hold | ⟨-, hnew⟩
  · rcases hm.remote hr with hr | ⟨m, rfl, hg⟩
    · exact hi t s₀ peer hs₀ hr
    · exact hc t s₀ m peer rfl hs₀ hg
  · exact hi t s peer hold hr
  · rcases hnew with ⟨addr, rfl⟩ | ⟨-, rfl⟩
    · cases hr
    · cases hr

theorem remotesApart_reach (h : (system P cfg cookie).Reach (NoOwnGreeting cookie) d) :
    RemotesApart d := by
  refine h.invariant (fun d hd t s peer hs => ?_) fun d a d' hi hc hs => ?_
  · simp [init_tasks hd] at hs
  · obtain ⟨_, hs⟩ := system_step hs
    exact remotesApart_step hi hc hs

/-- Every entry of the map belongs to a session that authenticated its key. -/
theorem RemotesApart.noSelfSession (h : RemotesApart d) (ho : HandlesOwned d) :
    NoSelfSession d := by
  refine ⟨fun hmem => ?_, fun t s peer hs hp => h t s peer hs (by rw [hp]; rfl)⟩
  obtain ⟨hd, hk⟩ := Option.isSome_iff_exists.mp (AList.lookup_isSome.mpr hmem)
  obtain ⟨peer, hreg, hkey⟩ := ho _ hd.gossipTx (by rw [DaemonState.owner, hk]; rfl)
  obtain ⟨s, hs, hp⟩ := Option.bind_eq_some_iff.mp hreg
  exact h _ s peer hs (Phase.remote_of_registered hp) hkey

/-- A session that waits to register puts its peer into the map, unless it is there. -/
theorem register_mem {t : TaskId} {s : Session P} {peer : PeerId P} {vv : VersionVector String}
    {l : P.Addr} (cookie : Bytes) (hs : d.tasks[t]? = some s)
    (hp : s.phase = .opening (.register peer vv)) (hl : cfg.listenAddr P = some l) :
    ∃ e, (system P cfg cookie).Leads System.any d e ∧ peer.nodeId ∈ e.state.peers ∧
      e.state.membership.nodeId = d.state.membership.nodeId := by
  by_cases hmem : peer.nodeId ∈ d.state.peers
  · exact ⟨d, .refl, hmem, rfl⟩
  · have ho : ∃ phase, sessionStep cfg cookie t d.state s (.lock (Vector.replicate 32 0) none 0) =
        some ⟨d.state.insertPeer cfg t peer vv, s.goto phase, none⟩ := by
      cases hside : s.side with
      | inbound => exact ⟨_, sessionStep_register_inbound hp hside hmem hl⟩
      | outbound addr =>
        simp only [sessionStep, hp, openingStep, registerStep, if_neg hmem, hside]
        exact ⟨_, rfl⟩
    obtain ⟨phase, ho⟩ := ho
    refine ⟨_, .single ⟨_, trivial, step_task hs ho⟩, ?_, rfl⟩
    refine DaemonState.mem_peers_of_owner (t := t) ?_
    rw [DaemonState.owner_insertPeer, if_pos rfl]

/-- A handshake with the daemon's own id ends in the map. -/
theorem ownGreeting_registers (hr : (system P cfg cookie).Reach System.any d)
    (hc : ¬ NoOwnGreeting cookie d a) (h : (system P cfg cookie).step d a = some d') :
    ∃ e, (system P cfg cookie).Leads System.any d' e ∧ ¬ NoSelfSession e := by
  simp only [NoOwnGreeting, not_forall, not_not] at hc
  obtain ⟨t, s, m, peer, rfl, hs, hg, hid⟩ := hc
  obtain ⟨l, hl⟩ := reach_listenAddr hr
  have ho : ∃ vv, sessionStep cfg cookie t d.state s (.read (.message m)) =
      some ⟨d.state, s.goto (.opening (.register peer vv)), none⟩ := by
    rw [Session.greetedBy] at hg
    split at hg
    · rename_i hp
      obtain ⟨⟨_, vv⟩, hc, rfl⟩ := Option.map_eq_some_iff.mp hg
      exact ⟨vv, sessionStep_handshake hp hc⟩
    · rename_i hp
      obtain ⟨⟨_, vv⟩, hc, rfl⟩ := Option.map_eq_some_iff.mp hg
      exact ⟨vv, by simp only [sessionStep, hp, openingStep, hc]⟩
    · cases hg
  obtain ⟨vv, ho⟩ := ho
  rw [step_task hs ho, Option.some.injEq] at h
  have hset : d'.tasks[t]? = some (s.goto (.opening (.register peer vv))) := by
    rw [← h]
    exact List.getElem?_set_self (List.getElem?_eq_some_iff.mp hs).1
  obtain ⟨e, hlead, hmem, hsame⟩ := register_mem cookie hset rfl hl
  refine ⟨e, hlead, fun hno => hno.1 ?_⟩
  rw [hsame, ← h]
  rwa [hid] at hmem

end Daemon
end Pmd
