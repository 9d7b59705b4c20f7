import Pmd.Daemon.Documents
import Pmd.Daemon.Handles

/-!
# Removal signals

A session cleanup signals the peers that remain, through channels of one slot. A
token stays in its slot until the session takes it, a session that has taken one
builds its delta from the document as it is then, and documents only gain writes.
So while the handle stands, a removal is signalled, about to be read, or part of a
delta already built.
-/
namespace Pmd
open Foundation

variable {P : Platform}

@[simp] theorem DaemonState.modifyPeer_gossip (st : DaemonState P) (key : String)
    (f : PeerHandle P → PeerHandle P) : (st.modifyPeer key f).gossip = st.gossip := by
  rw [modifyPeer]
  split <;> rfl

theorem DaemonState.gossip_signalPeers {st : DaemonState P} {k : String} {t : TaskId}
    (h : st.owner k = some t) : st.signalPeers.gossip t = true := by
  obtain ⟨hd, hk, rfl⟩ := Option.map_eq_some_iff.mp h
  have hmem : hd.gossipTx ∈ st.peers.entries.map fun e => e.2.gossipTx :=
    List.mem_map.mpr ⟨⟨k, hd⟩, AList.mem_lookup_iff.mp hk, rfl⟩
  simp [signalPeers, hmem]

section Moves
variable {cfg : Config} {cookie : Bytes} {t u : TaskId} {st : DaemonState P} {s : Session P}
  {e : TaskEvent P} {o : Outcome P}

/-- A token leaves its slot when its session takes it. -/
theorem SessionMove.keeps_token (hm : SessionMove cfg cookie u st s e o)
    (hg : st.gossip t = true) : o.state.gossip t = true ∨
      u = t ∧ ((∃ op, s.phase = .opening op) ∨ ∃ peer, o.session.phase = .live peer .gossip) := by
  have hupdate : Function.update st.gossip u false t = true ∨ u = t := by
    by_cases hut : u = t
    · exact .inr hut
    · rw [Function.update_of_ne (Ne.symm hut)]
      exact .inl hg
  cases hm with
  | registered hp _ _ => exact hupdate.imp_right fun hut => ⟨hut, .inl ⟨_, hp⟩⟩
  | token hp _ => exact hupdate.imp_right fun hut => ⟨hut, .inr ⟨_, rfl⟩⟩
  | recorded hp => exact .inl (by simp [DaemonState.recordHeartbeat, hg])
  | merged hp hm =>
    obtain ⟨δ, changes, -, rfl⟩ := DaemonState.mergeSync_eq_some hm
    exact .inl (by simp [DaemonState.broadcastEvents, hg])
  | cleaned hp =>
    exact .inl (by simp [DaemonState.cleanup, DaemonState.signalPeers,
      DaemonState.broadcastEvents, hg])
  | _ => exact .inl hg

theorem SessionMove.not_opening (hm : SessionMove cfg cookie u st s e o)
    (hs : ∀ op, s.phase ≠ .opening op) : ∀ op, o.session.phase ≠ .opening op := by
  intro op
  cases hm with
  | dialed hp _ | refused hp | greeted hp | checked hp _ => exact absurd hp (hs _)
  | _ => simp

/-- With a handle under the peer's id, a session that has taken a token builds. -/
theorem sessionStep_gossip {peer : PeerId P} {h : PeerHandle P} (hp : s.phase = .live peer .gossip)
    (hh : st.peers.lookup peer.nodeId = some h)
    (ho : sessionStep cfg cookie t st s e = some o) :
    o.session.phase = .live peer (.write (st.deltaSync h)) := by
  simp only [sessionStep, hp] at ho
  rw [stageStep.eq_def] at ho
  cases e <;> simp only [reduceCtorEq, hh, Option.some.injEq] at ho
  subst ho
  rfl

end Moves

namespace Daemon
variable {cfg : Config} {cookie : Bytes} {d d' : Daemon P} {a : Act P}
  {sent : Option (TaskId × Message P)} {t : TaskId} {k : String}

theorem step_keeps_token (h : d.step cfg cookie a = some (d', sent)) (ha : ∀ e, a ≠ .task t e)
    (hg : d.state.gossip t = true) : d'.state.gossip t = true := by
  rcases step_cases h with ⟨u, e, s, o, rfl, -, hm, rfl, -⟩ | ⟨hm, -⟩
  · exact (hm.keeps_token hg).resolve_right fun hut => ha e (by rw [hut.1])
  · cases hm with
    | request r => cases r <;> exact hg
    | @gossipSend tx _ =>
      by_cases htx : t = tx
      · rw [htx]
        exact Function.update_self _ _ _
      · exact (Function.update_of_ne htx _ _).trans hg
    | removeSelf _ => simp [DaemonState.removeSelf, DaemonState.signalPeers, hg]
    | _ => exact hg

/-- Documents only gain writes. -/
theorem writes_subset_step (h : d.step cfg cookie a = some (d', sent)) :
    P.crdt.writes d.doc ⊆ P.crdt.writes d'.doc := by
  cases step_doc h with
  | same hd => rw [hd]
  | request hd => exact hd.writes_subset
  | removeSelf _ hd => exact hd.writes_subset
  | cleaned _ _ hd => exact hd.writes_subset
  | merged _ _ _ hd =>
    rw [hd, P.crdt.writes_merge]
    exact Set.subset_union_left

/-- Session `t` has registered and, if its handle stands under `k`, its channel holds a
token or it has taken one and not yet built its delta. -/
def Signalled (t : TaskId) (k : String) (d : Daemon P) : Prop :=
  ∃ s, d.tasks[t]? = some s ∧ (∀ op, s.phase ≠ .opening op) ∧ (d.state.owner k = some t →
    d.state.gossip t = true ∨ ∃ peer, s.phase = .live peer .gossip)

/-- In the step from `d` to `d'` session `t` builds a `MembershipSync` whose delta,
together with the vector it is built against, covers the writes `X`. -/
def BuildsSync (t : TaskId) (X : Set DocWrite) (d d' : Daemon P) : Prop :=
  ∃ s s' peer h b v δ, d.tasks[t]? = some s ∧ s.phase = .live peer .gossip ∧
    d.state.peers.lookup peer.nodeId = some h ∧ d'.tasks[t]? = some s' ∧
    s'.phase = .live peer (.write (.membershipSync b v)) ∧ P.crdt.decode b = some δ ∧
    ∀ w ∈ X, w ∈ P.crdt.deltaWrites δ ∨ Covers h.lastVv w.dot

/-- A handle that a registered session has is not new. -/
theorem owner_of_step {s : Session P} (h : d.step cfg cookie a = some (d', sent))
    (hs : d.tasks[t]? = some s) (hopen : ∀ op, s.phase ≠ .opening op)
    (hk : d'.state.owner k = some t) : d.state.owner k = some t := by
  obtain ⟨hd, hlookup, rfl⟩ := Option.map_eq_some_iff.mp hk
  cases step_lookup h hlookup with
  | kept hk₀ _ ht _ => rw [DaemonState.owner, hk₀, Option.map_some, ht]
  | registered hs' hp _ _ ht _ =>
    rw [ht, hs', Option.some.injEq] at hs
    exact absurd hp (hs ▸ hopen _)
  | synced _ _ _ hk₀ _ ht _ => rw [DaemonState.owner, hk₀, Option.map_some, ht]

theorem signalled_step (ho : HandlesOwned d) (hi : Signalled t k d)
    (h : (system P cfg cookie).step d a = some d') {X : Set DocWrite}
    (hX : X ⊆ P.crdt.writes d.doc) : Signalled t k d' ∨ BuildsSync t X d d' := by
  obtain ⟨s, hs, hopen, hsig⟩ := hi
  obtain ⟨sent, h⟩ := system_step h
  by_cases ha : ∃ e, a = .task t e
  · obtain ⟨e, rfl⟩ := ha
    obtain ⟨s', o, hs', hm, hstep, rfl, -⟩ := taskStep_eq_some h
    have heq : s = s' := Option.some.inj (hs.symm.trans hs')
    subst heq
    have hnew : (d.tasks.set t o.session)[t]? = some o.session :=
      List.getElem?_set_self (List.getElem?_eq_some_iff.mp hs).1
    by_cases hbuild : d.state.owner k = some t ∧ ∃ peer, s.phase = .live peer .gossip
    · obtain ⟨hown, peer, hp⟩ := hbuild
      obtain ⟨peer', hreg, hid⟩ := ho k t hown
      rw [registered_of_phase hs, hp] at hreg
      cases hreg
      obtain ⟨hd, hlookup, -⟩ := Option.map_eq_some_iff.mp hown
      rw [← hid] at hlookup
      refine .inr ⟨s, o.session, peer, hd, _, _, _, hs, hp, hlookup, hnew,
        sessionStep_gossip hp hlookup hstep, P.crdt.decode_encode _, fun w hw => ?_⟩
      rw [P.crdt.deltaWrites_since]
      by_cases hc : Covers hd.lastVv w.dot
      · exact .inr hc
      · exact .inl ⟨hX hw, hc⟩
    · refine .inl ⟨o.session, hnew, hm.not_opening hopen, fun hown' => ?_⟩
      have hown := owner_of_step h hs hopen hown'
      have hg := (hsig hown).resolve_right fun hp => hbuild ⟨hown, hp⟩
      exact (hm.keeps_token hg).imp_right fun hut =>
        hut.2.resolve_left fun ⟨op, hp⟩ => absurd hp (hopen op)
  · have ha : ∀ e, a ≠ .task t e := fun e he => ha ⟨e, he⟩
    refine .inl ⟨s, tasks_of_step ha hs h, hopen, fun hown' => ?_⟩
    exact (hsig (owner_of_step h hs hopen hown')).imp_left (step_keeps_token h ha)

theorem state_of_cleanup {d₁ : Daemon P} {u : TaskId} {su : Session P} {peer : PeerId P}
    {nonce : Nonce} {epoch : Option ℕ} {now : ℕ} (hu : d.tasks[u]? = some su)
    (hpu : su.phase = .live peer .cleanup)
    (h : (system P cfg cookie).step d (.task u (.lock nonce epoch now)) = some d₁) :
    d₁.state = d.state.cleanup peer := by
  obtain ⟨sent, h⟩ := system_step h
  obtain ⟨s', o, hs', -, ho, rfl, -⟩ := taskStep_eq_some h
  have heq : su = s' := Option.some.inj (hu.symm.trans hs')
  subst heq
  simp only [sessionStep, hpu, stageStep, Option.some.injEq] at ho
  rw [← ho]

/-- The cleanup signals every session whose handle remains. -/
theorem signalled_cleanup {d₁ : Daemon P} {peer : PeerId P} (ho : HandlesOwned d₁)
    (hd₁ : d₁.state = d.state.cleanup peer) (hk₁ : d₁.state.owner k = some t) :
    Signalled t k d₁ := by
  obtain ⟨peer₁, hreg, -⟩ := ho k t hk₁
  obtain ⟨s₁, hs₁, hreg⟩ := Option.bind_eq_some_iff.mp hreg
  refine ⟨s₁, hs₁, fun op hop => ?_, fun _ => .inl ?_⟩
  · rw [hop] at hreg
    cases hreg
  · rw [hd₁] at hk₁ ⊢
    exact DaemonState.gossip_signalPeers (k := k) hk₁

/-- A removal signal is not lost. Session `u` runs its cleanup while the handle of
session `t` is in the map; whenever `t` runs later and its handle is still there, its
channel holds a token, or it has taken one and not built its delta, or it has built,
after the removal, a sync that covers it. -/
theorem removal_signal_not_lost {d₁ d₂ : Daemon P} {u : TaskId} {su s : Session P}
    {peer peer' : PeerId P} {stage : Stage P} {nonce : Nonce} {epoch : Option ℕ} {now : ℕ}
    (hr : (system P cfg cookie).Reach System.any d) (hu : d.tasks[u]? = some su)
    (hpu : su.phase = .live peer .cleanup)
    (h : (system P cfg cookie).step d (.task u (.lock nonce epoch now)) = some d₁)
    (hk₁ : d₁.state.owner k = some t) (hl : (system P cfg cookie).Leads System.any d₁ d₂)
    (hs : d₂.tasks[t]? = some s) (hp : s.phase = .live peer' stage)
    (hk₂ : d₂.state.owner k = some t) :
    stamp (P.crdt.replica d.doc) (P.crdt.versionVector d.doc) (nodePath peer.nodeId)
        (some deadMarker) ∈ P.crdt.writes d₁.doc ∧
      (d₂.state.gossip t = true ∨ stage = .gossip ∨
        ∃ e a e', (system P cfg cookie).Leads System.any d₁ e ∧
          (system P cfg cookie).step e a = some e' ∧
          BuildsSync t (P.crdt.writes d₁.doc) e e' ∧
          (system P cfg cookie).Leads System.any e' d₂) := by
  have hr₁ : (system P cfg cookie).Reach System.any d₁ := hr.leads (.single ⟨_, trivial, h⟩)
  have hd₁ : d₁.state = d.state.cleanup peer := state_of_cleanup hu hpu h
  refine ⟨?_, ?_⟩
  · rw [doc, hd₁]
    exact d.state.membership.mem_removeNode peer.nodeId
  have hsig₁ : Signalled t k d₁ := signalled_cleanup (handlesOwned_reach hr₁) hd₁ hk₁
  have hkeep := System.Leads.keeps_or_event (Q := fun e => HandlesOwned e ∧
    P.crdt.writes d₁.doc ⊆ P.crdt.writes e.doc ∧ Signalled t k e)
    (E := BuildsSync t (P.crdt.writes d₁.doc)) (fun e a e' hi _ he => ?_)
    hl ⟨handlesOwned_reach hr₁, subset_rfl, hsig₁⟩
  · rcases hkeep with ⟨-, -, s₂, hs₂, -, hsig⟩ | ⟨e, a, e', hl₁, -, he, hbuild, hl₂⟩
    · rw [hs, Option.some.injEq] at hs₂
      subst hs₂
      rcases hsig hk₂ with hg | ⟨peer₂, hp₂⟩
      · exact .inl hg
      · rw [hp] at hp₂
        cases hp₂
        exact .inr (.inl rfl)
    · exact .inr (.inr ⟨e, a, e', hl₁, he, hbuild, hl₂⟩)
  · refine (signalled_step hi.1 hi.2.2 he hi.2.1).imp_left fun hsig => ?_
    obtain ⟨_, he⟩ := system_step he
    exact ⟨handlesOwned_step hi.1 (step_handles he), hi.2.1.trans (writes_subset_step he), hsig⟩

section
open Reference

/-- Task `t` accepts a connection of node `id`, registers it and enters its loop. -/
def inboundLoops (t : TaskId) (id : String) : List (Act platform) :=
  [.accept, .task t (.read (.message (hello id))), .task t locked, .task t (.wrote true),
    .task t locked, .task t (.wrote true), .task t locked]

def cleansUp (t : TaskId) (d : Daemon platform) : Bool :=
  (d.tasks[t]?).any fun s =>
    match s.phase with
    | .live _ .cleanup => true
    | _ => false

theorem cleansUp_iff {t : TaskId} {d : Daemon platform} (h : cleansUp t d = true) :
    ∃ s peer, d.tasks[t]? = some s ∧ s.phase = .live peer .cleanup := by
  obtain ⟨s, hs, hp⟩ := (Option.any_eq_true _ _).mp h
  split at hp
  · rename_i peer hphase
    exact ⟨s, peer, hs, hphase⟩
  · cases hp

/-- The session is in its loop, about to write. -/
def writing (t : TaskId) (d : Daemon platform) : Bool :=
  (d.tasks[t]?).any fun s =>
    match s.phase with
    | .live _ (.write _) => true
    | _ => false

theorem writing_iff {t : TaskId} {d : Daemon platform} (h : writing t d = true) :
    ∃ s peer m, d.tasks[t]? = some s ∧ s.phase = .live peer (.write m) := by
  obtain ⟨s, hs, hp⟩ := (Option.any_eq_true _ _).mp h
  split at hp
  · rename_i peer m hphase
    exact ⟨s, peer, m, hs, hphase⟩
  · cases hp

/-- The session with `b` is cleaned up, and the session with `c` reacts to the signal. -/
theorem removal_signal_not_lost_gossip : ∃ d d₁ d₂ : Daemon platform,
    daemons.Reach System.any d ∧ daemons.step d (.task 0 locked) = some d₁ ∧
    daemons.Leads System.any d₁ d₂ ∧ d₂.state.gossip 1 = false ∧
    ∃ e e', daemons.Leads System.any d₁ e ∧ daemons.Leads System.any e' d₂ ∧
      BuildsSync 1 (platform.crdt.writes d₁.doc) e e' := by
  have heval : (daemon.bind fun d => (daemons.guard fun _ _ => true).run d
      (inboundLoops 0 "b" ++ inboundLoops 1 "c" ++ [.task 0 (.read .eof)])).any
        (fun d => cleansUp 0 d && (daemons.step d (.task 0 locked)).any fun d₁ =>
          d₁.state.owner "c" == some 1 && ((daemons.guard fun _ _ => true).run d₁
            [.task 1 .gossipBranch, .task 1 locked]).any fun d₂ =>
              writing 1 d₂ && !d₂.state.gossip 1 && d₂.state.owner "c" == some 1) = true := by
    decide +kernel
  obtain ⟨d, hr, hp⟩ := System.Reach.of_eval (C := System.any) heval (fun _ _ _ => trivial)
    daemon_init
  rw [Bool.and_eq_true] at hp
  obtain ⟨su, peer, hu, hpu⟩ := cleansUp_iff hp.1
  obtain ⟨d₁, hstep, hp₁⟩ := (Option.any_eq_true _ _).mp hp.2
  rw [Bool.and_eq_true, beq_iff_eq] at hp₁
  obtain ⟨d₂, hl, hp₂⟩ := System.Leads.of_eval (C := System.any) hp₁.2 fun _ _ _ => trivial
  simp only [Bool.and_eq_true, Bool.not_eq_true', beq_iff_eq] at hp₂
  obtain ⟨s, peer', m, hs, hphase⟩ := writing_iff hp₂.1.1
  refine ⟨d, d₁, d₂, hr, hstep, hl, hp₂.1.2, ?_⟩
  rcases (removal_signal_not_lost hr hu hpu hstep hp₁.1 hl hs hphase hp₂.2).2 with
    hg | hstage | ⟨e, _, e', hl₁, -, hbuild, hl₂⟩
  · rw [hp₂.1.2] at hg
    cases hg
  · cases hstage
  · exact ⟨e, e', hl₁, hl₂, hbuild⟩

end

end Daemon
end Pmd
