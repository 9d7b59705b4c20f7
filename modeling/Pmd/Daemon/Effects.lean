import Pmd.Daemon.Moves

/-!
# The effect of a step on the handle table and on the document

Lookup lemmas for the critical sections, then for one daemon step: which task
owns the handle under a node id, how the task table grows, and which writes or
merge the document receives.
-/
namespace Pmd
open Foundation

variable {P : Platform}

namespace DaemonState

/-- The task whose handle stands under a node id. -/
def owner (st : DaemonState P) (k : String) : Option TaskId :=
  (st.peers.lookup k).map PeerHandle.gossipTx

variable (st : DaemonState P) (k : String)

theorem lookup_insertPeer (cfg : Config) (t : TaskId) (peer : PeerId P)
    (vv : VersionVector String) :
    (st.insertPeer cfg t peer vv).peers.lookup k =
      if k = peer.nodeId then
        some ⟨peer, vv, .new cfg.phiWindowSize cfg.phiMinStdDeviationMs, t⟩
      else st.peers.lookup k := by
  split
  · rename_i h
    subst h
    exact AList.lookup_insert _
  · rename_i h
    exact AList.lookup_insert_ne h

theorem lookup_modifyPeer (key : String) (f : PeerHandle P → PeerHandle P) :
    (st.modifyPeer key f).peers.lookup k =
      if k = key then (st.peers.lookup key).map f else st.peers.lookup k := by
  by_cases hk : k = key
  · subst hk
    rw [if_pos rfl, modifyPeer]
    cases h : st.peers.lookup k with
    | none => exact h
    | some h => exact AList.lookup_insert _
  · rw [if_neg hk, modifyPeer]
    cases h : st.peers.lookup key with
    | none => rfl
    | some h => exact AList.lookup_insert_ne hk

@[simp] theorem modifyPeer_membership (key : String) (f : PeerHandle P → PeerHandle P) :
    (st.modifyPeer key f).membership = st.membership := by
  rw [modifyPeer]
  split <;> rfl

theorem lookup_cleanup (peer : PeerId P) :
    (st.cleanup peer).peers.lookup k = if k = peer.nodeId then none else st.peers.lookup k := by
  split
  · rename_i h
    subst h
    exact AList.lookup_erase _ _
  · rename_i h
    exact AList.lookup_erase_ne h

theorem lookup_foldl_erase {β : Type} (keys : List String) (m : StrMap β) :
    (keys.foldl (fun m k => m.erase k) m).lookup k = if k ∈ keys then none else m.lookup k := by
  induction keys generalizing m with
  | nil => simp
  | cons key keys ih =>
    rw [List.foldl_cons, ih]
    by_cases hk : k = key
    · subst hk
      simp
    · simp [hk, AList.lookup_erase_ne hk]

theorem lookup_leave (addr : String) :
    (st.leave addr).peers.lookup k =
      (st.peers.lookup k).filter fun h => P.printAddr h.id.addr ≠ addr := by
  have hmem : k ∈ (st.peers.entries.filter fun e => P.printAddr e.2.id.addr = addr).map Sigma.fst ↔
      ∃ h, st.peers.lookup k = some h ∧ P.printAddr h.id.addr = addr := by
    simp only [List.mem_map, List.mem_filter, decide_eq_true_eq]
    constructor
    · rintro ⟨⟨k', h⟩, ⟨he, ha⟩, rfl⟩
      exact ⟨h, AList.mem_lookup_iff.mpr he, ha⟩
    · rintro ⟨h, he, ha⟩
      exact ⟨⟨k, h⟩, ⟨AList.mem_lookup_iff.mp he, ha⟩, rfl⟩
  rw [leave, lookup_foldl_erase]
  simp only [hmem]
  cases hk : st.peers.lookup k with
  | none => simp
  | some h => by_cases ha : P.printAddr h.id.addr = addr <;> simp [ha, Option.filter]

theorem owner_insertPeer (cfg : Config) (t : TaskId) (peer : PeerId P)
    (vv : VersionVector String) :
    (st.insertPeer cfg t peer vv).owner k = if k = peer.nodeId then some t else st.owner k := by
  rw [owner, lookup_insertPeer]
  split <;> rfl

theorem owner_modifyPeer {key : String} {f : PeerHandle P → PeerHandle P}
    (hf : ∀ h, (f h).gossipTx = h.gossipTx) : (st.modifyPeer key f).owner k = st.owner k := by
  rw [owner, lookup_modifyPeer, owner]
  split
  · rename_i hk
    subst hk
    simp [Function.comp_def, hf]
  · rfl

theorem owner_cleanup (peer : PeerId P) :
    (st.cleanup peer).owner k = if k = peer.nodeId then none else st.owner k := by
  rw [owner, lookup_cleanup]
  split <;> rfl

theorem owner_leave (addr : String) :
    (st.leave addr).owner k = none ∨ (st.leave addr).owner k = st.owner k := by
  rw [owner, lookup_leave, owner]
  cases st.peers.lookup k with
  | none => exact .inl rfl
  | some h => by_cases ha : P.printAddr h.id.addr = addr <;> simp [ha, Option.filter]

variable {st k}

theorem mem_peers_of_owner {t : TaskId} (h : st.owner k = some t) : k ∈ st.peers := by
  rw [← AList.lookup_isSome]
  rw [owner] at h
  cases hl : st.peers.lookup k with
  | none => simp [hl] at h
  | some _ => rfl

theorem owner_eq_none (h : k ∉ st.peers) : st.owner k = none := by
  rw [owner, AList.lookup_eq_none.mpr h]
  rfl

theorem not_mem_peers (h : st.owner k = none) : k ∉ st.peers := by
  rw [owner, Option.map_eq_none_iff] at h
  exact AList.lookup_eq_none.mp h

/-- What a received sync does: the document is merged, and the vector kept for
the sender replaced if it has a handle. -/
theorem mergeSync_eq_some {st' : DaemonState P} {key : String} {b : P.crdt.Encoded}
    {v : VersionVector String} (h : st.mergeSync key b v = some st') :
    ∃ δ changes, P.crdt.decode b = some δ ∧
      st' = (({ st with membership :=
        { st.membership with doc := P.crdt.mergeDelta st.membership.doc δ } } :
          DaemonState P).modifyPeer key fun h => { h with lastVv := v }).broadcastEvents
            changes := by
  rw [mergeSync] at h
  obtain ⟨⟨m, changes⟩, hm, h⟩ := Option.bind_eq_some_iff.mp h
  obtain ⟨δ, hδ, rfl, -⟩ := Membership.mergeRemote_eq_some hm
  cases h
  exact ⟨δ, changes, hδ, rfl⟩

@[simp] theorem modifyPeer_events (st : DaemonState P) (key : String)
    (f : PeerHandle P → PeerHandle P) : (st.modifyPeer key f).events = st.events := by
  rw [modifyPeer]
  split <;> rfl

/-- A merge reports what it changes. -/
theorem mergeSync_events {st' : DaemonState P} {key : String} {b : P.crdt.Encoded}
    {v : VersionVector String} (h : st.mergeSync key b v = some st') :
    st'.events = st.events ++ diffMembers st.membership.memberIds st'.membership.memberIds := by
  rw [mergeSync] at h
  obtain ⟨⟨m, changes⟩, hm, h⟩ := Option.bind_eq_some_iff.mp h
  obtain ⟨δ, -, -, rfl⟩ := Membership.mergeRemote_eq_some hm
  cases h
  simp [broadcastEvents]

theorem dispatchRequest_events (st : DaemonState P) (r : ControlRequest) :
    (st.dispatchRequest r).events = st.events := by
  cases r <;> rfl

theorem dispatchRequest_peers (st : DaemonState P) (r : ControlRequest) :
    (st.dispatchRequest r).peers = st.peers := by
  cases r <;> rfl

theorem forwardDiscovered_eq (st : DaemonState P) (addr : P.Addr) :
    ∃ joins, st.forwardDiscovered addr = { st with pendingJoins := joins } := by
  rw [forwardDiscovered]
  split
  · exact ⟨st.pendingJoins, rfl⟩
  · exact ⟨_, rfl⟩

theorem meshExpandRandomPeer_eq (st : DaemonState P) (choice : ℕ) :
    ∃ joins, st.meshExpandRandomPeer choice = { st with pendingJoins := joins } := by
  simp only [meshExpandRandomPeer]
  split
  · exact ⟨st.pendingJoins, rfl⟩
  · split
    · split
      · exact ⟨st.pendingJoins, rfl⟩
      · exact ⟨_, rfl⟩
    · exact ⟨st.pendingJoins, rfl⟩

end DaemonState

namespace Daemon
variable {cfg : Config} {cookie : Bytes} {d d' : Daemon P} {a : Act P}
  {sent : Option (TaskId × Message P)}

theorem taskStep_eq_some {t : TaskId} {e : TaskEvent P}
    (h : d.step cfg cookie (.task t e) = some (d', sent)) :
    ∃ s o, d.tasks[t]? = some s ∧ SessionMove cfg cookie t d.state s e o ∧
      sessionStep cfg cookie t d.state s e = some o ∧
      d' = { d with state := o.state, tasks := d.tasks.set t o.session } ∧
      sent = o.sent.map fun m => (t, m) := by
  rw [step, taskStep] at h
  obtain ⟨s, hs, h⟩ := Option.bind_eq_some_iff.mp h
  obtain ⟨o, ho, h⟩ := Option.bind_eq_some_iff.mp h
  cases h
  exact ⟨s, o, hs, sessionStep_move ho, ho, rfl, rfl⟩

theorem step_of_sessionStep {t : TaskId} {s : Session P} {e : TaskEvent P} {o : Outcome P}
    (hs : d.tasks[t]? = some s) (ho : sessionStep cfg cookie t d.state s e = some o) :
    d.step cfg cookie (.task t e) =
      some ({ d with state := o.state, tasks := d.tasks.set t o.session },
        o.sent.map fun m => (t, m)) := by
  simp only [step, taskStep, hs, Option.bind_eq_bind, Option.bind_some, ho]
  rfl

/-- A step of any task that is not a session. -/
theorem mainStep_eq_some (ha : ∀ t e, a ≠ .task t e)
    (h : d.step cfg cookie a = some (d', sent)) : d.mainStep a = some d' ∧ sent = none := by
  rw [step.eq_def] at h
  split at h
  · rename_i t e
    exact absurd rfl (ha t e)
  · obtain ⟨d₁, hd, hp⟩ := Option.map_eq_some_iff.mp h
    cases hp
    exact ⟨hd, rfl⟩

/-- Every successful step of the main task or of a handler, by what it changes. -/
inductive MainMove (d : Daemon P) : Act P → Daemon P → Prop
  | request (r : ControlRequest) :
      MainMove d (.request r) { d with state := d.state.dispatchRequest r }
  | queued {a : Act P} {joins : List String} {main : MainPc} (ha : a ≠ .accept)
      (hmain : main.inLoop = true → d.main.inLoop = true)
      (hstop : d.main.inLoop = false → main = d.main) :
      MainMove d a { d with state := { d.state with pendingJoins := joins }, main := main }
  | drain (hmain : d.main = .processing) :
      MainMove d .drain
        { state := { d.state with pendingJoins := [], pendingLeaves := [] }
          tasks := d.tasks ++ spawned d.state.pendingJoins
          main := .leaving d.state.pendingLeaves }
  | leave {addr : String} {rest : List String} (hmain : d.main = .leaving (addr :: rest)) :
      MainMove d .leave { d with state := d.state.leave addr, main := .leaving rest }
  | gossipSend {tx : TaskId} (hmain : d.main = .gossiping tx) :
      MainMove d .gossipSend
        { d with
          state := { d.state with gossip := Function.update d.state.gossip tx true }
          main := .select }
  | removeSelf (hmain : d.main = .stopping) :
      MainMove d .removeSelf { d with state := d.state.removeSelf, main := .sleeping }
  | cancel (hmain : d.main = .sleeping) :
      MainMove d .cancel { d with state := { d.state with shutdown := true }, main := .stopped }
  | accept : MainMove d .accept { d with tasks := d.tasks ++ [Session.accepted] }

/-- A step that only moves the program counter. -/
theorem MainMove.jump (main : MainPc) (ha : a ≠ .accept) (hd : d.main.inLoop = true) :
    MainMove d a { d with main := main } := by
  have h : MainMove d a { d with
      state := { d.state with pendingJoins := d.state.pendingJoins }, main := main } :=
    .queued ha (fun _ => hd) fun h => by simp [hd] at h
  exact h

theorem mainStep_move (h : d.mainStep a = some d') : MainMove d a d' := by
  cases a with
  | request r =>
    cases h
    exact .request r
  | discovered addr =>
    cases h
    obtain ⟨joins, hj⟩ := d.state.forwardDiscovered_eq addr
    rw [hj]
    exact .queued (by simp) id fun _ => rfl
  | tick =>
    simp only [mainStep, Option.ite_none_right_eq_some, Option.some.injEq] at h
    obtain ⟨hm, rfl⟩ := h
    exact .jump _ (by simp) (by rw [hm]; rfl)
  | drain =>
    simp only [mainStep, Option.ite_none_right_eq_some, Option.some.injEq] at h
    obtain ⟨hm, rfl⟩ := h
    exact .drain hm
  | leave =>
    rw [mainStep] at h
    split at h
    · rename_i hm
      cases h
      exact .leave hm
    · rename_i hm
      cases h
      exact .jump _ (by simp) (by rw [hm]; rfl)
    · cases h
  | gossipTick choice =>
    simp only [mainStep] at h
    split at h
    · rename_i hm
      split at h
      · cases h
        exact .jump _ (by simp) (by rw [hm]; rfl)
      · cases h
        exact .jump d.main (by simp) (by rw [hm]; rfl)
    · cases h
  | gossipSend =>
    rw [mainStep] at h
    split at h
    · rename_i hm
      cases h
      exact .gossipSend hm
    · cases h
  | meshTick choice =>
    simp only [mainStep, Option.ite_none_right_eq_some, Option.some.injEq] at h
    obtain ⟨hm, rfl⟩ := h
    obtain ⟨joins, hj⟩ := d.state.meshExpandRandomPeer_eq choice
    rw [hj]
    exact .queued (by simp) id fun _ => rfl
  | interrupt =>
    simp only [mainStep, Option.ite_none_right_eq_some, Option.some.injEq] at h
    obtain ⟨hm, rfl⟩ := h
    exact .jump _ (by simp) (by rw [hm]; rfl)
  | removeSelf =>
    simp only [mainStep, Option.ite_none_right_eq_some, Option.some.injEq] at h
    obtain ⟨hm, rfl⟩ := h
    exact .removeSelf hm
  | cancel =>
    simp only [mainStep, Option.ite_none_right_eq_some, Option.some.injEq] at h
    obtain ⟨hm, rfl⟩ := h
    exact .cancel hm
  | accept =>
    cases h
    exact .accept
  | task t e => cases h

/-- A step is a session move or a move of the main task. -/
theorem step_cases (h : d.step cfg cookie a = some (d', sent)) :
    (∃ t e s o, a = .task t e ∧ d.tasks[t]? = some s ∧ SessionMove cfg cookie t d.state s e o ∧
      d' = { d with state := o.state, tasks := d.tasks.set t o.session } ∧
      sent = o.sent.map fun m => (t, m)) ∨
    (MainMove d a d' ∧ sent = none) := by
  by_cases ha : ∃ t e, a = .task t e
  · obtain ⟨t, e, rfl⟩ := ha
    obtain ⟨s, o, hs, hm, -, hd, hsent⟩ := taskStep_eq_some h
    exact .inl ⟨t, e, s, o, rfl, hs, hm, hd, hsent⟩
  · obtain ⟨hm, hs⟩ := mainStep_eq_some (fun t e he => ha ⟨t, e, he⟩) h
    exact .inr ⟨mainStep_move hm, hs⟩

/-- A session after a step: the one that moved, or one that was there before, or a
new one. -/
theorem session_step {t : TaskId} {s : Session P} (h : d.step cfg cookie a = some (d', sent))
    (hs : d'.tasks[t]? = some s) :
    (∃ e s₀ o, a = .task t e ∧ d.tasks[t]? = some s₀ ∧
      SessionMove cfg cookie t d.state s₀ e o ∧ s = o.session) ∨
    d.tasks[t]? = some s ∨
    (d.tasks[t]? = none ∧ ((∃ addr, s = .dialing addr) ∨ (a = .accept ∧ s = .accepted))) := by
  have happend : ∀ {new : List (Session P)}, (d.tasks ++ new)[t]? = some s →
      d.tasks[t]? = some s ∨ (d.tasks[t]? = none ∧ s ∈ new) := by
    intro new hs
    rw [List.getElem?_append] at hs
    split at hs
    · exact .inl hs
    · rename_i hlt
      exact .inr ⟨List.getElem?_eq_none (Nat.le_of_not_lt hlt), List.mem_of_getElem? hs⟩
  rcases step_cases h with ⟨u, e, s₀, o, rfl, hs₀, hm, rfl, -⟩ | ⟨hm, -⟩
  · by_cases ht : u = t
    · subst ht
      rw [List.getElem?_set_self (List.getElem?_eq_some_iff.mp hs₀).1, Option.some.injEq] at hs
      exact .inl ⟨e, s₀, o, rfl, hs₀, hm, hs.symm⟩
    · rw [List.getElem?_set_ne ht] at hs
      exact .inr (.inl hs)
  · cases hm with
    | drain _ =>
      rcases happend hs with hold | ⟨hnone, hmem⟩
      · exact .inr (.inl hold)
      · obtain ⟨addr, -, hdial⟩ := List.mem_filterMap.mp hmem
        obtain ⟨x, -, rfl⟩ := Option.map_eq_some_iff.mp hdial
        exact .inr (.inr ⟨hnone, .inl ⟨x, rfl⟩⟩)
    | accept =>
      rcases happend hs with hold | ⟨hnone, hmem⟩
      · exact .inr (.inl hold)
      · exact .inr (.inr ⟨hnone, .inr ⟨rfl, List.mem_singleton.mp hmem⟩⟩)
    | _ => exact .inr (.inl hs)

/-- A step of another task leaves the session of task `t` alone. -/
theorem tasks_of_step {t : TaskId} {s : Session P} (ha : ∀ e, a ≠ .task t e)
    (hs : d.tasks[t]? = some s) (h : d.step cfg cookie a = some (d', sent)) :
    d'.tasks[t]? = some s := by
  have happend : ∀ new : List (Session P), (d.tasks ++ new)[t]? = some s := fun new => by
    rw [List.getElem?_append_left (List.getElem?_eq_some_iff.mp hs).1, hs]
  rcases step_cases h with ⟨u, e, s', o, rfl, hs', hm, rfl, -⟩ | ⟨hm, -⟩
  · have hne : u ≠ t := fun hut => ha e (by rw [hut])
    rw [List.getElem?_set_ne hne, hs]
  · cases hm with
    | drain _ => exact happend _
    | accept => exact happend _
    | _ => exact hs

end Daemon
end Pmd
