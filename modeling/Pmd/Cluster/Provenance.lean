import Pmd.Cluster.Causality

/-!
# Where the writes of the documents come from

Honest daemons write at their start, when a service is registered or removed, in
the shutdown sequence and in the cleanup of a session. At the path of a node there
are only the record of its start and dead markers; a dead marker comes from its
own shutdown or from a session with it that ended.
-/
namespace Pmd
open Foundation

variable {P : Platform}

theorem Daemon.step_inLoop {cfg : Config} {cookie : Bytes} {d d' : Daemon P} {a : Act P}
    {sent : Option (TaskId × Message P)} (h : d.step cfg cookie a = some (d', sent))
    (hloop : d'.main.inLoop = true) : d.main.inLoop = true := by
  rcases step_cases h with ⟨t, e, s, o, rfl, hs, hm, rfl, -⟩ | ⟨hm, -⟩
  · exact hloop
  · cases hm with
    | queued _ hmain _ => exact hmain hloop
    | drain hmain => rw [hmain]; rfl
    | leave hmain => rw [hmain]; rfl
    | gossipSend hmain => rw [hmain]; rfl
    | removeSelf _ => cases hloop
    | cancel _ => cases hloop
    | _ => exact hloop

/-- A dead marker for node `r` written by node `n`. -/
def IsMarker (n r : NodeId) (w : DocWrite) : Prop :=
  w.dot.replica = n.text ∧ w.path = ["nodes", r.text] ∧ w.value = some deadMarker

namespace Cluster
variable {W : Setup} {c c' : Cluster P} {n : NodeId} {a : Act P}

/-- Where a write new to the log comes from. -/
inductive NewWrite (c : Cluster P) (n : NodeId) : Act P → DocWrite → Prop
  | service {a : Act P} {w : DocWrite} {name : String}
      (hpath : w.path = splitPath (servicePath n.text name))
      (hval : ∀ v ∈ w.value, ∃ port metadata, v = serviceRecord port metadata) : NewWrite c n a w
  | ownRemoval {w : DocWrite} {path : String} (hmain : (c.daemon n).main = .stopping)
      (hrem : IsRemoval n.text path w.value) (hpath : w.path = splitPath path) :
      NewWrite c n .removeSelf w
  | removal {t : TaskId} {s : Session P} {peer : PeerId P} {w : DocWrite} {path : String}
      {nonce : Nonce} {epoch : Option ℕ} {now : ℕ} (hs : c.session (n, t) = some s)
      (hp : s.phase = .live peer .cleanup) (hrem : IsRemoval peer.nodeId path w.value)
      (hpath : w.path = splitPath path) : NewWrite c n (.task t (.lock nonce epoch now)) w

/-- A daemon step adds to the log only writes of that daemon. -/
theorem Causal.mem_log_act (hi : Causal c) (h : c.act W n a = some c') {w : DocWrite}
    (hw : w ∈ commonLog c'.replicas) :
    w ∈ commonLog c.replicas ∨ (NewWrite c n a w ∧ w.dot.replica = n.text) := by
  obtain ⟨m, hm⟩ := hw
  obtain ⟨d, sent, hd, rfl⟩ := act_eq_some h
  rw [replicas_post, replicas_setDaemon] at hm
  by_cases hmn : m = n
  · subst hmn
    rw [Function.update_self] at hm
    have hm : w ∈ P.crdt.writes d.doc := hm
    have hold : w ∈ P.crdt.writes (c.daemon m).doc → w ∈ commonLog c.replicas := fun hw => ⟨m, hw⟩
    have hrep := hi.replica m
    have hnode := hi.nodeId m
    cases Daemon.step_doc hd with
    | same hsame =>
      rw [hsame] at hm
      exact .inl (hold hm)
    | request he =>
      rcases he.mem_writes hm with hw | ⟨path, ⟨⟨name, hname⟩, hval⟩, hpath, hr⟩
      · exact .inl (hold hw)
      · rw [hnode] at hname
        exact .inr ⟨.service (by rw [hpath, hname]) hval, hr.trans hrep⟩
    | removeSelf hmain he =>
      rcases he.mem_writes hm with hw | ⟨path, hrem, hpath, hr⟩
      · exact .inl (hold hw)
      · rw [hnode] at hrem
        exact .inr ⟨.ownRemoval hmain hrem hpath, hr.trans hrep⟩
    | cleaned hs hp he =>
      rcases he.mem_writes hm with hw | ⟨path, hrem, hpath, hr⟩
      · exact .inl (hold hw)
      · exact .inr ⟨.removal hs hp hrem hpath, hr.trans hrep⟩
    | @merged t s e peer b v δ hs hp hb hdoc =>
      rw [hdoc, P.crdt.writes_merge] at hm
      rcases hm with hm | hm
      · exact .inl (hold hm)
      · obtain ⟨q, hq, δ', u, hb', -, hw', -⟩ := (hi.sessions (m, t) s hs).incoming _ _ hp
        rw [hb, Option.some.injEq] at hb'
        subst hb'
        rw [hw'] at hm
        exact .inl hm.1.1
  · rw [Function.update_of_ne hmn] at hm
    exact .inl ⟨m, hm⟩

theorem NewWrite.isDocPath {w : DocWrite} (h : NewWrite c n a w) (hi : Causal c) :
    IsDocPath w.path := by
  cases h with
  | @service _ _ name hpath _ =>
    obtain ⟨rest, hrest⟩ := splitPath_servicePath n.text name
    rw [hpath, hrest]
    exact .inr ⟨rest, rfl⟩
  | ownRemoval _ hrem hpath =>
    rw [hpath]
    exact hrem.isDocPath n.plain
  | @removal t s peer _ path _ _ _ hs hp hrem hpath =>
    obtain ⟨q, -, hid⟩ := (hi.sessions (n, t) s hs).remote peer (by rw [hp]; rfl)
    rw [hid] at hrem
    rw [hpath]
    exact hrem.isDocPath q.1.plain

/-- Node `n` tombstones node `r` in this step: itself when it shuts down, or the
remote node when a session ends. -/
def Tombstones (c : Cluster P) (x : Action P) (n r : NodeId) : Prop :=
  (x = .own n .removeSelf ∧ r = n ∧ (c.daemon n).main = .stopping) ∨
    ∃ peer, c.cleansUp x = some (n, peer) ∧ peer.nodeId = r.text

/-- A new write at the path of a node is a dead marker, written by the node's own
shutdown or by the cleanup of a session with it. -/
theorem NewWrite.of_node {w : DocWrite} {id : String} (h : NewWrite c n a w) (hi : Causal c)
    (hpath : w.path = ["nodes", id]) :
    w.value = some deadMarker ∧ ∃ r : NodeId, r.text = id ∧
      ((a = .removeSelf ∧ r = n ∧ (c.daemon n).main = .stopping) ∨
      ∃ t s peer nonce epoch now, a = .task t (.lock nonce epoch now) ∧
        c.session (n, t) = some s ∧ s.phase = .live peer .cleanup ∧ peer.nodeId = r.text) := by
  cases h with
  | @service _ _ name hpath' _ =>
    obtain ⟨rest, hrest⟩ := splitPath_servicePath n.text name
    rw [hpath', hrest] at hpath
    simp at hpath
  | ownRemoval hmain hrem hpath' =>
    rw [hpath'] at hpath
    exact ⟨hrem.1, n, hrem.nodeId_eq n.plain hpath, .inl ⟨rfl, rfl, hmain⟩⟩
  | @removal t s peer _ path _ _ _ hs hp hrem hpath' =>
    obtain ⟨q, -, hid⟩ := (hi.sessions (n, t) s hs).remote peer (by rw [hp]; rfl)
    rw [hid] at hrem
    rw [hpath'] at hpath
    exact ⟨hrem.1, q.1, hrem.nodeId_eq q.1.plain hpath,
      .inr ⟨t, s, peer, _, _, _, rfl, hs, hp, hid⟩⟩

/-- Only these steps add a write at the path of a node to the log. -/
theorem mem_log_node {x : Action P} (hr : (system P W).Reach Honest c) (hx : Honest c x)
    (h : (system P W).step c x = some c') {w : DocWrite} {id : String}
    (hw : w ∈ commonLog c'.replicas) (hpath : w.path = ["nodes", id]) :
    w ∈ commonLog c.replicas ∨ (w.value = some deadMarker ∧ ∃ r n : NodeId, r.text = id ∧
      w.dot.replica = n.text ∧ c.Tombstones x n r) := by
  refine (Causal.reach hr).step_induct (Links.reach hr) hx h
    (I := fun c' => w ∈ commonLog c'.replicas → w ∈ commonLog c.replicas ∨
      (w.value = some deadMarker ∧ ∃ r n : NodeId, r.text = id ∧ w.dot.replica = n.text ∧
        c.Tombstones x n r)) ?_ ?_ .inl hw
  · intro c₀ c₁ hd hi hw
    rw [← replicas_congr hd] at hw
    exact hi hw
  · intro c₀ c₁ m a hc hi hown hact hw
    rcases hc.mem_log_act hact hw with hold | ⟨hnew, hrep⟩
    · exact hi hold
    · obtain ⟨hval, r, hid, hcause⟩ := hnew.of_node hc hpath
      refine .inr ⟨hval, r, m, hid, hrep, ?_⟩
      rcases hcause with ⟨rfl, hrm, hmain⟩ | ⟨t, s, peer, _, _, _, rfl, hs, hp, hpeer⟩
      · rcases hown with ⟨rfl, rfl⟩ | hown
        · exact .inl ⟨rfl, hrm, hmain⟩
        · cases hown
      · rcases hown with ⟨rfl, rfl⟩ | hown
        · exact .inr ⟨peer, by simp [cleansUp, lockedPhase, hs, hp], hpeer⟩
        · cases hown

/-- Only the cleanup of a session with `r` makes another node write a marker for `r`. -/
theorem mem_log_of_isMarker {r : NodeId} {x : Action P} (hr : (system P W).Reach Honest c)
    (hx : Honest c x) (h : (system P W).step c x = some c') (hne : r ≠ n)
    (hclean : ∀ peer, c.cleansUp x = some (n, peer) → peer.nodeId ≠ r.text)
    {w : DocWrite} (hw : w ∈ commonLog c'.replicas) (hmark : IsMarker n r w) :
    w ∈ commonLog c.replicas := by
  rcases mem_log_node hr hx h hw hmark.2.1 with hold | ⟨-, r', n', hid, hrep, hcause⟩
  · exact hold
  · have hr' : r' = r := NodeId.text_injective hid
    have hn' : n' = n := NodeId.text_injective (hrep.symm.trans hmark.1)
    subst hr' hn'
    rcases hcause with ⟨-, hrn, -⟩ | ⟨peer, hpeer, hid⟩
    · exact absurd hrn hne
    · exact absurd hid (hclean peer hpeer)

/-! ## The records of the nodes -/

/-- What the daemons are started with. -/
structure Startup (P : Platform) where
  addr : NodeId → P.Addr
  metadata : NodeId → StrMap String
  joinedAt : NodeId → ℕ

namespace Startup

def record (S : Startup P) (r : NodeId) : Json :=
  nodeRecord (S.addr r) (S.metadata r) (S.joinedAt r)

/-- The write of `add_node` in `run`. -/
def write (S : Startup P) (r : NodeId) : DocWrite :=
  Replica.next r.text ⊥ ["nodes", r.text] (some (S.record r))

end Startup

/-- In the initial state `c` every daemon has just started with its data of `S`. -/
def StartedWith (W : Setup) (S : Startup P) (c : Cluster P) : Prop :=
  (system P W).init c ∧ ∀ n, Daemon.start (W.cfg n) n.text (S.metadata n) (S.addr n)
    (S.joinedAt n) = some (c.daemon n)

theorem exists_startedWith (h : (system P W).init c) : ∃ S, StartedWith W S c := by
  choose metadata addr now hstart using h.1
  exact ⟨⟨addr, metadata, now⟩, h, hstart⟩

theorem StartedWith.writes {S : Startup P} (h : StartedWith W S c) (r : NodeId) :
    P.crdt.writes (c.daemon r).doc = {S.write r} := by
  rw [Daemon.doc, (Daemon.start_eq_some (h.2 r)).2.1, Startup.write,
    ← splitPath_nodePath r.plain]
  simp [Membership.addNode, Membership.new, P.crdt.writes_set, stamp, Startup.record]

theorem StartedWith.mem_log {S : Startup P} (h : StartedWith W S c) {w : DocWrite} :
    w ∈ commonLog c.replicas ↔ ∃ r, w = S.write r := by
  constructor
  · rintro ⟨r, hw⟩
    have hw : w ∈ P.crdt.writes (c.daemon r).doc := hw
    rw [h.writes r] at hw
    exact ⟨r, hw⟩
  · rintro ⟨r, rfl⟩
    refine ⟨r, ?_⟩
    change _ ∈ P.crdt.writes (c.daemon r).doc
    rw [h.writes r]
    rfl

/-- The writes of the common log: all paths are document paths, and at the path of a
node there are only the write of its start and dead markers. -/
structure NodeWrites (S : Startup P) (c : Cluster P) : Prop where
  paths : ∀ w ∈ commonLog c.replicas, IsDocPath w.path
  nodes : ∀ w ∈ commonLog c.replicas, ∀ id, w.path = ["nodes", id] →
    ∃ r : NodeId, r.text = id ∧ (w = S.write r ∨ w.value = some deadMarker)

namespace NodeWrites
variable {S : Startup P}

theorem act (hi : NodeWrites S c) (hc : Causal c) (h : c.act W n a = some c') :
    NodeWrites S c' := by
  refine ⟨fun w hw => ?_, fun w hw id hpath => ?_⟩
  · rcases hc.mem_log_act h hw with hold | ⟨hnew, -⟩
    · exact hi.paths w hold
    · exact hnew.isDocPath hc
  · rcases hc.mem_log_act h hw with hold | ⟨hnew, -⟩
    · exact hi.nodes w hold id hpath
    · obtain ⟨hval, r, hid, -⟩ := hnew.of_node hc hpath
      exact ⟨r, hid, .inr hval⟩

theorem init (h : StartedWith W S c) : NodeWrites S c := by
  refine ⟨fun w hw => ?_, fun w hw id hpath => ?_⟩
  · obtain ⟨r, rfl⟩ := h.mem_log.mp hw
    exact .inl ⟨_, rfl⟩
  · obtain ⟨r, rfl⟩ := h.mem_log.mp hw
    simp only [Startup.write, Replica.next, List.cons.injEq, and_true, true_and] at hpath
    exact ⟨r, hpath, .inl rfl⟩

theorem leads {c₀ : Cluster P} (h₀ : StartedWith W S c₀) (hl : (system P W).Leads Honest c₀ c) :
    NodeWrites S c := by
  refine Causal.leads_invariant (fun _ _ hx => hx) (fun c₀ c₁ hd hi => ?_)
    (fun _ _ _ _ _ _ _ hc hi _ h => hi.act hc h) h₀.1 (init h₀) hl
  have hrep := replicas_congr hd
  exact ⟨hrep ▸ hi.paths, hrep ▸ hi.nodes⟩

theorem reach (h : (system P W).Reach Honest c) : ∃ S, NodeWrites S c := by
  obtain ⟨c₀, h₀, hl⟩ := h
  obtain ⟨S, hS⟩ := exists_startedWith h₀
  exact ⟨S, leads hS hl⟩

/-- What a document shows at the path of a node. -/
theorem shown (hi : NodeWrites S c) {id : String} {val : Json}
    (h : P.crdt.shown (c.daemon n).doc ["nodes", id] = some val) :
    ∃ r : NodeId, r.text = id ∧
      (val = S.record r ∧ S.write r ∈ P.crdt.writes (c.daemon n).doc ∨ val = deadMarker) := by
  obtain ⟨w, hsurvives, hpath, hval⟩ := P.crdt.exists_write_of_shown (by rw [h]; rfl)
  obtain ⟨r, hid, hw⟩ := hi.nodes w ⟨n, hsurvives.1⟩ id hpath
  rw [h] at hval
  refine ⟨r, hid, ?_⟩
  rcases hw with rfl | hw
  · exact .inl ⟨Option.some.inj hval, hsurvives.1⟩
  · exact .inr (Option.some.inj (hval.trans hw))

theorem docPaths (hi : NodeWrites S c) (n : NodeId) (p : Path)
    (h : (P.crdt.shown (c.daemon n).doc p).isSome) : IsDocPath p := by
  obtain ⟨w, hw, rfl, -⟩ := P.crdt.exists_write_of_shown h
  exact hi.paths w ⟨n, hw.1⟩

end NodeWrites

/-- Member records are authentic and agreed: a replica lists a node at most once, with
the data of the write the node has started with, which the replica holds, so two replicas
list it with the same data. -/
theorem members_authentic {S : Startup P} {c₀ : Cluster P} (h₀ : StartedWith W S c₀)
    (hl : (system P W).Leads Honest c₀ c) :
    (∀ n, ∀ info ∈ (c.state n).membership.members, ∃ r : NodeId, info.nodeId = r.text ∧
      info.addr = S.addr r ∧ info.metadata = S.metadata r ∧ info.joinedAt = S.joinedAt r ∧
      S.write r ∈ P.crdt.writes (c.daemon n).doc) ∧
    (∀ n, ((c.state n).membership.members.map NodeInfo.nodeId).Nodup) ∧
    (∀ n m, ∀ info ∈ (c.state n).membership.members, ∀ info' ∈ (c.state m).membership.members,
      info.nodeId = info'.nodeId → info.addr = info'.addr ∧ info.metadata = info'.metadata ∧
        info.joinedAt = info'.joinedAt) := by
  have hi := NodeWrites.leads h₀ hl
  have hdata : ∀ n, ∀ info ∈ (c.state n).membership.members, ∃ r : NodeId, info.nodeId = r.text ∧
      info.addr = S.addr r ∧ info.metadata = S.metadata r ∧ info.joinedAt = S.joinedAt r ∧
      S.write r ∈ P.crdt.writes (c.daemon n).doc := by
    intro n info hinfo
    obtain ⟨val, hval, hinfo⟩ := (Membership.mem_members (hi.docPaths n)).mp hinfo
    obtain ⟨r, hid, ⟨rfl, hwrite⟩ | rfl⟩ := hi.shown hval
    · rw [Startup.record, Membership.nodeInfo_nodeRecord, Option.some.injEq] at hinfo
      refine ⟨r, hid.symm, ?_⟩
      rw [← hinfo]
      exact ⟨rfl, rfl, rfl, hwrite⟩
    · rw [Membership.nodeInfo_deadMarker] at hinfo
      cases hinfo
  refine ⟨hdata, fun n => Membership.nodup_members (hi.docPaths n), ?_⟩
  intro n m info hinfo info' hinfo' heq
  obtain ⟨r, hid, haddr, hmeta, hjoined, -⟩ := hdata n info hinfo
  obtain ⟨r', hid', haddr', hmeta', hjoined', -⟩ := hdata m info' hinfo'
  have hr : r = r' := NodeId.text_injective (by rw [← hid, ← hid', heq])
  subst hr
  exact ⟨haddr.trans haddr'.symm, hmeta.trans hmeta'.symm, hjoined.trans hjoined'.symm⟩

/-! ## Causes of a dead marker -/

/-- A dead marker of node `r`, whoever wrote it. -/
def IsMarkerOf (r : NodeId) (w : DocWrite) : Prop :=
  w.path = ["nodes", r.text] ∧ w.value = some deadMarker

/-- The message is a sync with a dead marker of `r`. -/
def CarriesMarkerOf (r : NodeId) : Message P → Prop
  | .membershipSync b _ =>
    ∃ δ, P.crdt.decode b = some δ ∧ ∃ w ∈ P.crdt.deltaWrites δ, IsMarkerOf r w
  | _ => False

/-- A dead marker of `r` stands in a document or is on its way: in a message that is
built and not yet written, on a connection, or read and not yet merged. -/
def MarkerPresent (c : Cluster P) (r : NodeId) : Prop :=
  (∃ n, ∃ w ∈ P.crdt.writes (c.daemon n).doc, IsMarkerOf r w) ∨
  (∃ p s m, c.session p = some s ∧ s.phase.outgoing = some m ∧ CarriesMarkerOf r m) ∨
  (∃ p, ∃ m ∈ c.inbox p, CarriesMarkerOf r m) ∨
  (∃ p s peer m, c.session p = some s ∧ s.phase = .live peer (.handle m) ∧ CarriesMarkerOf r m)

/-- Some daemon had a session registered under the id of `r`, and it has ended. -/
def SessionEnded (W : Setup) (c : Cluster P) (r : NodeId) : Prop :=
  ∃ (c₁ : Cluster P) (p : Port) (s₁ s : Session P) (peer : PeerId P),
    (system P W).Reach Honest c₁ ∧ (system P W).Leads Honest c₁ c ∧ c₁.session p = some s₁ ∧
    s₁.phase.registered = some peer ∧ peer.nodeId = r.text ∧ c.session p = some s ∧
    s.phase.isEnded = true

theorem Fits.mem_log {src dst r : NodeId} {m : Message P} (hf : c.Fits src dst m)
    (hm : CarriesMarkerOf r m) : ∃ w ∈ commonLog c.replicas, IsMarkerOf r w := by
  cases m with
  | membershipSync b v =>
    obtain ⟨δ, hb, w, hw, hmark⟩ := hm
    obtain ⟨δ', u, hb', -, hwrites, -⟩ := hf
    rw [hb, Option.some.injEq] at hb'
    subst hb'
    rw [hwrites] at hw
    exact ⟨w, hw.1.1, hmark⟩
  | _ => exact hm.elim

/-- A marker on its way is in some document already. -/
theorem Causal.markerPresent_iff (hi : Causal c) {r : NodeId} :
    c.MarkerPresent r ↔ ∃ w ∈ commonLog c.replicas, IsMarkerOf r w := by
  constructor
  · rintro (⟨n, w, hw, hmark⟩ | ⟨p, s, m, hs, hout, hm⟩ | ⟨p, m, hin, hm⟩ |
      ⟨p, s, peer, m, hs, hp, hm⟩)
    · exact ⟨w, ⟨n, hw⟩, hmark⟩
    · obtain ⟨q, -, hf⟩ := (hi.sessions p s hs).outgoing m hout
      exact hf.mem_log hm
    · obtain ⟨q, -, hf⟩ := hi.inbox p m hin
      exact hf.mem_log hm
    · obtain ⟨q, -, hf⟩ := (hi.sessions p s hs).incoming peer m hp
      exact hf.mem_log hm
  · rintro ⟨w, ⟨n, hw⟩, hmark⟩
    exact .inl ⟨n, w, hw, hmark⟩

theorem inLoop_act (h : c.act W n a = some c') (r : NodeId)
    (hloop : (c'.daemon r).main.inLoop = true) : (c.daemon r).main.inLoop = true := by
  obtain ⟨d, sent, hd, rfl⟩ := act_eq_some h
  rw [post_daemon] at hloop
  by_cases hrn : r = n
  · subst hrn
    rw [setDaemon_self] at hloop
    exact Daemon.step_inLoop hd hloop
  · rwa [setDaemon_ne _ _ _ hrn] at hloop

/-- A session that has ended stays so. -/
theorem ended_act {p : Port} {s : Session P} (h : c.act W n a = some c')
    (hs : c.session p = some s) (he : s.phase.isEnded = true) : c'.session p = some s := by
  rcases session_of_act h hs with ⟨e, o, -, -, hm, -⟩ | hs'
  · cases hm with
    | _ hp => rw [hp] at he; cases he
  · exact hs'

section Step
variable {x : Action P} (hr : (system P W).Reach Honest c) (hx : Honest c x)
  (h : (system P W).step c x = some c')
include hr hx h

theorem inLoop_step (r : NodeId) (hloop : (c'.daemon r).main.inLoop = true) :
    (c.daemon r).main.inLoop = true := by
  refine (Causal.reach hr).step_induct (Links.reach hr) hx h
    (I := fun c' => (c'.daemon r).main.inLoop = true → (c.daemon r).main.inLoop = true)
    ?_ ?_ id hloop
  · intro c₀ c₁ hd hi
    rwa [hd] at hi
  · exact fun c₀ c₁ m a _ hi _ hact hloop => hi (inLoop_act hact r hloop)

theorem ended_step {p : Port} {s : Session P} (hs : c.session p = some s)
    (he : s.phase.isEnded = true) : c'.session p = some s := by
  refine (Causal.reach hr).step_induct (Links.reach hr) hx h
    (I := fun c' => c'.session p = some s) ?_ ?_ hs
  · intro c₀ c₁ hd hi
    rwa [session, ← hd]
  · exact fun c₀ c₁ m a _ hi _ hact => ended_act hact hi he

theorem SessionEnded.step {r : NodeId} (hend : c.SessionEnded W r) : c'.SessionEnded W r := by
  obtain ⟨c₁, p, s₁, s, peer, hr₁, hl, hs₁, hreg, hid, hs, he⟩ := hend
  exact ⟨c₁, p, s₁, s, peer, hr₁, hl.tail ⟨x, hx, h⟩, hs₁, hreg, hid,
    ended_step hr hx h hs he, he⟩

theorem sessionEnded_of_cleansUp {r : NodeId} {peer : PeerId P}
    (hc : c.cleansUp x = some (n, peer)) (hid : peer.nodeId = r.text) : c'.SessionEnded W r := by
  obtain ⟨t, nonce, epoch, now, s, rfl, hs, hp⟩ := cleansUp_eq_some hc
  have hact : c.act W n (.task t (.lock nonce epoch now)) = some c' := h
  have ho : sessionStep (W.cfg n) W.cookie t (c.state n) s (.lock nonce epoch now) =
      some ⟨(c.state n).cleanup peer, s.goto (.ended none), none⟩ := by
    simp only [sessionStep, hp, stageStep]
  rw [act_of_sessionStep hs ho, Option.some.injEq] at hact
  refine ⟨c, (n, t), s, s.goto (.ended none), peer, hr, .single ⟨_, hx, h⟩, hs, by rw [hp]; rfl,
    hid, ?_, rfl⟩
  rw [← hact, session, post_daemon, setDaemon_self]
  exact List.getElem?_set_self (List.getElem?_eq_some_iff.mp hs).1

end Step

/-- A dead marker of a node in a document or in flight means that the node has begun
its own shutdown or that a session registered under its id has ended. Only the
shutdown and the cleanup create one. -/
theorem marker_has_cause (hr : (system P W).Reach Honest c) :
    (∀ r, c.MarkerPresent r → (c.daemon r).main.inLoop = false ∨ c.SessionEnded W r) ∧
    (∀ x c' r, Honest c x → (system P W).step c x = some c' → c'.MarkerPresent r →
      c.MarkerPresent r ∨ ∃ n, c.Tombstones x n r) := by
  have hnew : ∀ (c : Cluster P) x c' r, (system P W).Reach Honest c → Honest c x →
      (system P W).step c x = some c' → c'.MarkerPresent r →
      c.MarkerPresent r ∨ ∃ n, c.Tombstones x n r := by
    intro c x c' r hr hx hs hm
    have hr' : (system P W).Reach Honest c' := hr.leads (.single ⟨x, hx, hs⟩)
    obtain ⟨w, hw, hmark⟩ := (Causal.reach hr').markerPresent_iff.mp hm
    rcases mem_log_node hr hx hs hw hmark.1 with hold | ⟨-, r', n, hid, -, hcause⟩
    · exact .inl ((Causal.reach hr).markerPresent_iff.mpr ⟨w, hold, hmark⟩)
    · rw [NodeId.text_injective hid] at hcause
      exact .inr ⟨n, hcause⟩
  refine ⟨?_, fun x c' r => hnew c x c' r hr⟩
  refine (hr.invariant (I := fun c => (system P W).Reach Honest c ∧ ∀ r, c.MarkerPresent r →
    (c.daemon r).main.inLoop = false ∨ c.SessionEnded W r) ?_ ?_).2
  · intro c hc
    obtain ⟨S, hS⟩ := exists_startedWith hc
    refine ⟨⟨c, hc, .refl⟩, fun r hm => ?_⟩
    obtain ⟨w, hw, hmark⟩ := (Causal.init hc).markerPresent_iff.mp hm
    obtain ⟨r', rfl⟩ := hS.mem_log.mp hw
    exact absurd (Option.some.inj hmark.2) (Membership.nodeRecord_ne_deadMarker _ _ _)
  · intro c x c' hi hx hs
    refine ⟨hi.1.leads (.single ⟨x, hx, hs⟩), fun r hm => ?_⟩
    have hstays : (c.daemon r).main.inLoop = false → (c'.daemon r).main.inLoop = false := by
      intro hloop
      rw [← Bool.not_eq_true] at hloop ⊢
      exact fun hloop' => hloop (inLoop_step hi.1 hx hs r hloop')
    rcases hnew c x c' r hi.1 hx hs hm with hold | ⟨n, ⟨-, rfl, hmain⟩ | ⟨peer, hpeer, hid⟩⟩
    · exact (hi.2 r hold).imp hstays (SessionEnded.step hi.1 hx hs)
    · exact .inl (hstays (by rw [hmain]; rfl))
    · exact .inr (sessionEnded_of_cleansUp hi.1 hx hs hpeer hid)

section
open Reference

/-- The data of the daemons in `cluster`. -/
def startup : Startup platform := ⟨fun n => addr (host n), fun _ => ∅, fun _ => 0⟩

theorem cluster_startedWith : StartedWith setup startup cluster :=
  ⟨cluster_init cluster rfl, startOn_eq_daemon concordat⟩

/-- Nodes `a` and `b` connect and merge each other's full delta. -/
def joins : List (Action P) :=
  dials nodeA "10.0.0.2:4369" ++ handshake (nodeA, 0) (nodeB, 0) ++ exchange (nodeA, 0) (nodeB, 0)

/-- Node `a` then lists `b` with the address `b` was started with, and holds the write
of that start. -/
theorem members_authentic_join : ∃ (c : Cluster platform) (info : NodeInfo platform),
    clusters.Leads Honest cluster c ∧ info ∈ (c.state nodeA).membership.members ∧
      info.nodeId = nodeB.text ∧ info.addr = addr 2 ∧
      startup.write nodeB ∈ platform.crdt.writes (c.daemon nodeA).doc := by
  have heval : ((clusters.guard fun _ x => x.isHonest).run cluster joins).any
      (fun c => (c.state nodeA).membership.members.any fun info => info.nodeId = "b") = true := by
    decide +kernel
  obtain ⟨c, hl, hp⟩ := System.Leads.of_eval (C := Honest) heval fun _ _ hx => hx
  obtain ⟨info, hinfo, hid⟩ := List.any_eq_true.mp hp
  have hid : info.nodeId = nodeB.text := of_decide_eq_true hid
  obtain ⟨r, hr, haddr, -, -, hwrite⟩ :=
    (members_authentic cluster_startedWith hl).1 nodeA info hinfo
  have hb : r = nodeB := NodeId.text_injective (hr.symm.trans hid)
  rw [hb] at haddr hwrite
  exact ⟨c, info, hl, hinfo, hid, haddr, hwrite⟩

def marks (n r : String) (w : DocWrite) : Bool :=
  match w.value with
  | some (.object [("status", .string "dead")]) => w.dot.replica = n ∧ w.path = ["nodes", r]
  | _ => false

theorem marks_iff {r : NodeId} {w : DocWrite} : marks n.text r.text w = true ↔ IsMarker n r w := by
  rw [marks]
  split
  · rename_i hv
    simp [IsMarker, deadMarker, hv]
  · rename_i hv
    simp only [Bool.false_eq_true, false_iff]
    exact fun h => hv h.2.2

/-- The session of `a` with `b` fails and is cleaned up: the marker of `b` stands in
the document of `a`, and `b` has not begun to shut down. -/
theorem marker_has_cause_failed : ∃ c : Cluster platform, clusters.Reach Honest c ∧
    c.MarkerPresent nodeB ∧ (c.daemon nodeB).main.inLoop = true ∧ c.SessionEnded setup nodeB := by
  have heval : ((some cluster).bind fun c => (clusters.guard fun _ x => x.isHonest).run c
      (joins ++ [.own nodeA (.task 0 (.read .error)), locks (nodeA, 0)])).any
        (fun c => (c.daemon nodeA).doc.log.any (marks "a" "b") &&
          (c.daemon nodeB).main.inLoop) = true := by
    decide +kernel
  obtain ⟨c, hr, hp⟩ := System.Reach.of_eval (C := Honest) heval (fun _ _ hx => hx) cluster_init
  rw [Bool.and_eq_true] at hp
  obtain ⟨w, hw, hmark⟩ := List.any_eq_true.mp hp.1
  have hmark : IsMarker nodeA nodeB w := marks_iff.mp hmark
  have hpresent : c.MarkerPresent nodeB := .inl ⟨nodeA, w, hw, hmark.2⟩
  refine ⟨c, hr, hpresent, hp.2, ?_⟩
  rcases (marker_has_cause hr).1 nodeB hpresent with hloop | hend
  · rw [hp.2] at hloop
    cases hloop
  · exact hend

end

end Cluster
end Pmd
