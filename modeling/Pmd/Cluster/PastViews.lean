import Pmd.Cluster.Provenance
import Pmd.Cluster.Knowledge
import Pmd.Membership.Entries

/-!
# Reading the past of a node

As long as no dead marker of a node has reached a replica, what the replica shows of
the node is what the node itself showed at an earlier moment, and later readings show
later moments: readings of a node are never torn and never go back.
-/
namespace Pmd
open Foundation

variable {P : Platform}

/-- Two memberships show the same of a node. -/
structure Membership.SameNode (m m' : Membership P) (id : String) : Prop where
  members : ∀ info, info.nodeId = id → (info ∈ m.members ↔ info ∈ m'.members)
  services : m.nodeServices id = m'.nodeServices id
  lookups : ∀ name t, t.1 = id → (t ∈ m.lookupService name ↔ t ∈ m'.lookupService name)

/-- The paths at which something is stored for a node. -/
def IsNodePath (id : String) (p : Path) : Prop :=
  p = ["nodes", id] ∨ ∃ rest, p = "services" :: id :: rest

/-- The path of an entry of one node meets the entries of another nowhere. -/
theorem IsNodePath.of_comparable {id k top : String} {p : Path} (h : IsNodePath k p)
    (hp : p <+: [top, id] ∨ [top, id] <+: p) : IsNodePath id p := by
  rcases h with rfl | ⟨rest, rfl⟩
  · refine .inl ?_
    rcases hp with hp | hp <;> simp at hp <;> simp [hp]
  · refine .inr ⟨rest, ?_⟩
    rcases hp with hp | hp <;> simp at hp <;> simp [hp]

namespace Membership
variable {m m' : Membership P} {id : String}

/-- Same entries, same views. -/
theorem SameNode.of_found (hm : m.Mapped) (hm' : m'.Mapped)
    (hnode : m.found ["nodes", id] = m'.found ["nodes", id])
    (hserv : m.found ["services", id] = m'.found ["services", id]) : SameNode m m' id := by
  have hsvcs : m.nodeServices id = m'.nodeServices id := by
    rw [nodeServices_eq_found, nodeServices_eq_found, membersAt, membersAt, hserv]
  have haddr : m.nodeAddr id = m'.nodeAddr id := by rw [nodeAddr, nodeAddr, hnode]
  refine ⟨fun info hid => ?_, hsvcs, fun name t ht => ?_⟩
  · subst hid
    rw [hm.mem_members, hm'.mem_members, hnode]
    simp only [nodeInfo, hsvcs]
  · subst ht
    rw [hm.mem_lookupService, hm'.mem_lookupService, found_service, found_service, hserv, haddr]

/-- What is shown of a node depends on the writes at its own paths. -/
theorem SameNode.of_writes (hK : P.crdt.SnapshotLocal)
    (hdots : DotsIdentify (P.crdt.writes m.doc)) (hm : m.Mapped) (hm' : m'.Mapped)
    (hpaths : ∀ w, w ∈ P.crdt.writes m.doc ∨ w ∈ P.crdt.writes m'.doc → ∃ k, IsNodePath k w.path)
    (hw : ∀ w : DocWrite, IsNodePath id w.path →
      (w ∈ P.crdt.writes m.doc ↔ w ∈ P.crdt.writes m'.doc)) : SameNode m m' id := by
  have hfound : ∀ top, m.found [top, id] = m'.found [top, id] := by
    intro top
    refine hK _ _ _ hdots fun w hwp => ?_
    by_cases hmem : w ∈ P.crdt.writes m.doc ∨ w ∈ P.crdt.writes m'.doc
    · obtain ⟨k, hk⟩ := hpaths w hmem
      exact hw w (hk.of_comparable hwp)
    · tauto
  exact .of_found hm hm' (hfound "nodes") (hfound "services")

end Membership

namespace Cluster
variable {W : Setup} {c₀ c c' : Cluster P} {n : NodeId} {a : Act P}

/-- Every write is an entry of a node, a tree of maps; below the services of a node there
are its own writes and those that follow a dead marker of the node by the same writer. -/
structure EntryWrites (c : Cluster P) : Prop where
  paths : ∀ w ∈ commonLog c.replicas, ∃ r : NodeId, IsNodePath r.text w.path
  values : ∀ w ∈ commonLog c.replicas, ∀ v ∈ w.value, v.UniqueKeys
  services : ∀ w ∈ commonLog c.replicas, ∀ (r : NodeId) rest,
    w.path = "services" :: r.text :: rest → w.dot.replica = r.text ∨
      ∃ u ∈ commonLog c.replicas, IsMarkerOf r u ∧
        u.dot.replica = w.dot.replica ∧ u.dot.counter ≤ w.dot.counter

theorem splitPath_service_eq {id name : String} {k : String} {rest : Path} (hid : PlainName id)
    (h : splitPath (servicePath id name) = "services" :: k :: rest) : id = k := by
  rw [splitPath_ownService hid] at h
  simp only [List.cons.injEq, true_and] at h
  exact h.1

theorem isNodePath_of_removal {r : NodeId} {path : String} {v : Option Json}
    (h : IsRemoval r.text path v) : IsNodePath r.text (splitPath path) := by
  rcases h.2 with rfl | ⟨name, rfl⟩
  · exact .inl (splitPath_nodePath r.plain)
  · exact .inr ⟨_, splitPath_ownService r.plain name⟩

theorem NewWrite.isNodePath {w : DocWrite} (h : NewWrite c n a w) (hc : Causal c) :
    ∃ r : NodeId, IsNodePath r.text w.path := by
  cases h with
  | service hpath _ => exact ⟨n, .inr ⟨_, hpath.trans (splitPath_ownService n.plain _)⟩⟩
  | ownRemoval _ hrem hpath => exact ⟨n, hpath ▸ isNodePath_of_removal hrem⟩
  | removal hs hp hrem hpath =>
    obtain ⟨q, -, hid⟩ := (hc.sessions _ _ hs).remote _ (by rw [hp]; rfl)
    rw [hid] at hrem
    exact ⟨q.1, hpath ▸ isNodePath_of_removal hrem⟩

theorem NewWrite.uniqueKeys {w : DocWrite} (h : NewWrite c n a w) :
    ∀ v ∈ w.value, v.UniqueKeys := by
  intro v hv
  cases h with
  | service _ hval =>
    obtain ⟨port, metadata, rfl⟩ := hval v hv
    exact uniqueKeys_serviceRecord port metadata
  | ownRemoval _ hrem _ | removal _ _ hrem _ =>
    cases hrem.1.symm.trans hv
    exact uniqueKeys_deadMarker

/-- The cleanup of a session begins with a dead marker of the remote node. -/
theorem marker_of_cleanup {t : TaskId} {s : Session P} {peer : PeerId P} {nonce : Nonce}
    {epoch : Option ℕ} {now : ℕ} (hc : Causal c) (hs : c.session (n, t) = some s)
    (hp : s.phase = .live peer .cleanup)
    (h : c.act W n (.task t (.lock nonce epoch now)) = some c') :
    stamp n.text (c.vv n) (nodePath peer.nodeId) (some deadMarker) ∈ commonLog c'.replicas := by
  have ho : sessionStep (W.cfg n) W.cookie t (c.state n) s (.lock nonce epoch now) =
      some ⟨(c.state n).cleanup peer, s.goto (.ended none), none⟩ := by
    simp only [sessionStep, hp, stageStep]
  rw [act_of_sessionStep hs ho, Option.some.injEq] at h
  refine ⟨n, ?_⟩
  have hmem := (c.state n).membership.mem_removeNode peer.nodeId
  rw [hc.replica n] at hmem
  rw [← h, replicas_post, replicas_setDaemon, Function.update_self]
  exact hmem

namespace EntryWrites

theorem act (hi : EntryWrites c) (hc : Causal c) (h : c.act W n a = some c') :
    EntryWrites c' := by
  have hext := (hc.replicas_act h).2
  have hgrow : commonLog c.replicas ⊆ commonLog c'.replicas := fun w ⟨m, hw⟩ =>
    ⟨m, hext.writes hc.coherent (hc.replicas_act h).1 m hw⟩
  refine ⟨fun w hw => ?_, fun w hw => ?_, fun w hw r rest hpath => ?_⟩
  · rcases hc.mem_log_act h hw with hold | ⟨hnew, -⟩
    · exact hi.paths w hold
    · exact hnew.isNodePath hc
  · rcases hc.mem_log_act h hw with hold | ⟨hnew, -⟩
    · exact hi.values w hold
    · exact hnew.uniqueKeys
  · by_cases hold : w ∈ commonLog c.replicas
    · refine (hi.services w hold r rest hpath).imp_right ?_
      rintro ⟨u, hu, hrest⟩
      exact ⟨u, hgrow hu, hrest⟩
    · obtain ⟨hnew, hrep⟩ := (hc.mem_log_act h hw).resolve_left hold
      -- a write that is new to the log is past the counter of its writer
      have hlt : c.vv n n.text + 1 ≤ w.dot.counter := by
        by_contra hle
        refine hold (cut_subset _ (c.vv n) ?_)
        have hcut : cut (commonLog c'.replicas) (c.vv n) = cut (commonLog c.replicas) (c.vv n) :=
          hext.cut n _ le_rfl
        rw [← hcut]
        refine ⟨hw, ?_⟩
        rw [Covers, hrep]
        exact Nat.lt_succ_iff.mp (Nat.lt_of_not_le hle)
      cases hnew with
      | service hpath' _ =>
        rw [hpath'] at hpath
        exact .inl (hrep.trans (splitPath_service_eq n.plain hpath))
      | ownRemoval _ hrem hpath' =>
        rw [hpath'] at hpath
        rcases hrem.2 with rfl | ⟨name, rfl⟩
        · rw [splitPath_nodePath n.plain] at hpath
          simp at hpath
        · exact .inl (hrep.trans (splitPath_service_eq n.plain hpath))
      | removal hs hp hrem hpath' =>
        obtain ⟨q, -, hid⟩ := (hc.sessions _ _ hs).remote _ (by rw [hp]; rfl)
        have hmark := marker_of_cleanup hc hs hp h
        rw [hid] at hrem hmark
        rw [hpath'] at hpath
        rcases hrem.2 with rfl | ⟨name, rfl⟩
        · rw [splitPath_nodePath q.1.plain] at hpath
          simp at hpath
        · have hqr : q.1 = r := NodeId.text_injective (splitPath_service_eq q.1.plain hpath)
          subst hqr
          refine .inr ⟨_, hmark, ⟨splitPath_nodePath q.1.plain, rfl⟩, hrep.symm, hlt⟩

theorem init {S : Startup P} (h : StartedWith W S c) : EntryWrites c := by
  refine ⟨fun w hw => ?_, fun w hw v hv => ?_, fun w hw r rest hpath => ?_⟩
  · obtain ⟨r, rfl⟩ := h.mem_log.mp hw
    exact ⟨r, .inl rfl⟩
  · obtain ⟨r, rfl⟩ := h.mem_log.mp hw
    cases hv
    exact uniqueKeys_nodeRecord _ _ _
  · obtain ⟨r', rfl⟩ := h.mem_log.mp hw
    simp [Startup.write, Replica.next] at hpath

theorem leads {S : Startup P} (h₀ : StartedWith W S c₀) (hl : (system P W).Leads Honest c₀ c) :
    EntryWrites c := by
  refine Causal.leads_invariant (fun _ _ hx => hx) (fun c₀ c₁ hd hi => ?_)
    (fun _ _ _ _ _ _ _ hc hi _ h => hi.act hc h) h₀.1 (init h₀) hl
  have hrep := replicas_congr hd
  exact ⟨hrep ▸ hi.paths, hrep ▸ hi.values, hrep ▸ hi.services⟩

end EntryWrites

/-- No dead marker of `a` has reached the replica of `r`. -/
def NoMarker (c : Cluster P) (r a : NodeId) : Prop :=
  ∀ w ∈ P.crdt.writes (c.daemon r).doc, ¬ IsMarkerOf a w

theorem writes_eq_cut (hc : Causal c) (r : NodeId) :
    P.crdt.writes (c.daemon r).doc = cut (commonLog c.replicas) (c.vv r) :=
  hc.coherent.cuts r

/-- An unmarked replica holds for a node only the node's own writes. -/
theorem own_of_noMarker {S : Startup P} (hc : Causal c) (hn : NodeWrites S c)
    (he : EntryWrites c) {r a : NodeId} (hfree : c.NoMarker r a) {w : DocWrite}
    (hw : w ∈ P.crdt.writes (c.daemon r).doc) (hpath : IsNodePath a.text w.path) :
    w.dot.replica = a.text := by
  have hlog : w ∈ commonLog c.replicas := ⟨r, hw⟩
  rcases hpath with hpath | ⟨rest, hpath⟩
  · obtain ⟨a', ha', rfl | hval⟩ := hn.nodes w hlog a.text hpath
    · exact ha'
    · exact absurd ⟨hpath, hval⟩ (hfree w hw)
  · rcases he.services w hlog a rest hpath with hown | ⟨u, hu, hmark, hrep, hle⟩
    · exact hown
    · refine absurd hmark (hfree u ?_)
      rw [writes_eq_cut hc] at hw ⊢
      refine ⟨hu, ?_⟩
      rw [Covers, hrep]
      exact hle.trans hw.2

/-- A state in which `a` has written last and had the counter that `r` knows of it shows
of `a` what `r` shows. -/
theorem sameNode_of_fresh {S : Startup P} {c₁ : Cluster P} (hK : P.crdt.SnapshotLocal)
    (hn : NodeWrites S c) (he : EntryWrites c) (h₁ : (system P W).Reach Honest c₁)
    (hl : (system P W).Leads Honest c₁ c) {r a : NodeId} (hfree : c.NoMarker r a)
    (hfresh : Fresh a.text (c₁.replicas a)) (hcount : c₁.vv a a.text = c.vv r a.text) :
    (c.state r).membership.SameNode (c₁.state a).membership a.text := by
  have hr := h₁.leads hl
  have hc := Causal.reach hr
  have hext := Causal.extends_leads h₁ hl
  have hcut₁ : P.crdt.writes (c₁.daemon a).doc = cut (commonLog c.replicas) (c₁.vv a) := by
    rw [writes_eq_cut (Causal.reach h₁)]
    exact (hext.cut a _ le_rfl).symm
  have hlog : (c₁.replicas a).writes ⊆ commonLog c.replicas := by
    change P.crdt.writes (c₁.daemon a).doc ⊆ _
    rw [hcut₁]
    exact cut_subset _ _
  have hle : c₁.vv a ≤ c.vv r :=
    hfresh.vv_le hlog ((AllKnown.reach hr).docs r).closed hcount
  have hsub : P.crdt.writes (c₁.daemon a).doc ⊆ P.crdt.writes (c.daemon r).doc := by
    rw [hcut₁, writes_eq_cut hc]
    exact cut_mono _ hle
  refine .of_writes hK (hc.coherent.identify.subset fun w hw => ⟨r, hw⟩)
    (fun w hw => he.values w ⟨r, hw⟩) (fun w hw => he.values w (hlog hw)) (fun w hw => ?_)
    fun w hpath => ⟨fun hw => ?_, fun hw => hsub hw⟩
  · obtain ⟨k, hk⟩ := he.paths w (hw.elim (fun hw => ⟨r, hw⟩) fun hw => hlog hw)
    exact ⟨_, hk⟩
  · have hown := own_of_noMarker hc hn he hfree hw hpath
    rw [writes_eq_cut hc] at hw
    rw [hcut₁]
    refine ⟨hw.1, ?_⟩
    have hcov := hw.2
    rw [Covers, hown] at hcov ⊢
    rw [hcount]
    exact hcov

/-- Causal consistency: a document that holds a write holds everything that its writer
held when making it. -/
theorem causally_closed (h : (system P W).Reach Honest c) (n m : NodeId) {w u : DocWrite}
    (hw : w ∈ P.crdt.writes (c.daemon n).doc) (hu : u ∈ P.crdt.writes (c.daemon m).doc)
    (hpast : Covers w.past u.dot) : u ∈ P.crdt.writes (c.daemon n).doc := by
  have hc := Causal.reach h
  rw [writes_eq_cut hc] at hw
  exact hc.mem_writes_of_covers hu
    (hpast.mono (((AllKnown.reach h).docs n).closed w hw))

/-- Consistent, monotonic reads: two readings of a node at a replica that no dead marker of
the node has reached show the node as it showed itself at two earlier moments, the later
reading a later moment. -/
theorem reads_of_the_past (hK : P.crdt.SnapshotLocal) (h₀ : (system P W).init c₀)
    (hl : (system P W).Leads Honest c₀ c) (hl' : (system P W).Leads Honest c c') {r a : NodeId}
    (hknown : 0 < c.vv r a.text) (hfree : c'.NoMarker r a) :
    ∃ c₁ c₁', (system P W).Leads Honest c₀ c₁ ∧ (system P W).Leads Honest c₁ c ∧
      (system P W).Leads Honest c₁ c₁' ∧ (system P W).Leads Honest c₁' c' ∧
      (c.state r).membership.SameNode (c₁.state a).membership a.text ∧
      (c'.state r).membership.SameNode (c₁'.state a).membership a.text := by
  obtain ⟨S, hS⟩ := exists_startedWith h₀
  have hr₀ : (system P W).Reach Honest c₀ := ⟨c₀, h₀, .refl⟩
  have hr := hr₀.leads hl
  have hext := Causal.extends_leads hr hl'
  have hfree₀ : c.NoMarker r a := fun w hw =>
    hfree w (hext.writes (Causal.reach hr).coherent (Causal.reach (hr.leads hl')).coherent r hw)
  -- the first reading
  have hfirst : ∃ c₁, (system P W).Leads Honest c₀ c₁ ∧ (system P W).Leads Honest c₁ c ∧
      Fresh a.text (c₁.replicas a) ∧ c₁.vv a a.text = c.vv r a.text := by
    rcases (((AllKnown.init h₀).leads hr₀ hl).docs r).moments a with hle | hmoment
    · obtain ⟨p, x, hrep⟩ := replicas_init h₀ a
      have hone : c₀.vv a a.text = 1 := by
        have hvv := congrArg (fun ρ => Replica.vv ρ a.text) hrep
        simp only [Replica.append, Function.update_self] at hvv
        exact hvv
      refine ⟨c₀, .refl, hl, hrep ▸ .append _ _ _ _, ?_⟩
      rw [hone] at hle ⊢
      omega
    · exact hmoment
  obtain ⟨c₁, h₁, h₁c, hfresh, hcount⟩ := hfirst
  have hr₁ := hr₀.leads h₁
  -- the second one, counted from the moment of the first
  have hsecond : ∃ c₁', (system P W).Leads Honest c₁ c₁' ∧ (system P W).Leads Honest c₁' c' ∧
      Fresh a.text (c₁'.replicas a) ∧ c₁'.vv a a.text = c'.vv r a.text := by
    rcases (((AllKnown.reach hr₁).leads hr₁ (h₁c.trans hl')).docs r).moments a with hle | hmoment
    · refine ⟨c₁, .refl, h₁c.trans hl', hfresh, ?_⟩
      have hmono := hext.vv r a.text
      exact le_antisymm (hcount.le.trans hmono) hle
    · exact hmoment
  obtain ⟨c₁', h₁', h₁c', hfresh', hcount'⟩ := hsecond
  refine ⟨c₁, c₁', h₁, h₁c, h₁', h₁c', ?_, ?_⟩
  · exact sameNode_of_fresh hK (.leads hS hl) (.leads hS hl) hr₁ h₁c hfree₀ hfresh hcount
  · exact sameNode_of_fresh hK (.leads hS (hl.trans hl')) (.leads hS (hl.trans hl'))
      (hr₁.leads h₁') h₁c' hfree hfresh' hcount'

section
open Reference

def marksNode (r : String) (w : DocWrite) : Bool :=
  match w.value with
  | some (.object [("status", .string "dead")]) => w.path = ["nodes", r]
  | _ => false

theorem marksNode_iff {r : NodeId} {w : DocWrite} :
    marksNode r.text w = true ↔ IsMarkerOf r w := by
  rw [marksNode]
  split
  · rename_i hv
    simp [IsMarkerOf, deadMarker, hv]
  · rename_i hv
    simp only [Bool.false_eq_true, false_iff]
    exact fun h => hv h.2

/-- Node `a` registers a service and joins `b`, which lists the service from then on. -/
theorem reads_of_the_past_join : ∃ c c₁ : Cluster platform, clusters.Leads Honest cluster c₁ ∧
    clusters.Leads Honest c₁ c ∧
    ((c.state nodeB).membership.lookupService "web").map Prod.fst = ["a"] ∧
    (c.state nodeB).membership.SameNode (c₁.state nodeA).membership "a" := by
  have heval : ((clusters.guard fun _ x => x.isHonest).run cluster
      (.own nodeA (.request (.register "web" 80 ∅)) :: joins)).any (fun c =>
        ((c.state nodeB).membership.lookupService "web").map Prod.fst == ["a"] &&
          decide (0 < c.vv nodeB "a") && !(c.daemon nodeB).doc.log.any (marksNode "a")) = true := by
    decide +kernel
  obtain ⟨c, hl, hp⟩ := System.Leads.of_eval (C := Honest) heval fun _ _ hx => hx
  simp only [Bool.and_eq_true, beq_iff_eq, decide_eq_true_eq, Bool.not_eq_true',
    List.any_eq_false] at hp
  obtain ⟨⟨hlists, hknown⟩, hfree⟩ := hp
  obtain ⟨c₁, -, h₁, h₁c, -, -, hsame, -⟩ := reads_of_the_past hierarchical.snapshotLocal
    (cluster_init cluster rfl) hl .refl (r := nodeB) (a := nodeA) hknown
    fun w hw hmark => hfree w hw (marksNode_iff.mpr hmark)
  exact ⟨c, c₁, h₁, h₁c, hlists, hsame⟩

/-- Node `b` has merged what `a` wrote and then joins `c`: with the service that `b` has
registered in between, `c` holds what `a` wrote. -/
theorem causally_closed_chain : ∃ (c : Cluster platform) (w u : DocWrite),
    clusters.Reach Honest c ∧ w.dot.replica = "b" ∧ u.dot.replica = "a" ∧
      w ∈ platform.crdt.writes (c.daemon nodeC).doc ∧
      u ∈ platform.crdt.writes (c.daemon nodeC).doc := by
  have heval : ((some cluster).bind fun c => (clusters.guard fun _ x => x.isHonest).run c
      (joins ++ [.own nodeB (.request (.register "db" 5432 ∅))] ++ dials nodeB "10.0.0.3:4369" ++
        handshake (nodeB, 1) (nodeC, 0) ++ exchange (nodeB, 1) (nodeC, 0))).any (fun c =>
          (c.daemon nodeC).doc.log.any fun w => w.dot.replica == "b" &&
            (c.daemon nodeA).doc.log.any fun u => u.dot.replica == "a" &&
              decide (Covers w.past u.dot)) = true := by
    decide +kernel
  obtain ⟨c, hr, hp⟩ := System.Reach.of_eval (C := Honest) heval (fun _ _ hx => hx) cluster_init
  simp only [List.any_eq_true, Bool.and_eq_true, beq_iff_eq, decide_eq_true_eq] at hp
  obtain ⟨w, hw, hb, u, hu, ha, hpast⟩ := hp
  exact ⟨c, w, u, hr, hb, ha, hw, causally_closed hr nodeC nodeA hw hu hpast⟩

end

end Cluster
end Pmd
