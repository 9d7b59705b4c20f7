import Pmd.Cluster.Provenance

/-!
# Live nodes and the membership document

A node writes its record once, at startup; every session that ends overwrites the
remote node's record with a dead marker, whether or not that node is alive, and
nobody writes the record again. If sessions only ever end with nodes that have
begun to shut down, then a daemon in its main loop lists itself, and two such
daemons that have merged each other's document list each other.
-/
namespace Pmd
open Foundation

variable {P : Platform}

namespace Cluster
variable {W : Setup} {c c' : Cluster P} {n : NodeId} {a : Act P}

/-- The record a daemon writes when it starts. -/
def IsStartRecord (r : NodeId) (w : DocWrite) : Prop :=
  ∃ (addr : P.Addr) (metadata : StrMap String) (now : ℕ),
    w = Replica.next r.text ⊥ ["nodes", r.text] (some (nodeRecord addr metadata now))

/-- A session cleanup is for a node that has left its main loop. -/
def EndsOnlyStopped (c : Cluster P) (x : Action P) : Prop :=
  Honest c x ∧ ∀ n peer, c.cleansUp x = some (n, peer) →
    ∀ r : NodeId, r.text = peer.nodeId → (c.daemon r).main.inLoop = false

/-- The records in the common log: all paths are document paths, every daemon's
start record is there, and a daemon in its main loop has no other. -/
structure Records (c : Cluster P) : Prop where
  paths : ∀ w ∈ commonLog c.replicas, IsDocPath w.path
  started : ∀ r, ∃ w ∈ commonLog c.replicas, IsStartRecord (P := P) r w
  alone : ∀ r, (c.daemon r).main.inLoop = true → ∀ w ∈ commonLog c.replicas,
    w.path = ["nodes", r.text] → IsStartRecord (P := P) r w

namespace Records

theorem act (hi : Records c) (hc : Causal c) (h : c.act W n a = some c')
    (hend : ∀ t s peer nonce epoch now, a = .task t (.lock nonce epoch now) →
      c.session (n, t) = some s → s.phase = .live peer .cleanup →
      ∀ r : NodeId, r.text = peer.nodeId → (c.daemon r).main.inLoop = false) : Records c' := by
  have hx := (hc.replicas_act h).2
  have hcoh := (hc.replicas_act h).1
  have hgrow : ∀ w ∈ commonLog c.replicas, w ∈ commonLog c'.replicas := by
    rintro w ⟨m, hm⟩
    exact ⟨m, hx.writes hc.coherent hcoh m hm⟩
  refine ⟨fun w hw => ?_, fun r => ?_, fun r hr w hw hpath => ?_⟩
  · rcases hc.mem_log_act h hw with hold | ⟨hnew, -⟩
    · exact hi.paths w hold
    · exact hnew.isDocPath hc
  · obtain ⟨w, hw, hrec⟩ := hi.started r
    exact ⟨w, hgrow w hw, hrec⟩
  · have hr₀ := inLoop_act h r hr
    rcases hc.mem_log_act h hw with hold | ⟨hnew, -⟩
    · exact hi.alone r hr₀ w hold hpath
    · exfalso
      obtain ⟨-, r', hid', hcause⟩ := hnew.of_node hc hpath
      have hr' : r' = r := NodeId.text_injective hid'
      subst hr'
      rcases hcause with ⟨-, hrn, hmain⟩ | ⟨t, s, peer, _, _, _, ha, hs, hp, hid⟩
      · rw [hrn, hmain] at hr₀
        cases hr₀
      · have hdead := hend t s peer _ _ _ ha hs hp r' hid.symm
        rw [hr₀] at hdead
        cases hdead

theorem init (h : (system P W).init c) : Records c := by
  obtain ⟨S, hS⟩ := exists_startedWith h
  have hrec : ∀ r, IsStartRecord (P := P) r (S.write r) := fun r => ⟨_, _, _, rfl⟩
  refine ⟨(NodeWrites.init hS).paths, fun r => ⟨_, hS.mem_log.mpr ⟨r, rfl⟩, hrec r⟩, ?_⟩
  intro r _ w hw hpath
  obtain ⟨r', rfl⟩ := hS.mem_log.mp hw
  simp only [Startup.write, Replica.next, List.cons.injEq, and_true, true_and] at hpath
  have hr : r' = r := NodeId.text_injective hpath
  subst hr
  exact hrec r'

theorem reach (h : (system P W).Reach EndsOnlyStopped c) : Records c := by
  refine Causal.invariant (fun _ _ hx => hx.1) (fun _ => init) (fun c₀ c₁ hd hi => ?_)
    (fun c x c₀ c₁ n a hx hc hi hown h => hi.act hc h ?_) h
  · have hrep := replicas_congr hd
    exact ⟨hrep ▸ hi.paths, hrep ▸ hi.started, hd ▸ hrep ▸ hi.alone⟩
  · intro t s peer nonce epoch now ha hs hp r hr
    rcases hown with ⟨rfl, rfl⟩ | hown
    · refine hx.2 n peer ?_ r hr
      simp [cleansUp, lockedPhase, ha, hs, hp]
    · rw [ha] at hown
      cases hown

/-- A daemon whose document has reached the start record of a node in its main
loop lists that node. -/
theorem lists (hi : Records c) (hc : Causal c) {r : NodeId}
    (hr : (c.daemon r).main.inLoop = true) (hv : 0 < c.vv n r.text) :
    (c.state n).membership.Lists r.text := by
  obtain ⟨w, hw, addr, metadata, now, rfl⟩ := hi.started r
  have hcut : P.crdt.writes (c.daemon n).doc = cut (commonLog c.replicas) (c.vv n) :=
    hc.coherent.cuts n
  have hsub : ∀ u ∈ P.crdt.writes (c.daemon n).doc, u ∈ commonLog c.replicas :=
    fun u hu => ⟨n, hu⟩
  have hmem : Replica.next r.text ⊥ ["nodes", r.text] (some (nodeRecord addr metadata now)) ∈
      P.crdt.writes (c.daemon n).doc := by
    rw [hcut]
    exact ⟨hw, hv⟩
  have huniq : ∀ u ∈ P.crdt.writes (c.daemon n).doc, u.path = ["nodes", r.text] →
      u = Replica.next r.text ⊥ ["nodes", r.text] (some (nodeRecord addr metadata now)) := by
    intro u hu hpath
    obtain ⟨addr', metadata', now', rfl⟩ := hi.alone r hr u (hsub u hu) hpath
    exact hc.coherent.identify _ (hsub _ hu) _ hw rfl
  have hsurv : Survives (P.crdt.writes (c.daemon n).doc)
      (Replica.next r.text ⊥ ["nodes", r.text] (some (nodeRecord addr metadata now))) := by
    refine ⟨hmem, fun u hu hsup => ?_⟩
    rw [huniq u hu ((hi.paths u (hsub u hu)).eq_of_above hsup.1)] at hsup
    exact absurd hsup.2.1 (by simp [Covers, Replica.next])
  have hshown : P.crdt.shown (c.daemon n).doc ["nodes", r.text] =
      some (nodeRecord addr metadata now) :=
    P.crdt.shown_of_unique hsurv rfl fun u hu hpath => huniq u hu.1 hpath
  refine Membership.lists_of_shown (fun p hp => ?_) hshown
  obtain ⟨u, hu, rfl, -⟩ := P.crdt.exists_write_of_shown hp
  exact hi.paths u (hsub u hu.1)

end Records

/-- Live daemons list themselves, and each other once they have merged each
other's full delta on a registered session. -/
structure LiveListed (c : Cluster P) : Prop where
  itself : ∀ n, (c.daemon n).main.inLoop = true → (c.state n).membership.Lists n.text
  eachOther : ∀ p q s s' peer peer', c.link p = some (.daemon q) → c.session p = some s →
    c.session q = some s' → s.phase.registered = some peer → s'.phase.registered = some peer' →
    0 < s.merged → 0 < s'.merged → (c.daemon p.1).main.inLoop = true →
    (c.daemon q.1).main.inLoop = true →
    (c.state p.1).membership.Lists q.1.text ∧ (c.state q.1).membership.Lists p.1.text

/-- If every session that ends is with a node that has begun its shutdown, live
nodes stay members. -/
theorem liveListed_of_endsOnlyStopped (h : (system P W).Reach EndsOnlyStopped c) :
    LiveListed c := by
  have hrec := Records.reach h
  have hhonest : (system P W).Reach Honest c := h.mono fun _ _ hx => hx.1
  have hc := Causal.reach hhonest
  have hlinks := Links.reach h
  have hmerged : ∀ p q s, c.link p = some (.daemon q) → c.session p = some s → 0 < s.merged →
      (c.daemon q.1).main.inLoop = true → (c.state p.1).membership.Lists q.1.text := by
    intro p q s hq hs hm hr
    obtain ⟨q', hq', hv⟩ := (hc.sessions p s hs).merged hm
    rw [hq, Option.some.injEq, Endpoint.daemon.injEq] at hq'
    subst hq'
    exact hrec.lists hc hr hv
  refine ⟨fun n hn => hrec.lists hc hn (hc.started n), ?_⟩
  intro p q s s' peer peer' hq hs hs' _ _ hm hm' hp hq₀
  exact ⟨hmerged p q s hq hs hm hq₀, hmerged q p s' (hlinks.symm p q hq) hs' hm' hp⟩

section
open Reference

def lists (n : NodeId) (id : String) (c : Cluster platform) : Bool :=
  (c.state n).membership.members.any fun info => info.nodeId = id

theorem lists_iff (n : NodeId) (id : String) (c : Cluster platform) :
    lists n id c = true ↔ (c.state n).membership.Lists id := by
  simp [lists, Membership.Lists]

/-- The link between nodes `a` and `b` breaks once, and `a` connects again. -/
def reconnect : List (Action platform) :=
  joins ++
    [.own nodeA (.task 0 (.read .error)), locks (nodeA, 0), .closed (nodeB, 0), locks (nodeB, 0)] ++
    dials nodeA "10.0.0.2:4369" ++ handshake (nodeA, 1) (nodeB, 1) ++ exchange (nodeA, 1) (nodeB, 1)

/-- After the reconnection node `a` is in its main loop and lists neither `b` nor
itself. -/
theorem reconnect_unlisted :
    ¬ ∀ c : Cluster platform, clusters.Reach Honest c → LiveListed c := by
  have heval : ((some cluster).bind fun c =>
      (clusters.guard fun _ x => x.isHonest).run c reconnect).any
        (fun c => hasMerged (nodeA, 1) c && hasMerged (nodeB, 1) c && !lists nodeA "b" c &&
          ((c.daemon nodeA).main.inLoop && !lists nodeA "a" c)) = true := by
    decide +kernel
  obtain ⟨c, hr, hp⟩ := System.Reach.of_eval (C := Honest) heval (fun _ _ hx => hx) cluster_init
  intro hall
  simp only [Bool.and_eq_true, Bool.not_eq_true'] at hp
  have hlisted := (lists_iff nodeA "a" c).mpr ((hall c hr).itself nodeA hp.2.1)
  rw [hp.2.2] at hlisted
  cases hlisted

/-- Node `c` connects to `a` too, and `b` is interrupted: the session of `a` with `b` ends
and is cleaned up. -/
def stopsAndEnds : List (Action platform) :=
  joins ++ dials nodeC "10.0.0.1:4369" ++ handshake (nodeC, 0) (nodeA, 1) ++
    exchange (nodeC, 0) (nodeA, 1) ++
    [.own nodeB .interrupt, .own nodeA (.task 0 (.read .error)), locks (nodeA, 0)]

/-- Node `a` has tombstoned `b`; it and `c` list each other. -/
theorem liveListed_stopsAndEnds : ∃ c : Cluster platform, clusters.Reach EndsOnlyStopped c ∧
    (∃ w ∈ platform.crdt.writes (c.daemon nodeA).doc, IsMarker nodeA nodeB w) ∧
    hasMerged (nodeC, 0) c = true ∧ hasMerged (nodeA, 1) c = true ∧ LiveListed c := by
  have heval : ((some cluster).bind fun c =>
      (clusters.guard fun c x => x.isHonest && (c.cleansUp x).all fun r =>
        r.2.nodeId = "b" && !(c.daemon nodeB).main.inLoop).run c stopsAndEnds).any
        (fun c => (c.daemon nodeA).doc.log.any (marks "a" "b") &&
          (hasMerged (nodeC, 0) c && hasMerged (nodeA, 1) c)) = true := by
    decide +kernel
  have hguard : ∀ (c : Cluster platform) (x : Action platform),
      (x.isHonest && (c.cleansUp x).all fun r => r.2.nodeId = "b" &&
        !(c.daemon nodeB).main.inLoop) = true → EndsOnlyStopped c x := by
    intro c x hx
    rw [Bool.and_eq_true] at hx
    refine ⟨hx.1, fun n peer hn r hr => ?_⟩
    rw [hn] at hx
    simp only [Option.all_some, Bool.and_eq_true, decide_eq_true_eq, Bool.not_eq_true'] at hx
    have hb : r = nodeB := NodeId.text_injective (hr.trans hx.2.1)
    rw [hb, hx.2.2]
  obtain ⟨c, hr, hp⟩ := System.Reach.of_eval (C := EndsOnlyStopped) heval hguard cluster_init
  rw [Bool.and_eq_true, Bool.and_eq_true] at hp
  obtain ⟨w, hw, hmark⟩ := List.any_eq_true.mp hp.1
  exact ⟨c, hr, ⟨w, hw, marks_iff.mp hmark⟩, hp.2.1, hp.2.2, liveListed_of_endsOnlyStopped hr⟩

end

end Cluster
end Pmd
