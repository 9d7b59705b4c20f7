import Pmd.Cluster.LiveMembers

/-!
# Graceful shutdown

Cancelling the token makes every session leave its loop and run its cleanup, which
tombstones the remote node and signals the sessions still running. Such a session
may take the gossip branch before the shutdown branch and send the marker. The
syncs written during a shutdown are free of markers for nodes that were connected
at the cancellation, provided none of these had been tombstoned before and no sync
is built once a cleanup has run. A session whose handle has been dropped builds none.
-/
namespace Pmd
open Foundation

variable {P : Platform}

/-- The message is a sync that carries a marker of `n` for `r`. -/
def Message.Carries (n r : NodeId) : Message P → Prop
  | .membershipSync b _ =>
    ∃ δ, P.crdt.decode b = some δ ∧ ∃ w ∈ P.crdt.deltaWrites δ, IsMarker n r w
  | _ => False

namespace Cluster
variable {W : Setup} {c c' c₀ c₁ c₂ : Cluster P} {n : NodeId} {a : Act P}

/-- The frame a step writes, and the daemon that writes it. -/
def writesFrame (c : Cluster P) : Action P → Option (NodeId × Message P)
  | .own n (.task t (.wrote true)) =>
    ((c.session (n, t)).bind fun s => s.phase.outgoing).map fun m => (n, m)
  | _ => none

/-- A session of `n` with `r` is running. -/
def Running (c : Cluster P) (n r : NodeId) : Prop :=
  ∃ t s peer stage, c.session (n, t) = some s ∧ s.phase = .live peer stage ∧ peer.nodeId = r.text

/-- No sync that `n` writes next carries a marker of `n` for another node of `R`. -/
def WritesClean (n : NodeId) (R : NodeId → Prop) (c : Cluster P) : Prop :=
  ∀ x m r, c.writesFrame x = some (n, m) → R r → r ≠ n → ¬ m.Carries n r

/-- Node `n`, shutting down, removes only itself: neither in the shutdown sequence
before `c₀`, where the token is cancelled, nor in the states `later` does it write a
marker for a node it was still connected to. -/
def RemovesOnlyItself (W : Setup) (n : NodeId) (c₀ : Cluster P) (later : Cluster P → Prop) : Prop :=
  (∀ c, (system P W).Reach Honest c → (system P W).Leads Honest c c₀ →
    (c.daemon n).main.inLoop = false → WritesClean n (c₀.Running n) c) ∧
  ∀ c, later c → WritesClean n (c₀.Running n) c

/-- The step does not run the cleanup of a session of `n` with another node of `R`. -/
def NoCleanup (n : NodeId) (R : NodeId → Prop) (c : Cluster P) (x : Action P) : Prop :=
  Honest c x ∧ ∀ peer r, c.cleansUp x = some (n, peer) → R r → r ≠ n → peer.nodeId ≠ r.text

/-- The step does not build a sync at `n`. -/
def NoBuild (n : NodeId) (c : Cluster P) (x : Action P) : Prop :=
  Honest c x ∧ c.buildsSync x ≠ some n

/-- After the cancellation in `c₀`, which led to `c₁`, no sync is built at `n` once
it has run the cleanup of a session with a node connected at the cancellation. -/
def BuildsNoSyncAfterCleanup (W : Setup) (n : NodeId) (c₀ c₁ c : Cluster P) : Prop :=
  ∃ c₂, (system P W).Leads (NoCleanup n (c₀.Running n)) c₁ c₂ ∧ (system P W).Leads (NoBuild n) c₂ c

/-- Node `n` has written no marker for another node of `R`. -/
def Unmarked (n : NodeId) (R : NodeId → Prop) (c : Cluster P) : Prop :=
  ∀ r, R r → r ≠ n → ∀ w ∈ commonLog c.replicas, ¬ IsMarker n r w

/-- What the sessions of `n` have ready to write is clean. -/
def ReadyClean (n : NodeId) (R : NodeId → Prop) (c : Cluster P) : Prop :=
  ∀ t s m r, c.session (n, t) = some s → s.phase.outgoing = some m → R r → r ≠ n → ¬ m.Carries n r

theorem ReadyClean.writesClean {R : NodeId → Prop} (h : ReadyClean n R c) : WritesClean n R c := by
  intro x m r hx hr hne
  rw [writesFrame.eq_def] at hx
  split at hx
  · obtain ⟨m', hm, heq⟩ := Option.map_eq_some_iff.mp hx
    cases heq
    obtain ⟨s, hs, hout⟩ := Option.bind_eq_some_iff.mp hm
    exact h _ s m r hs hout hr hne
  · cases hx

/-- A sync carries only writes of the document it was built from, and documents
only grow: an unmarked log means clean syncs. -/
theorem Unmarked.readyClean {R : NodeId → Prop} (h : Unmarked n R c) (hc : Causal c) :
    ReadyClean n R c := by
  intro t s m r hs hout hr hne hcarries
  obtain ⟨q, -, hfits⟩ := (hc.sessions (n, t) s hs).outgoing m hout
  cases m with
  | membershipSync b v =>
    obtain ⟨δ, hb, w, hw, hmark⟩ := hcarries
    obtain ⟨δ', u, hb', -, hw', -⟩ := hfits
    rw [hb, Option.some.injEq] at hb'
    subst hb'
    rw [hw'] at hw
    exact h r hr hne w hw.1.1 hmark
  | _ => exact hcarries

/-- Earlier logs are part of later ones. -/
theorem Unmarked.of_leads {R : NodeId → Prop} (h : Unmarked n R c')
    (hr : (system P W).Reach Honest c) (hl : (system P W).Leads Honest c c') : Unmarked n R c := by
  rintro r hR hne w ⟨m, hm⟩
  have hx := Causal.extends_leads hr hl
  exact h r hR hne w ⟨m, hx.writes (Causal.reach hr).coherent
    (Causal.reach (hr.leads hl)).coherent m hm⟩

theorem Unmarked.leads {R : NodeId → Prop} (h : Unmarked n R c) (hr : (system P W).Reach Honest c)
    (hl : (system P W).Leads (NoCleanup n R) c c') : Unmarked n R c' := by
  refine (hl.preserves (I := fun c => Unmarked n R c ∧ (system P W).Reach Honest c)
    (fun c x c' hi hx hs => ⟨?_, hi.2.leads (.single ⟨x, hx.1, hs⟩)⟩) ⟨h, hr⟩).1
  intro r hR hne w hw hmark
  refine hi.1 r hR hne w ?_ hmark
  exact mem_log_of_isMarker hi.2 hx.1 hs hne (fun peer hp => hx.2 peer r hp hR hne) hw hmark

theorem ReadyClean.act {R : NodeId → Prop} {m : NodeId} (h : ReadyClean n R c)
    (hact : c.act W m a = some c')
    (hbuild : ∀ t s peer nonce epoch now, m = n → a = .task t (.lock nonce epoch now) →
      c.session (n, t) = some s → s.phase ≠ .live peer .buildDelta ∧
        ¬ (s.phase = .live peer .gossip ∧ peer.nodeId ∈ (c.state n).peers)) :
    ReadyClean n R c' := by
  intro t s msg r hs hout hR hne hcarries
  rcases session_act hact hs with ⟨e, s₀, o, rfl, rfl, hs₀, hm, rfl⟩ | hold | ⟨-, hnew⟩
  · cases msg with
    | membershipSync b v =>
      obtain ⟨peer, nonce, epoch, now, rfl, hp⟩ := hm.outgoing_new hout
      obtain ⟨h₁, h₂⟩ := hbuild t s₀ peer nonce epoch now rfl rfl hs₀
      exact hp.elim h₁ h₂
    | _ => exact hcarries
  · exact h t s msg r hold hout hR hne hcarries
  · rcases hnew with ⟨addr, rfl⟩ | ⟨-, -, rfl⟩ <;> cases hout

theorem ReadyClean.leads {R : NodeId → Prop} (h : ReadyClean n R c)
    (hr : (system P W).Reach Honest c) (hl : (system P W).Leads (NoBuild n) c c') :
    ReadyClean n R c' := by
  refine (hl.preserves (I := fun c => ReadyClean n R c ∧ (system P W).Reach Honest c)
    (fun c x c' hi hx hs => ⟨?_, hi.2.leads (.single ⟨x, hx.1, hs⟩)⟩) ⟨h, hr⟩).1
  refine (Causal.reach hi.2).step_induct (Links.reach hi.2) hx.1 hs (I := ReadyClean n R) ?_ ?_ hi.1
  · intro c₀ c₁ hd h t s m r hs
    refine h t s m r ?_
    rw [session, hd]
    exact hs
  · intro c₀ c₁ m a hc h hown hact
    refine h.act hact fun t s peer nonce epoch now hm ha hs => ?_
    rcases hown with ⟨rfl, rfl⟩ | hown
    · subst hm
      refine ⟨fun hp => hx.2 ?_, fun hp => hx.2 ?_⟩
      · simp [buildsSync, lockedPhase, ha, hs, hp]
      · simp [buildsSync, lockedPhase, ha, hs, hp.1, hp.2]
    · rw [ha] at hown
      cases hown

/-- Cancelling the token does not touch the documents. -/
theorem replicas_cancel (h : (system P W).step c₀ (.own n .cancel) = some c₁) :
    c₁.replicas = c₀.replicas := by
  have h : c₀.act W n .cancel = some c₁ := h
  obtain ⟨d, sent, hd, rfl⟩ := act_eq_some h
  have hdoc : d.doc = (c₀.daemon n).doc := by
    cases Daemon.step_doc hd with
    | same hd => exact hd
  have heq : P.crdt.asReplica d.doc = c₀.replicas n := by
    rw [hdoc]
    rfl
  rw [replicas_post, replicas_setDaemon, heq, Function.update_eq_self]

/-- A shutdown removes only the leaving node if, when the token is cancelled, no
node still connected has been tombstoned before, and if afterwards no sync is built
once the cleanup for such a node has run. -/
theorem removesOnlyItself_of_noBuild (hr : (system P W).Reach Honest c₀)
    (hcancel : (system P W).step c₀ (.own n .cancel) = some c₁)
    (hunmarked : ∀ r, c₀.Running n r → r ≠ n →
      ∀ w ∈ P.crdt.writes (c₀.daemon n).doc, ¬ IsMarker n r w) :
    RemovesOnlyItself W n c₀ (BuildsNoSyncAfterCleanup W n c₀ c₁) := by
  have h₀ : Unmarked n (c₀.Running n) c₀ := by
    intro r hR hne w hw hmark
    exact hunmarked r hR hne w ((Causal.reach hr).coherent.mem_own hw hmark.1) hmark
  have h₁ : Unmarked n (c₀.Running n) c₁ := by
    rw [Unmarked, replicas_cancel hcancel]
    exact h₀
  have hr₁ : (system P W).Reach Honest c₁ := hr.leads (.single ⟨.own _ _, rfl, hcancel⟩)
  refine ⟨fun c hc hl _ => ?_, ?_⟩
  · exact ((h₀.of_leads hc hl).readyClean (Causal.reach hc)).writesClean
  · rintro c ⟨c₂, hl₂, hl⟩
    have hr₂ : (system P W).Reach Honest c₂ := hr₁.leads (hl₂.mono fun _ _ hx => hx.1)
    have hready := (h₁.leads hr₁ hl₂).readyClean (Causal.reach hr₂)
    exact (hready.leads hr₂ hl).writesClean

section
open Reference

def runsWith (p : Port) (id : String) (c : Cluster platform) : Bool :=
  (c.session p).any fun s =>
    match s.phase with
    | .live peer _ => peer.nodeId = id
    | _ => false

theorem running_of_runsWith {t : TaskId} {r : NodeId} {c : Cluster platform}
    (h : runsWith (n, t) r.text c = true) : c.Running n r := by
  obtain ⟨s, hs, hp⟩ := (Option.any_eq_true _ _).mp h
  split at hp
  · rename_i peer stage hphase
    exact ⟨t, s, peer, stage, hs, hphase, of_decide_eq_true hp⟩
  · cases hp

/-- The sync that the session at `p` is about to write carries a marker. -/
def carriesMarker (p : Port) (r : String) (c : Cluster platform) : Bool :=
  match c.writesFrame (writes p) with
  | some (_, .membershipSync (some δ) _) => δ.log.any (marks p.1.text r)
  | _ => false

theorem not_writesClean {p : Port} {r : NodeId} {R : NodeId → Prop} {c : Cluster platform}
    (h : carriesMarker p r.text c = true) (hR : R r) (hne : r ≠ p.1) : ¬ WritesClean p.1 R c := by
  intro hclean
  rw [carriesMarker] at h
  split at h
  · rename_i m δ v hw
    obtain ⟨w, hw', hmark⟩ := List.any_eq_true.mp h
    have hn : m = p.1 := by
      obtain ⟨_, -, heq⟩ := Option.map_eq_some_iff.mp hw
      cases heq
      rfl
    subst hn
    exact hclean _ _ r hw hR hne ⟨δ, rfl, w, hw', marks_iff.mp hmark⟩
  · cases h

/-- Node `a` is connected to `b` and `c` and is interrupted. -/
def interrupted : List (Action platform) :=
  joins ++ dials nodeA "10.0.0.3:4369" ++ handshake (nodeA, 1) (nodeC, 0) ++
    exchange (nodeA, 1) (nodeC, 0) ++ [.own nodeA .interrupt, .own nodeA .removeSelf]

/-- The session with `b` takes the shutdown branch and cleans up, that with `c`
takes the gossip branch. -/
def cleansUpThenGossips : List (Action platform) :=
  [.own nodeA (.task 0 .shutdownBranch), locks (nodeA, 0), .own nodeA (.task 1 .gossipBranch),
    locks (nodeA, 1)]

/-- After the cancellation node `a` has a sync ready for `c` that tombstones `b`. -/
theorem shutdown_tombstones :
    ¬ ∀ (n : NodeId) (c₀ c₁ : Cluster platform), clusters.Reach Honest c₀ →
      clusters.step c₀ (.own n .cancel) = some c₁ →
        RemovesOnlyItself setup n c₀ (clusters.Leads Honest c₁) := by
  have heval : ((some cluster).bind fun c =>
      (clusters.guard fun _ x => x.isHonest).run c interrupted).any
        (fun c₀ => runsWith (nodeA, 0) "b" c₀ &&
          (clusters.step c₀ (.own nodeA .cancel)).any fun c₁ =>
            ((clusters.guard fun _ x => x.isHonest).run c₁ cleansUpThenGossips).any
              (carriesMarker (nodeA, 1) "b")) = true := by
    decide +kernel
  obtain ⟨c₀, hr, hp⟩ := System.Reach.of_eval (C := Honest) heval (fun _ _ hx => hx) cluster_init
  rw [Bool.and_eq_true] at hp
  obtain ⟨hruns, hp⟩ := hp
  obtain ⟨c₁, hcancel, hp⟩ := (Option.any_eq_true _ _).mp hp
  obtain ⟨c, hl, hmark⟩ := System.Leads.of_eval (C := Honest) hp fun _ _ hx => hx
  intro hall
  have hrunning : c₀.Running nodeA nodeB := running_of_runsWith (n := nodeA) (r := nodeB) hruns
  exact not_writesClean (r := nodeB) hmark hrunning (by decide) ((hall _ c₀ c₁ hr hcancel).2 c hl)

/-- Node `n` has written its own record only. -/
def writesOwnRecord (n : NodeId) (c : Cluster platform) : Bool :=
  (c.daemon n).doc.log.all fun w => w.dot.replica = n.text → w.path = ["nodes", n.text]

/-- Node `a` shuts down while connected to `b`, both of whose sessions have merged. -/
theorem removesOnlyItself_interrupted : ∃ c₀ c₁ : Cluster platform, clusters.Reach Honest c₀ ∧
    clusters.step c₀ (.own nodeA .cancel) = some c₁ ∧ c₀.Running nodeA nodeB ∧
    hasMerged (nodeA, 0) c₀ = true ∧
    RemovesOnlyItself setup nodeA c₀ (BuildsNoSyncAfterCleanup setup nodeA c₀ c₁) := by
  have heval : ((some cluster).bind fun c =>
      (clusters.guard fun _ x => x.isHonest).run c interrupted).any
        (fun c₀ => runsWith (nodeA, 0) "b" c₀ && hasMerged (nodeA, 0) c₀ &&
          writesOwnRecord nodeA c₀ && (clusters.step c₀ (.own nodeA .cancel)).isSome) = true := by
    decide +kernel
  obtain ⟨c₀, hr, hp⟩ := System.Reach.of_eval (C := Honest) heval (fun _ _ hx => hx) cluster_init
  simp only [Bool.and_eq_true] at hp
  obtain ⟨⟨⟨hruns, hm⟩, hown⟩, hsome⟩ := hp
  obtain ⟨c₁, hcancel⟩ := Option.isSome_iff_exists.mp hsome
  refine ⟨c₀, c₁, hr, hcancel, running_of_runsWith (n := nodeA) (r := nodeB) hruns, hm, ?_⟩
  refine removesOnlyItself_of_noBuild hr hcancel fun r _ hne w hw hmark => hne ?_
  have hpath := of_decide_eq_true (List.all_eq_true.mp hown w hw) hmark.1
  rw [hmark.2.1] at hpath
  simp only [List.cons.injEq, and_true, true_and] at hpath
  exact NodeId.text_injective hpath

end

end Cluster
end Pmd
