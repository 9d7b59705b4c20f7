import Pmd.Cluster.Causality
import Pmd.Foundation.Snapshots

/-!
# Where the vectors of a run come from

Every vector that a document has reached or that travels with a sync is closed, and
its entry for a node is the counter that node had right after some write of its own,
at a moment of the run.
-/
namespace Pmd
open Foundation

variable {P : Platform}

/-- Edits leave the document as it was, or its replica has written last. -/
theorem Concordat.Edits.same_or_fresh {K : Concordat} {A : String → Option Json → Prop}
    {d e : K.Doc} (h : K.Edits A d e) :
    K.asReplica e = K.asReplica d ∨ Fresh (K.replica d) (K.asReplica e) := by
  refine h.appends (I := fun e => K.asReplica e = K.asReplica d ∨
    Fresh (K.replica d) (K.asReplica e)) (.inl rfl) fun e e' p x he ha _ => .inr ?_
  have happ : K.asReplica e' = (K.asReplica e).append (K.replica d) (splitPath p) x := by
    rw [asReplica, ha.writes, ha.vv, he.replica]
    rfl
  rw [happ]
  exact .append _ _ _ _

/-- A sync is made ready under the lock, with the vector of the document. -/
theorem SessionMove.outgoing_vv {cfg : Config} {cookie : Bytes} {t : TaskId}
    {st : DaemonState P} {s : Session P} {e : TaskEvent P} {o : Outcome P}
    {b : P.crdt.Encoded} {v : VersionVector String} (h : SessionMove cfg cookie t st s e o)
    (hm : o.session.phase.outgoing = some (.membershipSync b v)) :
    v = st.membership.versionVector ∧ ∃ nonce epoch now, e = .lock nonce epoch now := by
  cases h with
  | built hp =>
    cases hm
    exact ⟨rfl, _, _, _, rfl⟩
  | gossiped hp hh =>
    cases hm
    exact ⟨rfl, _, _, _, rfl⟩
  | registered _ _ hs => rcases hs with rfl | ⟨l, -, rfl⟩ <;> cases hm
  | wrote _ hs => rcases hs with ⟨-, rfl⟩ | ⟨-, rfl⟩ | ⟨-, rfl⟩ <;> cases hm
  | beat _ hb => rcases hb with rfl | rfl <;> cases hm
  | moved _ hs => rcases hs with rfl | rfl | rfl <;> cases hm
  | _ => cases hm

/-- A sync to be handled is one that was read. -/
theorem SessionMove.handled_of_read {cfg : Config} {cookie : Bytes} {t : TaskId}
    {st : DaemonState P} {s : Session P} {e : TaskEvent P} {o : Outcome P} {peer : PeerId P}
    {m : Message P} (h : SessionMove cfg cookie t st s e o)
    (hm : o.session.phase = .live peer (.handle m)) : e = .read (.message m) := by
  cases h with
  | received hp =>
    cases hm
    rfl
  | registered _ _ hs => rcases hs with rfl | ⟨l, -, rfl⟩ <;> cases hm
  | wrote _ hs => rcases hs with ⟨-, rfl⟩ | ⟨-, rfl⟩ | ⟨-, rfl⟩ <;> cases hm
  | moved _ hs => rcases hs with rfl | rfl | rfl <;> cases hm
  | _ => cases hm

namespace Cluster
variable {W : Setup} {c₀ c c' : Cluster P} {n : NodeId} {a : Act P}

/-- The vector is closed, and what it knows of a node beyond `c₀` ends with a write that
the node made between `c₀` and `c`. -/
structure Known (W : Setup) (c₀ c : Cluster P) (v : VersionVector String) : Prop where
  below : ∃ i, v ≤ c.vv i
  closed : Closed (commonLog c.replicas) v
  moments : ∀ r : NodeId, v r.text ≤ c₀.vv r r.text ∨ ∃ c₁, (system P W).Leads Honest c₀ c₁ ∧
    (system P W).Leads Honest c₁ c ∧ Fresh r.text (c₁.replicas r) ∧ c₁.vv r r.text = v r.text

namespace Known
variable {v u : VersionVector String}

theorem sup {i : NodeId} (hv : Known W c₀ c v) (hu : Known W c₀ c u) (hle : v ⊔ u ≤ c.vv i) :
    Known W c₀ c (v ⊔ u) where
  below := ⟨i, hle⟩
  closed := hv.closed.sup hu.closed
  moments r := by
    rcases le_total (u r.text) (v r.text) with h | h
    · rw [Pi.sup_apply, sup_of_le_left h]
      exact hv.moments r
    · rw [Pi.sup_apply, sup_of_le_right h]
      exact hu.moments r

theorem step (hv : Known W c₀ c v) (hx : Extends c.replicas c'.replicas)
    (hl : (system P W).Leads Honest c c') : Known W c₀ c' v := by
  obtain ⟨i, hi⟩ := hv.below
  refine ⟨⟨i, hi.trans (hx.vv i)⟩, hv.closed.congr (hx.cut i v hi), fun r => ?_⟩
  refine (hv.moments r).imp_right ?_
  rintro ⟨c₁, h₀, h₁, hfresh, hr⟩
  exact ⟨c₁, h₀, h₁.trans hl, hfresh, hr⟩

end Known

/-- `Q` holds of the vectors of all syncs that are built and not yet merged. -/
structure InFlight (Q : VersionVector String → Prop) (c : Cluster P) : Prop where
  outgoing : ∀ p s b v, c.session p = some s →
    s.phase.outgoing = some (.membershipSync b v) → Q v
  inbox : ∀ p b v, .membershipSync b v ∈ c.inbox p → Q v
  handled : ∀ p s peer b v, c.session p = some s →
    s.phase = .live peer (.handle (.membershipSync b v)) → Q v

namespace InFlight
variable {Q Q' : VersionVector String → Prop}

theorem mono (h : InFlight Q c) (hQ : ∀ v, Q v → Q' v) : InFlight Q' c :=
  ⟨fun p s b v hs hm => hQ v (h.outgoing p s b v hs hm), fun p b v hm => hQ v (h.inbox p b v hm),
    fun p s peer b v hs hp => hQ v (h.handled p s peer b v hs hp)⟩

theorem act (hi : InFlight Q c)
    (hdoc : ∀ t nonce epoch now, a = .task t (.lock nonce epoch now) → Q (c.vv n))
    (hread : ∀ t b v, a = .task t (.read (.message (.membershipSync b v))) → Q v)
    (h : c.act W n a = some c') : InFlight Q c' := by
  refine ⟨fun p s b v hs hm => ?_, fun p b v hm => ?_, fun p s peer b v hs hp => ?_⟩
  · rcases session_act h hs with ⟨e, s₀, o, rfl, rfl, -, hmove, rfl⟩ | hold | ⟨-, hnew⟩
    · obtain ⟨rfl, nonce, epoch, now, rfl⟩ := hmove.outgoing_vv hm
      exact hdoc p.2 nonce epoch now rfl
    · exact hi.outgoing p s b v hold hm
    · rcases hnew with ⟨addr, rfl⟩ | ⟨-, -, rfl⟩ <;> cases hm
  · obtain ⟨d, sent, hd, rfl⟩ := act_eq_some h
    rcases mem_inbox_post hm with hold | ⟨t, rfl, -⟩
    · exact hi.inbox p b v hold
    · rcases Daemon.step_cases hd with ⟨t', e, s, o, -, hs, hmove, -, hsent⟩ | ⟨-, hsent⟩
      · obtain ⟨m', hm', heq⟩ := Option.map_eq_some_iff.mp hsent.symm
        cases heq
        exact hi.outgoing (n, t) s b v hs (hmove.outgoing_of_sent hm')
      · cases hsent
  · rcases session_act h hs with ⟨e, s₀, o, rfl, rfl, -, hmove, rfl⟩ | hold | ⟨-, hnew⟩
    · exact hread p.2 b v (by rw [hmove.handled_of_read hp])
    · exact hi.handled p s peer b v hold hp
    · rcases hnew with ⟨addr, rfl⟩ | ⟨-, -, rfl⟩ <;> cases hp

theorem step (hi : InFlight Q c) (hdocs : ∀ n, Q (c.vv n)) {x : Action P} (hx : Honest c x)
    (h : c.step W x = some c') : InFlight Q c' := by
  cases x with
  | own n a =>
    obtain ⟨hown, h⟩ := Option.ite_none_right_eq_some.mp h
    refine hi.act (fun _ _ _ _ _ => hdocs n) (fun t b v ha => ?_) h
    rw [ha] at hown
    cases hown
  | receive p =>
    obtain ⟨m, rest, hin, h⟩ := step_receive h
    have hpop : InFlight Q (c.setInbox p rest) :=
      ⟨hi.outgoing, fun r b v hm => hi.inbox r b v (mem_inbox_of_tail hin hm), hi.handled⟩
    refine hpop.act (by simp) (fun t b v ha => ?_) h
    cases ha
    exact hi.inbox p b v (by rw [hin]; exact List.mem_cons_self)
  | closed p =>
    obtain ⟨-, h⟩ := Option.ite_none_right_eq_some.mp h
    exact hi.act (by simp) (by simp) h
  | establish p n nonce =>
    obtain ⟨c₁, h₁, h₂⟩ := Option.bind_eq_some_iff.mp h
    have hcon : InFlight Q (c.connect p (c.nextPort n)) := ⟨hi.outgoing, hi.inbox, hi.handled⟩
    exact (hcon.act (by simp) (by simp) h₁).act (by simp) (by simp) h₂
  | _ => cases hx

end InFlight

/-- Only own actions touch a document. -/
theorem doc_of_not_own (ha : a.isOwn = false) (h : c.act W n a = some c') (m : NodeId) :
    (c'.daemon m).doc = (c.daemon m).doc := by
  obtain ⟨d, sent, hd, rfl⟩ := act_eq_some h
  rw [post_daemon]
  by_cases hm : m = n
  · subst hm
    rw [setDaemon_self, Daemon.doc]
    rcases Daemon.step_cases hd with ⟨t, e, s, o, rfl, hs, hmove, rfl, -⟩ | ⟨hmove, -⟩
    · have hstate : o.state = (c.daemon m).state := by
        cases hmove <;> first | rfl | cases ha
      rw [hstate]
    · cases hmove <;> first | rfl | cases ha
  · rw [setDaemon_ne _ _ _ hm]

theorem vv_congr {m : NodeId} (h : (c'.daemon m).doc = (c.daemon m).doc) : c'.vv m = c.vv m := by
  rw [vv, h]

section Step
variable {v : VersionVector String}

/-- Own writes of the daemon. -/
theorem Known.edits {A : String → Option Json → Prop} (hc : Causal c) (hc' : Causal c')
    (h₀ : (system P W).Leads Honest c₀ c') (hstep : Known W c₀ c' (c.vv n))
    (he : P.crdt.Edits A (c.daemon n).doc (c'.daemon n).doc) : Known W c₀ c' (c'.vv n) := by
  have hrep := hc.replica n
  refine ⟨⟨n, le_rfl⟩, fun w hw => ?_, fun r => ?_⟩
  · have hcut : (c'.replicas n).writes = cut (commonLog c'.replicas) (c'.vv n) :=
      hc'.coherent.cuts n
    rw [← hcut] at hw
    have hcut₀ : P.crdt.writes (c.daemon n).doc = cut (commonLog c.replicas) (c.vv n) :=
      hc.coherent.cuts n
    rcases he.past_le hw with hold | hle
    · refine (hstep.closed w ⟨⟨n, hw⟩, ?_⟩).trans he.vv_mono
      rw [hcut₀] at hold
      exact hold.2
    · exact hle
  · by_cases hrn : r = n
    · subst hrn
      rcases he.same_or_fresh with hsame | hfresh
      · have hvv : c'.vv r = c.vv r := congrArg Replica.vv hsame
        rw [hvv]
        exact hstep.moments r
      · rw [hrep] at hfresh
        exact .inr ⟨c', h₀, .refl, hfresh, rfl⟩
    · have hvv : c'.vv n r.text = c.vv n r.text :=
        he.vv_other (by rw [hrep]; exact NodeId.text_injective.ne hrn)
      rw [hvv]
      exact hstep.moments r

/-- The documents after a step. -/
theorem Known.docs_step (hc : Causal c) (hc' : Causal c')
    (h₀ : (system P W).Leads Honest c₀ c') (hdocs : ∀ m, Known W c₀ c' (c.vv m))
    (hflight : InFlight (Known W c₀ c') c) {x : Action P} (hx : Honest c x)
    (h : c.step W x = some c') (m : NodeId) : Known W c₀ c' (c'.vv m) := by
  have hquiet : (c'.daemon m).doc = (c.daemon m).doc → Known W c₀ c' (c'.vv m) := by
    intro hdoc
    rw [vv_congr hdoc]
    exact hdocs m
  cases x with
  | own n a =>
    obtain ⟨-, h⟩ := Option.ite_none_right_eq_some.mp h
    obtain ⟨d, sent, hd, hc''⟩ := act_eq_some h
    by_cases hm : m = n
    · subst hm
      have hdoc : (c'.daemon m) = d := by rw [hc'', post_daemon, setDaemon_self]
      cases Daemon.step_doc hd with
      | same hsame => exact hquiet (by rw [hdoc, hsame])
      | request he => exact .edits hc hc' h₀ (hdocs m) (hdoc ▸ he)
      | removeSelf _ he => exact .edits hc hc' h₀ (hdocs m) (hdoc ▸ he)
      | cleaned _ _ he => exact .edits hc hc' h₀ (hdocs m) (hdoc ▸ he)
      | @merged t s e peer b v δ hs hp hb hmerge =>
        obtain ⟨q, -, δ', u, hb', hv, -⟩ := (hc.sessions (m, t) s hs).incoming _ _ hp
        rw [hb, Option.some.injEq] at hb'
        subst hb'
        have hvv : c'.vv m = c.vv m ⊔ v := by rw [vv, hdoc, hmerge, P.crdt.vv_merge, hv]
        rw [hvv]
        exact (hdocs m).sup (hflight.handled (m, t) s peer b v hs hp) hvv.ge
    · refine hquiet ?_
      rw [hc'', post_daemon, setDaemon_ne _ _ _ hm]
  | receive p =>
    obtain ⟨m', rest, -, h⟩ := step_receive h
    exact hquiet (doc_of_not_own (c := c.setInbox p rest) rfl h m)
  | closed p =>
    obtain ⟨-, h⟩ := Option.ite_none_right_eq_some.mp h
    exact hquiet (doc_of_not_own rfl h m)
  | establish p n nonce =>
    obtain ⟨c₁, h₁, h₂⟩ := Option.bind_eq_some_iff.mp h
    refine hquiet ((doc_of_not_own rfl h₂ m).trans ?_)
    exact doc_of_not_own (c := c.connect p (c.nextPort n)) rfl h₁ m
  | _ => cases hx

end Step

/-- All vectors of the run are known. -/
structure AllKnown (W : Setup) (c₀ c : Cluster P) : Prop where
  docs : ∀ n, Known W c₀ c (c.vv n)
  flight : InFlight (Known W c₀ c) c

/-- The documents the daemons start with. -/
theorem replicas_init (h : (system P W).init c₀) (n : NodeId) : ∃ p x,
    c₀.replicas n = (⟨∅, ⊥⟩ : Replica String Path Json).append n.text p x := by
  obtain ⟨metadata, addr, now, hd⟩ := h.1 n
  have hdoc : (c₀.daemon n).doc = P.crdt.set (P.crdt.new n.text) (nodePath n.text)
      (nodeRecord addr metadata now) := by
    rw [Daemon.doc, (Daemon.start_eq_some hd).2.1]
    rfl
  refine ⟨splitPath (nodePath n.text), some (nodeRecord addr metadata now), ?_⟩
  rw [replicas, hdoc, P.crdt.asReplica_set, P.crdt.replica_new, Concordat.asReplica,
    P.crdt.writes_new, P.crdt.vv_new]

theorem session_init (h : (system P W).init c₀) (p : Port) : c₀.session p = none := by
  obtain ⟨metadata, addr, now, hd⟩ := h.1 p.1
  rw [session, (Daemon.start_eq_some hd).2.2.2.1]
  rfl

/-- Nothing is under way. -/
theorem InFlight.init (h : (system P W).init c₀) (Q : VersionVector String → Prop) :
    InFlight Q c₀ := by
  refine ⟨fun p s b v hs => ?_, fun p b v hm => ?_, fun p s peer b v hs => ?_⟩
  · rw [session_init h] at hs
    cases hs
  · rw [h.2.2.1] at hm
    cases hm
  · rw [session_init h] at hs
    cases hs

theorem AllKnown.init (h : (system P W).init c₀) : AllKnown W c₀ c₀ := by
  refine ⟨fun n => ⟨⟨n, le_rfl⟩, ?_, fun r => .inl ((Causal.init h).coherent.own r n)⟩,
    .init h _⟩
  rintro w ⟨⟨m, hm⟩, -⟩
  obtain ⟨p, x, hrep⟩ := replicas_init h m
  rw [hrep] at hm
  rcases hm with rfl | hm
  · exact bot_le
  · exact hm.elim

/-- Any state of the run may be taken as the first one. -/
theorem AllKnown.base (h : AllKnown W c₀ c) (hr : (system P W).Reach Honest c) :
    AllKnown W c c := by
  have hbase : ∀ v, Known W c₀ c v → Known W c c v := by
    rintro v ⟨⟨i, hi⟩, hclosed, -⟩
    exact ⟨⟨i, hi⟩, hclosed, fun r =>
      .inl ((hi r.text).trans ((Causal.reach hr).coherent.own r i))⟩
  exact ⟨fun n => hbase _ (h.docs n), h.flight.mono hbase⟩

theorem AllKnown.step (h : AllKnown W c₀ c) (hr : (system P W).Reach Honest c)
    (h₀ : (system P W).Leads Honest c₀ c) {x : Action P} (hx : Honest c x)
    (hs : (system P W).step c x = some c') : AllKnown W c₀ c' := by
  have hmove : (system P W).Leads Honest c c' := .single ⟨x, hx, hs⟩
  have hext := (Causal.reach hr).extends_step (Links.reach hr) hx hs
  have hdocs : ∀ n, Known W c₀ c' (c.vv n) := fun n => (h.docs n).step hext hmove
  have hflight : InFlight (Known W c₀ c') c := h.flight.mono fun v hv => hv.step hext hmove
  exact ⟨Known.docs_step (Causal.reach hr) (Causal.reach (hr.leads hmove))
    (h₀.trans hmove) hdocs hflight hx hs, hflight.step hdocs hx hs⟩

theorem AllKnown.leads (h : AllKnown W c₀ c₀) (hr : (system P W).Reach Honest c₀)
    (hl : (system P W).Leads Honest c₀ c) : AllKnown W c₀ c := by
  refine (hl.preserves (I := fun c => (system P W).Leads Honest c₀ c ∧ AllKnown W c₀ c)
    (fun c₁ x c₂ hi hx hs => ⟨hi.1.tail ⟨x, hx, hs⟩, ?_⟩) ⟨.refl, h⟩).2
  exact hi.2.step (hr.leads hi.1) hi.1 hx hs

theorem AllKnown.reach (h : (system P W).Reach Honest c) : AllKnown W c c := by
  obtain ⟨c₀, h₀, hl⟩ := h
  exact ((AllKnown.init h₀).leads ⟨c₀, h₀, .refl⟩ hl).base ⟨c₀, h₀, hl⟩

end Cluster
end Pmd
