import Pmd.Cluster.Knowledge
import Pmd.Foundation.CausalStore

/-!
# A cluster is a causally consistent store

The daemons keep version vectors, remember what their peers have reported and send each
other deltas; connections fail, and syncs are merged long after they were built. All of
this amounts to the plain store: a write is a new entry on all that the daemon holds, and
merging a sync takes over the whole document that its sender had when it built the sync.
-/
namespace Pmd
open Foundation

variable {P : Platform}

/-- Edits are new entries, one after another. -/
theorem Concordat.Edits.represents {K : Concordat} {A : String → Option Json → Prop}
    {d e : K.Doc} {ι : Type} [DecidableEq ι] {name : ι → String} {i : ι}
    {ρ : ι → Replica String Path Json} {s : Store ι DocWrite} (h : K.Edits A d e)
    (hname : Function.Injective name) (hs : Represents name ρ s) (hd : ρ i = K.asReplica d)
    (hr : K.replica d = name i) : ∃ s', (Store.system ι DocWrite).Leads System.any s s' ∧
      Represents name (Function.update ρ i (K.asReplica e)) s' := by
  refine h.appends (I := fun e => ∃ s', (Store.system ι DocWrite).Leads System.any s s' ∧
    Represents name (Function.update ρ i (K.asReplica e)) s') ⟨s, .refl, ?_⟩
    fun e e' p x he ha hi => ?_
  · rw [← hd, Function.update_eq_self]
    exact hs
  · obtain ⟨s', hl, hs'⟩ := hi
    have happ : K.asReplica e' = (K.asReplica e).append (name i) (splitPath p) x := by
      rw [asReplica, ha.writes, ha.vv, he.replica, hr]
      rfl
    have hnew := hs'.append hname i (splitPath p) x
    rw [Function.update_self, Function.update_idem] at hnew
    rw [happ]
    exact ⟨_, hl.tail ⟨_, trivial, hnew.1⟩, hnew.2⟩

namespace Cluster
variable {W : Setup} {c c' : Cluster P} {s : Store NodeId DocWrite}

/-- A vector that some document has reached, and that cuts a moment of the store. -/
structure CutsMoment (c : Cluster P) (s : Store NodeId DocWrite) (v : VersionVector String) :
    Prop where
  below : ∃ i, v ≤ c.vv i
  closed : Closed (commonLog c.replicas) v
  moment : cut (commonLog c.replicas) v ∈ s.moments

/-- The store holds what the documents hold, and the syncs under way bring moments of it. -/
structure StoredAs (W : Setup) (c : Cluster P) (s : Store NodeId DocWrite) : Prop where
  reach : (system P W).Reach Honest c
  docs : Represents NodeId.text c.replicas s
  flight : InFlight (CutsMoment c s) c

namespace StoredAs

theorem cutsMoment (h : StoredAs W c s) (n : NodeId) : CutsMoment c s (c.vv n) := by
  refine ⟨⟨n, le_rfl⟩, h.docs.closed n, ?_⟩
  have hcut : (c.replicas n).writes = cut (commonLog c.replicas) (c.vv n) :=
    h.docs.coherent.cuts n
  rw [← hcut]
  exact h.docs.current n

/-- The documents after a step are those of the store after some steps. -/
theorem docs_step (hs : StoredAs W c s) {x : Action P} (hx : Honest c x)
    (h : c.step W x = some c') : ∃ s', (Store.system NodeId DocWrite).Leads System.any s s' ∧
      Represents NodeId.text c'.replicas s' := by
  have hc := Causal.reach hs.reach
  have hquiet : (∀ m, (c'.daemon m).doc = (c.daemon m).doc) →
      ∃ s', (Store.system NodeId DocWrite).Leads System.any s s' ∧
        Represents NodeId.text c'.replicas s' := by
    intro hdocs
    have hrep : c'.replicas = c.replicas := funext fun m => by rw [replicas, replicas, hdocs m]
    exact ⟨s, .refl, hrep ▸ hs.docs⟩
  cases x with
  | own n a =>
    obtain ⟨-, h⟩ := Option.ite_none_right_eq_some.mp h
    obtain ⟨d, sent, hd, rfl⟩ := act_eq_some h
    rw [replicas_post, replicas_setDaemon]
    have hedits : ∀ {A : String → Option Json → Prop},
        P.crdt.Edits A (c.daemon n).doc d.doc →
        ∃ s', (Store.system NodeId DocWrite).Leads System.any s s' ∧
          Represents NodeId.text (Function.update c.replicas n (P.crdt.asReplica d.doc)) s' :=
      fun he => he.represents NodeId.text_injective hs.docs rfl (hc.replica n)
    cases Daemon.step_doc hd with
    | same hsame =>
      have heq : P.crdt.asReplica d.doc = c.replicas n := by rw [hsame]; rfl
      rw [heq, Function.update_eq_self]
      exact ⟨s, .refl, hs.docs⟩
    | request he => exact hedits he
    | removeSelf _ he => exact hedits he
    | cleaned _ _ he => exact hedits he
    | @merged t u e peer b v δ hu hp hb hdoc =>
      obtain ⟨q, -, δ', k, hb', hv, hw, hk, hle, -⟩ := (hc.sessions (n, t) u hu).incoming _ _ hp
      rw [hb, Option.some.injEq] at hb'
      subst hb'
      subst hv
      have hflight := hs.flight.handled (n, t) u peer b _ hu hp
      rw [hdoc, P.crdt.asReplica_merge]
      obtain ⟨hlearn, hdocs⟩ := hs.docs.absorb n (j := q.1) hw hle hk hflight.closed hflight.moment
      exact ⟨_, .single ⟨_, trivial, hlearn⟩, hdocs⟩
  | receive p =>
    obtain ⟨m', rest, -, h⟩ := step_receive h
    exact hquiet (doc_of_not_own (c := c.setInbox p rest) rfl h)
  | closed p =>
    obtain ⟨-, h⟩ := Option.ite_none_right_eq_some.mp h
    exact hquiet (doc_of_not_own rfl h)
  | establish p n nonce =>
    obtain ⟨c₁, h₁, h₂⟩ := Option.bind_eq_some_iff.mp h
    refine hquiet fun m => (doc_of_not_own rfl h₂ m).trans ?_
    exact doc_of_not_own (c := c.connect p (c.nextPort n)) rfl h₁ m
  | _ => cases hx

theorem step (hs : StoredAs W c s) {x : Action P} (hx : Honest c x)
    (h : (system P W).step c x = some c') :
    ∃ s', (Store.system NodeId DocWrite).Leads System.any s s' ∧ StoredAs W c' s' := by
  have hext := (Causal.reach hs.reach).extends_step (Links.reach hs.reach) hx h
  obtain ⟨s', hl, hdocs⟩ := hs.docs_step hx h
  refine ⟨s', hl, hs.reach.leads (.single ⟨x, hx, h⟩), hdocs, ?_⟩
  refine (hs.flight.step hs.cutsMoment hx h).mono fun v hv => ?_
  obtain ⟨i, hi⟩ := hv.below
  have hcut := hext.cut i v hi
  exact ⟨⟨i, hi.trans (hext.vv i)⟩, hv.closed.congr hcut,
    hcut ▸ Store.moments_leads hl hv.moment⟩

/-- The store that the documents are at first: with one entry each. -/
theorem init (h : (system P W).init c) :
    ∃ s, (Store.system NodeId DocWrite).init s ∧ StoredAs W c s := by
  choose p x hrep using replicas_init h
  have hwrites : ∀ n, (c.replicas n).writes = {Replica.next n.text ⊥ (p n) (x n)} := by
    intro n
    rw [hrep]
    exact insert_empty_eq _
  have hlog : ∀ w ∈ commonLog c.replicas, ∃ n, w = Replica.next n.text ⊥ (p n) (x n) := by
    rintro w ⟨n, hn⟩
    rw [hwrites] at hn
    exact ⟨n, hn⟩
  have hreach : (system P W).Reach Honest c := ⟨c, h, .refl⟩
  have hcoh := (Causal.init h).coherent
  refine ⟨⟨fun n => (c.replicas n).writes, Set.range fun n => (c.replicas n).writes, fun _ => ∅⟩,
    ⟨fun n => Replica.next n.text ⊥ (p n) (x n), funext hwrites, rfl, fun _ => rfl⟩, hreach,
    ⟨hcoh, fun n => ((AllKnown.init h).docs n).closed, fun _ => rfl, fun n => ⟨n, rfl⟩, ?_, ?_⟩,
    .init h _⟩
  · rintro U ⟨n, rfl⟩
    exact ⟨n, _, le_rfl, hcoh.cuts n⟩
  · intro w hw
    obtain ⟨n, rfl⟩ := hlog w hw
    refine (Set.eq_empty_iff_forall_notMem.mpr ?_).symm
    rintro u ⟨hu, hcov⟩
    obtain ⟨m, rfl⟩ := hlog u hu
    exact absurd hcov (by simp [Covers, Replica.next])

/-- What a daemon answers is determined by what its replica of the store holds. -/
theorem sameView (hs : StoredAs W c s) {n m : NodeId} (h : s.holds n = s.holds m) :
    c.SameView n m := by
  have hw : P.crdt.writes (c.daemon n).doc = P.crdt.writes (c.daemon m).doc := by
    have hn := hs.docs.holds n
    have hm := hs.docs.holds m
    exact hn.symm.trans (h.trans hm)
  have hmat := (Causal.reach hs.reach).materialize_eq (fun w hw => ⟨n, hw⟩) hw
  exact ⟨Membership.members_congr hmat, Membership.lookupService_congr hmat⟩

end StoredAs
theorem simulates_store (P : Platform) (W : Setup) :
    Simulates (system P W) Honest (Store.system NodeId DocWrite) (StoredAs W) where
  init _ h := StoredAs.init h
  step _ _ _ _ hs hx h := hs.step hx h

/-- The cluster refines the store: each of its steps is matched by steps of the store, from
the first state on, with the documents as the contents of the replicas, and what a daemon
answers is determined by the content of its replica. So each document holds with a write
all that its writer held when it made the write. -/
theorem refines_store (P : Platform) (W : Setup) :
    Simulates (system P W) Honest (Store.system NodeId DocWrite) (StoredAs W) ∧
    (∀ (c : Cluster P) s, StoredAs W c s →
      (∀ n, s.holds n = P.crdt.writes (c.daemon n).doc) ∧
      ∀ n m, s.holds n = s.holds m → c.SameView n m) ∧
    ∀ c : Cluster P, (system P W).Reach Honest c →
      ∃ s, (Store.system NodeId DocWrite).Reach System.any s ∧ StoredAs W c s ∧
        ∀ n, ∀ w ∈ s.holds n, s.past w ⊆ s.holds n := by
  have hsim := simulates_store P W
  refine ⟨hsim, fun c s hs => ⟨hs.docs.holds, fun n m => hs.sameView⟩, fun c hc => ?_⟩
  obtain ⟨s, hr, hs⟩ := hsim.reach hc
  have hcons := Store.Consistent.reach hr
  exact ⟨s, hr, hs, fun n w hw => hcons.closed _ (hcons.current n) w hw⟩

end Cluster
end Pmd
