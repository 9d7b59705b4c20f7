import Pmd.Membership.Exchange
import Pmd.Membership.Changes
import Pmd.Platform.Views

/-!
# What a merge reports

Nobody is ahead of a replica on its own name, so its fresh dots identify writes over
all replicas and deltas, whatever vectors the deltas were made against. A merge then
reports the change of the member list, and a delta that has been merged before
changes nothing.
-/
namespace Pmd
open Foundation

variable {P : Platform}

namespace Exchange
variable {x x' : Exchange P} {op : ExchangeOp P}

/-- Documents keep their names, vectors cover what they go with, and nobody is ahead of
a replica on its own name: no document, no delta and no causal past. -/
structure Timed (x : Exchange P) : Prop where
  named : ∀ r, P.crdt.replica (x.doc r) = r ∧ (x.replica r).nodeId = r
  docs : ∀ r, ∀ w ∈ P.crdt.writes (x.doc r), Covers (P.crdt.versionVector (x.doc r)) w.dot
  deltas : ∀ b ∈ x.produced, ∃ δ, P.crdt.decode b = some δ ∧
    (∀ w ∈ P.crdt.deltaWrites δ, Covers (P.crdt.deltaVv δ) w.dot) ∧
    ∀ r, P.crdt.deltaVv δ r ≤ P.crdt.versionVector (x.doc r) r
  own : ∀ r s, P.crdt.versionVector (x.doc s) r ≤ P.crdt.versionVector (x.doc r) r
  past : ∀ w ∈ x.pool, ∀ r, w.past r ≤ P.crdt.versionVector (x.doc r) r
  identify : DotsIdentify x.pool

theorem step_nodeId (h : (system P).step x op = some x') (r : String) :
    (x'.replica r).nodeId = (x.replica r).nodeId := by
  have hset : ∀ {r' : String} {m : Membership P}, m.nodeId = (x.replica r').nodeId →
      ((x.setReplica r' m).replica r).nodeId = (x.replica r).nodeId := by
    intro r' m hm
    by_cases hr : r = r'
    · subst hr
      rw [setReplica_self, hm]
    · rw [setReplica_ne _ _ hr]
  cases op with
  | removeNode r' id =>
    cases h
    exact hset (Membership.removeNode_nodeId _ _)
  | mergeRemote r' i =>
    obtain ⟨b, -, h⟩ := Option.bind_eq_some_iff.mp h
    obtain ⟨⟨m, changes⟩, hm, h⟩ := Option.bind_eq_some_iff.mp h
    cases h
    obtain ⟨δ, -, rfl, -⟩ := Membership.mergeRemote_eq_some hm
    exact hset rfl
  | deltaForPeer r' v =>
    cases h
    rfl
  | _ =>
    cases h
    exact hset rfl

/-- The vectors of documents only grow. -/
theorem step_vv_mono (h : (system P).step x op = some x') (r : String) :
    P.crdt.versionVector (x.doc r) ≤ P.crdt.versionVector (x'.doc r) := by
  cases step_replica h r with
  | same hm => rw [doc, doc, hm]
  | edited hm _ => exact hm.vv_mono
  | merged _ _ hm =>
    rw [doc, doc, hm, P.crdt.vv_merge]
    exact le_sup_left

namespace Timed

/-- What a produced delta decodes to. -/
theorem delta (hi : Timed x) {b : P.crdt.Encoded} {δ : P.crdt.Delta} (hb : b ∈ x.produced)
    (hδ : P.crdt.decode b = some δ) :
    (∀ w ∈ P.crdt.deltaWrites δ, Covers (P.crdt.deltaVv δ) w.dot) ∧
      ∀ r, P.crdt.deltaVv δ r ≤ P.crdt.versionVector (x.doc r) r := by
  obtain ⟨δ', hδ', h⟩ := hi.deltas b hb
  rw [hδ, Option.some.injEq] at hδ'
  subst hδ'
  exact h

theorem counter_le (hi : Timed x) {w : DocWrite} (hw : w ∈ x.pool) :
    w.dot.counter ≤ P.crdt.versionVector (x.doc w.dot.replica) w.dot.replica := by
  rcases hw with ⟨r, hw⟩ | ⟨b, hb, δ, hδ, hw⟩
  · exact le_trans (hi.docs r w hw) (hi.own _ r)
  · obtain ⟨hcov, hown⟩ := hi.delta hb hδ
    exact le_trans (hcov w hw) (hown _)

theorem settled (hi : Timed x) (r : String) : P.crdt.Settled (x.doc r) := by
  refine ⟨hi.docs r, fun w hw => ?_, hi.identify.subset fun w hw => .inl ⟨r, hw⟩⟩
  rw [(hi.named r).1]
  exact hi.past w (.inl ⟨r, hw⟩) r

theorem step_own (hi : Timed x) (h : (system P).step x op = some x') (r s : String) :
    P.crdt.versionVector (x'.doc s) r ≤ P.crdt.versionVector (x'.doc r) r := by
  by_cases hrs : r = s
  · rw [hrs]
  · refine le_trans ?_ (step_vv_mono h r r)
    cases step_replica h s with
    | same hm =>
      rw [doc, hm]
      exact hi.own r s
    | edited hm _ =>
      rw [hm.vv_other (by rwa [(hi.named s).1])]
      exact hi.own r s
    | @merged b δ hb hδ hm =>
      rw [doc, hm, P.crdt.vv_merge]
      exact sup_le (hi.own r s) ((hi.delta hb hδ).2 r)

/-- A write that is new in a step was made by the replica that holds it. -/
theorem step_new (hi : Timed x) (h : (system P).step x op = some x') :
    ∀ w ∈ x'.pool, w ∈ x.pool ∨ (w ∈ P.crdt.writes (x'.doc w.dot.replica) ∧
      ∃ A, P.crdt.Edits A (x.doc w.dot.replica) (x'.doc w.dot.replica) ∧
        w.past ≤ P.crdt.versionVector (x'.doc w.dot.replica)) := by
  refine mem_pool_of_edits h fun r A hm _ w hw => ?_
  rcases hm.mem_writes hw with hold | ⟨p, -, -, hr⟩
  · exact .inl hold
  · rw [(hi.named r).1] at hr
    rcases hm.past_le hw with hold | hpast
    · exact .inl hold
    · rw [hr]
      exact .inr ⟨hw, A, hm, hpast⟩

theorem step_identify (hi : Timed x) (h : (system P).step x op = some x') :
    DotsIdentify x'.pool := by
  have hnew : ∀ u ∈ x'.pool, ∀ w ∈ x'.pool, u.dot = w.dot → u ∉ x.pool → u = w := by
    intro u hu w hw hdot hfresh
    obtain ⟨hu', A, hedits, -⟩ := (hi.step_new h u hu).resolve_left hfresh
    have hbound : ∀ v ∈ x.pool, v.dot.replica = P.crdt.replica (x.doc u.dot.replica) →
        v.dot.counter ≤ P.crdt.versionVector (x.doc u.dot.replica)
          (P.crdt.replica (x.doc u.dot.replica)) := by
      intro v hv hr
      have hle := hi.counter_le hv
      rw [(hi.named _).1] at hr ⊢
      rwa [hr] at hle
    have hid := hedits.identify hi.identify (fun v hv => .inl ⟨_, hv⟩) hbound
    refine hid u (.inl hu') w ?_ hdot
    rcases hi.step_new h w hw with hold | ⟨hw', -⟩
    · exact .inr hold
    · rw [← hdot] at hw'
      exact .inl hw'
  intro u hu w hw hdot
  by_cases hu₀ : u ∈ x.pool
  · by_cases hw₀ : w ∈ x.pool
    · exact hi.identify u hu₀ w hw₀ hdot
    · exact (hnew w hw u hu hdot.symm hw₀).symm
  · exact hnew u hu w hw hdot hu₀

theorem step (hi : Timed x) (h : (system P).step x op = some x') : Timed x' := by
  refine ⟨fun r => ⟨?_, ?_⟩, fun r => ?_, fun b hb => ?_, hi.step_own h, fun w hw r => ?_,
    hi.step_identify h⟩
  · refine Eq.trans ?_ (hi.named r).1
    cases step_replica h r with
    | same hm => rw [doc, doc, hm]
    | edited hm _ => exact hm.replica
    | merged _ _ hm => rw [doc, hm, P.crdt.replica_merge]
  · rw [step_nodeId h, (hi.named r).2]
  · cases step_replica h r with
    | same hm =>
      rw [doc, hm]
      exact hi.docs r
    | edited hm _ => exact hm.covers (hi.docs r)
    | @merged b δ hb hδ hm =>
      intro w hw
      rw [doc, hm, P.crdt.writes_merge] at hw
      rw [doc, hm, P.crdt.vv_merge, covers_sup]
      exact hw.imp (hi.docs r w) ((hi.delta hb hδ).1 w)
  · have hold : b ∈ x.produced → ∃ δ, P.crdt.decode b = some δ ∧
        (∀ w ∈ P.crdt.deltaWrites δ, Covers (P.crdt.deltaVv δ) w.dot) ∧
        ∀ r, P.crdt.deltaVv δ r ≤ P.crdt.versionVector (x'.doc r) r := by
      intro hb
      obtain ⟨δ, hδ, hcov, hown⟩ := hi.deltas b hb
      exact ⟨δ, hδ, hcov, fun r => (hown r).trans (step_vv_mono h r r)⟩
    rcases step_produced h with hsame | ⟨r, v, hnew⟩
    · rw [hsame] at hb
      exact hold hb
    · rw [hnew, List.mem_append, List.mem_singleton] at hb
      rcases hb with hb | rfl
      · exact hold hb
      · refine ⟨_, P.crdt.decode_encode _, fun w hw => ?_, fun s => ?_⟩
        · rw [P.crdt.deltaWrites_since] at hw
          rw [P.crdt.deltaVv_since]
          exact hi.docs r w hw.1
        · rw [P.crdt.deltaVv_since]
          exact (hi.own s r).trans (step_vv_mono h s s)
  · rcases hi.step_new h w hw with hold | ⟨-, A, -, hpast⟩
    · exact (hi.past w hold r).trans (step_vv_mono h r r)
    · exact (hpast r).trans (hi.step_own h r _)

end Timed

theorem timed_start : Timed (start : Exchange P) := by
  refine ⟨fun r => ⟨P.crdt.replica_new r, rfl⟩, fun r w hw => ?_, fun b hb => ?_, fun r s => ?_,
    fun w hw => ?_, fun u hu => ?_⟩
  · simp [doc, start, Membership.new] at hw
  · exact absurd hb List.not_mem_nil
  · simp [doc, start, Membership.new]
  · rw [pool_start] at hw
    exact absurd hw (Set.notMem_empty w)
  · rw [pool_start] at hu
    exact absurd hu (Set.notMem_empty u)

theorem timed_reach {C : Exchange P → ExchangeOp P → Prop} (h : (system P).Reach C x) : Timed x :=
  h.invariant (fun _ h₀ => h₀ ▸ timed_start) fun _ _ _ hi _ hs => hi.step hs

theorem sound_reach (h : (system P).Reach (fun _ op => op.PlainIds) x) : Sound x :=
  h.invariant (fun _ h₀ => h₀ ▸ sound_start) fun _ _ _ hi hop hs => hi.step hop hs

theorem writes_subset_leads {C : Exchange P → ExchangeOp P → Prop} (h : (system P).Leads C x x')
    (r : String) : P.crdt.writes (x.doc r) ⊆ P.crdt.writes (x'.doc r) :=
  h.preserves (I := fun y => P.crdt.writes (x.doc r) ⊆ P.crdt.writes (y.doc r))
    (fun _ _ _ hi _ hs => hi.trans (writes_subset_step hs r)) subset_rfl

end Exchange

/-! ## The change of the member list -/

/-- Each id whose membership changed is reported once, with the address it is listed
with, and nothing else is. -/
def ReportsChange (before after : Membership P) (changes : List MembershipChange) : Prop :=
  (changes.map MembershipChange.nodeId).Nodup ∧ ∀ c, c ∈ changes ↔
    (c.event = .nodeJoined ∧ ¬ before.Lists c.nodeId ∧
      ∃ info ∈ after.members, info.nodeId = c.nodeId ∧ c.addr = P.printAddr info.addr) ∨
    (c.event = .nodeLeft ∧ ¬ after.Lists c.nodeId ∧
      ∃ info ∈ before.members, info.nodeId = c.nodeId ∧ c.addr = P.printAddr info.addr)

theorem nodup_diffMembers (before after : StrMap String) :
    ((diffMembers before after).map MembershipChange.nodeId).Nodup := by
  rw [List.nodup_iff_count_le_one]
  intro id
  have hcount : ((diffMembers before after).map MembershipChange.nodeId).count id =
      (eventsOf id (diffMembers before after)).length := by
    rw [eventsOf, List.length_map, ← List.countP_eq_length_filter, List.count, List.countP_map]
    rfl
  rw [hcount, eventsOf_diffMembers]
  split_ifs <;> simp

theorem mem_diffMembers {before after : StrMap String} {c : MembershipChange} :
    c ∈ diffMembers before after ↔
      (c.event = .nodeJoined ∧ c.nodeId ∉ before ∧ after.lookup c.nodeId = some c.addr) ∨
      (c.event = .nodeLeft ∧ c.nodeId ∉ after ∧ before.lookup c.nodeId = some c.addr) := by
  have hpart : ∀ (m m' : StrMap String) (ev : MembershipEvent),
      c ∈ ((m.entries.filter fun e => e.1 ∉ m').map fun e => ⟨ev, e.1, e.2⟩) ↔
        c.event = ev ∧ c.nodeId ∉ m' ∧ m.lookup c.nodeId = some c.addr := by
    intro m m' ev
    rw [List.mem_map]
    constructor
    · rintro ⟨e, he, rfl⟩
      rw [List.mem_filter, decide_eq_true_iff] at he
      exact ⟨rfl, he.2, AList.mem_lookup_iff.mpr he.1⟩
    · rintro ⟨rfl, hnot, hlookup⟩
      refine ⟨⟨c.nodeId, c.addr⟩, ?_, rfl⟩
      rw [List.mem_filter, decide_eq_true_iff]
      exact ⟨AList.mem_lookup_iff.mp hlookup, hnot⟩
  rw [diffMembers, List.mem_append, hpart, hpart]

namespace Membership
variable {m m' : Membership P}

/-- The address string kept for an id is the printed address it is listed with. -/
theorem Plain.lookup_memberIds_iff (hm : m.Plain) {id addr : String} :
    m.memberIds.lookup id = some addr ↔
      ∃ info ∈ m.members, info.nodeId = id ∧ addr = P.printAddr info.addr := by
  rw [lookup_memberIds hm.paths, Option.bind_eq_some_iff]
  constructor
  · rintro ⟨val, hval, haddr⟩
    rcases hm.values id val hval with rfl | ⟨a, metadata, joinedAt, rfl⟩
    · cases haddr
    · cases haddr
      refine ⟨⟨id, a, metadata, joinedAt, m.nodeServices id⟩, ?_, rfl, rfl⟩
      exact (mem_members hm.paths).mpr ⟨_, hval, nodeInfo_nodeRecord m id a metadata joinedAt⟩
  · rintro ⟨info, hinfo, rfl, rfl⟩
    obtain ⟨val, hval, hinfo⟩ := (mem_members hm.paths).mp hinfo
    rcases hm.values _ val hval with rfl | ⟨a, metadata, joinedAt, rfl⟩
    · cases hinfo
    · rw [nodeInfo_nodeRecord, Option.some.injEq] at hinfo
      rw [← hinfo]
      exact ⟨_, hval, rfl⟩

theorem reportsChange_diffMembers (hm : m.Plain) (hm' : m'.Plain) :
    ReportsChange m m' (diffMembers m.memberIds m'.memberIds) := by
  refine ⟨nodup_diffMembers _ _, fun c => ?_⟩
  rw [mem_diffMembers, hm.mem_memberIds, hm'.mem_memberIds, hm.lookup_memberIds_iff,
    hm'.lookup_memberIds_iff]

theorem diffMembers_self (ids : StrMap String) : diffMembers ids ids = [] := by
  rw [List.eq_nil_iff_forall_not_mem]
  intro c hc
  rcases mem_diffMembers.mp hc with ⟨-, hnot, hlookup⟩ | ⟨-, hnot, hlookup⟩
  · exact hnot (AList.lookup_isSome.mp (by rw [hlookup]; rfl))
  · exact hnot (AList.lookup_isSome.mp (by rw [hlookup]; rfl))

/-- A delta whose writes are all there is merged without effect. -/
theorem mergeRemote_known {b : P.crdt.Encoded} {δ : P.crdt.Delta} (hδ : P.crdt.decode b = some δ)
    (hid : DotsIdentify (P.crdt.writes m.doc))
    (hknown : P.crdt.deltaWrites δ ⊆ P.crdt.writes m.doc) :
    ∃ m', m.mergeRemote b = some (m', []) ∧ m'.members = m.members := by
  have hwrites : P.crdt.writes m.doc = P.crdt.writes (P.crdt.mergeDelta m.doc δ) := by
    rw [P.crdt.writes_merge, Set.union_eq_self_of_subset_right hknown]
  have hmat := P.crdt.materialize_congr _ _ hid hwrites
  refine ⟨⟨P.crdt.mergeDelta m.doc δ, m.nodeId⟩, ?_, (members_congr hmat).symm⟩
  have hids : memberIds ⟨P.crdt.mergeDelta m.doc δ, m.nodeId⟩ = m.memberIds := by
    rw [memberIds, memberIds, hmat]
  rw [mergeRemote, hδ]
  simp only [Option.bind_eq_bind, Option.bind_some, hids, diffMembers_self]
  rfl

end Membership

namespace Exchange
variable {x : Exchange P}

/-- A merge reports exactly the change of the member list. Merged again, after any
further operations and merges, the delta is reported as no change and changes none. -/
theorem mergeRemote_reports (hx : (system P).Reach (fun _ op => op.PlainIds) x) (r : String)
    {i : ℕ} {b : P.crdt.Encoded} (hb : x.produced[i]? = some b) :
    ∃ x' changes, (system P).step x (.mergeRemote r i) = some x' ∧
      (x.replica r).mergeRemote b = some (x'.replica r, changes) ∧
      ReportsChange (x.replica r) (x'.replica r) changes ∧
      ∀ y, (system P).Leads (fun _ op => op.PlainIds) x' y →
        ∃ m, (y.replica r).mergeRemote b = some (m, []) ∧
          m.members = (y.replica r).members := by
  obtain ⟨δ, hδ, -⟩ := (timed_reach hx).deltas b (List.mem_of_getElem? hb)
  have hmerge : (x.replica r).mergeRemote b =
      some (⟨P.crdt.mergeDelta (x.doc r) δ, (x.replica r).nodeId⟩,
        diffMembers (x.replica r).memberIds
          (Membership.memberIds ⟨P.crdt.mergeDelta (x.doc r) δ, (x.replica r).nodeId⟩)) := by
    rw [Membership.mergeRemote, hδ]
    rfl
  have hstep : (system P).step x (.mergeRemote r i) =
      some (x.setReplica r ⟨P.crdt.mergeDelta (x.doc r) δ, (x.replica r).nodeId⟩) := by
    change (x.produced[i]?).bind _ = _
    rw [hb, Option.bind_some, hmerge]
    rfl
  have hself := x.setReplica_self r ⟨P.crdt.mergeDelta (x.doc r) δ, (x.replica r).nodeId⟩
  have hop : (ExchangeOp.mergeRemote r i : ExchangeOp P).PlainIds := trivial
  have hsound := (sound_reach hx).step hop hstep
  refine ⟨_, _, hstep, by rw [hself, hmerge], ?_, fun y hy => ?_⟩
  · rw [hself]
    have hplain := hsound.plain r
    rw [hself] at hplain
    exact Membership.reportsChange_diffMembers ((sound_reach hx).plain r) hplain
  · have hreach := (hx.leads (.single ⟨_, hop, hstep⟩)).leads hy
    refine Membership.mergeRemote_known hδ ((timed_reach hreach).settled r).identify ?_
    refine Set.Subset.trans ?_ (writes_subset_leads hy r)
    rw [doc, hself, P.crdt.writes_merge]
    exact Set.subset_union_right

section
open Reference

/-- Replica `a` has added itself and produced its delta. -/
def offered : Exchange platform :=
  ((system platform).run start known.dropLast).get (by decide +kernel)

theorem offered_reach : (system platform).Reach (fun _ op => op.PlainIds) offered :=
  ⟨start, rfl, .of_run (Option.some_get _).symm
    (System.meets_of_mem (by simp [known, ExchangeOp.PlainIds, PlainName]))⟩

/-- The delta is merged at `b`, which reports `a`. After `b` has removed `a` it is merged
again, and nothing is reported. -/
theorem mergeRemote_reports_join : ∃ (b : platform.crdt.Encoded) (x' y : Exchange platform)
    (changes : List MembershipChange),
    (system platform).Reach (fun _ op => op.PlainIds) offered ∧ offered.produced[0]? = some b ∧
      (system platform).step offered (.mergeRemote "b" 0) = some x' ∧
      changes = [⟨.nodeJoined, "a", "10.0.0.1:4369"⟩] ∧
      ReportsChange (offered.replica "b") (x'.replica "b") changes ∧
      (system platform).step x' (.removeNode "b" "a") = some y ∧
      ∃ m, (y.replica "b").mergeRemote b = some (m, []) ∧ m.members = (y.replica "b").members := by
  obtain ⟨b, hb⟩ := Option.isSome_iff_exists.mp
    (by decide +kernel : (offered.produced[0]?).isSome = true)
  obtain ⟨x', changes, hstep, hmerge, hreports, hagain⟩ :=
    mergeRemote_reports offered_reach "b" hb
  have hchanges : ((offered.produced[0]?).bind (offered.replica "b").mergeRemote).map Prod.snd =
      some [⟨.nodeJoined, "a", "10.0.0.1:4369"⟩] := by
    decide +kernel
  rw [hb, Option.bind_some, hmerge, Option.map_some, Option.some.injEq] at hchanges
  have hplain : (ExchangeOp.removeNode "b" "a" : ExchangeOp platform).PlainIds := by
    simp [ExchangeOp.PlainIds, PlainName]
  exact ⟨b, x', _, changes, offered_reach, hb, hstep, hchanges, hreports, rfl,
    hagain _ (.single ⟨.removeNode "b" "a", hplain, rfl⟩)⟩

end

end Exchange
end Pmd
