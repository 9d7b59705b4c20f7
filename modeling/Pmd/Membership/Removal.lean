import Pmd.Membership.Registry

/-!
# What `remove_node` removes

The node is tombstoned, then the services that are read from the changed document. Each
tombstone replaces what is found at its path and leaves what stands beside it, so the node
and all its services are gone from every view and nothing else is.
-/
namespace Pmd
open Foundation

variable {P : Platform}

namespace Membership
variable {m m' : Membership P}

theorem SameBut.mono {L L' : Path} (h : SameBut L' m m') (hL : L <+: L') : SameBut L m m' :=
  fun p hp => h p fun hpre => hp (hL.trans hpre)

/-- After the loop of `remove_node` a tombstone is found in place of each given service, and
beside these services what has been there. -/
structure LoopedOver (n : String) (svcs : List ServiceInfo) (m m' : Membership P) : Prop where
  orderly : m'.Orderly
  dead : ∀ svc ∈ svcs, m'.found ["services", n, svc.name] = some deadMarker
  others : ∀ name, (∀ svc ∈ svcs, svc.name ≠ name) →
    m'.found ["services", n, name] = m.found ["services", n, name]
  kept : SameBut ["services", n] m m'

namespace Orderly
variable {n : String}

/-- A tombstone replaces what is found at its path. -/
theorem found_tombstone (hm : m.Orderly) (hK : P.crdt.SetReplaces) {path : String} {L : Path}
    (hL : splitPath path = L) : (m.tombstone path).found L = some deadMarker := by
  subst hL
  exact hK m.doc path deadMarker hm.settled

theorem sameBut_tombstone (hm : m.Orderly) (hK : P.crdt.PathLocal) {path : String} {L : Path}
    (hL : splitPath path = L) : SameBut L m (m.tombstone path) :=
  sameBut_of_appended hK hm.settled hL (m.appended_tombstone path)

variable (hK : P.crdt.Hierarchical)
include hK

theorem loopedOver (hn : PlainName n) {svcs : List ServiceInfo}
    (hsvcs : ∀ svc ∈ svcs, PlainName svc.name) (hm : m.Orderly) :
    LoopedOver n svcs m
      (svcs.foldl (fun m svc => m.tombstone (servicePath n svc.name)) m) := by
  induction svcs generalizing m with
  | nil => exact ⟨hm, fun _ h => absurd h List.not_mem_nil, fun _ _ => rfl, fun _ _ => rfl⟩
  | cons svc svcs ih =>
    have hpath := splitPath_plainService hn (hsvcs svc List.mem_cons_self)
    have hset := hm.sameBut_tombstone hK.path hpath
    have hfound := hm.found_tombstone hK.replaces hpath
    have hrest := ih (fun s hs => hsvcs s (List.mem_cons_of_mem _ hs))
      (hm.tombstone_service (splitPath_ne_nil hn) svc.name)
    refine ⟨hrest.orderly, fun s hs => ?_, fun name hname => ?_,
      (hset.mono (by simp)).trans hrest.kept⟩
    · by_cases hlater : ∃ s' ∈ svcs, s'.name = s.name
      · obtain ⟨s', hs', hname⟩ := hlater
        rw [← hname]
        exact hrest.dead s' hs'
      · push Not at hlater
        rcases List.mem_cons.mp hs with rfl | hs
        · exact (hrest.others s.name hlater).trans hfound
        · exact absurd rfl (hlater s hs)
    · have hne := hname svc List.mem_cons_self
      refine (hrest.others name fun s hs => hname s (List.mem_cons_of_mem _ hs)).trans ?_
      exact hset.found hK.subtree (by simp [hne]) (by simp [hne.symm])

end Orderly

/-! ## The views after a removal -/

/-- The views of `m'` are those of `m` without node `n`. -/
structure Without (n : String) (m m' : Membership P) : Prop where
  members : m'.members = m.members.filter fun info => info.nodeId ≠ n
  lookups : ∀ name, m'.lookupService name = (m.lookupService name).filter fun t => t.1 ≠ n
  services : m'.nodeServices n = []
  others : ∀ id, id ≠ n → m'.nodeServices id = m.nodeServices id

/-- Documents that differ only in the entries of node `n`, for which the second has a
tombstone. -/
structure DiffersAt (n : String) (m m' : Membership P) : Prop where
  orderly : m.Orderly
  orderly' : m'.Orderly
  dead : m'.found ["nodes", n] = some deadMarker
  kept : ∀ p, ¬ ["nodes", n] <+: p → ¬ ["services", n] <+: p →
    P.crdt.shown m'.doc p = P.crdt.shown m.doc p

namespace DiffersAt
variable {n id : String} (h : DiffersAt n m m') (hK : P.crdt.SubtreeLocal)
include h

theorem nodeAddr_self : m'.nodeAddr n = none := by
  rw [nodeAddr, h.dead]
  rfl

theorem not_mem_members {info : NodeInfo P} (hinfo : info ∈ m'.members) : info.nodeId ≠ n := by
  intro hid
  have haddr := h.orderly'.mapped.nodeAddr_of_mem hinfo
  rw [hid, h.nodeAddr_self] at haddr
  cases haddr

include hK

/-- The entries of another node. -/
theorem found_other (hne : id ≠ n) (top : String) : m'.found [top, id] = m.found [top, id] := by
  have hapart : ∀ {top' : String} {p : Path}, p <+: [top, id] ∨ [top, id] <+: p →
      ¬ [top', n] <+: p := by
    intro top' p hp hpre
    have hids : [top', n] <+: [top, id] := by
      rcases hp with hp | hp
      · exact hpre.trans hp
      · exact List.prefix_of_prefix_length_le hpre hp le_rfl
    cases hids.eq_of_length rfl
    exact hne rfl
  exact hK _ _ _ fun p hp => h.kept p (hapart hp) (hapart hp)

theorem nodeServices (hne : id ≠ n) : m'.nodeServices id = m.nodeServices id := by
  rw [nodeServices_eq_found, nodeServices_eq_found, membersAt, membersAt,
    h.found_other hK hne]

theorem nodeAddr (hne : id ≠ n) : m'.nodeAddr id = m.nodeAddr id := by
  rw [Membership.nodeAddr, Membership.nodeAddr, h.found_other hK hne]

theorem nodeInfo (hne : id ≠ n) (val : Json) : m'.nodeInfo id val = m.nodeInfo id val := by
  rw [Membership.nodeInfo, Membership.nodeInfo, h.nodeServices hK hne]

theorem mem_members {info : NodeInfo P} :
    info ∈ m'.members ↔ info ∈ m.members ∧ info.nodeId ≠ n := by
  by_cases hne : info.nodeId = n
  · exact ⟨fun hinfo => absurd hne (h.not_mem_members hinfo), fun hinfo => absurd hne hinfo.2⟩
  · rw [h.orderly'.mapped.mem_members, h.orderly.mapped.mem_members, h.found_other hK hne]
    simp only [h.nodeInfo hK hne, hne, ne_eq, not_false_eq_true, and_true]

theorem mem_lookupService {name : String} {t : String × P.Addr × UInt16 × StrMap String} :
    t ∈ m'.lookupService name ↔ t ∈ m.lookupService name ∧ t.1 ≠ n := by
  rw [h.orderly'.mapped.mem_lookupService, h.orderly.mapped.mem_lookupService]
  by_cases hne : t.1 = n
  · rw [hne, h.nodeAddr_self]
    simp
  · rw [found_service, h.found_other hK hne, ← found_service, h.nodeAddr hK hne]
    simp [hne]

end DiffersAt

theorem DiffersAt.without {n : String} (h : DiffersAt n m m') (hK : P.crdt.Hierarchical)
    (hservices : m'.nodeServices n = []) : Without n m m' := by
  have hbefore := h.orderly.isInner_top
  have hafter := h.orderly'.isInner_top
  refine ⟨?_, fun name => ?_, hservices, fun id hne => h.nodeServices hK.subtree hne⟩
  · refine eq_of_sorted_keys NodeInfo.nodeId (sorted_members hK.sorted (hafter "nodes"))
      ((sorted_members hK.sorted (hbefore "nodes")).sublist (List.filter_sublist.map _))
      fun info => ?_
    rw [h.mem_members hK.subtree, List.mem_filter, decide_eq_true_iff]
  · refine eq_of_sorted_keys Prod.fst (sorted_lookupService hK.sorted (hafter "services") name)
      ((sorted_lookupService hK.sorted (hbefore "services") name).sublist
        (List.filter_sublist.map _)) fun t => ?_
    rw [h.mem_lookupService hK.subtree, List.mem_filter, decide_eq_true_iff]

theorem Orderly.without_removeNode (hK : P.crdt.Hierarchical) (hm : m.Orderly) {n : String}
    (hn : PlainName n) : Without n m (m.removeNode n) := by
  have hnode := splitPath_nodePath hn
  have hm₁ := hm.tombstone_node (splitPath_ne_nil hn)
  have hset := hm.sameBut_tombstone hK.path hnode
  have hdead := hm.found_tombstone hK.replaces hnode
  have hloop : LoopedOver n ((m.tombstone (nodePath n)).nodeServices n)
      (m.tombstone (nodePath n)) (m.removeNode n) :=
    hm₁.loopedOver hK hn fun svc hsvc => hm₁.plainName_nodeServices hsvc
  have hdiffers : DiffersAt n m (m.removeNode n) := by
    refine ⟨hm, hloop.orderly, ?_, fun p hp hp' => (hloop.kept p hp').trans (hset p hp)⟩
    rw [hloop.kept.found hK.subtree (by simp) (by simp), hdead]
  refine hdiffers.without hK (List.eq_nil_iff_forall_not_mem.mpr fun svc hsvc => ?_)
  -- A service that is listed afterwards has been listed in the loop, and tombstoned.
  obtain ⟨val, hval, hinfo⟩ := hloop.orderly.mapped.mem_nodeServices.mp hsvc
  by_cases hlisted : ∃ svc' ∈ (m.tombstone (nodePath n)).nodeServices n, svc'.name = svc.name
  · obtain ⟨svc', hsvc', hname⟩ := hlisted
    have hval' := hloop.dead svc' hsvc'
    rw [hname, hval, Option.some.injEq] at hval'
    rw [hval'] at hinfo
    cases hinfo
  · push Not at hlisted
    rw [hloop.others svc.name hlisted] at hval
    exact hlisted svc (hm₁.mapped.mem_nodeServices.mpr ⟨val, hval, hinfo⟩) rfl

end Membership

namespace Exchange
variable {x : Exchange P}

/-- `remove_node` removes one node from every view, and nothing else. -/
theorem removeNode_without (hK : P.crdt.Hierarchical)
    (hx : (system P).Reach (fun _ op => op.KeyedIds) x) (r : String) {n : String}
    (hn : PlainName n) :
    Membership.Without n (x.replica r) ((x.replica r).removeNode n) :=
  (orderly_reach hx r).without_removeNode hK hn

section
open Reference

/-- The node with the service is removed. -/
theorem removeNode_without_serving : ∃ x : Exchange platform,
    (system platform).run start serving = some x ∧
      Membership.Without "a" (x.replica "a") ((x.replica "a").removeNode "a") := by
  obtain ⟨x, hx, hrun, -⟩ := serving_lists
  exact ⟨x, hrun, removeNode_without hierarchical hx "a" (by decide)⟩

end

end Exchange
end Pmd
