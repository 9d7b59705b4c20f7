import Pmd.Membership.Entries

/-!
# The two views of the services

`members` lists the services of a node that have a port. `lookup_service` takes every
entry of the name, with port 0 where there is none, for every node that has an address.
The two agree exactly if no such entry lacks a port. A tombstone does: a node that is
removed and added again is looked up under the services it had.
-/
namespace Pmd
open Foundation

variable {P : Platform}

/-- The address a node's value is read to. -/
def valueAddr (P : Platform) (val : Json) : Option P.Addr :=
  ((val.get "addr").bind Json.asStr).bind P.parseAddr

def valuePort (entry : Json) : Option ℕ := (entry.get "port").bind Json.asU64

theorem serviceInfo_eq_some {name : String} {val : Json} {svc : ServiceInfo} :
    serviceInfo name val = some svc ↔ ∃ port, valuePort val = some port ∧
      svc = ⟨name, port.toUInt16, parseMetadata (val.get "metadata")⟩ := by
  rw [serviceInfo, valuePort]
  constructor
  · intro h
    obtain ⟨j, hj, h⟩ := Option.bind_eq_some_iff.mp h
    obtain ⟨port, hport, h⟩ := Option.bind_eq_some_iff.mp h
    cases h
    exact ⟨port, Option.bind_eq_some_iff.mpr ⟨j, hj, hport⟩, rfl⟩
  · rintro ⟨port, hport, rfl⟩
    obtain ⟨j, hj, hport⟩ := Option.bind_eq_some_iff.mp hport
    exact Option.bind_eq_some_iff.mpr ⟨j, hj, Option.bind_eq_some_iff.mpr ⟨port, hport, rfl⟩⟩

namespace Membership
variable {m : Membership P}

theorem nodeInfo_eq_some {id : String} {val : Json} {info : NodeInfo P} :
    m.nodeInfo id val = some info ↔ isDead val = false ∧ ∃ addr joined,
      valueAddr P val = some addr ∧ val.get "joined_at" = some joined ∧
        info = ⟨id, addr, parseMetadata (val.get "metadata"), joined.asU64.getD 0,
          m.nodeServices id⟩ := by
  rw [nodeInfo, valueAddr]
  constructor
  · intro h
    split at h
    · cases h
    · rename_i hdead
      obtain ⟨j, hj, h⟩ := Option.bind_eq_some_iff.mp h
      obtain ⟨s, hs, h⟩ := Option.bind_eq_some_iff.mp h
      obtain ⟨addr, haddr, h⟩ := Option.bind_eq_some_iff.mp h
      obtain ⟨joined, hjoined, h⟩ := Option.bind_eq_some_iff.mp h
      cases h
      refine ⟨eq_false_of_ne_true hdead, addr, joined, ?_, hjoined, rfl⟩
      rw [hj, Option.bind_some, hs, Option.bind_some, haddr]
  · rintro ⟨hdead, addr, joined, haddr, hjoined, rfl⟩
    obtain ⟨s, hs, haddr⟩ := Option.bind_eq_some_iff.mp haddr
    obtain ⟨j, hj, hs⟩ := Option.bind_eq_some_iff.mp hs
    rw [hdead, hj, hjoined]
    simp only [Bool.false_eq_true, if_false, Option.bind_eq_bind, Option.bind_some, hs, haddr]
    rfl

theorem nodeAddr_eq_some {id : String} {addr : P.Addr} : m.nodeAddr id = some addr ↔
    ∃ val, m.found ["nodes", id] = some val ∧ valueAddr P val = some addr := by
  rw [nodeAddr]
  cases m.found ["nodes", id] with
  | none => simp
  | some val => simp [valueAddr]

theorem entryPort_of_valuePort {entry : Json} {port : ℕ} (h : valuePort entry = some port) :
    entryPort entry = port.toUInt16 := by
  rw [valuePort] at h
  rw [entryPort, h, Option.getD_some]

/-- A lookup returns each service of that name of a listed node once, and nothing else. -/
def ViewsAgree (m : Membership P) : Prop :=
  ∀ name, (m.lookupService name).Nodup ∧ ∀ t, t ∈ m.lookupService name ↔
    ∃ info ∈ m.members, ∃ svc ∈ info.services, svc.name = name ∧
      t = (info.nodeId, info.addr, svc.port, svc.metadata)

/-- Wherever the document has an address for a node and an entry for one of its services,
the node is alive with the time it joined, and the entry has a port. -/
def Readable (m : Membership P) : Prop :=
  ∀ id name val entry, m.found ["nodes", id] = some val → (valueAddr P val).isSome →
    m.found ["services", id, name] = some entry →
      (isDead val = false ∧ (val.get "joined_at").isSome) ∧ (valuePort entry).isSome

/-- What a lookup returns, by the values it reads. -/
theorem Mapped.mem_lookup_iff (hm : m.Mapped) {name : String}
    {t : String × P.Addr × UInt16 × StrMap String} : t ∈ m.lookupService name ↔
      ∃ val entry, m.found ["nodes", t.1] = some val ∧
        m.found ["services", t.1, name] = some entry ∧ valueAddr P val = some t.2.1 ∧
        t.2.2 = (entryPort entry, parseMetadata (entry.get "metadata")) := by
  rw [hm.mem_lookupService]
  constructor
  · rintro ⟨entry, addr, hentry, haddr, ht⟩
    obtain ⟨val, hval, haddr⟩ := nodeAddr_eq_some.mp haddr
    rw [ht]
    exact ⟨val, entry, hval, hentry, haddr, rfl⟩
  · rintro ⟨val, entry, hval, hentry, haddr, ht⟩
    refine ⟨entry, t.2.1, hentry, nodeAddr_eq_some.mpr ⟨val, hval, haddr⟩, ?_⟩
    rw [← ht]

/-- What the services of the members amount to: the members and their services are read
from the same values, if these pass the tests of `members` and `node_services`. -/
theorem Mapped.mem_services_iff (hm : m.Mapped) {name : String}
    {t : String × P.Addr × UInt16 × StrMap String} :
    (∃ info ∈ m.members, ∃ svc ∈ info.services, svc.name = name ∧
      t = (info.nodeId, info.addr, svc.port, svc.metadata)) ↔
      ∃ val entry, m.found ["nodes", t.1] = some val ∧
        m.found ["services", t.1, name] = some entry ∧ valueAddr P val = some t.2.1 ∧
        t.2.2 = (entryPort entry, parseMetadata (entry.get "metadata")) ∧
        (isDead val = false ∧ (val.get "joined_at").isSome) ∧ (valuePort entry).isSome := by
  constructor
  · rintro ⟨info, hinfo, svc, hsvc, rfl, rfl⟩
    obtain ⟨val, hval, hinfo⟩ := hm.mem_members.mp hinfo
    obtain ⟨hdead, addr, joined, haddr, hjoined, hinfo⟩ := nodeInfo_eq_some.mp hinfo
    rw [hinfo] at hsvc
    obtain ⟨entry, hentry, hsvc⟩ := hm.mem_nodeServices.mp hsvc
    obtain ⟨port, hport, hsvc⟩ := serviceInfo_eq_some.mp hsvc
    refine ⟨val, entry, hval, hentry, by rw [haddr, hinfo], ?_,
      ⟨hdead, Option.isSome_of_eq_some hjoined⟩, Option.isSome_of_eq_some hport⟩
    rw [hsvc, entryPort_of_valuePort hport]
  · rintro ⟨val, entry, hval, hentry, haddr, ht, ⟨hdead, hjoined⟩, hport⟩
    obtain ⟨joined, hjoined⟩ := Option.isSome_iff_exists.mp hjoined
    obtain ⟨port, hport⟩ := Option.isSome_iff_exists.mp hport
    have hinfo : (⟨t.1, t.2.1, parseMetadata (val.get "metadata"), joined.asU64.getD 0,
        m.nodeServices t.1⟩ : NodeInfo P) ∈ m.members :=
      hm.mem_members.mpr ⟨val, hval,
        nodeInfo_eq_some.mpr ⟨hdead, t.2.1, joined, haddr, hjoined, rfl⟩⟩
    have hsvc : (⟨name, port.toUInt16, parseMetadata (entry.get "metadata")⟩ : ServiceInfo) ∈
        m.nodeServices t.1 :=
      hm.mem_nodeServices.mpr ⟨entry, hentry, serviceInfo_eq_some.mpr ⟨port, hport, rfl⟩⟩
    refine ⟨_, hinfo, _, hsvc, rfl, ?_⟩
    rw [← entryPort_of_valuePort hport, ← ht]

theorem Mapped.viewsAgree_iff (hm : m.Mapped) : m.ViewsAgree ↔ m.Readable := by
  constructor
  · intro h id name val entry hval haddr hentry
    obtain ⟨addr, haddr⟩ := Option.isSome_iff_exists.mp haddr
    have hlookup : (id, addr, entryPort entry, parseMetadata (entry.get "metadata")) ∈
        m.lookupService name :=
      hm.mem_lookup_iff.mpr ⟨val, entry, hval, hentry, haddr, rfl⟩
    obtain ⟨val', entry', hval', hentry', -, -, htests⟩ :=
      hm.mem_services_iff.mp (((h name).2 _).mp hlookup)
    rw [hval, Option.some.injEq] at hval'
    rw [hentry, Option.some.injEq] at hentry'
    subst hval' hentry'
    exact htests
  · intro h name
    refine ⟨.of_map _ (hm.nodup_lookupService name), fun t => ?_⟩
    rw [hm.mem_lookup_iff, hm.mem_services_iff]
    constructor
    · rintro ⟨val, entry, hval, hentry, haddr, ht⟩
      exact ⟨val, entry, hval, hentry, haddr, ht,
        h t.1 name val entry hval (Option.isSome_of_eq_some haddr) hentry⟩
    · rintro ⟨val, entry, hval, hentry, haddr, ht, -⟩
      exact ⟨val, entry, hval, hentry, haddr, ht⟩

/-! ## Tombstones of services -/

theorem serviceRecord_ne_deadMarker (port : UInt16) (metadata : StrMap String) :
    serviceRecord port metadata ≠ deadMarker := by
  intro h
  have hport : valuePort deadMarker = some port.toNat := by
    rw [← h]
    rfl
  cases hport

/-- The document shows no tombstone of a service of a listed node. -/
def NoDeadService (m : Membership P) : Prop :=
  ∀ id name, m.Lists id → P.crdt.shown m.doc ["services", id, name] ≠ some deadMarker

namespace Flat
variable (hm : m.Flat)
include hm

theorem plain : m.Plain := by
  refine ⟨fun p hp => ?_, fun id val hval => ?_⟩
  · obtain ⟨v, hv⟩ := Option.isSome_iff_exists.mp hp
    rcases (hm p v hv).path with ⟨id, rfl⟩ | ⟨id, name, rfl⟩
    · exact .inl ⟨id, rfl⟩
    · exact .inr ⟨[id, name], rfl⟩
  · simpa using (hm _ val hval).node id rfl

theorem readable_iff : m.Readable ↔ m.NoDeadService := by
  constructor
  · intro h id name hlists hdead
    obtain ⟨addr, metadata, joinedAt, hshown⟩ := hm.plain.lists_iff.mp hlists
    have haddr : valueAddr P (nodeRecord addr metadata joinedAt) = some addr := P.parse_print addr
    obtain ⟨-, hport⟩ := h id name _ deadMarker (by rw [hm.found_node, hshown])
      (Option.isSome_of_eq_some haddr) (by rw [hm.found_service, hdead])
    cases hport
  · intro h id name val entry hval haddr hentry
    rw [hm.found_node] at hval
    rw [hm.found_service] at hentry
    rcases hm.plain.values id val hval with rfl | ⟨addr, metadata, joinedAt, rfl⟩
    · cases haddr
    · refine ⟨⟨rfl, rfl⟩, ?_⟩
      have hlists : m.Lists id := hm.plain.lists_iff.mpr ⟨addr, metadata, joinedAt, hval⟩
      rcases (hm _ _ hentry).service id name rfl with hnone | hdead | ⟨port, metadata, hrec⟩
      · cases hnone
      · exact absurd (hentry.trans hdead) (h id name hlists)
      · cases hrec
        rfl

end Flat
end Membership

namespace Exchange
variable {x : Exchange P}

/-- In a reachable document the two views agree exactly if it is readable. With ids and
names that are single keys that is to say that it shows no tombstone of a service of a
listed node. -/
theorem viewsAgree_iff_readable (hx : (system P).Reach System.any x) (r : String) :
    ((x.replica r).ViewsAgree ↔ (x.replica r).Readable) ∧
      ((system P).Reach (fun _ op => op.PlainNames) x →
        ((x.replica r).ViewsAgree ↔ (x.replica r).NoDeadService)) := by
  have hviews := (mapped_reach hx r).viewsAgree_iff
  refine ⟨hviews, fun hplain => ?_⟩
  rw [hviews, (flat_reach hplain r).readable_iff]

section
open Reference

/-- Replica `a` has a service. -/
def serving : List (ExchangeOp platform) :=
  [.addNode "a" "a" (addr 1) ∅ 0, .registerService "a" "web" 80 ∅]

/-- It is removed, and added again. -/
def returning : List (ExchangeOp platform) :=
  serving ++ [.removeNode "a" "a", .addNode "a" "a" (addr 1) ∅ 1]

/-- The views agree on a registered service. -/
theorem viewsAgree_iff_readable_serving : ∃ x : Exchange platform,
    (system platform).run start serving = some x ∧ (x.replica "a").ViewsAgree := by
  have hplain : (system platform).Meets (fun _ op => op.PlainNames) start serving :=
    System.meets_of_mem (by simp [serving, ExchangeOp.PlainNames, PlainName])
  have hreach : (system platform).Reach (fun _ op => op.PlainNames) _ :=
    ⟨start, rfl, .of_run rfl hplain⟩
  refine ⟨_, rfl, ((viewsAgree_iff_readable (hreach.mono fun _ _ _ => trivial) "a").2
    hreach).mpr fun id name _ hdead => ?_⟩
  obtain ⟨w, hw, -, hv⟩ := platform.crdt.exists_write_of_shown (Option.isSome_of_eq_some hdead)
  rw [hdead] at hv
  rcases List.mem_cons.mp hw.1 with rfl | hw
  · exact Membership.serviceRecord_ne_deadMarker _ _ (Option.some.inj hv).symm
  · rw [List.mem_singleton.mp hw] at hv
    exact Membership.nodeRecord_ne_deadMarker _ _ _ (Option.some.inj hv).symm

/-- After the return of the node, a lookup of the service it had finds it at port 0,
while no node has a service. -/
theorem returning_views_differ : ∃ x : Exchange platform,
    (system platform).Reach System.any x ∧ ¬ (x.replica "a").ViewsAgree := by
  have heval : (((system platform).guard fun _ _ => true).run start returning).any
      (fun x => !((x.replica "a").lookupService "web").isEmpty &&
        (x.replica "a").members.all fun info => info.services.isEmpty) = true := by
    decide +kernel
  obtain ⟨x, hx, hdiffer⟩ := System.Leads.of_eval (C := System.any) heval fun _ _ _ => trivial
  refine ⟨x, ⟨start, rfl, hx⟩, fun h => ?_⟩
  rw [Bool.and_eq_true] at hdiffer
  cases hlookup : (x.replica "a").lookupService "web" with
  | nil =>
    rw [hlookup] at hdiffer
    exact absurd hdiffer.1 (by decide)
  | cons t _ =>
    obtain ⟨info, hinfo, svc, hsvc, -⟩ := ((h "web").2 t).mp (by simp [hlookup])
    have hempty := List.all_eq_true.mp hdiffer.2 info hinfo
    rw [List.isEmpty_iff] at hempty
    rw [hempty] at hsvc
    cases hsvc

end

end Exchange
end Pmd
