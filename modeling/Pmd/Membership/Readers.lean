import Pmd.Membership.Merging

/-!
# What the readers of a document find

`members`, `node_services` and `lookup_service` walk the same snapshot. In terms of
what is found at a path: a member is read from `/nodes/<id>`, a service of a node from
`/services/<id>/<name>`, and a lookup from that path and the address of the node.
Ids and names are any strings here: all that counts is that objects are maps.
-/
namespace Pmd
open Foundation

variable {P : Platform}

/-- No part of a text split at slashes has one. -/
theorem not_mem_of_mem_splitOn {l part : List Char} (h : part ∈ l.splitOn '/') : '/' ∉ part := by
  induction l generalizing part with
  | nil =>
    rw [List.splitOn_nil, List.mem_singleton] at h
    simp [h]
  | cons c l ih =>
    rw [List.splitOn_cons_eq_if_modifyHead] at h
    split at h
    · rcases List.mem_cons.mp h with rfl | h
      · simp
      · exact ih h
    · rename_i hc
      cases hl : l.splitOn '/' with
      | nil => exact absurd hl (List.splitOn_ne_nil _ _)
      | cons first rest =>
        rw [hl] at h
        rcases List.mem_cons.mp h with rfl | h
        · have hfirst : '/' ∉ first := ih (by rw [hl]; exact List.mem_cons_self)
          have hne : '/' ≠ c := fun heq => hc (beq_iff_eq.mpr heq.symm)
          exact List.not_mem_cons_of_ne_of_not_mem hne hfirst
        · exact ih (by rw [hl]; exact List.mem_cons_of_mem _ h)

/-- The keys of a path are what stands between its slashes. -/
theorem plainName_of_mem_splitPath {s k : String} (h : k ∈ splitPath s) : PlainName k := by
  obtain ⟨part, hpart, rfl⟩ := List.mem_map.mp h
  obtain ⟨hsplit, hne⟩ := List.mem_filter.mp hpart
  refine ⟨fun hempty => of_decide_eq_true hne ?_, ?_⟩
  · rw [← String.toList_ofList (l := part), hempty]
    rfl
  · rw [String.toList_ofList]
    exact not_mem_of_mem_splitOn hsplit

namespace Membership

/-- The address `lookup_service` reads for a node. -/
def nodeAddr (m : Membership P) (id : String) : Option P.Addr :=
  (((m.found ["nodes", id]).bind fun val => val.get "addr").bind Json.asStr).bind P.parseAddr

def entryPort (entry : Json) : UInt16 := (((entry.get "port").bind Json.asU64).getD 0).toUInt16

variable {m : Membership P}

theorem found_service (m : Membership P) (id name : String) :
    m.found ["services", id, name] = (m.found ["services", id]).bind fun svcs => svcs.get name := by
  have h := found_concat m ["services", id] name
  rw [membersAt] at h
  cases hsvcs : m.found ["services", id] with
  | none =>
    rw [hsvcs] at h
    exact h
  | some svcs =>
    rw [hsvcs] at h
    exact h

theorem members_eq_found (m : Membership P) :
    m.members = (m.membersAt ["nodes"]).filterMap fun e => m.nodeInfo e.1 e.2 := by
  rw [members_eq, nodeEntries_eq]

theorem nodeServices_eq_found (m : Membership P) (id : String) :
    m.nodeServices id =
      (m.membersAt ["services", id]).filterMap fun e => serviceInfo e.1 e.2 := by
  rw [nodeServices, membersAt, found, Json.descend]
  cases (P.crdt.materialize m.doc).get "services" with
  | none => rfl
  | some j =>
    cases j with
    | object services =>
      simp only [Option.bind_some, Json.descend, Json.get, Json.members]
      cases services.lookup id with
      | none => rfl
      | some j => cases j <;> rfl
    | _ => rfl

theorem nodeAddr_eq (m : Membership P) (id : String) : m.nodeAddr id =
    ((((P.crdt.materialize m.doc).get "nodes").bind fun nodes => nodes.get id).bind fun val =>
      (val.get "addr").bind Json.asStr).bind P.parseAddr := by
  rw [nodeAddr, found, Json.descend]
  cases (P.crdt.materialize m.doc).get "nodes" with
  | none => rfl
  | some j =>
    rw [Option.bind_some, Option.bind_some, Json.descend]
    cases j.get id with
    | none => rfl
    | some val => rfl

theorem lookupService_eq_found (m : Membership P) (name : String) :
    m.lookupService name = (m.membersAt ["services"]).filterMap fun e =>
      (e.2.get name).bind fun entry => (m.nodeAddr e.1).map fun addr =>
        (e.1, addr, entryPort entry, parseMetadata (entry.get "metadata")) := by
  rw [lookupService, membersAt, found, Json.descend]
  simp only [nodeAddr_eq]
  cases (P.crdt.materialize m.doc).get "services" with
  | none => rfl
  | some j =>
    cases (P.crdt.materialize m.doc).get "nodes" with
    | none => cases j <;> simp
    | some nodes =>
      cases j with
      | object services =>
        cases nodes with
        | object nodes =>
          refine List.filterMap_congr fun e _ => ?_
          obtain ⟨nid, svcMap⟩ := e
          cases svcMap with
          | object svcs =>
            simp only [Json.get_object, Option.bind_eq_bind, Option.bind_some]
            cases svcs.lookup name with
            | none => rfl
            | some entry =>
              cases nodes.lookup nid with
              | none => rfl
              | some val =>
                simp only [Option.bind_some]
                cases val.get "addr" with
                | none => rfl
                | some addr =>
                  simp only [Option.bind_some]
                  cases addr.asStr with
                  | none => rfl
                  | some text =>
                    simp only [Option.bind_some]
                    cases P.parseAddr text <;> rfl
          | _ => rfl
        | _ => simp [Json.get, Json.members]
      | _ => simp [Json.descend, Json.members]

theorem lookupService_keys (m : Membership P) (name : String) :
    ((m.lookupService name).map Prod.fst).Sublist ((m.membersAt ["services"]).map Prod.fst) := by
  rw [lookupService_eq_found]
  refine fst_filterMap_sublist (fun e t h => ?_) _
  obtain ⟨entry, -, h⟩ := Option.bind_eq_some_iff.mp h
  obtain ⟨addr, -, rfl⟩ := Option.map_eq_some_iff.mp h
  rfl

theorem IsInner.sorted_keys {q : Path} (h : m.IsInner q) (hK : P.crdt.SortedKeys) :
    ((m.membersAt q).map Prod.fst).Pairwise (· < ·) := by
  rcases h.found_or with ⟨hnone, -⟩ | ⟨obj, hobj, -⟩
  · rw [membersAt, hnone]
    exact .nil
  · rw [membersAt, hobj]
    exact hK m.doc q obj h.2 hobj

/-- Every value the document holds is a tree of maps. -/
def Mapped (m : Membership P) : Prop :=
  ∀ w ∈ P.crdt.writes m.doc, ∀ v ∈ w.value, v.UniqueKeys

namespace Mapped
variable (hm : m.Mapped)
include hm

theorem nodup_membersAt (q : Path) : ((m.membersAt q).map Prod.fst).Nodup := by
  rw [membersAt]
  cases hfound : m.found q with
  | none => exact List.nodup_nil
  | some j =>
    cases j with
    | object obj => exact P.crdt.materialize_unique m.doc hm q obj hfound
    | _ => exact List.nodup_nil

theorem mem_membersAt {q : Path} {k : String} {v : Json} :
    (k, v) ∈ m.membersAt q ↔ m.found (q ++ [k]) = some v := by
  rw [mem_iff_lookup (hm.nodup_membersAt q), found_concat]

theorem mem_members {info : NodeInfo P} : info ∈ m.members ↔
    ∃ val, m.found ["nodes", info.nodeId] = some val ∧
      m.nodeInfo info.nodeId val = some info := by
  rw [members_eq_found, List.mem_filterMap]
  constructor
  · rintro ⟨⟨id, val⟩, hmem, hinfo⟩
    have hid : info.nodeId = id := nodeInfo_nodeId hinfo
    subst hid
    exact ⟨val, hm.mem_membersAt.mp hmem, hinfo⟩
  · rintro ⟨val, hval, hinfo⟩
    exact ⟨_, hm.mem_membersAt.mpr hval, hinfo⟩

theorem mem_nodeServices {id : String} {svc : ServiceInfo} : svc ∈ m.nodeServices id ↔
    ∃ val, m.found ["services", id, svc.name] = some val ∧
      serviceInfo svc.name val = some svc := by
  rw [nodeServices_eq_found, List.mem_filterMap]
  constructor
  · rintro ⟨⟨name, val⟩, hmem, hsvc⟩
    have hname : svc.name = name := by
      obtain ⟨_, -, h⟩ := Option.bind_eq_some_iff.mp hsvc
      obtain ⟨_, -, h⟩ := Option.bind_eq_some_iff.mp h
      cases h
      rfl
    subst hname
    exact ⟨val, hm.mem_membersAt.mp hmem, hsvc⟩
  · rintro ⟨val, hval, hsvc⟩
    exact ⟨_, hm.mem_membersAt.mpr hval, hsvc⟩

/-- A lookup reads the entry of the service and the address of the node. -/
theorem mem_lookupService {name : String} {t : String × P.Addr × UInt16 × StrMap String} :
    t ∈ m.lookupService name ↔ ∃ entry addr,
      m.found ["services", t.1, name] = some entry ∧ m.nodeAddr t.1 = some addr ∧
        t = (t.1, addr, entryPort entry, parseMetadata (entry.get "metadata")) := by
  rw [lookupService_eq_found, List.mem_filterMap]
  constructor
  · rintro ⟨⟨id, svcs⟩, hmem, h⟩
    obtain ⟨entry, hentry, h⟩ := Option.bind_eq_some_iff.mp h
    obtain ⟨addr, haddr, rfl⟩ := Option.map_eq_some_iff.mp h
    have hsvcs : m.found ["services", id] = some svcs := hm.mem_membersAt.mp hmem
    refine ⟨entry, addr, ?_, haddr, rfl⟩
    rw [found_service, hsvcs]
    exact hentry
  · rintro ⟨entry, addr, hentry, haddr, ht⟩
    rw [found_service] at hentry
    obtain ⟨svcs, hsvcs, hentry⟩ := Option.bind_eq_some_iff.mp hentry
    refine ⟨(t.1, svcs), hm.mem_membersAt.mpr hsvcs, ?_⟩
    dsimp only
    rw [hentry, haddr, ht]
    rfl

theorem nodup_lookupService (name : String) : ((m.lookupService name).map Prod.fst).Nodup :=
  (hm.nodup_membersAt ["services"]).sublist (m.lookupService_keys name)

end Mapped

section Sorted
variable (hK : P.crdt.SortedKeys)
include hK

theorem sorted_lookupService (h : m.IsInner ["services"]) (name : String) :
    ((m.lookupService name).map Prod.fst).Pairwise (· < ·) :=
  (h.sorted_keys hK).sublist (m.lookupService_keys name)

theorem sorted_members (h : m.IsInner ["nodes"]) :
    (m.members.map NodeInfo.nodeId).Pairwise (· < ·) := by
  rw [members_eq_found]
  exact (h.sorted_keys hK).sublist (fst_filterMap_sublist (fun _ _ h => nodeInfo_nodeId h) _)

end Sorted

/-- Every path the document holds was split at its slashes. -/
def PlainKeys (m : Membership P) : Prop := ∀ w ∈ P.crdt.writes m.doc, ∀ k ∈ w.path, PlainName k

/-- Where nothing is shown at a path or above it, a key below it is one key of a write. -/
theorem IsInner.plainName {q : Path} {k : String} (h : m.IsInner q) (hk : m.PlainKeys)
    (hfound : (m.found (q ++ [k])).isSome) : PlainName k := by
  obtain ⟨p, hp, hpre⟩ := h.found_isSome.mp hfound
  obtain ⟨w, hw, rfl, -⟩ := P.crdt.exists_write_of_shown hp
  exact hk w hw.1 k (hpre.subset (by simp))

end Membership
end Pmd
