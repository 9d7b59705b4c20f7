import Pmd.Membership.Document

/-!
# When a node is listed

Nodes stand at `/nodes/<id>` and services below `/services`. In a document with
only such paths, a node whose record is shown at its path is among `members`, with
the address of the record.
-/
namespace Pmd
open Foundation

variable {P : Platform}

theorem splitPath_append (s t : String) :
    splitPath (s ++ "/" ++ t) = splitPath s ++ splitPath t := by
  have hlist : (s ++ "/" ++ t).toList = s.toList ++ '/' :: t.toList := by
    simp [String.toList_append]
  rw [splitPath, hlist, List.splitOn_append_cons_self, List.filter_append, List.map_append]
  rfl

theorem splitPath_of_plainName {s : String} (h : PlainName s) : splitPath s = [s] := by
  have hne : s.toList ≠ [] := fun hnil => h.1 (String.toList_eq_nil_iff.mp hnil)
  rw [splitPath, List.splitOn_eq_singleton h.2, List.filter_singleton, decide_eq_true hne]
  simp

theorem splitPath_ne_nil {s : String} (h : PlainName s) : splitPath s ≠ [] := by
  rw [splitPath_of_plainName h]
  exact List.cons_ne_nil _ _

theorem splitPath_node (id : String) : splitPath (nodePath id) = "nodes" :: splitPath id := by
  have hpath : nodePath id = "/nodes" ++ "/" ++ id := rfl
  rw [hpath, splitPath_append]
  rfl

theorem splitPath_service (id name : String) :
    splitPath (servicePath id name) = "services" :: (splitPath id ++ splitPath name) := by
  have hpath : servicePath id name = "/services" ++ "/" ++ id ++ "/" ++ name := rfl
  rw [hpath, splitPath_append, splitPath_append, List.append_assoc]
  rfl

theorem splitPath_nodePath {id : String} (h : PlainName id) :
    splitPath (nodePath id) = ["nodes", id] := by
  rw [splitPath_node, splitPath_of_plainName h]

theorem splitPath_ownService {id : String} (h : PlainName id) (name : String) :
    splitPath (servicePath id name) = "services" :: id :: splitPath name := by
  rw [splitPath_service, splitPath_of_plainName h]
  rfl

theorem splitPath_servicePath (id name : String) :
    ∃ rest, splitPath (servicePath id name) = "services" :: rest :=
  ⟨_, splitPath_service id name⟩

/-- A path the daemon writes to. -/
def IsDocPath (p : Path) : Prop := (∃ id, p = ["nodes", id]) ∨ ∃ rest, p = "services" :: rest

theorem IsDocPath.not_prefix_nodes {p : Path} (h : IsDocPath p) : ¬ p <+: ["nodes"] := by
  rcases h with ⟨id, rfl⟩ | ⟨rest, rfl⟩
  · simp
  · simp

theorem IsDocPath.apart {p : Path} (h : IsDocPath p) {id : String} (hne : p ≠ ["nodes", id]) :
    ¬ p <+: ["nodes", id] ∧ ¬ ["nodes", id] <+: p := by
  rcases h with ⟨id', rfl⟩ | ⟨rest, rfl⟩
  · have hid : id' ≠ id := fun h => hne (by rw [h])
    simp [hid, Ne.symm hid]
  · simp

/-- No document path is above the path of a node. -/
theorem IsDocPath.eq_of_above {p : Path} (h : IsDocPath p) {id : String}
    (hp : p <+: ["nodes", id]) : p = ["nodes", id] := by
  by_contra hne
  exact (h.apart hne).1 hp

namespace Membership

/-- The node is among `members`. -/
def Lists (m : Membership P) (id : String) : Prop := ∃ info ∈ m.members, info.nodeId = id

theorem dedupKeys_of_nodupKeys {β : String → Type} {l : List (Sigma β)} (h : l.NodupKeys) :
    l.dedupKeys = l := by
  induction l with
  | nil => rfl
  | cons e l ih =>
    rw [List.nodupKeys_cons] at h
    rw [List.dedupKeys_cons, ih h.2, List.kinsert_def, List.kerase_of_notMem_keys h.1]

/-- Metadata survives the way through JSON. -/
theorem parseMetadata_metadataJson (metadata : StrMap String) :
    parseMetadata (some (metadataJson metadata)) = metadata := by
  have hentries : (metadata.entries.map fun e => (e.1, Json.string e.2)).filterMap
      (fun e => e.2.asStr.map fun s => (⟨e.1, s⟩ : Σ _ : String, String)) = metadata.entries := by
    rw [List.filterMap_map]
    exact List.filterMap_some
  rw [metadataJson, parseMetadata, hentries]
  exact AList.ext (dedupKeys_of_nodupKeys metadata.nodupKeys)

/-- A record is read back as it was written. -/
theorem nodeInfo_nodeRecord (m : Membership P) (id : String) (addr : P.Addr)
    (metadata : StrMap String) (joinedAt : ℕ) :
    m.nodeInfo id (nodeRecord addr metadata joinedAt) =
      some ⟨id, addr, metadata, joinedAt, m.nodeServices id⟩ := by
  have haddr : (nodeRecord addr metadata joinedAt).get "addr" =
      some (.string (P.printAddr addr)) := rfl
  have hjoined : (nodeRecord addr metadata joinedAt).get "joined_at" =
      some (.number joinedAt) := rfl
  have hmeta : (nodeRecord addr metadata joinedAt).get "metadata" =
      some (metadataJson metadata) := rfl
  have hdead : isDead (nodeRecord addr metadata joinedAt) = false := rfl
  rw [nodeInfo, hdead, haddr, hjoined, hmeta, parseMetadata_metadataJson]
  simp only [Bool.false_eq_true, if_false, Option.bind_eq_bind, Option.bind_some, Json.asStr,
    P.parse_print]
  rfl

theorem nodeRecord_ne_deadMarker (addr : P.Addr) (metadata : StrMap String) (joinedAt : ℕ) :
    nodeRecord addr metadata joinedAt ≠ deadMarker := by
  intro h
  have hdead : isDead (nodeRecord addr metadata joinedAt) = true := by
    rw [h]
    rfl
  cases hdead

theorem nodeInfo_deadMarker (m : Membership P) (id : String) : m.nodeInfo id deadMarker = none :=
  rfl

/-! ## Reading the snapshot -/

/-- What the snapshot has at a path. -/
def found (m : Membership P) (p : Path) : Option Json := (P.crdt.materialize m.doc).descend p

def membersAt (m : Membership P) (p : Path) : List (String × Json) :=
  (m.found p).elim [] Json.members

section Found
variable {m : Membership P}

theorem found_concat (m : Membership P) (q : Path) (k : String) :
    m.found (q ++ [k]) = (m.membersAt q).lookup k := by
  rw [found, Json.descend_append, membersAt, found]
  cases (P.crdt.materialize m.doc).descend q with
  | none => rfl
  | some j => exact (Option.bind_some _ _).trans (Json.descend_singleton k j)

/-- A filter that keeps the keys of its entries keeps their order. -/
theorem fst_filterMap_sublist {β γ : Type} {k : γ → String} {f : String × β → Option γ}
    (hf : ∀ e t, f e = some t → k t = e.1) (l : List (String × β)) :
    ((l.filterMap f).map k).Sublist (l.map Prod.fst) := by
  induction l with
  | nil => exact List.Sublist.refl _
  | cons e l ih =>
    rw [List.filterMap_cons]
    cases h : f e with
    | none => exact ih.cons _
    | some t =>
      rw [List.map_cons, List.map_cons, hf e t h]
      exact ih.cons_cons _

theorem mem_iff_lookup {β : Type} {l : List (String × β)} (h : (l.map Prod.fst).Nodup)
    {k : String} {v : β} : (k, v) ∈ l ↔ l.lookup k = some v := by
  induction l with
  | nil => simp
  | cons e l ih =>
    rw [List.map_cons, List.nodup_cons] at h
    obtain ⟨k', v'⟩ := e
    by_cases hk : k = k'
    · subst hk
      have hnot : ∀ v, (k, v) ∉ l := fun v hv => h.1 (List.mem_map.mpr ⟨_, hv, rfl⟩)
      simp [hnot, eq_comm]
    · simp [List.lookup_cons, hk, beq_eq_false_iff_ne.mpr hk, ih h.2]

/-- Nothing is shown at the path or above it. -/
def IsInner (m : Membership P) (q : Path) : Prop :=
  q ≠ [] ∧ ∀ p, (P.crdt.shown m.doc p).isSome → ¬ p <+: q

namespace IsInner
variable {q : Path} (h : m.IsInner q)
include h

theorem found_or : (m.found q = none ∧ ∀ p, (P.crdt.shown m.doc p).isSome → ¬ q <+: p) ∨
    ∃ obj, m.found q = some (.object obj) ∧ (obj.map Prod.fst).Nodup ∧
      ∀ k, k ∈ obj.map Prod.fst ↔ ∃ p, (P.crdt.shown m.doc p).isSome ∧ q ++ [k] <+: p := by
  by_cases hany : ∃ p, (P.crdt.shown m.doc p).isSome ∧ q <+: p
  · exact .inr (P.crdt.materialize_inner m.doc q h.2 (.inr hany))
  · rw [not_exists] at hany
    refine .inl ⟨P.crdt.materialize_absent m.doc q h.1 fun p hp => ⟨h.2 p hp, ?_⟩, fun p hp => ?_⟩
    · exact fun hq => hany p ⟨hp, hq⟩
    · exact fun hq => hany p ⟨hp, hq⟩

theorem nodup_keys : ((m.membersAt q).map Prod.fst).Nodup := by
  rcases h.found_or with ⟨hnone, -⟩ | ⟨obj, hobj, hnodup, -⟩
  · rw [membersAt, hnone]
    exact List.nodup_nil
  · rw [membersAt, hobj]
    exact hnodup

theorem mem_membersAt {k : String} {v : Json} :
    (k, v) ∈ m.membersAt q ↔ m.found (q ++ [k]) = some v := by
  rw [mem_iff_lookup h.nodup_keys, found_concat]

/-- A key is there exactly if something is shown at it or below. -/
theorem found_isSome {k : String} : (m.found (q ++ [k])).isSome ↔
    ∃ p, (P.crdt.shown m.doc p).isSome ∧ q ++ [k] <+: p := by
  rw [Option.isSome_iff_exists]
  simp only [← h.mem_membersAt]
  rcases h.found_or with ⟨hnone, hbelow⟩ | ⟨obj, hobj, -, hkeys⟩
  · rw [membersAt, hnone]
    simp only [Option.elim_none, List.not_mem_nil, exists_false, false_iff, not_exists, not_and]
    exact fun p hp hpre => hbelow p hp ((List.prefix_append q [k]).trans hpre)
  · rw [← hkeys k, membersAt, hobj, List.mem_map]
    constructor
    · rintro ⟨v, hv⟩
      exact ⟨(k, v), hv, rfl⟩
    · rintro ⟨e, he, rfl⟩
      exact ⟨e.2, he⟩

end IsInner
end Found

/-! ## The entries of nodes -/

/-- The entries below `/nodes`. -/
def nodeEntries (m : Membership P) : List (String × Json) :=
  match (P.crdt.materialize m.doc).get "nodes" with
  | some (.object nodes) => nodes
  | _ => []

theorem nodeEntries_eq (m : Membership P) : m.nodeEntries = m.membersAt ["nodes"] := by
  rw [nodeEntries, membersAt, found, Json.descend]
  cases (P.crdt.materialize m.doc).get "nodes" with
  | none => rfl
  | some j => cases j <;> rfl

/-- The address string `memberIds` keeps for a value, unless it is a tombstone. -/
def memberAddr (val : Json) : Option String :=
  if isDead val then none else (val.get "addr").bind Json.asStr

theorem members_eq (m : Membership P) :
    m.members = m.nodeEntries.filterMap fun e => m.nodeInfo e.1 e.2 := by
  rw [members, nodeEntries]
  cases (P.crdt.materialize m.doc).get "nodes" with
  | none => rfl
  | some j => cases j <;> rfl

theorem memberIds_eq (m : Membership P) :
    m.memberIds = (m.nodeEntries.filterMap fun e =>
      (memberAddr e.2).map fun addr => (⟨e.1, addr⟩ : Sigma _)).toAList := by
  have hentry : (fun e : String × Json => if isDead e.2 then none else
      ((e.2.get "addr").bind Json.asStr).map fun addr => (⟨e.1, addr⟩ : Σ _ : String, String)) =
      fun e => (memberAddr e.2).map fun addr => ⟨e.1, addr⟩ := by
    funext e
    rw [memberAddr]
    split <;> rfl
  rw [memberIds, nodeEntries, hentry]
  cases (P.crdt.materialize m.doc).get "nodes" with
  | none => rfl
  | some j => cases j <;> rfl

theorem nodeInfo_nodeId {m : Membership P} {id : String} {val : Json} {info : NodeInfo P}
    (h : m.nodeInfo id val = some info) : info.nodeId = id := by
  rw [nodeInfo] at h
  split at h
  · cases h
  · obtain ⟨_, -, h⟩ := Option.bind_eq_some_iff.mp h
    obtain ⟨_, -, h⟩ := Option.bind_eq_some_iff.mp h
    obtain ⟨_, -, h⟩ := Option.bind_eq_some_iff.mp h
    obtain ⟨_, -, h⟩ := Option.bind_eq_some_iff.mp h
    cases h
    rfl

section Shown
variable {m : Membership P} (hpaths : ∀ p, (P.crdt.shown m.doc p).isSome → IsDocPath p)
include hpaths

theorem inner_nodes : m.IsInner ["nodes"] :=
  ⟨by simp, fun p hp => (hpaths p hp).not_prefix_nodes⟩

theorem found_eq_shown (id : String) :
    m.found ["nodes", id] = P.crdt.shown m.doc ["nodes", id] := by
  cases hval : P.crdt.shown m.doc ["nodes", id] with
  | some val =>
    exact P.crdt.materialize_leaf m.doc ["nodes", id] val hval fun q hq hne =>
      (hpaths q hq).apart hne
  | none =>
    rw [← Option.not_isSome_iff_eq_none]
    intro hfound
    obtain ⟨p, hp, hpre⟩ := (inner_nodes hpaths).found_isSome (k := id) |>.mp hfound
    by_cases hpath : p = ["nodes", id]
    · rw [hpath, hval] at hp
      cases hp
    · exact ((hpaths p hp).apart hpath).2 hpre

/-- What is read below `/nodes` is what the document shows there. -/
theorem nodeEntries_shown : (m.nodeEntries.map Prod.fst).Nodup ∧
    ∀ id val, (id, val) ∈ m.nodeEntries ↔ P.crdt.shown m.doc ["nodes", id] = some val := by
  rw [nodeEntries_eq]
  refine ⟨(inner_nodes hpaths).nodup_keys, fun id val => ?_⟩
  rw [(inner_nodes hpaths).mem_membersAt, ← found_eq_shown hpaths id]
  rfl

theorem mem_members {info : NodeInfo P} : info ∈ m.members ↔
    ∃ val, P.crdt.shown m.doc ["nodes", info.nodeId] = some val ∧
      m.nodeInfo info.nodeId val = some info := by
  rw [members_eq, List.mem_filterMap]
  constructor
  · rintro ⟨⟨id, val⟩, hmem, hinfo⟩
    have hid : info.nodeId = id := nodeInfo_nodeId hinfo
    subst hid
    exact ⟨val, ((nodeEntries_shown hpaths).2 _ _).mp hmem, hinfo⟩
  · rintro ⟨val, hval, hinfo⟩
    exact ⟨_, ((nodeEntries_shown hpaths).2 _ _).mpr hval, hinfo⟩

theorem nodup_members : (m.members.map NodeInfo.nodeId).Nodup := by
  rw [members_eq]
  exact (nodeEntries_shown hpaths).1.sublist
    (fst_filterMap_sublist (fun _ _ h => nodeInfo_nodeId h) _)

theorem lookup_memberIds (id : String) :
    m.memberIds.lookup id = (P.crdt.shown m.doc ["nodes", id]).bind memberAddr := by
  obtain ⟨hnodup, hmem⟩ := nodeEntries_shown hpaths
  have hkeys : (m.nodeEntries.filterMap fun e =>
      (memberAddr e.2).map fun addr => (⟨e.1, addr⟩ : Σ _ : String, String)).NodupKeys := by
    refine hnodup.sublist (fst_filterMap_sublist (k := Sigma.fst) (fun e t h => ?_) _)
    obtain ⟨addr, -, rfl⟩ := Option.map_eq_some_iff.mp h
    rfl
  rw [memberIds_eq, AList.lookup_to_alist]
  ext addr
  rw [← Option.mem_def, List.mem_dlookup_iff hkeys, List.mem_filterMap, Option.bind_eq_some_iff]
  constructor
  · rintro ⟨⟨id', val⟩, he, haddr⟩
    obtain ⟨addr', haddr, heq⟩ := Option.map_eq_some_iff.mp haddr
    cases heq
    exact ⟨val, (hmem _ _).mp he, haddr⟩
  · rintro ⟨val, hval, haddr⟩
    exact ⟨(id, val), (hmem _ _).mpr hval, by rw [haddr]; rfl⟩

end Shown

theorem lists_of_shown {m : Membership P} {id : String} {addr : P.Addr}
    {metadata : StrMap String} {joinedAt : ℕ}
    (hpaths : ∀ p, (P.crdt.shown m.doc p).isSome → IsDocPath p)
    (hshown : P.crdt.shown m.doc ["nodes", id] = some (nodeRecord addr metadata joinedAt)) :
    m.Lists id := by
  refine ⟨⟨id, addr, metadata, joinedAt, m.nodeServices id⟩, ?_, rfl⟩
  exact (mem_members hpaths).mpr ⟨_, hshown, m.nodeInfo_nodeRecord id addr metadata joinedAt⟩

/-- Every path is a document path, and at the path of a node stands a record or a
tombstone. -/
structure Plain (m : Membership P) : Prop where
  paths : ∀ p, (P.crdt.shown m.doc p).isSome → IsDocPath p
  values : ∀ id val, P.crdt.shown m.doc ["nodes", id] = some val →
    val = deadMarker ∨ ∃ (addr : P.Addr) (metadata : StrMap String) (joinedAt : ℕ),
      val = nodeRecord addr metadata joinedAt

namespace Plain
variable {m : Membership P}

theorem lists_iff (hm : m.Plain) {id : String} : m.Lists id ↔
    ∃ (addr : P.Addr) (metadata : StrMap String) (joinedAt : ℕ),
      P.crdt.shown m.doc ["nodes", id] = some (nodeRecord addr metadata joinedAt) := by
  constructor
  · rintro ⟨info, hinfo, rfl⟩
    obtain ⟨val, hval, hinfo⟩ := (mem_members hm.paths).mp hinfo
    rcases hm.values _ val hval with rfl | ⟨addr, metadata, joinedAt, rfl⟩
    · rw [nodeInfo_deadMarker] at hinfo
      cases hinfo
    · exact ⟨addr, metadata, joinedAt, hval⟩
  · rintro ⟨addr, metadata, joinedAt, hval⟩
    exact lists_of_shown hm.paths hval

/-- The tests of `members` and `memberIds` agree on records and tombstones. -/
theorem mem_memberIds (hm : m.Plain) {id : String} : id ∈ m.memberIds ↔ m.Lists id := by
  rw [← AList.lookup_isSome, lookup_memberIds hm.paths, hm.lists_iff]
  constructor
  · intro h
    obtain ⟨addr, haddr⟩ := Option.isSome_iff_exists.mp h
    obtain ⟨val, hval, haddr⟩ := Option.bind_eq_some_iff.mp haddr
    rcases hm.values _ val hval with rfl | ⟨addr, metadata, joinedAt, rfl⟩
    · cases haddr
    · exact ⟨addr, metadata, joinedAt, hval⟩
  · rintro ⟨addr, metadata, joinedAt, hval⟩
    rw [hval]
    rfl

/-- A tombstone whose past covers the records of a node hides them. -/
theorem not_lists (hm : m.Plain) {id : String} {w₀ : DocWrite} (hw₀ : w₀ ∈ P.crdt.writes m.doc)
    (hpath : w₀.path = ["nodes", id]) (hval : w₀.value = some deadMarker)
    (hold : ∀ w ∈ P.crdt.writes m.doc, w.path = ["nodes", id] →
      w.value = some deadMarker ∨ Covers w₀.past w.dot) : ¬ m.Lists id := by
  intro hlists
  obtain ⟨addr, metadata, joinedAt, hshown⟩ := hm.lists_iff.mp hlists
  obtain ⟨w, hw, hp, hv⟩ := P.crdt.exists_write_of_shown (by rw [hshown]; rfl)
  rw [hshown] at hv
  rcases hold w hw.1 hp with hdead | hcov
  · rw [hdead, Option.some.injEq] at hv
    exact nodeRecord_ne_deadMarker _ _ _ hv
  · exact hw.2 w₀ hw₀ ⟨by rw [hpath, hp], hcov, .inl (by rw [hval]; rfl)⟩

theorem lists_congr {m' : Membership P} (hm : m.Plain) (hm' : m'.Plain) {id : String}
    (h : P.crdt.shown m.doc ["nodes", id] = P.crdt.shown m'.doc ["nodes", id]) :
    m.Lists id ↔ m'.Lists id := by
  rw [hm.lists_iff, hm'.lists_iff, h]

end Plain

end Membership
end Pmd
