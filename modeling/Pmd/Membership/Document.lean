import Pmd.Protocol.Messages

/-!
# CRDT-backed membership

`Membership` wraps one concordat document:

* `/nodes/<node_id>` holds `{ "addr", "metadata", "joined_at" }`,
* `/services/<node_id>/<name>` holds `{ "port", "metadata" }`,
* a removed node or service holds `{ "status": "dead" }`.
-/
namespace Pmd
open Foundation

variable {P : Platform}

structure ServiceInfo where
  name : String
  port : UInt16
  metadata : StrMap String

structure NodeInfo (P : Platform) where
  nodeId : String
  addr : P.Addr
  metadata : StrMap String
  joinedAt : ℕ
  services : List ServiceInfo

structure Membership (P : Platform) where
  doc : P.Doc
  nodeId : String

def metadataJson (metadata : StrMap String) : Json :=
  .object (metadata.entries.map fun e => (e.1, .string e.2))

def parseMetadata : Option Json → StrMap String
  | some (.object m) => (m.filterMap fun e => e.2.asStr.map fun s => (⟨e.1, s⟩ : Sigma _)).toAList
  | _ => ∅

def nodePath (nodeId : String) : String := "/nodes/" ++ nodeId

def servicePath (nodeId name : String) : String := "/services/" ++ nodeId ++ "/" ++ name

/-- The tombstone value of nodes and services. -/
def deadMarker : Json := .object [("status", .string "dead")]

def nodeRecord (addr : P.Addr) (metadata : StrMap String) (joinedAt : ℕ) : Json :=
  .object [("addr", .string (P.printAddr addr)), ("metadata", metadataJson metadata),
    ("joined_at", .number joinedAt)]

def serviceRecord (port : UInt16) (metadata : StrMap String) : Json :=
  .object [("port", .number port.toNat), ("metadata", metadataJson metadata)]

/-- The acceptance test shared by `members` and `memberIds`. -/
def isDead (val : Json) : Bool := (val.get "status").bind Json.asStr == some "dead"

def serviceInfo (name : String) (val : Json) : Option ServiceInfo := do
  let port ← (← val.get "port").asU64
  return ⟨name, port.toUInt16, parseMetadata (val.get "metadata")⟩

def diffMembers (before after : StrMap String) : List MembershipChange :=
  ((after.entries.filter fun e => e.1 ∉ before).map fun e => ⟨.nodeJoined, e.1, e.2⟩) ++
    (before.entries.filter fun e => e.1 ∉ after).map fun e => ⟨.nodeLeft, e.1, e.2⟩

namespace Membership

def new (nodeId : String) : Membership P := ⟨P.crdt.new nodeId, nodeId⟩

/-- `now` is the wall clock in seconds since the epoch. -/
def addNode (m : Membership P) (nodeId : String) (addr : P.Addr) (metadata : StrMap String)
    (now : ℕ) : Membership P :=
  { m with doc := P.crdt.set m.doc (nodePath nodeId) (nodeRecord addr metadata now) }

def nodeServices (m : Membership P) (nodeId : String) : List ServiceInfo :=
  match (P.crdt.materialize m.doc).get "services" with
  | some (.object services) =>
    match services.lookup nodeId with
    | some (.object svcs) => svcs.filterMap fun e => serviceInfo e.1 e.2
    | _ => []
  | _ => []

def tombstone (m : Membership P) (path : String) : Membership P :=
  { m with doc := P.crdt.set m.doc path deadMarker }

/-- The node is tombstoned first; its services are then read from the changed
document and tombstoned one by one. -/
def removeNode (m : Membership P) (nodeId : String) : Membership P :=
  let m₁ := m.tombstone (nodePath nodeId)
  (m₁.nodeServices nodeId).foldl (fun m svc => m.tombstone (servicePath nodeId svc.name)) m₁

def registerService (m : Membership P) (name : String) (port : UInt16)
    (metadata : StrMap String) : Membership P :=
  { m with doc := P.crdt.set m.doc (servicePath m.nodeId name) (serviceRecord port metadata) }

def unregisterService (m : Membership P) (name : String) : Membership P :=
  { m with doc := P.crdt.remove m.doc (servicePath m.nodeId name) }

def lookupService (m : Membership P) (name : String) :
    List (String × P.Addr × UInt16 × StrMap String) :=
  match (P.crdt.materialize m.doc).get "services", (P.crdt.materialize m.doc).get "nodes" with
  | some (.object services), some (.object nodes) =>
    services.filterMap fun e =>
      match e.2 with
      | .object svcs => do
        let entry ← svcs.lookup name
        let addrStr ← (← (← nodes.lookup e.1).get "addr").asStr
        let addr ← P.parseAddr addrStr
        let port := (((entry.get "port").bind Json.asU64).getD 0).toUInt16
        return (e.1, addr, port, parseMetadata (entry.get "metadata"))
      | _ => none
  | _, _ => []

def nodeInfo (m : Membership P) (id : String) (val : Json) : Option (NodeInfo P) :=
  if isDead val then none else do
    let addrStr ← (← val.get "addr").asStr
    let addr ← P.parseAddr addrStr
    let joinedAt := (← val.get "joined_at").asU64.getD 0
    return ⟨id, addr, parseMetadata (val.get "metadata"), joinedAt, m.nodeServices id⟩

def members (m : Membership P) : List (NodeInfo P) :=
  match (P.crdt.materialize m.doc).get "nodes" with
  | some (.object nodes) => nodes.filterMap fun e => m.nodeInfo e.1 e.2
  | _ => []

def memberIds (m : Membership P) : StrMap String :=
  match (P.crdt.materialize m.doc).get "nodes" with
  | some (.object nodes) =>
    (nodes.filterMap fun e =>
      if isDead e.2 then none else
        ((e.2.get "addr").bind Json.asStr).map fun addr => (⟨e.1, addr⟩ : Sigma _)).toAList
  | _ => ∅

def versionVector (m : Membership P) : VersionVector String := P.crdt.versionVector m.doc

def deltaForPeer (m : Membership P) (peerVv : VersionVector String) : P.crdt.Encoded :=
  P.crdt.encode (P.crdt.deltaSince m.doc peerVv)

def fullDelta (m : Membership P) : P.crdt.Encoded := m.deltaForPeer ⊥

/-- Fails when the bytes do not decode; otherwise merges and reports the diff. -/
def mergeRemote (m : Membership P) (deltaBytes : P.crdt.Encoded) :
    Option (Membership P × List MembershipChange) := do
  let delta ← P.crdt.decode deltaBytes
  let merged : Membership P := { m with doc := P.crdt.mergeDelta m.doc delta }
  return (merged, diffMembers m.memberIds merged.memberIds)

/-- After the tombstone of the node, `removeNode` only tombstones its services. -/
theorem removeNode_services {I : Membership P → Prop} {m : Membership P} {id : String}
    (hstep : ∀ m name, I m → I (m.tombstone (servicePath id name)))
    (h : I (m.tombstone (nodePath id))) : I (m.removeNode id) := by
  have hfold : ∀ (svcs : List ServiceInfo) (m₁ : Membership P), I m₁ →
      I (svcs.foldl (fun m svc => m.tombstone (servicePath id svc.name)) m₁) := by
    intro svcs
    induction svcs with
    | nil => exact fun _ h₁ => h₁
    | cons svc svcs ih =>
      intro m₁ h₁
      exact ih _ (hstep m₁ svc.name h₁)
  exact hfold _ _ h

/-- `removeNode` is a sequence of tombstones at the node's own paths. -/
theorem removeNode_induct {I : Membership P → Prop} {m : Membership P} {id : String}
    (hstep : ∀ m path, (path = nodePath id ∨ ∃ name, path = servicePath id name) → I m →
      I (m.tombstone path)) (h : I m) : I (m.removeNode id) :=
  removeNode_services (fun m name => hstep m _ (.inr ⟨name, rfl⟩)) (hstep m _ (.inl rfl) h)

@[simp] theorem removeNode_nodeId (m : Membership P) (id : String) :
    (m.removeNode id).nodeId = m.nodeId :=
  removeNode_induct (I := fun m' => m'.nodeId = m.nodeId) (fun _ _ _ h => h) rfl

theorem mergeRemote_eq_some {m m' : Membership P} {b : P.crdt.Encoded}
    {changes : List MembershipChange} (h : m.mergeRemote b = some (m', changes)) :
    ∃ δ, P.crdt.decode b = some δ ∧ m' = { m with doc := P.crdt.mergeDelta m.doc δ } ∧
      changes = diffMembers m.memberIds m'.memberIds := by
  rw [mergeRemote] at h
  obtain ⟨δ, hδ, h⟩ := Option.bind_eq_some_iff.mp h
  rw [Option.pure_def, Option.some.injEq, Prod.mk.injEq] at h
  obtain ⟨rfl, rfl⟩ := h
  exact ⟨δ, hδ, rfl, rfl⟩

section Views
variable {m m' : Membership P} (h : P.crdt.materialize m.doc = P.crdt.materialize m'.doc)
include h

theorem nodeServices_congr (id : String) : m.nodeServices id = m'.nodeServices id := by
  rw [nodeServices, nodeServices, h]

theorem members_congr : m.members = m'.members := by
  have hinfo : ∀ id val, m.nodeInfo id val = m'.nodeInfo id val := by
    intro id val
    rw [nodeInfo, nodeInfo, nodeServices_congr h]
  simp only [members, h, hinfo]

theorem lookupService_congr (name : String) : m.lookupService name = m'.lookupService name := by
  rw [lookupService, lookupService, h]

end Views

/-- A delta that was encoded is merged. -/
theorem mergeRemote_deltaForPeer (m src : Membership P) (v : VersionVector String) :
    m.mergeRemote (src.deltaForPeer v) =
      some (⟨P.crdt.mergeDelta m.doc (P.crdt.deltaSince src.doc v), m.nodeId⟩,
        diffMembers m.memberIds (memberIds
          ⟨P.crdt.mergeDelta m.doc (P.crdt.deltaSince src.doc v), m.nodeId⟩)) := by
  rw [mergeRemote, deltaForPeer, P.crdt.decode_encode]
  rfl

end Membership
end Pmd
