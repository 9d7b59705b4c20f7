import Pmd.Foundation.Lines
import Pmd.Membership.Listing

/-!
# Control requests and responses as JSON

The enums of the control socket with every field. A unit variant is a string, any other
variant an object with one key; fields with a default may be absent, and so may optional
ones. Unknown fields are ignored.
-/
namespace Pmd.Control
open Foundation

structure ServiceEntry where
  name : String
  nodeId : String
  host : String
  port : UInt16
  metadata : StrMap String

/-- `Φ` holds the suspicion levels. -/
structure NodeInfoResponse (Φ : Type) where
  nodeId : String
  addr : String
  joinedAt : ℕ
  metadata : StrMap String
  services : List ServiceEntry
  phi : Option Φ
  lastSeenAt : Option ℕ
  isLocal : Bool

inductive ControlResponse (Φ : Type) where
  | ok
  | error (message : String)
  | status (nodeId listenAddr : String) (peerCount nodeCount : ℕ)
  | nodes (nodes : List (NodeInfoResponse Φ))
  | services (entries : List ServiceEntry)
  | event (event : MembershipEvent) (nodeId addr : String)

/-- How a level is written and read. Reading may round it. -/
structure LevelFormat (Φ : Type) where
  toJson : Φ → Json
  ofJson : Json → Option Φ
  back : Φ → Φ
  ofJson_toJson : ∀ x, ofJson (toJson x) = some (back x)
  toJson_ne_null : ∀ x, toJson x ≠ .null

def NodeInfoResponse.mapPhi {Φ : Type} (f : Φ → Φ) (n : NodeInfoResponse Φ) : NodeInfoResponse Φ :=
  { n with phi := n.phi.map f }

def ControlResponse.mapPhi {Φ : Type} (f : Φ → Φ) : ControlResponse Φ → ControlResponse Φ
  | .nodes list => .nodes (list.map fun n => n.mapPhi f)
  | r => r

/-! ## Fields -/

def readStr (j : Json) (key : String) : Option String := (j.get key).bind Json.asStr

def readNat (j : Json) (key : String) : Option ℕ := (j.get key).bind Json.asU64

def asU16 (j : Json) : Option UInt16 :=
  j.asU64.bind fun n => if n < 65536 then some n.toUInt16 else none

def asBool : Json → Option Bool
  | .bool b => some b
  | _ => none

/-- A map whose values must all be strings. -/
def asMetadata : Json → Option (StrMap String)
  | .object m =>
    (m.mapM fun e : String × Json => e.2.asStr.map fun s => (⟨e.1, s⟩ : Σ _ : String, String)).map
      List.toAList
  | _ => none

def asList {α : Type} (read : Json → Option α) : Json → Option (List α)
  | .array xs => xs.mapM read
  | _ => none

/-- A field with `#[serde(default)]`. -/
def readOr {α : Type} (default : α) (read : Json → Option α) (j : Json) (key : String) : Option α :=
  match j.get key with
  | none => some default
  | some x => read x

/-- A field of type `Option`. -/
def readOption {α : Type} (read : Json → Option α) (j : Json) (key : String) :
    Option (Option α) :=
  match j.get key with
  | none => some none
  | some .null => some none
  | some x => (read x).map some

def optionJson {α : Type} (toJson : α → Json) : Option α → Json
  | none => .null
  | some x => toJson x

/-! ## Requests -/

def variant (name : String) (fields : List (String × Json)) : Json :=
  .object [(name, .object fields)]

def ControlRequest.toJson : ControlRequest → Json
  | .status => .string "Status"
  | .nodes => .string "Nodes"
  | .join addr => variant "Join" [("addr", .string addr)]
  | .leave addr => variant "Leave" [("addr", .string addr)]
  | .shutdown => .string "Shutdown"
  | .register name port metadata => variant "Register" [("name", .string name),
      ("port", .number port.toNat), ("metadata", metadataJson metadata)]
  | .unregister name => variant "Unregister" [("name", .string name)]
  | .lookup name => variant "Lookup" [("name", .string name)]
  | .subscribe => .string "Subscribe"

def ControlRequest.ofJson : Json → Option ControlRequest
  | .string "Status" => some .status
  | .string "Nodes" => some .nodes
  | .string "Shutdown" => some .shutdown
  | .string "Subscribe" => some .subscribe
  | .object [("Join", j)] => (readStr j "addr").map .join
  | .object [("Leave", j)] => (readStr j "addr").map .leave
  | .object [("Register", j)] => do
    return .register (← readStr j "name") (← (j.get "port").bind asU16)
      (← (j.get "metadata").bind asMetadata)
  | .object [("Unregister", j)] => (readStr j "name").map .unregister
  | .object [("Lookup", j)] => (readStr j "name").map .lookup
  | _ => none

/-! ## Responses -/

def ServiceEntry.toJson (e : ServiceEntry) : Json :=
  .object [("name", .string e.name), ("node_id", .string e.nodeId), ("host", .string e.host),
    ("port", .number e.port.toNat), ("metadata", metadataJson e.metadata)]

def ServiceEntry.ofJson (j : Json) : Option ServiceEntry := do
  return ⟨← readStr j "name", ← readStr j "node_id", ← readStr j "host",
    ← (j.get "port").bind asU16, ← readOr ∅ asMetadata j "metadata"⟩

variable {Φ : Type} (F : LevelFormat Φ)

def NodeInfoResponse.toJson (n : NodeInfoResponse Φ) : Json :=
  .object [("node_id", .string n.nodeId), ("addr", .string n.addr),
    ("joined_at", .number n.joinedAt), ("metadata", metadataJson n.metadata),
    ("services", .array (n.services.map ServiceEntry.toJson)),
    ("phi", optionJson F.toJson n.phi),
    ("last_seen_at", optionJson (fun t : ℕ => .number t) n.lastSeenAt),
    ("is_local", .bool n.isLocal)]

def NodeInfoResponse.ofJson (j : Json) : Option (NodeInfoResponse Φ) := do
  return ⟨← readStr j "node_id", ← readStr j "addr", ← readNat j "joined_at",
    ← readOr ∅ asMetadata j "metadata", ← readOr [] (asList ServiceEntry.ofJson) j "services",
    ← readOption F.ofJson j "phi", ← readOption Json.asU64 j "last_seen_at",
    ← readOr false asBool j "is_local"⟩

def eventJson : MembershipEvent → Json
  | .nodeJoined => .string "NodeJoined"
  | .nodeLeft => .string "NodeLeft"

def asEvent : Json → Option MembershipEvent
  | .string "NodeJoined" => some .nodeJoined
  | .string "NodeLeft" => some .nodeLeft
  | _ => none

def ControlResponse.toJson : ControlResponse Φ → Json
  | .ok => .string "Ok"
  | .error message => variant "Error" [("message", .string message)]
  | .status nodeId listenAddr peerCount nodeCount => variant "Status" [("node_id", .string nodeId),
      ("listen_addr", .string listenAddr), ("peer_count", .number peerCount),
      ("node_count", .number nodeCount)]
  | .nodes list => variant "Nodes" [("nodes", .array (list.map (NodeInfoResponse.toJson F)))]
  | .services entries => variant "Services" [("entries", .array (entries.map ServiceEntry.toJson))]
  | .event kind nodeId addr => variant "Event" [("event", eventJson kind),
      ("node_id", .string nodeId), ("addr", .string addr)]

def ControlResponse.ofJson : Json → Option (ControlResponse Φ)
  | .string "Ok" => some .ok
  | .object [("Error", j)] => (readStr j "message").map .error
  | .object [("Status", j)] => do
    return .status (← readStr j "node_id") (← readStr j "listen_addr") (← readNat j "peer_count")
      (← readNat j "node_count")
  | .object [("Nodes", j)] =>
    ((j.get "nodes").bind (asList (NodeInfoResponse.ofJson F))).map .nodes
  | .object [("Services", j)] =>
    ((j.get "entries").bind (asList ServiceEntry.ofJson)).map .services
  | .object [("Event", j)] => do
    return .event (← (j.get "event").bind asEvent) (← readStr j "node_id") (← readStr j "addr")
  | _ => none

/-! ## What is written is read back -/

theorem asU16_toNat (p : UInt16) : asU16 (.number p.toNat) = some p := by
  have hlt : p.toNat < 65536 := p.toNat_lt
  have hu : (Json.number (p.toNat : ℤ)).asU64 = some p.toNat := rfl
  rw [asU16, hu, Option.bind_some, if_pos hlt]
  simp

theorem mapM_map_some {α β γ : Type} {f : α → β} {g : β → Option γ} {b : α → γ}
    (h : ∀ a, g (f a) = some (b a)) (l : List α) : (l.map f).mapM g = some (l.map b) := by
  induction l with
  | nil => rfl
  | cons a l ih =>
    rw [List.map_cons, List.mapM_cons, h a, ih]
    rfl

theorem asMetadata_metadataJson (metadata : StrMap String) :
    asMetadata (metadataJson metadata) = some metadata := by
  have hentries : (metadata.entries.map fun e => (e.1, Json.string e.2)).mapM
      (fun e : String × Json => e.2.asStr.map fun s => (⟨e.1, s⟩ : Σ _ : String, String)) =
        some (metadata.entries.map id) := by
    refine mapM_map_some (fun e => ?_) metadata.entries
    rfl
  rw [metadataJson, asMetadata, hentries, List.map_id]
  exact congrArg some (AList.ext (Membership.dedupKeys_of_nodupKeys metadata.nodupKeys))

theorem asList_map {α : Type} {toJson : α → Json} {read : Json → Option α} {back : α → α}
    (h : ∀ a, read (toJson a) = some (back a)) (l : List α) :
    asList read (.array (l.map toJson)) = some (l.map back) := mapM_map_some h l

theorem ServiceEntry.ofJson_toJson (e : ServiceEntry) :
    ServiceEntry.ofJson e.toJson = some e := by
  simp [ServiceEntry.ofJson, ServiceEntry.toJson, readStr, readOr, Json.get_object, Json.asStr,
    List.lookup_cons, asU16_toNat, asMetadata_metadataJson]

theorem asList_entries (l : List ServiceEntry) :
    asList ServiceEntry.ofJson (.array (l.map ServiceEntry.toJson)) = some l := by
  have h : ∀ e : ServiceEntry, ServiceEntry.ofJson e.toJson = some (id e) :=
    ServiceEntry.ofJson_toJson
  rw [asList_map h, List.map_id]

theorem NodeInfoResponse.ofJson_toJson (n : NodeInfoResponse Φ) :
    NodeInfoResponse.ofJson F (n.toJson F) = some (n.mapPhi F.back) := by
  have hphi : readOption F.ofJson (n.toJson F) "phi" = some (n.phi.map F.back) := by
    have hget : (n.toJson F).get "phi" = some (optionJson F.toJson n.phi) := rfl
    rw [readOption, hget]
    cases n.phi with
    | none => rfl
    | some x =>
      have hne := F.toJson_ne_null x
      have hread := F.ofJson_toJson x
      rw [optionJson]
      generalize F.toJson x = j at *
      cases j with
      | null => exact absurd rfl hne
      | _ => exact congrArg (Option.map some) hread
  have hseen : readOption Json.asU64 (n.toJson F) "last_seen_at" = some n.lastSeenAt := by
    have hget : (n.toJson F).get "last_seen_at" =
        some (optionJson (fun t : ℕ => .number t) n.lastSeenAt) := rfl
    rw [readOption, hget]
    cases n.lastSeenAt <;> rfl
  have hjoined : readNat (n.toJson F) "joined_at" = some n.joinedAt := rfl
  have hid : readStr (n.toJson F) "node_id" = some n.nodeId := rfl
  have haddr : readStr (n.toJson F) "addr" = some n.addr := rfl
  have hlocal : readOr false asBool (n.toJson F) "is_local" = some n.isLocal := rfl
  have hmeta : readOr ∅ asMetadata (n.toJson F) "metadata" = some n.metadata :=
    asMetadata_metadataJson n.metadata
  have hservices : readOr [] (asList ServiceEntry.ofJson) (n.toJson F) "services" =
      some n.services := asList_entries n.services
  rw [NodeInfoResponse.ofJson, hid, haddr, hjoined, hmeta, hservices, hphi, hseen, hlocal]
  rfl

theorem ControlRequest.ofJson_toJson (r : ControlRequest) :
    ControlRequest.ofJson (ControlRequest.toJson r) = some r := by
  cases r with
  | register name port metadata =>
    simp [ControlRequest.ofJson, ControlRequest.toJson, variant, readStr, Json.get_object,
      Json.asStr, List.lookup_cons, asU16_toNat, asMetadata_metadataJson]
  | _ => rfl

theorem ControlResponse.ofJson_toJson (r : ControlResponse Φ) :
    ControlResponse.ofJson F (ControlResponse.toJson F r) = some (r.mapPhi F.back) := by
  cases r with
  | ok => rfl
  | error message => rfl
  | status nodeId listenAddr peerCount nodeCount => rfl
  | nodes list =>
    have h := asList_map (NodeInfoResponse.ofJson_toJson F) list
    simp [ControlResponse.ofJson, ControlResponse.toJson, variant, Json.get_object, h,
      mapPhi]
  | services entries =>
    simp [ControlResponse.ofJson, ControlResponse.toJson, variant, Json.get_object,
      asList_entries, mapPhi]
  | event kind nodeId addr => cases kind <;> rfl

/-! ## Lines -/

/-- One request, one line. -/
def requestLines : LineCodec ControlRequest :=
  .json ControlRequest.toJson ControlRequest.ofJson id ControlRequest.ofJson_toJson fun r => by
    cases r <;> rfl

def responseLines : LineCodec (ControlResponse Φ) :=
  .json (ControlResponse.toJson F) (ControlResponse.ofJson F) (ControlResponse.mapPhi F.back)
    (ControlResponse.ofJson_toJson F) fun r => by cases r <;> rfl

end Pmd.Control
