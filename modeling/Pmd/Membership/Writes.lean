import Pmd.Membership.Listing

/-!
# What the membership operations write

`registerService` and `unregisterService` write below the services of the replica,
`removeNode` tombstones a node and then its services. Node ids have no slash, so
only the first of these stands at the path of the node.
-/
namespace Pmd
open Foundation

variable {P : Platform}

/-- The writes of `registerService` and `unregisterService`. -/
def IsServiceEdit (id path : String) (x : Option Json) : Prop :=
  (∃ name, path = servicePath id name) ∧ ∀ v ∈ x, ∃ port metadata, v = serviceRecord port metadata

/-- The writes of `removeNode`. -/
def IsRemoval (id path : String) (x : Option Json) : Prop :=
  x = some deadMarker ∧ (path = nodePath id ∨ ∃ name, path = servicePath id name)

theorem Membership.removeNode_edits (m : Membership P) (id : String) :
    P.crdt.Edits (IsRemoval id) m.doc (m.removeNode id).doc :=
  removeNode_induct (I := fun m' => P.crdt.Edits (IsRemoval id) m.doc m'.doc)
    (fun _ _ hpath h => h.set ⟨rfl, hpath⟩) (.refl _)

/-- The tombstone of the node is made at the vector of the document before. -/
theorem Membership.mem_removeNode (m : Membership P) (id : String) :
    stamp (P.crdt.replica m.doc) (P.crdt.versionVector m.doc) (nodePath id) (some deadMarker) ∈
      P.crdt.writes (m.removeNode id).doc := by
  refine removeNode_services (I := fun m' => _ ∈ P.crdt.writes m'.doc) (fun m' name h => ?_) ?_
  · rw [tombstone, P.crdt.writes_set]
    exact .inr h
  · rw [tombstone, P.crdt.writes_set]
    exact .inl rfl

theorem IsRemoval.isDocPath {id path : String} {x : Option Json} (h : IsRemoval id path x)
    (hid : PlainName id) : IsDocPath (splitPath path) := by
  rcases h.2 with rfl | ⟨name, rfl⟩
  · rw [splitPath_nodePath hid]
    exact .inl ⟨_, rfl⟩
  · obtain ⟨rest, hrest⟩ := splitPath_servicePath id name
    rw [hrest]
    exact .inr ⟨rest, rfl⟩

theorem IsServiceEdit.not_above {id path : String} {x : Option Json} (h : IsServiceEdit id path x)
    (id' : String) : ¬ splitPath path <+: ["nodes", id'] := by
  obtain ⟨⟨name, rfl⟩, -⟩ := h
  rw [splitPath_service]
  simp

/-- `removeNode` writes nothing at the path of another node or above it. -/
theorem IsRemoval.not_above {id id' path : String} {x : Option Json} (h : IsRemoval id path x)
    (hid : PlainName id) (hne : id' ≠ id) : ¬ splitPath path <+: ["nodes", id'] := by
  rcases h.2 with rfl | ⟨name, rfl⟩
  · rw [splitPath_nodePath hid]
    simp [hne.symm]
  · rw [splitPath_service]
    simp

theorem IsRemoval.nodeId_eq {id id' path : String} {x : Option Json} (h : IsRemoval id path x)
    (hid : PlainName id) (hpath : splitPath path = ["nodes", id']) : id = id' := by
  rcases h.2 with rfl | ⟨name, rfl⟩
  · rw [splitPath_nodePath hid] at hpath
    simpa using hpath
  · obtain ⟨rest, hrest⟩ := splitPath_servicePath id name
    rw [hrest] at hpath
    simp at hpath

end Pmd
