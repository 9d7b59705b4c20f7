import Pmd.Membership.Readers

/-!
# What the replicas write

Every write stands in a document because some operation made it. `ExchangeOp.Edits`
is what an operation sets or removes; a property of all edits is a property of all
writes of every document and delta.
-/
namespace Pmd
open Foundation

variable {P : Platform}

namespace Membership

/-- The edits of `removeNode`: the tombstone of the node, then one for each service that is
read from the document with that tombstone. -/
def Removes (m : Membership P) (id p : String) (v : Option Json) : Prop :=
  v = some deadMarker ∧ (p = nodePath id ∨
    ∃ svc ∈ (m.tombstone (nodePath id)).nodeServices id, p = servicePath id svc.name)

theorem removeNode_removes (m : Membership P) (id : String) :
    P.crdt.Edits (m.Removes id) m.doc (m.removeNode id).doc := by
  have hfold : ∀ (svcs : List ServiceInfo) (m₁ : Membership P),
      (∀ svc ∈ svcs, svc ∈ (m.tombstone (nodePath id)).nodeServices id) →
      P.crdt.Edits (m.Removes id) m.doc m₁.doc → P.crdt.Edits (m.Removes id) m.doc
        (svcs.foldl (fun m svc => m.tombstone (servicePath id svc.name)) m₁).doc := by
    intro svcs
    induction svcs with
    | nil => exact fun _ _ h₁ => h₁
    | cons svc svcs ih =>
      intro m₁ hsvcs h₁
      have hsvc := hsvcs svc List.mem_cons_self
      exact ih _ (fun s hs => hsvcs s (List.mem_cons_of_mem _ hs))
        (h₁.set ⟨rfl, .inr ⟨svc, hsvc, rfl⟩⟩)
  exact hfold _ _ (fun _ h => h) (.set (.refl _) ⟨rfl, .inl rfl⟩)

end Membership

/-! ## The values are trees of maps -/

theorem uniqueKeys_metadataJson (metadata : StrMap String) :
    (metadataJson metadata).UniqueKeys := by
  refine Json.uniqueKeys_object ?_ fun e he => ?_
  · rw [List.map_map]
    exact metadata.nodupKeys
  · obtain ⟨e, -, rfl⟩ := List.mem_map.mp he
    exact Json.uniqueKeys_of_not_object fun m => by simp

theorem uniqueKeys_deadMarker : deadMarker.UniqueKeys := by
  refine Json.uniqueKeys_object (by decide) fun e he => ?_
  rw [List.mem_singleton.mp he]
  exact Json.uniqueKeys_of_not_object fun m => by simp

theorem uniqueKeys_nodeRecord (addr : P.Addr) (metadata : StrMap String) (joinedAt : ℕ) :
    (nodeRecord addr metadata joinedAt).UniqueKeys := by
  refine Json.uniqueKeys_object (by simp) ?_
  simp only [List.mem_cons, List.not_mem_nil, or_false, forall_eq_or_imp, forall_eq]
  exact ⟨Json.uniqueKeys_of_not_object fun m => by simp, uniqueKeys_metadataJson metadata,
    Json.uniqueKeys_of_not_object fun m => by simp⟩

theorem uniqueKeys_serviceRecord (port : UInt16) (metadata : StrMap String) :
    (serviceRecord port metadata).UniqueKeys := by
  refine Json.uniqueKeys_object (by simp) ?_
  simp only [List.mem_cons, List.not_mem_nil, or_false, forall_eq_or_imp, forall_eq]
  exact ⟨Json.uniqueKeys_of_not_object fun m => by simp, uniqueKeys_metadataJson metadata⟩

namespace Membership
variable {m : Membership P}

section Edits
variable {m' : Membership P} {path : String} {x : Option Json}
  (h : P.crdt.Appended m.doc m'.doc path x)
include h

theorem Mapped.appended (hm : m.Mapped) (hx : ∀ v ∈ x, v.UniqueKeys) : m'.Mapped :=
  h.forall_writes (Q := fun _ x => ∀ v ∈ x, v.UniqueKeys) hm hx

theorem PlainKeys.appended (hm : m.PlainKeys) : m'.PlainKeys :=
  h.forall_writes (Q := fun p _ => ∀ k ∈ p, PlainName k) hm fun _ => plainName_of_mem_splitPath

end Edits

theorem appended_tombstone (m : Membership P) (path : String) :
    P.crdt.Appended m.doc (m.tombstone path).doc path (some deadMarker) :=
  Concordat.appended_set _ _ _

end Membership

namespace Exchange
variable {x x' : Exchange P} {op : ExchangeOp P}

/-- The operation sets or removes this value at this path. -/
def Edits (x : Exchange P) : ExchangeOp P → String → Option Json → Prop
  | .addNode _ id addr metadata now, p, v =>
    p = nodePath id ∧ v = some (nodeRecord addr metadata now)
  | .removeNode r id, p, v => (x.replica r).Removes id p v
  | .registerService r name port metadata, p, v =>
    p = servicePath r name ∧ v = some (serviceRecord port metadata)
  | .unregisterService r name, p, v => p = servicePath r name ∧ v = none
  | _, _, _ => False

namespace Edits
variable {p : String} {v : Option Json} (h : x.Edits op p v)
include h

theorem uniqueKeys : ∀ u ∈ v, u.UniqueKeys := by
  intro u hu
  cases op with
  | addNode r id addr metadata now =>
    cases h.2.symm.trans hu
    exact uniqueKeys_nodeRecord addr metadata now
  | removeNode r id =>
    cases h.1.symm.trans hu
    exact uniqueKeys_deadMarker
  | registerService r name port metadata =>
    cases h.2.symm.trans hu
    exact uniqueKeys_serviceRecord port metadata
  | unregisterService r name => cases h.2.symm.trans hu
  | deltaForPeer => exact h.elim
  | mergeRemote => exact h.elim

end Edits

/-- A document is edited by the operation, or merged with a produced delta. -/
theorem step_edits (hi : Timed x) (h : (system P).step x op = some x') (r : String) :
    P.crdt.Edits (x.Edits op) (x.doc r) (x'.doc r) ∨
      ∃ b ∈ x.produced, ∃ δ, P.crdt.decode b = some δ ∧
        x'.doc r = P.crdt.mergeDelta (x.doc r) δ := by
  have hset : ∀ {r' : String} {m : Membership P}, P.crdt.Edits (x.Edits op) (x.doc r') m.doc →
      P.crdt.Edits (x.Edits op) (x.doc r) ((x.setReplica r' m).doc r) := by
    intro r' m hm
    by_cases hr : r = r'
    · subst hr
      rwa [doc, doc, setReplica_self]
    · rw [doc, doc, setReplica_ne _ _ hr]
      exact .refl _
  cases op with
  | addNode r' id addr metadata now =>
    cases h
    exact .inl (hset (.set (.refl _) ⟨rfl, rfl⟩))
  | removeNode r' id =>
    cases h
    exact .inl (hset ((x.replica r').removeNode_removes id))
  | registerService r' name port metadata =>
    cases h
    refine .inl (hset (.set (.refl _) ⟨?_, rfl⟩))
    rw [(hi.named r').2]
  | unregisterService r' name =>
    cases h
    refine .inl (hset (.remove (.refl _) ⟨?_, rfl⟩))
    rw [(hi.named r').2]
  | deltaForPeer r' v =>
    cases h
    exact .inl (.refl _)
  | mergeRemote r' i =>
    obtain ⟨b, hb, h⟩ := Option.bind_eq_some_iff.mp h
    obtain ⟨⟨m, changes⟩, hm, h⟩ := Option.bind_eq_some_iff.mp h
    cases h
    obtain ⟨δ, hδ, rfl, -⟩ := Membership.mergeRemote_eq_some hm
    by_cases hr : r = r'
    · subst hr
      rw [doc, doc, setReplica_self]
      exact .inr ⟨b, List.mem_of_getElem? hb, δ, hδ, rfl⟩
    · rw [doc, doc, setReplica_ne _ _ hr]
      exact .inl (.refl _)

theorem mem_pool_edits (hi : Timed x) (h : (system P).step x op = some x') :
    ∀ w ∈ x'.pool, w ∈ x.pool ∨ ∃ p, x.Edits op p w.value ∧ w.path = splitPath p := by
  refine mem_pool_of_docs h fun r w hw => ?_
  rcases step_edits hi h r with hedits | ⟨b, hb, δ, hδ, hm⟩
  · rcases hedits.mem_writes hw with hold | ⟨p, hp, hpath, -⟩
    · exact .inl (.inl ⟨r, hold⟩)
    · exact .inr ⟨p, hp, hpath⟩
  · rw [hm, P.crdt.writes_merge] at hw
    rcases hw with hw | hw
    · exact .inl (.inl ⟨r, hw⟩)
    · exact .inl (.inr ⟨b, hb, δ, hδ, hw⟩)

/-- What holds of every edit of a run holds of every write. -/
theorem pool_reach {C : Exchange P → ExchangeOp P → Prop} {Q : Path → Option Json → Prop}
    (hQ : ∀ x op p v, (system P).Reach C x → (∀ w ∈ x.pool, Q w.path w.value) → C x op →
      Edits x op p v → Q (splitPath p) v) (h : (system P).Reach C x) :
    ∀ w ∈ x.pool, Q w.path w.value := by
  have hinv : (system P).Reach C x ∧ ∀ w ∈ x.pool, Q w.path w.value := by
    refine h.invariant (I := fun x => (system P).Reach C x ∧ ∀ w ∈ x.pool, Q w.path w.value)
      (fun x₀ h₀ => ⟨⟨x₀, h₀, .refl⟩, fun w hw => ?_⟩)
      fun y op y' hi hC hs => ⟨hi.1.leads (.single ⟨op, hC, hs⟩), fun w hw => ?_⟩
    · cases h₀
      rw [pool_start] at hw
      exact absurd hw (Set.notMem_empty w)
    · rcases mem_pool_edits (timed_reach hi.1) hs w hw with hold | ⟨p, hp, hpath⟩
      · exact hi.2 w hold
      · rw [hpath]
        exact hQ y op p _ hi.1 hi.2 hC hp
  exact hinv.2

section Reach
variable {C : Exchange P → ExchangeOp P → Prop} (h : (system P).Reach C x) (r : String)
include h

/-- Whatever the ids and names, snapshots are trees of maps. -/
theorem mapped_reach : (x.replica r).Mapped := fun w hw =>
  pool_reach (Q := fun _ v => ∀ u ∈ v, u.UniqueKeys) (fun _ _ _ _ _ _ _ hp => hp.uniqueKeys) h w
    (.inl ⟨r, hw⟩)

theorem plainKeys_reach : (x.replica r).PlainKeys := fun w hw =>
  pool_reach (Q := fun p _ => ∀ k ∈ p, PlainName k)
    (fun _ _ _ _ _ _ _ _ _ hk => plainName_of_mem_splitPath hk) h w (.inl ⟨r, hw⟩)

end Reach

end Exchange

/-! ## Node ids that are not empty -/

namespace ExchangeOp

/-- Node ids, those of the replicas that register services among them, have at least one
key. Service names are any strings. -/
def KeyedIds : ExchangeOp P → Prop
  | .addNode _ id _ _ _ => splitPath id ≠ []
  | .removeNode _ id => splitPath id ≠ []
  | .registerService r _ _ _ => splitPath r ≠ []
  | .unregisterService r _ => splitPath r ≠ []
  | _ => True

end ExchangeOp

/-- An entry below a node id. At the services of a node and below stand records and
tombstones of services, unless they have been removed. -/
structure OwnedEntry (p : Path) (v : Option Json) : Prop where
  path : ∃ id rest, p = "nodes" :: id :: rest ∨ p = "services" :: id :: rest
  service : ∀ rest, p = "services" :: rest → v = none ∨ v = some deadMarker ∨
    ∃ port metadata, v = some (serviceRecord port metadata)

namespace OwnedEntry
variable {p : Path} {v : Option Json}

theorem of_node {id : String} (hid : splitPath id ≠ []) (v : Option Json) :
    OwnedEntry (splitPath (nodePath id)) v := by
  obtain ⟨k, rest, hsplit⟩ := List.exists_cons_of_ne_nil hid
  rw [splitPath_node, hsplit]
  exact ⟨⟨k, rest, .inl rfl⟩, fun _ h => by simp at h⟩

theorem of_service {id name : String} (hid : splitPath id ≠ [])
    (hv : v = none ∨ v = some deadMarker ∨
      ∃ port metadata, v = some (serviceRecord port metadata)) :
    OwnedEntry (splitPath (servicePath id name)) v := by
  obtain ⟨k, rest, hsplit⟩ := List.exists_cons_of_ne_nil hid
  rw [splitPath_service, hsplit]
  exact ⟨⟨k, rest ++ splitPath name, .inr rfl⟩, fun _ _ => hv⟩

theorem two_le_length (h : OwnedEntry p v) : 2 ≤ p.length := by
  obtain ⟨id, rest, rfl | rfl⟩ := h.path
  · simp
  · simp

/-- The keys of what stands at the services of a node are single keys. -/
theorem plainName_of_get {rest : Path} {val : Json} {k : String}
    (h : OwnedEntry ("services" :: rest) (some val)) (hk : (val.get k).isSome) : PlainName k := by
  have hkeys : ∀ k ∈ ["status", "port", "metadata"], PlainName k := by decide
  refine hkeys k ?_
  rcases h.service rest rfl with hnone | hdead | ⟨port, metadata, hrecord⟩
  · cases hnone
  · cases hdead
    by_contra hnot
    simp only [List.mem_cons, not_or] at hnot
    simp [deadMarker, Json.get_object, List.lookup_cons, beq_eq_false_iff_ne.mpr hnot.1] at hk
  · cases hrecord
    by_contra hnot
    simp only [List.mem_cons, not_or] at hnot
    simp [serviceRecord, Json.get_object, List.lookup_cons, beq_eq_false_iff_ne.mpr hnot.2.1,
      beq_eq_false_iff_ne.mpr hnot.2.2.1] at hk

end OwnedEntry

namespace Membership
variable {m m' : Membership P}

/-- A settled document of maps, in which every entry stands below a node id. -/
structure Orderly (m : Membership P) : Prop where
  settled : P.crdt.Settled m.doc
  owned : ∀ w ∈ P.crdt.writes m.doc, OwnedEntry w.path w.value
  mapped : m.Mapped
  keys : m.PlainKeys

namespace Orderly

theorem appended (hm : m.Orderly) {path : String} {x : Option Json}
    (h : P.crdt.Appended m.doc m'.doc path x) (hentry : OwnedEntry (splitPath path) x)
    (hx : ∀ v ∈ x, v.UniqueKeys) : m'.Orderly :=
  ⟨h.settled hm.settled, h.forall_writes hm.owned hentry, hm.mapped.appended h hx,
    hm.keys.appended h⟩

theorem tombstone (hm : m.Orderly) {path : String}
    (hentry : OwnedEntry (splitPath path) (some deadMarker)) : (m.tombstone path).Orderly := by
  refine hm.appended (m.appended_tombstone path) hentry fun v hv => ?_
  cases hv
  exact uniqueKeys_deadMarker

theorem tombstone_node (hm : m.Orderly) {id : String} (hid : splitPath id ≠ []) :
    (m.tombstone (nodePath id)).Orderly :=
  hm.tombstone (.of_node hid _)

theorem tombstone_service (hm : m.Orderly) {id : String} (hid : splitPath id ≠ [])
    (name : String) : (m.tombstone (servicePath id name)).Orderly :=
  hm.tombstone (.of_service hid (.inr (.inl rfl)))

variable (hm : m.Orderly)
include hm

theorem owned_of_shown {p : Path} {v : Json} (hv : P.crdt.shown m.doc p = some v) :
    OwnedEntry p (some v) := by
  obtain ⟨w, hw, rfl, hshown⟩ := P.crdt.exists_write_of_shown (Option.isSome_of_eq_some hv)
  rw [← hv, hshown]
  exact hm.owned w hw.1

theorem not_shown_of_short {p : Path} (hp : p.length < 2) : P.crdt.shown m.doc p = none := by
  rw [← Option.not_isSome_iff_eq_none]
  intro hsome
  obtain ⟨v, hv⟩ := Option.isSome_iff_exists.mp hsome
  exact absurd (hm.owned_of_shown hv).two_le_length (Nat.not_le.mpr hp)

theorem isInner_top (k : String) : m.IsInner [k] := by
  refine ⟨by simp, fun p hp hpre => ?_⟩
  rw [hm.not_shown_of_short (hpre.length_le.trans_lt Nat.one_lt_two)] at hp
  cases hp

theorem plainName_of_mem {p : Path} {k : String} (hp : (P.crdt.shown m.doc p).isSome)
    (hk : k ∈ p) : PlainName k := by
  obtain ⟨w, hw, rfl, -⟩ := P.crdt.exists_write_of_shown hp
  exact hm.keys w hw.1 k hk

/-- An id under which something is found is a single key. -/
theorem plainName_of_found_top {top id : String} (h : (m.found [top, id]).isSome) :
    PlainName id :=
  (hm.isInner_top top).plainName (k := id) hm.keys h

/-- Whatever stands at the services of a node itself, what is found there has a single key. -/
theorem plainName_of_found {id k : String} (h : (m.found ["services", id, k]).isSome) :
    PlainName k := by
  obtain ⟨p, v, hv, hcases⟩ :=
    (P.crdt.materialize_found m.doc ["services", id, k] h).resolve_left (by simp)
  have hkey : k ∈ p → PlainName k := hm.plainName_of_mem (Option.isSome_of_eq_some hv)
  have hentry := hm.owned_of_shown hv
  rcases hcases with hpre | ⟨rest, hp, hrest⟩
  · exact hkey (hpre.subset (by simp))
  · obtain ⟨id', below, rfl | rfl⟩ := hentry.path
    · simp at hp
    · simp only [List.cons_append, List.cons.injEq, true_and] at hp
      obtain ⟨rfl, hp⟩ := hp
      cases below with
      | nil =>
        rw [List.nil_append] at hp
        subst hp
        rw [Json.descend_singleton] at hrest
        exact hentry.plainName_of_get hrest
      | cons k' below =>
        rw [List.cons_append, List.cons.injEq] at hp
        exact hkey (by simp [hp.1])

theorem plainName_nodeServices {id : String} {svc : ServiceInfo} (h : svc ∈ m.nodeServices id) :
    PlainName svc.name := by
  obtain ⟨val, hval, -⟩ := hm.mapped.mem_nodeServices.mp h
  exact hm.plainName_of_found (Option.isSome_of_eq_some hval)

end Orderly
end Membership

namespace Exchange
variable {x : Exchange P}

theorem orderly_reach (h : (system P).Reach (fun _ op => op.KeyedIds) x) (r : String) :
    (x.replica r).Orderly := by
  have howned : ∀ w ∈ x.pool, OwnedEntry w.path w.value := by
    refine pool_reach (Q := OwnedEntry) (fun y op p v _ _ hop hp => ?_) h
    cases op with
    | addNode r id addr metadata now =>
      obtain ⟨rfl, rfl⟩ := hp
      exact .of_node hop _
    | removeNode r id =>
      obtain ⟨rfl, rfl | ⟨svc, -, rfl⟩⟩ := hp
      · exact .of_node hop _
      · exact .of_service hop (.inr (.inl rfl))
    | registerService r name port metadata =>
      obtain ⟨rfl, rfl⟩ := hp
      exact .of_service hop (.inr (.inr ⟨port, metadata, rfl⟩))
    | unregisterService r name =>
      obtain ⟨rfl, rfl⟩ := hp
      exact .of_service hop (.inl rfl)
    | deltaForPeer => exact hp.elim
    | mergeRemote => exact hp.elim
  exact ⟨(timed_reach h).settled r, fun w hw => howned w (.inl ⟨r, hw⟩), mapped_reach h r,
    plainKeys_reach h r⟩

end Exchange

/-! ## Plain ids and names -/

namespace ExchangeOp

/-- Node ids and service names are single keys; the services of a replica stand under its
own id. -/
def PlainNames : ExchangeOp P → Prop
  | .addNode _ id _ _ _ => PlainName id
  | .removeNode _ id => PlainName id
  | .registerService r name _ _ => PlainName r ∧ PlainName name
  | .unregisterService r name => PlainName r ∧ PlainName name
  | _ => True

theorem PlainNames.keyedIds {op : ExchangeOp P} (h : op.PlainNames) : op.KeyedIds := by
  cases op with
  | addNode => exact splitPath_ne_nil h
  | removeNode => exact splitPath_ne_nil h
  | registerService => exact splitPath_ne_nil h.1
  | unregisterService => exact splitPath_ne_nil h.1
  | deltaForPeer => trivial
  | mergeRemote => trivial

end ExchangeOp

/-- The path of a node or of a service whose names are single keys. -/
def IsLeafPath (p : Path) : Prop :=
  (∃ id, p = ["nodes", id]) ∨ ∃ id name, p = ["services", id, name]

theorem IsLeafPath.eq_of_below {p q : Path} (hp : IsLeafPath p) (hq : IsLeafPath q)
    (h : p <+: q) : p = q := by
  rcases hp with ⟨id, rfl⟩ | ⟨id, name, rfl⟩ <;> rcases hq with ⟨id', rfl⟩ | ⟨id', name', rfl⟩
  · exact h.eq_of_length rfl
  · simp at h
  · simp at h
  · exact h.eq_of_length rfl

theorem splitPath_plainService {id name : String} (hid : PlainName id)
    (hname : PlainName name) : splitPath (servicePath id name) = ["services", id, name] := by
  rw [splitPath_service, splitPath_of_plainName hid, splitPath_of_plainName hname]
  rfl

/-- A node has a record or a tombstone; a service may also have been removed. -/
structure PlainEntry (P : Platform) (p : Path) (v : Option Json) : Prop where
  path : IsLeafPath p
  node : ∀ id, p = ["nodes", id] → v = some deadMarker ∨
    ∃ (addr : P.Addr) (metadata : StrMap String) (joinedAt : ℕ),
      v = some (nodeRecord addr metadata joinedAt)
  service : ∀ id name, p = ["services", id, name] → v = none ∨ v = some deadMarker ∨
    ∃ port metadata, v = some (serviceRecord port metadata)

namespace PlainEntry
variable {p : Path} {v : Option Json} {id name : String}

theorem of_node (hv : v = some deadMarker ∨
    ∃ (addr : P.Addr) (metadata : StrMap String) (joinedAt : ℕ),
      v = some (nodeRecord addr metadata joinedAt)) : PlainEntry P ["nodes", id] v :=
  ⟨.inl ⟨id, rfl⟩, fun _ _ => hv, fun _ _ h => by simp at h⟩

theorem of_service (hv : v = none ∨ v = some deadMarker ∨
    ∃ port metadata, v = some (serviceRecord port metadata)) :
    PlainEntry P ["services", id, name] v :=
  ⟨.inr ⟨id, name, rfl⟩, fun _ h => by simp at h, fun _ _ _ => hv⟩

end PlainEntry

namespace Membership
variable {m : Membership P}

/-- Everything shown is a plain entry. -/
def Flat (m : Membership P) : Prop :=
  ∀ p v, P.crdt.shown m.doc p = some v → PlainEntry P p (some v)

theorem flat_of_writes (h : ∀ w ∈ P.crdt.writes m.doc, PlainEntry P w.path w.value) : m.Flat := by
  intro p v hv
  obtain ⟨w, hw, rfl, hshown⟩ := P.crdt.exists_write_of_shown (Option.isSome_of_eq_some hv)
  rw [← hv, hshown]
  exact h w hw.1

namespace Flat
variable (hm : m.Flat)
include hm

theorem found_leaf {q : Path} (hq : IsLeafPath q) : m.found q = P.crdt.shown m.doc q := by
  have hleaf : ∀ p, (P.crdt.shown m.doc p).isSome → IsLeafPath p := by
    intro p hp
    obtain ⟨v, hv⟩ := Option.isSome_iff_exists.mp hp
    exact (hm p v hv).path
  have happart : ∀ p, (P.crdt.shown m.doc p).isSome → p ≠ q → ¬ p <+: q ∧ ¬ q <+: p := by
    intro p hp hne
    exact ⟨fun h => hne ((hleaf p hp).eq_of_below hq h),
      fun h => hne (hq.eq_of_below (hleaf p hp) h).symm⟩
  cases hv : P.crdt.shown m.doc q with
  | some v => exact P.crdt.materialize_leaf m.doc q v hv happart
  | none =>
    refine P.crdt.materialize_absent m.doc q ?_ fun p hp => happart p hp ?_
    · rcases hq with ⟨id, rfl⟩ | ⟨id, name, rfl⟩ <;> simp
    · rintro rfl
      simp [hv] at hp

theorem found_node (id : String) : m.found ["nodes", id] = P.crdt.shown m.doc ["nodes", id] :=
  hm.found_leaf (.inl ⟨id, rfl⟩)

theorem found_service (id name : String) :
    m.found ["services", id, name] = P.crdt.shown m.doc ["services", id, name] :=
  hm.found_leaf (.inr ⟨id, name, rfl⟩)

end Flat
end Membership

namespace Exchange
variable {x : Exchange P}

theorem plain_reach (h : (system P).Reach (fun _ op => op.PlainNames) x) :
    ∀ w ∈ x.pool, PlainEntry P w.path w.value := by
  refine pool_reach (Q := fun p v => PlainEntry P p v) (fun y op p v hy _ hop hp => ?_) h
  cases op with
  | addNode r id addr metadata now =>
    obtain ⟨rfl, rfl⟩ := hp
    rw [splitPath_nodePath hop]
    exact .of_node (.inr ⟨addr, metadata, now, rfl⟩)
  | removeNode r id =>
    obtain ⟨rfl, rfl | ⟨svc, hsvc, rfl⟩⟩ := hp
    · rw [splitPath_nodePath hop]
      exact .of_node (.inl rfl)
    · -- The names that are tombstoned are keys of the document.
      have hm := (orderly_reach (hy.mono fun _ _ h => h.keyedIds) r).tombstone_node
        (splitPath_ne_nil hop)
      rw [splitPath_plainService hop (hm.plainName_nodeServices hsvc)]
      exact .of_service (.inr (.inl rfl))
  | registerService r name port metadata =>
    obtain ⟨rfl, rfl⟩ := hp
    rw [splitPath_plainService hop.1 hop.2]
    exact .of_service (.inr (.inr ⟨port, metadata, rfl⟩))
  | unregisterService r name =>
    obtain ⟨rfl, rfl⟩ := hp
    rw [splitPath_plainService hop.1 hop.2]
    exact .of_service (.inl rfl)
  | deltaForPeer => exact hp.elim
  | mergeRemote => exact hp.elim

theorem flat_reach (h : (system P).Reach (fun _ op => op.PlainNames) x) (r : String) :
    (x.replica r).Flat :=
  Membership.flat_of_writes fun w hw => plain_reach h w (.inl ⟨r, hw⟩)

end Exchange
end Pmd
