import Pmd.Membership.ServiceViews

/-!
# Services as a keyed registry

The name of a service is spliced into a document path and read back as one key. The
services of the local node are a map keyed by the name exactly if the name is one key, not
empty and without a slash, and no key of a value that stands at `/services/<local id>`
itself, where services of other names are registered.
-/
namespace Pmd
open Foundation

variable {P : Platform}

/-- Keys occur once, so a filter by key finds one entry. -/
theorem filter_key_eq_singleton {β : Type} {l : List (String × β)}
    (h : (l.map Prod.fst).Nodup) {k : String} {v : β} (hmem : (k, v) ∈ l) :
    l.filter (fun e => e.1 = k) = [(k, v)] := by
  induction l with
  | nil => cases hmem
  | cons e l ih =>
    rw [List.map_cons, List.nodup_cons] at h
    rcases List.mem_cons.mp hmem with rfl | hmem
    · have hrest : l.filter (fun e => e.1 = k) = [] := by
        rw [List.filter_eq_nil_iff]
        intro e he hk
        exact h.1 (List.mem_map.mpr ⟨e, he, decide_eq_true_iff.mp hk⟩)
      rw [List.filter_cons_of_pos (by simp), hrest]
    · have hne : e.1 ≠ k := fun hk => h.1 (List.mem_map.mpr ⟨_, hmem, hk.symm⟩)
      rw [List.filter_cons_of_neg (by simpa using hne), ih h.2 hmem]

namespace Membership
variable {m m' : Membership P}

/-- The document of `m'` shows what that of `m` does, except at one path and below it. -/
def SameBut (L : Path) (m m' : Membership P) : Prop :=
  ∀ p, ¬ L <+: p → P.crdt.shown m'.doc p = P.crdt.shown m.doc p

namespace SameBut
variable {L : Path} (h : SameBut L m m')
include h

theorem trans {m'' : Membership P} (h' : SameBut L m' m'') : SameBut L m m'' :=
  fun p hp => (h' p hp).trans (h p hp)

theorem isInner {q : Path} (hq : m.IsInner q) (hL : ¬ L <+: q) : m'.IsInner q := by
  refine ⟨hq.1, fun p hp hpre => hq.2 p ?_ hpre⟩
  rwa [← h p fun hlp => hL (hlp.trans hpre)]

variable (hK : P.crdt.SubtreeLocal)
include hK

/-- A path that parts ways with `L` leads to the same subtree. -/
theorem found {q : Path} (hL : ¬ L <+: q) (hq : ¬ q <+: L) : m'.found q = m.found q := by
  refine hK m'.doc m.doc q fun p hp => h p fun hlp => ?_
  rcases hp with hp | hp
  · exact hL (hlp.trans hp)
  · exact (List.prefix_or_prefix_of_prefix hlp hp).elim hL hq

theorem nodeAddr {rest : Path} (hL : L = "services" :: rest) (id : String) :
    m'.nodeAddr id = m.nodeAddr id := by
  subst hL
  rw [Membership.nodeAddr, h.found hK (by simp) (by simp), Membership.nodeAddr]

end SameBut

/-- A change at the path of one service is not seen by lookups of other names. -/
theorem SameBut.lookupService (hK : P.crdt.Hierarchical) (hm : m.Mapped) (hm' : m'.Mapped)
    {r name other : String} (h : SameBut ["services", r, name] m m')
    (hinner : m.IsInner ["services"]) (hne : other ≠ name) :
    m'.lookupService other = m.lookupService other := by
  have hinner' := h.isInner hinner (by simp)
  refine eq_of_sorted_keys Prod.fst (sorted_lookupService hK.sorted hinner' other)
    (sorted_lookupService hK.sorted hinner other) fun t => ?_
  rw [hm'.mem_lookupService, hm.mem_lookupService, h.nodeAddr hK.subtree rfl,
    h.found hK.subtree (by simp [hne.symm]) (by simp [hne])]

theorem Mapped.nodeAddr_of_mem (hm : m.Mapped) {info : NodeInfo P} (h : info ∈ m.members) :
    m.nodeAddr info.nodeId = some info.addr := by
  obtain ⟨val, hval, hinfo⟩ := hm.mem_members.mp h
  obtain ⟨-, addr, joined, haddr, -, hinfo⟩ := nodeInfo_eq_some.mp hinfo
  rw [hinfo]
  exact nodeAddr_eq_some.mpr ⟨val, hval, haddr⟩

theorem entryPort_serviceRecord (port : UInt16) (metadata : StrMap String) :
    entryPort (serviceRecord port metadata) = port := by
  have hport : valuePort (serviceRecord port metadata) = some port.toNat := rfl
  rw [entryPort_of_valuePort hport]
  exact UInt16.ofNat_toNat

/-! ## Register and unregister -/

/-- After `Register` a lookup of the name has one entry for the local node, at the address
it is listed with, and after `Unregister` none. Lookups of other names never change. -/
def Keyed (m : Membership P) (name : String) : Prop :=
  ∀ port metadata,
    (∃ info ∈ m.members, info.nodeId = m.nodeId ∧
      ((m.registerService name port metadata).lookupService name).filter (·.1 = m.nodeId) =
        [(m.nodeId, info.addr, port, metadata)]) ∧
    (∀ other ≠ name,
      (m.registerService name port metadata).lookupService other = m.lookupService other) ∧
    (∀ t ∈ ((m.registerService name port metadata).unregisterService name).lookupService name,
      t.1 ≠ m.nodeId) ∧
    ∀ other ≠ name,
      ((m.registerService name port metadata).unregisterService name).lookupService other =
        m.lookupService other

section Appended
variable (m : Membership P) (name : String) (port : UInt16) (metadata : StrMap String)

theorem appended_registerService : P.crdt.Appended m.doc (m.registerService name port metadata).doc
    (servicePath m.nodeId name) (some (serviceRecord port metadata)) :=
  Concordat.appended_set _ _ _

theorem appended_unregisterService :
    P.crdt.Appended m.doc (m.unregisterService name).doc (servicePath m.nodeId name) none :=
  Concordat.appended_remove _ _

end Appended

theorem sameBut_of_appended (hK : P.crdt.PathLocal) (hd : P.crdt.Settled m.doc) {path : String}
    {x : Option Json} {L : Path} (hL : splitPath path = L)
    (h : P.crdt.Appended m.doc m'.doc path x) : SameBut L m m' := by
  subst hL
  exact fun _ hp => h.shown_of_not_below hK hd hp

/-- A value that stands at the services of the local node itself has no key of this name. -/
def Unshadowed (m : Membership P) (name : String) : Prop :=
  ∀ v, P.crdt.shown m.doc ["services", m.nodeId] = some v → v.get name = none

/-- An orderly document that lists the local node. -/
structure Ready (m : Membership P) : Prop where
  orderly : m.Orderly
  listed : m.Lists m.nodeId

namespace Ready
variable (hm : m.Ready) (name : String) (port : UInt16) (metadata : StrMap String)
include hm

theorem plain : PlainName m.nodeId := by
  obtain ⟨info, hinfo, hid⟩ := hm.listed
  obtain ⟨val, hval, -⟩ := hm.orderly.mapped.mem_members.mp hinfo
  rw [← hid]
  exact hm.orderly.plainName_of_found_top (Option.isSome_of_eq_some hval)

theorem registered : (m.registerService name port metadata).Orderly := by
  refine hm.orderly.appended (m.appended_registerService name port metadata)
    (.of_service (splitPath_ne_nil hm.plain) (.inr (.inr ⟨port, metadata, rfl⟩))) fun v hv => ?_
  cases hv
  exact uniqueKeys_serviceRecord port metadata

theorem unregistered :
    ((m.registerService name port metadata).unregisterService name).Orderly :=
  (hm.registered name port metadata).appended (appended_unregisterService _ _)
    (.of_service (splitPath_ne_nil hm.plain) (.inl rfl)) fun v hv => by cases hv

theorem plainName_of_keyed (h : m.Keyed name) : PlainName name := by
  obtain ⟨⟨info, -, -, hentry⟩, -⟩ := h 0 ∅
  have hmem : (m.nodeId, info.addr, (0 : UInt16), (∅ : StrMap String)) ∈
      (m.registerService name 0 ∅).lookupService name :=
    List.mem_of_mem_filter (hentry ▸ List.mem_singleton_self _)
  obtain ⟨entry, addr, hfound, -⟩ := (hm.registered name 0 ∅).mapped.mem_lookupService.mp hmem
  exact (hm.registered name 0 ∅).plainName_of_found (Option.isSome_of_eq_some hfound)

variable (hK : P.crdt.Hierarchical) {name} (hname : PlainName name)
include hK hname

theorem found_registered : (m.registerService name port metadata).found
    ["services", m.nodeId, name] = some (serviceRecord port metadata) := by
  rw [← splitPath_plainService hm.plain hname]
  exact hK.replaces m.doc _ _ hm.orderly.settled

theorem sameBut_registered :
    SameBut ["services", m.nodeId, name] m (m.registerService name port metadata) :=
  sameBut_of_appended hK.path hm.orderly.settled (splitPath_plainService hm.plain hname)
    (m.appended_registerService name port metadata)

/-- `Unregister` after `Register` leaves only what was there, beside the service. -/
theorem sameBut_unregistered : SameBut ["services", m.nodeId, name] m
    ((m.registerService name port metadata).unregisterService name) :=
  (hm.sameBut_registered port metadata hK hname).trans <|
    sameBut_of_appended hK.path (hm.registered name port metadata).settled
      (splitPath_plainService hm.plain hname) (appended_unregisterService _ name)

/-- What is found in place of an unregistered service is a key of a value that stands at
the services of the node. -/
theorem found_unregistered :
    ((m.registerService name port metadata).unregisterService name).found
      ["services", m.nodeId, name] =
        (P.crdt.shown m.doc ["services", m.nodeId]).bind fun v => v.get name := by
  let m' : Membership P := (m.registerService name port metadata).unregisterService name
  have hbut : SameBut ["services", m.nodeId, name] m m' :=
    hm.sameBut_unregistered port metadata hK hname
  have hgone : ∀ q, ["services", m.nodeId, name] <+: q → P.crdt.shown m'.doc q = none := by
    intro q hq
    rw [← splitPath_plainService hm.plain hname] at hq
    exact hm.orderly.settled.shown_remove_set _ (serviceRecord port metadata) hq
  -- Nothing else is shown above the service or below.
  have halone : ∀ q, q <+: ["services", m.nodeId, name] ∨ ["services", m.nodeId, name] <+: q →
      q ≠ ["services", m.nodeId] → P.crdt.shown m'.doc q = none := by
    rintro q (hq | hq) hne
    · have hcases : q = ["services", m.nodeId] ++ [name] ∨ q <+: ["services", m.nodeId] :=
        List.prefix_concat_iff.mp hq
      rcases hcases with rfl | hq
      · exact hgone _ List.prefix_rfl
      · have hlt := lt_of_le_of_ne hq.length_le fun hlen => hne (hq.eq_of_length hlen)
        exact (hm.unregistered name port metadata).not_shown_of_short hlt
    · exact hgone q hq
  have hshown : P.crdt.shown m'.doc ["services", m.nodeId] =
      P.crdt.shown m.doc ["services", m.nodeId] := hbut _ (by simp)
  have hpath : splitPath (servicePath m.nodeId "") = ["services", m.nodeId] := by
    rw [splitPath_ownService hm.plain]
    rfl
  cases hv : P.crdt.shown m.doc ["services", m.nodeId] with
  | none =>
    refine P.crdt.materialize_absent m'.doc _ (by simp) fun q hq => ?_
    have hnot : ¬ (q <+: ["services", m.nodeId, name] ∨ ["services", m.nodeId, name] <+: q) := by
      intro hpre
      rw [halone q hpre fun heq => by rw [heq, hshown, hv] at hq; cases hq] at hq
      cases hq
    exact not_or.mp hnot
  | some v =>
    exact (hK.subtree.descend_of_alone [name] hpath (hshown.trans hv) halone).trans
      (Json.descend_singleton name v)

theorem keyed_iff_unshadowed : m.Keyed name ↔ m.Unshadowed name := by
  obtain ⟨info, hinfo, hid⟩ := hm.listed
  have haddr := hm.orderly.mapped.nodeAddr_of_mem hinfo
  rw [hid] at haddr
  constructor
  · intro h v hv
    obtain ⟨-, -, hnone, -⟩ := h 0 ∅
    have hrem := hm.sameBut_unregistered 0 ∅ hK hname
    have hfound := hm.found_unregistered 0 ∅ hK hname
    rw [hv, Option.bind_some] at hfound
    rw [← hrem.nodeAddr hK.subtree rfl] at haddr
    cases hget : v.get name with
    | none => rfl
    | some entry =>
      rw [hget] at hfound
      have hmem : (m.nodeId, info.addr, entryPort entry, parseMetadata (entry.get "metadata")) ∈
          ((m.registerService name 0 ∅).unregisterService name).lookupService name :=
        (hm.unregistered name 0 ∅).mapped.mem_lookupService.mpr
          ⟨entry, info.addr, hfound, haddr, rfl⟩
      exact absurd rfl (hnone _ hmem)
  · intro h port metadata
    have hset := hm.sameBut_registered port metadata hK hname
    have hrem := hm.sameBut_unregistered port metadata hK hname
    have hmap := (hm.registered name port metadata).mapped
    have hmap' := (hm.unregistered name port metadata).mapped
    have hinner := hm.orderly.isInner_top "services"
    refine ⟨⟨info, hinfo, hid, filter_key_eq_singleton (hmap.nodup_lookupService name) ?_⟩,
      fun other hne => hset.lookupService hK hm.orderly.mapped hmap hinner hne, fun t ht hid => ?_,
      fun other hne => hrem.lookupService hK hm.orderly.mapped hmap' hinner hne⟩
    · rw [← hset.nodeAddr hK.subtree rfl] at haddr
      refine hmap.mem_lookupService.mpr
        ⟨_, info.addr, hm.found_registered port metadata hK hname, haddr, ?_⟩
      have hmeta : (serviceRecord port metadata).get "metadata" =
          some (metadataJson metadata) := rfl
      rw [entryPort_serviceRecord, hmeta, parseMetadata_metadataJson]
    · obtain ⟨entry, -, hentry, -⟩ := hmap'.mem_lookupService.mp ht
      obtain ⟨v, hv, hget⟩ := Option.bind_eq_some_iff.mp
        ((hm.found_unregistered port metadata hK hname).symm.trans (hid ▸ hentry))
      rw [h v hv] at hget
      cases hget

omit hname in
theorem keyed_iff : m.Keyed name ↔ PlainName name ∧ m.Unshadowed name := by
  constructor
  · intro h
    have hname := hm.plainName_of_keyed name h
    exact ⟨hname, (hm.keyed_iff_unshadowed hK hname).mp h⟩
  · rintro ⟨hname, hfree⟩
    exact (hm.keyed_iff_unshadowed hK hname).mpr hfree

end Ready
end Membership

namespace Exchange
variable {x : Exchange P}

/-- For a listed local node its services are a registry keyed by the name exactly if the
name is a single key that no value at the path of these services has. -/
theorem keyed_iff_plainName (hK : P.crdt.Hierarchical)
    (hx : (system P).Reach (fun _ op => op.KeyedIds) x) {r : String}
    (hlisted : (x.replica r).Lists r) (name : String) :
    (x.replica r).Keyed name ↔ PlainName name ∧ (x.replica r).Unshadowed name := by
  have hready : (x.replica r).Ready :=
    ⟨orderly_reach hx r, by rwa [((timed_reach hx).named r).2]⟩
  exact hready.keyed_iff hK

section
open Reference

theorem serving_lists : ∃ x : Exchange platform,
    (system platform).Reach (fun _ op => op.KeyedIds) x ∧
      (system platform).run start serving = some x ∧ (x.replica "a").Lists "a" := by
  have hid : splitPath "a" ≠ [] := by decide
  have hkeyed : (system platform).Meets (fun _ op => op.KeyedIds) start serving :=
    System.meets_of_mem (by simp [serving, ExchangeOp.KeyedIds, hid])
  exact ⟨_, ⟨start, rfl, .of_run rfl hkeyed⟩, rfl, _, List.mem_singleton_self _, rfl⟩

/-- The service can be registered again under its name. -/
theorem keyed_iff_plainName_web : ∃ x : Exchange platform,
    (system platform).run start serving = some x ∧ (x.replica "a").Keyed "web" := by
  obtain ⟨x, hx, hrun, hlisted⟩ := serving_lists
  refine ⟨x, hrun, (keyed_iff_plainName hierarchical hx hlisted "web").mpr
    ⟨by decide, fun v hv => ?_⟩⟩
  cases hrun
  obtain ⟨w, hw, hpath, -⟩ := platform.crdt.exists_write_of_shown (Option.isSome_of_eq_some hv)
  rcases List.mem_cons.mp hw.1 with rfl | hw
  · exact absurd hpath (by decide)
  · rw [List.mem_singleton.mp hw] at hpath
    exact absurd hpath (by decide)

/-- A service registered as `a/b` is not found under that name. -/
theorem slashed_not_keyed : ∃ x : Exchange platform,
    (system platform).Reach (fun _ op => op.KeyedIds) x ∧
      (x.replica "a").Lists "a" ∧ ¬ (x.replica "a").Keyed "a/b" := by
  obtain ⟨x, hx, hrun, hlisted⟩ := serving_lists
  refine ⟨x, hx, hlisted, fun h => ?_⟩
  obtain ⟨⟨info, -, -, hentry⟩, -⟩ := h 80 ∅
  have hnone : ((x.replica "a").registerService "a/b" 80 ∅).lookupService "a/b" = [] := by
    cases hrun
    rfl
  rw [hnone] at hentry
  cases hentry

end

end Exchange
end Pmd
