import Pmd.Foundation.Replicas
import Pmd.Foundation.Json
import Mathlib.Data.List.Lemmas

/-!
# The concordat document interface

`Concordat` is the delta-state document crate as the daemon uses it: the
operations of `CrdtDoc`, its version vector and its codec. The crate is not part
of the repository, so it enters as a parameter. The remaining fields say what is
relied on: every `set` and `remove` is a write with a fresh dot and the causal
past of its replica, `deltaSince` carries the writes its argument does not
cover, `mergeDelta` unions writes and joins vectors, and `materialize` shows one
surviving write per path, with paths split at `/` into nested object keys. A write
replaces what is nested at its path.
-/
namespace Pmd
open Foundation

abbrev Path := List String
abbrev DocWrite := Write String Path Json

/-- `/a/b` addresses key `b` of object `a`; empty segments are dropped. -/
def splitPath (path : String) : Path :=
  ((path.toList.splitOn '/').filter (· ≠ [])).map String.ofList

/-- A text that is one key of a path. -/
def PlainName (s : String) : Prop := s ≠ "" ∧ '/' ∉ s.toList

instance (s : String) : Decidable (PlainName s) := inferInstanceAs (Decidable (_ ∧ _))

/-- The write a replica `r` at vector `v` makes next. -/
def stamp (r : String) (v : VersionVector String) (path : String) (x : Option Json) : DocWrite :=
  Replica.next r v (splitPath path) x

def tickVv (r : String) (v : VersionVector String) : VersionVector String :=
  Function.update v r (v r + 1)

structure Concordat where
  Doc : Type
  Delta : Type
  /-- The bytes a delta is encoded to. -/
  Encoded : Type
  new : String → Doc
  set : Doc → String → Json → Doc
  remove : Doc → String → Doc
  deltaSince : Doc → VersionVector String → Delta
  mergeDelta : Doc → Delta → Doc
  versionVector : Doc → VersionVector String
  materialize : Doc → Json
  encode : Delta → Encoded
  decode : Encoded → Option Delta
  replica : Doc → String
  writes : Doc → Set DocWrite
  /-- The value `materialize` takes for a path, if any. -/
  shown : Doc → Path → Option Json
  deltaWrites : Delta → Set DocWrite
  deltaVv : Delta → VersionVector String
  decode_encode : ∀ δ, decode (encode δ) = some δ
  replica_new : ∀ r, replica (new r) = r
  writes_new : ∀ r, writes (new r) = ∅
  vv_new : ∀ r, versionVector (new r) = ⊥
  replica_set : ∀ d p v, replica (set d p v) = replica d
  writes_set : ∀ d p v, writes (set d p v) =
    insert (stamp (replica d) (versionVector d) p (some v)) (writes d)
  vv_set : ∀ d p v, versionVector (set d p v) = tickVv (replica d) (versionVector d)
  replica_remove : ∀ d p, replica (remove d p) = replica d
  writes_remove : ∀ d p, writes (remove d p) =
    insert (stamp (replica d) (versionVector d) p none) (writes d)
  vv_remove : ∀ d p, versionVector (remove d p) = tickVv (replica d) (versionVector d)
  deltaWrites_since : ∀ d v, deltaWrites (deltaSince d v) =
    {w | w ∈ writes d ∧ ¬ Covers v w.dot}
  deltaVv_since : ∀ d v, deltaVv (deltaSince d v) = versionVector d
  replica_merge : ∀ d δ, replica (mergeDelta d δ) = replica d
  writes_merge : ∀ d δ, writes (mergeDelta d δ) = writes d ∪ deltaWrites δ
  vv_merge : ∀ d δ, versionVector (mergeDelta d δ) = versionVector d ⊔ deltaVv δ
  materialize_congr : ∀ d e, DotsIdentify (writes d) → writes d = writes e →
    materialize d = materialize e
  shown_survivor : ∀ d p,
    (∃ w, Survives (writes d) w ∧ w.path = p ∧ shown d p = w.value) ∨
      ((∀ w, Survives (writes d) w → w.path ≠ p) ∧ shown d p = none)
  /-- A shown path that parts ways with every other one is a leaf. -/
  materialize_leaf : ∀ d p v, shown d p = some v →
    (∀ q, (shown d q).isSome → q ≠ p → ¬ q <+: p ∧ ¬ p <+: q) →
      (materialize d).descend p = some v
  /-- A path below which something is shown, and nothing above, is an object. -/
  materialize_inner : ∀ d q, (∀ p, (shown d p).isSome → ¬ p <+: q) →
    (q = [] ∨ ∃ p, (shown d p).isSome ∧ q <+: p) →
      ∃ m, (materialize d).descend q = some (.object m) ∧ (m.map Prod.fst).Nodup ∧
        ∀ k, k ∈ m.map Prod.fst ↔ ∃ p, (shown d p).isSome ∧ q ++ [k] <+: p
  /-- Nothing else is found than what stands above a shown path or in a shown value. -/
  materialize_found : ∀ d q, ((materialize d).descend q).isSome → q = [] ∨
    ∃ p v, shown d p = some v ∧ (q <+: p ∨ ∃ rest, q = p ++ rest ∧ (v.descend rest).isSome)
  /-- Objects are maps. -/
  materialize_unique : ∀ d, (∀ w ∈ writes d, ∀ v ∈ w.value, v.UniqueKeys) →
    (materialize d).UniqueKeys

attribute [simp] Concordat.decode_encode Concordat.replica_new Concordat.writes_new
  Concordat.vv_new Concordat.replica_set Concordat.vv_set Concordat.replica_remove
  Concordat.vv_remove Concordat.deltaVv_since Concordat.replica_merge Concordat.vv_merge

namespace Concordat
variable (K : Concordat)

/-- What a document holds, as a replica. -/
def asReplica (d : K.Doc) : Replica String Path Json := ⟨K.writes d, K.versionVector d⟩

theorem asReplica_set (d : K.Doc) (p : String) (v : Json) :
    K.asReplica (K.set d p v) = (K.asReplica d).append (K.replica d) (splitPath p) (some v) := by
  rw [asReplica, K.writes_set, K.vv_set]
  rfl

theorem asReplica_remove (d : K.Doc) (p : String) :
    K.asReplica (K.remove d p) = (K.asReplica d).append (K.replica d) (splitPath p) none := by
  rw [asReplica, K.writes_remove, K.vv_remove]
  rfl

theorem asReplica_merge (d : K.Doc) (δ : K.Delta) :
    K.asReplica (K.mergeDelta d δ) = (K.asReplica d).absorb (K.deltaWrites δ) (K.deltaVv δ) := by
  rw [asReplica, K.writes_merge, K.vv_merge]
  rfl

theorem materialize_absent (d : K.Doc) (q : Path) (hne : q ≠ [])
    (h : ∀ p, (K.shown d p).isSome → ¬ p <+: q ∧ ¬ q <+: p) :
    (K.materialize d).descend q = none := by
  rw [← Option.not_isSome_iff_eq_none]
  intro hfound
  obtain ⟨p, v, hv, hcases⟩ := (K.materialize_found d q hfound).resolve_left hne
  obtain ⟨hpq, hqp⟩ := h p (Option.isSome_of_eq_some hv)
  rcases hcases with hq | ⟨rest, rfl, -⟩
  · exact hqp hq
  · exact hpq (List.prefix_append p rest)

/-- What is shown at a path depends only on the writes at that path and above it. -/
def PathLocal : Prop :=
  ∀ d e p, DotsIdentify (K.writes d) →
    (∀ w, w.path <+: p → (w ∈ K.writes d ↔ w ∈ K.writes e)) → K.shown d p = K.shown e p

/-- A sequence of `set` and `remove` at paths and values that satisfy `A`. -/
inductive Edits (A : String → Option Json → Prop) : K.Doc → K.Doc → Prop
  | refl (d : K.Doc) : Edits A d d
  | set {d e : K.Doc} {p : String} {v : Json} (h : Edits A d e) (hA : A p (some v)) :
      Edits A d (K.set e p v)
  | remove {d e : K.Doc} {p : String} (h : Edits A d e) (hA : A p none) :
      Edits A d (K.remove e p)

namespace Edits
variable {K} {A : String → Option Json → Prop} {d e : K.Doc}

theorem replica (h : K.Edits A d e) : K.replica e = K.replica d := by
  induction h with
  | refl => rfl
  | set _ _ ih => rw [K.replica_set, ih]
  | remove _ _ ih => rw [K.replica_remove, ih]

/-- The vector of a document that covers its writes still does after edits. -/
theorem covers (h : K.Edits A d e) (hd : ∀ w ∈ K.writes d, Covers (K.versionVector d) w.dot) :
    ∀ w ∈ K.writes e, Covers (K.versionVector e) w.dot := by
  have hstamp : ∀ (e : K.Doc) (p : String) (x : Option Json),
      (∀ w ∈ K.writes e, Covers (K.versionVector e) w.dot) →
      ∀ w ∈ insert (stamp (K.replica e) (K.versionVector e) p x) (K.writes e),
        Covers (tickVv (K.replica e) (K.versionVector e)) w.dot := by
    rintro e p x he w (rfl | hw)
    · simp [Covers, stamp, Replica.next, tickVv]
    · exact (he w hw).mono (le_update_self_iff.mpr (Nat.le_succ _))
  induction h with
  | refl => exact hd
  | set _ _ ih =>
    rw [K.writes_set, K.vv_set]
    exact hstamp _ _ _ ih
  | remove _ _ ih =>
    rw [K.writes_remove, K.vv_remove]
    exact hstamp _ _ _ ih

theorem writes_subset (h : K.Edits A d e) : K.writes d ⊆ K.writes e := by
  induction h with
  | refl => exact subset_rfl
  | set _ _ ih =>
    rw [K.writes_set]
    exact ih.trans (Set.subset_insert _ _)
  | remove _ _ ih =>
    rw [K.writes_remove]
    exact ih.trans (Set.subset_insert _ _)

/-- Every new write is one of the edits, made by the document's own replica. -/
theorem mem_writes (h : K.Edits A d e) {w : DocWrite} (hw : w ∈ K.writes e) :
    w ∈ K.writes d ∨ ∃ p, A p w.value ∧ w.path = splitPath p ∧ w.dot.replica = K.replica d := by
  induction h with
  | refl => exact .inl hw
  | set h hA ih =>
    rw [K.writes_set] at hw
    rcases hw with rfl | hw
    · exact .inr ⟨_, hA, rfl, h.replica⟩
    · exact ih hw
  | remove h hA ih =>
    rw [K.writes_remove] at hw
    rcases hw with rfl | hw
    · exact .inr ⟨_, hA, rfl, h.replica⟩
    · exact ih hw

/-- Edits elsewhere leave the writes at a path and above it. -/
theorem mem_writes_iff (h : K.Edits A d e) {q : Path} (hA : ∀ p x, A p x → ¬ splitPath p <+: q)
    (w : DocWrite) (hw : w.path <+: q) : w ∈ K.writes d ↔ w ∈ K.writes e := by
  refine ⟨fun hd => h.writes_subset hd, fun he => ?_⟩
  rcases h.mem_writes he with hd | ⟨p, hp, hpath, -⟩
  · exact hd
  · rw [hpath] at hw
    exact absurd hw (hA p w.value hp)

/-- Edits keep a family of documents coherent. -/
theorem coherent {ι : Type} [DecidableEq ι] {name : ι → String} (hname : Function.Injective name)
    {ρ : ι → Replica String Path Json} {i : ι} (h : K.Edits A d e) (hρ : Coherent name ρ)
    (hd : ρ i = K.asReplica d) (hr : K.replica d = name i) :
    Coherent name (Function.update ρ i (K.asReplica e)) ∧
      Extends ρ (Function.update ρ i (K.asReplica e)) := by
  have happend : ∀ {e : K.Doc} (p : Path) (x : Option Json), K.replica e = name i →
      Coherent name (Function.update ρ i (K.asReplica e)) ∧
        Extends ρ (Function.update ρ i (K.asReplica e)) →
      Coherent name (Function.update ρ i ((K.asReplica e).append (K.replica e) p x)) ∧
        Extends ρ (Function.update ρ i ((K.asReplica e).append (K.replica e) p x)) := by
    intro e p x he ih
    have hc := ih.1.append i p x hname
    have hx := ih.1.extends_append i p x
    rw [Function.update_self, Function.update_idem, ← he] at hc hx
    exact ⟨hc, ih.2.trans hx⟩
  induction h with
  | refl =>
    rw [← hd, Function.update_eq_self]
    exact ⟨hρ, .refl ρ⟩
  | set h _ ih =>
    rw [K.asReplica_set]
    exact happend _ _ (h.replica.trans hr) ih
  | remove h _ ih =>
    rw [K.asReplica_remove]
    exact happend _ _ (h.replica.trans hr) ih

end Edits

/-- One surviving write at a path is the one that is shown there. -/
theorem shown_of_unique {d : K.Doc} {p : Path} {w : DocWrite} (hw : Survives (K.writes d) w)
    (hp : w.path = p) (huniq : ∀ u, Survives (K.writes d) u → u.path = p → u = w) :
    K.shown d p = w.value := by
  rcases K.shown_survivor d p with ⟨u, hu, hup, hs⟩ | ⟨hnone, -⟩
  · rw [hs, huniq u hu hup]
  · exact absurd hp (hnone w hw)

theorem exists_write_of_shown {d : K.Doc} {p : Path} (h : (K.shown d p).isSome) :
    ∃ w, Survives (K.writes d) w ∧ w.path = p ∧ K.shown d p = w.value := by
  rcases K.shown_survivor d p with hw | ⟨-, hnone⟩
  · exact hw
  · simp [hnone] at h

end Concordat
end Pmd
