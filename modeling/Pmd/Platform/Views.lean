import Pmd.Platform.Concordat
import Mathlib.Data.String.Basic

/-!
# What a document shows after an edit

A document is settled when its vector covers its writes, no write looks ahead of the
document's own counter, and dots identify its writes. In a settled document `set`
shows its value and nothing below it, `remove` right after `set` shows nothing, and
both leave the paths beside them alone.
-/
namespace Pmd
open Foundation

namespace Concordat

/-- What is found at a path of the snapshot depends only on what is shown above and
below it. -/
def SubtreeLocal (K : Concordat) : Prop :=
  ∀ d e q, (∀ p, p <+: q ∨ q <+: p → K.shown d p = K.shown e p) →
    (K.materialize d).descend q = (K.materialize e).descend q

/-- What is found at a path of the snapshot depends only on the writes above and below it. -/
def SnapshotLocal (K : Concordat) : Prop :=
  ∀ d e q, DotsIdentify (K.writes d) →
    (∀ w, w.path <+: q ∨ q <+: w.path → (w ∈ K.writes d ↔ w ∈ K.writes e)) →
      (K.materialize d).descend q = (K.materialize e).descend q

/-- The snapshot lists the keys of an inner object in order. -/
def SortedKeys (K : Concordat) : Prop :=
  ∀ d q m, (∀ p, (K.shown d p).isSome → ¬ p <+: q) →
    (K.materialize d).descend q = some (.object m) → (m.map Prod.fst).Pairwise (· < ·)

structure Settled (K : Concordat) (d : K.Doc) : Prop where
  covers : ∀ w ∈ K.writes d, Covers (K.versionVector d) w.dot
  past : ∀ w ∈ K.writes d, w.past (K.replica d) ≤ K.versionVector d (K.replica d)
  identify : DotsIdentify (K.writes d)

/-- `set` replaces whatever the document holds at exactly that path. -/
def SetReplaces (K : Concordat) : Prop :=
  ∀ d p v, K.Settled d → (K.materialize (K.set d p v)).descend (splitPath p) = some v

/-- The snapshot is a tree of maps: edits stay local to their paths, values are replaced
where they are set, and maps list their keys in order. -/
structure Hierarchical (K : Concordat) : Prop where
  path : K.PathLocal
  subtree : K.SubtreeLocal
  replaces : K.SetReplaces
  sorted : K.SortedKeys

theorem Hierarchical.snapshotLocal {K : Concordat} (h : K.Hierarchical) : K.SnapshotLocal := by
  refine fun d e q hd hw => h.subtree d e q fun p hp => h.path d e p hd fun w hwp => hw w ?_
  rcases hp with hp | hp
  · exact .inl (hwp.trans hp)
  · exact List.prefix_or_prefix_of_prefix hwp hp

/-- `e` is `d` with one more write of its own replica. -/
structure Appended (K : Concordat) (d e : K.Doc) (p : String) (x : Option Json) : Prop where
  replica : K.replica e = K.replica d
  writes : K.writes e = insert (stamp (K.replica d) (K.versionVector d) p x) (K.writes d)
  vv : K.versionVector e = tickVv (K.replica d) (K.versionVector d)

variable {K : Concordat}

theorem appended_set (d : K.Doc) (p : String) (v : Json) :
    K.Appended d (K.set d p v) p (some v) :=
  ⟨K.replica_set d p v, K.writes_set d p v, K.vv_set d p v⟩

theorem appended_remove (d : K.Doc) (p : String) : K.Appended d (K.remove d p) p none :=
  ⟨K.replica_remove d p, K.writes_remove d p, K.vv_remove d p⟩

namespace Appended
variable {d e : K.Doc} {p : String} {x : Option Json} (h : K.Appended d e p x)
include h

theorem vv_le : K.versionVector d ≤ K.versionVector e := by
  rw [h.vv]
  exact le_update_self_iff.mpr (Nat.le_succ _)

theorem vv_self : K.versionVector e (K.replica d) = K.versionVector d (K.replica d) + 1 := by
  rw [h.vv, tickVv, Function.update_self]

theorem mem : stamp (K.replica d) (K.versionVector d) p x ∈ K.writes e := by
  rw [h.writes]
  exact .inl rfl

/-- What holds of all writes and of the new one. -/
theorem forall_writes {Q : Path → Option Json → Prop} (hd : ∀ w ∈ K.writes d, Q w.path w.value)
    (hnew : Q (splitPath p) x) : ∀ w ∈ K.writes e, Q w.path w.value := by
  intro w hw
  rw [h.writes] at hw
  rcases hw with rfl | hw
  · exact hnew
  · exact hd w hw

theorem settled (hd : K.Settled d) : K.Settled e := by
  refine ⟨fun w hw => ?_, fun w hw => ?_, ?_⟩
  · rw [h.writes] at hw
    rcases hw with rfl | hw
    · have hself := h.vv_self
      simp only [Covers, stamp, Replica.next, hself, le_refl]
    · exact (hd.covers w hw).mono h.vv_le
  · rw [h.writes] at hw
    rw [h.replica, h.vv_self]
    rcases hw with rfl | hw
    · exact Nat.le_succ _
    · exact (hd.past w hw).trans (Nat.le_succ _)
  · rw [h.writes]
    refine hd.identify.insert rfl fun w hw hr => ?_
    have hcov := hd.covers w hw
    rwa [Covers, hr] at hcov

/-- An edit leaves what is shown above it and beside it. -/
theorem shown_of_not_below (hK : K.PathLocal) (hd : K.Settled d) {q : Path}
    (hq : ¬ splitPath p <+: q) : K.shown e q = K.shown d q := by
  refine hK e d q (h.settled hd).identify fun w hw => ?_
  rw [h.writes, Set.mem_insert_iff, or_iff_right]
  rintro rfl
  exact hq hw

/-- No write of the document supersedes a new one. -/
theorem survives (hd : K.Settled d) :
    Survives (K.writes e) (stamp (K.replica d) (K.versionVector d) p x) := by
  rw [h.writes]
  refine ⟨.inl rfl, fun w hw hs => ?_⟩
  have hcov : K.versionVector d (K.replica d) + 1 ≤ w.past (K.replica d) := hs.2.1
  rcases hw with rfl | hw
  · exact absurd hcov (Nat.not_succ_le_self _)
  · exact absurd (hcov.trans (hd.past w hw)) (Nat.not_succ_le_self _)

end Appended

/-- A value replaces whatever the document holds at the path and below it. -/
theorem Appended.eq_stamp_of_survives {d e : K.Doc} {p : String} {v : Json}
    (h : K.Appended d e p (some v)) (hd : K.Settled d) {u : DocWrite}
    (hu : Survives (K.writes e) u) (hp : splitPath p <+: u.path) :
    u = stamp (K.replica d) (K.versionVector d) p (some v) := by
  have hmem := hu.1
  rw [h.writes] at hmem
  rcases hmem with rfl | hmem
  · rfl
  · exact absurd ⟨hp, hd.covers u hmem, .inl rfl⟩ (hu.2 _ h.mem)

theorem Settled.shown_set {d : K.Doc} (hd : K.Settled d) (p : String) (v : Json) :
    K.shown (K.set d p v) (splitPath p) = some v := by
  have h := appended_set d p v
  exact K.shown_of_unique (h.survives hd) rfl fun u hu hp =>
    h.eq_stamp_of_survives hd hu (hp ▸ List.prefix_rfl)

/-- Below a path that has just been set nothing is shown. -/
theorem Settled.shown_below_set {d : K.Doc} (hd : K.Settled d) (p : String) (v : Json) {q : Path}
    (hq : splitPath p <+: q) (hne : q ≠ splitPath p) : K.shown (K.set d p v) q = none := by
  rcases K.shown_survivor (K.set d p v) q with ⟨u, hu, rfl, -⟩ | ⟨-, hnone⟩
  · rw [(appended_set d p v).eq_stamp_of_survives hd hu hq] at hne
    exact absurd rfl hne
  · exact hnone

/-- `remove` deletes a value the document has just set, with all that was below it. -/
theorem Settled.shown_remove_set {d : K.Doc} (hd : K.Settled d) (p : String) (v : Json) {q : Path}
    (hq : splitPath p <+: q) : K.shown (K.remove (K.set d p v) p) q = none := by
  have hset := appended_set d p v
  have hrem := appended_remove (K.set d p v) p
  rcases K.shown_survivor (K.remove (K.set d p v) p) q with ⟨u, hu, rfl, hshown⟩ | ⟨-, hnone⟩
  · have hmem := hu.1
    rw [hrem.writes, hset.writes] at hmem
    rcases hmem with rfl | rfl | hmem
    · exact hshown
    · exact absurd ⟨hq, hset.vv_self.ge, .inr hset.replica⟩ (hu.2 _ hrem.mem)
    · have hold : stamp (K.replica d) (K.versionVector d) p (some v) ∈
          K.writes (K.remove (K.set d p v) p) := by
        rw [hrem.writes]
        exact .inr hset.mem
      exact absurd ⟨hq, hd.covers u hmem, .inl rfl⟩ (hu.2 _ hold)
  · exact hnone

theorem settled_new (r : String) : K.Settled (K.new r) := by
  have hnone : ∀ w, w ∉ K.writes (K.new r) := fun w hw => by
    rw [K.writes_new] at hw
    exact Set.notMem_empty w hw
  exact ⟨fun w hw => absurd hw (hnone w), fun w hw => absurd hw (hnone w),
    fun w hw => absurd hw (hnone w)⟩

/-- Where a value is all that is shown above and below a path, that path is found in the
value. -/
theorem SubtreeLocal.descend_of_alone (hK : K.SubtreeLocal) {d : K.Doc} {s : String} {p : Path}
    {v : Json} (rest : Path) (hs : splitPath s = p) (hv : K.shown d p = some v)
    (halone : ∀ q, q <+: p ++ rest ∨ p ++ rest <+: q → q ≠ p → K.shown d q = none) :
    (K.materialize d).descend (p ++ rest) = v.descend rest := by
  subst hs
  let e : K.Doc := K.set (K.new "") s v
  have hset : K.shown e (splitPath s) = some v := (settled_new "").shown_set s v
  have hother : ∀ q, q ≠ splitPath s → K.shown e q = none := by
    intro q hne
    rcases K.shown_survivor e q with ⟨w, hw, rfl, -⟩ | ⟨-, hnone⟩
    · have hmem := hw.1
      rw [K.writes_set, K.writes_new, Set.mem_insert_iff, or_iff_left (Set.notMem_empty w)] at hmem
      rw [hmem] at hne
      exact absurd rfl hne
    · exact hnone
  have hleaf : (K.materialize e).descend (splitPath s) = some v :=
    K.materialize_leaf e (splitPath s) v hset fun q hq hne => by
      rw [hother q hne] at hq
      cases hq
  rw [hK d e (splitPath s ++ rest) fun q hq => ?_, Json.descend_append, hleaf, Option.bind_some]
  by_cases hne : q = splitPath s
  · rw [hne, hv, hset]
  · rw [halone q hq hne, hother q hne]

namespace Edits
variable {A : String → Option Json → Prop} {d e : K.Doc}

/-- Edits are writes made one after another. -/
theorem appends {I : K.Doc → Prop} (h : K.Edits A d e) (hd : I d)
    (hstep : ∀ e e' p x, K.Edits A d e → K.Appended e e' p x → I e → I e') : I e := by
  induction h with
  | refl => exact hd
  | set h _ ih => exact hstep _ _ _ _ h (appended_set _ _ _) ih
  | remove h _ ih => exact hstep _ _ _ _ h (appended_remove _ _) ih

/-- Edits elsewhere leave what a path-local document shows at a path. -/
theorem shown_eq (h : K.Edits A d e) (hK : K.PathLocal) (hd : DotsIdentify (K.writes d)) {q : Path}
    (hA : ∀ p x, A p x → ¬ splitPath p <+: q) : K.shown e q = K.shown d q :=
  (hK d e q hd (h.mem_writes_iff hA)).symm

theorem vv_mono (h : K.Edits A d e) : K.versionVector d ≤ K.versionVector e :=
  h.appends (I := fun e => K.versionVector d ≤ K.versionVector e) le_rfl
    fun _ _ _ _ _ ha hi => hi.trans ha.vv_le

/-- Edits only advance the document's own counter. -/
theorem vv_other (h : K.Edits A d e) {r : String} (hr : r ≠ K.replica d) :
    K.versionVector e r = K.versionVector d r :=
  h.appends (I := fun e => K.versionVector e r = K.versionVector d r) rfl
    fun e _ _ _ he ha hi => by rw [ha.vv, tickVv, he.replica, Function.update_of_ne hr, hi]

theorem past_le (h : K.Edits A d e) {w : DocWrite} (hw : w ∈ K.writes e) :
    w ∈ K.writes d ∨ w.past ≤ K.versionVector e := by
  refine h.appends (I := fun e => w ∈ K.writes e → w ∈ K.writes d ∨ w.past ≤ K.versionVector e)
    .inl (fun e e' p x _ ha hi hw => ?_) hw
  rw [ha.writes] at hw
  rcases hw with rfl | hw
  · exact .inr ha.vv_le
  · exact (hi hw).imp_right fun hp => hp.trans ha.vv_le

/-- Fresh dots identify the new writes among any others that the document's own counter
bounds. -/
theorem identify (h : K.Edits A d e) {W : Set DocWrite} (hW : DotsIdentify W)
    (hd : K.writes d ⊆ W) (hbound : ∀ w ∈ W, w.dot.replica = K.replica d →
      w.dot.counter ≤ K.versionVector d (K.replica d)) :
    DotsIdentify (K.writes e ∪ W) := by
  refine (h.appends (I := fun e => DotsIdentify (K.writes e ∪ W) ∧
    ∀ w ∈ K.writes e ∪ W, w.dot.replica = K.replica d →
      w.dot.counter ≤ K.versionVector e (K.replica d)) ?_ fun e e' p x he ha hi => ?_).1
  · rw [Set.union_eq_self_of_subset_left hd]
    exact ⟨hW, hbound⟩
  · have hself := ha.vv_self
    rw [he.replica] at hself
    rw [ha.writes, Set.insert_union, hself, he.replica]
    refine ⟨hi.1.insert rfl hi.2, fun w hw hr => ?_⟩
    rcases hw with rfl | hw
    · exact le_rfl
    · exact (hi.2 w hw hr).trans (Nat.le_succ _)

end Edits
end Concordat
end Pmd
