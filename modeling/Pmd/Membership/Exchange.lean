import Pmd.Membership.Writes
import Pmd.Platform.Reference
import Pmd.Foundation.Runs

/-!
# Replicas that exchange deltas

Any number of replicas add and remove nodes, register services, and merge deltas
that some replica has produced at any time against any vector, in any order and any
number of times. A removal made where a node's only record was known hides that
record wherever the removal arrives.
-/
namespace Pmd
open Foundation

variable {P : Platform}

/-- Replica `r` is `Membership::new(r)`; `produced` holds every delta made so far. -/
structure Exchange (P : Platform) where
  replica : String → Membership P
  produced : List P.crdt.Encoded

inductive ExchangeOp (P : Platform) where
  | addNode (r id : String) (addr : P.Addr) (metadata : StrMap String) (now : ℕ)
  | removeNode (r id : String)
  | registerService (r name : String) (port : UInt16) (metadata : StrMap String)
  | unregisterService (r name : String)
  /-- Against the empty vector this is the full delta. -/
  | deltaForPeer (r : String) (peerVv : VersionVector String)
  /-- Merges the produced delta of this index. -/
  | mergeRemote (r : String) (i : ℕ)

namespace ExchangeOp

/-- Node ids are UUIDs. -/
def PlainIds : ExchangeOp P → Prop
  | .addNode _ id _ _ _ => PlainName id
  | .removeNode _ id => PlainName id
  | _ => True

/-- Some replica adds node `n`. -/
def adds (n : String) : ExchangeOp P → Bool
  | .addNode _ id _ _ _ => id = n
  | _ => false

end ExchangeOp

namespace Exchange

def start : Exchange P := ⟨.new, []⟩

def setReplica (x : Exchange P) (r : String) (m : Membership P) : Exchange P :=
  { x with replica := Function.update x.replica r m }

def step (x : Exchange P) : ExchangeOp P → Option (Exchange P)
  | .addNode r id addr metadata now =>
    some (x.setReplica r ((x.replica r).addNode id addr metadata now))
  | .removeNode r id => some (x.setReplica r ((x.replica r).removeNode id))
  | .registerService r name port metadata =>
    some (x.setReplica r ((x.replica r).registerService name port metadata))
  | .unregisterService r name => some (x.setReplica r ((x.replica r).unregisterService name))
  | .deltaForPeer r peerVv =>
    some { x with produced := x.produced ++ [(x.replica r).deltaForPeer peerVv] }
  | .mergeRemote r i => do
    let (m, _) ← (x.replica r).mergeRemote (← x.produced[i]?)
    return x.setReplica r m

def system (P : Platform) : System (Exchange P) (ExchangeOp P) where
  init x := x = start
  step := step

abbrev doc (x : Exchange P) (r : String) : P.Doc := (x.replica r).doc

/-- Every write that stands in a document or in a delta. -/
def pool (x : Exchange P) : Set DocWrite :=
  {w | (∃ r, w ∈ P.crdt.writes (x.doc r)) ∨
    ∃ b ∈ x.produced, ∃ δ, P.crdt.decode b = some δ ∧ w ∈ P.crdt.deltaWrites δ}

/-- The writes an operation adds. -/
inductive Adds (x : Exchange P) : ExchangeOp P → DocWrite → Prop
  | record {r id : String} {addr : P.Addr} {metadata : StrMap String} {now : ℕ} :
      Adds x (.addNode r id addr metadata now) (stamp (P.crdt.replica (x.doc r))
        (P.crdt.versionVector (x.doc r)) (nodePath id) (some (nodeRecord addr metadata now)))
  | removal {r id path : String} {w : DocWrite} (hrem : IsRemoval id path w.value)
      (hpath : w.path = splitPath path) : Adds x (.removeNode r id) w
  | service {op : ExchangeOp P} {r name : String} {w : DocWrite}
      (hpath : w.path = splitPath (servicePath r name)) : Adds x op w

variable {x x' : Exchange P} {op : ExchangeOp P}

@[simp] theorem setReplica_self (x : Exchange P) (r : String) (m : Membership P) :
    (x.setReplica r m).replica r = m :=
  Function.update_self _ _ _

theorem setReplica_ne (x : Exchange P) {r r' : String} (m : Membership P) (h : r' ≠ r) :
    (x.setReplica r m).replica r' = x.replica r' :=
  Function.update_of_ne h _ _

/-- What a replica becomes in one step: edited, or merged with a produced delta. -/
inductive ReplicaMove (x : Exchange P) (r : String) (m : Membership P) : ExchangeOp P → Prop
  | same {op : ExchangeOp P} (h : m = x.replica r) : ReplicaMove x r m op
  | edited {op : ExchangeOp P} {A : String → Option Json → Prop}
      (h : P.crdt.Edits A (x.doc r) m.doc)
      (hA : ∀ w ∈ P.crdt.writes m.doc, w ∈ P.crdt.writes (x.doc r) ∨ Adds x op w) :
      ReplicaMove x r m op
  | merged {op : ExchangeOp P} {b : P.crdt.Encoded} {δ : P.crdt.Delta} (hb : b ∈ x.produced)
      (hδ : P.crdt.decode b = some δ) (h : m.doc = P.crdt.mergeDelta (x.doc r) δ) :
      ReplicaMove x r m op

/-- The deltas after a step: at most one is new, made from a document. -/
theorem step_produced (h : (system P).step x op = some x') : x'.produced = x.produced ∨
    ∃ r v, x'.produced = x.produced ++ [(x.replica r).deltaForPeer v] := by
  cases op with
  | deltaForPeer r v =>
    cases h
    exact .inr ⟨r, v, rfl⟩
  | mergeRemote r i =>
    obtain ⟨b, -, h⟩ := Option.bind_eq_some_iff.mp h
    obtain ⟨⟨m, changes⟩, -, h⟩ := Option.bind_eq_some_iff.mp h
    cases h
    exact .inl rfl
  | _ =>
    cases h
    exact .inl rfl

theorem step_replica (h : (system P).step x op = some x') (r : String) :
    ReplicaMove x r (x'.replica r) op := by
  have hset : ∀ {r' : String} {m : Membership P}, ReplicaMove x r' m op →
      ReplicaMove x r ((x.setReplica r' m).replica r) op := by
    intro r' m hm
    by_cases hr : r = r'
    · subst hr
      rwa [setReplica_self]
    · rw [setReplica_ne _ _ hr]
      exact .same rfl
  cases op with
  | addNode r' id addr metadata now =>
    cases h
    refine hset (.edited (A := fun _ _ => True) (.set (.refl _) trivial) fun w hw => ?_)
    rw [Membership.addNode, P.crdt.writes_set] at hw
    rcases hw with rfl | hw
    · exact .inr .record
    · exact .inl hw
  | removeNode r' id =>
    cases h
    have hedits := (x.replica r').removeNode_edits id
    refine hset (.edited hedits fun w hw => (hedits.mem_writes hw).imp_right ?_)
    rintro ⟨path, hrem, hpath, -⟩
    exact .removal hrem hpath
  | registerService r' name port metadata =>
    cases h
    refine hset (.edited (A := fun _ _ => True) (.set (.refl _) trivial) fun w hw => ?_)
    rw [Membership.registerService, P.crdt.writes_set] at hw
    rcases hw with rfl | hw
    · exact .inr (.service rfl)
    · exact .inl hw
  | unregisterService r' name =>
    cases h
    refine hset (.edited (A := fun _ _ => True) (.remove (.refl _) trivial) fun w hw => ?_)
    rw [Membership.unregisterService, P.crdt.writes_remove] at hw
    rcases hw with rfl | hw
    · exact .inr (.service rfl)
    · exact .inl hw
  | deltaForPeer r' v =>
    cases h
    exact .same rfl
  | mergeRemote r' i =>
    obtain ⟨b, hb, h⟩ := Option.bind_eq_some_iff.mp h
    obtain ⟨⟨m, changes⟩, hm, h⟩ := Option.bind_eq_some_iff.mp h
    cases h
    obtain ⟨δ, hδ, rfl, -⟩ := Membership.mergeRemote_eq_some hm
    exact hset (.merged (List.mem_of_getElem? hb) hδ rfl)

/-- What is new in the documents is all that is new: deltas are made from documents. -/
theorem mem_pool_of_docs {Q : DocWrite → Prop} (h : (system P).step x op = some x')
    (hdocs : ∀ r, ∀ w ∈ P.crdt.writes (x'.doc r), w ∈ x.pool ∨ Q w) :
    ∀ w ∈ x'.pool, w ∈ x.pool ∨ Q w := by
  rintro w (⟨r, hw⟩ | ⟨b, hb, δ, hδ, hw⟩)
  · exact hdocs r w hw
  · refine .inl ?_
    rcases step_produced h with hsame | ⟨r, v, hnew⟩
    · rw [hsame] at hb
      exact .inr ⟨b, hb, δ, hδ, hw⟩
    · rw [hnew, List.mem_append, List.mem_singleton] at hb
      rcases hb with hb | rfl
      · exact .inr ⟨b, hb, δ, hδ, hw⟩
      · rw [Membership.deltaForPeer, P.crdt.decode_encode, Option.some.injEq] at hδ
        subst hδ
        rw [P.crdt.deltaWrites_since] at hw
        exact .inl ⟨r, hw.1⟩

/-- What a step makes of the documents it edits is all that is new. -/
theorem mem_pool_of_edits {Q : DocWrite → Prop} (h : (system P).step x op = some x')
    (hedits : ∀ r A, P.crdt.Edits A (x.doc r) (x'.doc r) →
      (∀ w ∈ P.crdt.writes (x'.doc r), w ∈ P.crdt.writes (x.doc r) ∨ Adds x op w) →
      ∀ w ∈ P.crdt.writes (x'.doc r), w ∈ P.crdt.writes (x.doc r) ∨ Q w) :
    ∀ w ∈ x'.pool, w ∈ x.pool ∨ Q w := by
  refine mem_pool_of_docs h fun r w hw => ?_
  cases step_replica h r with
  | same hm =>
    rw [doc, hm] at hw
    exact .inl (.inl ⟨r, hw⟩)
  | edited hm hA => exact (hedits r _ hm hA w hw).imp_left fun hw => .inl ⟨r, hw⟩
  | merged hb hδ hm =>
    rw [doc, hm, P.crdt.writes_merge] at hw
    rcases hw with hw | hw
    · exact .inl (.inl ⟨r, hw⟩)
    · exact .inl (.inr ⟨_, hb, _, hδ, hw⟩)

theorem mem_pool_step (h : (system P).step x op = some x') :
    ∀ w ∈ x'.pool, w ∈ x.pool ∨ Adds x op w :=
  mem_pool_of_edits h fun _ _ _ hA => hA

/-- Replicas keep what they hold. -/
theorem writes_subset_step (h : (system P).step x op = some x') (r : String) :
    P.crdt.writes (x.doc r) ⊆ P.crdt.writes (x'.doc r) := by
  cases step_replica h r with
  | same hm => rw [doc, doc, hm]
  | edited hm _ => exact hm.writes_subset
  | merged _ _ hm =>
    rw [doc, doc, hm, P.crdt.writes_merge]
    exact Set.subset_union_left

/-- The vectors of documents and deltas cover their writes, all paths are document
paths, and at the path of a node there are only records and dead markers. -/
structure Sound (x : Exchange P) : Prop where
  docs : ∀ r, ∀ w ∈ P.crdt.writes (x.doc r), Covers (P.crdt.versionVector (x.doc r)) w.dot
  deltas : ∀ b ∈ x.produced, ∀ δ, P.crdt.decode b = some δ →
    ∀ w ∈ P.crdt.deltaWrites δ, Covers (P.crdt.deltaVv δ) w.dot
  paths : ∀ w ∈ x.pool, IsDocPath w.path
  values : ∀ w ∈ x.pool, ∀ id, w.path = ["nodes", id] → w.value = some deadMarker ∨
    ∃ (addr : P.Addr) (metadata : StrMap String) (now : ℕ),
      w.value = some (nodeRecord addr metadata now)

theorem Adds.isDocPath {w : DocWrite} (h : Adds x op w) (hop : op.PlainIds) : IsDocPath w.path := by
  cases h with
  | record => exact .inl ⟨_, splitPath_nodePath hop⟩
  | removal hrem hpath =>
    rw [hpath]
    exact hrem.isDocPath hop
  | @service _ r name _ hpath =>
    obtain ⟨rest, hrest⟩ := splitPath_servicePath r name
    rw [hpath, hrest]
    exact .inr ⟨rest, rfl⟩

theorem Adds.value {w : DocWrite} {id : String} (h : Adds x op w) (hpath : w.path = ["nodes", id]) :
    w.value = some deadMarker ∨ ∃ (addr : P.Addr) (metadata : StrMap String) (now : ℕ),
      w.value = some (nodeRecord addr metadata now) := by
  cases h with
  | record => exact .inr ⟨_, _, _, rfl⟩
  | removal hrem _ => exact .inl hrem.1
  | @service _ r name _ hpath' =>
    obtain ⟨rest, hrest⟩ := splitPath_servicePath r name
    rw [hpath', hrest] at hpath
    simp at hpath

namespace Sound

theorem step (hi : Sound x) (hop : op.PlainIds) (h : (system P).step x op = some x') :
    Sound x' := by
  refine ⟨fun r => ?_, fun b hb δ hδ => ?_, fun w hw => ?_, fun w hw id hpath => ?_⟩
  · cases step_replica h r with
    | same hm =>
      rw [doc, hm]
      exact hi.docs r
    | edited hm _ => exact hm.covers (hi.docs r)
    | @merged b δ hb hδ hm =>
      intro w hw
      rw [doc, hm, P.crdt.writes_merge] at hw
      rw [doc, hm, P.crdt.vv_merge, covers_sup]
      exact hw.imp (hi.docs r w) (hi.deltas b hb δ hδ w)
  · rcases step_produced h with hsame | ⟨r, v, hnew⟩
    · rw [hsame] at hb
      exact hi.deltas b hb δ hδ
    · rw [hnew, List.mem_append, List.mem_singleton] at hb
      rcases hb with hb | rfl
      · exact hi.deltas b hb δ hδ
      · rw [Membership.deltaForPeer, P.crdt.decode_encode, Option.some.injEq] at hδ
        subst hδ
        intro w hw
        rw [P.crdt.deltaWrites_since] at hw
        rw [P.crdt.deltaVv_since]
        exact hi.docs r w hw.1
  · rcases mem_pool_step h w hw with hw | hadd
    · exact hi.paths w hw
    · exact hadd.isDocPath hop
  · rcases mem_pool_step h w hw with hw | hadd
    · exact hi.values w hw id hpath
    · exact hadd.value hpath

theorem plain (hi : Sound x) (r : String) : (x.replica r).Plain := by
  refine ⟨fun p hp => ?_, fun id val hval => ?_⟩
  · obtain ⟨w, hw, rfl, -⟩ := P.crdt.exists_write_of_shown hp
    exact hi.paths w (.inl ⟨r, hw.1⟩)
  · obtain ⟨w, hw, hpath, hv⟩ := P.crdt.exists_write_of_shown (by rw [hval]; rfl)
    rw [hval] at hv
    rcases hi.values w (.inl ⟨r, hw.1⟩) id hpath with hdead | ⟨addr, metadata, now, hrec⟩
    · exact .inl (Option.some.inj (hv.trans hdead))
    · exact .inr ⟨addr, metadata, now, Option.some.inj (hv.trans hrec)⟩

end Sound

theorem pool_start : (start : Exchange P).pool = ∅ := by
  ext w
  simp [pool, doc, start, Membership.new]

theorem sound_start : Sound (start : Exchange P) := by
  refine ⟨fun r w hw => ?_, fun b hb => absurd hb List.not_mem_nil, fun w hw => ?_,
    fun w hw => ?_⟩
  · simp [doc, start, Membership.new] at hw
  · rw [pool_start] at hw
    exact absurd hw (Set.notMem_empty w)
  · rw [pool_start] at hw
    exact absurd hw (Set.notMem_empty w)

/-! ## Removals -/

/-- A write at the path of node `n` that is not a dead marker. -/
def IsRecord (n : String) (w : DocWrite) : Prop :=
  w.path = ["nodes", n] ∧ w.value ≠ some deadMarker

/-- The write of `remove_node(n)` at replica `r` that tombstones the node. -/
def removal (x : Exchange P) (r n : String) : DocWrite :=
  stamp (P.crdt.replica (x.doc r)) (P.crdt.versionVector (x.doc r)) (nodePath n) (some deadMarker)

theorem Adds.adds_of_isRecord {n : String} {w : DocWrite} (h : Adds x op w) (hop : op.PlainIds)
    (hw : IsRecord n w) : op.adds n = true := by
  cases h with
  | @record r id addr metadata now =>
    have hpath := hw.1
    simp only [stamp, Replica.next, splitPath_nodePath hop, List.cons.injEq, and_true,
      true_and] at hpath
    exact decide_eq_true hpath
  | removal hrem _ => exact absurd hrem.1 hw.2
  | @service _ r name _ hpath =>
    obtain ⟨rest, hrest⟩ := splitPath_servicePath r name
    have hpath' := hw.1
    rw [hpath, hrest] at hpath'
    simp at hpath'

/-- One `add_node` makes one write. -/
theorem Adds.eq_of_adds {n : String} {w w' : DocWrite} (h : Adds x op w) (h' : Adds x op w')
    (hop : op.PlainIds) (hw : IsRecord n w) (hw' : IsRecord n w') : w = w' := by
  have hadds := h.adds_of_isRecord hop hw
  cases h with
  | record =>
    cases h' with
    | record => rfl
    | service hpath =>
      obtain ⟨rest, hrest⟩ := splitPath_servicePath _ _
      have hpath' := hw'.1
      rw [hpath, hrest] at hpath'
      simp at hpath'
  | removal hrem _ => exact absurd hrem.1 hw.2
  | service hpath =>
    obtain ⟨rest, hrest⟩ := splitPath_servicePath _ _
    have hpath' := hw.1
    rw [hpath, hrest] at hpath'
    simp at hpath'

section Runs
variable {n : String} {ops : List (ExchangeOp P)}

/-- How often `add_node(n)` is executed, at whichever replica. -/
def timesAdded (n : String) (ops : List (ExchangeOp P)) : ℕ := ops.countP (·.adds n)

theorem writes_subset_run (h : (system P).run x ops = some x') (r : String) :
    P.crdt.writes (x.doc r) ⊆ P.crdt.writes (x'.doc r) :=
  System.run_preserves (I := fun y => P.crdt.writes (x.doc r) ⊆ P.crdt.writes (y.doc r))
    (fun _ _ _ hi _ hs => hi.trans (writes_subset_step hs r)) h (System.meets_any x ops) subset_rfl

variable (hops : ∀ op ∈ ops, ExchangeOp.PlainIds op) (h : (system P).run x ops = some x')
include hops h

theorem sound_run (hi : Sound x) : Sound x' := by
  induction ops generalizing x with
  | nil =>
    cases h
    exact hi
  | cons op ops ih =>
    obtain ⟨y, hy, hrun⟩ := Option.bind_eq_some_iff.mp h
    exact ih (fun o ho => hops o (List.mem_cons_of_mem _ ho)) hrun
      (hi.step (hops op List.mem_cons_self) hy)

theorem isRecord_of_run {w : DocWrite} (hn : timesAdded n ops = 0) (hrec : IsRecord n w)
    (hw : w ∈ x'.pool) : w ∈ x.pool := by
  induction ops generalizing x with
  | nil =>
    cases h
    exact hw
  | cons op ops ih =>
    obtain ⟨y, hy, hrun⟩ := Option.bind_eq_some_iff.mp h
    rw [timesAdded, List.countP_cons, Nat.add_eq_zero_iff] at hn
    have hmem := ih (fun o ho => hops o (List.mem_cons_of_mem _ ho)) hrun hn.1
    rcases mem_pool_step hy w hmem with hmem | hadd
    · exact hmem
    · have := hadd.adds_of_isRecord (hops op List.mem_cons_self) hrec
      simp [this] at hn

/-- With one `add_node(n)` there is one record of `n`. -/
theorem isRecord_unique (hn : timesAdded n ops ≤ 1) (hnone : ∀ w ∈ x.pool, ¬ IsRecord n w)
    {w w' : DocWrite} (hw : w ∈ x'.pool) (hw' : w' ∈ x'.pool) (hrec : IsRecord n w)
    (hrec' : IsRecord n w') : w = w' := by
  induction ops generalizing x with
  | nil =>
    cases h
    exact absurd hrec (hnone w hw)
  | cons op ops ih =>
    obtain ⟨y, hy, hrun⟩ := Option.bind_eq_some_iff.mp h
    have hop := hops op List.mem_cons_self
    have hrest : ∀ o ∈ ops, ExchangeOp.PlainIds o := fun o ho => hops o (List.mem_cons_of_mem _ ho)
    have hnew : ∀ w ∈ y.pool, IsRecord n w → Adds x op w := fun w hw hrec =>
      (mem_pool_step hy w hw).resolve_left fun hold => hnone w hold hrec
    rw [timesAdded, List.countP_cons] at hn
    by_cases hadd : op.adds n = true
    · rw [if_pos hadd] at hn
      have hzero : timesAdded n ops = 0 := by
        rw [timesAdded]
        omega
      exact (hnew w (isRecord_of_run hrest hrun hzero hrec hw) hrec).eq_of_adds
        (hnew w' (isRecord_of_run hrest hrun hzero hrec' hw') hrec') hop hrec hrec'
    · rw [if_neg hadd] at hn
      exact ih hrest hrun hn fun w hw hrec => hadd ((hnew w hw hrec).adds_of_isRecord hop hrec)

end Runs

/-- Once replica `r` holds the record of the one `add_node(n)`, no other record of `n`
appears. -/
theorem isRecord_known {r n : String} {xs ops : List (ExchangeOp P)} {y : Exchange P}
    {w₀ : DocWrite} (hxs : ∀ op ∈ xs, ExchangeOp.PlainIds op)
    (hops : ∀ op ∈ ops, ExchangeOp.PlainIds op) (hx : (system P).run start xs = some x)
    (hy : (system P).run x ops = some y) (honce : timesAdded n (xs ++ ops) ≤ 1)
    (hw₀ : w₀ ∈ P.crdt.writes (x.doc r)) (hrec₀ : IsRecord n w₀) {w : DocWrite} (hw : w ∈ y.pool)
    (hrec : IsRecord n w) : w ∈ P.crdt.writes (x.doc r) := by
  have hnone : ∀ w ∈ (start : Exchange P).pool, ¬ IsRecord n w := fun w hw => by
    rw [pool_start] at hw
    exact absurd hw (Set.notMem_empty w)
  have hpool₀ : w₀ ∈ x.pool := .inl ⟨r, hw₀⟩
  rw [timesAdded, List.countP_append] at honce
  -- The record is there, so the one `add_node(n)` is among `xs`.
  have hadded : timesAdded n xs ≠ 0 := fun hzero =>
    hnone w₀ (isRecord_of_run hxs hx hzero hrec₀ hpool₀) hrec₀
  rw [timesAdded] at hadded
  have hlater : timesAdded n ops = 0 := by
    rw [timesAdded]
    omega
  have hwx := isRecord_of_run hops hy hlater hrec hw
  rw [isRecord_unique hxs hx (by rw [timesAdded]; omega) hnone hwx hpool₀ hrec hrec₀]
  exact hw₀

/-- A replica that holds the removal does not list the node if every record of it was
known where the removal was made. -/
theorem not_lists_of_removal {y : Exchange P} {r n k : String} (hx : Sound x) (hy : Sound y)
    (hn : PlainName n) (hk : x.removal r n ∈ P.crdt.writes (y.doc k))
    (hrec : ∀ w ∈ y.pool, IsRecord n w → w ∈ P.crdt.writes (x.doc r)) :
    ¬ (y.replica k).Lists n := by
  refine (hy.plain k).not_lists hk (splitPath_nodePath hn) rfl fun w hw hpath => ?_
  by_cases hdead : w.value = some deadMarker
  · exact .inl hdead
  · exact .inr (hx.docs r w (hrec w (.inl ⟨k, hw⟩) ⟨hpath, hdead⟩))

/-- Removals are stable under stale gossip. Node `n` is added once and removed at a
replica `r` that holds its record. A replica `k` that holds the removal does not list
`n`, and will not list it after any further operations and merges. -/
theorem removed_stays_removed {x₁ x₂ x₃ : Exchange P} {r n k : String}
    {xs ys zs : List (ExchangeOp P)}
    (hops : ∀ op ∈ xs ++ .removeNode r n :: (ys ++ zs), ExchangeOp.PlainIds op)
    (honce : timesAdded n (xs ++ .removeNode r n :: (ys ++ zs)) ≤ 1)
    (hx : (system P).run start xs = some x)
    (hrec : ∃ w ∈ P.crdt.writes (x.doc r), IsRecord n w)
    (hrm : (system P).step x (.removeNode r n) = some x₁)
    (hy : (system P).run x₁ ys = some x₂) (hz : (system P).run x₂ zs = some x₃)
    (hk : x.removal r n ∈ P.crdt.writes (x₂.doc k)) :
    ¬ (x₂.replica k).Lists n ∧ ¬ (x₃.replica k).Lists n := by
  have hxs : ∀ op ∈ xs, ExchangeOp.PlainIds op := fun op hop =>
    hops op (List.mem_append_left _ hop)
  have hrest : ∀ op ∈ .removeNode r n :: (ys ++ zs), ExchangeOp.PlainIds op := fun op hop =>
    hops op (List.mem_append_right _ hop)
  have hys : ∀ op ∈ .removeNode r n :: ys, ExchangeOp.PlainIds op := fun op hop =>
    hrest op (by simp only [List.mem_cons, List.mem_append] at hop ⊢; tauto)
  have hsound : Sound x := sound_run hxs hx sound_start
  have hn : PlainName n := hops (.removeNode r n) (by simp)
  have hrun₂ : (system P).run x (.removeNode r n :: ys) = some x₂ := System.run_step hrm hy
  have hrun₃ : (system P).run x (.removeNode r n :: (ys ++ zs)) = some x₃ := by
    refine System.run_step hrm ?_
    rw [System.run_append, hy]
    exact hz
  have honce₂ : timesAdded n (xs ++ .removeNode r n :: ys) ≤ 1 := by
    simp only [timesAdded, List.countP_cons, List.countP_append] at honce ⊢
    omega
  obtain ⟨w₀, hw₀, hrec₀⟩ := hrec
  constructor
  · exact not_lists_of_removal hsound (sound_run hys hrun₂ hsound) hn hk fun w hw hrec =>
      isRecord_known hxs hys hx hrun₂ honce₂ hw₀ hrec₀ hw hrec
  · exact not_lists_of_removal hsound (sound_run hrest hrun₃ hsound) hn
      (writes_subset_run hz k hk) fun w hw hrec =>
        isRecord_known hxs hrest hx hrun₃ honce hw₀ hrec₀ hw hrec

section
open Reference

/-- Replica `a` adds itself and its delta reaches `b`. -/
def known : List (ExchangeOp platform) :=
  [.addNode "a" "a" (addr 1) ∅ 0, .deltaForPeer "a" ⊥, .mergeRemote "b" 0]

/-- A delta of `b` reaches `c`. -/
def spread : List (ExchangeOp platform) := [.deltaForPeer "b" ⊥, .mergeRemote "c" 1]

/-- Replica `b` removes `a`, the removal reaches `c`, and then the old delta of `a` does. -/
theorem removed_stays_removed_stale : ∃ x₃ : Exchange platform,
    (system platform).run start (known ++ .removeNode "b" "a" :: (spread ++ [.mergeRemote "c" 0])) =
      some x₃ ∧ ¬ (x₃.replica "c").Lists "a" := by
  have hops : ∀ op ∈ known ++ ExchangeOp.removeNode "b" "a" :: (spread ++ [.mergeRemote "c" 0]),
      ExchangeOp.PlainIds op := by
    simp [known, spread, ExchangeOp.PlainIds, PlainName]
  refine ⟨_, rfl, (removed_stays_removed hops (by decide) rfl ?_ rfl rfl rfl ?_).2⟩
  · refine ⟨_, List.mem_cons_self, rfl, fun h => ?_⟩
    exact Membership.nodeRecord_ne_deadMarker _ _ _ (Option.some.inj h)
  · exact List.mem_cons_self

end

end Exchange
end Pmd
