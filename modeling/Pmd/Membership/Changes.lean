import Pmd.Membership.Listing
import Mathlib.Data.Finset.Insert
import Mathlib.Data.List.Chain

/-!
# Replaying membership changes

A subscriber keeps a set of node ids and applies each change it is told of. What
it keeps for one id depends only on the last change for that id, and the diff of
two id maps takes a view of the one to a view of the other.
-/
namespace Pmd
open Foundation

def MembershipChange.apply (view : Finset String) (change : MembershipChange) : Finset String :=
  match change.event with
  | .nodeJoined => insert change.nodeId view
  | .nodeLeft => view.erase change.nodeId

/-- The ids a subscriber has after these changes. -/
def replayChanges (view : Finset String) (changes : List MembershipChange) : Finset String :=
  changes.foldl MembershipChange.apply view

/-- The events reported for one id, in order. -/
def eventsOf (id : String) (changes : List MembershipChange) : List MembershipEvent :=
  (changes.filter fun change => change.nodeId = id).map MembershipChange.event

/-- Joined, left, joined, and so on. -/
def Alternates (es : List MembershipEvent) : Prop :=
  es.head? ≠ some .nodeLeft ∧ es.IsChain (· ≠ ·)

instance (es : List MembershipEvent) : Decidable (Alternates es) :=
  inferInstanceAs (Decidable (_ ∧ _))

@[simp] theorem eventsOf_nil (id : String) : eventsOf id [] = [] := rfl

@[simp] theorem eventsOf_append (id : String) (changes changes' : List MembershipChange) :
    eventsOf id (changes ++ changes') = eventsOf id changes ++ eventsOf id changes' := by
  simp [eventsOf]

theorem eventsOf_singleton (id : String) (change : MembershipChange) :
    eventsOf id [change] = if change.nodeId = id then [change.event] else [] := by
  rw [eventsOf, List.filter_singleton]
  split <;> simp_all

theorem mem_replay {id : String} {view : Finset String} (changes : List MembershipChange) :
    id ∈ replayChanges view changes ↔ (eventsOf id changes).getLast? = some .nodeJoined ∨
      eventsOf id changes = [] ∧ id ∈ view := by
  induction changes using List.reverseRecOn with
  | nil => simp [replayChanges]
  | append_singleton changes change ih =>
    have hfold : replayChanges view (changes ++ [change]) =
        change.apply (replayChanges view changes) := by
      simp [replayChanges]
    rw [hfold, eventsOf_append, eventsOf_singleton]
    obtain ⟨event, nodeId, addr⟩ := change
    by_cases hid : nodeId = id
    · cases event <;> simp [MembershipChange.apply, hid]
    · cases event <;> simp [MembershipChange.apply, hid, Ne.symm hid, ih]

theorem replay_append (view : Finset String) (changes changes' : List MembershipChange) :
    replayChanges view (changes ++ changes') =
      replayChanges (replayChanges view changes) changes' :=
  List.foldl_append

theorem alternates_concat {es : List MembershipEvent} {e : MembershipEvent} :
    Alternates (es ++ [e]) ↔
      Alternates es ∧ (e = .nodeLeft ↔ es.getLast? = some .nodeJoined) := by
  rw [Alternates, Alternates, List.isChain_append]
  cases hlast : es.getLast? with
  | none =>
    rw [List.getLast?_eq_none_iff] at hlast
    subst hlast
    cases e <;> simp
  | some e' =>
    have hhead : (es ++ [e]).head? = es.head? := by
      cases es with
      | nil => cases hlast
      | cons x xs => rfl
    rw [hhead]
    cases e <;> cases e' <;> simp

theorem Alternates.of_append {es es' : List MembershipEvent} (h : Alternates (es ++ es')) :
    Alternates es := by
  refine ⟨fun hhead => h.1 ?_, h.2.left_of_append⟩
  rw [List.head?_append, hhead]
  rfl

/-! ## The diff of two id maps -/

theorem filter_fst_eq {l : List (Σ _ : String, String)} (h : l.NodupKeys) (id : String) :
    l.filter (fun e => e.1 = id) =
      ((l.dlookup id).map fun v => (⟨id, v⟩ : Σ _ : String, String)).toList := by
  induction l with
  | nil => rfl
  | cons e l ih =>
    rw [List.nodupKeys_cons] at h
    obtain ⟨k, v⟩ := e
    by_cases hk : k = id
    · subst hk
      have hnone : l.dlookup k = none := List.dlookup_eq_none.mpr h.1
      rw [hnone] at ih
      rw [List.filter_cons_of_pos (by simp), ih h.2, List.dlookup_cons_eq]
      rfl
    · rw [List.filter_cons_of_neg (by simpa using hk), ih h.2,
        List.dlookup_cons_ne _ _ (Ne.symm hk)]

theorem filter_entries (m m' : StrMap String) (id : String) :
    (m.entries.filter fun e => e.1 ∉ m').filter (fun e => e.1 = id) =
      if id ∈ m' then []
      else ((m.lookup id).map fun v => (⟨id, v⟩ : Σ _ : String, String)).toList := by
  have hlookup := filter_fst_eq m.nodupKeys id
  rw [List.filter_comm, hlookup]
  change ((m.lookup id).map _).toList.filter _ = _
  cases m.lookup id <;> simp [List.filter_singleton]

/-- The diff reports an id at most once. -/
theorem eventsOf_diffMembers (before after : StrMap String) (id : String) :
    eventsOf id (diffMembers before after) =
      if id ∈ after ∧ id ∉ before then [.nodeJoined]
      else if id ∈ before ∧ id ∉ after then [.nodeLeft] else [] := by
  have hpart : ∀ (m m' : StrMap String) (ev : MembershipEvent),
      eventsOf id ((m.entries.filter fun e => e.1 ∉ m').map fun e => ⟨ev, e.1, e.2⟩) =
        if id ∈ m ∧ id ∉ m' then [ev] else [] := by
    intro m m' ev
    have hfilter := filter_entries m m' id
    rw [eventsOf, List.filter_map, List.map_map]
    change ((m.entries.filter fun e => e.1 ∉ m').filter (fun e => e.1 = id)).map (fun _ => ev) = _
    rw [hfilter]
    simp only [← AList.lookup_isSome (s := m)]
    by_cases hm' : id ∈ m'
    · simp [hm']
    · cases m.lookup id <;> simp [hm']
  rw [diffMembers, eventsOf_append, hpart, hpart]
  by_cases ha : id ∈ after <;> by_cases hb : id ∈ before <;> simp [ha, hb]

theorem mem_replay_diffMembers {view : Finset String} {before after : StrMap String} {id : String}
    (h : id ∈ view ↔ id ∈ before) :
    id ∈ replayChanges view (diffMembers before after) ↔ id ∈ after := by
  rw [mem_replay, eventsOf_diffMembers, h]
  by_cases ha : id ∈ after <;> by_cases hb : id ∈ before <;> simp [ha, hb]

theorem alternates_diffMembers {es : List MembershipEvent} {before after : StrMap String}
    {id : String} (h : es.getLast? = some .nodeJoined ↔ id ∈ before) (hes : Alternates es) :
    Alternates (es ++ eventsOf id (diffMembers before after)) := by
  rw [eventsOf_diffMembers]
  by_cases ha : id ∈ after <;> by_cases hb : id ∈ before <;>
    simp [ha, hb, h, hes, alternates_concat]

end Pmd
