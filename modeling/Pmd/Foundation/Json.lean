import Mathlib.Data.List.Basic
import Mathlib.Data.List.Infix
import Mathlib.Data.List.Lex
import Mathlib.Data.List.Nodup
import Mathlib.Data.List.Sort
import Mathlib.Data.String.Basic

/-!
# JSON trees addressed by key paths

`graft p v j` puts `v` at the key path `p` of `j`, making objects on the way.
Folding it over a list of entries nests a flat table of paths; the lemmas say
what is then found at a leaf and which keys an inner object has. Entries in path
order give objects in key order, and what is found at a path depends only on the
entries above and below it.
-/
namespace Pmd.Foundation

/-- Lists in the order of their keys are determined by what they hold. -/
theorem eq_of_sorted_keys {α β : Type*} [LinearOrder α] (key : β → α) {l l' : List β}
    (hl : (l.map key).Pairwise (· < ·)) (hl' : (l'.map key).Pairwise (· < ·))
    (h : ∀ e, e ∈ l ↔ e ∈ l') : l = l' := by
  rw [List.pairwise_map] at hl hl'
  have hnodup : ∀ {l : List β}, l.Pairwise (fun a b => key a < key b) → l.Nodup := by
    intro l hl
    exact hl.imp fun hlt heq => absurd (congrArg key heq) hlt.ne
  have hperm := (List.perm_ext_iff_of_nodup (hnodup hl) (hnodup hl')).mpr h
  exact hperm.eq_of_pairwise (fun a b _ _ hab hba => absurd hab hba.not_gt) hl hl'

inductive Json where
  | null
  | bool (b : Bool)
  | number (n : ℤ)
  | string (s : String)
  | array (xs : List Json)
  | object (m : List (String × Json))

namespace Json

def members : Json → List (String × Json)
  | object m => m
  | _ => []

def get (k : String) (j : Json) : Option Json := j.members.lookup k

theorem get_object (k : String) (m : List (String × Json)) : (object m).get k = m.lookup k := rfl

def asStr : Json → Option String
  | string s => some s
  | _ => none

def asU64 : Json → Option ℕ
  | number (.ofNat n) => some n
  | _ => none

def descend : List String → Json → Option Json
  | [], j => some j
  | k :: ks, j => (j.get k).bind (descend ks)

theorem descend_singleton (k : String) (j : Json) : j.descend [k] = j.get k := by
  rw [descend]
  cases j.get k with
  | none => rfl
  | some _ => rfl

def setKey (k : String) (v : Json) : List (String × Json) → List (String × Json)
  | [] => [(k, v)]
  | e :: m => if e.1 = k then (k, v) :: m else e :: setKey k v m

def graft : List String → Json → Json → Json
  | [], v, _ => v
  | k :: ks, v, j => object (setKey k (graft ks v ((j.get k).getD (object []))) j.members)

def nest (l : List (List String × Json)) : Json :=
  l.foldl (fun j e => graft e.1 e.2 j) (object [])

/-- No object of the tree has a key twice. -/
def UniqueKeys (j : Json) : Prop :=
  ∀ q m, j.descend q = some (object m) → (m.map Prod.fst).Nodup

theorem lookup_setKey (k l : String) (v : Json) (m : List (String × Json)) :
    (setKey k v m).lookup l = if l = k then some v else m.lookup l := by
  induction m with
  | nil =>
    by_cases h : l = k
    · simp [setKey, h]
    · simp [setKey, List.lookup_cons, h, beq_eq_false_iff_ne.mpr h]
  | cons e m ih =>
    obtain ⟨k', v'⟩ := e
    by_cases hk : k' = k
    · subst hk
      by_cases h : l = k'
      · simp [setKey, h]
      · simp [setKey, List.lookup_cons, h, beq_eq_false_iff_ne.mpr h]
    · by_cases h : l = k'
      · subst h
        simp [setKey, hk]
      · simp [setKey, hk, List.lookup_cons, beq_eq_false_iff_ne.mpr h, ih]

theorem mem_keys_setKey (k l : String) (v : Json) (m : List (String × Json)) :
    l ∈ (setKey k v m).map Prod.fst ↔ l = k ∨ l ∈ m.map Prod.fst := by
  induction m with
  | nil => simp [setKey]
  | cons e m ih =>
    by_cases hk : e.1 = k
    · simp [setKey, hk]
    · rw [setKey, if_neg hk, List.map_cons, List.mem_cons, ih, List.map_cons, List.mem_cons]
      tauto

theorem nodup_keys_setKey {k : String} {v : Json} {m : List (String × Json)}
    (h : (m.map Prod.fst).Nodup) : ((setKey k v m).map Prod.fst).Nodup := by
  induction m with
  | nil => simp [setKey]
  | cons e m ih =>
    rw [List.map_cons, List.nodup_cons] at h
    by_cases hk : e.1 = k
    · rw [setKey, if_pos hk, List.map_cons, List.nodup_cons, ← hk]
      exact h
    · rw [setKey, if_neg hk, List.map_cons, List.nodup_cons, mem_keys_setKey]
      exact ⟨by tauto, ih h.2⟩

theorem get_graft (k l : String) (ks : List String) (v j : Json) :
    (graft (k :: ks) v j).get l =
      if l = k then some (graft ks v ((j.get k).getD (object []))) else j.get l := by
  rw [graft, get, members, lookup_setKey]
  rfl

theorem descend_graft_self (p : List String) (v j : Json) :
    (graft p v j).descend p = some v := by
  induction p generalizing j with
  | nil => rfl
  | cons k ks ih =>
    rw [descend, get_graft, if_pos rfl]
    exact ih _

theorem descend_empty (q : List String) : (descend q (object [])).getD (object []) = object [] := by
  cases q <;> rfl

/-- Grafting below `q` acts on the subtree at `q` alone. -/
theorem descend_graft_append (q p : List String) (v j : Json) :
    (graft (q ++ p) v j).descend q = some (graft p v ((j.descend q).getD (object []))) := by
  induction q generalizing j with
  | nil => rfl
  | cons k ks ih =>
    rw [List.cons_append, descend, get_graft, if_pos rfl, Option.bind_some, ih, descend]
    cases hk : j.get k with
    | none => simp [descend_empty]
    | some j' => rfl

theorem UniqueKeys.get {j j' : Json} {k : String} (h : j.UniqueKeys) (hk : j.get k = some j') :
    j'.UniqueKeys := fun q m hm => h (k :: q) m (by rw [descend, hk, Option.bind_some, hm])

theorem uniqueKeys_empty : (object []).UniqueKeys := by
  intro q m hm
  cases q with
  | nil =>
    cases hm
    exact List.nodup_nil
  | cons k q => cases hm

theorem uniqueKeys_of_not_object {j : Json} (h : ∀ m, j ≠ object m) : j.UniqueKeys := by
  intro q m hm
  cases q with
  | nil => exact absurd (Option.some.inj hm) (h m)
  | cons k q =>
    cases j with
    | object m => exact absurd rfl (h m)
    | _ => cases hm

theorem uniqueKeys_object {m : List (String × Json)} (hm : (m.map Prod.fst).Nodup)
    (h : ∀ e ∈ m, e.2.UniqueKeys) : (object m).UniqueKeys := by
  intro q m' hm'
  cases q with
  | nil =>
    cases hm'
    exact hm
  | cons k q =>
    rw [descend, get_object] at hm'
    obtain ⟨j, hj, hdescend⟩ := Option.bind_eq_some_iff.mp hm'
    obtain ⟨l₁, l₂, rfl, -⟩ := List.lookup_eq_some_iff.mp hj
    exact h (k, j) (by simp) q m' hdescend

theorem UniqueKeys.members {j : Json} (h : j.UniqueKeys) : (j.members.map Prod.fst).Nodup := by
  cases j with
  | object m => exact h [] m rfl
  | _ => exact List.nodup_nil

theorem UniqueKeys.graft {p : List String} {v j : Json} (hv : v.UniqueKeys) (hj : j.UniqueKeys) :
    (graft p v j).UniqueKeys := by
  induction p generalizing j with
  | nil => exact hv
  | cons k ks ih =>
    intro q m hm
    cases q with
    | nil =>
      cases hm
      exact nodup_keys_setKey hj.members
    | cons l ls =>
      rw [descend, get_graft] at hm
      split at hm
      · refine ih ?_ ls m hm
        cases hk : j.get k with
        | none => exact uniqueKeys_empty
        | some j' => exact hj.get hk
      · exact hj (l :: ls) m hm

/-- Two paths that part ways do not see each other. -/
theorem descend_graft_of_diverge {p q : List String} (hpq : ¬ p <+: q) (hqp : ¬ q <+: p)
    (v j : Json) : (graft p v j).descend q = j.descend q := by
  induction p generalizing q j with
  | nil => exact absurd List.nil_prefix hpq
  | cons k ks ih =>
    cases q with
    | nil => exact absurd List.nil_prefix hqp
    | cons l ls =>
      rw [descend, get_graft, descend]
      by_cases h : l = k
      · subst h
        have hks : ¬ ks <+: ls := fun h => hpq (List.cons_prefix_cons.mpr ⟨rfl, h⟩)
        have hls : ¬ ls <+: ks := fun h => hqp (List.cons_prefix_cons.mpr ⟨rfl, h⟩)
        rw [if_pos rfl, Option.bind_some, ih hks hls]
        cases j.get l with
        | none =>
          cases ls with
          | nil => exact absurd List.nil_prefix hls
          | cons => rfl
        | some j' => rfl
      · rw [if_neg h]

theorem nest_concat (l : List (List String × Json)) (e : List String × Json) :
    nest (l ++ [e]) = graft e.1 e.2 (nest l) := by
  simp [nest]

theorem uniqueKeys_nest {l : List (List String × Json)} (h : ∀ e ∈ l, e.2.UniqueKeys) :
    (nest l).UniqueKeys := by
  induction l using List.reverseRecOn with
  | nil => exact uniqueKeys_empty
  | append_singleton l e ih =>
    rw [nest_concat]
    exact (h e (by simp)).graft (ih fun e he => h e (List.mem_append_left _ he))

/-- A path that parts ways with every other entry keeps its own value. -/
theorem descend_nest_leaf {l : List (List String × Json)} {p : List String} {v : Json}
    (hl : (l.map Prod.fst).Nodup) (hv : (p, v) ∈ l)
    (hp : ∀ e ∈ l, e.1 ≠ p → ¬ e.1 <+: p ∧ ¬ p <+: e.1) : (nest l).descend p = some v := by
  induction l using List.reverseRecOn with
  | nil => simp at hv
  | append_singleton l e ih =>
    rw [nest_concat]
    rw [List.map_append, List.nodup_append] at hl
    rcases List.mem_append.mp hv with hv | hv
    · have hne : e.1 ≠ p := fun h =>
        hl.2.2 p (List.mem_map_of_mem hv) e.1 (by simp) h.symm
      obtain ⟨h₁, h₂⟩ := hp e (by simp) hne
      rw [descend_graft_of_diverge h₁ h₂]
      exact ih hl.1 hv fun e he => hp e (List.mem_append_left _ he)
    · rw [List.mem_singleton] at hv
      subst hv
      exact descend_graft_self _ _ _

/-- The members `m` found at an inner path `q` are the next steps of the entries below it. -/
structure MembersBelow (l : List (List String × Json)) (q : List String) (found : Option Json)
    (m : List (String × Json)) : Prop where
  found_eq : found.getD (object []) = object m
  nodup : (m.map Prod.fst).Nodup
  none_iff : found = none ↔ q ≠ [] ∧ ∀ e ∈ l, ¬ q <+: e.1
  keys_iff : ∀ k, k ∈ m.map Prod.fst ↔ ∃ e ∈ l, q ++ [k] <+: e.1

theorem membersBelow_nil (q : List String) : MembersBelow [] q ((nest []).descend q) [] := by
  refine ⟨descend_empty q, by simp, ?_, by simp⟩
  cases q with
  | nil => simp [nest, descend]
  | cons k ks => simp [nest, descend, get, members]

/-- An entry below `q` adds its next step. -/
theorem MembersBelow.graft_below {l : List (List String × Json)} {q r : List String} {k : String}
    {m : List (String × Json)} (h : MembersBelow l q ((nest l).descend q) m) (v : Json) :
    MembersBelow (l ++ [(q ++ k :: r, v)]) q ((graft (q ++ k :: r) v (nest l)).descend q)
      (setKey k (graft r v (((object m).get k).getD (object []))) m) := by
  have hd := descend_graft_append q (k :: r) v (nest l)
  rw [h.found_eq] at hd
  have hlast : ∀ k', q ++ [k'] <+: q ++ k :: r ↔ k' = k := by
    intro k'
    rw [List.prefix_append_right_inj, List.cons_prefix_cons]
    simp
  refine ⟨by rw [hd]; rfl, nodup_keys_setKey h.nodup, ?_, ?_⟩
  · rw [hd]
    simp only [reduceCtorEq, false_iff, not_and, not_forall, not_not]
    exact fun _ => ⟨(q ++ k :: r, v), by simp, List.prefix_append _ _⟩
  · intro k'
    rw [mem_keys_setKey, h.keys_iff k']
    simp only [List.mem_append, List.mem_singleton]
    constructor
    · rintro (hk | ⟨e, he, hp⟩)
      · exact ⟨_, .inr rfl, (hlast k').mpr hk⟩
      · exact ⟨e, .inl he, hp⟩
    · rintro ⟨e, he | rfl, hp⟩
      · exact .inr ⟨e, he, hp⟩
      · exact .inl ((hlast k').mp hp)

/-- An entry that parts ways with `q` changes nothing there. -/
theorem MembersBelow.graft_beside {l : List (List String × Json)} {q : List String}
    {e : List String × Json} {m : List (String × Json)}
    (h : MembersBelow l q ((nest l).descend q) m) (hnot : ¬ e.1 <+: q) (hpre : ¬ q <+: e.1) :
    MembersBelow (l ++ [e]) q ((graft e.1 e.2 (nest l)).descend q) m := by
  rw [descend_graft_of_diverge hnot hpre]
  refine ⟨h.found_eq, h.nodup, ?_, ?_⟩
  · rw [h.none_iff]
    simp only [List.mem_append, List.mem_singleton]
    constructor
    · rintro ⟨h₁, h₂⟩
      exact ⟨h₁, fun e' he' => he'.elim (h₂ e') fun h => h ▸ hpre⟩
    · rintro ⟨h₁, h₂⟩
      exact ⟨h₁, fun e' he' => h₂ e' (.inl he')⟩
  · intro k
    rw [h.keys_iff k]
    simp only [List.mem_append, List.mem_singleton]
    constructor
    · rintro ⟨e', he', hp⟩
      exact ⟨e', .inl he', hp⟩
    · rintro ⟨e', he' | rfl, hp⟩
      · exact ⟨e', he', hp⟩
      · exact absurd ((List.prefix_append q [k]).trans hp) hpre

theorem descend_nest_inner (l : List (List String × Json)) (q : List String)
    (hq : ∀ e ∈ l, ¬ e.1 <+: q) : ∃ m, MembersBelow l q ((nest l).descend q) m := by
  induction l using List.reverseRecOn with
  | nil => exact ⟨[], membersBelow_nil q⟩
  | append_singleton l e ih =>
    obtain ⟨m, hm⟩ := ih fun e he => hq e (List.mem_append_left _ he)
    have hnot : ¬ e.1 <+: q := hq e (by simp)
    rw [nest_concat]
    by_cases hpre : q <+: e.1
    · obtain ⟨p, v⟩ := e
      obtain ⟨r, rfl⟩ := hpre
      cases r with
      | nil => exact absurd (by rw [List.append_nil]) hnot
      | cons k r => exact ⟨_, hm.graft_below v⟩
    · exact ⟨m, hm.graft_beside hnot hpre⟩

theorem descend_append (p q : List String) (j : Json) :
    j.descend (p ++ q) = (j.descend p).bind (descend q) := by
  induction p generalizing j with
  | nil => rfl
  | cons k ks ih =>
    rw [List.cons_append, descend, descend, Option.bind_assoc]
    simp only [ih]

/-- What is found at `q` depends only on the entries above and below it. -/
theorem descend_nest_filter (l : List (List String × Json)) (q : List String) :
    (nest l).descend q = (nest (l.filter fun e => e.1 <+: q ∨ q <+: e.1)).descend q := by
  induction l using List.reverseRecOn with
  | nil => rfl
  | append_singleton l e ih =>
    rw [nest_concat, List.filter_append]
    by_cases hcmp : e.1 <+: q ∨ q <+: e.1
    · rw [List.filter_singleton, decide_eq_true hcmp, cond_true, nest_concat]
      obtain ⟨p, v⟩ := e
      rcases hcmp with ⟨r, rfl⟩ | ⟨r, rfl⟩
      · rw [descend_append, descend_append, descend_graft_self, descend_graft_self]
      · rw [descend_graft_append, descend_graft_append, ih]
    · rw [List.filter_singleton, decide_eq_false hcmp, cond_false, List.append_nil, ← ih]
      rw [not_or] at hcmp
      exact descend_graft_of_diverge hcmp.1 hcmp.2 _ _

/-- What is found at `q` stands above an entry or in one. -/
theorem exists_entry_of_descend_nest {l : List (List String × Json)} {q : List String}
    (h : ((nest l).descend q).isSome) :
    q = [] ∨ ∃ e ∈ l, q <+: e.1 ∨ ∃ rest, q = e.1 ++ rest ∧ (e.2.descend rest).isSome := by
  induction l using List.reverseRecOn with
  | nil =>
    cases q with
    | nil => exact .inl rfl
    | cons k ks => cases h
  | append_singleton l e ih =>
    have hlast : e ∈ l ++ [e] := List.mem_append_right _ (List.mem_singleton_self e)
    rw [nest_concat] at h
    by_cases hqe : q <+: e.1
    · exact .inr ⟨e, hlast, .inl hqe⟩
    · by_cases heq : e.1 <+: q
      · obtain ⟨rest, rfl⟩ := heq
        rw [descend_append, descend_graft_self] at h
        exact .inr ⟨e, hlast, .inr ⟨rest, rfl, h⟩⟩
      · rw [descend_graft_of_diverge heq hqe] at h
        exact (ih h).imp_right fun ⟨e', he', hcases⟩ =>
          ⟨e', List.mem_append_left _ he', hcases⟩

/-- Entries in path order: what is above a path is overwritten there. -/
theorem descend_nest_of_none_below {l : List (List String × Json)}
    (hl : (l.map Prod.fst).Pairwise (· < ·)) {p : List String} {v : Json} (hv : (p, v) ∈ l)
    (hp : ∀ e ∈ l, p <+: e.1 → e.1 = p) : (nest l).descend p = some v := by
  induction l using List.reverseRecOn with
  | nil => cases hv
  | append_singleton l e ih =>
    rw [nest_concat]
    rw [List.map_append, List.pairwise_append] at hl
    rcases List.mem_append.mp hv with hv | hv
    · have hlt : p < e.1 := hl.2.2 p (List.mem_map_of_mem hv) e.1 (List.mem_singleton_self _)
      have hpe : ¬ p <+: e.1 := fun h =>
        hlt.ne (hp e (List.mem_append_right _ (List.mem_singleton_self e)) h).symm
      have hep : ¬ e.1 <+: p := by
        rintro ⟨r, rfl⟩
        exact absurd hlt (@List.le_append_left _ _ _ e.1 r)
      rw [descend_graft_of_diverge hep hpe]
      exact ih hl.1 hv fun e he => hp e (List.mem_append_left _ he)
    · rw [List.mem_singleton] at hv
      subst hv
      exact descend_graft_self _ _ _

theorem keys_setKey (k : String) (v : Json) (m : List (String × Json)) :
    (setKey k v m).map Prod.fst =
      if k ∈ m.map Prod.fst then m.map Prod.fst else m.map Prod.fst ++ [k] := by
  induction m with
  | nil => simp [setKey]
  | cons e m ih =>
    by_cases hk : e.1 = k
    · simp [setKey, hk]
    · rw [setKey, if_neg hk, List.map_cons, ih, List.map_cons]
      by_cases hm : k ∈ m.map Prod.fst
      · rw [if_pos hm, if_pos (List.mem_cons_of_mem _ hm)]
      · have hcons : k ∉ e.1 :: m.map Prod.fst :=
          List.not_mem_cons_of_ne_of_not_mem (Ne.symm hk) hm
        rw [if_neg hm, if_neg hcons, List.cons_append]

/-- Entries in path order give inner objects in key order. -/
theorem sorted_keys_nest {l : List (List String × Json)} (hl : (l.map Prod.fst).Pairwise (· ≤ ·))
    {q : List String} (hq : ∀ e ∈ l, ¬ e.1 <+: q) :
    ∃ m, MembersBelow l q ((nest l).descend q) m ∧ (m.map Prod.fst).Pairwise (· < ·) := by
  induction l using List.reverseRecOn with
  | nil => exact ⟨[], membersBelow_nil q, .nil⟩
  | append_singleton l e ih =>
    rw [List.map_append, List.pairwise_append] at hl
    obtain ⟨m, hm, hsorted⟩ := ih hl.1 fun e he => hq e (List.mem_append_left _ he)
    have hnot : ¬ e.1 <+: q := hq e (by simp)
    rw [nest_concat]
    by_cases hpre : q <+: e.1
    · obtain ⟨p, v⟩ := e
      obtain ⟨r, rfl⟩ := hpre
      cases r with
      | nil => exact absurd (by rw [List.append_nil]) hnot
      | cons k r =>
        refine ⟨_, hm.graft_below v, ?_⟩
        rw [keys_setKey]
        split
        · exact hsorted
        · rename_i hk
          refine List.pairwise_append.mpr ⟨hsorted, List.pairwise_singleton _ _, ?_⟩
          -- A key that is already there comes from an entry before this one.
          intro k' hk' k'' hk''
          rw [List.mem_singleton] at hk''
          subst hk''
          obtain ⟨e', he', r', hr'⟩ := (hm.keys_iff k').mp hk'
          have hle : e'.1 ≤ q ++ k'' :: r :=
            hl.2.2 e'.1 (List.mem_map_of_mem he') _ (by simp)
          refine lt_of_le_of_ne (not_lt.mp fun hlt => ?_) fun heq => hk (heq ▸ hk')
          rw [← hr', List.append_assoc] at hle
          exact absurd (List.Lex.append_left _ (.rel hlt) q) hle.not_gt
    · exact ⟨m, hm.graft_beside hnot hpre, hsorted⟩

end Json
end Pmd.Foundation
