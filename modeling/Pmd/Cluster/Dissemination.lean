import Pmd.Cluster.Knowledge
import Pmd.Foundation.Spreading

/-!
# How fast the views agree

A group of daemons is connected among themselves, and for a while nobody in it writes.
If in each round every edge delivers one sync that was built in the round, then after
as many rounds as paths are long all members of the group have the same view.
-/
namespace Pmd
open Foundation

variable {P : Platform}

def ControlRequest.writes : ControlRequest → Bool
  | .register _ _ _ | .unregister _ => true
  | _ => false

namespace Cluster
variable {W : Setup} {c₀ c c' : Cluster P} {N : Set NodeId} {n m : NodeId}

/-- In this step node `n` writes to its document. -/
def WritesAt (c : Cluster P) (x : Action P) (n : NodeId) : Prop :=
  (∃ r, x = .own n (.request r) ∧ r.writes = true) ∨ x = .own n .removeSelf ∨
    ∃ peer, c.cleansUp x = some (n, peer)

/-- Nobody in `N` writes, and no connection is made between `N` and the rest. -/
structure Quiet (N : Set NodeId) (c : Cluster P) (x : Action P) : Prop where
  honest : Honest c x
  still : ∀ n ∈ N, ¬ c.WritesAt x n
  apart : ∀ p n nonce, x = .establish p n nonce → (p.1 ∈ N ↔ n ∈ N)

/-- Connections do not leave `N`. -/
def Isolated (N : Set NodeId) (c : Cluster P) : Prop :=
  ∀ p q, c.link p = some (.daemon q) → (p.1 ∈ N ↔ q.1 ∈ N)

/-- Nobody in `N` knows of more than somebody there did in `c₀`. -/
def NoNews (N : Set NodeId) (c₀ c : Cluster P) : Prop :=
  ∀ m ∈ N, ∀ r, ∃ n ∈ N, c.vv m r ≤ c₀.vv n r

theorem doc_of_request {cfg : Config} {cookie : Bytes} {d d' : Daemon P} {r : ControlRequest}
    {sent : Option (TaskId × Message P)} (h : d.step cfg cookie (.request r) = some (d', sent))
    (hr : r.writes = false) : d'.doc = d.doc := by
  cases h
  cases r <;> first | rfl | cases hr

theorem isolated_step (hi : Isolated N c) (hl : Links c) {x : Action P} (hx : Quiet N c x)
    (h : c.step W x = some c') : Isolated N c' := by
  have hhonest := hx.honest
  intro p q hpq
  cases x with
  | own n a =>
    obtain ⟨-, h⟩ := Option.ite_none_right_eq_some.mp h
    rw [act_link h] at hpq
    exact hi p q hpq
  | receive r =>
    obtain ⟨m, rest, -, h⟩ := step_receive h
    rw [act_link h] at hpq
    exact hi p q hpq
  | closed r =>
    obtain ⟨-, h⟩ := Option.ite_none_right_eq_some.mp h
    rw [act_link h] at hpq
    exact hi p q hpq
  | establish r n nonce =>
    obtain ⟨c₁, h₁, h₂⟩ := Option.bind_eq_some_iff.mp h
    obtain ⟨hne, -, -⟩ := hl.establish_ports h₁
    rw [act_link h₂, act_link h₁, Links.link_connect hne] at hpq
    have hrn := hx.apart r n nonce rfl
    split at hpq
    · rename_i hpr
      cases hpq
      rw [hpr]
      exact hrn
    · split at hpq
      · rename_i hpn
        cases hpq
        rw [hpn]
        exact hrn.symm
      · exact hi p q hpq
  | _ => cases hhonest

/-- A member learns only what another member knew. -/
theorem noNews_step (hi : NoNews N c₀ c) (hc : Causal c) (hiso : Isolated N c) {x : Action P}
    (hx : Quiet N c x) (h : c.step W x = some c') : NoNews N c₀ c' := by
  have hhonest := hx.honest
  intro m hm r
  have hquiet : (c'.daemon m).doc = (c.daemon m).doc → ∃ n ∈ N, c'.vv m r ≤ c₀.vv n r := by
    intro hdoc
    rw [vv_congr hdoc]
    exact hi m hm r
  cases x with
  | own n a =>
    obtain ⟨-, h⟩ := Option.ite_none_right_eq_some.mp h
    obtain ⟨d, sent, hd, hc'⟩ := act_eq_some h
    by_cases hmn : m = n
    · subst hmn
      have hdoc : c'.daemon m = d := by rw [hc', post_daemon, setDaemon_self]
      have hstill := hx.still m hm
      cases Daemon.step_doc hd with
      | same hsame => exact hquiet (by rw [hdoc, hsame])
      | @request r' he =>
        refine hquiet ?_
        rw [hdoc]
        refine doc_of_request hd ?_
        rw [← Bool.not_eq_true]
        exact fun hr => hstill (.inl ⟨r', rfl, hr⟩)
      | removeSelf _ he => exact absurd (.inr (.inl rfl)) hstill
      | @cleaned t s peer nonce epoch now hs hp he =>
        refine absurd (.inr (.inr ⟨peer, ?_⟩)) hstill
        have hs : c.session (m, t) = some s := hs
        simp [cleansUp, lockedPhase, hs, hp]
      | @merged t s e peer b v δ hs hp hb hmerge =>
        obtain ⟨q, hq, δ', u, hb', hv, -, -, hle, -⟩ := (hc.sessions (m, t) s hs).incoming _ _ hp
        rw [hb, Option.some.injEq] at hb'
        subst hb'
        have hvv : c'.vv m = c.vv m ⊔ v := by rw [vv, hdoc, hmerge, P.crdt.vv_merge, hv]
        rw [hvv, Pi.sup_apply]
        rcases le_total (c.vv m r) (v r) with hmax | hmax
        · obtain ⟨n, hn, hnr⟩ := hi q.1 ((hiso _ _ hq).mp hm) r
          exact ⟨n, hn, by rw [sup_of_le_right hmax]; exact (hle r).trans hnr⟩
        · obtain ⟨n, hn, hnr⟩ := hi m hm r
          exact ⟨n, hn, by rwa [sup_of_le_left hmax]⟩
    · refine hquiet ?_
      rw [hc', post_daemon, setDaemon_ne _ _ _ hmn]
  | receive p =>
    obtain ⟨m', rest, -, h⟩ := step_receive h
    exact hquiet (doc_of_not_own (c := c.setInbox p rest) rfl h m)
  | closed p =>
    obtain ⟨-, h⟩ := Option.ite_none_right_eq_some.mp h
    exact hquiet (doc_of_not_own rfl h m)
  | establish p n nonce =>
    obtain ⟨c₁, h₁, h₂⟩ := Option.bind_eq_some_iff.mp h
    refine hquiet ((doc_of_not_own rfl h₂ m).trans ?_)
    exact doc_of_not_own (c := c.connect p (c.nextPort n)) rfl h₁ m
  | _ => cases hhonest

/-- While the group is quiet, nothing new enters it. -/
theorem noNews_leads (h : (system P W).Reach Honest c) (hiso : Isolated N c)
    (hl : (system P W).Leads (Quiet N) c c') : NoNews N c c' := by
  refine (hl.preserves (I := fun c₁ => (system P W).Reach Honest c₁ ∧ Isolated N c₁ ∧
    NoNews N c c₁) (fun c₁ x c₂ hi hx hs => ?_)
    ⟨h, hiso, fun m hm r => ⟨m, hm, le_rfl⟩⟩).2.2
  obtain ⟨hr, hiso, hnews⟩ := hi
  exact ⟨hr.leads (.single ⟨x, hx.honest, hs⟩), isolated_step hiso (.reach hr) hx hs,
    noNews_step hnews (.reach hr) hiso hx hs⟩

/-- From `c` to `c'` node `m` merges a sync that node `n` has built on the way. -/
def BringsSync (W : Setup) (C : Cluster P → Action P → Prop) (c c' : Cluster P)
    (n m : NodeId) : Prop :=
  ∃ c₁ c₂ c₃ t t' s peer b nonce epoch now, (system P W).Leads C c c₁ ∧
    (system P W).Leads C c₁ c₂ ∧ c₂.link (m, t) = some (.daemon (n, t')) ∧
    c₂.session (m, t) = some s ∧ s.phase = .live peer (.handle (.membershipSync b (c₁.vv n))) ∧
    (system P W).step c₂ (.own m (.task t (.lock nonce epoch now))) = some c₃ ∧
    (system P W).Leads C c₃ c'

/-- What is delivered is known. -/
theorem BringsSync.vv_le (hr : (system P W).Reach Honest c)
    (h : BringsSync W (Quiet N) c c' n m) : c.vv n ≤ c'.vv m := by
  obtain ⟨c₁, c₂, c₃, t, t', s, peer, b, nonce, epoch, now, h₁, h₂, -, hs, hp, hstep, h₃⟩ := h
  have hhonest : ∀ (c : Cluster P) x, Quiet N c x → Honest c x := fun _ _ hx => hx.honest
  have h₁ := h₁.mono hhonest
  have h₂ := h₂.mono hhonest
  have h₃ := h₃.mono hhonest
  have hr₁ := hr.leads h₁
  have hr₂ := hr₁.leads h₂
  have hr₃ : (system P W).Reach Honest c₃ := hr₂.leads (.single ⟨.own m _, rfl, hstep⟩)
  obtain ⟨q, -, δ, u, hb, hv, -⟩ := ((Causal.reach hr₂).sessions (m, t) s hs).incoming _ _ hp
  have hmerge := (vv_merge hs hp hb hstep).1
  calc c.vv n
    _ ≤ c₁.vv n := (Causal.extends_leads hr h₁).vv n
    _ ≤ c₂.vv m ⊔ P.crdt.deltaVv δ := hv ▸ le_sup_right
    _ = c₃.vv m := hmerge.symm
    _ ≤ c'.vv m := (Causal.extends_leads hr₃ h₃).vv m

/-- Bounded convergence: when in each of `k` quiet rounds every edge delivers a sync built
in the round, and any two members of the group are joined by at most `k` edges, then at
the end all members have the same view. -/
theorem converges_within {k : ℕ} {round : ℕ → Cluster P} {E : NodeId → NodeId → Prop}
    (h : (system P W).Reach Honest (round 0)) (hiso : Isolated N (round 0))
    (hquiet : ∀ t < k, (system P W).Leads (Quiet N) (round t) (round (t + 1)))
    (hrounds : ∀ t < k, ∀ n m, E n m → BringsSync W (Quiet N) (round t) (round (t + 1)) n m)
    (hconn : ∀ n ∈ N, ∀ m ∈ N, Within E k n m) :
    ∀ n ∈ N, ∀ m ∈ N, (round k).SameView n m := by
  have hhonest : ∀ (c : Cluster P) x, Quiet N c x → Honest c x := fun _ _ hx => hx.honest
  have hfrom : ∀ t ≤ k, (system P W).Leads (Quiet N) (round 0) (round t) := by
    intro t
    induction t with
    | zero => exact fun _ => .refl
    | succ t ih => exact fun ht => (ih (Nat.le_of_succ_le ht)).trans (hquiet t ht)
  have hreach : ∀ t ≤ k, (system P W).Reach Honest (round t) := fun t ht =>
    h.leads ((hfrom t ht).mono hhonest)
  have hspreads : Spreads E (fun t n => (round t).vv n) k :=
    ⟨fun t ht n => (Causal.extends_leads (hreach t ht.le) ((hquiet t ht).mono hhonest)).vv n,
      fun t ht n m he => (hrounds t ht n m he).vv_le (hreach t ht.le)⟩
  intro n hn m hm
  exact (Causal.reach (hreach k le_rfl)).sameView
    (hspreads.agree hconn (noNews_leads h hiso (hfrom k le_rfl)) hn hm)

section
open Reference

def calm {P : Platform} (c : Cluster P) : Action P → Bool
  | .own n (.task t e) => (c.cleansUp (.own n (.task t e))).isNone
  | .receive _ => true
  | _ => false

theorem quiet_of_calm {P : Platform} {N : Set NodeId} (c : Cluster P) (x : Action P)
    (h : c.calm x = true) : Quiet N c x := by
  cases x with
  | own n a =>
    cases a with
    | task t e =>
      refine ⟨rfl, fun m _ hw => ?_, fun _ _ _ he => by cases he⟩
      rw [calm, Option.isNone_iff_eq_none] at h
      rcases hw with ⟨r, hr, -⟩ | hr | ⟨peer, hr⟩
      · cases hr
      · cases hr
      · rw [h] at hr
        cases hr
    | _ => cases h
  | receive p =>
    refine ⟨rfl, fun m _ hw => ?_, fun _ _ _ he => by cases he⟩
    rcases hw with ⟨r, hr, -⟩ | hr | ⟨peer, hr⟩
    · cases hr
    · cases hr
    · cases hr
  | _ => cases h

/-- Each of the two nodes sends the other its full delta. -/
abbrev fullExchange : List (Action platform) := exchange (nodeA, 0) (nodeB, 0)

/-- The first `k` steps of this exchange. -/
def exchanging (k : ℕ) : Option (Cluster platform) :=
  (clusters.guard calm).run registered (fullExchange.take k)

theorem exchanging_isSome : ∀ k : Fin 11, (exchanging k).isSome = true := by
  decide +kernel

def exchanged (k : Fin 11) : Cluster platform := (exchanging k).get (exchanging_isSome k)

set_option maxRecDepth 100000 in
theorem link_registered : registered.link = (cluster.connect (nodeA, 0) (nodeB, 0)).link := by
  with_unfolding_all rfl

set_option maxRecDepth 100000 in
theorem handles_b : (exchanged 9).link (nodeB, 0) = some (.daemon (nodeA, 0)) ∧
    (exchanged 9).session (nodeB, 0) = some ⟨.inbound, .live ⟨"a", addr 1⟩
      (.handle (.membershipSync (registered.state nodeA).membership.fullDelta
        (registered.vv nodeA))), 0⟩ := by
  constructor <;> with_unfolding_all rfl

set_option maxRecDepth 100000 in
theorem handles_a : (exchanged 7).link (nodeA, 0) = some (.daemon (nodeB, 0)) ∧
    (exchanged 7).session (nodeA, 0) = some ⟨.outbound (addr 2), .live ⟨"b", addr 2⟩
      (.handle (.membershipSync (registered.state nodeB).membership.fullDelta
        (registered.vv nodeB))), 0⟩ := by
  constructor <;> with_unfolding_all rfl

theorem exchanging_exchanged (k : Fin 11) : exchanging k = some (exchanged k) :=
  (Option.some_get _).symm

theorem leads_exchanged {j k : Fin 11} (hjk : j ≤ k) :
    clusters.Leads (Quiet {nodeA, nodeB}) (exchanged j) (exchanged k) := by
  have hk := exchanging_exchanged k
  have hsplit : fullExchange.take k =
      fullExchange.take j ++
        (fullExchange.drop j).take (k - j : ℕ) := by
    rw [← List.take_add, Nat.add_sub_cancel' hjk]
  have hj : (clusters.guard calm).run registered (fullExchange.take j) =
      some (exchanged j) := exchanging_exchanged j
  rw [exchanging, hsplit, System.run_append, hj, Option.bind_some] at hk
  exact .of_guard quiet_of_calm hk

theorem step_exchanged {k l : Fin 11} {x : Action platform} (hl : (l : ℕ) = k + 1)
    (hx : fullExchange[(k : ℕ)]? = some x) :
    clusters.step (exchanged k) x = some (exchanged l) := by
  have hl' := exchanging_exchanged l
  have hk : (clusters.guard calm).run registered (fullExchange.take k) =
      some (exchanged k) := exchanging_exchanged k
  rw [exchanging, hl, List.take_add_one, hx, System.run_append, hk, Option.bind_some] at hl'
  have hrun := (System.run_of_guard (C := Quiet {nodeA, nodeB}) quiet_of_calm hl').1
  simpa [System.run] using hrun

theorem exchanged_zero : exchanged 0 = registered := by
  have h := exchanging_exchanged 0
  rw [exchanging, Fin.val_zero, List.take_zero, System.run, Option.some.injEq] at h
  exact h.symm

/-- Within one exchange each of the two nodes merges the full delta of the other. -/
theorem bringsSync_exchange {n m : NodeId} (h : n = nodeA ∧ m = nodeB ∨ n = nodeB ∧ m = nodeA) :
    BringsSync setup (Quiet {nodeA, nodeB}) (exchanged 0) (exchanged 10) n m := by
  rcases h with ⟨rfl, rfl⟩ | ⟨rfl, rfl⟩
  · exact ⟨exchanged 0, exchanged 9, exchanged 10, 0, 0, _, _, _, nonce, none, 0, .refl,
      leads_exchanged (by decide), handles_b.1, exchanged_zero ▸ handles_b.2, rfl,
      step_exchanged rfl rfl, .refl⟩
  · exact ⟨exchanged 0, exchanged 7, exchanged 8, 0, 0, _, _, _, nonce, none, 0, .refl,
      leads_exchanged (by decide), handles_a.1, exchanged_zero ▸ handles_a.2, rfl,
      step_exchanged rfl rfl, leads_exchanged (by decide)⟩

theorem isolated_registered : Isolated {nodeA, nodeB} registered := by
  intro p q h
  rw [link_registered, Links.link_connect (by decide)] at h
  split at h
  · rename_i hp
    cases h
    rw [hp]
    simp
  · split at h
    · rename_i hp
      cases h
      rw [hp]
      simp
    · cases h

/-- One round. -/
def rounds : ℕ → Cluster platform
  | 0 => exchanged 0
  | _ + 1 => exchanged 10

theorem rounds_zero : rounds 0 = registered := exchanged_zero

/-- Two nodes that have registered each other differ in what they know, and agree after
one exchange. -/
theorem converges_within_exchange : (rounds 0).vv nodeA ≠ (rounds 0).vv nodeB ∧
    ∀ n ∈ ({nodeA, nodeB} : Set NodeId), ∀ m ∈ ({nodeA, nodeB} : Set NodeId),
      (rounds 1).SameView n m := by
  refine ⟨fun h => ?_, ?_⟩
  · have hc := congrFun h "a"
    revert hc
    decide +kernel
  · have hreach : clusters.Reach Honest (rounds 0) := rounds_zero ▸ registered_reach
    have hround : ∀ t < 1, ∀ n m, (n = nodeA ∧ m = nodeB ∨ n = nodeB ∧ m = nodeA) →
        BringsSync setup (Quiet {nodeA, nodeB}) (rounds t) (rounds (t + 1)) n m := by
      intro t ht n m he
      obtain rfl : t = 0 := by omega
      exact bringsSync_exchange he
    have hiso : Isolated {nodeA, nodeB} (rounds 0) := rounds_zero ▸ isolated_registered
    have hquiet : ∀ t < 1, clusters.Leads (Quiet {nodeA, nodeB}) (rounds t) (rounds (t + 1)) := by
      intro t ht
      obtain rfl : t = 0 := by omega
      exact leads_exchanged (by decide)
    refine converges_within hreach hiso hquiet hround fun n hn m hm => ?_
    rcases hn with rfl | rfl <;> rcases hm with rfl | rfl
    · exact .wait (.start _)
    · exact .pass (.start _) (.inl ⟨rfl, rfl⟩)
    · exact .pass (.start _) (.inr ⟨rfl, rfl⟩)
    · exact .wait (.start _)

end
end Cluster
end Pmd
