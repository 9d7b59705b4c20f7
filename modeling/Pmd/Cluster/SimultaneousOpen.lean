import Pmd.Cluster.LiveMembers
import Pmd.Cluster.Attempts

/-!
# Simultaneous open

Two daemons dial each other. Each checks for a duplicate under its own lock, but at
different moments of two crossing handshakes. If both accept before either has
registered its own dial, both dialers then find a duplicate, both connections are
dropped and each daemon tombstones the other. Otherwise exactly one connection is
left.
-/
namespace Pmd
open Foundation

variable {P : Platform}

def Phase.isLive : Phase P → Bool
  | .live _ _ => true
  | _ => false

/-- The session waits in its message loop. -/
def Phase.isWaiting : Phase P → Bool
  | .live _ .select => true
  | _ => false

namespace Cluster
variable {W : Setup} {c c' : Cluster P} {x y : Attempt} {r : Port} {s : Session P}
  {e : TaskEvent P} {o : Outcome P} {rest : List (Message P)} {v : Connection P}

/-- The task at `r` checks for a duplicate, finds none and registers. -/
def registersAt (c : Cluster P) (r : Port) : Action P → Bool
  | .own n (.task t (.lock _ _ _)) => (n, t) = r && (c.session r).any fun s =>
    match s.phase with
    | .opening (.register peer _) => peer.nodeId ∉ (c.state n).peers
    | _ => false
  | _ => false

def isLive (c : Cluster P) (r : Port) : Bool := (c.session r).any fun s => s.phase.isLive

/-- A step of the two attempts in which no acceptor registers while the other one
is registered. -/
def OneAccepts (W : Setup) (x y : Attempt) (c : Cluster P) (z : Action P) : Prop :=
  Attempts W x y c z ∧ (c.registersAt x.acceptor z = true → c.isLive y.acceptor = false) ∧
    (c.registersAt y.acceptor z = true → c.isLive x.acceptor = false)

theorem OneAccepts.symm {z : Action P} (h : OneAccepts W x y c z) : OneAccepts W y x c z := by
  obtain ⟨h, hx, hy⟩ := h
  refine ⟨?_, hy, hx⟩
  have hperm : ∀ p, p ∈ [x.dialer, x.acceptor, y.dialer, y.acceptor] →
      p ∈ [y.dialer, y.acceptor, x.dialer, x.acceptor] := by
    intro p hp
    simp only [List.mem_cons, List.not_mem_nil, or_false] at hp ⊢
    tauto
  cases z with
  | establish p n nonce => exact Or.symm h
  | receive p => exact hperm p h
  | closed p => exact hperm p h
  | own n a =>
    cases a with
    | task t e => exact ⟨hperm _ h.1, h.2⟩
    | _ => exact h
  | _ => exact h

/-! ## Two crossing attempts -/

/-- How far the two attempts can be when no acceptor registers second: `x` is ahead. -/
inductive Crossed (W : Setup) (c : Cluster P) (x y : Attempt) : Prop
  | opening (hx : Opens W c x) (hy : Opens W c y)
      (hd : (c.state x.dialer.1).owner x.acceptor.1.text = none)
      (ha : (c.state x.acceptor.1).owner x.dialer.1.text = none)
  | accepted (hx : Accepts W c x) (hy : Opens W c y)
      (hd : (c.state x.dialer.1).owner x.acceptor.1.text = none)
      (ha : (c.state x.acceptor.1).owner x.dialer.1.text = some x.acceptor.2)
  | established (hx : Establishes c x) (hy : Opens W c y ∨ Rejects c y)
      (hd : (c.state x.dialer.1).owner x.acceptor.1.text = some x.dialer.2)
      (ha : (c.state x.acceptor.1).owner x.dialer.1.text = some x.acceptor.2)

theorem isLive_of_phase {peer : PeerId P} {stage : Stage P} (hs : c.session r = some s)
    (hp : s.phase = .live peer stage) : c.isLive r = true := by
  simp [isLive, hs, hp, Phase.isLive]

theorem Accepts.isLive (h : Accepts W c x) : c.isLive x.acceptor = true := by
  obtain ⟨v, hv, hacc⟩ := h
  obtain ⟨peer, stage, hp⟩ := hacc.acceptor_live
  exact isLive_of_phase hv.acceptor hp

namespace Crossed

/-- Both attempts open and one of them moves. -/
theorem opening_step (hxy : x.Opposite y) (hc : Sound W c) (hx : Opens W c x) (hy : Opens W c y)
    (hd : (c.state x.dialer.1).owner x.acceptor.1.text = none)
    (ha : (c.state x.acceptor.1).owner x.dialer.1.text = none)
    (hr : r = x.dialer ∨ r = x.acceptor) (hs : PortStep W c c' r s e o rest) :
    Crossed W c' x y := by
  obtain ⟨hrd, hra⟩ := hxy.ports_ne hr
  have hy' := hy.other_step hc.links hrd hra hs
  cases hx.step hc hxy.dialer_ne hr hs with
  | goesOn h ho => exact .opening h hy' (by rw [ho, hd]) (by rw [ho, ha])
  | rejects hdup _ _ => exact absurd hdup (DaemonState.not_mem_peers ha)
  | accepts _ _ _ _ _ h ho =>
    refine .accepted h hy' ?_ ?_
    · rw [ho, if_neg fun h => hxy.apart h.1, hd]
    · rw [ho, if_pos ⟨rfl, rfl⟩]

/-- The connection that is ahead moves. -/
theorem ahead_step (hi : Crossed W c x y) (hxy : x.Opposite y) (hc : Sound W c)
    (hcfg : ∀ n, 0 < (W.cfg n).heartbeatIntervalSecs) (hr : r = x.dialer ∨ r = x.acceptor)
    (hs : PortStep W c c' r s e o rest) (hphi : ¬ PhiCloses (W.cfg r.1) (c.state r.1) s e) :
    Crossed W c' x y := by
  obtain ⟨hrd, hra⟩ := hxy.ports_ne hr
  cases hi with
  | opening hx hy hd ha => exact opening_step hxy hc hx hy hd ha hr hs
  | accepted hx hy hd ha =>
    have hy' := hy.other_step hc.links hrd hra hs
    rcases hx.step hc hcfg hxy.dialer_ne hd hr hs hphi with ⟨h, ho⟩ | ⟨h, ho⟩
    · exact .accepted h hy' (by rw [ho, hd]) (by rw [ho, ha])
    · refine .established h (.inl hy') ?_ ?_
      · rw [ho, if_pos ⟨rfl, rfl⟩]
      · rw [ho, if_neg fun h => hxy.apart h.1.symm, ha]
  | established hx hy hd ha =>
    obtain ⟨h, ho⟩ := hx.step hc hcfg hxy.dialer_ne hr hs hphi
    refine .established h (hy.imp ?_ ?_) (by rw [ho, hd]) (by rw [ho, ha])
    · exact fun hy => hy.other_step hc.links hrd hra hs
    · exact fun hy => hy.other_step hc.links hrd hra hs

/-- The connection that is behind moves: unless both still open, it can only be
rejected. -/
theorem behind_step (hi : Crossed W c x y) (hxy : x.Opposite y) (hc : Sound W c) {z : Action P}
    (hz : c.registersAt y.acceptor z = true → c.isLive x.acceptor = false)
    (hr : r = y.dialer ∨ r = y.acceptor) (hs : PortStep W c c' r s e o rest)
    (hlock : ∀ nonce epoch now, e = .lock nonce epoch now → z = .own r.1 (.task r.2 e)) :
    Crossed W c' x y ∨ Crossed W c' y x := by
  obtain ⟨hrd, hra⟩ := hxy.symm.ports_ne hr
  have hne := hxy.symm.dialer_ne
  cases hi with
  | opening hx hy hd ha =>
    rw [← hxy.back, ← hxy.forth] at ha hd
    exact .inr (opening_step hxy.symm hc hy hx ha hd hr hs)
  | accepted hx hy hd ha =>
    have hx' := At.other_step hx hc.links hrd hra hs
    cases hy.step hc hne hr hs with
    | goesOn h ho => exact .inl (.accepted hx' h (by rw [ho, hd]) (by rw [ho, ha]))
    | rejects hdup _ _ =>
      rw [hxy.back, hxy.forth] at hdup
      exact absurd hdup (DaemonState.not_mem_peers hd)
    | accepts hra' hp hid he hnew _ _ =>
      subst hra'
      refine absurd (hz ?_) (by simp [hx.isLive])
      rw [hlock _ _ _ he, he]
      simp [registersAt, hs.session, hp, hid, hnew]
  | established hx hy hd ha =>
    have hx' := At.other_step hx hc.links hrd hra hs
    rcases hy with hy | hy
    · cases hy.step hc hne hr hs with
      | goesOn h ho => exact .inl (.established hx' (.inl h) (by rw [ho, hd]) (by rw [ho, ha]))
      | rejects _ h ho => exact .inl (.established hx' (.inr h) (by rw [ho, hd]) (by rw [ho, ha]))
      | accepts _ _ _ _ hnew _ _ =>
        rw [hxy.back, hxy.forth] at hnew
        exact absurd (DaemonState.mem_peers_of_owner hd) hnew
    · obtain ⟨h, ho⟩ := hy.step hc.links hne hr hs
      exact .inl (.established hx' (.inr h) (by rw [ho, hd]) (by rw [ho, ha]))

/-- The dial of the connection that is ahead reaches the listener. -/
theorem ahead_establish (hi : Crossed W c x y) (hxy : x.Opposite y) (hc : Sound W c) {nonce : Nonce}
    (hs : c.step W (.establish x.dialer x.acceptor.1 nonce) = some c') : Crossed W c' x y := by
  cases hi with
  | opening hx hy hd ha =>
    rcases hx with hp | hat
    · obtain ⟨l, hl⟩ := hc.listen x.dialer.1
      have hstep := ConnectStep.of_establish hp hxy.apart (hc.causal.nodeId _) hl hs
      refine .opening (hstep.opens hp hc.links) (hstep.opens_other hxy hy) ?_ ?_
      · rw [hstep.sameOwners, hd]
      · rw [hstep.sameOwners, ha]
    · exact (hat.not_establish hc.links hs).elim
  | accepted hx _ _ _ => exact (At.not_establish hx hc.links hs).elim
  | established hx _ _ _ => exact (At.not_establish hx hc.links hs).elim

theorem behind_establish (hi : Crossed W c x y) (hxy : x.Opposite y) (hc : Sound W c)
    {nonce : Nonce} (hs : c.step W (.establish y.dialer y.acceptor.1 nonce) = some c') :
    Crossed W c' x y := by
  have hopen : Opens W c y → ConnectStep W c c' y ∧ Opens W c' y := by
    rintro (hp | hat)
    · obtain ⟨l, hl⟩ := hc.listen y.dialer.1
      have hstep := ConnectStep.of_establish hp hxy.symm.apart (hc.causal.nodeId _) hl hs
      exact ⟨hstep, hstep.opens hp hc.links⟩
    · exact (hat.not_establish hc.links hs).elim
  cases hi with
  | opening hx hy hd ha =>
    obtain ⟨hstep, hy'⟩ := hopen hy
    have ho := hstep.sameOwners
    exact .opening (hstep.opens_other hxy.symm hx) hy' (by rw [ho, hd]) (by rw [ho, ha])
  | accepted hx hy hd ha =>
    obtain ⟨hstep, hy'⟩ := hopen hy
    have ho := hstep.sameOwners
    exact .accepted (hstep.at_other hxy.symm hx) hy' (by rw [ho, hd]) (by rw [ho, ha])
  | established hx hy hd ha =>
    rcases hy with hy | hy
    · obtain ⟨hstep, hy'⟩ := hopen hy
      have ho := hstep.sameOwners
      exact .established (hstep.at_other hxy.symm hx) (.inl hy') (by rw [ho, hd]) (by rw [ho, ha])
    · exact (At.not_establish hy hc.links hs).elim

theorem step (hi : Crossed W c x y) (hxy : x.Opposite y) (hc : Sound W c)
    (hcfg : ∀ n, 0 < (W.cfg n).heartbeatIntervalSecs) {z : Action P}
    (hz : OneAccepts W x y c z) (hs : c.step W z = some c') :
    Crossed W c' x y ∨ Crossed W c' y x := by
  by_cases he : ∃ p n nonce, z = .establish p n nonce
  · obtain ⟨p, n, nonce, rfl⟩ := he
    rcases hz.1 with ⟨rfl, rfl⟩ | ⟨rfl, rfl⟩
    · exact .inl (hi.ahead_establish hxy hc hs)
    · exact .inl (hi.behind_establish hxy hc hs)
  · have hne : ∀ p n nonce, z ≠ .establish p n nonce := fun p n nonce h => he ⟨p, n, nonce, h⟩
    obtain ⟨r, s, e, o, rest, hr, hstep, hphi, hlock⟩ := hz.1.portStep hne hs
    simp only [List.mem_cons, List.not_mem_nil, or_false] at hr
    rcases hr with hr | hr | hr | hr
    · exact .inl (hi.ahead_step hxy hc hcfg (.inl hr) hstep hphi)
    · exact .inl (hi.ahead_step hxy hc hcfg (.inr hr) hstep hphi)
    · exact hi.behind_step hxy hc hz.2.2 (.inl hr) hstep hlock
    · exact hi.behind_step hxy hc hz.2.2 (.inr hr) hstep hlock

end Crossed

/-- No task of the attempt is about to clean up. -/
def Calm (c : Cluster P) (x : Attempt) : Prop :=
  ∀ s peer, c.session x.dialer = some s ∨ c.session x.acceptor = some s →
    s.phase ≠ .live peer .cleanup

theorem At.calm {S : Connection P → Prop} (h : c.At x S) (hS : ∀ v, S v → v.NoCleanup) :
    Calm c x := by
  obtain ⟨v, hv, hSv⟩ := h
  rintro s peer (hs | hs)
  · rw [hv.dialer, Option.some.injEq] at hs
    exact hs ▸ (hS v hSv peer).1
  · rw [hv.acceptor, Option.some.injEq] at hs
    exact hs ▸ (hS v hSv peer).2

theorem Opens.calm (h : Opens W c x) : Calm c x := by
  rcases h with ⟨⟨addr, hd⟩, hnext⟩ | hat
  · rintro s peer (hs | hs)
    · rw [hd, Option.some.injEq] at hs
      subst hs
      exact fun h => by cases h
    · rw [hnext, session_nextPort] at hs
      cases hs
  · exact hat.calm fun _ => Connection.Opening.noCleanup

theorem Crossed.calm (h : Crossed W c x y) : Calm c x ∧ Calm c y := by
  cases h with
  | opening hx hy _ _ => exact ⟨hx.calm, hy.calm⟩
  | accepted hx hy _ _ => exact ⟨At.calm hx fun _ => Connection.Accepted.noCleanup, hy.calm⟩
  | established hx hy _ _ =>
    refine ⟨At.calm hx fun _ => Connection.Established.noCleanup, ?_⟩
    rcases hy with hy | hy
    · exact hy.calm
    · exact At.calm hy fun _ => Connection.Rejected.noCleanup

/-- The attempts run no cleanup. -/
theorem Attempts.not_cleansUp {z : Action P} (h : Attempts W x y c z) (hx : Calm c x)
    (hy : Calm c y) {n : NodeId} {peer : PeerId P} : c.cleansUp z ≠ some (n, peer) := by
  intro hz
  obtain ⟨t, nonce, epoch, now, s, rfl, hs, hp⟩ := cleansUp_eq_some hz
  have hmem := h.1
  simp only [List.mem_cons, List.not_mem_nil, or_false] at hmem
  rcases hmem with hr | hr | hr | hr
  · exact hx s peer (.inl (hr ▸ hs)) hp
  · exact hx s peer (.inr (hr ▸ hs)) hp
  · exact hy s peer (.inl (hr ▸ hs)) hp
  · exact hy s peer (.inr (hr ▸ hs)) hp

/-! ## The outcome -/

/-- Two daemons without a session between them have each spawned one dial. -/
structure DialEachOther (c : Cluster P) (x y : Attempt) : Prop where
  apart : x.dialer.1 ≠ x.acceptor.1
  back : y.dialer.1 = x.acceptor.1
  forth : y.acceptor.1 = x.dialer.1
  pending : c.Pending x ∧ c.Pending y
  unknown : x.acceptor.1.text ∉ (c.state x.dialer.1).peers ∧
    x.dialer.1.text ∉ (c.state x.acceptor.1).peers

/-- Every task of the two attempts has returned, or waits in its message loop for a
peer that has not. -/
def Settled (c : Cluster P) (x y : Attempt) : Prop :=
  ∀ r ∈ [x.dialer, x.acceptor, y.dialer, y.acceptor], ((c.session r).any fun s =>
    s.phase.isEnded || (s.phase.isWaiting && !c.remoteGone r)) = true

instance (c : Cluster P) (x y : Attempt) : Decidable (Settled c x y) :=
  inferInstanceAs (Decidable (∀ r ∈ [x.dialer, x.acceptor, y.dialer, y.acceptor], _))

/-- Both daemons have registered each other for the connection of `x`. -/
structure Survives (c : Cluster P) (x : Attempt) : Prop where
  link : c.link x.dialer = some (.daemon x.acceptor)
  live : c.isLive x.dialer = true ∧ c.isLive x.acceptor = true
  dialer : (c.state x.dialer.1).owner x.acceptor.1.text = some x.dialer.2
  acceptor : (c.state x.acceptor.1).owner x.dialer.1.text = some x.acceptor.2

/-- Both tasks have returned. -/
def Gone (c : Cluster P) (x : Attempt) : Prop :=
  ∀ r ∈ [x.dialer, x.acceptor], ((c.session r).any fun s => s.phase.isEnded) = true

/-- Between `c₀` and `c` node `n` has not tombstoned `r`. -/
def NotTombstoned (c₀ c : Cluster P) (n r : NodeId) : Prop :=
  ∀ w ∈ P.crdt.writes (c.daemon n).doc, IsMarker n r w → w ∈ P.crdt.writes (c₀.daemon n).doc

structure OneSurvives (c₀ c : Cluster P) (x y : Attempt) : Prop where
  one : (Survives c x ∧ Gone c y) ∨ (Survives c y ∧ Gone c x)
  peaceful : NotTombstoned c₀ c x.dialer.1 x.acceptor.1 ∧ NotTombstoned c₀ c x.acceptor.1 x.dialer.1

variable {c₀ : Cluster P}

theorem DialEachOther.opposite (h : DialEachOther c x y) : x.Opposite y := by
  obtain ⟨⟨⟨_, hx⟩, hxn⟩, ⟨⟨_, hy⟩, hyn⟩⟩ := h.pending
  refine ⟨h.apart, h.back, h.forth, fun he => ?_, fun he => ?_⟩
  · rw [he, hyn, session_nextPort] at hx
    cases hx
  · rw [← he, hxn, session_nextPort] at hy
    cases hy

theorem DialEachOther.crossed (h : DialEachOther c x y) : Crossed W c x y :=
  .opening (.inl h.pending.1) (.inl h.pending.2) (DaemonState.owner_eq_none h.unknown.1)
    (DaemonState.owner_eq_none h.unknown.2)

theorem Settled.not_opening {r : Port} {s : Session P} {op : Opening P} (h : Settled c x y)
    (hr : r ∈ [x.dialer, x.acceptor, y.dialer, y.acceptor]) (hs : c.session r = some s) :
    s.phase ≠ .opening op := by
  intro hp
  have hrest := h r hr
  simp [hs, hp, Phase.isEnded, Phase.isWaiting] at hrest

theorem Settled.symm (h : Settled c x y) : Settled c y x := by
  intro r hr
  refine h r ?_
  simp only [List.mem_cons, List.not_mem_nil, or_false] at hr ⊢
  tauto

theorem Opens.dialer_opening (h : Opens W c x) :
    ∃ s op, c.session x.dialer = some s ∧ s.phase = .opening op := by
  rcases h with ⟨⟨addr, hd⟩, -⟩ | ⟨v, hv, ho⟩
  · exact ⟨_, _, hd, rfl⟩
  · cases ho with
    | greeting hd => exact ⟨_, _, hv.dialer, hd⟩
    | greeted hd => exact ⟨_, _, hv.dialer, hd⟩
    | checking hd => exact ⟨_, _, hv.dialer, hd⟩

theorem Accepts.dialer_opening (h : Accepts W c x) :
    ∃ s op, c.session x.dialer = some s ∧ s.phase = .opening op := by
  obtain ⟨v, hv, ho⟩ := h
  cases ho with
  | acking _ _ hd => exact ⟨_, _, hv.dialer, hd⟩
  | acked _ _ hd => exact ⟨_, _, hv.dialer, hd⟩
  | checking _ _ hd => exact ⟨_, _, hv.dialer, hd⟩

/-- Settled attempts have one connection that is established and one rejected. -/
theorem Crossed.survives (h : Crossed W c x y) (hset : Settled c x y) :
    Survives c x ∧ Gone c y := by
  have hnot : ∀ r ∈ [x.dialer, x.acceptor, y.dialer, y.acceptor],
      ¬ ∃ s op, c.session r = some s ∧ s.phase = .opening op := by
    rintro r hr ⟨s, op, hs, hp⟩
    exact hset.not_opening hr hs hp
  cases h with
  | opening hx _ _ _ => exact absurd hx.dialer_opening (hnot _ (by simp))
  | accepted hx _ _ _ => exact absurd hx.dialer_opening (hnot _ (by simp))
  | established hx hy hd ha =>
    obtain ⟨v, hv, hest⟩ := hx
    obtain ⟨peer, stage, hpd, -⟩ := hest.dialer
    obtain ⟨peer', stage', hpa, -⟩ := hest.acceptor
    refine ⟨⟨hv.link, ⟨isLive_of_phase hv.dialer hpd, isLive_of_phase hv.acceptor hpa⟩, hd, ha⟩, ?_⟩
    rcases hy with hy | ⟨u, hu, hrej⟩
    · exact absurd hy.dialer_opening (hnot _ (by simp))
    · intro r hr
      simp only [List.mem_cons, List.not_mem_nil, or_false] at hr
      rcases hr with rfl | rfl
      · rcases hrej.dialer with hp | hp
        · exact absurd ⟨_, _, hu.dialer, hp⟩ (hnot _ (by simp))
        · simp [hu.dialer, hp, Phase.isEnded]
      · simp [hu.acceptor, hrej.acceptor, Phase.isEnded]

/-- The invariant of the attempts since `c₀`. -/
structure Crossing (W : Setup) (c₀ : Cluster P) (x y : Attempt) (c : Cluster P) : Prop where
  reach : (system P W).Reach Honest c
  interval : ∀ n, 0 < (W.cfg n).heartbeatIntervalSecs
  crossed : Crossed W c x y ∨ Crossed W c y x
  unmarked : ∀ w ∈ commonLog c.replicas, IsMarker x.dialer.1 x.acceptor.1 w ∨
    IsMarker x.acceptor.1 x.dialer.1 w → w ∈ commonLog c₀.replicas

theorem Crossing.step (hi : Crossing W c₀ x y c) (hxy : x.Opposite y) {z : Action P}
    (hz : OneAccepts W x y c z) (hs : (system P W).step c z = some c') : Crossing W c₀ x y c' := by
  have hhonest := hz.1.honest
  have hsound := Sound.reach hi.reach
  have hcalm : Calm c x ∧ Calm c y := hi.crossed.elim Crossed.calm fun h => h.calm.symm
  have hclean : ∀ n r : NodeId, ∀ peer, c.cleansUp z = some (n, peer) → peer.nodeId ≠ r.text :=
    fun n r peer h => absurd h (hz.1.not_cleansUp hcalm.1 hcalm.2)
  refine ⟨hi.reach.leads (.single ⟨z, hhonest, hs⟩), hi.interval, ?_, fun w hw hmark => ?_⟩
  · rcases hi.crossed with h | h
    · exact h.step hxy hsound hi.interval hz hs
    · exact (h.step hxy.symm hsound hi.interval hz.symm hs).symm
  · refine hi.unmarked w ?_ hmark
    rcases hmark with hmark | hmark
    · exact mem_log_of_isMarker hi.reach hhonest hs hxy.apart.symm (hclean _ _) hw hmark
    · exact mem_log_of_isMarker hi.reach hhonest hs hxy.apart (hclean _ _) hw hmark

/-- If no acceptor registers while the other one is registered, exactly one of two
crossing connections is left once both attempts have settled. -/
theorem oneSurvives_of_oneAccepts (hr : (system P W).Reach Honest c₀) (h : DialEachOther c₀ x y)
    (hcfg : ∀ n, 0 < (W.cfg n).heartbeatIntervalSecs)
    (hl : (system P W).Leads (OneAccepts W x y) c₀ c) (hset : Settled c x y) :
    OneSurvives c₀ c x y := by
  have hxy := h.opposite
  have hi : Crossing W c₀ x y c := hl.preserves (I := Crossing W c₀ x y)
    (fun _ _ _ hi hz hs => hi.step hxy hz hs) ⟨hr, hcfg, .inl h.crossed, fun _ hw _ => hw⟩
  refine ⟨?_, ?_, ?_⟩
  · exact hi.crossed.imp (fun h => h.survives hset) fun h => h.survives hset.symm
  · intro w hw hmark
    exact (Causal.reach hr).coherent.mem_own (hi.unmarked w ⟨_, hw⟩ (.inl hmark)) hmark.1
  · intro w hw hmark
    exact (Causal.reach hr).coherent.mem_own (hi.unmarked w ⟨_, hw⟩ (.inr hmark)) hmark.1

section
open Reference

/-- The dials of `a` to `b` and of `b` to `a`. -/
def attemptAB : Attempt := ⟨(nodeA, 0), (nodeB, 1)⟩

def attemptBA : Attempt := ⟨(nodeB, 0), (nodeA, 1)⟩

/-- Both nodes spawn a dial to the other. -/
def bothDial : List (Action platform) := dials nodeA "10.0.0.2:4369" ++ dials nodeB "10.0.0.1:4369"

/-- Both acceptors register, both dialers then find a duplicate, and both acceptors
read the end of their stream. -/
def bothAccept : List (Action platform) :=
  [.establish (nodeA, 0) nodeB nonce, .establish (nodeB, 0) nodeA nonce, writes (nodeA, 0),
    writes (nodeB, 0), .receive (nodeB, 1), .receive (nodeA, 1), locks (nodeB, 1),
    locks (nodeA, 1), writes (nodeB, 1), writes (nodeA, 1), .receive (nodeA, 0),
    .receive (nodeB, 0), locks (nodeA, 0), locks (nodeB, 0)] ++
  [locks (nodeB, 1), writes (nodeB, 1), locks (nodeB, 1), .closed (nodeB, 1), locks (nodeB, 1)] ++
  [locks (nodeA, 1), writes (nodeA, 1), locks (nodeA, 1), .closed (nodeA, 1), locks (nodeA, 1)]

def waitsToConnect (p : Port) (c : Cluster platform) : Bool :=
  match c.session p with
  | some ⟨.outbound _, .opening .connect, 0⟩ => true
  | _ => false

theorem dialing_of_waits {p : Port} {c : Cluster platform} (h : waitsToConnect p c = true) :
    ∃ addr, c.session p = some (.dialing addr) := by
  rw [waitsToConnect] at h
  split at h
  · rename_i addr hs
    exact ⟨addr, hs⟩
  · cases h

def haveDialed (c : Cluster platform) : Bool :=
  waitsToConnect (nodeA, 0) c && waitsToConnect (nodeB, 0) c &&
    (((c.daemon nodeA).tasks.length == 1) && ((c.daemon nodeB).tasks.length == 1)) &&
    (((c.state nodeA).owner "b").isNone && ((c.state nodeB).owner "a").isNone)

theorem dialEachOther_of_haveDialed {c : Cluster platform} (h : haveDialed c = true) :
    DialEachOther c attemptAB attemptBA := by
  simp only [haveDialed, Bool.and_eq_true, beq_iff_eq, Option.isNone_iff_eq_none] at h
  obtain ⟨⟨⟨hA, hB⟩, hlA, hlB⟩, hoA, hoB⟩ := h
  refine ⟨by decide, rfl, rfl, ⟨⟨dialing_of_waits hA, ?_⟩, ⟨dialing_of_waits hB, ?_⟩⟩,
    DaemonState.not_mem_peers hoA, DaemonState.not_mem_peers hoB⟩
  · exact Prod.ext rfl hlB.symm
  · exact Prod.ext rfl hlA.symm

def isAttempt : Action platform → Bool
  | .establish p n _ => (p, n) ∈ [((nodeA, 0), nodeB), ((nodeB, 0), nodeA)]
  | .receive p | .closed p => p ∈ [(nodeA, 0), (nodeB, 1), (nodeB, 0), (nodeA, 1)]
  | .own n (.task t e) =>
    (n, t) ∈ [(nodeA, 0), (nodeB, 1), (nodeB, 0), (nodeA, 1)] && e.isSmooth
  | _ => false

theorem attempts_of_isAttempt {c : Cluster platform} {z : Action platform}
    (h : isAttempt z = true) : Attempts setup attemptAB attemptBA c z := by
  cases z with
  | establish p n nonce => simpa [isAttempt, Attempts, attemptAB, attemptBA] using h
  | receive p => simpa [isAttempt, Attempts, attemptAB, attemptBA] using h
  | closed p => simpa [isAttempt, Attempts, attemptAB, attemptBA] using h
  | own n a =>
    cases a with
    | task t e =>
      simp only [isAttempt, Bool.and_eq_true, decide_eq_true_eq] at h
      refine ⟨h.1, h.2, fun s _ hphi => ?_⟩
      obtain ⟨peer, nonce, epoch, now, -, -, hany⟩ := hphi
      obtain ⟨_, -, hexceeds⟩ := (Option.any_eq_true _ _).mp hany
      cases hexceeds
    | _ => cases h
  | _ => cases h

/-- Two nodes that dial each other end up with no connection. -/
theorem bothAccept_noneSurvives :
    ¬ ∀ (c₀ c : Cluster platform) (x y : Attempt), clusters.Reach Honest c₀ →
      DialEachOther c₀ x y → clusters.Leads (Attempts setup x y) c₀ c → Settled c x y →
        OneSurvives c₀ c x y := by
  have heval : ((some cluster).bind fun c =>
      (clusters.guard fun _ z => z.isHonest).run c bothDial).any
        (fun c₀ => haveDialed c₀ &&
          ((clusters.guard fun _ z => isAttempt z).run c₀ bothAccept).any (fun c =>
            decide (Settled c attemptAB attemptBA) &&
              (((c.state nodeA).owner "b").isNone && ((c.state nodeB).owner "a").isNone))) =
        true := by
    decide +kernel
  obtain ⟨c₀, hr, hp⟩ := System.Reach.of_eval (C := Honest) heval (fun _ _ hx => hx) cluster_init
  rw [Bool.and_eq_true] at hp
  obtain ⟨hdial, hp⟩ := hp
  obtain ⟨c, hl, hp⟩ := System.Leads.of_eval (C := Attempts setup attemptAB attemptBA) hp
    fun _ _ => attempts_of_isAttempt
  simp only [Bool.and_eq_true, decide_eq_true_eq, Option.isNone_iff_eq_none] at hp
  obtain ⟨hset, hA, hB⟩ := hp
  intro hall
  rcases (hall c₀ c _ _ hr (dialEachOther_of_haveDialed hdial) hl hset).one with ⟨h, -⟩ | ⟨h, -⟩
  · exact absurd (hA.symm.trans h.dialer) (by simp)
  · exact absurd (hB.symm.trans h.dialer) (by simp)

/-- Node `b` accepts and `a` registers before `a` looks at the dial of `b`. -/
def oneAccepts : List (Action platform) :=
  handshake (nodeA, 0) (nodeB, 1) ++ [.establish (nodeB, 0) nodeA nonce, writes (nodeB, 0),
    .receive (nodeA, 1), locks (nodeA, 1), .closed (nodeB, 0)] ++ exchange (nodeA, 0) (nodeB, 1)

theorem oneSurvives_oneAccepts : ∃ c₀ c : Cluster platform, clusters.Reach Honest c₀ ∧
    DialEachOther c₀ attemptAB attemptBA ∧
    clusters.Leads (OneAccepts setup attemptAB attemptBA) c₀ c ∧
    Settled c attemptAB attemptBA ∧ OneSurvives c₀ c attemptAB attemptBA := by
  have heval : ((some cluster).bind fun c =>
      (clusters.guard fun _ z => z.isHonest).run c bothDial).any
        (fun c₀ => haveDialed c₀ && ((clusters.guard fun c z => isAttempt z &&
          (!c.isLive (nodeA, 1) && !c.registersAt (nodeA, 1) z)).run c₀ oneAccepts).any
            fun c => decide (Settled c attemptAB attemptBA)) = true := by
    decide +kernel
  obtain ⟨c₀, hr, hp⟩ := System.Reach.of_eval (C := Honest) heval (fun _ _ hx => hx) cluster_init
  rw [Bool.and_eq_true] at hp
  obtain ⟨hdial, hp⟩ := hp
  have hguard : ∀ (c : Cluster platform) (z : Action platform), (isAttempt z &&
      (!c.isLive (nodeA, 1) && !c.registersAt (nodeA, 1) z)) = true →
      OneAccepts setup attemptAB attemptBA c z := by
    intro c z hz
    simp only [Bool.and_eq_true, Bool.not_eq_true'] at hz
    refine ⟨attempts_of_isAttempt hz.1, fun _ => hz.2.1, fun h => ?_⟩
    exact absurd (hz.2.2.symm.trans h) (by simp)
  obtain ⟨c, hl, hset⟩ := System.Leads.of_eval hp hguard
  have hset := of_decide_eq_true hset
  have hdial := dialEachOther_of_haveDialed hdial
  exact ⟨c₀, c, hr, hdial, hl, hset,
    oneSurvives_of_oneAccepts hr hdial setup_interval hl hset⟩

end

end Cluster
end Pmd
