import Pmd.Daemon.Documents
import Pmd.Cluster.Network

/-!
# Delta synchronisation

The documents of honest daemons form a coherent family of replicas, and every
message on its way tells the truth: handshakes carry the sender's node id, a
`HandshakeAck` and a `MembershipSync` carry vectors the sender has reached, and a
sync leaves out only writes its receiver has. Hence `lastVv` never runs ahead of
the peer, nothing is lost by sending deltas, and daemons with equal vectors have
equal views.
-/
namespace Pmd
open Foundation

variable {P : Platform}

namespace Cluster

/-- The version vector of a daemon's document. -/
abbrev vv (c : Cluster P) (n : NodeId) : VersionVector String :=
  P.crdt.versionVector (c.daemon n).doc

def replicas (c : Cluster P) (n : NodeId) : Replica String Path Json :=
  P.crdt.asReplica (c.daemon n).doc

/-- A sync from `src` to `dst` carries what a replica at some vector `u` misses of
a cut of the common log, and `dst` has reached `u`. -/
def SyncFits (c : Cluster P) (src dst : NodeId) (b : P.crdt.Encoded)
    (v : VersionVector String) : Prop :=
  ∃ δ u, P.crdt.decode b = some δ ∧ P.crdt.deltaVv δ = v ∧
    P.crdt.deltaWrites δ = missing (commonLog c.replicas) v u ∧ u ≤ c.vv dst ∧ v ≤ c.vv src ∧
    0 < v src.text

/-- What holds of a message on its way from `src` to `dst`. -/
def Fits (c : Cluster P) (src dst : NodeId) : Message P → Prop
  | .handshake nodeId _ _ _ _ _ => nodeId = src.text
  | .handshakeAck nodeId _ _ _ v _ _ => nodeId = src.text ∧ v ≤ c.vv src
  | .membershipSync b v => c.SyncFits src dst b v
  | _ => True

/-- What holds of the data a session holds. -/
structure SessionFits (c : Cluster P) (p : Port) (s : Session P) : Prop where
  outgoing : ∀ m, s.phase.outgoing = some m →
    ∃ q, c.link p = some (.daemon q) ∧ c.Fits p.1 q.1 m
  incoming : ∀ peer m, s.phase = .live peer (.handle m) →
    ∃ q, c.link p = some (.daemon q) ∧ c.Fits q.1 p.1 m
  claimed : ∀ peer v, s.phase = .opening (.register peer v) →
    ∃ q, c.link p = some (.daemon q) ∧ peer.nodeId = q.1.text ∧ v ≤ c.vv q.1
  remote : ∀ peer, s.phase.registered = some peer →
    ∃ q, c.link p = some (.daemon q) ∧ peer.nodeId = q.1.text
  merged : 0 < s.merged → ∃ q, c.link p = some (.daemon q) ∧ 0 < c.vv p.1 q.1.text

/-- The invariant of honest runs. -/
structure Causal (c : Cluster P) : Prop where
  nodeId : ∀ n, (c.state n).membership.nodeId = n.text
  replica : ∀ n, P.crdt.replica (c.daemon n).doc = n.text
  coherent : Coherent NodeId.text c.replicas
  started : ∀ n, 0 < c.vv n n.text
  inbox : ∀ p m, m ∈ c.inbox p → ∃ q, c.link p = some (.daemon q) ∧ c.Fits q.1 p.1 m
  sessions : ∀ p s, c.session p = some s → c.SessionFits p s
  handles : ∀ n k h, (c.state n).peers.lookup k = some h → ∃ r, r.text = k ∧ h.lastVv ≤ c.vv r

variable {W : Setup} {c c' : Cluster P} {n : NodeId} {a : Act P}

theorem replicas_congr (h : c.daemon = c'.daemon) : c.replicas = c'.replicas := by
  funext m
  rw [replicas, replicas, h]

@[simp] theorem replicas_post (c : Cluster P) (n : NodeId) (sent : Option (TaskId × Message P)) :
    (c.post n sent).replicas = c.replicas :=
  replicas_congr (post_daemon c n sent)

theorem replicas_setDaemon (c : Cluster P) (n : NodeId) (d : Daemon P) :
    (c.setDaemon n d).replicas = Function.update c.replicas n (P.crdt.asReplica d.doc) := by
  funext m
  by_cases hm : m = n
  · subst hm
    rw [replicas, setDaemon_self, Function.update_self]
  · rw [replicas, setDaemon_ne _ _ _ hm, Function.update_of_ne hm]
    rfl

section Mono
variable {src dst : NodeId} {p : Port} {s : Session P} {m : Message P}

theorem Fits.mono (hx : Extends c.replicas c'.replicas) (h : c.Fits src dst m) :
    c'.Fits src dst m := by
  cases m with
  | handshake => exact h
  | handshakeAck => exact ⟨h.1, h.2.trans (hx.vv src)⟩
  | membershipSync b v =>
    obtain ⟨δ, u, hb, hv, hw, hu, hle, hpos⟩ := h
    refine ⟨δ, u, hb, hv, ?_, hu.trans (hx.vv dst), hle.trans (hx.vv src), hpos⟩
    rw [hw, hx.missing (i := src) hle]
  | _ => trivial

theorem SessionFits.mono (hx : Extends c.replicas c'.replicas)
    (hl : ∀ q, c.link p = some (.daemon q) → c'.link p = some (.daemon q))
    (h : c.SessionFits p s) : c'.SessionFits p s where
  outgoing m hm := by
    obtain ⟨q, hq, hf⟩ := h.outgoing m hm
    exact ⟨q, hl q hq, hf.mono hx⟩
  incoming peer m hp := by
    obtain ⟨q, hq, hf⟩ := h.incoming peer m hp
    exact ⟨q, hl q hq, hf.mono hx⟩
  claimed peer v hp := by
    obtain ⟨q, hq, hid, hv⟩ := h.claimed peer v hp
    exact ⟨q, hl q hq, hid, hv.trans (hx.vv q.1)⟩
  remote peer hp := by
    obtain ⟨q, hq, hid⟩ := h.remote peer hp
    exact ⟨q, hl q hq, hid⟩
  merged hm := by
    obtain ⟨q, hq, hv⟩ := h.merged hm
    exact ⟨q, hl q hq, hv.trans_le (hx.vv p.1 q.1.text)⟩

/-- A session that holds no data. -/
theorem SessionFits.blank (hout : s.phase.outgoing = none)
    (hin : ∀ peer m, s.phase ≠ .live peer (.handle m))
    (hreg : ∀ peer v, s.phase ≠ .opening (.register peer v)) (hleft : s.phase.registered = none)
    (hmerged : 0 < s.merged → ∃ q, c.link p = some (.daemon q) ∧ 0 < c.vv p.1 q.1.text) :
    c.SessionFits p s where
  outgoing m hm := by simp [hout] at hm
  incoming peer m hp := absurd hp (hin peer m)
  claimed peer v hp := absurd hp (hreg peer v)
  remote peer hp := by simp [hleft] at hp
  merged := hmerged

/-- A registered session that holds at most one message. -/
theorem SessionFits.live {peer : PeerId P} {stage stage' : Stage P} (h : c.SessionFits p s)
    (hp : s.phase = .live peer stage)
    (hout : ∀ m, (Phase.live peer stage').outgoing = some m →
      ∃ q, c.link p = some (.daemon q) ∧ c.Fits p.1 q.1 m)
    (hin : ∀ m, stage' = .handle m → ∃ q, c.link p = some (.daemon q) ∧ c.Fits q.1 p.1 m) :
    c.SessionFits p (s.goto (.live peer stage')) where
  outgoing := hout
  incoming peer' m hp' := by
    cases hp'
    exact hin m rfl
  claimed peer' v hp' := by cases hp'
  remote peer' hp' := by
    cases hp'
    exact h.remote peer (by rw [hp]; rfl)
  merged := h.merged

end Mono

namespace Causal

/-- A delta against a vector the receiver has reached leaves out only what the
receiver has. -/
theorem fits_delta (hi : Causal c) (src : NodeId) {dst : NodeId} {u : VersionVector String}
    (hu : u ≤ c.vv dst) :
    c.Fits src dst (.membershipSync ((c.state src).membership.deltaForPeer u)
      (c.state src).membership.versionVector) := by
  refine ⟨P.crdt.deltaSince (c.daemon src).doc u, u, P.crdt.decode_encode _,
    P.crdt.deltaVv_since _ _, ?_, hu, le_rfl, hi.started src⟩
  have hcut : P.crdt.writes (c.daemon src).doc = cut (commonLog c.replicas) (c.vv src) :=
    hi.coherent.cuts src
  rw [P.crdt.deltaWrites_since, hcut]
  rfl

theorem claimed_of_handshake {p q : Port} {cookie : Bytes} {m : Message P} {peer : PeerId P}
    {v : VersionVector String} (hf : c.Fits q.1 p.1 m)
    (hc : checkHandshake cookie m = some (peer, v)) : peer.nodeId = q.1.text ∧ v ≤ c.vv q.1 := by
  rw [checkHandshake.eq_def] at hc
  split at hc
  · obtain ⟨-, hc⟩ := Option.ite_none_right_eq_some.mp hc
    cases hc
    exact ⟨hf, bot_le⟩
  · cases hc

theorem claimed_of_ack {p q : Port} {cookie : Bytes} {m : Message P} {peer : PeerId P}
    {v : VersionVector String} (hf : c.Fits q.1 p.1 m)
    (hc : checkAck cookie m = some (peer, v)) : peer.nodeId = q.1.text ∧ v ≤ c.vv q.1 := by
  rw [checkAck.eq_def] at hc
  split at hc
  · obtain ⟨-, hc⟩ := Option.ite_none_right_eq_some.mp hc
    cases hc
    exact hf
  · cases hc

/-- Every move of a session except a merge, seen from the state it is made in. -/
theorem sessionMove (hi : Causal c) {p : Port} {s : Session P} {e : TaskEvent P} {o : Outcome P}
    (hs : c.session p = some s)
    (hread : ∀ m, e = .read (.message m) →
      ∃ q, c.link p = some (.daemon q) ∧ c.Fits q.1 p.1 m)
    (hconn : ∀ nonce, e = .connected nonce → ∃ q, c.link p = some (.daemon q))
    (hmerge : o.session.merged = s.merged)
    (hm : SessionMove (W.cfg p.1) W.cookie p.2 (c.state p.1) s e o) :
    c.SessionFits p o.session := by
  have hf := hi.sessions p s hs
  cases hm with
  | @dialed nonce l hp hl =>
    obtain ⟨q, hq⟩ := hconn _ rfl
    refine ⟨fun m hm => ?_, (fun peer m hp' => by cases hp'), (fun peer v hp' => by cases hp'),
      (fun peer hp' => by cases hp'), hf.merged⟩
    cases hm
    exact ⟨q, hq, hi.nodeId p.1⟩
  | refused hp => exact .blank rfl (by simp) (by simp) rfl hf.merged
  | greeted hp => exact .blank rfl (by simp) (by simp) rfl hf.merged
  | checked hp hc =>
    obtain ⟨q, hq, hfit⟩ := hread _ rfl
    refine ⟨(fun m hm => by cases hm), (fun peer m hp' => by cases hp'), fun peer v hp' => ?_,
      (fun peer hp' => by cases hp'), hf.merged⟩
    cases hp'
    refine ⟨q, hq, ?_⟩
    rcases hc with ⟨-, hc⟩ | ⟨-, hc⟩
    · exact claimed_of_handshake (p := p) hfit hc
    · exact claimed_of_ack (p := p) hfit hc
  | registered hp hnew hst =>
    obtain ⟨q, hq, hid, -⟩ := hf.claimed _ _ hp
    refine ⟨fun m hm => ?_, fun peer m hp' => ?_, (fun peer v hp' => by cases hp'),
      fun peer hp' => ?_, hf.merged⟩
    · rcases hst with rfl | ⟨l, -, rfl⟩
      · cases hm
      · cases hm
        exact ⟨q, hq, hi.nodeId p.1, le_rfl⟩
    · rcases hst with rfl | ⟨l, -, rfl⟩ <;> cases hp'
    · cases hp'
      exact ⟨q, hq, hid⟩
  | wrote hp hst =>
    refine hf.live hp (fun m hm => ?_) fun m hm => ?_
    · rcases hst with ⟨-, rfl⟩ | ⟨-, rfl⟩ | ⟨-, rfl⟩ <;> cases hm
    · rcases hst with ⟨-, rfl⟩ | ⟨-, rfl⟩ | ⟨-, rfl⟩ <;> cases hm
  | setupFailed hp _ | panicked hp _ =>
    refine ⟨(fun m hm => by cases hm), (fun peer m hp' => by cases hp'),
      (fun peer v hp' => by cases hp'), fun peer hp' => ?_, hf.merged⟩
    cases hp'
    exact hf.remote _ (by rw [hp]; rfl)
  | built hp =>
    obtain ⟨q, hq, hid⟩ := hf.remote _ (by rw [hp]; rfl)
    refine hf.live hp (fun m hm => ?_) fun m hm => by cases hm
    cases hm
    exact ⟨q, hq, hi.fits_delta p.1 bot_le⟩
  | gossiped hp hh =>
    obtain ⟨q, hq, hid⟩ := hf.remote _ (by rw [hp]; rfl)
    obtain ⟨r, hr, hle⟩ := hi.handles p.1 _ _ hh
    have hrq : r = q.1 := NodeId.text_injective (hr.trans hid)
    subst hrq
    refine hf.live hp (fun m hm => ?_) fun m hm => by cases hm
    cases hm
    exact ⟨q, hq, hi.fits_delta p.1 hle⟩
  | beat hp hb =>
    obtain ⟨q, hq, hid⟩ := hf.remote _ (by rw [hp]; rfl)
    refine hf.live hp (fun m hm => ?_) fun m hm => by cases hm
    cases hm
    rcases hb with rfl | rfl <;> exact ⟨q, hq, trivial⟩
  | token hp hg => exact hf.live hp (fun m hm => by cases hm) fun m hm => by cases hm
  | received hp =>
    refine hf.live hp (fun m hm => by cases hm) fun m hm => ?_
    cases hm
    exact hread _ rfl
  | moved hp hst =>
    refine hf.live hp (fun m hm => ?_) fun m hm => ?_
    · rcases hst with rfl | rfl | rfl <;> cases hm
    · rcases hst with rfl | rfl | rfl <;> cases hm
  | recorded hp => exact hf.live hp (fun m hm => by cases hm) fun m hm => by cases hm
  | merged _ _ => exact absurd hmerge (Nat.succ_ne_self _)
  | cleaned hp => exact .blank rfl (by simp) (by simp) rfl hf.merged

/-- Documents stay coherent and only extend. -/
theorem replicas_act (hi : Causal c) (h : c.act W n a = some c') :
    Coherent NodeId.text c'.replicas ∧ Extends c.replicas c'.replicas := by
  obtain ⟨d, sent, hd, rfl⟩ := act_eq_some h
  rw [replicas_post, replicas_setDaemon]
  have hedits : ∀ {A : String → Option Json → Prop}, P.crdt.Edits A (c.daemon n).doc d.doc →
      Coherent NodeId.text (Function.update c.replicas n (P.crdt.asReplica d.doc)) ∧
        Extends c.replicas (Function.update c.replicas n (P.crdt.asReplica d.doc)) :=
    fun he => he.coherent NodeId.text_injective hi.coherent rfl (hi.replica n)
  cases Daemon.step_doc hd with
  | same hsame =>
    have heq : P.crdt.asReplica d.doc = c.replicas n := by rw [hsame]; rfl
    rw [heq, Function.update_eq_self]
    exact ⟨hi.coherent, .refl _⟩
  | request he => exact hedits he
  | removeSelf _ he => exact hedits he
  | cleaned _ _ he => exact hedits he
  | @merged t s e peer b v δ hs hp hb hdoc =>
    obtain ⟨q, hq, δ', u, hb', hv, hw, hu, hle, -⟩ := (hi.sessions (n, t) s hs).incoming _ _ hp
    rw [hb, Option.some.injEq] at hb'
    subst hb'
    subst hv
    rw [hdoc, P.crdt.asReplica_merge]
    exact ⟨hi.coherent.absorb n (j := q.1) hw hle hu, Coherent.extends_absorb n hw⟩

theorem handles_act (hi : Causal c) (hx : Extends c.replicas c'.replicas)
    (h : c.act W n a = some c') (m : NodeId) (k : String) (hd : PeerHandle P)
    (hk : (c'.state m).peers.lookup k = some hd) : ∃ r, r.text = k ∧ hd.lastVv ≤ c'.vv r := by
  obtain ⟨d, sent, hstep, hc'⟩ := act_eq_some h
  have hgrow : (∃ r : NodeId, r.text = k ∧ hd.lastVv ≤ c.vv r) →
      ∃ r, r.text = k ∧ hd.lastVv ≤ c'.vv r := by
    rintro ⟨r, hr, hle⟩
    exact ⟨r, hr, hle.trans (hx.vv r)⟩
  apply hgrow
  by_cases hm : m = n
  · subst hm
    rw [state, hc', post_daemon, setDaemon_self] at hk
    cases Daemon.step_lookup hstep hk with
    | kept hk₀ hv _ _ =>
      rw [hv]
      exact hi.handles m k _ hk₀
    | @registered t e s peer vv hs hp hkp hv _ _ =>
      obtain ⟨q, -, hid, hle⟩ := (hi.sessions (m, t) s hs).claimed _ _ hp
      exact ⟨q.1, by rw [hkp, hid], by rw [hv]; exact hle⟩
    | @synced t e s peer b v h₀ hs hp hkp _ hv _ _ =>
      have hf := hi.sessions (m, t) s hs
      obtain ⟨q, hq, δ, u, -, -, -, -, hle, -⟩ := hf.incoming _ _ hp
      obtain ⟨q', hq', hid⟩ := hf.remote peer (by rw [hp]; rfl)
      rw [hq, Option.some.injEq, Endpoint.daemon.injEq] at hq'
      subst hq'
      exact ⟨q.1, by rw [hkp, hid], by rw [hv]; exact hle⟩
  · rw [state, hc', post_daemon, setDaemon_ne _ _ _ hm] at hk
    exact hi.handles m k hd hk

theorem sessions_act (hi : Causal c) (hx : Extends c.replicas c'.replicas)
    (hread : ∀ t m, a = .task t (.read (.message m)) →
      ∃ q, c.link (n, t) = some (.daemon q) ∧ c.Fits q.1 n m)
    (hconn : ∀ t nonce, a = .task t (.connected nonce) → ∃ q, c.link (n, t) = some (.daemon q))
    (h : c.act W n a = some c') (p : Port) (s : Session P) (hs : c'.session p = some s) :
    c'.SessionFits p s := by
  have hlink : ∀ q, c.link p = some (.daemon q) → c'.link p = some (.daemon q) := by
    intro q hq
    rw [act_link h, hq]
  rcases session_act h hs with ⟨e, s₀, o, rfl, rfl, hs₀, hm, rfl⟩ | hold | ⟨-, hnew⟩
  · by_cases hmerged : o.session.merged = s₀.merged
    · exact (hi.sessionMove hs₀ (fun m he => hread p.2 m (by rw [he]))
        (fun nonce he => hconn p.2 nonce (by rw [he])) hmerged hm).mono hx hlink
    · have hf := hi.sessions p s₀ hs₀
      have hf' := hf.mono hx hlink
      cases hm with
      | @merged peer b v st' nonce epoch now hp hm =>
        obtain ⟨q, hq, δ, u, hb, rfl, -, -, -, hpos⟩ := hf.incoming _ _ hp
        refine ⟨fun m hm => by simp [Phase.outgoing] at hm, fun _ _ hp' => by simp at hp',
          fun _ _ hp' => by simp at hp', fun peer' hp' => ?_, fun _ => ⟨q, hlink q hq, ?_⟩⟩
        · exact hf'.remote peer' (by rw [hp]; exact hp')
        · obtain ⟨δ', changes, hb', hst'⟩ := DaemonState.mergeSync_eq_some hm
          rw [hb, Option.some.injEq] at hb'
          subst hb'
          have hdoc : (c'.daemon p.1).doc = P.crdt.mergeDelta (c.daemon p.1).doc δ := by
            have ho : sessionStep (W.cfg p.1) W.cookie p.2 (c.state p.1) s₀
                (.lock nonce epoch now) = some ⟨st', { s₀ with
                  phase := .live peer .select, merged := s₀.merged + 1 }, none⟩ := by
              simp only [sessionStep, hp, stageStep, handleStep, hm]
            rw [act_of_sessionStep hs₀ ho, Option.some.injEq] at h
            rw [← h, post_daemon, setDaemon_self, Daemon.doc, hst']
            simp [DaemonState.broadcastEvents]
          rw [vv, hdoc, P.crdt.vv_merge]
          exact lt_sup_of_lt_right hpos
      | _ => exact absurd rfl hmerged
  · exact (hi.sessions p s hold).mono hx hlink
  · rcases hnew with ⟨addr, rfl⟩ | ⟨-, -, rfl⟩
    · exact .blank rfl (by simp [Session.dialing]) (by simp [Session.dialing]) rfl
        fun h => absurd h (Nat.lt_irrefl 0)
    · exact .blank rfl (by simp [Session.accepted]) (by simp [Session.accepted]) rfl
        fun h => absurd h (Nat.lt_irrefl 0)

theorem act (hi : Causal c)
    (hsymm : ∀ p q, c.link p = some (.daemon q) → c.link q = some (.daemon p))
    (hread : ∀ t m, a = .task t (.read (.message m)) →
      ∃ q, c.link (n, t) = some (.daemon q) ∧ c.Fits q.1 n m)
    (hconn : ∀ t nonce, a = .task t (.connected nonce) → ∃ q, c.link (n, t) = some (.daemon q))
    (h : c.act W n a = some c') : Causal c' := by
  obtain ⟨hcoh, hx⟩ := hi.replicas_act h
  have hlink := act_link h
  obtain ⟨d, sent, hd, hc'⟩ := act_eq_some h
  have hdaemon : ∀ m, c'.daemon m = if m = n then d else c.daemon m := by
    intro m
    rw [hc', post_daemon]
    split
    · rename_i hm
      rw [hm, setDaemon_self]
    · rename_i hm
      rw [setDaemon_ne _ _ _ hm]
  refine ⟨fun m => ?_, fun m => ?_, hcoh, fun m => ?_, fun p m hm => ?_,
    hi.sessions_act hx hread hconn h, hi.handles_act hx h⟩
  · rw [state, hdaemon]
    split
    · rename_i hm
      rw [Daemon.step_nodeId hd, hm]
      exact hi.nodeId n
    · exact hi.nodeId m
  · rw [hdaemon]
    split
    · rename_i hm
      rw [Daemon.step_replica hd, hm]
      exact hi.replica n
    · exact hi.replica m
  · exact (hi.started m).trans_le (hx.vv m m.text)
  · rw [hlink]
    rw [hc'] at hm
    rcases mem_inbox_post hm with hold | ⟨t, rfl, hl⟩
    · obtain ⟨q, hq, hf⟩ := hi.inbox p m hold
      exact ⟨q, hq, hf.mono hx⟩
    · rcases Daemon.step_cases hd with ⟨t', e, s, o, -, hs, hmove, -, hsent⟩ | ⟨-, hsent⟩
      · obtain ⟨m', hm', heq⟩ := Option.map_eq_some_iff.mp hsent.symm
        cases heq
        obtain ⟨q, hq, hf⟩ := (hi.sessions (n, t) s hs).outgoing m (hmove.outgoing_of_sent hm')
        rw [setDaemon_link, hq, Option.some.injEq, Endpoint.daemon.injEq] at hl
        subst hl
        exact ⟨(n, t), hsymm _ _ hq, hf.mono hx⟩
      · cases hsent

/-- A new connection joins two free ports. -/
theorem setLink (hi : Causal c) {p : Port} (hp : c.link p = none) (x : Endpoint) :
    Causal (c.setLink p x) where
  nodeId := hi.nodeId
  replica := hi.replica
  coherent := hi.coherent
  started := hi.started
  inbox r m hm := by
    obtain ⟨q, hq, hf⟩ := hi.inbox r m hm
    exact ⟨q, Links.link_setLink_of_some hp hq, Fits.mono (.refl _) hf⟩
  sessions r s hs := by
    have hx : Extends c.replicas (c.setLink p x).replicas := .refl _
    exact (hi.sessions r s hs).mono hx fun _ hq => Links.link_setLink_of_some hp hq
  handles := hi.handles

/-- A step that reads nothing and connects nothing. -/
theorem act_quiet (hi : Causal c)
    (hsymm : ∀ p q, c.link p = some (.daemon q) → c.link q = some (.daemon p))
    (hread : ∀ t m, a ≠ .task t (.read (.message m)))
    (hconn : ∀ t nonce, a ≠ .task t (.connected nonce)) (h : c.act W n a = some c') :
    Causal c' :=
  hi.act hsymm (fun t m ha => absurd ha (hread t m)) (fun t nonce ha => absurd ha (hconn t nonce)) h

/-- Taking a message out of an inbox. -/
theorem pop (hi : Causal c) {p : Port} {m : Message P} {rest : List (Message P)}
    (hin : c.inbox p = m :: rest) : Causal (c.setInbox p rest) := by
  refine ⟨hi.nodeId, hi.replica, hi.coherent, hi.started,
    fun r m' hm' => hi.inbox r m' (mem_inbox_of_tail hin hm'), fun r s hs => ?_, hi.handles⟩
  have hx : Extends c.replicas (c.setInbox p rest).replicas := .refl _
  exact (hi.sessions r s hs).mono hx fun _ => id

/-- Joining a dialling session to a listener. -/
theorem establish_dialer (hi : Causal c) (hl : Links c) {p : Port} {nonce : Nonce}
    {c₁ : Cluster P}
    (h : (c.connect p (c.nextPort n)).act W p.1 (.task p.2 (.connected nonce)) = some c₁) :
    Causal (c.connect p (c.nextPort n)) ∧ Causal c₁ := by
  obtain ⟨hpq, hlp, hlq⟩ := hl.establish_ports h
  have hi' : Causal (c.connect p (c.nextPort n)) :=
    (hi.setLink hlp _).setLink (by rw [setLink_ne _ _ _ (Ne.symm hpq), hlq]) _
  refine ⟨hi', hi'.act (Links.symm_connect hpq hlp hlq hl.symm) (fun t m' ha => by cases ha)
    (fun t nonce' ha => ?_) h⟩
  cases ha
  exact ⟨_, by rw [Links.link_connect hpq, if_pos rfl]⟩

theorem step (hi : Causal c) (hl : Links c) {x : Action P} (hx : Honest c x)
    (h : c.step W x = some c') : Causal c' := by
  cases x with
  | own n a =>
    obtain ⟨hown, h⟩ := Option.ite_none_right_eq_some.mp h
    refine hi.act_quiet hl.symm (fun t m ha => ?_) (fun t nonce ha => ?_) h
    all_goals
      rw [ha] at hown
      cases hown
  | receive p =>
    obtain ⟨m, rest, hin, h⟩ := step_receive h
    refine (hi.pop hin).act hl.symm (fun t m' ha => ?_) (fun t nonce ha => by cases ha) h
    cases ha
    exact hi.inbox p m (by rw [hin]; exact List.mem_cons_self)
  | closed p =>
    obtain ⟨-, h⟩ := Option.ite_none_right_eq_some.mp h
    exact hi.act_quiet hl.symm (by simp) (by simp) h
  | establish p n nonce =>
    obtain ⟨c₁, h₁, h₂⟩ := Option.bind_eq_some_iff.mp h
    obtain ⟨hpq, hlp, hlq⟩ := hl.establish_ports h₁
    refine (hi.establish_dialer hl h₁).2.act_quiet ?_ (by simp) (by simp) h₂
    rw [act_link h₁]
    exact Links.symm_connect hpq hlp hlq hl.symm
  | _ => cases hx

/-- A property of the daemons is kept by a step if it is kept by the daemon steps
it consists of: the daemon's own one, or one the network takes part in. -/
theorem step_induct (hi : Causal c) (hl : Links c) {x : Action P} (hx : Honest c x)
    (h : c.step W x = some c') {I : Cluster P → Prop}
    (hnet : ∀ c₀ c₁ : Cluster P, c₀.daemon = c₁.daemon → I c₀ → I c₁)
    (hact : ∀ c₀ c₁ n a, Causal c₀ → I c₀ → (x = .own n a ∧ c₀ = c) ∨ a.isOwn = false →
      c₀.act W n a = some c₁ → I c₁) (h₀ : I c) : I c' := by
  cases x with
  | own n a =>
    obtain ⟨-, h⟩ := Option.ite_none_right_eq_some.mp h
    exact hact c c' n a hi h₀ (.inl ⟨rfl, rfl⟩) h
  | receive p =>
    obtain ⟨m, rest, hin, h⟩ := step_receive h
    exact hact _ c' _ _ (hi.pop hin) (hnet c _ rfl h₀) (.inr rfl) h
  | closed p =>
    obtain ⟨-, h⟩ := Option.ite_none_right_eq_some.mp h
    exact hact c c' _ _ hi h₀ (.inr rfl) h
  | establish p n nonce =>
    obtain ⟨c₁, h₁, h₂⟩ := Option.bind_eq_some_iff.mp h
    obtain ⟨hi', hi₁⟩ := hi.establish_dialer hl h₁
    exact hact c₁ c' _ _ hi₁ (hact _ c₁ _ _ hi' (hnet c _ rfl h₀) (.inr rfl) h₁) (.inr rfl) h₂
  | _ => cases hx

theorem extends_step (hi : Causal c) (hl : Links c) {x : Action P} (hx : Honest c x)
    (h : c.step W x = some c') : Extends c.replicas c'.replicas := by
  refine hi.step_induct hl hx h (I := fun c' => Extends c.replicas c'.replicas) ?_ ?_ (.refl _)
  · intro c₀ c₁ hd hx
    rwa [← replicas_congr hd]
  · exact fun c₀ c₁ n a hi hx _ h => hx.trans (hi.replicas_act h).2

theorem init (h : (system P W).init c) : Causal c := by
  obtain ⟨hd, hl, hin, -⟩ := h
  choose metadata addr now hd using hd
  have hstart := fun n => Daemon.start_eq_some (hd n)
  have hdoc : ∀ n, (c.daemon n).doc = P.crdt.set (P.crdt.new n.text) (nodePath n.text)
      (nodeRecord (addr n) (metadata n) (now n)) := by
    intro n
    rw [Daemon.doc, (hstart n).2.1]
    rfl
  have hrep : c.replicas = fun n => (⟨∅, ⊥⟩ : Replica String Path Json).append n.text
      (splitPath (nodePath n.text)) (some (nodeRecord (addr n) (metadata n) (now n))) := by
    funext n
    rw [replicas, hdoc, P.crdt.asReplica_set, P.crdt.replica_new, Concordat.asReplica,
      P.crdt.writes_new, P.crdt.vv_new]
  refine ⟨fun n => ?_, fun n => ?_, ?_, fun n => ?_, fun p m hm => ?_, fun p s hs => ?_,
    fun n k h hk => ?_⟩
  · rw [state, (hstart n).2.1]
    rfl
  · rw [hdoc, P.crdt.replica_set, P.crdt.replica_new]
  · rw [hrep]
    exact Coherent.first NodeId.text_injective _ _
  · simp [vv, hdoc, tickVv]
  · simp [hin] at hm
  · rw [session, (hstart p.1).2.2.2.1] at hs
    cases hs
  · rw [state, (hstart n).2.2.1] at hk
    cases hk

theorem reach (h : (system P W).Reach Honest c) : Causal c :=
  (h.invariant (I := fun c => Causal c ∧ Links c) (fun _ hc => ⟨init hc, .init hc⟩)
    fun _ _ _ hi hx hs => ⟨hi.1.step hi.2 hx hs, hi.2.step hs⟩).1

/-- The invariant rule for honest runs: a property of the daemons that holds
in the initial state of the run and is kept by their steps. -/
theorem leads_invariant {I : Cluster P → Prop} {C : Cluster P → Action P → Prop}
    (hC : ∀ c x, C c x → Honest c x)
    (hnet : ∀ c₀ c₁ : Cluster P, c₀.daemon = c₁.daemon → I c₀ → I c₁)
    (hact : ∀ c x c₀ c₁ n a, C c x → Causal c₀ → I c₀ → (x = .own n a ∧ c₀ = c) ∨ a.isOwn = false →
      c₀.act W n a = some c₁ → I c₁)
    {c₀ : Cluster P} (h₀ : (system P W).init c₀) (hi : I c₀) (hl : (system P W).Leads C c₀ c) :
    I c := by
  refine (hl.preserves (I := fun c => I c ∧ Causal c ∧ Links c)
    (fun c x c' hi hx hs => ⟨?_, ?_, ?_⟩) ⟨hi, init h₀, .init h₀⟩).1
  · exact hi.2.1.step_induct hi.2.2 (hC c x hx) hs hnet
      (fun c₀ c₁ n a => hact c x c₀ c₁ n a hx) hi.1
  · exact hi.2.1.step hi.2.2 (hC c x hx) hs
  · exact hi.2.2.step hs

theorem invariant {I : Cluster P → Prop} {C : Cluster P → Action P → Prop}
    (hC : ∀ c x, C c x → Honest c x) (hinit : ∀ c, (system P W).init c → I c)
    (hnet : ∀ c₀ c₁ : Cluster P, c₀.daemon = c₁.daemon → I c₀ → I c₁)
    (hact : ∀ c x c₀ c₁ n a, C c x → Causal c₀ → I c₀ → (x = .own n a ∧ c₀ = c) ∨ a.isOwn = false →
      c₀.act W n a = some c₁ → I c₁) (h : (system P W).Reach C c) : I c := by
  obtain ⟨c₀, h₀, hl⟩ := h
  exact leads_invariant hC hnet hact h₀ (hinit c₀ h₀) hl

/-- Along a run the documents only extend. -/
theorem extends_leads (h : (system P W).Reach Honest c) (hl : (system P W).Leads Honest c c') :
    Extends c.replicas c'.replicas := by
  refine (hl.preserves (I := fun c' => (system P W).Reach Honest c' ∧
    Extends c.replicas c'.replicas) (fun c₁ x c₂ hi hx hs => ?_) ⟨h, .refl _⟩).2
  exact ⟨hi.1.leads (.single ⟨x, hx, hs⟩),
    hi.2.trans ((reach hi.1).extends_step (Links.reach hi.1) hx hs)⟩

/-- The vector of a document covers only writes the document holds. -/
theorem mem_writes_of_covers (hi : Causal c) {w : DocWrite} {m : NodeId}
    (hw : w ∈ P.crdt.writes (c.daemon m).doc) (hc : Covers (c.vv n) w.dot) :
    w ∈ P.crdt.writes (c.daemon n).doc := by
  have hcut : P.crdt.writes (c.daemon n).doc = cut (commonLog c.replicas) (c.vv n) :=
    hi.coherent.cuts n
  rw [hcut]
  exact ⟨⟨m, hw⟩, hc⟩

theorem materialize_eq (hi : Causal c) {d e : P.Doc}
    (hd : P.crdt.writes d ⊆ commonLog c.replicas) (h : P.crdt.writes d = P.crdt.writes e) :
    P.crdt.materialize d = P.crdt.materialize e :=
  P.crdt.materialize_congr d e (hi.coherent.identify.subset hd) h

/-- Merging an earlier delta against a vector that `r` has reached gives the cut at
the join of the two vectors. -/
theorem writes_merge_delta (h : (system P W).Reach Honest c)
    (hl : (system P W).Leads Honest c c') (src r : NodeId) {u : VersionVector String}
    (hu : u ≤ c.vv r) :
    P.crdt.writes (P.crdt.mergeDelta (c'.daemon r).doc
      (P.crdt.deltaSince (c.daemon src).doc u)) =
        cut (commonLog c'.replicas) (c'.vv r ⊔ c.vv src) := by
  have hx := extends_leads h hl
  have hcut : P.crdt.writes (c'.daemon r).doc = cut (commonLog c'.replicas) (c'.vv r) :=
    (reach (h.leads hl)).coherent.cuts r
  have hsrc : P.crdt.writes (c.daemon src).doc = cut (commonLog c.replicas) (c.vv src) :=
    (reach h).coherent.cuts src
  have hdelta : P.crdt.deltaWrites (P.crdt.deltaSince (c.daemon src).doc u) =
      missing (commonLog c'.replicas) (c.vv src) u := by
    rw [hx.missing (i := src) (v := c.vv src) le_rfl u, P.crdt.deltaWrites_since, hsrc]
    rfl
  have hle : u ≤ c'.vv r := hu.trans (hx.vv r)
  rw [P.crdt.writes_merge, hcut, hdelta, cut_union_missing _ hle]

end Causal

/-- Delta sync loses nothing: `lastVv` is covered by the peer's vector, vectors
cover only incorporated writes, and a delta built from `lastVv` and merged at any
later moment has the effect of the full delta built with it. -/
theorem deltaSync_lossless (h : (system P W).Reach Honest c) :
    (∀ n k hd, (c.state n).peers.lookup k = some hd → ∃ r : NodeId, r.text = k ∧
      hd.lastVv ≤ c.vv r) ∧
    (∀ n m w, w ∈ P.crdt.writes (c.daemon m).doc → Covers (c.vv n) w.dot →
      w ∈ P.crdt.writes (c.daemon n).doc) ∧
    (∀ n (r : NodeId) hd c', (c.state n).peers.lookup r.text = some hd →
      (system P W).Leads Honest c c' →
      ∃ m₁ m₂ ch₁ ch₂,
        (c'.state r).membership.mergeRemote ((c.state n).membership.deltaForPeer hd.lastVv) =
          some (m₁, ch₁) ∧
        (c'.state r).membership.mergeRemote (c.state n).membership.fullDelta = some (m₂, ch₂) ∧
        P.crdt.writes m₁.doc = P.crdt.writes m₂.doc ∧ m₁.versionVector = m₂.versionVector ∧
        P.crdt.materialize m₁.doc = P.crdt.materialize m₂.doc) := by
  have hi := Causal.reach h
  refine ⟨hi.handles, fun n m w hw hc => hi.mem_writes_of_covers hw hc, ?_⟩
  intro n r hd c' hk hl
  obtain ⟨r', hr', hle⟩ := hi.handles n r.text hd hk
  have hrr : r' = r := NodeId.text_injective hr'
  subst hrr
  have hw₁ := Causal.writes_merge_delta h hl n r' hle
  have hw₂ := Causal.writes_merge_delta h hl n r' (u := ⊥) bot_le
  have hwrites := hw₁.trans hw₂.symm
  refine ⟨_, _, _, _, Membership.mergeRemote_deltaForPeer _ _ _,
    Membership.mergeRemote_deltaForPeer _ _ _, hwrites, ?_, ?_⟩
  · simp [Membership.versionVector]
  · refine (Causal.reach (h.leads hl)).materialize_eq ?_ hwrites
    rw [hw₁]
    exact cut_subset _ _

/-- The views of two daemons agree: the same members with the same data, and the
same answer to every lookup. -/
def SameView (c : Cluster P) (n m : NodeId) : Prop :=
  (c.state n).membership.members = (c.state m).membership.members ∧
    ∀ name, (c.state n).membership.lookupService name = (c.state m).membership.lookupService name

theorem Causal.sameView (hi : Causal c) {n m : NodeId} (hv : c.vv n = c.vv m) : c.SameView n m := by
  have hw : P.crdt.writes (c.daemon n).doc = P.crdt.writes (c.daemon m).doc :=
    hi.coherent.writes_eq (i := n) (j := m) hv
  have hmat : P.crdt.materialize (c.daemon n).doc = P.crdt.materialize (c.daemon m).doc :=
    hi.materialize_eq (fun w hw => ⟨n, hw⟩) hw
  exact ⟨Membership.members_congr hmat, Membership.lookupService_congr hmat⟩

/-- The session at `p` merges the sync it has read. -/
theorem vv_merge {p : Port} {s : Session P} {peer : PeerId P} {b : P.crdt.Encoded}
    {v : VersionVector String} {δ : P.crdt.Delta} {nonce : Nonce} {epoch : Option ℕ} {now : ℕ}
    (hs : c.session p = some s) (hp : s.phase = .live peer (.handle (.membershipSync b v)))
    (hb : P.crdt.decode b = some δ)
    (h : (system P W).step c (.own p.1 (.task p.2 (.lock nonce epoch now))) = some c') :
    c'.vv p.1 = c.vv p.1 ⊔ P.crdt.deltaVv δ ∧ ∀ m, m ≠ p.1 → c'.vv m = c.vv m := by
  have h : c.act W p.1 (.task p.2 (.lock nonce epoch now)) = some c' := h
  obtain ⟨d, sent, hd, rfl⟩ := act_eq_some h
  obtain ⟨s', o, hs', -, ho, rfl, -⟩ := Daemon.taskStep_eq_some hd
  have heq : s = s' := Option.some.inj (hs.symm.trans hs')
  subst heq
  refine ⟨?_, fun m hm => by rw [vv, post_daemon, setDaemon_ne _ _ _ hm]⟩
  have hm : ∃ st', (c.state p.1).mergeSync peer.nodeId b v = some st' := by
    simp [DaemonState.mergeSync, Membership.mergeRemote, hb]
  obtain ⟨st', hm⟩ := hm
  simp only [sessionStep, hp, stageStep, handleStep, hm, Option.some.injEq] at ho
  obtain ⟨δ', changes, hb', hst'⟩ := DaemonState.mergeSync_eq_some hm
  rw [hb, Option.some.injEq] at hb'
  subst hb'
  rw [vv, post_daemon, setDaemon_self, Daemon.doc, ← ho, hst']
  simp [DaemonState.broadcastEvents]

/-- Convergence: equal vectors mean equal views, in every reachable state. In
particular after `A` merges a sync of `B`, and `B` merges the sync `A` builds from
the vector that came with it, with no other write of the two in between. -/
theorem sameView_of_vv_eq (h : (system P W).Reach Honest c) :
    (∀ A B, c.vv A = c.vv B → c.SameView A B) ∧
    (∀ (A B : Port) s₁ peer₁ b v nonce₁ epoch₁ now₁ c₁ c₂ s₂ peer₂ v₂ nonce₂ epoch₂ now₂ c₃,
      c.session A = some s₁ → s₁.phase = .live peer₁ (.handle (.membershipSync b v)) →
      c.link A = some (.daemon B) →
      (system P W).step c (.own A.1 (.task A.2 (.lock nonce₁ epoch₁ now₁))) = some c₁ →
      (system P W).Leads Honest c₁ c₂ → c₂.vv A.1 = c₁.vv A.1 → c₂.vv B.1 = v →
      c₂.session B = some s₂ → s₂.phase = .live peer₂ (.handle (.membershipSync
        ((c₁.state A.1).membership.deltaForPeer v) v₂)) →
      (system P W).step c₂ (.own B.1 (.task B.2 (.lock nonce₂ epoch₂ now₂))) = some c₃ →
      c₃.SameView A.1 B.1) := by
  refine ⟨fun A B hv => (Causal.reach h).sameView hv, ?_⟩
  intro A B s₁ peer₁ b v nonce₁ epoch₁ now₁ c₁ c₂ s₂ peer₂ v₂ nonce₂ epoch₂ now₂ c₃
    hs₁ hp₁ hlink h₁ hl hA hB hs₂ hp₂ h₃
  obtain ⟨q, -, δ, u, hb, hδ, -⟩ := ((Causal.reach h).sessions A s₁ hs₁).incoming _ _ hp₁
  have hr₁ : (system P W).Reach Honest c₁ := h.leads (.single ⟨.own _ _, rfl, h₁⟩)
  have hr₃ : (system P W).Reach Honest c₃ := (hr₁.leads hl).leads (.single ⟨.own _ _, rfl, h₃⟩)
  have hv₁ : c₁.vv A.1 = c.vv A.1 ⊔ v := by rw [(vv_merge hs₁ hp₁ hb h₁).1, hδ]
  obtain ⟨hvB, hvA⟩ := vv_merge hs₂ hp₂ (P.crdt.decode_encode _) h₃
  refine (Causal.reach hr₃).sameView ?_
  by_cases hAB : A.1 = B.1
  · rw [hAB]
  · rw [hvA _ hAB, hA, hvB, hB, P.crdt.deltaVv_since]
    change c₁.vv A.1 = v ⊔ c₁.vv A.1
    rw [hv₁, sup_comm v, sup_assoc, sup_idem]

section
open Reference

/-- Nodes `a` and `b` have registered each other. -/
def registered : Cluster platform :=
  ((clusters.guard fun _ x => x.isHonest).run cluster
    (dials nodeA "10.0.0.2:4369" ++ handshake (nodeA, 0) (nodeB, 0))).get (by decide +kernel)

theorem registered_run : (clusters.guard fun _ x => x.isHonest).run cluster
    (dials nodeA "10.0.0.2:4369" ++ handshake (nodeA, 0) (nodeB, 0)) = some registered :=
  (Option.some_get _).symm

theorem registered_reach : clusters.Reach Honest registered :=
  ⟨cluster, cluster_init _ rfl, .of_guard (fun _ _ hx => hx) registered_run⟩

/-- The daemon of `p` signals the session at `p`, which sends a sync. -/
def gossips (p : Port) : List (Action platform) :=
  [.own p.1 (.gossipTick 0), .own p.1 .gossipSend, .own p.1 (.task p.2 .gossipBranch), locks p,
    writes p]

/-- The two merge each other's full delta, a service is registered at each of them, and `b`
sends a sync. -/
def asks : List (Action platform) :=
  exchange (nodeA, 0) (nodeB, 0) ++ [.own nodeA (.request (.register "web" 80 ∅)),
    .own nodeB (.request (.register "db" 5432 ∅))] ++ gossips (nodeB, 0) ++ [.receive (nodeA, 0)]

def asked : Cluster platform :=
  ((clusters.guard fun _ x => x.isHonest).run registered asks).get (by decide +kernel)

/-- `a` has merged the sync. -/
def learned : Cluster platform := (clusters.step asked (locks (nodeA, 0))).get (by decide +kernel)

def answers : List (Action platform) := gossips (nodeA, 0) ++ [.receive (nodeB, 0)]

def answered : Cluster platform :=
  ((clusters.guard fun _ x => x.isHonest).run learned answers).get (by decide +kernel)

/-- `b` has merged the answer. -/
def agreed : Cluster platform :=
  (clusters.step answered (locks (nodeB, 0))).get (by decide +kernel)

theorem asked_reach : clusters.Reach Honest asked :=
  registered_reach.leads (.of_guard (fun _ _ hx => hx) (Option.some_get _).symm)

theorem step_learned : clusters.step asked (locks (nodeA, 0)) = some learned :=
  (Option.some_get _).symm

theorem learned_reach : clusters.Reach Honest learned :=
  asked_reach.leads (.single ⟨locks (nodeA, 0), rfl, step_learned⟩)

theorem leads_answered : clusters.Leads Honest learned answered :=
  .of_guard (fun _ _ hx => hx) (Option.some_get _).symm

theorem step_agreed : clusters.step answered (locks (nodeB, 0)) = some agreed :=
  (Option.some_get _).symm

theorem agreed_reach : clusters.Reach Honest agreed :=
  (learned_reach.leads leads_answered).leads (.single ⟨locks (nodeB, 0), rfl, step_agreed⟩)

set_option maxRecDepth 100000 in
theorem asked_handles : asked.link (nodeA, 0) = some (.daemon (nodeB, 0)) ∧
    asked.session (nodeA, 0) = some ⟨.outbound (addr 2), .live ⟨"b", addr 2⟩
      (.handle (.membershipSync ((asked.state nodeB).membership.deltaForPeer
        (registered.vv nodeA)) (asked.vv nodeB))), 1⟩ := by
  constructor <;> with_unfolding_all rfl

set_option maxRecDepth 100000 in
/-- The answer is built from the vector that came with the sync. -/
theorem answered_handles : answered.session (nodeB, 0) = some ⟨.inbound, .live ⟨"a", addr 1⟩
    (.handle (.membershipSync ((learned.state nodeA).membership.deltaForPeer (asked.vv nodeB))
      (learned.vv nodeA))), 1⟩ := by
  with_unfolding_all rfl

set_option maxRecDepth 100000 in
theorem answered_vv :
    answered.vv nodeA = learned.vv nodeA ∧ answered.vv nodeB = asked.vv nodeB := by
  constructor <;> with_unfolding_all rfl

set_option maxRecDepth 100000 in
theorem learned_lookup : ((learned.state nodeA).peers.lookup "b").map PeerHandle.lastVv =
    some (asked.vv nodeB) := by
  with_unfolding_all rfl

set_option maxRecDepth 100000 in
theorem agreed_vv : agreed.vv nodeA = agreed.vv nodeB := by
  have hA : agreed.vv nodeA = asked.vv nodeA ⊔ asked.vv nodeB := by
    with_unfolding_all rfl
  have hB : agreed.vv nodeB = asked.vv nodeB ⊔ (asked.vv nodeA ⊔ asked.vv nodeB) := by
    with_unfolding_all rfl
  rw [hA, hB, sup_comm (asked.vv nodeB), sup_assoc, sup_idem]

/-- The delta `a` builds against what it has last heard of `b`, merged after `a` has sent
its answer, adds as much as the full delta. -/
theorem deltaSync_lossless_join : ∃ hd m₁ m₂ ch₁ ch₂, clusters.Reach Honest learned ∧
    clusters.Leads Honest learned answered ∧
    (learned.state nodeA).peers.lookup "b" = some hd ∧ hd.lastVv ≤ learned.vv nodeB ∧
    (∀ w ∈ platform.crdt.writes (learned.daemon nodeB).doc, Covers (learned.vv nodeA) w.dot →
      w ∈ platform.crdt.writes (learned.daemon nodeA).doc) ∧
    (answered.state nodeB).membership.mergeRemote
      ((learned.state nodeA).membership.deltaForPeer hd.lastVv) = some (m₁, ch₁) ∧
    (answered.state nodeB).membership.mergeRemote (learned.state nodeA).membership.fullDelta =
      some (m₂, ch₂) ∧
    platform.crdt.materialize m₁.doc = platform.crdt.materialize m₂.doc := by
  obtain ⟨hd, hk, -⟩ := Option.map_eq_some_iff.mp learned_lookup
  obtain ⟨hbelow, hgapless, hdelta⟩ := deltaSync_lossless learned_reach
  obtain ⟨r, hrb, hle⟩ := hbelow nodeA "b" hd hk
  have hb : r = nodeB := NodeId.text_injective hrb
  obtain ⟨m₁, m₂, ch₁, ch₂, h₁, h₂, -, -, hmat⟩ := hdelta nodeA nodeB hd answered hk leads_answered
  exact ⟨hd, m₁, m₂, ch₁, ch₂, learned_reach, leads_answered, hk, hb ▸ hle,
    fun w hw hc => hgapless nodeA nodeB w hw hc, h₁, h₂, hmat⟩

/-- The vectors differ when `b` sends its sync, and are equal when it has merged the answer. -/
theorem sameView_of_vv_eq_join :
    (∃ c : Cluster platform, clusters.Reach Honest c ∧ c.vv nodeA = c.vv nodeB ∧
      c.SameView nodeA nodeB) ∧
    ∃ c c' : Cluster platform, clusters.Reach Honest c ∧ clusters.Leads Honest c c' ∧
      c.vv nodeA ≠ c.vv nodeB ∧ c'.SameView nodeA nodeB := by
  refine ⟨⟨agreed, agreed_reach, agreed_vv,
    (sameView_of_vv_eq agreed_reach).1 nodeA nodeB agreed_vv⟩, asked, agreed, asked_reach, ?_,
    fun h => ?_, ?_⟩
  · exact .tail (.head ⟨locks (nodeA, 0), rfl, step_learned⟩ leads_answered)
      ⟨locks (nodeB, 0), rfl, step_agreed⟩
  · have hc := congrFun h "a"
    revert hc
    decide +kernel
  · exact (sameView_of_vv_eq asked_reach).2 (nodeA, 0) (nodeB, 0) _ _ _ _ _ _ _ _ _ _ _ _ _ _ _ _
      asked_handles.2 rfl asked_handles.1 step_learned leads_answered answered_vv.1 answered_vv.2
      answered_handles rfl step_agreed

end

end Cluster
end Pmd
