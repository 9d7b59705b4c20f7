import Pmd.Daemon.Control
import Pmd.Daemon.Handles

/-!
# A control request takes effect once

However the two ends of a connection are scheduled and wherever its streams are cut, its
request takes the lock at most once, and only if its whole text was written. A client to
which a response is returned finds its request among those served, and the response is
what was computed there. The requests served are those of a run of the daemon, in order.
-/
namespace Pmd.Control
open Foundation

variable {P : Platform} {D : Display P} {J : Formats D}

/-! ## One connection -/

/-- The stream is the beginning of the line, or the line and more. -/
def Follows (s line : List Char) : Prop := s <+: line ∨ line <+: s

variable (J) in
/-- Where the task stands before its request is served. -/
inductive Before (r : ControlRequest) (sent : List Char) : ServerPhase → Prop
  | reading {got : List Char} (h : got <+: sent) (hn : '\n' ∉ got) : Before r sent (.reading got)
  | waiting (h : J.request.text r <+: sent) : Before r sent (.waiting (J.request.back r))
  | closed : Before r sent .closed

/-- Where it stands afterwards. -/
inductive After (reply line : List Char) : ServerPhase → Prop
  | writing {rest : List Char} {subscribed : Bool} (h : reply ++ rest = line ∨ line <+: reply) :
      After reply line (.writing rest subscribed)
  | receiving (h : line <+: reply) : After reply line .receiving
  | closed (h : Follows reply line) : After reply line .closed

section
variable (J) (served : List (Served P)) (i : ℕ)

/-- Either the request has not been served and nothing has been written, or it has. -/
inductive Standing (r : ControlRequest) (sent reply : List Char) (p : ServerPhase) : Prop
  | before (hnone : ∀ e ∈ served, e.conn ≠ i) (hreply : reply = []) (h : Before J r sent p)
  | after {e : Served P} (he : e ∈ served) (hconn : e.conn = i)
      (hreq : e.request = J.request.back r) (htext : J.request.text r <+: sent)
      (h : After reply (J.response.line (e.response D)) p)

inductive ClientStanding (line sent reply : List Char) : ClientPhase D → Prop
  | writing : ClientStanding line sent reply .writing
  | reading {got : List Char} (hsent : sent = line) (hgot : got <+: reply) (hn : '\n' ∉ got) :
      ClientStanding line sent reply (.reading got)
  | returned {e : Served P} (he : e ∈ served) (hconn : e.conn = i) :
      ClientStanding line sent reply (.returned (J.response.back (e.response D)))
  | failed : ClientStanding line sent reply .failed

structure Conn.Inv (c : Conn D) : Prop where
  sent : c.sent <+: J.request.line c.request
  standing : Standing J served i c.request c.sent c.reply c.server
  client : ClientStanding J served i (J.request.line c.request) c.sent c.reply c.client

end

theorem prefix_get {α : Type} {p s : List α} {x : α} (h : p <+: s) (hx : s[p.length]? = some x) :
    p ++ [x] <+: s := by
  obtain ⟨rest, rfl⟩ := h
  rw [List.getElem?_append_right (Nat.le_refl _), Nat.sub_self] at hx
  cases rest with
  | nil => cases hx
  | cons y rest =>
    cases hx
    exact ⟨rest, by rw [List.append_assoc, List.singleton_append]⟩

theorem notMem_concat {p : List Char} {x : Char} (hp : '\n' ∉ p) (hx : x ≠ '\n') :
    '\n' ∉ p ++ [x] := by
  rw [List.mem_append, List.mem_singleton]
  rintro (h | h)
  · exact hp h
  · exact hx h.symm

theorem Before.mono {r : ControlRequest} {sent sent' : List Char} {p : ServerPhase}
    (h : Before J r sent p) (hsent : sent <+: sent') : Before J r sent' p := by
  cases h with
  | reading h hn => exact .reading (h.trans hsent) hn
  | waiting h => exact .waiting (h.trans hsent)
  | closed => exact .closed

namespace After
variable {reply line : List Char} {p : ServerPhase}

theorem follows (h : After reply line p) : Follows reply line := by
  cases h with
  | writing h =>
    rcases h with h | h
    · exact .inl ⟨_, h⟩
    · exact .inr h
  | receiving h => exact .inr h
  | closed h => exact h

/-- When nothing is left of it, the line has been written. -/
theorem written {subscribed : Bool} (h : After reply line (.writing [] subscribed)) :
    line <+: reply := by
  cases h with
  | writing h =>
    rcases h with h | h
    · rw [List.append_nil] at h
      rw [h]
    · exact h

theorem wrote {x : Char} {rest : List Char} {subscribed : Bool}
    (h : After reply line (.writing (x :: rest) subscribed)) :
    After (reply ++ [x]) line (.writing rest subscribed) := by
  cases h with
  | writing h =>
    refine .writing (h.imp (fun h => ?_) fun h => ?_)
    · rw [List.append_assoc, List.singleton_append, h]
    · exact h.trans (List.prefix_append _ _)

end After

namespace Conn.Inv
variable {served : List (Served P)} {i : ℕ} {c c' : Conn D}

/-- The line that the task has read. -/
theorem before_readRequest (hi : c.Inv J served i) {p : List Char} (h : p <+: c.sent) :
    Before J c.request c.sent (readRequest J p) := by
  rw [readRequest]
  cases hr : J.request.ofLine p with
  | none => exact .closed
  | some r =>
    obtain ⟨htext, rfl⟩ := LineCodec.of_ofLine (h.trans hi.sent) hr
    exact .waiting (htext.trans h)

/-- The line that the client has read is the response, or nothing. -/
theorem client_readResponse (hi : c.Inv J served i) {p q line sent reply : List Char}
    (hp : '\n' ∉ p) (hq : q = p ∨ q = p ++ ['\n']) (h : q <+: c.reply) :
    ClientStanding J served i line sent reply (readResponse J q) := by
  rw [readResponse]
  cases hr : J.response.ofLine q with
  | none => exact .failed
  | some r =>
    cases hi.standing with
    | before _ hreply _ =>
      rw [hreply, List.prefix_nil] at h
      rw [h, LineCodec.ofLine_nil] at hr
      cases hr
    | after he hconn _ _ hafter =>
      have hline := LineCodec.prefix_line hafter.follows hp hq h
      obtain ⟨-, rfl⟩ := LineCodec.of_ofLine hline hr
      exact .returned he hconn

theorem clientWrote (hi : c.Inv J served i) (h : c.clientWrote J = some c') :
    c'.Inv J served i := by
  rw [Conn.clientWrote] at h
  split at h
  · obtain ⟨x, hx, rfl⟩ := Option.map_eq_some_iff.mp h
    have hsent := prefix_get hi.sent hx
    have hmore : c.sent <+: c.sent ++ [x] := List.prefix_append _ _
    refine ⟨hsent, ?_, ?_⟩
    · cases hi.standing with
      | before hnone hreply h => exact .before hnone hreply (h.mono hmore)
      | after he hconn hreq htext h => exact .after he hconn hreq (htext.trans hmore) h
    · dsimp only
      split
      · rename_i hlen
        refine .reading (hsent.eq_of_length ?_) List.nil_prefix (by simp)
        rw [List.length_append, List.length_singleton, hlen]
      · exact .writing
  · cases h

theorem clientRead (hi : c.Inv J served i) (h : c.clientRead J = some c') :
    c'.Inv J served i := by
  rw [Conn.clientRead] at h
  split at h
  · rename_i got hphase
    obtain ⟨x, hx, rfl⟩ := Option.map_eq_some_iff.mp h
    have hclient := hi.client
    rw [hphase] at hclient
    cases hclient with
    | reading hsent hgot hn =>
      have hmore := prefix_get hgot hx
      refine ⟨hi.sent, hi.standing, ?_⟩
      dsimp only
      split
      · rename_i hnl
        subst hnl
        exact hi.client_readResponse hn (.inr rfl) hmore
      · rename_i hnl
        exact .reading hsent hmore (notMem_concat hn hnl)
  · cases h

theorem clientEof (hi : c.Inv J served i) (h : c.clientEof J = some c') : c'.Inv J served i := by
  rw [Conn.clientEof] at h
  split at h
  · rename_i got hphase _
    obtain ⟨-, h⟩ := Option.ite_none_right_eq_some.mp h
    cases h
    have hclient := hi.client
    rw [hphase] at hclient
    cases hclient with
    | reading _ hgot hn =>
      exact ⟨hi.sent, hi.standing, hi.client_readResponse hn (.inl rfl) hgot⟩
  · cases h

theorem clientFailed (hi : c.Inv J served i) (h : c.clientFailed = some c') :
    c'.Inv J served i := by
  obtain ⟨-, h⟩ := Option.ite_none_right_eq_some.mp h
  cases h
  exact ⟨hi.sent, hi.standing, .failed⟩

theorem serverRead (hi : c.Inv J served i) (h : c.serverRead J = some c') :
    c'.Inv J served i := by
  rw [Conn.serverRead] at h
  split at h
  · rename_i got hphase
    obtain ⟨x, hx, rfl⟩ := Option.map_eq_some_iff.mp h
    have hstanding := hi.standing
    rw [hphase] at hstanding
    cases hstanding with
    | before hnone hreply hbefore =>
      cases hbefore with
      | reading hgot hn =>
        have hmore := prefix_get hgot hx
        refine ⟨hi.sent, .before hnone hreply ?_, hi.client⟩
        dsimp only
        split
        · exact hi.before_readRequest hmore
        · rename_i hnl
          exact .reading hmore (notMem_concat hn hnl)
    | after _ _ _ _ hafter => cases hafter
  · cases h

theorem serverEof (hi : c.Inv J served i) (h : c.serverEof J = some c') : c'.Inv J served i := by
  rw [Conn.serverEof] at h
  split at h
  · rename_i got hphase
    obtain ⟨-, h⟩ := Option.ite_none_right_eq_some.mp h
    cases h
    have hstanding := hi.standing
    rw [hphase] at hstanding
    cases hstanding with
    | before hnone hreply hbefore =>
      cases hbefore with
      | reading hgot _ =>
        exact ⟨hi.sent, .before hnone hreply (hi.before_readRequest hgot), hi.client⟩
    | after _ _ _ _ hafter => cases hafter
  · cases h

theorem serverFailed (hi : c.Inv J served i) (h : c.serverFailed = some c') :
    c'.Inv J served i := by
  rw [Conn.serverFailed] at h
  split at h
  · cases h
  · cases h
    refine ⟨hi.sent, ?_, hi.client⟩
    cases hi.standing with
    | before hnone hreply _ => exact .before hnone hreply .closed
    | after he hconn hreq htext h => exact .after he hconn hreq htext (.closed h.follows)

theorem serverWrote (hi : c.Inv J served i) (h : c.serverWrote = some c') :
    c'.Inv J served i := by
  rw [Conn.serverWrote] at h
  split at h
  · rename_i subscribed hphase
    cases h
    refine ⟨hi.sent, ?_, hi.client⟩
    have hstanding := hi.standing
    rw [hphase] at hstanding
    cases hstanding with
    | before _ _ hbefore => cases hbefore
    | after he hconn hreq htext hafter =>
      refine .after he hconn hreq htext ?_
      dsimp only
      split
      · exact .receiving hafter.written
      · exact .closed (.inr hafter.written)
  · rename_i x rest subscribed hphase
    cases h
    have hmore : c.reply <+: c.reply ++ [x] := List.prefix_append _ _
    refine ⟨hi.sent, ?_, ?_⟩
    · have hstanding := hi.standing
      rw [hphase] at hstanding
      cases hstanding with
      | before _ _ hbefore => cases hbefore
      | after he hconn hreq htext hafter => exact .after he hconn hreq htext hafter.wrote
    · dsimp only
      have hclient := hi.client
      generalize c.client = p at hclient ⊢
      cases hclient with
      | writing => exact .writing
      | reading hsent hgot hn => exact .reading hsent (hgot.trans hmore) hn
      | returned he hconn => exact .returned he hconn
      | failed => exact .failed
  · cases h

theorem serverEvent {change : MembershipChange} (hi : c.Inv J served i)
    (h : c.serverEvent J change = some c') : c'.Inv J served i := by
  rw [Conn.serverEvent] at h
  split at h
  · rename_i hphase
    cases h
    refine ⟨hi.sent, ?_, hi.client⟩
    have hstanding := hi.standing
    rw [hphase] at hstanding
    cases hstanding with
    | before _ _ hbefore => cases hbefore
    | after he hconn hreq htext hafter =>
      cases hafter with
      | receiving hline => exact .after he hconn hreq htext (.writing (.inr hline))
  · cases h

theorem step {e : ConnEvent} (hi : c.Inv J served i) (h : c.step J e = some c') :
    c'.Inv J served i := by
  cases e with
  | clientWrote => exact hi.clientWrote h
  | clientRead => exact hi.clientRead h
  | clientEof => exact hi.clientEof h
  | clientFailed => exact hi.clientFailed h
  | serverRead => exact hi.serverRead h
  | serverEof => exact hi.serverEof h
  | serverFailed => exact hi.serverFailed h
  | serverWrote => exact hi.serverWrote h
  | serverEvent change => exact hi.serverEvent h

theorem connect (i : ℕ) (r : ControlRequest) (hnone : ∀ e ∈ served, e.conn ≠ i) :
    (Conn.connect r : Conn D).Inv J served i :=
  ⟨List.nil_prefix, .before hnone rfl (.reading List.nil_prefix (by simp)), .writing⟩

/-- The request of another connection is served. -/
theorem other (hi : c.Inv J served i) {e : Served P} (he : e.conn ≠ i) :
    c.Inv J (served ++ [e]) i := by
  have hmem : ∀ {e' : Served P}, e' ∈ served → e' ∈ served ++ [e] := List.mem_append_left _
  refine ⟨hi.sent, ?_, ?_⟩
  · cases hi.standing with
    | before hnone hreply h =>
      refine .before (fun e' he' => ?_) hreply h
      rcases List.mem_append.mp he' with he' | he'
      · exact hnone e' he'
      · rw [List.mem_singleton.mp he']
        exact he
    | after he' hconn hreq htext h => exact .after (hmem he') hconn hreq htext h
  · have hclient := hi.client
    generalize c.client = p at hclient ⊢
    cases hclient with
    | writing => exact .writing
    | reading hsent hgot hn => exact .reading hsent hgot hn
    | returned he' hconn => exact .returned (hmem he') hconn
    | failed => exact .failed

/-- The request of this connection is served. -/
theorem serve (hi : c.Inv J served i) {r : ControlRequest} (hphase : c.server = .waiting r)
    {e : Served P} (he : e.conn = i) (hr : e.request = r) (subscribed : Bool) :
    (∀ e' ∈ served, e'.conn ≠ i) ∧
      (c.serve J (e.response D) subscribed).Inv J (served ++ [e]) i := by
  have hstanding := hi.standing
  rw [hphase] at hstanding
  cases hstanding with
  | before hnone hreply hbefore =>
    cases hbefore with
    | waiting htext =>
      refine ⟨hnone, hi.sent, ?_, ?_⟩
      · refine .after (List.mem_append_right _ List.mem_cons_self) he hr htext (.writing (.inl ?_))
        dsimp only [Conn.serve]
        rw [hreply, List.nil_append]
      · have hclient := hi.client
        dsimp only [Conn.serve]
        generalize c.client = p at hclient ⊢
        cases hclient with
        | writing => exact .writing
        | reading hsent hgot hn => exact .reading hsent hgot hn
        | returned he' hconn => exact absurd hconn (hnone _ he')
        | failed => exact .failed
  | after _ _ _ _ hafter => cases hafter

end Conn.Inv

/-! ## The daemon -/

/-- A request and the state that it meets. -/
def requestMet (d : Daemon P) : Act P → Option (ControlRequest × DaemonState P)
  | .request r => some (r, d.state)
  | _ => none

namespace Controlled
variable {cfg : Config} {cookie : Bytes} {s s' : Controlled D}

variable (J) in
structure Inv (s : Controlled D) : Prop where
  nodup : (s.served.map Served.conn).Nodup
  known : ∀ e ∈ s.served, e.conn < s.conns.length
  conns : ∀ i (c : Conn D), s.conns[i]? = some c → c.Inv J s.served i

variable (cfg cookie) in
/-- The requests served are those of a run of the daemon. -/
def FromRun (s : Controlled D) : Prop :=
  ∃ d acts, (Daemon.system P cfg cookie).init d ∧
    (Daemon.system P cfg cookie).run d acts = some s.daemon ∧
    (Daemon.system P cfg cookie).observe requestMet d acts =
      s.served.map fun e => (e.request, e.state)

/-- What a step does. -/
inductive Moves (cfg : Config) (cookie : Bytes) (J : Formats D) (s : Controlled D) :
    Controlled D → Prop
  | daemon {a : Act P} {d : Daemon P} (h : (Daemon.system P cfg cookie).step s.daemon a = some d)
      (ha : requestMet s.daemon a = none) : Moves cfg cookie J s { s with daemon := d }
  | connect (r : ControlRequest) :
      Moves cfg cookie J s { s with conns := s.conns ++ [.connect r] }
  | conn {i : ℕ} {c c' : Conn D} {e : ConnEvent} (hc : s.conns[i]? = some c)
      (h : c.step J e = some c') : Moves cfg cookie J s { s with conns := s.conns.set i c' }
  | serve {i : ℕ} {c : Conn D} {r : ControlRequest} {e : Served P} {d : Daemon P}
      (hc : s.conns[i]? = some c) (hphase : c.server = .waiting r) (he : e.conn = i)
      (hr : e.request = r) (hstate : e.state = s.daemon.state)
      (h : (Daemon.system P cfg cookie).step s.daemon (.request r) = some d) :
      Moves cfg cookie J s ⟨d, s.conns.set i
        (c.serve J (e.response D) (ControlRequest.isSubscribe r)), s.served ++ [e]⟩

theorem step_daemon {a : Act P} (h : s.step J cfg cookie (.daemon a) = some s') :
    requestMet s.daemon a = none ∧
      (s.daemon.step cfg cookie a).map (fun o => { s with daemon := o.1 }) = some s' := by
  cases a with
  | request r => cases h
  | _ => exact ⟨rfl, h⟩

theorem serve_cases {i : ℕ} {clock : String → ℕ} (h : s.serve J cfg cookie i clock = some s') :
    ∃ c r d, s.conns[i]? = some c ∧ c.server = .waiting r ∧
      (Daemon.system P cfg cookie).step s.daemon (.request r) = some d ∧
      s' = ⟨d, s.conns.set i (c.serve J (Served.response D ⟨i, r, s.daemon.state, clock⟩)
        (ControlRequest.isSubscribe r)), s.served ++ [⟨i, r, s.daemon.state, clock⟩]⟩ := by
  obtain ⟨c, hc, h⟩ := Option.bind_eq_some_iff.mp h
  split at h
  · rename_i r hphase
    obtain ⟨o, ho, h⟩ := Option.bind_eq_some_iff.mp h
    cases h
    exact ⟨c, r, o.1, hc, hphase, congrArg (Option.map Prod.fst) ho, rfl⟩
  · cases h

theorem step_cases {a : ControlAct P} (h : s.step J cfg cookie a = some s') :
    Moves cfg cookie J s s' := by
  cases a with
  | daemon a =>
    obtain ⟨ha, h⟩ := step_daemon h
    obtain ⟨o, ho, rfl⟩ := Option.map_eq_some_iff.mp h
    exact .daemon (congrArg (Option.map Prod.fst) ho) ha
  | connect r =>
    cases h
    exact .connect r
  | conn i e =>
    obtain ⟨c, hc, h⟩ := Option.bind_eq_some_iff.mp h
    obtain ⟨c', hc', h⟩ := Option.bind_eq_some_iff.mp h
    cases h
    exact .conn hc hc'
  | serve i clock =>
    obtain ⟨c, r, d, hc, hphase, hd, rfl⟩ := serve_cases h
    exact .serve hc hphase rfl rfl rfl hd

namespace Inv

theorem conn_set (hi : s.Inv J) {served : List (Served P)} {i : ℕ} {c' : Conn D}
    (hother : ∀ j (c : Conn D), j ≠ i → c.Inv J s.served j → c.Inv J served j)
    (hc' : c'.Inv J served i)
    (j : ℕ) (c : Conn D) (hc : (s.conns.set i c')[j]? = some c) : c.Inv J served j := by
  by_cases hj : j = i
  · subst hj
    rw [List.getElem?_set_self'] at hc
    obtain ⟨_, -, rfl⟩ := Option.map_eq_some_iff.mp hc
    exact hc'
  · rw [List.getElem?_set_ne (Ne.symm hj)] at hc
    exact hother j c hj (hi.conns j c hc)

theorem moves (hi : s.Inv J) (h : Moves cfg cookie J s s') : s'.Inv J := by
  cases h with
  | daemon h ha => exact ⟨hi.nodup, hi.known, hi.conns⟩
  | connect r =>
    refine ⟨hi.nodup, fun e he => ?_, fun i c hc => ?_⟩
    · rw [List.length_append]
      exact Nat.lt_add_right _ (hi.known e he)
    · rcases Nat.lt_or_ge i s.conns.length with hlt | hge
      · rw [List.getElem?_append_left hlt] at hc
        exact hi.conns i c hc
      · rw [List.getElem?_append_right hge, List.getElem?_singleton] at hc
        obtain ⟨hzero, hc⟩ := Option.ite_none_right_eq_some.mp hc
        cases hc
        exact .connect i r fun e he => ((hi.known e he).trans_le hge).ne
  | conn hc h =>
    refine ⟨hi.nodup, fun e he => ?_, ?_⟩
    · rw [List.length_set]
      exact hi.known e he
    · exact hi.conn_set (fun _ _ _ h => h) ((hi.conns _ _ hc).step h)
  | @serve i c r e d hc hphase he hr hstate h =>
    obtain ⟨hnone, hc'⟩ := (hi.conns i c hc).serve hphase he hr (ControlRequest.isSubscribe r)
    refine ⟨?_, fun e' he' => ?_, ?_⟩
    · rw [List.map_append, List.map_singleton]
      refine List.Nodup.append hi.nodup (List.nodup_singleton _) ?_
      rw [List.disjoint_singleton]
      intro hmem
      obtain ⟨e', he', hconn⟩ := List.mem_map.mp hmem
      exact hnone e' he' (hconn.trans he)
    · rw [List.length_set]
      rcases List.mem_append.mp he' with he' | he'
      · exact hi.known e' he'
      · rw [List.mem_singleton.mp he', he]
        exact (List.getElem?_eq_some_iff.mp hc).1
    · exact hi.conn_set (fun j c hj h => h.other (by rw [he]; exact hj.symm)) hc'

end Inv

theorem FromRun.moves (hi : s.FromRun cfg cookie) (h : Moves cfg cookie J s s') :
    s'.FromRun cfg cookie := by
  obtain ⟨d, acts, hd, hrun, hobs⟩ := hi
  cases h with
  | @daemon a d' h ha =>
    refine ⟨d, acts ++ [a], hd, System.run_concat hrun h, ?_⟩
    rw [System.observe_concat hrun, ha, hobs]
    exact List.append_nil _
  | connect r => exact ⟨d, acts, hd, hrun, hobs⟩
  | conn hc h => exact ⟨d, acts, hd, hrun, hobs⟩
  | @serve i c r e d' hc hphase he hr hstate h =>
    refine ⟨d, acts ++ [.request r], hd, System.run_concat hrun h, ?_⟩
    rw [System.observe_concat hrun, hobs, List.map_append, List.map_singleton, hr, hstate]
    rfl

theorem served_grows (h : Moves cfg cookie J s s') : s.served <+: s'.served := by
  cases h with
  | serve hc hphase he hr hstate h => exact List.prefix_append _ _
  | _ => exact List.prefix_rfl

theorem inv_reach (h : (system J cfg cookie).Reach System.any s) :
    s.Inv J ∧ s.FromRun cfg cookie := by
  refine h.invariant (I := fun s => s.Inv J ∧ s.FromRun cfg cookie) (fun s h₀ => ?_)
    fun s a s' hi _ hs => ?_
  · obtain ⟨hd, hconns, hserved⟩ := h₀
    refine ⟨⟨?_, ?_, ?_⟩, s.daemon, [], hd, rfl, ?_⟩
    · rw [hserved]
      exact List.nodup_nil
    · rw [hserved]
      intro e he
      cases he
    · rw [hconns]
      intro i c hc
      cases hc
    · rw [hserved]
      rfl
  · have hm := step_cases hs
    exact ⟨hi.1.moves hm, hi.2.moves hm⟩

/-- A connection's request is served at most once, and only if all of it was written. What
a client gets back is the response that was computed when it was. The requests served
are, in this order and with these states, those of a run of the daemon; and a request is
served before the response is returned. -/
theorem requests_served_once (hexact : ∀ r, J.request.back r = r)
    (h : (system J cfg cookie).Reach System.any s) :
    (∃ d acts, (Daemon.system P cfg cookie).init d ∧
      (Daemon.system P cfg cookie).run d acts = some s.daemon ∧
      (Daemon.system P cfg cookie).observe requestMet d acts =
        s.served.map fun e => (e.request, e.state)) ∧
    (s.served.map Served.conn).Nodup ∧
    (∀ i c, s.conns[i]? = some c →
      (∀ e ∈ s.served, e.conn = i →
        e.request = c.request ∧ J.request.text c.request <+: c.sent) ∧
      ∀ r, c.client = .returned r → ∃ e ∈ s.served, e.conn = i ∧
        r = J.response.back (response D e.state e.clock c.request)) ∧
    ∀ s', (system J cfg cookie).Leads System.any s s' →
      ∃ later, s'.served = s.served ++ later ∧ ∀ e ∈ later, ∀ c, s.conns[e.conn]? = some c →
        ∀ r, c.client ≠ .returned r := by
  obtain ⟨hinv, hrun⟩ := inv_reach h
  have hserved : ∀ i c, s.conns[i]? = some c → ∀ e ∈ s.served, e.conn = i →
      e.request = c.request ∧ J.request.text c.request <+: c.sent := by
    intro i c hc e he hconn
    cases (hinv.conns i c hc).standing with
    | before hnone _ _ => exact absurd hconn (hnone e he)
    | @after e' he' hconn' hreq htext _ =>
      have heq : e = e' := List.inj_on_of_nodup_map hinv.nodup he he' (hconn.trans hconn'.symm)
      rw [heq, hreq, hexact]
      exact ⟨rfl, htext⟩
  have hreturned : ∀ i c, s.conns[i]? = some c → ∀ r, c.client = .returned r →
      ∃ e ∈ s.served, e.conn = i ∧ r = J.response.back (e.response D) := by
    intro i c hc r hr
    have hclient := (hinv.conns i c hc).client
    rw [hr] at hclient
    cases hclient with
    | returned he hconn => exact ⟨_, he, hconn, rfl⟩
  refine ⟨hrun, hinv.nodup, fun i c hc => ⟨hserved i c hc, fun r hr => ?_⟩, fun s' hs' => ?_⟩
  · obtain ⟨e, he, hconn, hresp⟩ := hreturned i c hc r hr
    rw [Served.response, (hserved i c hc e he hconn).1] at hresp
    exact ⟨e, he, hconn, hresp⟩
  · have hgrow : s'.Inv J ∧ s.served <+: s'.served :=
      hs'.preserves (I := fun s' => s'.Inv J ∧ s.served <+: s'.served)
        (fun _ _ _ hi _ hs =>
          ⟨hi.1.moves (step_cases hs), hi.2.trans (served_grows (step_cases hs))⟩)
        ⟨hinv, List.prefix_rfl⟩
    obtain ⟨hinv', later, hlater⟩ := hgrow
    refine ⟨later, hlater.symm, fun e he c hc r hr => ?_⟩
    obtain ⟨e₀, he₀, hconn, -⟩ := hreturned e.conn c hc r hr
    have hnodup := hinv'.nodup
    rw [← hlater, List.map_append, List.nodup_append'] at hnodup
    exact hnodup.2.2 (List.mem_map_of_mem he₀) (hconn ▸ List.mem_map_of_mem he)

section
open Reference

def display : Display platform where
  Level := ℕ
  phi _ _ := 0
  printIp a := .ofList (['.'].intercalate [digits a.octets.1, digits a.octets.2.1,
    digits a.octets.2.2.1, digits a.octets.2.2.2])

def levels : LevelFormat ℕ where
  toJson n := .number n
  ofJson := Json.asU64
  back := id
  ofJson_toJson _ := rfl
  toJson_ne_null n h := by cases h

def formats : Formats display := ⟨requestLines, responseLines levels⟩

abbrev controls : System (Controlled display) (ControlAct platform) :=
  system formats config Reference.cookie

/-- Connection `i` is served. Its request line has `n` characters, its response line `m`. -/
def serving (i n m : ℕ) : List (ControlAct platform) :=
  List.replicate n (.conn i .clientWrote) ++ List.replicate n (.conn i .serverRead) ++
    [.serve i fun _ => 0] ++ List.replicate (m + 1) (.conn i .serverWrote) ++
    List.replicate m (.conn i .clientRead)

/-- One client breaks off in the middle of its request, another is served. -/
def joining : List (ControlAct platform) :=
  [.connect .shutdown, .conn 0 .clientWrote, .conn 0 .clientWrote, .conn 0 .clientFailed,
    .conn 0 .serverRead, .conn 0 .serverRead, .conn 0 .serverEof,
    .connect (.join "10.0.0.2:4369")] ++ serving 1 34 5

/-- The client has asked for a join and has `Ok` in return. -/
def isAccepted (addr : String) (c : Conn display) : Bool :=
  match c.request, c.client with
  | .join a, .returned .ok => a = addr
  | _, _ => false

theorem isAccepted_iff {addr : String} {c : Conn display} (h : isAccepted addr c = true) :
    c.request = .join addr ∧ c.client = .returned .ok := by
  rw [isAccepted] at h
  split at h
  · rename_i hrequest hclient
    exact ⟨hrequest.trans (by rw [of_decide_eq_true h]), hclient⟩
  · cases h

/-- The second client's request is served, and `Ok` is returned to it. -/
theorem requests_served_once_joining : ∃ s c e, controls.Reach System.any s ∧
    s.daemon.state.pendingJoins = ["10.0.0.2:4369"] ∧ s.daemon.state.shutdownRequested = false ∧
      (s.served.map Served.conn).Nodup ∧ s.conns[1]? = some c ∧ c.client = .returned .ok ∧
      e ∈ s.served ∧ e.conn = 1 ∧ e.request = .join "10.0.0.2:4369" := by
  have heval : ((Reference.daemon.map fun d => (⟨d, [], []⟩ : Controlled display)).bind fun s =>
      (controls.guard fun _ _ => true).run s joining).any (fun s =>
        decide (s.daemon.state.pendingJoins = ["10.0.0.2:4369"] ∧
          s.daemon.state.shutdownRequested = false) &&
        (s.conns[1]?).any (isAccepted "10.0.0.2:4369")) = true := by
    decide +kernel
  obtain ⟨s, hs, hq⟩ := System.Reach.of_eval (C := System.any) heval (fun _ _ _ => trivial)
    fun s hs => by
      obtain ⟨d, hd, rfl⟩ := Option.map_eq_some_iff.mp hs
      exact ⟨daemon_init d hd, rfl, rfl⟩
  obtain ⟨hqueued, hany⟩ := (Bool.and_eq_true _ _).mp hq
  obtain ⟨hjoins, hshutdown⟩ := of_decide_eq_true hqueued
  obtain ⟨c, hc, hconn⟩ := (Option.any_eq_true _ _).mp hany
  obtain ⟨hrequest, hok⟩ := isAccepted_iff hconn
  obtain ⟨-, hnodup, hconns, -⟩ := requests_served_once (fun _ => rfl) hs
  obtain ⟨hserved, hreturned⟩ := hconns 1 c hc
  obtain ⟨e, he, hone, -⟩ := hreturned _ hok
  exact ⟨s, c, e, hs, hjoins, hshutdown, hnodup, hc, hok, he, hone,
    (hserved e he hone).1.trans hrequest⟩

end

end Controlled
end Pmd.Control
