import Pmd.Daemon.Requests

/-!
# A control request returns

While neither end of a connection fails, no line on it is cut, so its client does not get
an error, and the two ends and the lock are all it takes for the response to arrive.
-/
namespace Pmd.Control
open Foundation

variable {P : Platform} {D : Display P} {J : Formats D}

/-! ## One connection -/

variable (J) in
/-- Neither end has failed. -/
structure Conn.Healthy (served : List (Served P)) (i : ℕ) (c : Conn D) : Prop where
  inv : c.Inv J served i
  alive : c.client ≠ .failed
  unsent : c.client = .writing → c.sent ≠ J.request.line c.request
  complete : c.server = .closed →
    ∃ e ∈ served, e.conn = i ∧ J.response.line (e.response D) <+: c.reply

def ConnEvent.isFailure : ConnEvent → Bool
  | .clientFailed | .serverFailed => true
  | _ => false

variable (J) in
/-- What is to be done until the request is served. -/
def Conn.toServe (c : Conn D) : ℕ :=
  (J.request.line c.request).length - c.sent.length + match c.server with
    | .reading got => (J.request.line c.request).length - got.length + 2
    | .waiting _ => 1
    | _ => 0

/-- What is to be done afterwards. -/
def Conn.toReturn (c : Conn D) : ℕ :=
  (match c.server with
    | .writing rest _ => 2 * rest.length
    | _ => 0) +
  match c.client with
    | .writing => c.reply.length
    | .reading got => c.reply.length - got.length
    | _ => 0

theorem readRequest_line (r : ControlRequest) :
    readRequest J (J.request.line r) = .waiting (J.request.back r) := by
  rw [readRequest, LineCodec.ofLine_line]

theorem readResponse_line (r : ControlResponse D.Level) :
    readResponse J (J.response.line r) = .returned (J.response.back r) := by
  rw [readResponse, LineCodec.ofLine_line]

namespace Conn.Healthy
variable {served : List (Served P)} {i : ℕ} {c c' : Conn D}

theorem connect (i : ℕ) (r : ControlRequest) (hnone : ∀ e ∈ served, e.conn ≠ i) :
    (Conn.connect r : Conn D).Healthy J served i := by
  refine ⟨Conn.Inv.connect i r hnone, nofun, fun _ => ?_, nofun⟩
  exact (List.append_ne_nil_of_right_ne_nil _ (List.cons_ne_nil _ _)).symm

theorem other (hi : c.Healthy J served i) {e : Served P} (he : e.conn ≠ i) :
    c.Healthy J (served ++ [e]) i := by
  refine ⟨hi.inv.other he, hi.alive, hi.unsent, fun h => ?_⟩
  obtain ⟨e', he', hrest⟩ := hi.complete h
  exact ⟨e', List.mem_append_left _ he', hrest⟩

theorem serve (hi : c.Healthy J served i) {r : ControlRequest} (hphase : c.server = .waiting r)
    {e : Served P} (he : e.conn = i) (hr : e.request = r) (subscribed : Bool) :
    (c.serve J (e.response D) subscribed).Healthy J (served ++ [e]) i :=
  ⟨(hi.inv.serve hphase he hr subscribed).2, hi.alive, hi.unsent, nofun⟩

/-- A response has been returned only if the request was served. -/
theorem returned_after (hi : c.Healthy J served i) {r : ControlResponse D.Level}
    (hr : c.client = .returned r) : ∃ e ∈ served, e.conn = i := by
  have hclient := hi.inv.client
  rw [hr] at hclient
  cases hclient with
  | returned he hconn => exact ⟨_, he, hconn⟩

/-- The response that the client reads when it has been served. -/
theorem line_of_reply (hi : c.Healthy J served i) {q : List Char} (hq : '\n' ∉ q)
    (h : q ++ ['\n'] <+: c.reply) :
    ∃ e ∈ served, e.conn = i ∧ q ++ ['\n'] = J.response.line (e.response D) := by
  cases hi.inv.standing with
  | before _ hreply _ =>
    rw [hreply, List.prefix_nil] at h
    simp at h
  | after he hconn _ _ hafter =>
    exact ⟨_, he, hconn, LineCodec.eq_line (LineCodec.prefix_line hafter.follows hq (.inr rfl) h)⟩

theorem clientWrote (hi : c.Healthy J served i) (h : c.clientWrote J = some c') :
    c'.Healthy J served i := by
  have hinv := hi.inv.clientWrote h
  rw [Conn.clientWrote] at h
  split at h
  · obtain ⟨x, hx, rfl⟩ := Option.map_eq_some_iff.mp h
    refine ⟨hinv, fun hfailed => ?_, fun hwriting heq => ?_, hi.complete⟩
    · dsimp only at hfailed
      split at hfailed <;> cases hfailed
    · dsimp only at hwriting heq
      split at hwriting
      · cases hwriting
      · rename_i hlen
        refine hlen ?_
        rw [← heq, List.length_append, List.length_singleton]
  · cases h

/-- The whole line is a response, so the client does not get an error. -/
theorem clientRead (hi : c.Healthy J served i) (h : c.clientRead J = some c') :
    c'.Healthy J served i := by
  have hinv := hi.inv.clientRead h
  rw [Conn.clientRead] at h
  split at h
  · rename_i got hphase
    obtain ⟨x, hx, rfl⟩ := Option.map_eq_some_iff.mp h
    have hclient := hi.inv.client
    rw [hphase] at hclient
    cases hclient with
    | reading _ hgot hn =>
      have hresponse : x = '\n' → ∃ r, readResponse J (got ++ [x]) = .returned r := by
        rintro rfl
        obtain ⟨e, -, -, hline⟩ := hi.line_of_reply hn (prefix_get hgot hx)
        rw [hline, readResponse_line]
        exact ⟨_, rfl⟩
      refine ⟨hinv, fun hfailed => ?_, fun hwriting => ?_, hi.complete⟩
      · dsimp only at hfailed
        split at hfailed
        · rename_i hnl
          obtain ⟨r, hr⟩ := hresponse hnl
          rw [hr] at hfailed
          cases hfailed
        · cases hfailed
      · dsimp only at hwriting
        split at hwriting
        · rename_i hnl
          obtain ⟨r, hr⟩ := hresponse hnl
          rw [hr] at hwriting
          cases hwriting
        · cases hwriting
  · cases h

/-- The client never meets the end of the stream. -/
theorem not_clientEof (hi : c.Healthy J served i) : c.clientEof J ≠ some c' := by
  intro h
  rw [Conn.clientEof] at h
  split at h
  · rename_i got hphase hclosed
    obtain ⟨hlen, h⟩ := Option.ite_none_right_eq_some.mp h
    have hclient := hi.inv.client
    rw [hphase] at hclient
    cases hclient with
    | reading _ hgot hn =>
      obtain ⟨e, -, -, hline⟩ := hi.complete hclosed
      rw [hgot.eq_of_length hlen] at hn
      exact hn (hline.subset LineCodec.newline_mem_line)
  · cases h

/-- The whole line is a request, so the task does not return. -/
theorem serverRead (hi : c.Healthy J served i) (h : c.serverRead J = some c') :
    c'.Healthy J served i := by
  have hinv := hi.inv.serverRead h
  rw [Conn.serverRead] at h
  split at h
  · rename_i got hphase
    obtain ⟨x, hx, rfl⟩ := Option.map_eq_some_iff.mp h
    refine ⟨hinv, hi.alive, hi.unsent, fun hclosed => ?_⟩
    have hstanding := hi.inv.standing
    rw [hphase] at hstanding
    cases hstanding with
    | after _ _ _ _ hafter => cases hafter
    | before _ _ hbefore =>
      cases hbefore with
      | reading hgot hn =>
        dsimp only at hclosed
        split at hclosed
        · rename_i hnl
          subst hnl
          have hline := LineCodec.eq_line ((prefix_get hgot hx).trans hi.inv.sent)
          rw [hline, readRequest_line] at hclosed
          cases hclosed
        · cases hclosed
  · cases h

/-- Nor does the task. -/
theorem not_serverEof (hi : c.Healthy J served i) : c.serverEof J ≠ some c' := by
  intro h
  rw [Conn.serverEof] at h
  split at h
  · rename_i got hphase
    obtain ⟨⟨hclosed, -⟩, h⟩ := Option.ite_none_right_eq_some.mp h
    have hstanding := hi.inv.standing
    rw [hphase] at hstanding
    cases hstanding with
    | after _ _ _ _ hafter => cases hafter
    | before hnone _ _ =>
      cases hclient : c.client with
      | returned r =>
        obtain ⟨e, he, hconn⟩ := hi.returned_after hclient
        exact hnone e he hconn
      | failed => exact hi.alive hclient
      | _ =>
        rw [hclient] at hclosed
        cases hclosed
  · cases h

/-- The task returns when the line has been written. -/
theorem serverWrote (hi : c.Healthy J served i) (h : c.serverWrote = some c') :
    c'.Healthy J served i := by
  have hinv := hi.inv.serverWrote h
  rw [Conn.serverWrote] at h
  split at h
  · rename_i subscribed hphase
    cases h
    refine ⟨hinv, hi.alive, hi.unsent, fun _ => ?_⟩
    have hstanding := hi.inv.standing
    rw [hphase] at hstanding
    cases hstanding with
    | before _ _ hbefore => cases hbefore
    | after he hconn _ _ hafter => exact ⟨_, he, hconn, hafter.written⟩
  · cases h
    refine ⟨hinv, hi.alive, hi.unsent, fun hclosed => ?_⟩
    cases hclosed
  · cases h

theorem serverEvent (hi : c.Healthy J served i) {change : MembershipChange}
    (h : c.serverEvent J change = some c') : c'.Healthy J served i := by
  have hinv := hi.inv.serverEvent h
  rw [Conn.serverEvent] at h
  split at h
  · cases h
    refine ⟨hinv, hi.alive, hi.unsent, fun hclosed => ?_⟩
    cases hclosed
  · cases h

theorem step {e : ConnEvent} (hi : c.Healthy J served i) (he : e.isFailure = false)
    (h : c.step J e = some c') : c'.Healthy J served i := by
  cases e with
  | clientFailed => cases he
  | serverFailed => cases he
  | clientWrote => exact hi.clientWrote h
  | clientRead => exact hi.clientRead h
  | clientEof => exact absurd h hi.not_clientEof
  | serverRead => exact hi.serverRead h
  | serverEof => exact absurd h hi.not_serverEof
  | serverWrote => exact hi.serverWrote h
  | serverEvent change => exact hi.serverEvent h

/-- An end that can go on. Once the request has been served, the client reads what has
been written. -/
def own : List ConnEvent := [.clientWrote, .clientRead, .serverRead, .serverWrote]

variable (J) in
/-- Less is to be done. -/
def Less (c' c : Conn D) : Prop :=
  Prod.Lex (· < ·) (· < ·) (c'.toServe J, c'.toReturn) (c.toServe J, c.toReturn)

theorem exists_get {p s : List Char} (h : p <+: s) (hne : p ≠ s) : ∃ x, s[p.length]? = some x := by
  have hlt : p.length < s.length := lt_of_le_of_ne h.length_le fun heq => hne (h.eq_of_length heq)
  exact ⟨_, List.getElem?_eq_getElem hlt⟩

theorem advance_writing (hi : c.Healthy J served i) (hphase : c.client = .writing) :
    ∃ c', c.step J .clientWrote = some c' ∧ Less J c' c := by
  obtain ⟨x, hx⟩ := exists_get hi.inv.sent (hi.unsent hphase)
  have hlt := (List.getElem?_eq_some_iff.mp hx).1
  have hstep : c.step J .clientWrote = some { c with
      sent := c.sent ++ [x]
      client := if c.sent.length + 1 = (J.request.line c.request).length then .reading []
        else .writing } := by
    rw [Conn.step, Conn.clientWrote, hphase]
    simp only [hx]
    rfl
  refine ⟨_, hstep, .left _ _ ?_⟩
  simp only [Conn.toServe, List.length_append, List.length_singleton]
  omega

/-- All has been sent, so the task finds a character to read. -/
theorem advance_reading (hi : c.Healthy J served i) {got p : List Char}
    (hclient : c.client = .reading got) (hphase : c.server = .reading p) :
    ∃ c', c.step J .serverRead = some c' ∧ Less J c' c := by
  have hread := hi.inv.client
  rw [hclient] at hread
  have hstanding := hi.inv.standing
  rw [hphase] at hstanding
  cases hread with
  | reading hsent _ _ =>
    cases hstanding with
    | after _ _ _ _ hafter => cases hafter
    | before _ _ hbefore =>
      cases hbefore with
      | reading hp hn =>
        have hne : p ≠ c.sent := by
          rintro rfl
          rw [hsent] at hn
          exact hn LineCodec.newline_mem_line
        obtain ⟨x, hx⟩ := exists_get hp hne
        have hlt := (List.getElem?_eq_some_iff.mp hx).1
        have hstep : c.step J .serverRead = some { c with
            server := if x = '\n' then readRequest J (p ++ [x]) else .reading (p ++ [x]) } := by
          rw [Conn.step, Conn.serverRead, hphase]
          simp only [hx]
          rfl
        refine ⟨_, hstep, .left _ _ ?_⟩
        rw [hsent] at hlt
        by_cases hnl : x = '\n'
        · subst hnl
          have hline := LineCodec.eq_line ((prefix_get hp hx).trans hi.inv.sent)
          simp only [Conn.toServe, if_pos, hline, readRequest_line, hphase]
          omega
        · simp only [Conn.toServe, if_neg hnl, hphase, List.length_append, List.length_singleton]
          omega

/-- When nothing of the response is left to write, its line has been written. -/
theorem exists_line (hi : c.Healthy J served i) (hread : ∀ p, c.server ≠ .reading p)
    (hwait : ∀ r, c.server ≠ .waiting r)
    (hwrite : ∀ x rest subscribed, c.server ≠ .writing (x :: rest) subscribed) :
    ∃ e : Served P, J.response.line (e.response D) <+: c.reply := by
  have hstanding := hi.inv.standing
  cases hserver : c.server with
  | reading p => exact absurd hserver (hread p)
  | waiting r => exact absurd hserver (hwait r)
  | writing rest subscribed =>
    cases rest with
    | cons x rest => exact absurd hserver (hwrite x rest subscribed)
    | nil =>
      rw [hserver] at hstanding
      cases hstanding with
      | before _ _ hbefore => cases hbefore
      | after _ _ _ _ hafter => exact ⟨_, hafter.written⟩
  | receiving =>
    rw [hserver] at hstanding
    cases hstanding with
    | before _ _ hbefore => cases hbefore
    | after _ _ _ _ hafter =>
      cases hafter with
      | receiving hline => exact ⟨_, hline⟩
  | closed =>
    obtain ⟨e, -, -, hline⟩ := hi.complete hserver
    exact ⟨e, hline⟩

/-- Once the request has been served, the task writes or the client reads. -/
theorem advance_returning (hi : c.Healthy J served i) {got : List Char}
    (hclient : c.client = .reading got) (hread : ∀ p, c.server ≠ .reading p)
    (hwait : ∀ r, c.server ≠ .waiting r) :
    ∃ e ∈ [ConnEvent.serverWrote, .clientRead], ∃ c', c.step J e = some c' ∧ Less J c' c := by
  have hreading := hi.inv.client
  rw [hclient] at hreading
  cases hreading with
  | reading _ hgot hn =>
    -- As long as a character is left to write, the task can write it.
    by_cases hwrite : ∃ x rest subscribed, c.server = .writing (x :: rest) subscribed
    · obtain ⟨x, rest, subscribed, hphase⟩ := hwrite
      have hstep : c.step J .serverWrote = some { c with
          reply := c.reply ++ [x], server := .writing rest subscribed } := by
        rw [Conn.step, Conn.serverWrote, hphase]
      refine ⟨.serverWrote, by simp, _, hstep, ?_⟩
      have hserve : (Conn.toServe J { c with
          reply := c.reply ++ [x], server := .writing rest subscribed }) = c.toServe J := by
        simp only [Conn.toServe, hphase]
      rw [Less, hserve]
      refine .right _ ?_
      have hle := hgot.length_le
      simp only [Conn.toReturn, hphase, hclient, List.length_append, List.length_cons,
        List.length_nil]
      omega
    · have hne : got ≠ c.reply := by
        rintro rfl
        obtain ⟨e, hline⟩ := hi.exists_line hread hwait fun x rest subscribed hserver =>
          hwrite ⟨x, rest, subscribed, hserver⟩
        exact hn (hline.subset LineCodec.newline_mem_line)
      obtain ⟨x, hx⟩ := exists_get hgot hne
      have hlt := (List.getElem?_eq_some_iff.mp hx).1
      have hstep : c.step J .clientRead = some { c with
          client := if x = '\n' then readResponse J (got ++ [x]) else .reading (got ++ [x]) } := by
        rw [Conn.step, Conn.clientRead, hclient]
        simp only [hx]
        rfl
      refine ⟨.clientRead, by simp, _, hstep, .right _ ?_⟩
      by_cases hnl : x = '\n'
      · subst hnl
        obtain ⟨e, -, -, hline⟩ := hi.line_of_reply hn (prefix_get hgot hx)
        simp only [Conn.toReturn, if_pos, hline, readResponse_line, hclient]
        omega
      · simp only [Conn.toReturn, if_neg hnl, hclient, List.length_append, List.length_singleton]
        omega

/-- With the request served, or waiting for the lock, or else one step further. -/
theorem advance (hi : c.Healthy J served i) (hgoal : ∀ r, c.client ≠ .returned r)
    (hwait : ∀ r, c.server ≠ .waiting r) : ∃ e ∈ own, ∃ c', c.step J e = some c' ∧ Less J c' c := by
  cases hclient : c.client with
  | writing =>
    obtain ⟨c', hstep, hless⟩ := hi.advance_writing hclient
    exact ⟨.clientWrote, by simp [own], c', hstep, hless⟩
  | reading got =>
    by_cases hread : ∃ p, c.server = .reading p
    · obtain ⟨p, hp⟩ := hread
      obtain ⟨c', hstep, hless⟩ := hi.advance_reading hclient hp
      exact ⟨.serverRead, by simp [own], c', hstep, hless⟩
    · obtain ⟨e, he, h⟩ := hi.advance_returning hclient (fun p hp => hread ⟨p, hp⟩) hwait
      refine ⟨e, ?_, h⟩
      rcases List.mem_pair.mp he with rfl | rfl <;> simp [own]
  | returned r => exact absurd hclient (hgoal r)
  | failed => exact absurd hclient hi.alive

end Conn.Healthy

/-! ## The daemon -/

/-- An end of connection `i` fails. -/
def ControlAct.breaks (i : ℕ) : ControlAct P → Bool
  | .conn j e => j = i && e.isFailure
  | _ => false

/-- A step of connection `i`: one of its ends reads or writes, or its request is served. -/
def ControlAct.serves (i : ℕ) : ControlAct P → Bool
  | .conn j e => j = i && !e.isFailure
  | .serve j _ => j = i
  | _ => false

namespace Controlled
variable {cfg : Config} {cookie : Bytes} {s s' : Controlled D} {i : ℕ}

variable (J) in
/-- Connection `i` is healthy, if it is there. -/
def Sound (i : ℕ) (s : Controlled D) : Prop :=
  s.Inv J ∧ ∀ c, s.conns[i]? = some c → c.Healthy J s.served i

theorem sound_step {a : ControlAct P} (hi : Sound J i s) (ha : a.breaks i = false)
    (h : s.step J cfg cookie a = some s') : Sound J i s' := by
  refine ⟨hi.1.moves (step_cases h), fun c' hc' => ?_⟩
  cases a with
  | daemon a =>
    obtain ⟨-, h⟩ := step_daemon h
    obtain ⟨o, -, rfl⟩ := Option.map_eq_some_iff.mp h
    exact hi.2 c' hc'
  | connect r =>
    cases h
    rcases Nat.lt_or_ge i s.conns.length with hlt | hge
    · exact hi.2 c' (by rwa [← List.getElem?_append_left hlt])
    · rw [List.getElem?_append_right hge, List.getElem?_singleton] at hc'
      obtain ⟨-, hc'⟩ := Option.ite_none_right_eq_some.mp hc'
      cases hc'
      exact .connect i r fun e he => ((hi.1.known e he).trans_le hge).ne
  | conn j e =>
    obtain ⟨c₀, hc₀, h⟩ := Option.bind_eq_some_iff.mp h
    obtain ⟨c₁, hc₁, h⟩ := Option.bind_eq_some_iff.mp h
    cases h
    by_cases hj : j = i
    · subst hj
      have he : e.isFailure = false := by
        simpa [ControlAct.breaks] using ha
      rw [List.getElem?_set_self (List.getElem?_eq_some_iff.mp hc₀).1] at hc'
      cases hc'
      exact (hi.2 c₀ hc₀).step he hc₁
    · exact hi.2 c' (by rwa [List.getElem?_set_ne hj] at hc')
  | serve j clock =>
    obtain ⟨c₀, r, d, hc₀, hphase, -, rfl⟩ := serve_cases h
    by_cases hj : j = i
    · subst hj
      rw [List.getElem?_set_self (List.getElem?_eq_some_iff.mp hc₀).1] at hc'
      cases hc'
      exact (hi.2 c₀ hc₀).serve hphase rfl rfl _
    · rw [List.getElem?_set_ne hj] at hc'
      exact (hi.2 c' hc').other hj

theorem sound_reach (h : (system J cfg cookie).Reach (fun _ a => a.breaks i = false) s) :
    Sound J i s := by
  have hinv := (inv_reach (J := J) (h.mono fun _ _ _ => trivial)).1
  refine h.invariant (I := Sound J i) (fun s h₀ => ?_) fun s a s' hi ha hs => sound_step hi ha hs
  have hreach : (system J cfg cookie).Reach System.any s := ⟨s, h₀, .refl⟩
  refine ⟨(inv_reach hreach).1, fun c hc => ?_⟩
  rw [h₀.2.1] at hc
  cases hc

theorem breaks_of_serves {a : ControlAct P} (h : a.serves i = true) : a.breaks i = false := by
  cases a with
  | conn j e =>
    simp only [ControlAct.serves, Bool.and_eq_true, decide_eq_true_eq, Bool.not_eq_true'] at h
    simp [ControlAct.breaks, h.2]
  | _ => rfl

/-- Short of a returned response there is a step of the connection that leaves less to be
done. -/
theorem exists_step (hi : Sound J i s) {c : Conn D} (hc : s.conns[i]? = some c)
    (hgoal : ∀ r, c.client ≠ .returned r) :
    ∃ a s' c', a.serves i = true ∧ s.step J cfg cookie a = some s' ∧
      s'.conns[i]? = some c' ∧ Conn.Healthy.Less J c' c := by
  have hlt := (List.getElem?_eq_some_iff.mp hc).1
  by_cases hwait : ∃ r, c.server = .waiting r
  · obtain ⟨r, hr⟩ := hwait
    have hstep : s.step J cfg cookie (.serve i fun _ => 0) =
        some ⟨{ s.daemon with state := s.daemon.state.dispatchRequest r },
          s.conns.set i (c.serve J (Served.response D ⟨i, r, s.daemon.state, fun _ => 0⟩)
            (ControlRequest.isSubscribe r)),
          s.served ++ [⟨i, r, s.daemon.state, fun _ => 0⟩]⟩ := by
      rw [step, serve, hc]
      simp only [Option.bind_eq_bind, Option.bind_some, hr]
      rfl
    refine ⟨_, _, _, by simp [ControlAct.serves], hstep, List.getElem?_set_self hlt, .left _ _ ?_⟩
    simp only [Conn.toServe, Conn.serve, hr]
    omega
  · obtain ⟨e, he, c', hstep, hless⟩ :=
      (hi.2 c hc).advance hgoal fun r hr => hwait ⟨r, hr⟩
    refine ⟨.conn i e, { s with conns := s.conns.set i c' }, c', ?_, ?_,
      List.getElem?_set_self hlt, hless⟩
    · simp only [Conn.Healthy.own, List.mem_cons, List.not_mem_nil, or_false] at he
      rcases he with rfl | rfl | rfl | rfl <;> simp [ControlAct.serves, ConnEvent.isFailure]
    · rw [step, hc]
      simp [hstep]

/-- While neither end of connection `i` has failed, its client has not either, and its own
steps bring it the response. -/
theorem request_returns
    (h : (system J cfg cookie).Reach (fun _ a => a.breaks i = false) s) {c : Conn D}
    (hc : s.conns[i]? = some c) : c.client ≠ .failed ∧
      ∃ s', (system J cfg cookie).Leads (fun _ a => a.serves i = true) s s' ∧
        ∃ c' e, s'.conns[i]? = some c' ∧ e ∈ s'.served ∧ e.conn = i ∧
          c'.client = .returned (J.response.back (e.response D)) := by
  have hsound := sound_reach h
  refine ⟨(hsound.2 c hc).alive, ?_⟩
  obtain ⟨s', hs', ⟨hsound', -⟩, c', r, hc', hr⟩ := System.leads_of_variant
    (WellFounded.prod_lex Nat.lt_wfRel.wf Nat.lt_wfRel.wf)
    (fun s : Controlled D => (s.conns[i]?).elim (0, 0) fun c => (c.toServe J, c.toReturn))
    (I := fun s => Sound J i s ∧ ∃ c, s.conns[i]? = some c)
    (G := fun s => ∃ c r, s.conns[i]? = some c ∧ c.client = .returned r)
    (C := fun _ a => a.serves i = true) (M := system J cfg cookie)
    (fun s hs hgoal => by
      obtain ⟨hi, c, hc⟩ := hs
      obtain ⟨a, s', c', ha, hstep, hc', hless⟩ :=
        exists_step hi hc fun r hr => hgoal ⟨c, r, hc, hr⟩
      refine ⟨a, s', ha, hstep, ⟨sound_step hi (breaks_of_serves ha) hstep, c', hc'⟩, ?_⟩
      rw [hc, hc']
      exact hless)
    ⟨hsound, c, hc⟩
  have hclient := (hsound'.2 c' hc').inv.client
  rw [hr] at hclient
  cases hclient with
  | returned he hconn => exact ⟨s', hs', c', _, hc', he, hconn, hr⟩

section
open Reference

theorem request_returns_halfway : ∃ s c, controls.Reach (fun _ a => a.breaks 0 = false) s ∧
    s.conns[0]? = some c ∧ c.sent = ['"', 'S', 't', 'a'] ∧
      ∃ s', controls.Leads (fun _ a => a.serves 0 = true) s s' ∧
        ∃ c' e, s'.conns[0]? = some c' ∧ e ∈ s'.served ∧ e.conn = 0 ∧
          c'.client = .returned (formats.response.back (e.response display)) := by
  have heval : ((Reference.daemon.map fun d => (⟨d, [], []⟩ : Controlled display)).bind fun s =>
      (controls.guard fun _ a => !a.breaks 0).run s
        (.connect .status :: List.replicate 4 (.conn 0 .clientWrote))).any (fun s =>
        (s.conns[0]?).any fun c => c.sent = ['"', 'S', 't', 'a']) = true := by
    decide +kernel
  obtain ⟨s, hs, hq⟩ := System.Reach.of_eval (C := fun _ a => a.breaks 0 = false) heval
    (fun _ _ h => by simpa using h) fun s hs => by
      obtain ⟨d, hd, rfl⟩ := Option.map_eq_some_iff.mp hs
      exact ⟨daemon_init d hd, rfl, rfl⟩
  obtain ⟨c, hc, hsent⟩ := (Option.any_eq_true _ _).mp hq
  exact ⟨s, c, hs, hc, of_decide_eq_true hsent, (request_returns hs hc).2⟩

end

end Controlled
end Pmd.Control
