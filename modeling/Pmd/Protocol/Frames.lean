import Pmd.Protocol.Bincode

/-!
# Reading and writing frames

`writeFrame` bounds a payload by the range of its length field, `readFrame` by
16 MiB. A stream that ends inside a header is taken for one that ends cleanly.
bincode is a parameter, of which only `deserialize(serialize(m)) = m` is used.
-/
namespace Pmd
open Foundation

variable {P : Platform} (bincode : Codec (Message P))

/-- The bytes written for a message, to a writer that accepts all. -/
def writeFrame (msg : Message P) : Except FrameError Bytes :=
  match bincode.serialize msg with
  | none => .error .serialize
  | some payload =>
    if payload.length < 2 ^ 32 then .ok (toBeBytes payload.length ++ payload)
    else .error (.messageTooLarge payload.length)

def MAX_FRAME_LEN : ℕ := 16 * 1024 * 1024

/-- `Ok(None)` is the clean end; it is also what a header cut short gives. -/
def readFrame (reader : Source) : Except FrameError (Option (Message P) × Source) :=
  match reader.readExact 4 with
  | .error .eof => .ok (none, ⟨[], .eof⟩)
  | .error e => .error (.io e)
  | .ok (lenBuf, reader) =>
    if MAX_FRAME_LEN < fromBeBytes lenBuf then .error (.frameTooLarge (fromBeBytes lenBuf))
    else
      match reader.readExact (fromBeBytes lenBuf) with
      | .error e => .error (.io e)
      | .ok (payload, reader) =>
        match bincode.deserialize payload with
        | none => .error .deserialize
        | some msg => .ok (some msg, reader)

section Read
variable {bincode} {m : Message P} {payload rest : Bytes} {e : Ending}

theorem writeFrame_eq_ok {b : Bytes} (h : writeFrame bincode m = .ok b) :
    ∃ payload, bincode.serialize m = some payload ∧ payload.length < 2 ^ 32 ∧
      b = frame payload := by
  rw [writeFrame] at h
  split at h
  · cases h
  · rename_i payload hp
    split at h
    · rename_i hlen
      cases h
      exact ⟨payload, hp, hlen, rfl⟩
    · cases h

theorem writeFrame_of_serialize (hm : bincode.serialize m = some payload)
    (hlen : payload.length < 2 ^ 32) : writeFrame bincode m = .ok (frame payload) := by
  rw [writeFrame, hm]
  exact if_pos hlen

theorem readExact_frame : Source.readExact ⟨frame payload ++ rest, e⟩ 4 =
    .ok (toBeBytes payload.length, ⟨payload ++ rest, e⟩) := by
  rw [frame, List.append_assoc]
  exact Source.readExact_append

theorem readFrame_frame (hm : bincode.serialize m = some payload)
    (hlen : payload.length ≤ MAX_FRAME_LEN) :
    readFrame bincode ⟨frame payload ++ rest, e⟩ = .ok (some m, ⟨rest, e⟩) := by
  have hheader : fromBeBytes (toBeBytes payload.length) = payload.length :=
    fromBeBytes_toBeBytes (hlen.trans_lt (by decide))
  simp only [readFrame, readExact_frame, hheader, if_neg (Nat.not_lt_of_le hlen),
    Source.readExact_append, bincode.deserialize_serialize m payload hm]

/-- The reader refuses what the writer has written. -/
theorem readFrame_oversize (hlen : MAX_FRAME_LEN < payload.length) (hw : payload.length < 2 ^ 32) :
    readFrame bincode ⟨frame payload ++ rest, e⟩ = .error (.frameTooLarge payload.length) := by
  simp only [readFrame, readExact_frame, fromBeBytes_toBeBytes hw, if_pos hlen]

theorem readFrame_header_cut {q : Bytes} (h : q.length < 4) :
    readFrame bincode ⟨q, .eof⟩ = .ok (none, ⟨[], .eof⟩) := by
  simp only [readFrame, Source.readExact_short (s := ⟨q, .eof⟩) h]

theorem readFrame_payload_cut {q r : Bytes} (hq : q ++ r = frame payload) (hr : r ≠ [])
    (hheader : 4 ≤ q.length) (hlen : payload.length ≤ MAX_FRAME_LEN) :
    readFrame bincode ⟨q, e⟩ = .error (.io e) := by
  have htake : q.take 4 = toBeBytes payload.length := by
    have hsame : (q ++ r).take 4 = q.take 4 := List.take_append_of_le_length hheader
    rw [← hsame, hq]
    rfl
  have hfrom : fromBeBytes (toBeBytes payload.length) = payload.length :=
    fromBeBytes_toBeBytes (hlen.trans_lt (by decide))
  have hfirst : Source.readExact ⟨q, e⟩ 4 = .ok (toBeBytes payload.length, ⟨q.drop 4, e⟩) := by
    rw [Source.readExact, if_pos hheader, htake]
  have hshort : (q.drop 4).length < payload.length := by
    have htotal := congrArg List.length hq
    have hpos := List.length_pos_iff.mpr hr
    rw [List.length_append, length_frame] at htotal
    rw [List.length_drop]
    omega
  simp only [readFrame, hfirst, hfrom, if_neg (Nat.not_lt_of_le hlen),
    Source.readExact_short (s := ⟨q.drop 4, e⟩) hshort]

/-- A frame read leaves a shorter stream. -/
theorem readFrame_length {s s' : Source} {m : Message P}
    (h : readFrame bincode s = .ok (some m, s')) : s'.bytes.length < s.bytes.length := by
  rw [readFrame] at h
  split at h
  · cases h
  · cases h
  · rename_i lenBuf reader hfirst
    rw [Source.readExact] at hfirst
    split at hfirst
    · rename_i hlen
      cases hfirst
      split at h
      · cases h
      · split at h
        · cases h
        · rename_i payload reader' hsecond
          rw [Source.readExact] at hsecond
          split at hsecond
          · cases hsecond
            split at h
            · cases h
            · cases h
              simp only [List.length_drop]
              omega
          · cases hsecond
    · cases hfirst

end Read

/-- What a reader that takes bytes one at a time makes of a stream. -/
def outcome (e : Ending) : Progress (Message P) × Bytes →
    Except FrameError (Option (Message P) × Source)
  | (.message m, rest) => .ok (some m, ⟨rest, e⟩)
  | (.bad err, _) => .error err
  | (.more p, _) => (p.finish e).map fun _ => (none, ⟨[], e⟩)

/-- The two exact reads of `read_frame` and the byte-wise reader agree on every stream. -/
theorem readFrame_eq_outcome (bytes : Bytes) (e : Ending) :
    readFrame bincode ⟨bytes, e⟩ =
      outcome e (Partial.feed bincode MAX_FRAME_LEN .start bytes) := by
  rcases bytes with _ | ⟨a, _ | ⟨b, _ | ⟨c, _ | ⟨d, rest⟩⟩⟩⟩
  -- With fewer than four bytes both stop inside the header.
  any_goals cases e <;> rfl
  have hheader : Source.readExact ⟨a :: b :: c :: d :: rest, e⟩ 4 = .ok ([a, b, c, d], ⟨rest, e⟩) :=
    Source.readExact_append (a := [a, b, c, d])
  have hfeed : Partial.feed bincode MAX_FRAME_LEN .start (a :: b :: c :: d :: rest) =
      Partial.resume bincode MAX_FRAME_LEN
        (Partial.push bincode MAX_FRAME_LEN (.header [a, b, c]) d) rest := by
    rw [← Partial.feed_cons]
    rfl
  rw [hfeed]
  have hpush : Partial.push bincode MAX_FRAME_LEN (.header [a, b, c]) d =
      if MAX_FRAME_LEN < fromBeBytes [a, b, c, d] then
        .bad (.frameTooLarge (fromBeBytes [a, b, c, d]))
      else Partial.fill bincode (fromBeBytes [a, b, c, d]) [] := rfl
  rw [hpush]
  simp only [readFrame, hheader]
  split
  · rfl
  · generalize fromBeBytes [a, b, c, d] = len
    rw [Partial.resume_fill [] rest len.zero_le, List.nil_append, List.length_nil, Nat.zero_add,
      Nat.sub_zero, Source.readExact]
    by_cases hlen : len ≤ rest.length
    · rw [if_pos hlen, if_neg (Nat.not_lt_of_le hlen), List.nil_append, Partial.fill,
        if_neg (by rw [List.length_take_of_le hlen]; exact lt_irrefl len)]
      cases hm : bincode.deserialize (rest.take len) <;> simp only [outcome, hm]
    · rw [if_neg hlen, if_pos (Nat.lt_of_not_le hlen)]
      cases e <;> rfl

theorem outcome_eq_message {e : Ending} {x : Progress (Message P) × Bytes} {m : Message P}
    {rest : Bytes} : outcome e x = .ok (some m, ⟨rest, e⟩) ↔ x = (.message m, rest) := by
  obtain ⟨d, rest'⟩ := x
  cases d with
  | more p => cases p <;> cases e <;> simp [outcome, Partial.finish, Except.map]
  | message m' => simp [outcome]
  | bad err => simp [outcome]

theorem feed_frame {m : Message P} {payload : Bytes} (hm : bincode.serialize m = some payload)
    (hlen : payload.length ≤ MAX_FRAME_LEN) (rest : Bytes) :
    Partial.feed bincode MAX_FRAME_LEN .start (frame payload ++ rest) = (.message m, rest) := by
  have hread : readFrame bincode ⟨frame payload ++ rest, .eof⟩ = .ok (some m, ⟨rest, .eof⟩) :=
    readFrame_frame hm hlen
  rwa [readFrame_eq_outcome, outcome_eq_message] at hread

/-- Writer and reader agree on a message exactly if its payload is within the
reader's bound. -/
theorem readFrame_writeFrame_iff {m : Message P} {b payload : Bytes}
    (hm : bincode.serialize m = some payload) (h : writeFrame bincode m = .ok b) :
    (∀ rest e, readFrame bincode ⟨b ++ rest, e⟩ = .ok (some m, ⟨rest, e⟩)) ↔
      payload.length ≤ MAX_FRAME_LEN := by
  obtain ⟨payload', hm', hw, rfl⟩ := writeFrame_eq_ok h
  rw [hm, Option.some.injEq] at hm'
  subst hm'
  constructor
  · intro hall
    by_contra hlen
    have hread := hall [] .eof
    rw [readFrame_oversize (Nat.lt_of_not_le hlen) hw] at hread
    cases hread
  · exact fun hlen rest e => readFrame_frame hm hlen

theorem readFrame_writeFrame_iff_heartbeat :
    (∀ rest e, readFrame Reference.bincode ⟨[0, 0, 0, 4, 4, 0, 0, 0] ++ rest, e⟩ =
      .ok (some .heartbeat, ⟨rest, e⟩)) ↔ [4, 0, 0, 0].length ≤ MAX_FRAME_LEN :=
  readFrame_writeFrame_iff Reference.bincode (m := .heartbeat) rfl rfl

section
open Reference

/-- A handshake whose proof field has `n` bytes. -/
def bulky (n : ℕ) : Message platform :=
  .handshake "" (addr 1) nonce (List.replicate n 0) "" PROTOCOL_VERSION

theorem serialize_bulky {n : ℕ} (h : n < 256 ^ 8) :
    ∃ payload, Reference.bincode.serialize (bulky n) = some payload ∧ payload.length = n + 74 := by
  obtain ⟨payload, hm, hlen⟩ := serialize_handshake (List.replicate n 0)
    (by rwa [List.length_replicate])
  rw [List.length_replicate] at hlen
  exact ⟨payload, hm, hlen⟩

theorem bulky_written_not_read :
    ∃ b, writeFrame Reference.bincode (bulky MAX_FRAME_LEN) = .ok b ∧
      ¬ ∀ rest e, readFrame Reference.bincode ⟨b ++ rest, e⟩ =
        .ok (some (bulky MAX_FRAME_LEN), ⟨rest, e⟩) := by
  obtain ⟨payload, hm, hlen⟩ := serialize_bulky (n := MAX_FRAME_LEN) (by decide)
  have hw : payload.length < 2 ^ 32 := by
    rw [hlen]
    decide
  refine ⟨frame payload, ?_, fun hall => ?_⟩
  · rw [writeFrame, hm]
    exact if_pos hw
  · have hread := hall [] .eof
    rw [readFrame_oversize (by omega) hw] at hread
    cases hread

end

/-! ## Reading until the end -/

/-- Repeated `read_frame` calls: the messages read and how it ended, where `ok` is
`Ok(None)`. -/
def readAll (reader : Source) : List (Message P) × Except FrameError Unit :=
  match _h : readFrame bincode reader with
  | .error e => ([], .error e)
  | .ok (none, _) => ([], .ok ())
  | .ok (some m, rest) =>
    let r := readAll rest
    (m :: r.1, r.2)
termination_by reader.bytes.length
decreasing_by exact readFrame_length _h

/-- What is written for messages with these payloads. -/
def stream (payloads : List Bytes) : Bytes := (payloads.map frame).flatten

/-- These are the payloads of the messages, all within the reader's bound. -/
abbrev Payloads (ms : List (Message P)) (payloads : List Bytes) : Prop :=
  List.Forall₂ (fun m payload => bincode.serialize m = some payload ∧
    payload.length ≤ MAX_FRAME_LEN) ms payloads

/-- The prefix ends where a frame ends, or at the very beginning. -/
def AtBoundary (payloads : List Bytes) (p : Bytes) : Prop :=
  ∃ k, p = stream (payloads.take k)

/-- The prefix ends one to three bytes into the header of a frame. -/
def InHeader (payloads : List Bytes) (p : Bytes) : Prop :=
  ∃ k q, k < payloads.length ∧ 0 < q.length ∧ q.length < 4 ∧ p = stream (payloads.take k) ++ q

section Cut
variable {bincode} {payload : Bytes} {payloads : List Bytes} {p : Bytes}

@[simp] theorem stream_nil : stream [] = [] := rfl

@[simp] theorem stream_cons : stream (payload :: payloads) = frame payload ++ stream payloads := rfl

/-- A prefix of a stream ends in its first frame or contains it. -/
theorem prefix_stream_cons (h : p <+: stream (payload :: payloads)) :
    (∃ r, r ≠ [] ∧ p ++ r = frame payload) ∨
      ∃ p', p = frame payload ++ p' ∧ p' <+: stream payloads := by
  obtain ⟨t, ht⟩ := h
  rw [stream_cons] at ht
  rcases List.append_eq_append_iff.mp ht with ⟨r, hr, -⟩ | ⟨p', rfl, hp'⟩
  · by_cases hnil : r = []
    · subst hnil
      rw [List.append_nil] at hr
      exact .inr ⟨[], by rw [hr, List.append_nil], List.nil_prefix⟩
    · exact .inl ⟨r, hnil, hr.symm⟩
  · exact .inr ⟨p', rfl, ⟨t, hp'.symm⟩⟩

theorem atBoundary_cons : AtBoundary (payload :: payloads) p ↔
    p = [] ∨ ∃ p', p = frame payload ++ p' ∧ AtBoundary payloads p' := by
  constructor
  · rintro ⟨_ | k, rfl⟩
    · exact .inl rfl
    · exact .inr ⟨_, rfl, k, rfl⟩
  · rintro (rfl | ⟨p', rfl, k, rfl⟩)
    · exact ⟨0, rfl⟩
    · exact ⟨k + 1, rfl⟩

theorem inHeader_cons : InHeader (payload :: payloads) p ↔
    (0 < p.length ∧ p.length < 4) ∨ ∃ p', p = frame payload ++ p' ∧ InHeader payloads p' := by
  constructor
  · rintro ⟨_ | k, q, hk, hpos, hlt, rfl⟩
    · exact .inl ⟨hpos, hlt⟩
    · refine .inr ⟨stream (payloads.take k) ++ q, by simp, k, q, ?_, hpos, hlt, rfl⟩
      simpa using hk
  · rintro (⟨hpos, hlt⟩ | ⟨p', rfl, k, q, hk, hpos, hlt, rfl⟩)
    · exact ⟨0, p, by simp, hpos, hlt, rfl⟩
    · exact ⟨k + 1, q, by simpa using hk, hpos, hlt, by simp⟩

theorem readAll_eq (s : Source) : readAll bincode s =
    match readFrame bincode s with
    | .error e => ([], .error e)
    | .ok (none, _) => ([], .ok ())
    | .ok (some m, rest) => (m :: (readAll bincode rest).1, (readAll bincode rest).2) := by
  rw [readAll]
  split <;> rename_i h <;> rw [h]

theorem readAll_message {m : Message P} {s s' : Source}
    (h : readFrame bincode s = .ok (some m, s')) :
    readAll bincode s = (m :: (readAll bincode s').1, (readAll bincode s').2) := by
  rw [readAll_eq, h]

theorem readAll_end {s s' : Source} (h : readFrame bincode s = .ok (none, s')) :
    readAll bincode s = ([], .ok ()) := by
  rw [readAll_eq, h]

theorem readAll_error {s : Source} {e : FrameError} (h : readFrame bincode s = .error e) :
    readAll bincode s = ([], .error e) := by
  rw [readAll_eq, h]

/-- A stream that ends inside its first frame ends cleanly if it ends in the header. -/
theorem readAll_cut {r : Bytes} (hcut : p ++ r = frame payload) (hr : r ≠ [])
    (hlen : payload.length ≤ MAX_FRAME_LEN) :
    (readAll bincode ⟨p, .eof⟩).2 = .ok () ↔ p.length < 4 := by
  by_cases hheader : p.length < 4
  · rw [readAll_end (readFrame_header_cut hheader)]
    exact iff_of_true rfl hheader
  · rw [readAll_error (readFrame_payload_cut hcut hr (by omega) hlen)]
    exact iff_of_false (by simp) hheader

/-- Reading a cut stream ends cleanly at the boundaries and inside the headers. -/
theorem readAll_clean {ms : List (Message P)} (hms : Payloads bincode ms payloads)
    (hp : p <+: stream payloads) : (readAll bincode ⟨p, .eof⟩).2 = .ok () ↔
      AtBoundary payloads p ∨ InHeader payloads p := by
  induction hms generalizing p with
  | nil =>
    have hnil : p = [] := List.prefix_nil.mp hp
    subst hnil
    rw [readAll_end (readFrame_header_cut (by simp))]
    exact iff_of_true rfl (.inl ⟨0, rfl⟩)
  | @cons m payload ms payloads hm _ ih =>
    rw [atBoundary_cons, inHeader_cons]
    rcases prefix_stream_cons hp with ⟨r, hr, hcut⟩ | ⟨p', rfl, hp'⟩
    · have hlater : ∀ p', p ≠ frame payload ++ p' := by
        rintro p' rfl
        have hlen := congrArg List.length hcut
        have hpos := List.length_pos_iff.mpr hr
        rw [List.length_append, List.length_append] at hlen
        omega
      have hempty : p = [] ↔ p.length = 0 := List.length_eq_zero_iff.symm
      rw [readAll_cut hcut hr hm.2, hempty]
      simp only [hlater, false_and, exists_false, or_false]
      omega
    · rw [readAll_message (readFrame_frame hm.1 hm.2), ih hp']
      have hlong : 4 ≤ (frame payload ++ p').length := by
        rw [List.length_append, length_frame]
        omega
      have hne : frame payload ++ p' ≠ [] := fun h => by
        rw [h] at hlong
        simp at hlong
      simp only [hne, false_or, List.append_cancel_left_eq, exists_eq_left',
        Nat.not_lt_of_le hlong, and_false]

theorem not_inHeader_of_atBoundary (hp : p <+: stream payloads) (h : AtBoundary payloads p) :
    ¬ InHeader payloads p := by
  induction payloads generalizing p with
  | nil =>
    rintro ⟨k, q, hk, -⟩
    simp at hk
  | cons payload payloads ih =>
    rw [inHeader_cons]
    rcases atBoundary_cons.mp h with rfl | ⟨p', rfl, hb⟩
    · rintro (⟨hpos, -⟩ | ⟨p', hp', -⟩)
      · simp at hpos
      · have hlen := congrArg List.length hp'
        simp at hlen
        omega
    · rintro (⟨-, hlt⟩ | ⟨p'', hp'', hin⟩)
      · simp at hlt
        omega
      · rw [List.append_cancel_left_eq] at hp''
        subst hp''
        exact ih (by simpa using hp) hb hin

end Cut

/-- Reading a prefix of the stream of some messages ends cleanly exactly at the frame
boundaries, and in an error everywhere else, if and only if the prefix does not end
inside a header. -/
theorem readAll_clean_iff_not_inHeader {ms : List (Message P)} {payloads : List Bytes}
    (hms : Payloads bincode ms payloads) {p : Bytes} (hp : p <+: stream payloads) :
    (((readAll bincode ⟨p, .eof⟩).2 = .ok () ↔ AtBoundary payloads p) ∧
      (¬ AtBoundary payloads p → ∃ e, (readAll bincode ⟨p, .eof⟩).2 = .error e)) ↔
        ¬ InHeader payloads p := by
  have hclean := readAll_clean hms hp
  constructor
  · rintro ⟨hiff, -⟩ hin
    exact not_inHeader_of_atBoundary hp (hiff.mp (hclean.mpr (.inr hin))) hin
  · intro hin
    have hiff : (readAll bincode ⟨p, .eof⟩).2 = .ok () ↔ AtBoundary payloads p :=
      hclean.trans (or_iff_left hin)
    refine ⟨hiff, fun hb => ?_⟩
    cases hend : (readAll bincode ⟨p, .eof⟩).2 with
    | ok _ => exact absurd (hiff.mp hend) hb
    | error e => exact ⟨e, rfl⟩

theorem readAll_clean_iff_not_inHeader_payload :
    ((readAll Reference.bincode ⟨[0, 0, 0, 4, 4], .eof⟩).2 = .ok () ↔
        AtBoundary [[4, 0, 0, 0]] [0, 0, 0, 4, 4]) ∧
      (¬ AtBoundary [[4, 0, 0, 0]] [0, 0, 0, 4, 4] →
        ∃ e, (readAll Reference.bincode ⟨[0, 0, 0, 4, 4], .eof⟩).2 = .error e) := by
  have hms : Payloads Reference.bincode [.heartbeat] [[4, 0, 0, 0]] := .cons ⟨rfl, by decide⟩ .nil
  refine (readAll_clean_iff_not_inHeader Reference.bincode hms
    (List.prefix_iff_eq_take.mpr rfl)).mpr ?_
  rw [inHeader_cons]
  rintro (⟨-, hlt⟩ | ⟨p', hp', -⟩)
  · simp at hlt
  · simp [frame, toBeBytes] at hp'

/-- A stream cut after one byte of a header is reported as one that ended cleanly. -/
theorem readAll_clean_in_header :
    Payloads Reference.bincode [.heartbeat] [[4, 0, 0, 0]] ∧ [0] <+: stream [[4, 0, 0, 0]] ∧
      (readAll Reference.bincode ⟨[0], .eof⟩).2 = .ok () ∧ ¬ AtBoundary [[4, 0, 0, 0]] [0] := by
  refine ⟨.cons ⟨rfl, by decide⟩ .nil, List.prefix_iff_eq_take.mpr rfl, ?_, ?_⟩
  · rw [readAll_end (readFrame_header_cut (by simp))]
  · rintro ⟨_ | k, hk⟩
    · simp at hk
    · simp [frame, toBeBytes] at hk

end Pmd
