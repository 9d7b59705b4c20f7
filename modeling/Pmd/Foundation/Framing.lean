import Mathlib.Data.List.Basic
import Mathlib.Tactic.Ring

/-!
# Length-prefixed frames

A frame is a big-endian length of four bytes and a payload. `Source` is a byte
stream that ends, and `readExact` what an exact read does on it. `Partial` is a
reader that takes a stream byte by byte and can be suspended at any byte; feeding
it is insensitive to how the stream is cut into chunks.
-/
namespace Pmd.Foundation

/-- How messages become payloads and back. -/
structure Codec (M : Type*) where
  serialize : M → Option (List UInt8)
  deserialize : List UInt8 → Option M
  deserialize_serialize : ∀ m payload, serialize m = some payload → deserialize payload = some m

def toBeBytes (n : ℕ) : List UInt8 :=
  [.ofNat (n / 2 ^ 24), .ofNat (n / 2 ^ 16), .ofNat (n / 2 ^ 8), .ofNat n]

def fromBeBytes (bytes : List UInt8) : ℕ := bytes.foldl (fun n b => n * 256 + b.toNat) 0

@[simp] theorem length_toBeBytes (n : ℕ) : (toBeBytes n).length = 4 := rfl

theorem fromBeBytes_toBeBytes {n : ℕ} (h : n < 2 ^ 32) : fromBeBytes (toBeBytes n) = n := by
  simp only [fromBeBytes, toBeBytes, List.foldl_cons, List.foldl_nil, UInt8.toNat_ofNat']
  omega

def frame (payload : List UInt8) : List UInt8 := toBeBytes payload.length ++ payload

@[simp] theorem length_frame (payload : List UInt8) :
    (frame payload).length = 4 + payload.length := by
  simp [frame]

/-- How a stream ends: it is closed, or reading it fails. -/
inductive Ending where
  | eof
  | failed
  deriving DecidableEq

/-- The bytes still to come and what is met after them. -/
structure Source where
  bytes : List UInt8
  ending : Ending

/-- `read_exact`: the next `n` bytes, or the way the stream ends before them. -/
def Source.readExact (s : Source) (n : ℕ) : Except Ending (List UInt8 × Source) :=
  if n ≤ s.bytes.length then .ok (s.bytes.take n, { s with bytes := s.bytes.drop n })
  else .error s.ending

theorem Source.readExact_append {a b : List UInt8} {e : Ending} :
    Source.readExact ⟨a ++ b, e⟩ a.length = .ok (a, ⟨b, e⟩) := by
  simp [readExact]

theorem Source.readExact_short {s : Source} {n : ℕ} (h : s.bytes.length < n) :
    s.readExact n = .error s.ending :=
  if_neg (Nat.not_le_of_lt h)

inductive FrameError where
  /-- "message too large": the length does not fit in four bytes. -/
  | messageTooLarge (len : ℕ)
  /-- "frame too large": the length exceeds the bound of the reader. -/
  | frameTooLarge (len : ℕ)
  | serialize
  | deserialize
  | io (ending : Ending)
  deriving DecidableEq

/-! ## A reader that can be suspended -/

/-- What has been read of a frame: a part of the header, or a part of a payload whose
length is known. -/
inductive Partial where
  | header (buf : List UInt8)
  | payload (len : ℕ) (buf : List UInt8)

/-- What a byte leads to. -/
inductive Progress (M : Type*) where
  | more (p : Partial)
  | message (m : M)
  | bad (e : FrameError)

namespace Partial
variable {M : Type*} (K : Codec M) (limit : ℕ)

def start : Partial := .header []

/-- The payload is complete, or not yet. -/
def fill (len : ℕ) (buf : List UInt8) : Progress M :=
  if buf.length < len then .more (.payload len buf)
  else
    match K.deserialize buf with
    | some m => .message m
    | none => .bad .deserialize

/-- The reader takes one byte. -/
def push : Partial → UInt8 → Progress M
  | .header buf, b =>
    if (buf ++ [b]).length < 4 then .more (.header (buf ++ [b]))
    else if limit < fromBeBytes (buf ++ [b]) then
      .bad (.frameTooLarge (fromBeBytes (buf ++ [b])))
    else fill K (fromBeBytes (buf ++ [b])) []
  | .payload len buf, b => fill K len (buf ++ [b])

/-- The end of the stream: before a header is complete it is a clean end if the stream
is closed. -/
def finish : Partial → Ending → Except FrameError Unit
  | .header _, .eof => .ok ()
  | _, e => .error (.io e)

/-- The reader takes bytes until its frame is decided; the rest is left. -/
def feed : Partial → List UInt8 → Progress M × List UInt8
  | p, [] => (.more p, [])
  | p, b :: rest =>
    match push K limit p b with
    | .more p' => feed p' rest
    | done => (done, rest)

/-- Progress made, and then more bytes. -/
def resume : Progress M → List UInt8 → Progress M × List UInt8
  | .more p, rest => feed K limit p rest
  | done, rest => (done, rest)

variable {K limit} {p p' : Partial}

theorem feed_cons (b : UInt8) (rest : List UInt8) :
    feed K limit p (b :: rest) = resume K limit (push K limit p b) rest := by
  rw [feed]
  cases push K limit p b <;> rfl

theorem resume_done {d : Progress M} (hd : ∀ p', d ≠ .more p') (rest : List UInt8) :
    resume K limit d rest = (d, rest) := by
  cases d with
  | more p' => exact absurd rfl (hd p')
  | _ => rfl

theorem feed_cons_more {b : UInt8} {rest : List UInt8} (h : push K limit p b = .more p') :
    feed K limit p (b :: rest) = feed K limit p' rest := by
  rw [feed_cons, h, resume]

/-- Feeding a stream is feeding its parts. -/
theorem feed_append {a : List UInt8} (h : feed K limit p a = (.more p', [])) (b : List UInt8) :
    feed K limit p (a ++ b) = feed K limit p' b := by
  induction a generalizing p with
  | nil =>
    cases h
    rfl
  | cons x a ih =>
    rw [feed] at h
    rw [List.cons_append, feed]
    split at h
    · exact ih h
    · rename_i hdone
      rw [Prod.mk.injEq] at h
      exact absurd h.1 (hdone p')

theorem feed_concat {a : List UInt8} {b : UInt8} {p'' : Partial}
    (h : feed K limit p a = (.more p', [])) (hb : push K limit p' b = .more p'') :
    feed K limit p (a ++ [b]) = (.more p'', []) := by
  rw [feed_append h, feed_cons_more hb]
  rfl

theorem feed_done {b : UInt8} {d : Progress M} (hb : push K limit p b = d) (hd : ∀ p', d ≠ .more p')
    (rest : List UInt8) : feed K limit p (b :: rest) = (d, rest) := by
  rw [feed_cons, hb, resume_done hd]

theorem fill_complete {len : ℕ} {buf : List UInt8} (h : ¬ buf.length < len) (p' : Partial) :
    fill K len buf ≠ .more p' := by
  rw [fill, if_neg h]
  cases K.deserialize buf <;> simp

/-- A payload is complete when as many bytes as announced have come. -/
theorem resume_fill {len : ℕ} (buf rest : List UInt8) (h : buf.length ≤ len) :
    resume K limit (fill K len buf) rest =
      if buf.length + rest.length < len then (.more (.payload len (buf ++ rest)), [])
      else (fill K len (buf ++ rest.take (len - buf.length)), rest.drop (len - buf.length)) := by
  induction rest generalizing buf with
  | nil =>
    simp only [List.length_nil, Nat.add_zero, List.append_nil, List.take_nil, List.drop_nil]
    split
    · rename_i hlt
      rw [fill, if_pos hlt]
      rfl
    · rename_i hlt
      exact resume_done (fill_complete hlt) []
  | cons b rest ih =>
    by_cases hlt : buf.length < len
    · have hstep : resume K limit (fill K len buf) (b :: rest) =
          resume K limit (fill K len (buf ++ [b])) rest := by
        rw [fill, if_pos hlt, resume, feed_cons, push]
      have hsub : len - buf.length = len - (buf.length + 1) + 1 := by omega
      rw [hstep, ih (buf ++ [b]) (by rw [List.length_append]; exact hlt)]
      simp only [List.length_append, List.length_cons, List.length_nil, List.append_assoc,
        List.cons_append, List.nil_append, hsub, List.take_succ_cons, List.drop_succ_cons]
      congr 2
      omega
    · have hzero : len - buf.length = 0 := by omega
      rw [resume_done (fill_complete hlt), if_neg (by omega), hzero, List.take_zero,
        List.append_nil, List.drop_zero]

/-! ## Where a reader stands in a stream -/

variable (K limit)

/-- The reader `p` has taken the front of `stream`, and `rest` follows; what comes after
`rest` may never arrive. -/
def Unread (stream : List UInt8) (p : Partial) (rest : List UInt8) : Prop :=
  ∃ taken lost, stream = taken ++ rest ++ lost ∧ feed K limit .start taken = (.more p, [])

variable {K limit} {stream a rest : List UInt8} {b : UInt8}

theorem Unread.start : Unread K limit stream .start stream :=
  ⟨[], [], by rw [List.nil_append, List.append_nil], rfl⟩

theorem Unread.lose (h : Unread K limit stream p (a ++ rest)) : Unread K limit stream p a := by
  obtain ⟨taken, lost, rfl, hfeed⟩ := h
  exact ⟨taken, rest ++ lost, by simp only [List.append_assoc], hfeed⟩

theorem Unread.more (h : Unread K limit stream p (b :: rest)) (hb : push K limit p b = .more p') :
    Unread K limit stream p' rest := by
  obtain ⟨taken, lost, rfl, hfeed⟩ := h
  exact ⟨taken ++ [b], lost, by simp, feed_concat hfeed hb⟩

/-- The verdict on a frame is a verdict on the stream. -/
theorem Unread.decided {d : Progress M} (h : Unread K limit stream p (b :: rest))
    (hb : push K limit p b = d) (hd : ∀ p', d ≠ .more p') :
    ∃ lost, feed K limit .start stream = (d, rest ++ lost) := by
  obtain ⟨taken, lost, rfl, hfeed⟩ := h
  refine ⟨lost, ?_⟩
  rw [List.append_assoc, feed_append hfeed, List.cons_append, feed_done hb hd]

end Partial
end Pmd.Foundation
