import Pmd.Foundation.JsonText
import Mathlib.Data.List.DropRight

/-!
# Values as lines

A line codec writes a value as one line of text. The reader strips white space at both
ends and parses what is left. A line that breaks off is never read as a value, so what is
read from the beginning of a line is the value that was written.
-/
namespace Pmd.Foundation

/-- `char::is_whitespace`. -/
def isWhitespace (c : Char) : Bool :=
  (9 ≤ c.toNat && c.toNat ≤ 13) || (0x2000 ≤ c.toNat && c.toNat ≤ 0x200A) ||
    decide (c.toNat ∈ [0x20, 0x85, 0xA0, 0x1680, 0x2028, 0x2029, 0x202F, 0x205F, 0x3000])

/-- `str::trim`. -/
def trim (cs : List Char) : List Char := (cs.dropWhile isWhitespace).rdropWhile isWhitespace

section
variable {cs : List Char}

theorem dropWhile_of_head {p : Char → Bool} (h : ∀ c ∈ cs.head?, p c = false) :
    cs.dropWhile p = cs := by
  cases cs with
  | nil => rfl
  | cons c cs => rw [List.dropWhile_cons, h c rfl, if_neg Bool.false_ne_true]

theorem rdropWhile_of_getLast {p : Char → Bool} (h : ∀ c ∈ cs.getLast?, p c = false) :
    cs.rdropWhile p = cs := by
  rw [List.rdropWhile, dropWhile_of_head (by rwa [List.head?_reverse]), List.reverse_reverse]

theorem trim_prefix (h : ∀ c ∈ cs.head?, isWhitespace c = false) : trim cs <+: cs := by
  rw [trim, dropWhile_of_head h]
  exact List.rdropWhile_prefix _ _

end

/-- `back` is what a written value is read as: it may have been rounded. -/
structure LineCodec (α : Type*) where
  text : α → List Char
  ofText : List Char → Option α
  back : α → α
  ofText_nil : ofText [] = none
  ofText_text : ∀ a, ofText (text a) = some (back a)
  ofText_cut : ∀ a p, p <+: text a → p ≠ text a → ofText p = none
  newline_notMem : ∀ a, '\n' ∉ text a
  head_text : ∀ a, ∀ c ∈ (text a).head?, isWhitespace c = false
  getLast_text : ∀ a, ∀ c ∈ (text a).getLast?, isWhitespace c = false

namespace LineCodec
variable {α : Type*} (K : LineCodec α)

/-- The text and its newline. -/
def line (a : α) : List Char := K.text a ++ ['\n']

/-- The value on a line. -/
def ofLine (cs : List Char) : Option α := K.ofText (trim cs)

variable {K} {a : α} {p : List Char}

theorem trim_text : trim (K.text a) = K.text a := by
  rw [trim, dropWhile_of_head (K.head_text a), rdropWhile_of_getLast (K.getLast_text a)]

theorem trim_line : trim (K.line a) = K.text a := by
  rcases List.eq_nil_or_concat (K.text a) with hnil | ⟨cs, c, hc⟩
  · rw [line, hnil]
    rfl
  · have hhead : ∀ d ∈ (K.text a ++ ['\n']).head?, isWhitespace d = false := by
      have hne : K.text a ≠ [] := by simp [hc]
      rw [List.head?_append_of_ne_nil _ hne]
      exact K.head_text a
    rw [line, trim, dropWhile_of_head hhead, List.rdropWhile_concat_pos _ _ _ (by rfl),
      rdropWhile_of_getLast (K.getLast_text a)]

theorem ofLine_line : K.ofLine (K.line a) = some (K.back a) := by
  rw [ofLine, trim_line, ofText_text]

/-- At the end of the stream a line may lack its newline. -/
theorem ofLine_text : K.ofLine (K.text a) = some (K.back a) := by
  rw [ofLine, trim_text, ofText_text]

theorem ofLine_cut (h : p <+: K.text a) (hne : p ≠ K.text a) : K.ofLine p = none := by
  have hhead : ∀ c ∈ p.head?, isWhitespace c = false := by
    intro c hc
    refine K.head_text a c ?_
    obtain ⟨q, hq⟩ := h
    cases p with
    | nil => cases hc
    | cons d p =>
      rw [← hq]
      exact hc
  have htrim := trim_prefix hhead
  refine K.ofText_cut a (trim p) (htrim.trans h) fun heq => hne ?_
  refine h.eq_of_length (le_antisymm h.length_le ?_)
  rw [← heq]
  exact htrim.length_le

/-- What is read from the beginning of a line is what was written on it. -/
theorem of_ofLine {b : α} (h : p <+: K.line a) (hb : K.ofLine p = some b) :
    K.text a <+: p ∧ b = K.back a := by
  rcases List.prefix_concat_iff.mp h with rfl | hp
  · rw [← line, ofLine_line, Option.some.injEq] at hb
    exact ⟨List.prefix_append _ _, hb.symm⟩
  · by_cases heq : p = K.text a
    · subst heq
      rw [ofLine_text, Option.some.injEq] at hb
      exact ⟨List.prefix_rfl, hb.symm⟩
    · rw [ofLine_cut hp heq] at hb
      cases hb

theorem ofLine_nil : K.ofLine [] = none := K.ofText_nil

theorem newline_mem_line : '\n' ∈ K.line a := List.mem_append_right _ List.mem_cons_self

/-- The newline is the end of the line. -/
theorem eq_line (h : p ++ ['\n'] <+: K.line a) : p ++ ['\n'] = K.line a := by
  rcases List.prefix_concat_iff.mp h with h | h
  · exact h
  · have hmem : '\n' ∈ K.text a := h.subset (List.mem_append_right _ List.mem_cons_self)
    exact absurd hmem (K.newline_notMem a)

/-- What stands on the first line of a stream: the line, or a part of it, or the line and
more. -/
theorem prefix_line {s q : List Char} (hs : s <+: K.line a ∨ K.line a <+: s) (hp : '\n' ∉ p)
    (hq : q = p ∨ q = p ++ ['\n']) (h : q <+: s) : q <+: K.line a := by
  rcases hs with hs | hs
  · exact h.trans hs
  · rcases List.prefix_or_prefix_of_prefix h hs with hqa | haq
    · exact hqa
    · rcases hq with rfl | rfl
      · exact absurd (haq.subset newline_mem_line) hp
      · rcases List.prefix_concat_iff.mp haq with heq | hap
        · rw [heq]
        · exact absurd (hap.subset newline_mem_line) hp

/-- Values that are printed as JSON trees other than numbers. -/
def json (toJson : α → Json) (ofJson : Json → Option α) (back : α → α)
    (hround : ∀ a, ofJson (toJson a) = some (back a))
    (hnum : ∀ a, (toJson a).isNumber = false) : LineCodec α where
  text a := (toJson a).render
  ofText cs := (Json.parse cs).bind ofJson
  back := back
  ofText_nil := rfl
  ofText_text a := by
    rw [Json.parse_render]
    exact hround a
  ofText_cut a p hp hne := by
    rw [Json.parse_cut (hnum a) hp hne]
    rfl
  newline_notMem a hmem := absurd (Json.printable_render _ _ hmem) (by decide)
  head_text a c hc := by
    obtain ⟨d, hd, cs, hrender⟩ := Json.head_render (hnum a)
    rw [hrender] at hc
    cases hc
    simp only [Json.heads, List.mem_cons, List.not_mem_nil, or_false] at hd
    rcases hd with rfl | rfl | rfl | rfl | rfl | rfl <;> rfl
  getLast_text a c hc := by
    obtain ⟨d, hd, hlast⟩ := Json.getLast?_render (hnum a)
    rw [hlast] at hc
    cases hc
    simp only [Json.lasts, List.mem_cons, List.not_mem_nil, or_false] at hd
    rcases hd with rfl | rfl | rfl | rfl | rfl <;> rfl

end LineCodec
end Pmd.Foundation
