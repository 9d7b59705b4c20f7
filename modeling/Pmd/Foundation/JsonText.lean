import Pmd.Foundation.Json

/-!
# JSON as text

The compact form of a JSON tree and a parser for it, by recursive descent. What is
printed is read back, whatever follows it; a text that breaks off inside a string, an
array or an object is not read at all, since what has been read stays the same when more
follows. Numbers are integers.
-/
namespace Pmd.Foundation
namespace Json

/-! ## Printing -/

def hexDigits (n : ℕ) : List Char := [Nat.digitChar (n / 16), Nat.digitChar (n % 16)]

/-- A character of a string. Quotes, backslashes and control characters are escaped. -/
def escape (c : Char) : List Char :=
  if c = '"' then ['\\', '"']
  else if c = '\\' then ['\\', '\\']
  else if c = '\n' then ['\\', 'n']
  else if c = '\r' then ['\\', 'r']
  else if c = '\t' then ['\\', 't']
  else if c = Char.ofNat 8 then ['\\', 'b']
  else if c = Char.ofNat 12 then ['\\', 'f']
  else if c.toNat < 32 then '\\' :: 'u' :: '0' :: '0' :: hexDigits c.toNat
  else [c]

def renderString (s : String) : List Char := '"' :: (s.toList.flatMap escape ++ ['"'])

def renderNumber : ℤ → List Char
  | .ofNat n => Nat.toDigits 10 n
  | .negSucc n => '-' :: Nat.toDigits 10 (n + 1)

mutual

def render : Json → List Char
  | .null => ['n', 'u', 'l', 'l']
  | .bool true => ['t', 'r', 'u', 'e']
  | .bool false => ['f', 'a', 'l', 's', 'e']
  | .number n => renderNumber n
  | .string s => renderString s
  | .array xs => '[' :: renderElements xs
  | .object m => '{' :: renderMembers m

/-- The elements of an array and its closing bracket. -/
def renderElements : List Json → List Char
  | [] => [']']
  | x :: xs => render x ++ renderMoreElements xs

def renderMoreElements : List Json → List Char
  | [] => [']']
  | x :: xs => ',' :: (render x ++ renderMoreElements xs)

def renderMembers : List (String × Json) → List Char
  | [] => ['}']
  | (k, x) :: m => renderString k ++ ':' :: (render x ++ renderMoreMembers m)

def renderMoreMembers : List (String × Json) → List Char
  | [] => ['}']
  | (k, x) :: m => ',' :: (renderString k ++ ':' :: (render x ++ renderMoreMembers m))

end

/-! ## Parsing -/

def isSpace (c : Char) : Bool := c = ' ' || c = '\t' || c = '\n' || c = '\r'

def skipSpace (cs : List Char) : List Char := cs.dropWhile isSpace

def hexValue (c : Char) : Option ℕ :=
  if c.isDigit then some (c.toNat - 48)
  else if 97 ≤ c.toNat ∧ c.toNat ≤ 102 then some (c.toNat - 87)
  else if 65 ≤ c.toNat ∧ c.toNat ≤ 70 then some (c.toNat - 55)
  else none

def unescape (c : Char) : Option Char :=
  if c = '"' ∨ c = '\\' ∨ c = '/' then some c
  else if c = 'n' then some '\n'
  else if c = 'r' then some '\r'
  else if c = 't' then some '\t'
  else if c = 'b' then some (Char.ofNat 8)
  else if c = 'f' then some (Char.ofNat 12)
  else none

/-- The four digits of a `\u` escape. Surrogates are not read. -/
def parseHex : List Char → Option (Char × List Char)
  | a :: b :: c :: d :: rest => do
    let n := (((← hexValue a) * 16 + (← hexValue b)) * 16 + (← hexValue c)) * 16 + (← hexValue d)
    if n.isValidChar then some (Char.ofNat n, rest) else none
  | _ => none

/-- One character of a string. -/
def parseChar : List Char → Option (Char × List Char)
  | [] => none
  | c :: rest =>
    if c = '\\' then
      match rest with
      | [] => none
      | e :: rest => if e = 'u' then parseHex rest else (unescape e).map fun c => (c, rest)
    else if c.toNat < 32 then none
    else some (c, rest)

/-- The rest of a string and its closing quote. -/
def parseChars : ℕ → List Char → Option (List Char × List Char)
  | 0, _ => none
  | n + 1, cs =>
    if cs.head? = some '"' then some ([], cs.tail)
    else do
      let (c, rest) ← parseChar cs
      let (s, rest) ← parseChars n rest
      return (c :: s, rest)

def parseNat (cs : List Char) : Option (ℕ × List Char) :=
  let ds := cs.takeWhile Char.isDigit
  let n := Nat.ofDigitChars 10 ds 0
  if ds = Nat.toDigits 10 n then some (n, cs.dropWhile Char.isDigit) else none

def parseNumber : List Char → Option (ℤ × List Char)
  | '-' :: cs => (parseNat cs).map fun r => (-r.1, r.2)
  | cs => (parseNat cs).map fun r => (r.1, r.2)

/-- `w` and then the rest. -/
def parseWord (w : List Char) (j : Json) (cs : List Char) : Option (Json × List Char) :=
  if w.isPrefixOf cs then some (j, cs.drop w.length) else none

/-- A key and the colon after it. -/
def parseKey (n : ℕ) (cs : List Char) : Option (String × List Char) :=
  if (skipSpace cs).head? = some '"' then
    (parseChars n (skipSpace cs).tail).bind fun r =>
      if (skipSpace r.2).head? = some ':' then some (.ofList r.1, (skipSpace r.2).tail) else none
  else none

mutual

def parseValue : ℕ → List Char → Option (Json × List Char)
  | 0, _ => none
  | n + 1, cs =>
    match skipSpace cs with
    | [] => none
    | c :: rest =>
      if c = '"' then (parseChars n rest).map fun r => (.string (.ofList r.1), r.2)
      else if c = '[' then
        if (skipSpace rest).head? = some ']' then some (.array [], (skipSpace rest).tail)
        else (parseElements n rest).map fun r => (.array r.1, r.2)
      else if c = '{' then
        if (skipSpace rest).head? = some '}' then some (.object [], (skipSpace rest).tail)
        else (parseMembers n rest).map fun r => (.object r.1, r.2)
      else if c = 'n' then parseWord ['u', 'l', 'l'] .null rest
      else if c = 't' then parseWord ['r', 'u', 'e'] (.bool true) rest
      else if c = 'f' then parseWord ['a', 'l', 's', 'e'] (.bool false) rest
      else (parseNumber (c :: rest)).map fun r => (.number r.1, r.2)

/-- One element or more, and the closing bracket. -/
def parseElements : ℕ → List Char → Option (List Json × List Char)
  | 0, _ => none
  | n + 1, cs => do
    let (x, rest) ← parseValue n cs
    if (skipSpace rest).head? = some ']' then some ([x], (skipSpace rest).tail)
    else if (skipSpace rest).head? = some ',' then
      (parseElements n (skipSpace rest).tail).map fun r => (x :: r.1, r.2)
    else none

def parseMembers : ℕ → List Char → Option (List (String × Json) × List Char)
  | 0, _ => none
  | n + 1, cs => do
    let (k, rest) ← parseKey n cs
    let (x, rest) ← parseValue n rest
    if (skipSpace rest).head? = some '}' then some ([(k, x)], (skipSpace rest).tail)
    else if (skipSpace rest).head? = some ',' then
      (parseMembers n (skipSpace rest).tail).map fun r => ((k, x) :: r.1, r.2)
    else none

end

/-- A whole text. -/
def parse (cs : List Char) : Option Json := do
  let (j, rest) ← parseValue (cs.length + 1) cs
  if skipSpace rest = [] then some j else none

/-! ## What is printed is read back -/

theorem skipSpace_cons {c : Char} (h : isSpace c = false) (cs : List Char) :
    skipSpace (c :: cs) = c :: cs := by
  rw [skipSpace, List.dropWhile_cons, h]
  rfl

theorem hexValue_digitChar : ∀ d < 16, hexValue (Nat.digitChar d) = some d := by
  decide

theorem parseHex_hexDigits {c : Char} (h : c.toNat < 32) (rest : List Char) :
    parseHex ('0' :: '0' :: (hexDigits c.toNat ++ rest)) = some (c, rest) := by
  have hzero : hexValue '0' = some 0 := by decide
  have hhigh := hexValue_digitChar (c.toNat / 16) (by omega)
  have hlow := hexValue_digitChar (c.toNat % 16) (by omega)
  have hsum : c.toNat / 16 * 16 + c.toNat % 16 = c.toNat := Nat.div_add_mod' _ _
  have hvalid : c.toNat.isValidChar := .inl (by omega)
  simp [parseHex, hexDigits, hzero, hhigh, hlow, hsum, hvalid, Char.ofNat_toNat]

theorem parseChar_escape (c : Char) (rest : List Char) :
    parseChar (escape c ++ rest) = some (c, rest) := by
  rw [escape]
  split
  · subst_vars; rfl
  split
  · subst_vars; rfl
  split
  · subst_vars; rfl
  split
  · subst_vars; rfl
  split
  · subst_vars; rfl
  split
  · subst_vars; rfl
  split
  · subst_vars; rfl
  split
  · rename_i h
    simp [parseChar, parseHex_hexDigits h]
  · rename_i hslash _ _ _ _ _ h
    simp [parseChar, hslash, h]

theorem head?_escape (c : Char) (rest : List Char) : (escape c ++ rest).head? ≠ some '"' := by
  rw [escape]
  repeat (split <;> [simp; skip])
  simpa using ‹¬ c = '"'›

theorem parseChars_escape {n : ℕ} {cs : List Char} (h : cs.length < n) (rest : List Char) :
    parseChars n (cs.flatMap escape ++ '"' :: rest) = some (cs, rest) := by
  induction cs generalizing n with
  | nil =>
    cases n with
    | zero => cases h
    | succ n => simp [parseChars]
  | cons c cs ih =>
    cases n with
    | zero => cases h
    | succ n =>
      rw [List.flatMap_cons, List.append_assoc, parseChars, if_neg (head?_escape c _),
        parseChar_escape]
      simp only [Option.bind_eq_bind, Option.bind_some]
      rw [ih (Nat.lt_of_succ_lt_succ h)]
      rfl

/-- No digit follows. -/
def EndsNumber (cs : List Char) : Prop := ∀ c ∈ cs.head?, c.isDigit = false

theorem takeWhile_digits {ds cs : List Char} (hd : ∀ c ∈ ds, c.isDigit = true)
    (hc : EndsNumber cs) : (ds ++ cs).takeWhile Char.isDigit = ds ∧
      (ds ++ cs).dropWhile Char.isDigit = cs := by
  rw [List.takeWhile_append_of_pos hd, List.dropWhile_append_of_pos hd]
  cases cs with
  | nil => simp
  | cons c cs => simp [hc c rfl]

theorem parseNat_toDigits (n : ℕ) {cs : List Char} (hc : EndsNumber cs) :
    parseNat (Nat.toDigits 10 n ++ cs) = some (n, cs) := by
  have hdigits : ∀ c ∈ Nat.toDigits 10 n, c.isDigit = true := fun c hc =>
    Nat.isDigit_of_mem_toDigits (by decide) (by decide) hc
  obtain ⟨htake, hdrop⟩ := takeWhile_digits hdigits hc
  simp [parseNat, htake, hdrop, Nat.ofDigitChars_ten_toDigits]

theorem exists_toDigits (n : ℕ) : ∃ d ds, Nat.toDigits 10 n = d :: ds ∧ d.isDigit = true := by
  obtain ⟨d, ds, h⟩ := List.exists_cons_of_ne_nil (Nat.toDigits_ne_nil (b := 10) (n := n))
  refine ⟨d, ds, h, Nat.isDigit_of_mem_toDigits (b := 10) (n := n) (by decide) (by decide) ?_⟩
  rw [h]
  exact List.mem_cons_self

theorem parseNumber_cons {c : Char} (h : c ≠ '-') (cs : List Char) :
    parseNumber (c :: cs) = (parseNat (c :: cs)).map fun r => ((r.1 : ℤ), r.2) := by
  rw [parseNumber]
  rintro rest heq
  cases heq
  exact h rfl

theorem parseNumber_renderNumber (n : ℤ) {cs : List Char} (hc : EndsNumber cs) :
    parseNumber (renderNumber n ++ cs) = some (n, cs) := by
  cases n with
  | ofNat n =>
    obtain ⟨d, ds, hd, hdigit⟩ := exists_toDigits n
    have hparse := parseNat_toDigits n hc
    rw [hd] at hparse
    have hminus : d ≠ '-' := by
      rintro rfl
      cases hdigit
    rw [renderNumber, hd, List.cons_append, parseNumber_cons hminus, ← List.cons_append, hparse]
    rfl
  | negSucc n =>
    simp [renderNumber, parseNumber, parseNat_toDigits (n + 1) hc]
    omega

/-- The first character of a printed tree tells what follows. -/
theorem exists_render (j : Json) : ∃ c cs, j.render = c :: cs ∧ isSpace c = false ∧ c ≠ ']' := by
  have hdigit : ∀ {c : Char}, c.isDigit = true → isSpace c = false ∧ c ≠ ']' := by
    intro c hc
    constructor
    · rw [← Bool.not_eq_true]
      intro hs
      simp only [isSpace, Bool.or_eq_true, decide_eq_true_eq] at hs
      rcases hs with ((rfl | rfl) | rfl) | rfl <;> cases hc
    · rintro rfl
      cases hc
  cases j with
  | null => exact ⟨_, _, rfl, rfl, by decide⟩
  | bool b => cases b <;> exact ⟨_, _, rfl, rfl, by decide⟩
  | number n =>
    cases n with
    | ofNat n =>
      obtain ⟨d, ds, hd, hisd⟩ := exists_toDigits n
      exact ⟨d, ds, hd, hdigit hisd⟩
    | negSucc n => exact ⟨_, _, rfl, rfl, by decide⟩
  | string s => exact ⟨_, _, rfl, rfl, by decide⟩
  | array xs => exact ⟨_, _, by rw [render], rfl, by decide⟩
  | object m => exact ⟨_, _, by rw [render], rfl, by decide⟩

theorem length_escape (c : Char) : 0 < (escape c).length := by
  have hne : escape c ≠ [] := by
    intro h
    have := parseChar_escape c []
    simp [h, parseChar] at this
  exact List.length_pos_of_ne_nil hne

theorem length_renderString (s : String) : s.toList.length + 2 ≤ (renderString s).length := by
  have hflat : ∀ cs : List Char, cs.length ≤ (cs.flatMap escape).length := by
    intro cs
    induction cs with
    | nil => exact Nat.le_refl _
    | cons c cs ih =>
      have hc := length_escape c
      rw [List.flatMap_cons, List.length_append, List.length_cons]
      omega
  have h := hflat s.toList
  simp only [renderString, List.length_cons, List.length_append, List.length_nil]
  omega

/-- A printed string, after its opening quote. -/
theorem parseChars_renderString {n : ℕ} {s : String} (h : (renderString s).length ≤ n + 1)
    (cs : List Char) : parseChars n (s.toList.flatMap escape ++ '"' :: cs) =
      some (s.toList, cs) := by
  refine parseChars_escape ?_ cs
  have hlen := length_renderString s
  omega

theorem parseKey_renderString {n : ℕ} {k : String} (h : (renderString k).length ≤ n + 1)
    (cs : List Char) : parseKey n (renderString k ++ ':' :: cs) = some (k, cs) := by
  rw [parseKey, renderString, List.cons_append, skipSpace_cons rfl, List.head?_cons, if_pos rfl,
    List.tail_cons, List.append_assoc, List.singleton_append, parseChars_renderString h]
  simp [skipSpace_cons, isSpace]

theorem endsNumber_nil : EndsNumber [] := fun _ h => nomatch h

theorem endsNumber_cons {c : Char} (h : c.isDigit = false) (cs : List Char) :
    EndsNumber (c :: cs) := by
  intro d hd
  cases hd
  exact h

theorem renderMoreElements_cons (x : Json) (xs : List Json) :
    renderMoreElements (x :: xs) = ',' :: renderElements (x :: xs) := by
  rw [renderMoreElements, renderElements]

theorem renderMoreMembers_cons (k : String) (x : Json) (m : List (String × Json)) :
    renderMoreMembers ((k, x) :: m) = ',' :: renderMembers ((k, x) :: m) := by
  rw [renderMoreMembers, renderMembers]

theorem parseNumber_head {n : ℕ} {k : ℤ} {cs : List Char} (hc : EndsNumber cs) :
    parseValue (n + 1) (renderNumber k ++ cs) = some (.number k, cs) := by
  have hread := parseNumber_renderNumber k hc
  have hhead : ∃ c rest, renderNumber k ++ cs = c :: rest ∧ isSpace c = false ∧
      c ∉ ['"', '[', '{', 'n', 't', 'f'] := by
    cases k with
    | ofNat k =>
      obtain ⟨d, ds, hd, hdigit⟩ := exists_toDigits k
      refine ⟨d, ds ++ cs, by rw [renderNumber, hd, List.cons_append], ?_, ?_⟩
      · obtain ⟨c, rest, hr, hs, -⟩ := exists_render (.number (.ofNat k))
        rw [render, renderNumber, hd] at hr
        cases hr
        exact hs
      · intro hmem
        simp only [List.mem_cons, List.not_mem_nil, or_false] at hmem
        rcases hmem with rfl | rfl | rfl | rfl | rfl | rfl <;> cases hdigit
    | negSucc k => exact ⟨_, _, rfl, rfl, by decide⟩
  obtain ⟨c, rest, heq, hspace, hnot⟩ := hhead
  simp only [List.mem_cons, List.not_mem_nil, or_false, not_or] at hnot
  rw [heq] at hread ⊢
  rw [parseValue, skipSpace_cons hspace]
  simp [hnot, hread]

mutual

/-- What is printed is read back, given fuel for each of its characters. -/
theorem parseValue_render : ∀ (j : Json) {n : ℕ} {cs : List Char}, j.render.length < n →
    EndsNumber cs → parseValue n (j.render ++ cs) = some (j, cs)
  | .null, n + 1, cs, _, _ => by simp [render, parseValue, skipSpace_cons, isSpace, parseWord]
  | .bool true, n + 1, cs, _, _ => by
    simp [render, parseValue, skipSpace_cons, isSpace, parseWord]
  | .bool false, n + 1, cs, _, _ => by
    simp [render, parseValue, skipSpace_cons, isSpace, parseWord]
  | .number k, n + 1, cs, _, hc => by
    rw [render]
    exact parseNumber_head hc
  | .string s, n + 1, cs, h, _ => by
    have hlen : (renderString s).length ≤ n + 1 := by
      rw [render] at h
      omega
    rw [render, renderString, List.cons_append, parseValue, skipSpace_cons rfl, List.append_assoc]
    simp [parseChars_renderString hlen]
  | .array [], n + 1, cs, _, _ => by
    simp [render, renderElements, parseValue, skipSpace_cons, isSpace]
  | .array (x :: xs), n + 1, cs, h, _ => by
    have hlen : (renderElements (x :: xs)).length < n := by
      simpa [render] using h
    have hread : parseElements n (renderElements (x :: xs) ++ cs) = some (x :: xs, cs) :=
      parseElements_render x xs hlen
    obtain ⟨c, rest, hx, hspace, hne⟩ := exists_render x
    rw [render, List.cons_append, parseValue, skipSpace_cons rfl]
    simp only [hread]
    rw [renderElements, hx]
    simp [skipSpace_cons hspace, hne]
  | .object [], n + 1, cs, _, _ => by
    simp [render, renderMembers, parseValue, skipSpace_cons, isSpace]
  | .object ((k, x) :: m), n + 1, cs, h, _ => by
    have hlen : (renderMembers ((k, x) :: m)).length < n := by
      simpa [render] using h
    have hread : parseMembers n (renderMembers ((k, x) :: m) ++ cs) = some ((k, x) :: m, cs) :=
      parseMembers_render k x m hlen
    rw [render, List.cons_append, parseValue, skipSpace_cons rfl]
    simp only [hread]
    rw [renderMembers, renderString]
    simp [skipSpace_cons, isSpace]

theorem parseElements_render : ∀ (x : Json) (xs : List Json) {n : ℕ} {cs : List Char},
    (renderElements (x :: xs)).length < n →
      parseElements n (renderElements (x :: xs) ++ cs) = some (x :: xs, cs)
  | x, [], n + 1, cs, h => by
    have hlen : x.render.length < n := by
      simpa [renderElements, renderMoreElements] using h
    have hread := parseValue_render x hlen (endsNumber_cons (c := ']') rfl cs)
    rw [renderElements, renderMoreElements, List.append_assoc, parseElements]
    simp [hread, skipSpace_cons, isSpace]
  | x, y :: ys, n + 1, cs, h => by
    rw [renderElements, renderMoreElements_cons, List.length_append, List.length_cons] at h
    have hread := parseValue_render x (n := n) (by omega)
      (endsNumber_cons (c := ',') rfl (renderElements (y :: ys) ++ cs))
    have hrest : parseElements n (renderElements (y :: ys) ++ cs) = some (y :: ys, cs) :=
      parseElements_render y ys (by omega)
    rw [renderElements, renderMoreElements_cons, List.append_assoc, List.cons_append, parseElements]
    simp [hread, hrest, skipSpace_cons, isSpace]

theorem parseMembers_render : ∀ (k : String) (x : Json) (m : List (String × Json)) {n : ℕ}
    {cs : List Char}, (renderMembers ((k, x) :: m)).length < n →
      parseMembers n (renderMembers ((k, x) :: m) ++ cs) = some ((k, x) :: m, cs)
  | k, x, [], n + 1, cs, h => by
    rw [renderMembers, renderMoreMembers, List.length_append, List.length_cons,
      List.length_append] at h
    have hkey := parseKey_renderString (n := n) (k := k) (by omega) (x.render ++ '}' :: cs)
    have hread := parseValue_render x (n := n) (by omega) (endsNumber_cons (c := '}') rfl cs)
    rw [renderMembers, renderMoreMembers, List.append_assoc, List.cons_append, List.append_assoc,
      parseMembers]
    simp [hkey, hread, skipSpace_cons, isSpace]
  | k, x, (l, y) :: m, n + 1, cs, h => by
    rw [renderMembers, renderMoreMembers_cons, List.length_append, List.length_cons,
      List.length_append, List.length_cons] at h
    have hkey := parseKey_renderString (n := n) (k := k) (by omega)
      (x.render ++ ',' :: (renderMembers ((l, y) :: m) ++ cs))
    have hread := parseValue_render x (n := n) (by omega)
      (endsNumber_cons (c := ',') rfl (renderMembers ((l, y) :: m) ++ cs))
    have hrest : parseMembers n (renderMembers ((l, y) :: m) ++ cs) = some ((l, y) :: m, cs) :=
      parseMembers_render l y m (by omega)
    rw [renderMembers, renderMoreMembers_cons, List.append_assoc, List.cons_append,
      List.append_assoc, List.cons_append, parseMembers]
    simp [hkey, hread, hrest, skipSpace_cons, isSpace]

end

theorem parse_render (j : Json) : parse j.render = some j := by
  have h := parseValue_render j (n := j.render.length + 1) (Nat.lt_succ_self _) endsNumber_nil
  rw [List.append_nil] at h
  rw [parse, h]
  rfl

/-! ## Texts that break off -/

section
variable {p q r : List Char}

theorem skipSpace_append (h : skipSpace p ≠ []) : skipSpace (p ++ q) = skipSpace p ++ q := by
  rw [skipSpace, List.dropWhile_append, if_neg]
  · rfl
  · rw [List.isEmpty_iff]
    exact h

theorem skipSpace_head {c : Char} (h : (skipSpace p).head? = some c) :
    (skipSpace (p ++ q)).head? = some c ∧ (skipSpace (p ++ q)).tail = (skipSpace p).tail ++ q := by
  have hne : skipSpace p ≠ [] := by
    intro hnil
    rw [hnil] at h
    cases h
  rw [skipSpace_append hne, List.head?_append_of_ne_nil _ hne, List.tail_append_of_ne_nil hne]
  exact ⟨h, rfl⟩

theorem parseHex_append {c : Char} (h : parseHex p = some (c, r)) :
    parseHex (p ++ q) = some (c, r ++ q) := by
  rw [parseHex.eq_def] at h
  split at h
  · simp only [Option.bind_eq_bind, Option.bind_eq_some_iff, Option.ite_none_right_eq_some,
      Option.some.injEq, Prod.mk.injEq] at h
    obtain ⟨a, ha, b, hb, x, hx, y, hy, hvalid, rfl, rfl⟩ := h
    simp [parseHex, ha, hb, hx, hy, hvalid]
  · cases h

theorem parseChar_append {c : Char} (h : parseChar p = some (c, r)) :
    p ≠ [] ∧ parseChar (p ++ q) = some (c, r ++ q) := by
  cases p with
  | nil => cases h
  | cons a p =>
    refine ⟨List.cons_ne_nil a p, ?_⟩
    rw [parseChar.eq_def] at h
    simp only at h
    split at h
    · rename_i ha
      subst ha
      cases p with
      | nil => cases h
      | cons e p =>
        simp only at h
        split at h
        · rename_i he
          simp [parseChar, he, parseHex_append h]
        · rename_i he
          simp only [Option.map_eq_some_iff, Prod.mk.injEq] at h
          obtain ⟨d, hd, rfl, rfl⟩ := h
          simp [parseChar, he, hd]
    · rename_i ha
      split at h
      · cases h
      · rename_i hlt
        cases h
        simp [parseChar, ha, hlt]

theorem parseChars_append {n m : ℕ} {s : List Char} (h : parseChars n p = some (s, r))
    (hnm : n ≤ m) : parseChars m (p ++ q) = some (s, r ++ q) := by
  induction n generalizing m p s with
  | zero => cases h
  | succ n ih =>
    cases m with
    | zero => cases hnm
    | succ m =>
      rw [parseChars] at h ⊢
      split at h
      · rename_i hquote
        cases h
        have hne : p ≠ [] := by
          rintro rfl
          cases hquote
        rw [List.head?_append_of_ne_nil _ hne, if_pos hquote, List.tail_append_of_ne_nil hne]
      · rename_i hquote
        simp only [Option.bind_eq_bind, Option.bind_eq_some_iff, Option.pure_def, Option.some.injEq,
          Prod.mk.injEq, Prod.exists] at h
        obtain ⟨c, rest, hc, s', r', hs, rfl, rfl⟩ := h
        obtain ⟨hne, hc'⟩ := parseChar_append (q := q) hc
        rw [List.head?_append_of_ne_nil _ hne, if_neg hquote, hc']
        simp [ih hs (Nat.le_of_succ_le_succ hnm)]

theorem parseNat_append {n : ℕ} (h : parseNat p = some (n, r)) (hr : r ≠ []) :
    parseNat (p ++ q) = some (n, r ++ q) := by
  simp only [parseNat, Option.ite_none_right_eq_some, Option.some.injEq, Prod.mk.injEq] at h
  obtain ⟨hcanon, hn, hdrop⟩ := h
  have hlen : (p.takeWhile Char.isDigit).length ≠ p.length := by
    intro hlen
    have hsplit := congrArg List.length
      (List.takeWhile_append_dropWhile (p := Char.isDigit) (l := p))
    rw [List.length_append, hlen, hdrop] at hsplit
    exact hr (List.eq_nil_of_length_eq_zero (by omega))
  have htake : (p ++ q).takeWhile Char.isDigit = p.takeWhile Char.isDigit := by
    rw [List.takeWhile_append, if_neg hlen]
  have hdrop' : (p ++ q).dropWhile Char.isDigit = r ++ q := by
    rw [List.dropWhile_append, hdrop, if_neg (by simpa using hr)]
  simp only [parseNat, htake, hdrop', hn]
  rw [hn] at hcanon
  rw [if_pos hcanon]

theorem parseNumber_append {k : ℤ} (h : parseNumber p = some (k, r)) (hr : r ≠ []) :
    parseNumber (p ++ q) = some (k, r ++ q) := by
  cases p with
  | nil => cases h
  | cons c p =>
    rw [List.cons_append]
    by_cases hc : c = '-'
    · subst hc
      simp only [parseNumber, Option.map_eq_some_iff, Prod.mk.injEq, Prod.exists] at h ⊢
      obtain ⟨n, r', hn, rfl, rfl⟩ := h
      exact ⟨n, _, parseNat_append hn hr, rfl, rfl⟩
    · rw [parseNumber_cons hc] at h ⊢
      simp only [Option.map_eq_some_iff, Prod.mk.injEq, Prod.exists] at h ⊢
      obtain ⟨n, r', hn, rfl, rfl⟩ := h
      exact ⟨n, _, parseNat_append hn hr, rfl, rfl⟩

theorem parseWord_append {w : List Char} {x j : Json} (h : parseWord w x p = some (j, r)) :
    parseWord w x (p ++ q) = some (j, r ++ q) := by
  simp only [parseWord, Option.ite_none_right_eq_some, Option.some.injEq, Prod.mk.injEq,
    List.isPrefixOf_iff_prefix] at h ⊢
  obtain ⟨⟨rest, rfl⟩, rfl, rfl⟩ := h
  simp

theorem parseKey_append {n m : ℕ} {k : String} (h : parseKey n p = some (k, r)) (hnm : n ≤ m) :
    parseKey m (p ++ q) = some (k, r ++ q) := by
  simp only [parseKey, Option.bind_eq_some_iff, Option.ite_none_right_eq_some, Option.some.injEq,
    Prod.mk.injEq, Prod.exists] at h
  obtain ⟨hquote, s, rest, hs, hcolon, rfl, rfl⟩ := h
  obtain ⟨hquote', htail⟩ := skipSpace_head (q := q) hquote
  obtain ⟨hcolon', hrest⟩ := skipSpace_head (q := q) hcolon
  simp [parseKey, hquote', htail, parseChars_append hs hnm, hcolon', hrest]

/-- Only a number can go on when more follows. -/
def isNumber : Json → Bool
  | .number _ => true
  | _ => false

theorem skipSpace_of_parseValue {n : ℕ} {j : Json} (h : parseValue n p = some (j, r)) :
    skipSpace p ≠ [] := by
  cases n with
  | zero => cases h
  | succ n =>
    intro hnil
    simp [parseValue, hnil] at h

theorem skipSpace_of_parseElements {n : ℕ} {xs : List Json} (h : parseElements n p = some (xs, r)) :
    skipSpace p ≠ [] := by
  cases n with
  | zero => cases h
  | succ n =>
    simp only [parseElements, Option.bind_eq_bind, Option.bind_eq_some_iff, Prod.exists] at h
    obtain ⟨x, rest, hx, -⟩ := h
    exact skipSpace_of_parseValue hx

theorem skipSpace_of_parseMembers {n : ℕ} {m : List (String × Json)}
    (h : parseMembers n p = some (m, r)) : skipSpace p ≠ [] := by
  cases n with
  | zero => cases h
  | succ n =>
    simp only [parseMembers, Option.bind_eq_bind, Option.bind_eq_some_iff, Prod.exists] at h
    obtain ⟨k, rest, hk, -⟩ := h
    obtain ⟨hquote, -⟩ := Option.ite_none_right_eq_some.mp hk
    intro hnil
    simp [hnil] at hquote

theorem ne_nil_of_head {c : Char} (h : (skipSpace r).head? = some c) : r ≠ [] := by
  rintro rfl
  cases h

/-- What is read with fuel `n` stays the same when more follows. -/
structure Extends (n : ℕ) : Prop where
  value : ∀ {m : ℕ} {p q r : List Char} {j : Json}, parseValue n p = some (j, r) →
    (j.isNumber = true → r ≠ []) → n ≤ m → parseValue m (p ++ q) = some (j, r ++ q)
  elements : ∀ {m : ℕ} {p q r : List Char} {xs : List Json}, parseElements n p = some (xs, r) →
    n ≤ m → parseElements m (p ++ q) = some (xs, r ++ q)
  members : ∀ {m : ℕ} {p q r : List Char} {xs : List (String × Json)},
    parseMembers n p = some (xs, r) → n ≤ m → parseMembers m (p ++ q) = some (xs, r ++ q)

namespace Extends
variable {n m : ℕ} (ih : Extends n) (hnm : n ≤ m)
include ih hnm

theorem value_succ {j : Json} (h : parseValue (n + 1) p = some (j, r))
    (hnum : j.isNumber = true → r ≠ []) : parseValue (m + 1) (p ++ q) = some (j, r ++ q) := by
  have hne := skipSpace_of_parseValue h
  obtain ⟨c, rest, hskip⟩ := List.exists_cons_of_ne_nil hne
  rw [parseValue.eq_def] at h ⊢
  simp only at h ⊢
  rw [skipSpace_append hne, hskip, List.cons_append]
  rw [hskip] at h
  simp only at h ⊢
  split at h
  · rename_i hc
    simp only [Option.map_eq_some_iff, Prod.mk.injEq, Prod.exists] at h
    obtain ⟨s, r', hs, rfl, rfl⟩ := h
    rw [if_pos hc, parseChars_append hs hnm]
    rfl
  rename_i hquote
  rw [if_neg hquote]
  split at h
  · rename_i hc
    rw [if_pos hc]
    split at h
    · rename_i hclose
      cases h
      obtain ⟨hclose', htail⟩ := skipSpace_head (q := q) hclose
      rw [if_pos hclose', htail]
    · rename_i hclose
      simp only [Option.map_eq_some_iff, Prod.mk.injEq, Prod.exists] at h
      obtain ⟨xs, r', hxs, rfl, rfl⟩ := h
      have hrest := skipSpace_of_parseElements hxs
      rw [skipSpace_append hrest, List.head?_append_of_ne_nil _ hrest, if_neg hclose,
        ih.elements hxs hnm]
      rfl
  rename_i hbracket
  rw [if_neg hbracket]
  split at h
  · rename_i hc
    rw [if_pos hc]
    split at h
    · rename_i hclose
      cases h
      obtain ⟨hclose', htail⟩ := skipSpace_head (q := q) hclose
      rw [if_pos hclose', htail]
    · rename_i hclose
      simp only [Option.map_eq_some_iff, Prod.mk.injEq, Prod.exists] at h
      obtain ⟨xs, r', hxs, rfl, rfl⟩ := h
      have hrest := skipSpace_of_parseMembers hxs
      rw [skipSpace_append hrest, List.head?_append_of_ne_nil _ hrest, if_neg hclose,
        ih.members hxs hnm]
      rfl
  rename_i hbrace
  rw [if_neg hbrace]
  split at h
  · rename_i hc
    rw [if_pos hc, parseWord_append h]
  rename_i hnull
  rw [if_neg hnull]
  split at h
  · rename_i hc
    rw [if_pos hc, parseWord_append h]
  rename_i htrue
  rw [if_neg htrue]
  split at h
  · rename_i hc
    rw [if_pos hc, parseWord_append h]
  · rename_i hfalse
    simp only [Option.map_eq_some_iff, Prod.mk.injEq, Prod.exists] at h
    obtain ⟨k, r', hk, rfl, rfl⟩ := h
    rw [if_neg hfalse, ← List.cons_append, parseNumber_append hk (hnum rfl)]
    rfl

theorem elements_succ {xs : List Json} (h : parseElements (n + 1) p = some (xs, r)) :
    parseElements (m + 1) (p ++ q) = some (xs, r ++ q) := by
  simp only [parseElements, Option.bind_eq_bind, Option.bind_eq_some_iff, Prod.exists] at h ⊢
  obtain ⟨x, rest, hx, h⟩ := h
  split at h
  · rename_i hclose
    cases h
    obtain ⟨hclose', htail⟩ := skipSpace_head (q := q) hclose
    refine ⟨x, _, ih.value hx (fun _ => ne_nil_of_head hclose) hnm, ?_⟩
    rw [if_pos hclose', htail]
  · obtain ⟨hcomma, h⟩ := Option.ite_none_right_eq_some.mp h
    simp only [Option.map_eq_some_iff, Prod.mk.injEq, Prod.exists] at h
    obtain ⟨ys, r', hys, rfl, rfl⟩ := h
    obtain ⟨hcomma', htail⟩ := skipSpace_head (q := q) hcomma
    refine ⟨x, _, ih.value hx (fun _ => ne_nil_of_head hcomma) hnm, ?_⟩
    rw [if_neg (by rw [hcomma']; decide), if_pos hcomma', htail, ih.elements hys hnm]
    rfl

theorem members_succ {xs : List (String × Json)} (h : parseMembers (n + 1) p = some (xs, r)) :
    parseMembers (m + 1) (p ++ q) = some (xs, r ++ q) := by
  simp only [parseMembers, Option.bind_eq_bind, Option.bind_eq_some_iff, Prod.exists] at h ⊢
  obtain ⟨k, rest₀, hk, x, rest, hx, h⟩ := h
  refine ⟨k, _, parseKey_append hk hnm, ?_⟩
  split at h
  · rename_i hclose
    cases h
    obtain ⟨hclose', htail⟩ := skipSpace_head (q := q) hclose
    refine ⟨x, _, ih.value hx (fun _ => ne_nil_of_head hclose) hnm, ?_⟩
    rw [if_pos hclose', htail]
  · obtain ⟨hcomma, h⟩ := Option.ite_none_right_eq_some.mp h
    simp only [Option.map_eq_some_iff, Prod.mk.injEq, Prod.exists] at h
    obtain ⟨ys, r', hys, rfl, rfl⟩ := h
    obtain ⟨hcomma', htail⟩ := skipSpace_head (q := q) hcomma
    refine ⟨x, _, ih.value hx (fun _ => ne_nil_of_head hcomma) hnm, ?_⟩
    rw [if_neg (by rw [hcomma']; decide), if_pos hcomma', htail, ih.members hys hnm]
    rfl

end Extends

theorem extends_all (n : ℕ) : Extends n := by
  induction n with
  | zero => constructor <;> intros <;> contradiction
  | succ n ih =>
    constructor
    · intro m p q r j h hnum hnm
      cases m with
      | zero => cases hnm
      | succ m => exact ih.value_succ (Nat.le_of_succ_le_succ hnm) h hnum
    · intro m p q r xs h hnm
      cases m with
      | zero => cases hnm
      | succ m => exact ih.elements_succ (Nat.le_of_succ_le_succ hnm) h
    · intro m p q r xs h hnm
      cases m with
      | zero => cases hnm
      | succ m => exact ih.members_succ (Nat.le_of_succ_le_succ hnm) h

/-- What stands at the head of a tree that is not a number. -/
def heads : List Char := ['"', '[', '{', 'n', 't', 'f']

theorem head_render {j : Json} (h : j.isNumber = false) :
    ∃ c ∈ heads, ∃ cs, j.render = c :: cs := by
  cases j with
  | null => exact ⟨'n', by decide, _, by rw [render]⟩
  | bool b =>
    cases b with
    | true => exact ⟨'t', by decide, _, by rw [render]⟩
    | false => exact ⟨'f', by decide, _, by rw [render]⟩
  | number n => cases h
  | string s => exact ⟨'"', by decide, _, by rw [render, renderString]⟩
  | array xs => exact ⟨'[', by decide, _, by rw [render]⟩
  | object m => exact ⟨'{', by decide, _, by rw [render]⟩

theorem isSpace_of_mem_heads {c : Char} (h : c ∈ heads) : isSpace c = false := by
  simp only [heads, List.mem_cons, List.not_mem_nil, or_false] at h
  rcases h with rfl | rfl | rfl | rfl | rfl | rfl <;> rfl

/-- A number is not read from such a text. -/
theorem isNumber_of_heads {n : ℕ} {c : Char} {cs : List Char} {j : Json} (hc : c ∈ heads)
    (h : parseValue n (c :: cs) = some (j, r)) : j.isNumber = false := by
  cases j with
  | number k =>
    cases n with
    | zero => cases h
    | succ n =>
      rw [parseValue, skipSpace_cons (isSpace_of_mem_heads hc)] at h
      simp only [heads, List.mem_cons, List.not_mem_nil, or_false] at hc
      rcases hc with rfl | rfl | rfl | rfl | rfl | rfl <;> simp [parseWord] at h <;>
        split at h <;> simp at h
  | _ => rfl

/-- A text that breaks off is not read. -/
theorem parse_cut {j : Json} (hj : j.isNumber = false) (h : p <+: j.render) (hne : p ≠ j.render) :
    parse p = none := by
  rw [Option.eq_none_iff_forall_ne_some]
  intro k hk
  obtain ⟨q, hq⟩ := h
  simp only [parse, Option.bind_eq_bind, Option.bind_eq_some_iff, Prod.exists,
    Option.ite_none_right_eq_some] at hk
  obtain ⟨j', rest, hread, -⟩ := hk
  have hnum : j'.isNumber = false := by
    obtain ⟨c, hc, cs, hrender⟩ := head_render hj
    cases p with
    | nil => exact absurd rfl (skipSpace_of_parseValue hread)
    | cons d p =>
      rw [hrender, List.cons_append, List.cons.injEq] at hq
      exact isNumber_of_heads (hq.1 ▸ hc) hread
  have hlong : (p ++ q).length + 1 = j.render.length + 1 := by rw [hq]
  have hmore := (extends_all _).value (q := q) (m := j.render.length + 1) hread
    (by simp [hnum]) (by rw [← hlong, List.length_append]; omega)
  have hall := parseValue_render j (n := j.render.length + 1) (Nat.lt_succ_self _) endsNumber_nil
  rw [hq] at hmore
  rw [List.append_nil, hmore, Option.some.injEq, Prod.mk.injEq, List.append_eq_nil_iff] at hall
  refine hne ?_
  rw [← hq, hall.2.2, List.append_nil]

end

/-! ## Lines -/

/-- No control characters, and no line break among them. -/
def Printable (cs : List Char) : Prop := ∀ c ∈ cs, 32 ≤ c.toNat

theorem printable_nil : Printable [] := by
  intro c hc
  cases hc

theorem printable_cons {c : Char} {cs : List Char} :
    Printable (c :: cs) ↔ 32 ≤ c.toNat ∧ Printable cs := List.forall_mem_cons

theorem printable_append {cs ds : List Char} :
    Printable (cs ++ ds) ↔ Printable cs ∧ Printable ds := List.forall_mem_append

theorem printable_digit {c : Char} (h : c.isDigit = true) : 32 ≤ c.toNat := by
  have hge := (Char.isDigit_iff_toNat.mp h).1
  exact le_trans (by decide) hge

theorem printable_escape (c : Char) : Printable (escape c) := by
  have hhex : ∀ d < 16, 32 ≤ (Nat.digitChar d).toNat := by decide
  rw [escape]
  iterate 7 (split <;> [simp [printable_cons, printable_nil]; skip])
  split
  · rename_i h
    have hhigh := hhex (c.toNat / 16) (by omega)
    have hlow := hhex (c.toNat % 16) (by omega)
    simp [printable_cons, printable_nil, hexDigits, hhigh, hlow]
  · rename_i h
    exact printable_cons.mpr ⟨Nat.le_of_not_lt h, printable_nil⟩

theorem printable_renderString (s : String) : Printable (renderString s) := by
  rw [renderString, printable_cons, printable_append]
  refine ⟨by decide, ?_, by simp [Printable]⟩
  intro c hc
  obtain ⟨d, -, hd⟩ := List.mem_flatMap.mp hc
  exact printable_escape d c hd

theorem printable_renderNumber (n : ℤ) : Printable (renderNumber n) := by
  have hdigits : ∀ n : ℕ, Printable (Nat.toDigits 10 n) := by
    intro n c hc
    exact printable_digit (Nat.isDigit_of_mem_toDigits (by decide) (by decide) hc)
  cases n with
  | ofNat n => exact hdigits n
  | negSucc n => exact printable_cons.mpr ⟨by decide, hdigits (n + 1)⟩

mutual

/-- A printed tree is one line. -/
theorem printable_render : ∀ j : Json, Printable j.render
  | .null => by simp [render, Printable]
  | .bool true => by simp [render, Printable]
  | .bool false => by simp [render, Printable]
  | .number n => by
    rw [render]
    exact printable_renderNumber n
  | .string s => by
    rw [render]
    exact printable_renderString s
  | .array xs => by
    rw [render]
    exact printable_cons.mpr ⟨by decide, printable_renderElements xs⟩
  | .object m => by
    rw [render]
    exact printable_cons.mpr ⟨by decide, printable_renderMembers m⟩

theorem printable_renderElements : ∀ xs : List Json, Printable (renderElements xs)
  | [] => by simp [renderElements, Printable]
  | [x] => by
    rw [renderElements, renderMoreElements]
    exact printable_append.mpr ⟨printable_render x, by simp [Printable]⟩
  | x :: y :: ys => by
    rw [renderElements, renderMoreElements_cons]
    exact printable_append.mpr ⟨printable_render x,
      printable_cons.mpr ⟨by decide, printable_renderElements (y :: ys)⟩⟩

theorem printable_renderMembers : ∀ m : List (String × Json), Printable (renderMembers m)
  | [] => by simp [renderMembers, Printable]
  | [(k, x)] => by
    rw [renderMembers, renderMoreMembers]
    exact printable_append.mpr ⟨printable_renderString k, printable_cons.mpr ⟨by decide,
      printable_append.mpr ⟨printable_render x, by simp [Printable]⟩⟩⟩
  | (k, x) :: (l, y) :: m => by
    rw [renderMembers, renderMoreMembers_cons]
    exact printable_append.mpr ⟨printable_renderString k, printable_cons.mpr ⟨by decide,
      printable_append.mpr ⟨printable_render x,
        printable_cons.mpr ⟨by decide, printable_renderMembers ((l, y) :: m)⟩⟩⟩⟩

end

/-- What stands at the end of a tree that is not a number. -/
def lasts : List Char := ['"', ']', '}', 'l', 'e']

theorem getLast?_renderElements (xs : List Json) : (renderElements xs).getLast? = some ']' := by
  cases xs with
  | nil => rw [renderElements]; rfl
  | cons x xs =>
    induction xs generalizing x with
    | nil => simp [renderElements, renderMoreElements]
    | cons y ys ih =>
      rw [renderElements, renderMoreElements_cons, List.getLast?_append, List.getLast?_cons, ih y]
      rfl

theorem getLast?_renderMembers (m : List (String × Json)) :
    (renderMembers m).getLast? = some '}' := by
  cases m with
  | nil => rw [renderMembers]; rfl
  | cons e m =>
    induction m generalizing e with
    | nil =>
      simp [renderMembers, renderMoreMembers, List.getLast?_append, List.getLast?_cons]
    | cons e' m ih =>
      rw [renderMembers, renderMoreMembers_cons, List.getLast?_append, List.getLast?_cons,
        List.getLast?_append, List.getLast?_cons, ih e']
      rfl

theorem getLast?_render {j : Json} (h : j.isNumber = false) :
    ∃ c ∈ lasts, j.render.getLast? = some c := by
  cases j with
  | null => exact ⟨'l', by decide, by rw [render]; rfl⟩
  | bool b => cases b <;> exact ⟨'e', by decide, by rw [render]; rfl⟩
  | number n => cases h
  | string s => exact ⟨'"', by decide, by simp [render, renderString, List.getLast?_cons]⟩
  | array xs =>
    exact ⟨']', by decide, by rw [render, List.getLast?_cons, getLast?_renderElements]; rfl⟩
  | object m =>
    exact ⟨'}', by decide, by rw [render, List.getLast?_cons, getLast?_renderMembers]; rfl⟩

end Json
end Pmd.Foundation
