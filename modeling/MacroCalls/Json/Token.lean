import MacroCalls.Json.Basic

/-!
# JSON tokens

The text of a JSON value is a sequence of tokens with blanks around them: brackets, braces,
commas, colons, strings, and the words and numbers that are values by themselves. Strings are
unescaped here. Escaped surrogate halves that do not pair up, and bytes that are not valid UTF-8,
become the replacement character each.
-/

namespace MacroCalls.Json

open Text

/-- A token of a JSON text. -/
inductive Token where
  | arrayOpen
  | arrayClose
  | objectOpen
  | objectClose
  | comma
  | colon
  | string (s : Text)
  /-- `null`, a truth value or a number. -/
  | atom (j : Json)
  deriving Repr

/-- Blank bytes between tokens: space, tab, line feed and carriage return. -/
def isBlank (b : UInt8) : Bool := b == 0x20 || b == 0x09 || b == newline || b == carriageReturn

/-- Decimal digits. -/
def isDigit (b : UInt8) : Bool := 0x30 ≤ b && b ≤ 0x39

/-! ### Strings -/

/-- The value of a hexadecimal digit, in either case. -/
def hexValue? (b : UInt8) : Option Nat :=
  if isDigit b then some (b.toNat - 0x30)
  else if 0x61 ≤ b && b ≤ 0x66 then some (b.toNat - 0x61 + 10)
  else if 0x41 ≤ b && b ≤ 0x46 then some (b.toNat - 0x41 + 10)
  else none

/-- The number that the four hexadecimal digits at the start of a text spell. -/
def hex4? : Text → Option Nat
  | a :: b :: c :: d :: _ => do
    return (((← hexValue? a) * 16 + (← hexValue? b)) * 16 + (← hexValue? c)) * 16 + (← hexValue? d)
  | _ => none

/-- The number behind an escaped code unit at the start of a text. -/
def escapedUnit? : Text → Option Nat
  | b :: c :: rest => if b = backslash ∧ c = 0x75 then hex4? rest else none
  | _ => none

/-- The first half of a surrogate pair. -/
def isHighSurrogate (n : Nat) : Bool := 0xD800 ≤ n && n < 0xDC00

/-- The second half of a surrogate pair. -/
def isLowSurrogate (n : Nat) : Bool := 0xDC00 ≤ n && n < 0xE000

/-- The scalar value of an escaped code unit and the number of bytes read after the unit: a high
surrogate takes a low one with it, and a half alone is replaced. -/
def unitScalar (unit : Nat) (rest : Text) : Char × Nat :=
  if isHighSurrogate unit then
    match escapedUnit? rest with
    | some low =>
      if isLowSurrogate low then
        (Char.ofNat (0x10000 + (unit - 0xD800) * 0x400 + (low - 0xDC00)), 6)
      else (Glyph.replacement, 0)
    | none => (Glyph.replacement, 0)
  else if isLowSurrogate unit then (Glyph.replacement, 0)
  else (Char.ofNat unit, 0)

/-- The scalar value of an escape, the backslash left out, and the number of bytes it takes. -/
def escape? : Text → Option (Char × Nat)
  | [] => none
  | b :: rest =>
    if b = quoteMark ∨ b = backslash ∨ b = 0x2F then some (Char.ofNat b.toNat, 1)
    else if b = 0x62 then some (Char.ofNat 0x08, 1)
    else if b = 0x66 then some (Char.ofNat 0x0C, 1)
    else if b = 0x6E then some (Char.ofNat 0x0A, 1)
    else if b = 0x72 then some (Char.ofNat 0x0D, 1)
    else if b = 0x74 then some (Char.ofNat 0x09, 1)
    else if b = 0x75 then
      (hex4? rest).map fun unit =>
        let (c, more) := unitScalar unit (rest.drop 4)
        (c, 5 + more)
    else none

/-- The text that the bytes between two quotes stand for. -/
def unescape? : Text → Option Text
  | [] => some []
  | b :: rest =>
    if b = backslash then
      match escape? rest with
      | some (c, n) => (unescape? (rest.drop n)).map (Glyph.encode c ++ ·)
      | none => none
    else
      let x := Glyph.first b rest
      (unescape? (rest.drop (x.width - 1))).map (Glyph.encode x.char ++ ·)
termination_by t => t.length
decreasing_by all_goals exact length_drop_lt_length_cons ..

/-- The bytes up to the quote that closes a string, and the rest behind it. Controls may not stand
in a string, and a quote behind a backslash does not close it. -/
def stringBody? : Text → Option (Text × Text)
  | [] => none
  | b :: rest =>
    if b = quoteMark then some ([], rest)
    else if b < 0x20 then none
    else if b = backslash then
      match rest with
      | [] => none
      | c :: rest => (stringBody? rest).map fun (body, after) => (b :: c :: body, after)
    else (stringBody? rest).map fun (body, after) => (b :: body, after)

/-! ### Numbers -/

/-- One or more digits at the start of a text, and the rest. -/
def digits? (t : Text) : Option (Text × Text) :=
  if (t.takeWhile isDigit).isEmpty then none else some (t.takeWhile isDigit, t.dropWhile isDigit)

/-- The integer part of a number without its sign: no digits come after a leading zero. -/
def whole? : Text → Option (Text × Text)
  | [] => none
  | b :: rest => if b = 0x30 then some ([b], rest) else digits? (b :: rest)

/-- The fraction of a number, if a point announces one. -/
def fraction? : Text → Option (Text × Text)
  | [] => some ([], [])
  | b :: rest =>
    if b = 0x2E then (digits? rest).map fun (ds, after) => (b :: ds, after)
    else some ([], b :: rest)

/-- The sign of an exponent, if there is one. -/
def exponentSign : Text → Text × Text
  | [] => ([], [])
  | b :: rest => if b = 0x2B ∨ b = 0x2D then ([b], rest) else ([], b :: rest)

/-- The exponent of a number, if a letter announces one. -/
def exponent? : Text → Option (Text × Text)
  | [] => some ([], [])
  | b :: rest =>
    if b = 0x65 ∨ b = 0x45 then
      (digits? (exponentSign rest).2).map fun (ds, after) =>
        (b :: (exponentSign rest).1 ++ ds, after)
    else some ([], b :: rest)

/-- The number at the start of a text without its sign, as it is spelled, and the rest. -/
def unsigned? (t : Text) : Option (Text × Text) := do
  let (whole, t) ← whole? t
  let (fraction, t) ← fraction? t
  let (exponent, t) ← exponent? t
  return (whole ++ fraction ++ exponent, t)

/-- The number at the start of a text, as it is spelled, and the rest. -/
def number? : Text → Option (Text × Text)
  | [] => none
  | b :: rest =>
    if b = 0x2D then (unsigned? rest).map fun (lexeme, after) => (b :: lexeme, after)
    else unsigned? (b :: rest)

/-! ### The tokens of a text -/

/-- The token that is a single byte. -/
def Token.mark? (b : UInt8) : Option Token :=
  if b = 0x5B then some arrayOpen
  else if b = 0x5D then some arrayClose
  else if b = openBrace then some objectOpen
  else if b = closeBrace then some objectClose
  else if b = 0x2C then some comma
  else if b = 0x3A then some colon
  else none

/-- The string at the start of a text, and the rest. -/
def Token.string? : Text → Option (Token × Text)
  | [] => none
  | b :: rest =>
    if b = quoteMark then
      (stringBody? rest).bind fun (body, after) => (unescape? body).map (string ·, after)
    else none

/-- The words that are values. -/
def words : List (Text × Json) :=
  [(ascii "null", null), (ascii "true", bool true), (ascii "false", bool false)]

/-- The word at the start of a text, and the rest. -/
def Token.word? (t : Text) : Option (Token × Text) :=
  words.findSome? fun (word, j) => if word <+: t then some (atom j, t.drop word.length) else none

/-- The number at the start of a text, and the rest. -/
def Token.number? (t : Text) : Option (Token × Text) :=
  (Json.number? t).map fun (lexeme, after) => (atom (number lexeme), after)

/-- The token at the start of a text that does not start with a blank, and the rest. -/
def Token.first? : Text → Option (Token × Text)
  | [] => none
  | b :: rest =>
    match mark? b with
    | some k => some (k, rest)
    | none => ((string? (b :: rest)).or (word? (b :: rest))).or (number? (b :: rest))

theorem stringBody?_length {t body after : Text} (h : stringBody? t = some (body, after)) :
    after.length < t.length := by
  fun_induction stringBody? t generalizing body after with
  | case1 => cases h
  | case2 => cases h; simp
  | case3 => cases h
  | case4 => cases h
  | case5 =>
    rename_i ih
    obtain ⟨⟨body', after'⟩, h', heq⟩ := Option.map_eq_some_iff.mp h
    cases heq
    have := ih h'
    simp
    omega
  | case6 =>
    rename_i ih
    obtain ⟨⟨body', after'⟩, h', heq⟩ := Option.map_eq_some_iff.mp h
    cases heq
    have := ih h'
    simp
    omega

theorem digits?_length {t ds after : Text} (h : digits? t = some (ds, after)) :
    after.length < t.length := by
  unfold digits? at h
  split at h <;> cases h
  rename_i hne
  have hpos : 0 < (t.takeWhile isDigit).length := List.length_pos_iff.mpr (by simpa using hne)
  have hsum : (t.takeWhile isDigit).length + (t.dropWhile isDigit).length = t.length := by
    rw [← List.length_append, List.takeWhile_append_dropWhile]
  omega

theorem whole?_length {t w after : Text} (h : whole? t = some (w, after)) :
    after.length < t.length := by
  cases t with
  | nil => cases h
  | cons b rest =>
    simp only [whole?] at h
    split at h
    · cases h; simp
    · exact digits?_length h

theorem fraction?_length {t f after : Text} (h : fraction? t = some (f, after)) :
    after.length ≤ t.length := by
  cases t with
  | nil => cases h; simp
  | cons b rest =>
    simp only [fraction?] at h
    split at h
    · obtain ⟨⟨ds, after'⟩, h', heq⟩ := Option.map_eq_some_iff.mp h
      cases heq
      have := digits?_length h'
      simp
      omega
    · cases h; simp

theorem length_exponentSign_le (t : Text) : (exponentSign t).2.length ≤ t.length := by
  unfold exponentSign
  split
  · simp
  · split <;> simp

theorem exponent?_length {t e after : Text} (h : exponent? t = some (e, after)) :
    after.length ≤ t.length := by
  cases t with
  | nil => cases h; simp
  | cons b rest =>
    simp only [exponent?] at h
    split at h
    · obtain ⟨⟨ds, after'⟩, h', heq⟩ := Option.map_eq_some_iff.mp h
      cases heq
      have := digits?_length h'
      have := length_exponentSign_le rest
      simp
      omega
    · cases h; simp

theorem unsigned?_length {t lexeme after : Text} (h : unsigned? t = some (lexeme, after)) :
    after.length < t.length := by
  simp only [unsigned?, Option.bind_eq_bind, Option.bind_eq_some_iff] at h
  obtain ⟨⟨w, t₁⟩, hw, ⟨f, t₂⟩, hf, ⟨e, t₃⟩, he, heq⟩ := h
  cases heq
  exact Nat.lt_of_le_of_lt (Nat.le_trans (exponent?_length he) (fraction?_length hf))
    (whole?_length hw)

theorem number?_length {t lexeme after : Text} (h : number? t = some (lexeme, after)) :
    after.length < t.length := by
  cases t with
  | nil => cases h
  | cons b rest =>
    simp only [number?] at h
    split at h
    · obtain ⟨⟨l, after'⟩, h', heq⟩ := Option.map_eq_some_iff.mp h
      cases heq
      have := unsigned?_length h'
      simp
      omega
    · exact unsigned?_length h

theorem Token.string?_length {t after : Text} {k : Token} (h : Token.string? t = some (k, after)) :
    after.length < t.length := by
  cases t with
  | nil => cases h
  | cons b rest =>
    simp only [Token.string?] at h
    split at h
    · obtain ⟨⟨body, after'⟩, hbody, h⟩ := Option.bind_eq_some_iff.mp h
      obtain ⟨s, -, heq⟩ := Option.map_eq_some_iff.mp h
      cases heq
      have := stringBody?_length hbody
      simp
      omega
    · cases h

theorem Token.word?_length {t after : Text} {k : Token} (h : Token.word? t = some (k, after)) :
    after.length < t.length := by
  obtain ⟨⟨word, j⟩, hmem, h⟩ := List.exists_of_findSome?_eq_some h
  simp only at h
  split at h <;> cases h
  rename_i hw
  have hpos : 0 < word.length := by
    simp only [words, List.mem_cons, Prod.mk.injEq, List.not_mem_nil, or_false] at hmem
    rcases hmem with ⟨rfl, -⟩ | ⟨rfl, -⟩ | ⟨rfl, -⟩ <;> decide
  have := hw.length_le
  simp
  omega

/-- A token takes something off the text. -/
theorem Token.first?_length {t after : Text} {k : Token} (h : Token.first? t = some (k, after)) :
    after.length < t.length := by
  cases t with
  | nil => cases h
  | cons b rest =>
    simp only [Token.first?] at h
    split at h
    · cases h; simp
    · simp only [Option.or_eq_some_iff] at h
      rcases h with (h | ⟨-, h⟩) | ⟨-, h⟩
      · exact string?_length h
      · exact word?_length h
      · obtain ⟨⟨lexeme, after'⟩, h', heq⟩ := Option.map_eq_some_iff.mp h
        cases heq
        exact number?_length h'

theorem length_lt_of_first? {t rest after : Text} {b : UInt8} {k : Token}
    (h : t.dropWhile isBlank = b :: rest) (hk : Token.first? (b :: rest) = some (k, after)) :
    after.length < t.length :=
  Nat.lt_of_lt_of_le (Token.first?_length hk) (h ▸ length_dropWhile_le isBlank t)

/-- The tokens of a text with blanks around them, if it has no other parts. -/
def tokens? (t : Text) : Option (List Token) :=
  match h : t.dropWhile isBlank with
  | [] => some []
  | b :: rest =>
    match hk : Token.first? (b :: rest) with
    | none => none
    | some (k, after) =>
      have : after.length < t.length := length_lt_of_first? h hk
      (tokens? after).map (k :: ·)
termination_by t.length

end MacroCalls.Json
