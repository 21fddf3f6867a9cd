import Spreadsheet.Json.Basic
import Spreadsheet.Json.Number

/-!
# Tokens of a JSON document

* `Token` is a bracket, a comma, a colon or a value without parts.
* `tokenize?` splits a document into tokens, or finds that it is none.
* `lexeme?_rest_le`: a token takes at least one character, so `tokenize?` ends.
-/

namespace Spreadsheet.Json

/-- One word of a JSON document. -/
inductive Token where
  | openBrace
  | closeBrace
  | openBracket
  | closeBracket
  | comma
  | colon
  | scalar (value : Json)

/-- The four characters that may stand between tokens. -/
def isSpace (c : Char) : Bool :=
  c == ' ' || c == '\n' || c == '\t' || c == '\r'

/-! ## Strings -/

/-- The value of a hexadecimal digit. -/
def hexValue? (c : Char) : Option Nat :=
  if Decimal.isDigit c then some (Digits.digitValue c)
  else if 'a' ≤ c && c ≤ 'f' then some (c.toNat - 'a'.toNat + 10)
  else if 'A' ≤ c && c ≤ 'F' then some (c.toNat - 'A'.toNat + 10)
  else none

/-- Four hexadecimal digits and the characters after them. -/
def readHex4? : List Char → Option (Nat × List Char)
  | a :: b :: c :: d :: cs => do
    let a ← hexValue? a
    let b ← hexValue? b
    let c ← hexValue? c
    let d ← hexValue? d
    return (((a * 16 + b) * 16 + c) * 16 + d, cs)
  | _ => none

/-- The unit is the first half of a surrogate pair. -/
def isHighSurrogate (n : Nat) : Bool :=
  0xD800 ≤ n && n ≤ 0xDBFF

/-- The unit is the second half of a surrogate pair. -/
def isLowSurrogate (n : Nat) : Bool :=
  0xDC00 ≤ n && n ≤ 0xDFFF

/-- The character of a `\u` escape, after its `u`. A surrogate is written as a pair of escapes,
    first half first. -/
def readUnicode? (cs : List Char) : Option (Char × List Char) :=
  match readHex4? cs with
  | none => none
  | some (high, cs) =>
    if isLowSurrogate high then none
    else if isHighSurrogate high then
      match cs with
      | '\\' :: 'u' :: cs =>
        match readHex4? cs with
        | some (low, cs) =>
          if isLowSurrogate low then
            some (Char.ofNat (0x10000 + (high - 0xD800) * 0x400 + (low - 0xDC00)), cs)
          else
            none
        | none => none
      | _ => none
    else
      some (Char.ofNat high, cs)

/-- The character of an escape of two characters, by the second one. -/
def shortEscape? : Char → Option Char
  | '"' => some '"'
  | '\\' => some '\\'
  | '/' => some '/'
  | 'b' => some '\x08'
  | 'f' => some '\x0c'
  | 'n' => some '\n'
  | 'r' => some '\r'
  | 't' => some '\t'
  | _ => none

/-- The character of an escape, after its backslash. -/
def readEscape? : List Char → Option (Char × List Char)
  | [] => none
  | c :: cs =>
    if c == 'u' then readUnicode? cs else (shortEscape? c).map fun escaped => (escaped, cs)

theorem readHex4?_rest_le {cs rest : List Char} {n : Nat} (h : readHex4? cs = some (n, rest)) :
    rest.length ≤ cs.length := by
  unfold readHex4? at h
  split at h
  · simp only [Option.bind_eq_bind, Option.bind_eq_some_iff, Option.pure_def, Option.some.injEq,
      Prod.mk.injEq] at h
    obtain ⟨_, -, _, -, _, -, _, -, -, rfl⟩ := h
    simp only [List.length_cons]
    omega
  · simp at h

theorem readUnicode?_rest_le {cs rest : List Char} {c : Char}
    (h : readUnicode? cs = some (c, rest)) : rest.length ≤ cs.length := by
  unfold readUnicode? at h
  split at h
  · simp at h
  · rename_i hhigh
    have hle := readHex4?_rest_le hhigh
    split at h
    · simp at h
    split at h
    · split at h
      · split at h
        · rename_i hlow
          have hle' := readHex4?_rest_le hlow
          simp only [List.length_cons] at hle
          split at h
          · simp only [Option.some.injEq, Prod.mk.injEq] at h
            rw [← h.2]
            omega
          · simp at h
        · simp at h
      · simp at h
    · simp only [Option.some.injEq, Prod.mk.injEq] at h
      rw [← h.2]
      exact hle

theorem readEscape?_rest_lt {cs rest : List Char} {c : Char}
    (h : readEscape? cs = some (c, rest)) : rest.length < cs.length := by
  unfold readEscape? at h
  split at h
  · simp at h
  · split at h
    · exact Nat.lt_succ_of_le (readUnicode?_rest_le h)
    · obtain ⟨_, -, heq⟩ := Option.map_eq_some_iff.1 h
      simp only [Prod.mk.injEq] at heq
      simp [heq.2]

/-- A string after its opening quote, with the characters `done` read before in reverse: the whole
    string and the characters after its closing quote. Control characters have to be escaped. -/
def readString? (done : List Char) (cs : List Char) : Option (String × List Char) :=
  match cs with
  | [] => none
  | c :: cs =>
    if c == '"' then some (String.ofList done.reverse, cs)
    else if c == '\\' then
      match h : readEscape? cs with
      | none => none
      | some (escaped, rest) =>
        have := readEscape?_rest_lt h
        readString? (escaped :: done) rest
    else if c.toNat < 0x20 then none
    else readString? (c :: done) cs
termination_by cs.length

theorem readString?_rest_lt {done cs rest : List Char} {s : String}
    (h : readString? done cs = some (s, rest)) : rest.length < cs.length := by
  fun_induction readString? done cs with
  | case1 => simp at h
  | case2 =>
    simp only [Option.some.injEq, Prod.mk.injEq] at h
    simp [h.2]
  | case3 => simp at h
  | case4 done c cs _ _ escaped after hescape hlt ih =>
    have := ih h
    simp only [List.length_cons]
    omega
  | case5 => simp at h
  | case6 done c cs _ _ _ ih =>
    have := ih h
    simp only [List.length_cons]
    omega

/-! ## One token -/

/-- The word and the characters after it, if the text starts with it. -/
def readWord? (word : String) (value : Json) (cs : List Char) : Option (Token × List Char) :=
  if word.toList.isPrefixOf cs then some (.scalar value, cs.drop word.toList.length) else none

/-- The bracket, comma or colon that a character is. -/
def punctuation? : Char → Option Token
  | '\x7b' => some .openBrace
  | '\x7d' => some .closeBrace
  | '[' => some .openBracket
  | ']' => some .closeBracket
  | ',' => some .comma
  | ':' => some .colon
  | _ => none

/-- The token that starts with `c`, which is not a space, and the characters after it. -/
def lexeme? (c : Char) (cs : List Char) : Option (Token × List Char) :=
  match punctuation? c with
  | some token => some (token, cs)
  | none =>
    if c == '"' then (readString? [] cs).map fun (s, rest) => (.scalar (.string s), rest)
    else if c == 't' then readWord? "rue" (.bool true) cs
    else if c == 'f' then readWord? "alse" (.bool false) cs
    else if c == 'n' then readWord? "ull" .null cs
    else (readNumber? (c :: cs)).map fun (text, rest) =>
      (.scalar (.number (String.ofList text)), rest)

theorem readWord?_rest_le {word : String} {value : Json} {cs rest : List Char} {t : Token}
    (h : readWord? word value cs = some (t, rest)) : rest.length ≤ cs.length := by
  unfold readWord? at h
  split at h
  · simp only [Option.some.injEq, Prod.mk.injEq] at h
    rw [← h.2, List.length_drop]
    omega
  · simp at h

/-- A token takes at least its first character. -/
theorem lexeme?_rest_le {c : Char} {cs rest : List Char} {t : Token}
    (h : lexeme? c cs = some (t, rest)) : rest.length ≤ cs.length := by
  unfold lexeme? at h
  split at h
  · simp only [Option.some.injEq, Prod.mk.injEq] at h
    exact Nat.le_of_eq (congrArg List.length h.2.symm)
  · split at h
    · obtain ⟨⟨_, _⟩, hs, heq⟩ := Option.map_eq_some_iff.1 h
      simp only [Prod.mk.injEq] at heq
      rw [← heq.2]
      exact Nat.le_of_lt (readString?_rest_lt hs)
    split at h
    · exact readWord?_rest_le h
    split at h
    · exact readWord?_rest_le h
    split at h
    · exact readWord?_rest_le h
    · obtain ⟨⟨_, _⟩, hn, heq⟩ := Option.map_eq_some_iff.1 h
      simp only [Prod.mk.injEq] at heq
      rw [← heq.2]
      exact Nat.le_of_lt_succ (readNumber?_rest_lt hn)

/-! ## All tokens -/

/-- The tokens of the characters, after the tokens `done` in reverse. -/
def tokenizeAfter? (done : List Token) : List Char → Option (List Token)
  | [] => some done.reverse
  | c :: cs =>
    if isSpace c then tokenizeAfter? done cs
    else
      match h : lexeme? c cs with
      | none => none
      | some (t, rest) =>
        have := lexeme?_rest_le h
        tokenizeAfter? (t :: done) rest
termination_by cs => cs.length

/-- The tokens of a document. -/
def tokenize? (cs : List Char) : Option (List Token) :=
  tokenizeAfter? [] cs

end Spreadsheet.Json
