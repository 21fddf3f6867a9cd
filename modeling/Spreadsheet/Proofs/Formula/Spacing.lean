import Mathlib.Data.List.Chain
import Spreadsheet.Proofs.Formula.Tokens
import Spreadsheet.Proofs.Text.Blank

/-!
# Blanks between the words of a formula

In a tree a number or a cell is followed by an operator, a closing parenthesis or nothing. So its
tokens stay apart with no blanks between them, and blanks may be added wherever a word ends.

Results:
* `Expr.flatten_words`: a tree prints as its words, with nothing between them.
* `tokenize_spaced`: the words of a tree are read as its tokens, whatever blanks stand between them.
* `tokenize_print`: a tree prints as its tokens.
* `trimBlank_formula`: trimming keeps the words of a formula and their order.
-/

namespace Spreadsheet.Formula

/-! ## Words -/

/-- The words of a token, between which blanks may stand. A sheet name has two, itself and its
    exclamation mark. -/
def Token.words : Token → List (List Char)
  | sheet name => [name.print, ['!']]
  | t => [t.print]

/-- The words of a tree. -/
def Expr.words (e : Expr) : List (List Char) :=
  e.tokens.flatMap Token.words

theorem Token.flatten_words (t : Token) : t.words.flatten = t.print := by
  cases t <;> simp [words, print]

/-- A tree prints as its words, with nothing between them. -/
theorem Expr.flatten_words (e : Expr) : e.words.flatten = e.print := by
  have hprint : e.tokens.flatMap Token.print = e.print := by
    induction e with
    | ref r =>
      obtain ⟨_ | sheet, address⟩ := r <;>
        simp [tokens, Reference.tokens, Expr.print, Reference.print, Token.print]
    | signed sign operand ih => simp [tokens, Expr.print, Token.print, ih]
    | binary op left right ihl ihr => simp [tokens, Expr.print, Token.print, ihl, ihr]
    | group inner ih => simp [tokens, Expr.print, Token.print, ih]
    | _ => simp [tokens, Expr.print, Token.print]
  rw [← hprint, words, ← List.flatMap_id, List.flatMap_assoc]
  simp only [List.flatMap_id, Token.flatten_words]

/-! ## Blanks between the words -/

/-- Nothing follows but blanks, or an operator or a closing parenthesis does. -/
def Closed (rest : List Char) : Prop :=
  ∀ c ∈ (rest.dropWhile isBlank).head?, (∃ op : Operator, c = op.char) ∨ c = ')'

theorem Closed.endsBefore {rest : List Char} (h : Closed rest) (t : Token) :
    t.EndsBefore rest := by
  have hspec : ∀ c ∈ (rest.dropWhile isBlank).head?, (Decimal.isDigit c = false ∧ c ≠ '.') ∧
      isNameChar c = false ∧ c ≠ '!' := by
    intro c hc
    rcases h c hc with ⟨op, rfl⟩ | rfl
    · cases op <;> decide
    · decide
  -- a blank is as good an end as the first character that is not blank
  have hhead : ∀ c ∈ rest.head?, (Decimal.isDigit c = false ∧ c ≠ '.') ∧
      isNameChar c = false := by
    intro c hc
    obtain ⟨tail, rfl⟩ := List.head?_eq_some_iff.1 hc
    by_cases hblank : isBlank c
    · have hname : isNameChar c = false := by
        by_contra hname
        simp [isBlank_of_isNameChar (by simpa using hname)] at hblank
      refine ⟨⟨?_, ?_⟩, hname⟩
      · simp only [isNameChar, Bool.or_eq_false_iff] at hname
        exact hname.1.2
      · rintro rfl
        exact absurd hblank (by decide)
    · obtain ⟨hdigit, hname, -⟩ := hspec c (by rw [List.dropWhile_cons_of_neg hblank]; rfl)
      exact ⟨hdigit, hname⟩
  cases t with
  | number _ => exact fun c hc => (hhead c hc).1
  | cell _ => exact ⟨fun c hc => (hhead c hc).2, fun c hc => (hspec c hc).2.2⟩
  | _ => trivial

theorem tokenizeAfter_blanks {blanks : List Char} (hblanks : ∀ c ∈ blanks, isBlank c)
    (done : List Token) (cs : List Char) :
    tokenizeAfter done (blanks ++ cs) = tokenizeAfter done cs := by
  induction blanks with
  | nil => rfl
  | cons b blanks ih =>
    rw [List.cons_append, tokenizeAfter_cons, if_pos (hblanks b List.mem_cons_self)]
    exact ih fun c hc => hblanks c (List.mem_cons_of_mem _ hc)

/-- The words of a well-formed token are read as that token, and what follows is left. -/
theorem tokenizeAfter_words {t : Token} (h : t.WellFormed) {words : List (List Char)}
    {cs : List Char} (hcs : Spaced (t.words ++ words) cs)
    (hend : ∀ rest, Spaced words rest → t.EndsBefore rest) (done : List Token) :
    ∃ rest, Spaced words rest ∧ tokenizeAfter done cs = tokenizeAfter (t :: done) rest := by
  have hread {blanks word : List Char} (hblanks : ∀ c ∈ blanks, isBlank c) {c : Char}
      {tail body rest : List Char} (hword : word = c :: tail) (hc : isBlank c = false)
      (hlex : lexeme c (tail ++ body) = .ok (t, rest)) :
      tokenizeAfter done (blanks ++ (word ++ body)) = tokenizeAfter (t :: done) rest := by
    rw [tokenizeAfter_blanks hblanks, hword, List.cons_append, tokenizeAfter_cons,
      if_neg (by simp [hc]), hlex]
  by_cases hsheet : ∃ name, t = .sheet name
  · obtain ⟨name, rfl⟩ := hsheet
    cases hcs with
    | cons _ hblanks _ hcs =>
      cases hcs with
      | @cons gap hgap _ _ rest hrest =>
        obtain ⟨c, tail, hword, hc, hlex⟩ := lexeme_sheet h hgap rest
        exact ⟨rest, hrest, hread hblanks hword hc hlex⟩
  · have hwords : t.words = [t.print] := by
      cases t with
      | sheet name => exact absurd ⟨name, rfl⟩ hsheet
      | _ => rfl
    rw [hwords] at hcs
    cases hcs with
    | @cons blanks hblanks _ _ rest hrest =>
      obtain ⟨c, tail, hword, hc, hlex⟩ := lexeme_print h (hend rest hrest)
      exact ⟨rest, hrest, hread hblanks hword hc hlex⟩

/-! ## Reading printed trees -/

/-- The token could go on if a letter, a digit or a point followed it. -/
def Token.isOpenEnded : Token → Bool
  | number _ | cell _ => true
  | _ => false

/-- The token ends the one before it. -/
def Token.isDelimiter : Token → Bool
  | operator _ | closing => true
  | _ => false

/-- No token runs into the next one. -/
def Separated (ts : List Token) : Prop :=
  ts.IsChain fun t u => t.isOpenEnded → u.isDelimiter

theorem separated_tokens (e : Expr) : Separated e.tokens := by
  induction e with
  | ref r =>
    obtain ⟨_ | sheet, address⟩ := r
    · exact List.isChain_singleton _
    · exact .cons_cons (by simp [Token.isOpenEnded]) (List.isChain_singleton _)
  | signed sign operand ih =>
    exact List.isChain_cons.2 ⟨by simp [Token.isOpenEnded], ih⟩
  | binary op left right ihl ihr =>
    refine List.isChain_append.2 ⟨ihl, List.isChain_cons.2 ⟨by simp [Token.isOpenEnded], ihr⟩, ?_⟩
    simp [Token.isDelimiter]
  | group inner ih =>
    refine List.isChain_append.2 ⟨List.isChain_cons.2 ⟨by simp [Token.isOpenEnded], ih⟩,
      List.isChain_singleton _, ?_⟩
    simp [Token.isDelimiter]
  | _ => exact List.isChain_singleton _

/-- Where the next token is a delimiter, the token before it ends. -/
theorem closed_of_spaced {ts : List Token} (h : ∀ u ∈ ts.head?, u.isDelimiter) {rest : List Char}
    (hrest : Spaced (ts.flatMap Token.words) rest) : Closed rest := by
  have hskip {blanks cs : List Char} (hblanks : ∀ c ∈ blanks, isBlank c) {c : Char}
      (hc : isBlank c = false) : (blanks ++ c :: cs).dropWhile isBlank = c :: cs := by
    rw [List.dropWhile_append_of_pos hblanks, List.dropWhile_cons_of_neg (by simp [hc])]
  cases ts with
  | nil =>
    cases hrest with
    | nil _ hblanks =>
      intro c hc
      rw [List.dropWhile_eq_nil_iff.2 hblanks] at hc
      simp at hc
  | cons u ts =>
    cases u with
    | operator op =>
      cases hrest with
      | cons _ hblanks _ hrest =>
        intro c hc
        rw [Token.print, List.singleton_append, hskip hblanks (by cases op <;> rfl)] at hc
        exact Or.inl ⟨op, (Option.some.inj hc).symm⟩
    | closing =>
      cases hrest with
      | cons _ hblanks _ hrest =>
        intro c hc
        rw [Token.print, List.singleton_append, hskip hblanks rfl] at hc
        exact Or.inr (Option.some.inj hc).symm
    | _ => simp [Token.isDelimiter] at h

theorem tokenizeAfter_spaced {ts : List Token} (hwf : ∀ t ∈ ts, t.WellFormed)
    (hsep : Separated ts) {cs : List Char} (hcs : Spaced (ts.flatMap Token.words) cs)
    (done : List Token) : tokenizeAfter done cs = .ok (done.reverse ++ ts) := by
  induction ts generalizing cs done with
  | nil =>
    cases hcs with
    | nil _ hblanks =>
      rw [← List.append_nil cs, tokenizeAfter_blanks hblanks, tokenizeAfter_nil, List.append_nil]
  | cons t ts ih =>
    obtain ⟨hnext, hsep⟩ := List.isChain_cons.1 hsep
    have hend : ∀ rest, Spaced (ts.flatMap Token.words) rest → t.EndsBefore rest := by
      intro rest hrest
      by_cases hopen : t.isOpenEnded
      · exact (closed_of_spaced (fun u hu => hnext u hu hopen) hrest).endsBefore t
      · cases t <;> trivial
    obtain ⟨rest, hrest, hread⟩ := tokenizeAfter_words (hwf t List.mem_cons_self) hcs hend done
    rw [hread, ih (fun u hu => hwf u (List.mem_cons_of_mem _ hu)) hsep hrest]
    simp

/-- The words of a tree are read as its tokens, whatever blanks stand between them. -/
theorem tokenize_spaced {e : Expr} (h : ∀ t ∈ e.tokens, t.WellFormed) {cs : List Char}
    (hcs : Spaced e.words cs) : tokenize cs = .ok e.tokens :=
  tokenizeAfter_spaced h (separated_tokens e) hcs []

/-- A tree prints as its tokens. -/
theorem tokenize_print {e : Expr} (h : ∀ t ∈ e.tokens, t.WellFormed) :
    tokenize e.print = .ok e.tokens := by
  rw [← e.flatten_words]
  exact tokenize_spaced h (spaced_flatten _)

/-! ## The last characters of words -/

theorem isBlank_of_isNumberText {cs : List Char} (h : IsNumberText cs) {c : Char} (hc : c ∈ cs) :
    isBlank c = false := by
  obtain ⟨whole, hwhole, ⟨rfl, -⟩ | ⟨fraction, hfraction, rfl, -⟩⟩ := h
  · exact Digits.isBlank_of_isDigit (hwhole c hc)
  · rcases List.mem_append.1 hc with hc | hc
    · exact Digits.isBlank_of_isDigit (hwhole c hc)
    · rcases List.mem_cons.1 hc with rfl | hc
      · rfl
      · exact Digits.isBlank_of_isDigit (hfraction c hc)

theorem isBlank_of_isShape {address : String} (h : Position.IsShape address) {c : Char}
    (hc : c ∈ address.toList) : isBlank c = false := by
  simp only [Position.IsShape, isAddressShape, Bool.and_eq_true, List.all_eq_true] at h
  rw [← List.takeWhile_append_dropWhile (p := isLetter) (l := address.toList)] at hc
  exact isBlank_of_shape (fun d hd => List.mem_takeWhile_imp hd) h.2 hc

theorem endsInWord_sheet {name : SheetName} (h : name.WellFormed) : EndsInWord name.print := by
  obtain ⟨name, quoted⟩ := name
  cases quoted with
  | true => exact endsInWord_append ('\'' :: name.toList) ⟨'\'', rfl, rfl⟩
  | false =>
    obtain ⟨c, tail, hcs, hstart, htail⟩ : IsPlainName name.toList := h.plain rfl
    have hprint : SheetName.print ⟨name, false⟩ = c :: tail := hcs
    rw [hprint]
    refine endsInWord_of_forall (List.cons_ne_nil _ _) fun d hd => ?_
    rcases List.mem_cons.1 hd with rfl | hd
    · exact (nameStart_spec hstart).2.1
    · exact isBlank_of_isNameChar (htail d hd)

/-- No word of a well-formed token ends in a blank. -/
theorem endsInWord_words {t : Token} (h : t.WellFormed) : ∀ word ∈ t.words, EndsInWord word := by
  cases t with
  | number written =>
    have hnumber : IsNumberText written.toList := h
    have hne : written.toList ≠ [] := by
      obtain ⟨whole, -, ⟨heq, hne⟩ | ⟨fraction, -, heq, -⟩⟩ := hnumber
      · rwa [heq]
      · simp [heq]
    simpa [Token.words, Token.print] using
      endsInWord_of_forall hne fun c hc => isBlank_of_isNumberText hnumber hc
  | text s =>
    simpa [Token.words, Token.print] using endsInWord_append ('"' :: s.toList) ⟨'"', rfl, rfl⟩
  | error kind =>
    suffices EndsInWord kind.spelling.toList by simpa [Token.words, Token.print] using this
    cases kind <;> exact ⟨_, rfl, rfl⟩
  | cell address =>
    have hshape : Position.IsShape address := h
    have hne : address.toList ≠ [] := by
      intro hnil
      simp [Position.IsShape, hnil, isAddressShape] at hshape
    simpa [Token.words, Token.print] using
      endsInWord_of_forall hne fun c hc => isBlank_of_isShape hshape hc
  | sheet name =>
    have hmark : EndsInWord ['!'] := ⟨'!', rfl, rfl⟩
    simpa [Token.words] using ⟨endsInWord_sheet h, hmark⟩
  | operator op =>
    suffices EndsInWord [op.char] by simpa [Token.words, Token.print] using this
    cases op <;> exact ⟨_, rfl, rfl⟩
  | opening => simpa [Token.words, Token.print] using ⟨'(', rfl, rfl⟩
  | closing => simpa [Token.words, Token.print] using ⟨')', rfl, rfl⟩

theorem endsInWord_formula {e : Expr} (h : ∀ t ∈ e.tokens, t.WellFormed) :
    ∀ word ∈ ['='] :: e.words, EndsInWord word := by
  intro word hword
  rcases List.mem_cons.1 hword with rfl | hword
  · exact ⟨'=', rfl, rfl⟩
  · obtain ⟨t, ht, hword⟩ := List.mem_flatMap.1 hword
    exact endsInWord_words (h t ht) word hword

/-- Trimming keeps the words of a formula and their order. -/
theorem trimBlank_formula {e : Expr} (h : ∀ t ∈ e.tokens, t.WellFormed) {cs : List Char}
    (hcs : Spaced (['='] :: e.words) cs) :
    ∃ rest, trimBlank cs = '=' :: rest ∧ Spaced e.words rest :=
  trimBlank_spaced hcs rfl (endsInWord_formula h)

end Spreadsheet.Formula
