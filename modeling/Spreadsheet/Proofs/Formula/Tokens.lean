import Spreadsheet.Formula.Printer
import Spreadsheet.Formula.Token
import Spreadsheet.Proofs.Position

/-!
# Tokens are read as they are printed

The tokens of a formula are well-formed: a text has no quote inside, a cell is letters and digits,
and so on. A well-formed token, written down and followed by something that does not continue it, is
read as that token.

Results:
* `wellFormed_of_tokenize`: every token of a formula is well-formed.
* `lexeme_print`: a well-formed token is read as it is printed.
-/

namespace Spreadsheet.Formula

/-! ## Printed tokens -/

/-- The characters of a token. -/
def Token.print : Token → List Char
  | number written => written.toList
  | text s => '"' :: s.toList ++ ['"']
  | error kind => kind.spelling.toList
  | cell address => address.toList
  | sheet name => name.print ++ ['!']
  | operator op => [op.char]
  | opening => ['(']
  | closing => [')']

/-- The tokens of a reference. -/
def Reference.tokens (r : Reference) : List Token :=
  match r.sheet with
  | none => [.cell r.address]
  | some sheet => [.sheet sheet, .cell r.address]

/-- The tokens that a tree was read from. -/
def Expr.tokens : Expr → List Token
  | number written _ => [.number written]
  | text s => [.text s]
  | error kind => [.error kind]
  | ref r => r.tokens
  | signed sign operand => .operator sign.operator :: operand.tokens
  | binary op left right => left.tokens ++ .operator op :: right.tokens
  | group inner => .opening :: inner.tokens ++ [.closing]

/-! ## Well-formed tokens -/

/-- Digits with at most one point among them, and at least one digit. -/
def IsNumberText (cs : List Char) : Prop :=
  ∃ whole, (∀ c ∈ whole, Decimal.isDigit c) ∧
    ((cs = whole ∧ whole ≠ []) ∨
      ∃ fraction, (∀ c ∈ fraction, Decimal.isDigit c) ∧ cs = whole ++ '.' :: fraction ∧
        (whole ≠ [] ∨ fraction ≠ []))

/-- A name that needs no quotes. -/
def IsPlainName (cs : List Char) : Prop :=
  ∃ c tail, cs = c :: tail ∧ isNameStart c ∧ ∀ d ∈ tail, isNameChar d

theorem quote_not_mem_of_isPlainName {cs : List Char} (h : IsPlainName cs) : '\'' ∉ cs := by
  obtain ⟨c, tail, rfl, hstart, htail⟩ := h
  intro hmem
  rcases List.mem_cons.1 hmem with rfl | hmem
  · exact absurd hstart (by decide)
  · exact absurd (htail _ hmem) (by decide)

/-- A sheet name can be written the way it says. -/
structure SheetName.WellFormed (sheet : SheetName) : Prop where
  quote_not_mem : '\'' ∉ sheet.name.toList
  plain : sheet.quoted = false → IsPlainName sheet.name.toList

/-- A token can be written down. -/
def Token.WellFormed : Token → Prop
  | number written => IsNumberText written.toList
  | text s => '"' ∉ s.toList
  | cell address => Position.IsShape address
  | sheet name => name.WellFormed
  | _ => True

/-! ## The first character of a token -/

/-- The character starts a token by itself or a text, a quoted name or an error. -/
def isMark (c : Char) : Bool :=
  (Operator.ofChar? c).isSome || c == '(' || c == ')' || c == '"' || c == '\'' || c == '#'

theorem nameStart_spec {c : Char} (h : isNameStart c) :
    isMark c = false ∧ isBlank c = false ∧ isNameChar c := by
  have hc : c.toNat < 0x80 := by
    simp only [isNameStart, Bool.or_eq_true, beq_iff_eq] at h
    rcases h with h | rfl
    · exact ascii_of_isLetter h
    · decide
  revert h
  refine forall_ascii (p := fun c => isNameStart c → isMark c = false ∧ isBlank c = false ∧
    isNameChar c) ?_ hc
  decide

theorem isBlank_of_isNameChar {c : Char} (h : isNameChar c) : isBlank c = false := by
  simp only [isNameChar, Bool.or_eq_true, beq_iff_eq] at h
  rcases h with (h | h) | rfl
  · exact (nameStart_spec (by simp [isNameStart, h])).2.1
  · exact Digits.isBlank_of_isDigit h
  · rfl

/-- A digit or a point. -/
theorem numberStart_spec {c : Char} (h : Decimal.isDigit c || c == '.') :
    isMark c = false ∧ isBlank c = false ∧ isNameStart c = false := by
  have hc : c.toNat < 0x80 := by
    simp only [Bool.or_eq_true, beq_iff_eq] at h
    rcases h with h | rfl
    · exact ascii_of_isDigit h
    · decide
  revert h
  refine forall_ascii (p := fun c => (Decimal.isDigit c || c == '.') → isMark c = false ∧
    isBlank c = false ∧ isNameStart c = false) ?_ hc
  decide

theorem lexeme_of_not_mark {c : Char} (h : isMark c = false) (cs : List Char) :
    lexeme c cs =
      if isNameStart c then readName c cs
      else if Decimal.isDigit c || c == '.' then readNumber c cs
      else .error (.unexpectedChar c) := by
  simp only [isMark, Bool.or_eq_false_iff] at h
  obtain ⟨⟨⟨⟨⟨hop, hopen⟩, hclose⟩, htext⟩, hquote⟩, herror⟩ := h
  have hnone : Operator.ofChar? c = none := by
    rcases hc : Operator.ofChar? c with _ | op
    · rfl
    · simp [hc] at hop
  simp [lexeme, hnone, hopen, hclose, htext, hquote, herror]

/-! ## Reading gives well-formed tokens -/

theorem wellFormed_readText {cs rest : List Char} {t : Token} (h : readText cs = .ok (t, rest)) :
    t.WellFormed := by
  unfold readText at h
  split at h
  · simp at h
  · simp only [Except.ok.injEq, Prod.mk.injEq] at h
    rw [← h.1]
    show '"' ∉ (String.ofList _).toList
    rw [String.toList_ofList]
    intro hmem
    simpa using List.mem_takeWhile_imp hmem

theorem wellFormed_readQuotedSheet {cs rest : List Char} {t : Token}
    (h : readQuotedSheet cs = .ok (t, rest)) : t.WellFormed := by
  unfold readQuotedSheet at h
  split at h
  · simp at h
  · split at h
    · simp only [Except.ok.injEq, Prod.mk.injEq] at h
      rw [← h.1]
      refine ⟨?_, by simp⟩
      rw [String.toList_ofList]
      intro hmem
      simpa using List.mem_takeWhile_imp hmem
    · simp at h

theorem wellFormed_readName {c : Char} {cs rest : List Char} {t : Token} (hc : isNameStart c)
    (h : readName c cs = .ok (t, rest)) : t.WellFormed := by
  unfold readName at h
  dsimp only at h
  split at h
  · simp only [Except.ok.injEq, Prod.mk.injEq] at h
    rw [← h.1]
    have hplain : IsPlainName (c :: cs.takeWhile isNameChar) :=
      ⟨c, _, rfl, hc, fun d hd => List.mem_takeWhile_imp hd⟩
    constructor
    · rw [String.toList_ofList]
      exact quote_not_mem_of_isPlainName hplain
    · intro _
      rwa [String.toList_ofList]
  · split at h
    · rename_i hcell
      simp only [Except.ok.injEq, Prod.mk.injEq] at h
      rw [← h.1]
      show Position.IsShape (String.ofList _)
      rwa [Position.IsShape, String.toList_ofList]
    · simp at h

theorem wellFormed_readNumber {c : Char} {cs rest : List Char} {t : Token}
    (hc : Decimal.isDigit c || c == '.') (h : readNumber c cs = .ok (t, rest)) :
    t.WellFormed := by
  have hdigits (cs : List Char) : ∀ d ∈ cs.takeWhile Decimal.isDigit, Decimal.isDigit d :=
    fun d hd => List.mem_takeWhile_imp hd
  unfold readNumber at h
  dsimp only at h
  split at h
  · rename_i hpoint
    split at h
    · simp at h
    · rename_i hlen
      simp only [Except.ok.injEq, Prod.mk.injEq] at h
      rw [← h.1]
      show IsNumberText (String.ofList _).toList
      rw [String.toList_ofList]
      refine ⟨[], by simp, Or.inr ⟨_, hdigits cs, by simpa using hpoint, Or.inr ?_⟩⟩
      intro hnil
      simp [hnil] at hlen
  · rename_i hpoint
    have hdigit : Decimal.isDigit c := by simpa [hpoint] using hc
    have hwhole : ∀ d ∈ c :: cs.takeWhile Decimal.isDigit, Decimal.isDigit d := by
      intro d hd
      rcases List.mem_cons.1 hd with rfl | hd
      · exact hdigit
      · exact hdigits cs d hd
    split at h
    · simp only [Except.ok.injEq, Prod.mk.injEq] at h
      rw [← h.1]
      show IsNumberText (String.ofList _).toList
      rw [String.toList_ofList]
      exact ⟨_, hwhole, Or.inr ⟨_, hdigits _, rfl, Or.inl (List.cons_ne_nil _ _)⟩⟩
    · simp only [Except.ok.injEq, Prod.mk.injEq] at h
      rw [← h.1]
      show IsNumberText (String.ofList _).toList
      rw [String.toList_ofList]
      exact ⟨_, hwhole, Or.inl ⟨rfl, List.cons_ne_nil _ _⟩⟩

theorem wellFormed_readError {cs rest : List Char} {t : Token} (h : readError cs = .ok (t, rest)) :
    t.WellFormed := by
  unfold readError at h
  split at h
  · simp only [Except.ok.injEq, Prod.mk.injEq] at h
    rw [← h.1]
    trivial
  · simp at h

theorem wellFormed_of_lexeme {c : Char} {cs rest : List Char} {t : Token}
    (h : lexeme c cs = .ok (t, rest)) : t.WellFormed := by
  unfold lexeme at h
  split at h
  · simp only [Except.ok.injEq, Prod.mk.injEq] at h
    rw [← h.1]
    trivial
  · split at h
    · simp only [Except.ok.injEq, Prod.mk.injEq] at h
      rw [← h.1]
      trivial
    split at h
    · simp only [Except.ok.injEq, Prod.mk.injEq] at h
      rw [← h.1]
      trivial
    split at h
    · exact wellFormed_readText h
    split at h
    · exact wellFormed_readQuotedSheet h
    split at h
    · exact wellFormed_readError h
    split at h
    · rename_i hname
      exact wellFormed_readName hname h
    split at h
    · rename_i hnumber
      exact wellFormed_readNumber hnumber h
    · simp at h

theorem tokenizeAfter_nil (done : List Token) : tokenizeAfter done [] = .ok done.reverse := by
  rw [tokenizeAfter.eq_def]

theorem tokenizeAfter_cons (done : List Token) (c : Char) (cs : List Char) :
    tokenizeAfter done (c :: cs) =
      if isBlank c then tokenizeAfter done cs
      else
        match lexeme c cs with
        | .error e => .error e
        | .ok (t, rest) => tokenizeAfter (t :: done) rest := by
  rw [tokenizeAfter.eq_def]
  dsimp only
  congr 1
  split
  · rename_i hlex
    rw [hlex]
  · rename_i hlex
    rw [hlex]

theorem wellFormed_of_tokenizeAfter {done ts : List Token} {cs : List Char}
    (h : tokenizeAfter done cs = .ok ts) (hdone : ∀ t ∈ done, t.WellFormed) :
    ∀ t ∈ ts, t.WellFormed := by
  induction done, cs using tokenizeAfter.induct with
  | case1 done =>
    rw [tokenizeAfter_nil] at h
    rw [← Except.ok.inj h]
    simpa using hdone
  | case2 done c cs hblank ih =>
    rw [tokenizeAfter_cons, if_pos hblank] at h
    exact ih h hdone
  | case3 done c cs hblank e hlex =>
    rw [tokenizeAfter_cons, if_neg hblank, hlex] at h
    simp at h
  | case4 done c cs hblank t rest hlex _ ih =>
    rw [tokenizeAfter_cons, if_neg hblank, hlex] at h
    apply ih h
    intro u hu
    rcases List.mem_cons.1 hu with rfl | hu
    · exact wellFormed_of_lexeme hlex
    · exact hdone u hu

/-- Every token of a formula is well-formed. -/
theorem wellFormed_of_tokenize {cs : List Char} {ts : List Token} (h : tokenize cs = .ok ts) :
    ∀ t ∈ ts, t.WellFormed :=
  wellFormed_of_tokenizeAfter h (by simp)

/-! ## Reading printed tokens -/

/-- What follows does not continue the token. -/
def Token.EndsBefore : Token → List Char → Prop
  | number _, rest => ∀ c ∈ rest.head?, Decimal.isDigit c = false ∧ c ≠ '.'
  | cell _, rest =>
    (∀ c ∈ rest.head?, isNameChar c = false) ∧ ∀ c ∈ (rest.dropWhile isBlank).head?, c ≠ '!'
  | _, _ => True

/-- A text ends at its quote. -/
theorem span_quote {quote : Char} {cs : List Char} (h : quote ∉ cs) (rest : List Char) :
    (cs ++ quote :: rest).takeWhile (· != quote) = cs ∧
      (cs ++ quote :: rest).dropWhile (· != quote) = quote :: rest := by
  apply span_append
  · intro c hc
    simp only [bne_iff_ne]
    rintro rfl
    exact h hc
  · simp

theorem lexeme_number {cs rest : List Char} (h : IsNumberText cs)
    (hend : ∀ c ∈ rest.head?, Decimal.isDigit c = false ∧ c ≠ '.') :
    ∃ c tail, cs = c :: tail ∧ isBlank c = false ∧
      lexeme c (tail ++ rest) = .ok (.number (String.ofList cs), rest) := by
  have hstart {c : Char} (hc : Decimal.isDigit c || c == '.') (tail : List Char) :
      isBlank c = false ∧ lexeme c tail = readNumber c tail := by
    obtain ⟨hmark, hblank, hname⟩ := numberStart_spec hc
    refine ⟨hblank, ?_⟩
    rw [lexeme_of_not_mark hmark, if_neg (by simp [hname]), if_pos hc]
  have hdigit : ∀ c ∈ rest.head?, Decimal.isDigit c = false := fun c hc => (hend c hc).1
  obtain ⟨whole, hwhole, ⟨rfl, hne⟩ | ⟨fraction, hfraction, rfl, hne⟩⟩ := h
  · obtain ⟨c, tail, rfl⟩ := List.exists_cons_of_ne_nil hne
    have hc := hwhole c List.mem_cons_self
    obtain ⟨htake, hdrop⟩ := span_append (fun d hd => hwhole d (List.mem_cons_of_mem _ hd)) hdigit
    have hpoint : (c == '.') = false := by
      rw [beq_eq_false_iff_ne]
      rintro rfl
      exact absurd hc (by decide)
    obtain ⟨hblank, hlex⟩ := hstart (c := c) (by simp [hc]) (tail ++ rest)
    refine ⟨c, tail, rfl, hblank, ?_⟩
    rw [hlex, readNumber, htake, hdrop]
    simp only [hpoint, Bool.false_eq_true, if_false]
    split
    · exact absurd rfl (hend _ rfl).2
    · rfl
  · cases whole with
    | nil =>
      obtain ⟨htake, hdrop⟩ := span_append hfraction hdigit
      obtain ⟨hblank, hlex⟩ := hstart (c := '.') rfl (fraction ++ rest)
      have hlen : fraction ≠ [] := hne.resolve_left (by simp)
      refine ⟨'.', fraction, rfl, hblank, ?_⟩
      rw [hlex, readNumber, htake, hdrop]
      simp [hlen]
    | cons c tail =>
      have hc := hwhole c List.mem_cons_self
      have hpoint : (c == '.') = false := by
        rw [beq_eq_false_iff_ne]
        rintro rfl
        exact absurd hc (by decide)
      have hdot : ∀ d ∈ ('.' :: (fraction ++ rest)).head?, Decimal.isDigit d = false := by
        simp [Decimal.isDigit]
      obtain ⟨htake, hdrop⟩ := span_append (fun d hd => hwhole d (List.mem_cons_of_mem _ hd)) hdot
      obtain ⟨htake', hdrop'⟩ := span_append hfraction hdigit
      obtain ⟨hblank, hlex⟩ := hstart (c := c) (by simp [hc]) ((tail ++ '.' :: fraction) ++ rest)
      refine ⟨c, tail ++ '.' :: fraction, rfl, hblank, ?_⟩
      rw [hlex, List.append_assoc, List.cons_append, readNumber, htake, hdrop]
      simp only [hpoint, Bool.false_eq_true, if_false, htake', hdrop', List.cons_append]

theorem lexeme_text {s : String} (h : '"' ∉ s.toList) (rest : List Char) :
    lexeme '"' (s.toList ++ '"' :: rest) = .ok (.text s, rest) := by
  obtain ⟨htake, hdrop⟩ := span_quote h rest
  show readText _ = _
  rw [readText, hdrop, htake, String.ofList_toList]

theorem isLetter_of_shape {c : Char} {tail : List Char}
    (h : isAddressShape ((c :: tail).takeWhile isLetter) ((c :: tail).dropWhile isLetter)) :
    isLetter c := by
  by_contra hc
  simp [isAddressShape, hc] at h

theorem lexeme_cell {address : String} (h : Position.IsShape address) {rest : List Char}
    (hend : (Token.cell address).EndsBefore rest) :
    ∃ c tail, address.toList = c :: tail ∧ isBlank c = false ∧
      lexeme c (tail ++ rest) = .ok (.cell address, rest) := by
  obtain ⟨hname, hbang⟩ := hend
  rw [Position.IsShape] at h
  rcases hcs : address.toList with _ | ⟨c, tail⟩
  · simp [hcs, isAddressShape] at h
  · rw [hcs] at h
    have hstart : isNameStart c := by simp [isNameStart, isLetter_of_shape h]
    obtain ⟨hmark, hblank, -⟩ := nameStart_spec hstart
    have htail : ∀ d ∈ tail, isNameChar d := by
      intro d hd
      have hd : d ∈ (c :: tail).takeWhile isLetter ++ (c :: tail).dropWhile isLetter := by
        rw [List.takeWhile_append_dropWhile]
        exact List.mem_cons_of_mem _ hd
      simp only [isAddressShape, Bool.and_eq_true, List.all_eq_true] at h
      rcases List.mem_append.1 hd with hd | hd
      · simp [isNameChar, List.mem_takeWhile_imp hd]
      · simp [isNameChar, h.2 d hd]
    obtain ⟨htake, hdrop⟩ := span_append htail hname
    refine ⟨c, tail, rfl, hblank, ?_⟩
    rw [lexeme_of_not_mark hmark, if_pos hstart, readName, htake, hdrop]
    split
    · rename_i heq
      exact absurd rfl (hbang '!' (by rw [heq]; rfl))
    · have hcell : isCellName (c :: tail) := h
      rw [if_pos hcell, ← hcs, String.ofList_toList]

theorem lexeme_sheet {name : SheetName} (h : name.WellFormed) {blanks : List Char}
    (hblanks : ∀ c ∈ blanks, isBlank c) (rest : List Char) :
    ∃ c tail, name.print = c :: tail ∧ isBlank c = false ∧
      lexeme c (tail ++ (blanks ++ '!' :: rest)) = .ok (.sheet name, rest) := by
  have hmark : (blanks ++ '!' :: rest).dropWhile isBlank = '!' :: rest := by
    rw [List.dropWhile_append_of_pos hblanks]
    rfl
  obtain ⟨name, quoted⟩ := name
  cases quoted with
  | true =>
    obtain ⟨htake, hdrop⟩ := span_quote h.quote_not_mem (blanks ++ '!' :: rest)
    refine ⟨'\'', name.toList ++ ['\''], by simp [SheetName.print], rfl, ?_⟩
    rw [List.append_assoc]
    show readQuotedSheet (name.toList ++ '\'' :: (blanks ++ '!' :: rest)) = _
    simp only [readQuotedSheet, hdrop, htake, hmark, String.ofList_toList]
  | false =>
    obtain ⟨c, tail, hcs, hstart, htail⟩ : IsPlainName name.toList := h.plain rfl
    obtain ⟨hnotMark, hblank, -⟩ := nameStart_spec hstart
    have hend : ∀ d ∈ (blanks ++ '!' :: rest).head?, isNameChar d = false := by
      intro d hd
      cases blanks with
      | nil =>
        obtain rfl := Option.some.inj hd
        decide
      | cons b blanks =>
        obtain rfl := Option.some.inj hd
        by_contra hname
        simpa [isBlank_of_isNameChar (by simpa using hname)] using hblanks b List.mem_cons_self
    obtain ⟨htake, hdrop⟩ := span_append htail hend
    refine ⟨c, tail, hcs, hblank, ?_⟩
    rw [lexeme_of_not_mark hnotMark, if_pos hstart]
    simp only [readName, htake, hdrop, hmark, ← hcs, String.ofList_toList]

/-- The second character tells the spellings apart. -/
theorem eq_of_matchesAnyCase {k k' : ErrorKind} {rest : List Char}
    (h : ErrorKind.matchesAnyCase k.spelling.toList
      ((k'.spelling.toList ++ rest).take k.spelling.toList.length)) : k = k' := by
  simp only [ErrorKind.matchesAnyCase, beq_iff_eq] at h
  have hsecond := congrArg (·[1]?) h
  cases k <;> cases k' <;> first | rfl | simp [ErrorKind.spelling] at hsecond

theorem readLiteral?_spelling (kind : ErrorKind) (rest : List Char) :
    ErrorKind.readLiteral? (kind.spelling.toList ++ rest) = some (kind, rest) := by
  rw [ErrorKind.readLiteral?]
  have hfind : (ErrorKind.all.find? fun k => ErrorKind.matchesAnyCase k.spelling.toList
      ((kind.spelling.toList ++ rest).take k.spelling.toList.length)) = some kind := by
    rcases hf : ErrorKind.all.find? _ with _ | k
    · have hself : ErrorKind.matchesAnyCase kind.spelling.toList
          ((kind.spelling.toList ++ rest).take kind.spelling.toList.length) := by
        rw [List.take_left']
        · simp [ErrorKind.matchesAnyCase]
        · rfl
      have hmem : kind ∈ ErrorKind.all := by cases kind <;> decide
      exact absurd hself (by simpa using List.find?_eq_none.1 hf kind hmem)
    · have hmatch := List.find?_some hf
      rw [eq_of_matchesAnyCase hmatch]
  rw [hfind]
  simp

theorem lexeme_error (kind : ErrorKind) (rest : List Char) :
    ∃ c tail, kind.spelling.toList = c :: tail ∧ isBlank c = false ∧
      lexeme c (tail ++ rest) = .ok (.error kind, rest) := by
  obtain ⟨tail, htail⟩ : ∃ tail, kind.spelling.toList = '#' :: tail := by
    cases kind <;> exact ⟨_, rfl⟩
  refine ⟨'#', tail, htail, rfl, ?_⟩
  show readError ('#' :: (tail ++ rest)) = _
  rw [← List.cons_append, ← htail, readError, readLiteral?_spelling]

/-- A well-formed token is read as it is printed. -/
theorem lexeme_print {t : Token} (h : t.WellFormed) {rest : List Char} (hend : t.EndsBefore rest) :
    ∃ c tail, t.print = c :: tail ∧ isBlank c = false ∧
      lexeme c (tail ++ rest) = .ok (t, rest) := by
  cases t with
  | number written =>
    obtain ⟨c, tail, heq, hblank, hlex⟩ := lexeme_number h hend
    exact ⟨c, tail, heq, hblank, by rw [hlex, String.ofList_toList]⟩
  | text s => exact ⟨'"', s.toList ++ ['"'], rfl, rfl, by simp [lexeme_text h]⟩
  | error kind => exact lexeme_error kind rest
  | cell address => exact lexeme_cell h hend
  | sheet name =>
    obtain ⟨c, tail, heq, hblank, hlex⟩ := lexeme_sheet h (List.forall_mem_nil _) rest
    exact ⟨c, tail ++ ['!'], by simp [Token.print, heq], hblank, by simpa using hlex⟩
  | operator op => cases op <;> exact ⟨_, [], rfl, rfl, rfl⟩
  | opening => exact ⟨'(', [], rfl, rfl, rfl⟩
  | closing => exact ⟨')', [], rfl, rfl, rfl⟩

end Spreadsheet.Formula
