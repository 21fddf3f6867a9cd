import Spreadsheet.Formula.Rename
import Spreadsheet.Proofs.Formula.Reading
import Spreadsheet.Proofs.Formula.Spacing

/-!
# The parser, the names of sheets and the text of a tree

The parser looks at the class of a token only, and hands the sheet of a reference through. So the
tokens of a tree are those it was read from, and other sheet names in the tokens give the same tree
with these other names.

Results:
* `tokens_of_parseTokens`: the tokens of a tree are those it was read from.
* `parseTokens_mapSheet`: a change of sheet names commutes with parsing.
* `Expr.Parsed.parse_toText`: a tree that was read from a text is read back from its own text.
* `parse_print_spaced`: so it is from its own text with blanks between the words.
-/

namespace Spreadsheet.Formula

/-! ## Changing sheet names -/

/-- The token with another sheet name. -/
def Token.mapSheet (f : SheetName → SheetName) : Token → Token
  | sheet name => sheet (f name)
  | t => t

/-- The tree with other sheet names. -/
def Expr.mapSheet (f : SheetName → SheetName) : Expr → Expr
  | ref r => ref { r with sheet := r.sheet.map f }
  | signed sign operand => signed sign (operand.mapSheet f)
  | binary op left right => binary op (left.mapSheet f) (right.mapSheet f)
  | group inner => group (inner.mapSheet f)
  | e => e

theorem renameSheet_eq_mapSheet (old new : String) (e : Expr) :
    e.renameSheet old new = e.mapSheet (·.rename old new) := by
  induction e with
  | signed sign operand ih => rw [Expr.renameSheet, ih, Expr.mapSheet]
  | binary op left right ihl ihr => rw [Expr.renameSheet, ihl, ihr, Expr.mapSheet]
  | group inner ih => rw [Expr.renameSheet, ih, Expr.mapSheet]
  | _ => rfl

theorem tokens_mapSheet (f : SheetName → SheetName) (e : Expr) :
    (e.mapSheet f).tokens = e.tokens.map (Token.mapSheet f) := by
  induction e with
  | ref r =>
    obtain ⟨_ | sheet, address⟩ := r
    · rfl
    · rfl
  | signed sign operand ih => simp [Expr.mapSheet, Expr.tokens, ih, Token.mapSheet]
  | binary op left right ihl ihr => simp [Expr.mapSheet, Expr.tokens, ihl, ihr, Token.mapSheet]
  | group inner ih => simp [Expr.mapSheet, Expr.tokens, ih, Token.mapSheet]
  | _ => rfl

variable {f : SheetName → SheetName}

theorem leadingSign?_map (ts : List Token) :
    leadingSign? (ts.map (Token.mapSheet f)) = leadingSign? ts := by
  cases ts with
  | nil => rfl
  | cons t ts => cases t <;> rfl

theorem leadingOperator?_map (accepts : Operator → Bool) (ts : List Token) :
    leadingOperator? accepts (ts.map (Token.mapSheet f)) = leadingOperator? accepts ts := by
  cases ts with
  | nil => rfl
  | cons t ts => cases t <;> rfl

/-! ## Readers -/

/-- What a reader takes off a list are the tokens of its tree, and it reads the tree with other
    sheet names off the list with these names. -/
def Faithful (f : SheetName → SheetName) (read : ExprReader) : Prop :=
  ∀ ts e rest, outcome (read ts) = .ok (e, rest) →
    ts = e.tokens ++ rest ∧
      outcome (read (ts.map (Token.mapSheet f))) = .ok (e.mapSheet f, rest.map (Token.mapSheet f))

variable {inner item : ExprReader} {ts rest : List Token} {e left : Expr}

theorem faithful_operandRead (hinner : Faithful f inner) (h : OperandRead inner ts e rest) :
    ts = e.tokens ++ rest ∧
      OperandRead inner (ts.map (Token.mapSheet f)) (e.mapSheet f)
        (rest.map (Token.mapSheet f)) := by
  cases h with
  | number h rest => exact ⟨rfl, .number h _⟩
  | text s rest => exact ⟨rfl, .text _ _⟩
  | error kind rest => exact ⟨rfl, .error _ _⟩
  | cell address rest => exact ⟨rfl, .cell _ _⟩
  | qualified sheet address rest => exact ⟨rfl, .qualified _ _ _⟩
  | group h =>
    obtain ⟨htokens, hrun⟩ := hinner _ _ _ h
    exact ⟨by simp [Expr.tokens, htokens], .group hrun⟩

theorem faithful_operand (hinner : Faithful f inner) : Faithful f (operand inner) := by
  intro ts e rest hread
  rw [operand_eq_ok_iff] at hread ⊢
  exact faithful_operandRead hinner hread

theorem faithful_factor (hinner : Faithful f inner) : Faithful f (factor inner) := by
  intro ts e rest hread
  rw [factor_eq_ok_iff] at hread ⊢
  rcases hread with hread | ⟨sign, tokens, operand, rfl, rfl, hread⟩
  · obtain ⟨htokens, hrun⟩ := faithful_operandRead hinner hread
    exact ⟨htokens, Or.inl hrun⟩
  · obtain ⟨htokens, hrun⟩ := faithful_operandRead hinner hread
    exact ⟨by simp [Expr.tokens, htokens], Or.inr ⟨sign, _, _, rfl, rfl, hrun⟩⟩

theorem faithful_chainRead (hitem : Faithful f item) {accepts : Operator → Bool}
    (h : ChainRead item accepts left ts e rest) :
    left.tokens ++ ts = e.tokens ++ rest ∧
      ChainRead item accepts (left.mapSheet f) (ts.map (Token.mapSheet f)) (e.mapSheet f)
        (rest.map (Token.mapSheet f)) := by
  induction h with
  | done hnone => exact ⟨rfl, .done (by rw [leadingOperator?_map, hnone])⟩
  | step hop hright _ ih =>
    obtain ⟨htokens, hrun⟩ := hitem _ _ _ hright
    obtain ⟨htail, hchain⟩ := ih
    exact ⟨by rw [← htail, htokens]; simp [Expr.tokens], .step hop hrun hchain⟩

theorem faithful_product (hinner : Faithful f inner) : Faithful f (product inner) := by
  intro ts e rest hread
  rw [product_eq_ok_iff] at hread ⊢
  obtain ⟨first, after, hfirst, hchain⟩ := hread
  obtain ⟨htokens, hrun⟩ := faithful_factor hinner _ _ _ hfirst
  obtain ⟨htail, hrun'⟩ := faithful_chainRead (faithful_factor hinner) hchain
  exact ⟨by rw [htokens, htail], _, _, hrun, hrun'⟩

theorem faithful_sumFrom (hinner : Faithful f inner)
    (hread : outcome (sumFrom inner left ts) = .ok (e, rest)) :
    left.tokens ++ ts = e.tokens ++ rest ∧
      outcome (sumFrom inner (left.mapSheet f) (ts.map (Token.mapSheet f))) =
        .ok (e.mapSheet f, rest.map (Token.mapSheet f)) := by
  rw [sumFrom_eq_ok_iff] at hread ⊢
  obtain ⟨product, after, hproduct, hchain⟩ := hread
  obtain ⟨htokens, hrun⟩ := faithful_chainRead (faithful_factor hinner) hproduct
  obtain ⟨htail, hrun'⟩ := faithful_chainRead (faithful_product hinner) hchain
  exact ⟨by rw [htokens, htail], _, _, hrun, hrun'⟩

theorem faithful_expressionWith (hinner : Faithful f inner) :
    Faithful f (expressionWith inner) := by
  intro ts e rest hread
  rw [expressionWith_eq_ok_iff] at hread ⊢
  obtain ⟨first, after, hfirst, hrest⟩ := hread
  obtain ⟨htokens, hrun⟩ := faithful_factor hinner _ _ _ hfirst
  have htail : first.tokens ++ after = e.tokens ++ rest := by
    rcases hrest with ⟨-, -, hchain⟩ | ⟨-, hsum, -⟩
    · exact (faithful_chainRead (faithful_operand hinner) hchain).1
    · exact (faithful_sumFrom hinner hsum).1
  refine ⟨by rw [htokens, htail], _, _, hrun, ?_⟩
  rw [leadingSign?_map, leadingOperator?_map, leadingOperator?_map]
  rcases hrest with ⟨hsign, hop, hchain⟩ | ⟨hconcat, hsum, hend⟩
  · exact Or.inl ⟨hsign, hop, (faithful_chainRead (faithful_operand hinner) hchain).2⟩
  · exact Or.inr ⟨hconcat, (faithful_sumFrom hinner hsum).2, hend⟩

theorem faithful_expression (n : Nat) : Faithful f (expression n) := by
  induction n with
  | zero =>
    intro ts e rest hread
    simp [expression, outcome, Except.map] at hread
  | succ n ih => exact faithful_expressionWith ih

/-! ## Whole formulas -/

theorem checkLimits_map (opened operators : Nat) (ts : List Token) :
    checkLimits opened operators (ts.map (Token.mapSheet f)) = checkLimits opened operators ts := by
  induction ts generalizing opened operators with
  | nil => rfl
  | cons t ts ih => cases t <;> simp [checkLimits, Token.mapSheet, ih]

/-- The tokens of a tree are those it was read from. -/
theorem tokens_of_parseTokens {ts : List Token} {e : Expr} (h : parseTokens ts = .ok e) :
    e.tokens = ts := by
  obtain ⟨-, -, hread⟩ := parseTokens_eq_ok_iff.1 h
  obtain ⟨htokens, -⟩ := faithful_expression (f := id) _ _ _ _ hread
  rw [htokens, List.append_nil]

/-- Other sheet names in the tokens give the tree with these names. -/
theorem parseTokens_mapSheet {ts : List Token} {e : Expr} (h : parseTokens ts = .ok e)
    (f : SheetName → SheetName) :
    parseTokens (ts.map (Token.mapSheet f)) = .ok (e.mapSheet f) := by
  obtain ⟨hne, hlimits, hread⟩ := parseTokens_eq_ok_iff.1 h
  obtain ⟨-, hrun⟩ := faithful_expression (f := f) _ _ _ _ hread
  rw [parseTokens_eq_ok_iff, checkLimits_map]
  exact ⟨by simpa using hne, hlimits, hrun⟩

/-! ## Trees that come from a text -/

/-- The tree is the one that its own tokens are read as, and the tokens can be written down. -/
structure Expr.Parsed (e : Expr) : Prop where
  wellFormed : ∀ t ∈ e.tokens, t.WellFormed
  parseTokens_eq : parseTokens e.tokens = .ok e

theorem parsed_of_parse {text : String} {e : Expr} (h : parse text = .ok e) : e.Parsed := by
  unfold parse at h
  split at h
  · split at h
    · simp at h
    · rename_i ts hts
      have htokens := tokens_of_parseTokens h
      exact ⟨htokens ▸ wellFormed_of_tokenize hts, htokens ▸ h⟩
  · simp at h

/-- Other sheet names make a tree that can be read as well, if they can be written down. -/
theorem Expr.Parsed.mapSheet {e : Expr} (h : e.Parsed)
    (hf : ∀ sheet : SheetName, sheet.WellFormed → (f sheet).WellFormed) :
    (e.mapSheet f).Parsed := by
  constructor
  · intro t ht
    rw [tokens_mapSheet] at ht
    obtain ⟨u, hu, rfl⟩ := List.mem_map.1 ht
    have hwf := h.wellFormed u hu
    cases u with
    | sheet name => exact hf name hwf
    | _ => exact hwf
  · rw [tokens_mapSheet]
    exact parseTokens_mapSheet h.parseTokens_eq f

theorem Expr.Parsed.isShape {e : Expr} (h : e.Parsed) {r : Reference} (hr : r ∈ e.references) :
    Position.IsShape r.address := by
  have hmem : Token.cell r.address ∈ e.tokens := by
    clear h
    induction e with
    | ref r' =>
      obtain rfl := List.mem_singleton.1 hr
      obtain ⟨_ | sheet, address⟩ := r <;> simp [Expr.tokens, Reference.tokens]
    | signed sign operand ih => exact List.mem_cons_of_mem _ (ih hr)
    | binary op left right ihl ihr =>
      rcases List.mem_append.1 hr with hr | hr
      · exact List.mem_append_left _ (ihl hr)
      · exact List.mem_append_right _ (List.mem_cons_of_mem _ (ihr hr))
    | group inner ih => exact List.mem_cons_of_mem _ (List.mem_append_left _ (ih hr))
    | _ => simp [Expr.references] at hr
  exact h.wellFormed _ hmem

/-! ## The text of a tree -/

/-- A text with the words of a tree after an equals sign is read as that tree. -/
theorem Expr.Parsed.parse_spaced {e : Expr} (h : e.Parsed) {text : String}
    (htext : Spaced (['='] :: e.words) text.toList) : parse text = .ok e := by
  obtain ⟨rest, htrim, hrest⟩ := trimBlank_formula h.wellFormed htext
  rw [parse, htrim]
  simp only [tokenize_spaced h.wellFormed hrest]
  exact h.parseTokens_eq

theorem Expr.toList_toText (e : Expr) : e.toText.toList = (['='] :: e.words).flatten := by
  rw [toText, String.toList_ofList, List.flatten_cons, e.flatten_words, List.singleton_append]

/-- A tree that was read from a text is read back from its own text. -/
theorem Expr.Parsed.parse_toText {e : Expr} (h : e.Parsed) : parse e.toText = .ok e := by
  apply h.parse_spaced
  rw [e.toList_toText]
  exact spaced_flatten _

theorem Expr.Parsed.trimBlank_toText {e : Expr} (h : e.Parsed) :
    trimBlank e.toText.toList = '=' :: e.print := by
  obtain ⟨c, hlast, hblank⟩ : EndsInWord e.toText.toList := by
    rw [e.toList_toText]
    exact endsInWord_flatten (List.cons_ne_nil _ _) (endsInWord_formula h.wellFormed)
  rw [toText, String.toList_ofList] at hlast ⊢
  apply trimBlank_of_ends
  · rintro d ⟨⟩
    rfl
  · intro d hd
    rw [hlast] at hd
    rwa [← Option.some.inj hd]

/-! ## Printing and reading -/

/-- Printing and reading are inverse, also with blanks between the words. A sheet name, its
    exclamation mark and its cell are three words, and the equals sign is one. -/
theorem parse_print_spaced {text : String} {e : Expr} (h : parse text = .ok e) :
    parse e.toText = .ok e ∧
      e.toText.toList = (['='] :: e.words).flatten ∧ tokenize e.print = .ok e.tokens ∧
      ∀ spaced : String, Spaced (['='] :: e.words) spaced.toList → parse spaced = .ok e := by
  have hparsed := parsed_of_parse h
  exact ⟨hparsed.parse_toText, e.toList_toText, tokenize_print hparsed.wellFormed,
    fun spaced hspaced => hparsed.parse_spaced hspaced⟩

/-- Blanks around the exclamation mark of a reference change nothing. -/
theorem parse_print_spaced_qualified :
    parse "=x!A1" = .ok (.ref ⟨some ⟨"x", false⟩, "A1"⟩) ∧
      parse "= x\u2003! A1" = .ok (.ref ⟨some ⟨"x", false⟩, "A1"⟩) := by
  have hparse : parse "=x!A1" = .ok (.ref ⟨some ⟨"x", false⟩, "A1"⟩) := by
    with_unfolding_all rfl
  have hblank {c : Char} (h : isBlank c) : ∀ d ∈ [c], isBlank d := by simpa using h
  have hspaced : Spaced [['='], ['x'], ['!'], ['A', '1']] "= x\u2003! A1".toList :=
    .cons [] (by simp) _ (.cons [' '] (hblank rfl) _ (.cons ['\u2003'] (hblank rfl) _
      (.cons [' '] (hblank rfl) _ (.nil [] (by simp)))))
  exact ⟨hparse, (parse_print_spaced hparse).2.2.2 _ hspaced⟩

end Spreadsheet.Formula
