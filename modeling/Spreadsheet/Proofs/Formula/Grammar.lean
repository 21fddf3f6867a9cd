import Spreadsheet.Proofs.Decimal.Reading
import Spreadsheet.Proofs.Formula.Limits
import Spreadsheet.Proofs.Formula.Parser

/-!
# The grammar of formulas

The parser takes a token list apart from left to right and decides at the first `&` what it has been
reading. The grammar knows nothing of that: it says which lists an expression may be, one rule for
each line of its text. The two agree.

Results:
* `Derives`: the grammar, with the tree of each derivation; chains group to the left.
* `ofText?_of_isNumberText`: a number token denotes what its digits write, if that is in range.
* `derives_of_parseTokens`: what the parser accepts can be derived.
* `parseTokens_of_derives`: what can be derived, within the limits, the parser accepts.
* `parseTokens_iff_derives`: the two together, with the tokens and the references of the tree.
-/

namespace Spreadsheet.Formula

/-! ## Numbers -/

/-- The number written by digits with at most one point among them, in normal form. -/
def writtenNumber (cs : List Char) : Decimal :=
  Decimal.normalize
    ⟨Digits.value (cs.filter Decimal.isDigit), ((cs.dropWhile (· != '.')).drop 1).length⟩

theorem trimBlank_of_isNumberText {cs : List Char} (h : IsNumberText cs) : trimBlank cs = cs :=
  trimBlank_of_ends (fun _ hc => isBlank_of_isNumberText h (List.mem_of_mem_head? hc))
    (fun _ hc => isBlank_of_isNumberText h (List.mem_of_getLast? hc))

/-- A point among digits writes the number that its digits write, at the scale of the point. -/
theorem toRat_writtenNumber {whole fraction : List Char} (hwhole : Decimal.IsDigits whole)
    (hfraction : Decimal.IsDigits fraction) :
    (writtenNumber (whole ++ '.' :: fraction)).toRat = Decimal.pointed whole fraction := by
  have hpoint : ∀ c ∈ whole, (c != '.') = true := fun c hc => by
    simpa using (Decimal.ne_of_isDigit (hwhole c hc)).1
  have hdigits : (whole ++ '.' :: fraction).filter Decimal.isDigit = whole ++ fraction := by
    rw [List.filter_append, List.filter_eq_self.2 hwhole, List.filter_cons_of_neg (by decide),
      List.filter_eq_self.2 hfraction]
  have hplaces : ((whole ++ '.' :: fraction).dropWhile (· != '.')).drop 1 = fraction := by
    rw [List.dropWhile_append_of_pos hpoint]
    rfl
  rw [writtenNumber, Decimal.toRat_normalize, hdigits, hplaces, Decimal.toRat, Decimal.pointed,
    zpow_neg, zpow_natCast, div_eq_mul_inv]
  rfl

/-- A number token is a number of the grammar of numbers, without sign and exponent. -/
theorem denotes_of_isNumberText {cs : List Char} (h : IsNumberText cs) :
    Decimal.Denotes cs (writtenNumber cs).toRat := by
  have hmantissa : Decimal.Mantissa cs (writtenNumber cs).toRat := by
    obtain ⟨whole, hwhole, ⟨rfl, hne⟩ | ⟨fraction, hfraction, rfl, hne⟩⟩ := h
    · have hpoint : ∀ c ∈ cs, (c != '.') = true := fun c hc => by
        simpa using (Decimal.ne_of_isDigit (hwhole c hc)).1
      have hvalue : (writtenNumber cs).toRat = Digits.value cs := by
        rw [writtenNumber, Decimal.toRat_normalize, List.filter_eq_self.2 hwhole,
          List.dropWhile_eq_nil_iff.2 hpoint]
        simp [Decimal.toRat]
      rw [hvalue]
      exact .whole hwhole hne
    · rw [toRat_writtenNumber hwhole hfraction, Decimal.pointed_eq]
      by_cases hnil : whole = []
      · subst hnil
        simpa [Digits.value] using
          Decimal.Mantissa.fraction hfraction (hne.resolve_left (not_not.2 rfl))
      · exact .point hwhole hnil hfraction
  simpa using Decimal.Denotes.intro .absent hmantissa .absent

/-- A number token denotes the number that its digits write, if that is in range. -/
theorem ofText?_of_isNumberText {text : String} (h : IsNumberText text.toList) :
    Decimal.ofText? text =
      if (writtenNumber text.toList).inRange then some (writtenNumber text.toList) else none := by
  have hdenotes : Decimal.Denotes (trimBlank text.toList) (writtenNumber text.toList).toRat := by
    rw [trimBlank_of_isNumberText h]
    exact denotes_of_isNumberText h
  have hnormal : (writtenNumber text.toList).IsNormal := Decimal.isNormal_normalize _
  rw [hdenotes.ofText?_eq, hnormal.normalize_eq]

/-- A number is in range; other tokens have no range. -/
def Token.InRange : Token → Prop
  | number written => (writtenNumber written.toList).inRange
  | _ => True

/-! ## The grammar -/

/-- The symbols of the grammar. -/
inductive Symbol where
  | expression
  | sum
  | product
  | factor
  | concatenation
  | operand

/-- The token list can be derived from the symbol, and the tree is that of the derivation. -/
inductive Derives : Symbol → List Token → Expr → Prop
  | expression_sum {ts : List Token} {e : Expr} (h : Derives .sum ts e) : Derives .expression ts e
  | expression_concatenation {ts : List Token} {e : Expr} (h : Derives .concatenation ts e) :
      Derives .expression ts e
  | sum_product {ts : List Token} {e : Expr} (h : Derives .product ts e) : Derives .sum ts e
  | sum_more {ts us : List Token} {left right : Expr} {op : Operator} (hleft : Derives .sum ts left)
      (hop : op = .add ∨ op = .sub) (hright : Derives .product us right) :
      Derives .sum (ts ++ .operator op :: us) (.binary op left right)
  | product_factor {ts : List Token} {e : Expr} (h : Derives .factor ts e) : Derives .product ts e
  | product_more {ts us : List Token} {left right : Expr} {op : Operator}
      (hleft : Derives .product ts left) (hop : op = .mul ∨ op = .div)
      (hright : Derives .factor us right) :
      Derives .product (ts ++ .operator op :: us) (.binary op left right)
  | factor_operand {ts : List Token} {e : Expr} (h : Derives .operand ts e) : Derives .factor ts e
  | factor_signed (sign : Sign) {ts : List Token} {e : Expr} (h : Derives .operand ts e) :
      Derives .factor (.operator sign.operator :: ts) (.signed sign e)
  | concatenation_operand {ts : List Token} {e : Expr} (h : Derives .operand ts e) :
      Derives .concatenation ts e
  | concatenation_more {ts us : List Token} {left right : Expr}
      (hleft : Derives .concatenation ts left) (hright : Derives .operand us right) :
      Derives .concatenation (ts ++ .operator .concat :: us) (.binary .concat left right)
  | number (text : String) :
      Derives .operand [.number text] (.number text (writtenNumber text.toList))
  | text (s : String) : Derives .operand [.text s] (.text s)
  | error (kind : ErrorKind) : Derives .operand [.error kind] (.error kind)
  | cell (address : String) : Derives .operand [.cell address] (.ref ⟨none, address⟩)
  | qualified (sheet : SheetName) (address : String) :
      Derives .operand [.sheet sheet, .cell address] (.ref ⟨some sheet, address⟩)
  | group {ts : List Token} {e : Expr} (h : Derives .expression ts e) :
      Derives .operand (.opening :: ts ++ [.closing]) (.group e)

theorem tokens_of_derives {s : Symbol} {ts : List Token} {e : Expr} (h : Derives s ts e) :
    e.tokens = ts := by
  induction h with
  | sum_more _ _ _ ihl ihr => rw [Expr.tokens, ihl, ihr]
  | product_more _ _ _ ihl ihr => rw [Expr.tokens, ihl, ihr]
  | factor_signed sign _ ih => rw [Expr.tokens, ih]
  | concatenation_more _ _ ihl ihr => rw [Expr.tokens, ihl, ihr]
  | group _ ih => rw [Expr.tokens, ih]
  | number | text | error | cell | qualified => rfl
  | _ => assumption

variable {inner item : ExprReader} {accepts : Operator → Bool} {s t : Symbol}
variable {ts rest : List Token} {e left right : Expr} {op : Operator}

/-! ## What is accepted can be derived -/

/-- The tree is that of a derivation from the symbol, with its numbers in range, if its tokens can
    be written down. -/
def Expr.Matches (e : Expr) (s : Symbol) : Prop :=
  (∀ t ∈ e.tokens, t.WellFormed) → Derives s e.tokens e ∧ ∀ t ∈ e.tokens, t.InRange

theorem Expr.Matches.rule (h : e.Matches s) (hrule : Derives s e.tokens e → Derives t e.tokens e) :
    e.Matches t := by
  intro hwf
  obtain ⟨hderives, hrange⟩ := h hwf
  exact ⟨hrule hderives, hrange⟩

theorem Expr.Matches.binary (hleft : left.Matches s) (hright : right.Matches t)
    (hrule : ∀ {ts us}, Derives s ts left → Derives t us right →
      Derives s (ts ++ .operator op :: us) (.binary op left right)) :
    (Expr.binary op left right).Matches s := by
  intro hwf
  simp only [Expr.tokens, List.forall_mem_append, List.forall_mem_cons] at hwf ⊢
  obtain ⟨hl, hlrange⟩ := hleft hwf.1
  obtain ⟨hr, hrrange⟩ := hright hwf.2.2
  exact ⟨hrule hl hr, hlrange, trivial, hrrange⟩

/-- Every tree that the reader gives is that of a derivation from the symbol. -/
def Sound (read : ExprReader) (s : Symbol) : Prop :=
  ∀ ts e rest, outcome (read ts) = .ok (e, rest) → e.Matches s

theorem matches_of_operandRead (hinner : Sound inner .expression)
    (h : OperandRead inner ts e rest) : e.Matches .operand := by
  cases h with
  | @number text value h rest =>
    intro hwf
    have hnumber : IsNumberText text.toList := hwf _ (List.mem_singleton_self _)
    rw [ofText?_of_isNumberText hnumber] at h
    split at h
    · rename_i hrange
      obtain rfl := Option.some.inj h
      exact ⟨.number text, by simpa [Expr.tokens, Token.InRange] using hrange⟩
    · simp at h
  | text s rest => exact fun _ => ⟨.text s, by simp [Expr.tokens, Token.InRange]⟩
  | error kind rest => exact fun _ => ⟨.error kind, by simp [Expr.tokens, Token.InRange]⟩
  | cell address rest =>
    exact fun _ => ⟨.cell address, by simp [Expr.tokens, Reference.tokens, Token.InRange]⟩
  | qualified sheet address rest =>
    exact fun _ => ⟨.qualified sheet address,
      by simp [Expr.tokens, Reference.tokens, Token.InRange]⟩
  | group h =>
    intro hwf
    simp only [Expr.tokens, List.forall_mem_append, List.forall_mem_cons] at hwf ⊢
    obtain ⟨hderives, hrange⟩ := hinner _ _ _ h hwf.1.2
    exact ⟨.group hderives, ⟨trivial, hrange⟩, trivial, by simp⟩

theorem sound_operand (hinner : Sound inner .expression) : Sound (operand inner) .operand :=
  fun _ _ _ h => matches_of_operandRead hinner (operand_eq_ok_iff.1 h)

theorem sound_factor (hinner : Sound inner .expression) : Sound (factor inner) .factor := by
  intro ts e rest h
  rcases factor_eq_ok_iff.1 h with hread | ⟨sign, tokens, operand, rfl, rfl, hread⟩
  · exact (matches_of_operandRead hinner hread).rule .factor_operand
  · intro hwf
    simp only [Expr.tokens, List.forall_mem_cons] at hwf ⊢
    obtain ⟨hderives, hrange⟩ := matches_of_operandRead hinner hread hwf.2
    exact ⟨.factor_signed sign hderives, trivial, hrange⟩

theorem matches_of_chainRead (hitem : Sound item t)
    (hrule : ∀ {op ts us left right}, accepts op → Derives s ts left → Derives t us right →
      Derives s (ts ++ .operator op :: us) (.binary op left right))
    (h : ChainRead item accepts left ts e rest) (hleft : left.Matches s) : e.Matches s := by
  induction h with
  | done => exact hleft
  | step hop hright _ ih => exact ih (hleft.binary (hitem _ _ _ hright) (hrule hop))

theorem derives_product_of_accepts {us : List Token} (hop : isProductOp op)
    (hleft : Derives .product ts left) (hright : Derives .factor us right) :
    Derives .product (ts ++ .operator op :: us) (.binary op left right) :=
  .product_more hleft (by simpa [isProductOp] using hop) hright

theorem sound_product (hinner : Sound inner .expression) : Sound (product inner) .product := by
  intro ts e rest h
  obtain ⟨first, after, hfirst, hchain⟩ := product_eq_ok_iff.1 h
  exact matches_of_chainRead (sound_factor hinner) derives_product_of_accepts hchain
    ((sound_factor hinner _ _ _ hfirst).rule .product_factor)

theorem matches_of_sumFrom (hinner : Sound inner .expression) (hleft : left.Matches .factor)
    (h : outcome (sumFrom inner left ts) = .ok (e, rest)) : e.Matches .sum := by
  obtain ⟨product, after, hproduct, hchain⟩ := sumFrom_eq_ok_iff.1 h
  have hmatches := matches_of_chainRead (sound_factor hinner) derives_product_of_accepts hproduct
    (hleft.rule .product_factor)
  refine matches_of_chainRead (sound_product hinner) ?_ hchain (hmatches.rule .sum_product)
  intro op ts us left right hop hl hr
  exact .sum_more hl (by simpa [isSumOp] using hop) hr

theorem sound_expressionWith (hinner : Sound inner .expression) :
    Sound (expressionWith inner) .expression := by
  intro ts e rest h
  obtain ⟨first, after, hfirst, ⟨hsign, -, hchain⟩ | ⟨-, hsum, -⟩⟩ := expressionWith_eq_ok_iff.1 h
  · -- without a sign the first factor is an operand
    have hoperand : first.Matches .operand := by
      rcases factor_eq_ok_iff.1 hfirst with hread | ⟨sign, tokens, operand, rfl, -, -⟩
      · exact matches_of_operandRead hinner hread
      · rw [leadingSign?_operator] at hsign
        simp at hsign
    refine (matches_of_chainRead (sound_operand hinner) ?_ hchain
      (hoperand.rule .concatenation_operand)).rule .expression_concatenation
    intro op ts us left right hop hl hr
    obtain rfl : op = .concat := by simpa [isConcatOp] using hop
    exact .concatenation_more hl hr
  · exact (matches_of_sumFrom hinner (sound_factor hinner _ _ _ hfirst) hsum).rule .expression_sum

theorem sound_expression (n : Nat) : Sound (expression n) .expression := by
  induction n with
  | zero =>
    intro ts e rest h
    simp [expression, outcome, Except.map] at h
  | succ n ih => exact sound_expressionWith ih

/-! ## What can be derived is accepted -/

/-- The tree is nested less than `n` deep, and its numbers are in range. -/
structure Expr.Readable (n : Nat) (e : Expr) : Prop where
  depth_lt : e.depth < n
  wellFormed : ∀ t ∈ e.tokens, t.WellFormed
  inRange : ∀ t ∈ e.tokens, t.InRange

theorem Expr.Readable.signed {n : Nat} {sign : Sign} (h : (Expr.signed sign e).Readable n) :
    e.Readable n :=
  ⟨h.depth_lt, (List.forall_mem_cons.1 h.wellFormed).2, (List.forall_mem_cons.1 h.inRange).2⟩

theorem Expr.Readable.binary {n : Nat} (h : (Expr.binary op left right).Readable n) :
    left.Readable n ∧ right.Readable n := by
  obtain ⟨hdepth, hwf, hrange⟩ := h
  simp only [Expr.depth, Expr.tokens, List.forall_mem_append, List.forall_mem_cons]
    at hdepth hwf hrange
  exact ⟨⟨by omega, hwf.1, hrange.1⟩, ⟨by omega, hwf.2.2, hrange.2.2⟩⟩

theorem Expr.Readable.group {n : Nat} (h : (Expr.group e).Readable (n + 1)) : e.Readable n := by
  obtain ⟨hdepth, hwf, hrange⟩ := h
  simp only [Expr.depth, Expr.tokens, List.forall_mem_append, List.forall_mem_cons]
    at hdepth hwf hrange
  exact ⟨by omega, hwf.1.2, hrange.1.2⟩

/-- No operator follows. -/
def NoOperator (rest : List Token) : Prop :=
  ∀ accepts, leadingOperator? accepts rest = none

/-- The reader gives every tree that can be derived and is nested less than `n` deep. -/
def Complete (read : ExprReader) (n : Nat) : Prop :=
  ∀ ts e rest, Derives .expression ts e → e.Readable n → NoOperator rest →
    outcome (read (ts ++ rest)) = .ok (e, rest)

theorem operandRead_of_derives {n : Nat} (hinner : Complete inner n) (h : Derives .operand ts e)
    (he : e.Readable (n + 1)) (rest : List Token) : OperandRead inner (ts ++ rest) e rest := by
  cases h with
  | number text =>
    have hnumber : IsNumberText text.toList := he.wellFormed _ (List.mem_singleton_self _)
    have hrange : (writtenNumber text.toList).inRange := he.inRange _ (List.mem_singleton_self _)
    exact .number (by rw [ofText?_of_isNumberText hnumber, if_pos hrange]) rest
  | text s => exact .text s rest
  | error kind => exact .error kind rest
  | cell address => exact .cell address rest
  | qualified sheet address => exact .qualified sheet address rest
  | @group tokens e h =>
    have hclosing : NoOperator (.closing :: rest) := fun _ => rfl
    rw [List.append_assoc]
    exact .group (hinner tokens e (.closing :: rest) h he.group hclosing)

theorem factor_of_derives {n : Nat} (hinner : Complete inner n) (h : Derives .factor ts e)
    (he : e.Readable (n + 1)) (rest : List Token) :
    outcome (factor inner (ts ++ rest)) = .ok (e, rest) := by
  rw [factor_eq_ok_iff]
  cases h with
  | factor_operand h => exact Or.inl (operandRead_of_derives hinner h he rest)
  | factor_signed sign h =>
    exact Or.inr ⟨sign, _, _, rfl, rfl, operandRead_of_derives hinner h he.signed rest⟩

/-- A chain of items joined by accepted operators, grouped to the left. -/
inductive Chain (Item : List Token → Expr → Prop) (accepts : Operator → Bool) :
    List Token → Expr → Prop
  | one {ts : List Token} {e : Expr} (h : Item ts e) : Chain Item accepts ts e
  | more {ts us : List Token} {left right : Expr} {op : Operator}
      (hleft : Chain Item accepts ts left) (hop : accepts op) (hright : Item us right) :
      Chain Item accepts (ts ++ .operator op :: us) (.binary op left right)

/-- Three symbols of the grammar are chains. -/
theorem chain_of_derives (h : Derives s ts e) :
    match s with
    | .sum => Chain (Derives .product) isSumOp ts e
    | .product => Chain (Derives .factor) isProductOp ts e
    | .concatenation => Chain (Derives .operand) isConcatOp ts e
    | _ => True := by
  induction h with
  | sum_product h => exact .one h
  | sum_more _ hop hright ih => exact .more ih (by simpa [isSumOp] using hop) hright
  | product_factor h => exact .one h
  | product_more _ hop hright ih => exact .more ih (by simpa [isProductOp] using hop) hright
  | concatenation_operand h => exact .one h
  | concatenation_more _ hright ih => exact .more ih rfl hright
  | _ => trivial

/-- A chain is read from its first item on, if the reader of items reads each of them before what
    may follow an item. -/
theorem chainRead_of_chain {Item : List Token → Expr → Prop} {n : Nat}
    {Follows : List Token → Prop}
    (hitem : ∀ {ts e rest}, Item ts e → e.Readable n → Follows rest →
      outcome (item (ts ++ rest)) = .ok (e, rest))
    (hfollows : ∀ {op} ts, accepts op → Follows (.operator op :: ts))
    (h : Chain Item accepts ts e) (he : e.Readable n) (hrest : Follows rest) {e' : Expr}
    {rest' : List Token} (hread : ChainRead item accepts e rest e' rest') :
    ∃ first after, outcome (item (ts ++ rest)) = .ok (first, after) ∧
      ChainRead item accepts first after e' rest' := by
  induction h generalizing rest with
  | one h => exact ⟨_, _, hitem h he hrest, hread⟩
  | @more ts us left right op _ hop hright ih =>
    obtain ⟨hl, hr⟩ := he.binary
    rw [List.append_assoc]
    exact ih hl (hfollows _ hop) (.step hop (hitem hright hr hrest) hread)

theorem product_of_derives {n : Nat} (hinner : Complete inner n) (h : Derives .product ts e)
    (he : e.Readable (n + 1)) (hrest : leadingOperator? isProductOp rest = none) :
    outcome (product inner (ts ++ rest)) = .ok (e, rest) := by
  rw [product_eq_ok_iff]
  exact chainRead_of_chain (fun h he (_ : True) => factor_of_derives hinner h he _)
    (fun _ _ => trivial) (chain_of_derives h) he trivial (.done hrest)

/-- What follows a product of a sum is no product operator. -/
theorem leadingOperator?_of_isSumOp (hop : isSumOp op) (ts : List Token) :
    leadingOperator? isProductOp (.operator op :: ts) = none := by
  cases op <;> first | rfl | simp [isSumOp] at hop

/-- A chain that has been read up to its end, where no `&` follows, had no `&` after its first item
    either. -/
theorem ChainRead.not_concat (h : ChainRead item accepts left ts e rest)
    (haccepts : accepts .concat = false) (hrest : leadingOperator? isConcatOp rest = none) :
    leadingOperator? isConcatOp ts = none := by
  cases h with
  | done => exact hrest
  | @step _ _ _ op _ _ _ hop =>
    cases op <;> first | rfl | simp [haccepts] at hop

theorem expressionWith_of_sum {n : Nat} (hinner : Complete inner n) (h : Derives .sum ts e)
    (he : e.Readable (n + 1)) (hrest : NoOperator rest) :
    outcome (expressionWith inner (ts ++ rest)) = .ok (e, rest) := by
  obtain ⟨left, after, hleft, hsum⟩ := chainRead_of_chain
    (product_of_derives hinner) (fun ts hop => leadingOperator?_of_isSumOp hop ts)
    (chain_of_derives h) he (hrest _) (.done (hrest isSumOp))
  obtain ⟨first, after', hfirst, hproduct⟩ := product_eq_ok_iff.1 hleft
  have hconcat : leadingOperator? isConcatOp after' = none :=
    hproduct.not_concat rfl (hsum.not_concat rfl (hrest _))
  rw [expressionWith_eq_ok_iff]
  exact ⟨first, after', hfirst, Or.inr ⟨by simp [hconcat],
    sumFrom_eq_ok_iff.2 ⟨left, after, hproduct, hsum⟩, hrest _⟩⟩

theorem expressionWith_of_concatenation {n : Nat} (hinner : Complete inner n)
    (h : Derives .concatenation ts e) (he : e.Readable (n + 1)) (hrest : NoOperator rest) :
    outcome (expressionWith inner (ts ++ rest)) = .ok (e, rest) := by
  obtain ⟨first, after, hfirst, hchain⟩ := chainRead_of_chain
    (fun h he (_ : True) => operand_eq_ok_iff.2 (operandRead_of_derives hinner h he _))
    (fun _ _ => trivial) (chain_of_derives h) he trivial (.done (hrest isConcatOp))
  have hread := operand_eq_ok_iff.1 hfirst
  rw [expressionWith_eq_ok_iff]
  refine ⟨first, after, factor_eq_ok_iff.2 (Or.inl hread), ?_⟩
  cases hchain with
  | done =>
    -- a single operand is read as a sum
    exact Or.inr ⟨by simp [hrest isConcatOp],
      sumFrom_eq_ok_iff.2 ⟨e, rest, .done (hrest _), .done (hrest _)⟩, hrest _⟩
  | step hop hright hchain =>
    exact Or.inl ⟨hread.leadingSign?_eq, by simp [leadingOperator?_of_accepts hop],
      .step hop hright hchain⟩

theorem complete_expression (n : Nat) : Complete (expression n) n := by
  induction n with
  | zero =>
    intro ts e rest _ he
    exact absurd he.depth_lt (Nat.not_lt_zero _)
  | succ n ih =>
    intro ts e rest h he hrest
    cases h with
    | expression_sum h => exact expressionWith_of_sum ih h he hrest
    | expression_concatenation h => exact expressionWith_of_concatenation ih h he hrest

/-! ## Whole formulas -/

/-- What the parser accepts can be derived. -/
theorem derives_of_parseTokens (hwf : ∀ t ∈ ts, t.WellFormed) (h : parseTokens ts = .ok e) :
    WithinLimits ts ∧ (∀ t ∈ ts, t.InRange) ∧ Derives .expression ts e := by
  obtain ⟨-, hlimits, hread⟩ := parseTokens_eq_ok_iff.1 h
  obtain rfl := tokens_of_parseTokens h
  obtain ⟨hderives, hrange⟩ := sound_expression _ _ _ _ hread hwf
  exact ⟨(checkLimits_tokens e).1 hlimits, hrange, hderives⟩

/-- What can be derived, within the limits, the parser accepts. -/
theorem parseTokens_of_derives (hwf : ∀ t ∈ ts, t.WellFormed) (hlimits : WithinLimits ts)
    (hrange : ∀ t ∈ ts, t.InRange) (h : Derives .expression ts e) : parseTokens ts = .ok e := by
  obtain rfl := tokens_of_derives h
  have hread := complete_expression (maxOpen + 1) _ _ []  h
    ⟨Nat.lt_succ_of_le (depth_le_of_withinLimits hlimits), hwf, hrange⟩ fun _ => rfl
  rw [List.append_nil] at hread
  have hne : e.tokens ≠ [] := by
    intro hnil
    rw [hnil] at hread
    simp [expression, expressionWith, factor, operand, outcome, Except.map] at hread
  exact parseTokens_eq_ok_iff.2 ⟨hne, (checkLimits_tokens e).2 hlimits, hread⟩

/-! ## References -/

/-- The references that stand in a token list, from left to right, in upper case. -/
def tokenTargets : List Token → List Target
  | .sheet name :: .cell address :: ts => .on (upper name.name) (upper address) :: tokenTargets ts
  | .cell address :: ts => .here (upper address) :: tokenTargets ts
  | _ :: ts => tokenTargets ts
  | [] => []

theorem tokenTargets_append (e : Expr) (rest : List Token) :
    tokenTargets (e.tokens ++ rest) = e.targets ++ tokenTargets rest := by
  induction e generalizing rest with
  | ref r => obtain ⟨_ | sheet, address⟩ := r <;> rfl
  | signed sign operand ih => exact ih rest
  | binary op left right ihl ihr =>
    have hright : tokenTargets (.operator op :: (right.tokens ++ rest)) =
        right.targets ++ tokenTargets rest := ihr rest
    rw [Expr.tokens, List.append_assoc, List.cons_append, ihl, hright]
    simp [Expr.targets, Expr.references]
  | group inner ih =>
    have hclosing : tokenTargets (.closing :: rest) = tokenTargets rest := rfl
    show tokenTargets ((inner.tokens ++ [.closing]) ++ rest) = _
    rw [List.append_assoc, List.singleton_append, ih, hclosing]
    rfl
  | _ => rfl

/-- The parser accepts the lists of the grammar that are within the limits and have their numbers in
    range. The tree is that of the derivation; its tokens are the list, and its references those of
    the list. -/
theorem parseTokens_iff_derives {cs : List Char} (h : tokenize cs = .ok ts) :
    (∀ e, parseTokens ts = .ok e ↔
      WithinLimits ts ∧ (∀ t ∈ ts, t.InRange) ∧ Derives .expression ts e) ∧
      ∀ e, parseTokens ts = .ok e → e.tokens = ts ∧ e.targets = tokenTargets ts := by
  have hwf := wellFormed_of_tokenize h
  refine ⟨fun e => ⟨derives_of_parseTokens hwf, ?_⟩, fun e he => ?_⟩
  · rintro ⟨hlimits, hrange, hderives⟩
    exact parseTokens_of_derives hwf hlimits hrange hderives
  · have htokens := tokens_of_parseTokens he
    have htargets := tokenTargets_append e []
    rw [List.append_nil, tokenTargets, List.append_nil, htokens] at htargets
    exact ⟨htokens, htargets.symm⟩

/-- A reference in parentheses, minus a number with a point at its end. -/
theorem parseTokens_iff_derives_sub :
    parseTokens [.opening, .cell "a1", .closing, .operator .sub, .number "1."] =
      .ok (.binary .sub (.group (.ref ⟨none, "a1"⟩)) (.number "1." ⟨1, 0⟩)) := by
  have htokens : tokenize ['(', 'a', '1', ')', '-', '1', '.'] =
      .ok [.opening, .cell "a1", .closing, .operator .sub, .number "1."] := by
    with_unfolding_all rfl
  refine ((parseTokens_iff_derives htokens).1 _).2 ⟨⟨?_, by decide⟩, ?_, ?_⟩
  · intro pre hpre
    have hlength := List.count_le_length (a := .opening) (l := pre)
    have hle := hpre.length_le
    simp only [List.length_cons, List.length_nil] at hle
    simp only [maxOpen]
    omega
  · simp only [List.forall_mem_cons, Token.InRange]
    exact ⟨trivial, trivial, trivial, trivial, by with_unfolding_all rfl, by simp⟩
  · exact .expression_sum (.sum_more (.sum_product (.product_factor (.factor_operand
      (.group (.expression_sum (.sum_product (.product_factor (.factor_operand (.cell "a1")))))))))
      (Or.inr rfl) (.product_factor (.factor_operand (.number "1."))))

end Spreadsheet.Formula
