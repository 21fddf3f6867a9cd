import Spreadsheet.Proofs.Decimal.Magnitude
import Spreadsheet.Proofs.Text.Blank

/-!
# The numbers that texts denote

The grammar of numbers says which texts are numbers and which number each of them denotes, part by
part. Reading takes a text apart from left to right. It finds the number of every text that the
grammar allows, if that number may be stored. An exponent that is out of reach for the digits of the
text is not applied to them.

Results:
* `Denotes`: the grammar, with the number of each text; `Denotes.unique`: there is one such number.
* `denotes_of_read?`, `exists_read?`: reading follows the grammar.
* `value?_eq`: the cut-off for large exponents decides as the range of exponents does.
* `Denotes.ofText?_eq`: how a text that denotes a known number is read.
* `ofText?_denotes`: what is read is what is denoted.
-/

namespace Spreadsheet.Decimal

open Digits (value)

/-! ## The grammar of numbers -/

/-- An optional sign, and the factor that it stands for. -/
inductive Signed : List Char → ℤ → Prop
  | absent : Signed [] 1
  | plus : Signed ['+'] 1
  | minus : Signed ['-'] (-1)

/-- All characters are digits. -/
def IsDigits (ds : List Char) : Prop :=
  ∀ c ∈ ds, isDigit c

/-- Digits with an optional point, not both before and after it none, and the number that they
    write. -/
inductive Mantissa : List Char → ℚ → Prop
  | whole {ds : List Char} (hds : IsDigits ds) (hne : ds ≠ []) : Mantissa ds (value ds)
  | point {ds fs : List Char} (hds : IsDigits ds) (hne : ds ≠ []) (hfs : IsDigits fs) :
      Mantissa (ds ++ '.' :: fs) (value ds + value fs / 10 ^ fs.length)
  | fraction {fs : List Char} (hfs : IsDigits fs) (hne : fs ≠ []) :
      Mantissa ('.' :: fs) (value fs / 10 ^ fs.length)

/-- An optional power of ten, and its exponent. -/
inductive Exponent : List Char → ℤ → Prop
  | absent : Exponent [] 0
  | present {mark : Char} {sign ds : List Char} {factor : ℤ} (hmark : mark = 'e' ∨ mark = 'E')
      (hsign : Signed sign factor) (hds : IsDigits ds) (hne : ds ≠ []) :
      Exponent (mark :: (sign ++ ds)) (factor * value ds)

/-- The text is a number, `[+-]? (d+ [. d*] | . d+) ([eE] [+-]? d+)?`, and this is the number that
    it denotes. -/
inductive Denotes : List Char → ℚ → Prop
  | intro {sign mantissa exponent : List Char} {factor e : ℤ} {m : ℚ} (hsign : Signed sign factor)
      (hmantissa : Mantissa mantissa m) (hexponent : Exponent exponent e) :
      Denotes (sign ++ (mantissa ++ exponent)) (factor * m * 10 ^ e)

/-! ## Signs -/

/-- The factor of a sign that has been read. -/
def signFactor (negative : Bool) : ℤ :=
  if negative then -1 else 1

theorem signed_readSign (cs : List Char) :
    ∃ sign, cs = sign ++ (readSign cs).2 ∧ Signed sign (signFactor (readSign cs).1) := by
  unfold readSign
  split
  · exact ⟨['-'], rfl, .minus⟩
  · exact ⟨['+'], rfl, .plus⟩
  · exact ⟨[], rfl, .absent⟩

theorem readSign_of_head {cs : List Char} (h : ∀ c ∈ cs.head?, c ≠ '-' ∧ c ≠ '+') :
    readSign cs = (false, cs) := by
  unfold readSign
  split
  · exact absurd rfl (h _ rfl).1
  · exact absurd rfl (h _ rfl).2
  · rfl

theorem Signed.readSign {sign : List Char} {factor : ℤ} (h : Signed sign factor) {rest : List Char}
    (hrest : ∀ c ∈ rest.head?, c ≠ '-' ∧ c ≠ '+') :
    ∃ negative, Decimal.readSign (sign ++ rest) = (negative, rest) ∧
      signFactor negative = factor := by
  cases h with
  | absent => exact ⟨false, readSign_of_head hrest, rfl⟩
  | plus => exact ⟨false, rfl, rfl⟩
  | minus => exact ⟨true, rfl, rfl⟩

/-! ## Digits and points -/

theorem ne_of_isDigit {c : Char} (h : isDigit c) : c ≠ '.' ∧ c ≠ '-' ∧ c ≠ '+' := by
  refine ⟨?_, ?_, ?_⟩ <;>
  · rintro rfl
    exact absurd h (by decide)

theorem isDigits_takeWhile (cs : List Char) : IsDigits (cs.takeWhile isDigit) :=
  fun _ hc => List.mem_takeWhile_imp hc

/-- The number that the digits around a point write. -/
def pointed (whole fraction : List Char) : ℚ :=
  value (whole ++ fraction) / 10 ^ fraction.length

theorem pointed_eq (whole fraction : List Char) :
    pointed whole fraction = value whole + value fraction / 10 ^ fraction.length := by
  have hpos : (10 : ℚ) ^ fraction.length ≠ 0 := by positivity
  rw [pointed, Digits.value_append]
  push_cast
  field_simp

theorem readFraction_spec (cs : List Char) :
    IsDigits (Literal.readFraction cs).1 ∧
      (cs = '.' :: ((Literal.readFraction cs).1 ++ (Literal.readFraction cs).2) ∨
        Literal.readFraction cs = ([], cs)) := by
  unfold Literal.readFraction
  split
  · exact ⟨isDigits_takeWhile _, Or.inl (by rw [List.takeWhile_append_dropWhile])⟩
  · exact ⟨by simp [IsDigits], Or.inr rfl⟩

theorem readFraction_of_head {cs : List Char} (h : ∀ c ∈ cs.head?, c ≠ '.') :
    Literal.readFraction cs = ([], cs) := by
  unfold Literal.readFraction
  split
  · exact absurd rfl (h _ rfl)
  · rfl

/-- The digits around a point that are taken off the front of a text are a mantissa. -/
theorem mantissa_takeWhile {cs fraction rest : List Char}
    (h : Literal.readFraction (cs.dropWhile isDigit) = (fraction, rest))
    (hne : ¬ (cs.takeWhile isDigit = [] ∧ fraction = [])) :
    ∃ mantissa, cs = mantissa ++ rest ∧
      Mantissa mantissa (pointed (cs.takeWhile isDigit) fraction) := by
  obtain ⟨hfraction, hsplit⟩ := readFraction_spec (cs.dropWhile isDigit)
  rw [h] at hfraction hsplit
  have hcs := List.takeWhile_append_dropWhile (p := isDigit) (l := cs)
  have hwhole := isDigits_takeWhile cs
  generalize cs.takeWhile isDigit = whole at hcs hwhole hne ⊢
  rw [pointed_eq]
  rcases hsplit with hsplit | hsplit
  · rw [hsplit] at hcs
    refine ⟨whole ++ '.' :: fraction, by simp [← hcs], ?_⟩
    by_cases hwhole' : whole = []
    · subst hwhole'
      have hfraction' : fraction ≠ [] := fun hnil => hne ⟨rfl, hnil⟩
      simpa [value] using Mantissa.fraction hfraction hfraction'
    · exact .point hwhole hwhole' hfraction
  · obtain ⟨rfl, hrest⟩ := Prod.mk.inj hsplit
    have hwhole' : whole ≠ [] := fun hnil => hne ⟨hnil, rfl⟩
    rw [← hrest] at hcs
    exact ⟨whole, hcs.symm, by simpa [value] using Mantissa.whole hwhole hwhole'⟩

/-- A mantissa is taken off the front of a text if what follows does not continue it. -/
theorem Mantissa.readFraction {mantissa : List Char} {m : ℚ} (h : Mantissa mantissa m)
    {rest : List Char} (hrest : ∀ c ∈ rest.head?, isDigit c = false ∧ c ≠ '.') :
    ∃ whole fraction, (mantissa ++ rest).takeWhile isDigit = whole ∧
      Literal.readFraction ((mantissa ++ rest).dropWhile isDigit) = (fraction, rest) ∧
      ¬ (whole = [] ∧ fraction = []) ∧ m = pointed whole fraction := by
  have hpoint {fs : List Char} (hfs : IsDigits fs) :
      Literal.readFraction ('.' :: (fs ++ rest)) = (fs, rest) := by
    obtain ⟨htake, hdrop⟩ := span_append hfs fun c hc => (hrest c hc).1
    rw [Literal.readFraction, htake, hdrop]
  have hdot (fs : List Char) : ∀ c ∈ ('.' :: fs).head?, isDigit c = false := by
    simp [isDigit]
  cases h with
  | whole hds hne =>
    obtain ⟨htake, hdrop⟩ := span_append hds fun c hc => (hrest c hc).1
    refine ⟨mantissa, [], htake, ?_, fun hnil => hne hnil.1, by simp [pointed]⟩
    rw [hdrop, readFraction_of_head fun c hc => (hrest c hc).2]
  | @point ds fs hds hne hfs =>
    rw [List.append_assoc, List.cons_append]
    obtain ⟨htake, hdrop⟩ := span_append hds (hdot (fs ++ rest))
    exact ⟨ds, fs, htake, by rw [hdrop, hpoint hfs], fun hnil => hne hnil.1,
      (pointed_eq ds fs).symm⟩
  | @fraction fs hfs hne =>
    refine ⟨[], fs, by simp [isDigit], ?_, fun hnil => hne hnil.2, by simp [pointed]⟩
    rw [List.cons_append, List.dropWhile_cons_of_neg (by decide), hpoint hfs]

theorem Mantissa.head {mantissa : List Char} {m : ℚ} (h : Mantissa mantissa m)
    (rest : List Char) : ∀ c ∈ (mantissa ++ rest).head?, c ≠ '-' ∧ c ≠ '+' := by
  have hdigit {ds more : List Char} (hds : IsDigits ds) (hne : ds ≠ []) :
      ∀ c ∈ (ds ++ more).head?, c ≠ '-' ∧ c ≠ '+' := by
    intro c hc
    rw [List.head?_append_of_ne_nil _ hne] at hc
    exact (ne_of_isDigit (hds c (List.mem_of_mem_head? hc))).2
  cases h with
  | whole hds hne => exact hdigit hds hne
  | point hds hne _ =>
    rw [List.append_assoc]
    exact hdigit hds hne
  | fraction => simp

/-! ## Exponents -/

theorem exponent_of_readExponent? {cs : List Char} {e : Option ℤ}
    (h : Literal.readExponent? cs = some e) : Exponent cs (e.getD 0) := by
  unfold Literal.readExponent? at h
  split at h
  · obtain rfl := Option.some.inj h
    exact .absent
  · rename_i mark cs
    obtain ⟨sign, hcs, hsign⟩ := signed_readSign cs
    simp only [Bool.or_eq_true, beq_iff_eq, Option.ite_none_right_eq_some,
      Option.ite_none_left_eq_some, List.isEmpty_iff, Bool.not_eq_true', not_or,
      Bool.not_eq_false, List.all_eq_true] at h
    obtain ⟨hmark, ⟨hne, hds⟩, he⟩ := h
    obtain rfl := Option.some.inj he
    have hfactor : (if (readSign cs).1 then -(Digits.read (readSign cs).2 : ℤ)
        else Digits.read (readSign cs).2) =
          signFactor (readSign cs).1 * value (readSign cs).2 := by
      rw [signFactor, Digits.read_eq_value]
      split <;> ring
    rw [Option.getD_some, hfactor]
    conv_lhs => rw [hcs]
    exact .present hmark hsign hds hne

theorem Exponent.readExponent? {cs : List Char} {e : ℤ} (h : Exponent cs e) :
    ∃ found, Literal.readExponent? cs = some found ∧ found.getD 0 = e := by
  cases h with
  | absent => exact ⟨none, rfl, rfl⟩
  | @present mark sign ds factor hmark hsign hds hne =>
    have hhead : ∀ c ∈ ds.head?, c ≠ '-' ∧ c ≠ '+' := fun c hc =>
      (ne_of_isDigit (hds c (List.mem_of_mem_head? hc))).2
    obtain ⟨negative, hread, hfactor⟩ := hsign.readSign hhead
    have hmark' : (mark == 'e' || mark == 'E') = true := by simpa using hmark
    have hdigits : (ds.isEmpty || !ds.all isDigit) = false := by
      simpa [hne, IsDigits] using hds
    refine ⟨some (factor * value ds), ?_, rfl⟩
    simp only [Literal.readExponent?, hmark', if_true, hread, hdigits, Bool.false_eq_true, if_false,
      Digits.read_eq_value, Option.some.injEq, ← hfactor, signFactor]
    split <;> ring

theorem Exponent.head {cs : List Char} {e : ℤ} (h : Exponent cs e) :
    ∀ c ∈ cs.head?, isDigit c = false ∧ c ≠ '.' := by
  cases h with
  | absent => simp
  | present hmark =>
    intro c hc
    obtain rfl := Option.some.inj hc
    rcases hmark with rfl | rfl <;> decide

/-! ## Literals -/

namespace Literal

/-- The number that the parts of a literal denote. -/
def toRat (l : Literal) : ℚ :=
  signFactor l.negative * pointed l.whole l.fraction * 10 ^ l.exponent.getD 0

/-- What is read is a number of the grammar. -/
theorem denotes_of_read? {cs : List Char} {l : Literal} (h : read? cs = some l) :
    Denotes cs l.toRat ∧ IsDigits (l.whole ++ l.fraction) := by
  simp only [read?, Option.ite_none_left_eq_some, Option.map_eq_some_iff, Bool.and_eq_true,
    List.isEmpty_iff] at h
  obtain ⟨hne, exponent, hexponent, rfl⟩ := h
  obtain ⟨sign, hcs, hsign⟩ := signed_readSign cs
  obtain ⟨mantissa, hrest, hmantissa⟩ := mantissa_takeWhile rfl hne
  have hdigits := List.forall_mem_append.2 ⟨isDigits_takeWhile (readSign cs).2,
    (readFraction_spec ((readSign cs).2.dropWhile isDigit)).1⟩
  refine ⟨?_, hdigits⟩
  conv_lhs => rw [hcs, hrest]
  exact .intro hsign hmantissa (exponent_of_readExponent? hexponent)

end Literal

/-- A number of the grammar is read. -/
theorem Denotes.exists_read? {cs : List Char} {q : ℚ} (h : Denotes cs q) :
    ∃ l, Literal.read? cs = some l ∧ l.toRat = q := by
  obtain @⟨sign, mantissa, exponent, factor, e, m, hsign, hmantissa, hexponent⟩ := h
  obtain ⟨negative, hread, hfactor⟩ := hsign.readSign (hmantissa.head exponent)
  obtain ⟨whole, fraction, htake, hrest, hne, hm⟩ := hmantissa.readFraction hexponent.head
  obtain ⟨found, hfound, he⟩ := hexponent.readExponent?
  refine ⟨⟨negative, whole, fraction, found⟩, ?_, ?_⟩
  · have hsome : (whole.isEmpty && fraction.isEmpty) = false := by
      rw [← Bool.not_eq_true, Bool.and_eq_true, List.isEmpty_iff, List.isEmpty_iff]
      exact hne
    simp only [Literal.read?, hread, htake, hrest, hsome, hfound, Bool.false_eq_true, if_false,
      Option.map_some]
  · rw [Literal.toRat, hfactor, hm, he]

/-- A text denotes at most one number. -/
theorem Denotes.unique {cs : List Char} {q r : ℚ} (hq : Denotes cs q) (hr : Denotes cs r) :
    q = r := by
  obtain ⟨l, hl, rfl⟩ := hq.exists_read?
  obtain ⟨l', hl', rfl⟩ := hr.exists_read?
  rw [Option.some.inj (hl.symm.trans hl')]

/-! ## Large exponents -/

namespace Literal

/-- The pair that the parts of a literal write. -/
def pair (l : Literal) : Decimal :=
  ⟨l.mantissa.unscaled, l.mantissa.scale - l.exponent.getD 0⟩

theorem natAbs_pair (l : Literal) :
    l.pair.unscaled.natAbs = value (l.whole ++ l.fraction) := by
  rw [pair, mantissa, Digits.read_eq_value]
  dsimp only
  split
  · rw [Int.natAbs_neg, Int.natAbs_natCast]
  · rw [Int.natAbs_natCast]

theorem toRat_pair (l : Literal) : l.pair.toRat = l.toRat := by
  have hunscaled : (l.pair.unscaled : ℚ) =
      signFactor l.negative * value (l.whole ++ l.fraction) := by
    rw [pair, mantissa, Digits.read_eq_value, signFactor]
    dsimp only
    split <;> simp
  have hscale : l.pair.scale = l.fraction.length - l.exponent.getD 0 := rfl
  rw [Decimal.toRat, hunscaled, hscale, toRat, pointed, neg_sub, sub_eq_add_neg,
    zpow_add₀ (by norm_num), zpow_neg, zpow_natCast]
  ring

/-- An exponent beyond the cut-off is out of reach for so many digits, unless all of them are
    zero. -/
theorem not_inRange_pair {l : Literal} (hdigits : IsDigits (l.whole ++ l.fraction))
    (hne : l.mantissa.unscaled ≠ 0)
    (h : maxExponent + l.whole.length + l.fraction.length < (l.exponent.getD 0).natAbs) :
    l.pair.inRange = false := by
  have hcount : Digits.count l.pair.unscaled.natAbs ≤ l.whole.length + l.fraction.length := by
    have hpos : value (l.whole ++ l.fraction) ≠ 0 := by
      rw [← natAbs_pair]
      exact Int.natAbs_ne_zero.2 hne
    rw [natAbs_pair, Digits.count_eq_log, ← List.length_append, Nat.succ_le_iff]
    exact Nat.log_lt_of_lt_pow hpos (Digits.value_lt hdigits)
  have hone : 1 ≤ Digits.count l.pair.unscaled.natAbs := Nat.le_add_left ..
  have hscale : l.pair.scale = l.fraction.length - l.exponent.getD 0 := rfl
  have hne' : (l.pair.unscaled == 0) = false := beq_eq_false_iff_ne.2 hne
  rw [inRange, hne', Bool.false_or, decide_eq_false_iff_not, leadExponent, hscale, maxExponent]
  rw [maxExponent] at h
  omega

/-- The cut-off for large exponents only saves work. -/
theorem value?_eq {l : Literal} (hdigits : IsDigits (l.whole ++ l.fraction)) :
    l.value? = if l.pair.inRange then some l.pair.normalize else none := by
  have hrange : l.pair.normalize.inRange = l.pair.inRange := inRange_normalize _
  unfold value?
  dsimp only
  split
  · rename_i hcut
    split
    · rename_i hzero
      have hin : l.pair.inRange := inRange_iff.2 (Or.inl (toRat_eq_zero_iff.2 hzero))
      have hnormal : l.pair.normalize = 0 := if_pos hzero
      rw [if_pos hin, hnormal]
    · rename_i hne
      rw [not_inRange_pair hdigits hne hcut]
      rfl
  · rw [← hrange]
    rfl

end Literal

/-! ## The result -/

theorem eq_normalize_iff {x y : Decimal} : x = y.normalize ↔ x.IsNormal ∧ x.toRat = y.toRat := by
  constructor
  · rintro rfl
    exact ⟨isNormal_normalize y, toRat_normalize y⟩
  · rintro ⟨hx, heq⟩
    rw [eq_iff_toRat_eq hx (isNormal_normalize y), heq, toRat_normalize]

/-- What is read is the normal form of the number that the text denotes, if it may be stored. -/
theorem ofText?_eq_some_iff {s : String} {x : Decimal} :
    ofText? s = some x ↔
      x.IsNormal ∧ Denotes (trimBlank s.toList) x.toRat ∧ Storable x.toRat := by
  rw [ofText?, ofChars?, Option.bind_eq_some_iff]
  constructor
  · rintro ⟨l, hl, hvalue⟩
    obtain ⟨hdenotes, hdigits⟩ := Literal.denotes_of_read? hl
    rw [Literal.value?_eq hdigits, Option.ite_none_right_eq_some, inRange_iff] at hvalue
    obtain ⟨hstorable, hx⟩ := hvalue
    obtain ⟨hnormal, heq⟩ := eq_normalize_iff.1 (Option.some.inj hx).symm
    rw [heq, Literal.toRat_pair] at *
    exact ⟨hnormal, hdenotes, hstorable⟩
  · rintro ⟨hnormal, hdenotes, hstorable⟩
    obtain ⟨l, hl, hq⟩ := hdenotes.exists_read?
    refine ⟨l, hl, ?_⟩
    rw [← hq, ← Literal.toRat_pair] at hstorable
    rw [Literal.value?_eq (Literal.denotes_of_read? hl).2, if_pos (inRange_iff.2 hstorable),
      eq_normalize_iff.2 ⟨hnormal, by rw [Literal.toRat_pair, hq]⟩]

/-- The text of a number is read as its normal form, whatever its pair, if it is in range. -/
theorem Denotes.ofText?_eq {s : String} {x : Decimal} (h : Denotes (trimBlank s.toList) x.toRat) :
    ofText? s = if x.inRange then some x.normalize else none := by
  split
  · rename_i hrange
    rw [ofText?_eq_some_iff, toRat_normalize]
    exact ⟨isNormal_normalize x, h, inRange_iff.1 hrange⟩
  · rename_i hrange
    by_contra hne
    obtain ⟨y, hy⟩ := Option.ne_none_iff_exists'.1 hne
    obtain ⟨-, hdenotes, hstorable⟩ := ofText?_eq_some_iff.1 hy
    rw [hdenotes.unique h] at hstorable
    exact hrange (inRange_iff.2 hstorable)

/-- Every storable number has a pair in normal form, if some text denotes it. -/
theorem Denotes.exists_normal {cs : List Char} {q : ℚ} (h : Denotes cs q) :
    ∃ x : Decimal, x.IsNormal ∧ x.toRat = q := by
  obtain ⟨l, -, hq⟩ := h.exists_read?
  exact ⟨l.pair.normalize, isNormal_normalize _, by rw [toRat_normalize, Literal.toRat_pair, hq]⟩

/-- A text is read exactly if it is a number of the grammar, up to blanks around it, that may be
    stored. It denotes one number, and what is read is the normal form of this number. -/
theorem ofText?_denotes (s : String) :
    (∀ q r, Denotes (trimBlank s.toList) q → Denotes (trimBlank s.toList) r → q = r) ∧
    ((∃ x, ofText? s = some x) ↔ ∃ q, Denotes (trimBlank s.toList) q ∧ Storable q) ∧
    ∀ x, ofText? s = some x ↔
      x.IsNormal ∧ Denotes (trimBlank s.toList) x.toRat ∧ Storable x.toRat := by
  refine ⟨fun q r => Denotes.unique, ?_, fun x => ofText?_eq_some_iff⟩
  constructor
  · rintro ⟨x, hx⟩
    exact ⟨x.toRat, (ofText?_eq_some_iff.1 hx).2⟩
  · rintro ⟨q, hdenotes, hstorable⟩
    obtain ⟨x, hnormal, rfl⟩ := hdenotes.exists_normal
    exact ⟨x, ofText?_eq_some_iff.2 ⟨hnormal, hdenotes, hstorable⟩⟩

end Spreadsheet.Decimal
