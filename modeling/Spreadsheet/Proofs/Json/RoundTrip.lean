import Mathlib.Data.List.Nodup
import Spreadsheet.Json.Parser
import Spreadsheet.Json.Printer

/-!
# A printed document is read back

The printer and the reader meet at tokens: the pretty form of a value splits into tokens at every
level of indentation alike, and the value is read off these tokens. Both hold of a string, and they
carry over from items to arrays and from members to objects whose keys differ. Each bracket costs
one level of nesting, and the reader has `maxDepth` of them.

Results:
* `readString?_escape`: a string is read back from its escaped characters.
* `ReadsBack`: a value of limited depth is read back from its pretty form. `readsBack_string`,
  `readsBack_array` and `readsBack_object` say which values are.
* `ReadsBack.parse?_pretty`: the document of such a value is read as this value.
-/

namespace Spreadsheet.Json

/-! ## Strings -/

theorem hexValue?_hexDigit {d : Nat} (hd : d < 16) : hexValue? (hexDigit d) = some d := by
  have hall : ∀ d < 16, hexValue? (hexDigit d) = some d := by decide
  exact hall d hd

/-- A control character is read back from its code. -/
theorem readEscape?_code {c : Char} (hc : c.toNat < 0x20) (cs : List Char) :
    readEscape? ('u' :: '0' :: '0' :: hexDigit (c.toNat / 16) :: hexDigit (c.toNat % 16) :: cs) =
      some (c, cs) := by
  have hzero : hexValue? '0' = some 0 := rfl
  have hhigh := hexValue?_hexDigit (d := c.toNat / 16) (by omega)
  have hlow := hexValue?_hexDigit (d := c.toNat % 16) (by omega)
  have hcode : ((0 * 16 + 0) * 16 + c.toNat / 16) * 16 + c.toNat % 16 = c.toNat := by omega
  have hread : readHex4? ('0' :: '0' :: hexDigit (c.toNat / 16) :: hexDigit (c.toNat % 16) :: cs) =
      some (c.toNat, cs) := by
    simp only [readHex4?, hzero, hhigh, hlow, hcode, Option.bind_eq_bind, Option.bind_some,
      Option.pure_def]
  have hnotLow : isLowSurrogate c.toNat = false := by
    simp only [isLowSurrogate, Bool.and_eq_false_iff, decide_eq_false_iff_not]
    omega
  have hnotHigh : isHighSurrogate c.toNat = false := by
    simp only [isHighSurrogate, Bool.and_eq_false_iff, decide_eq_false_iff_not]
    omega
  show readUnicode? _ = _
  simp [readUnicode?, hread, hnotLow, hnotHigh, Char.ofNat_toNat]

theorem readString?_escapeChar (done : List Char) (c : Char) (cs : List Char) :
    readString? done (escapeChar c ++ cs) = readString? (c :: done) cs := by
  have hescaped {e : List Char} (he : readEscape? (e ++ cs) = some (c, cs)) :
      readString? done ('\\' :: (e ++ cs)) = readString? (c :: done) cs := by
    rw [readString?]
    simp only [show ('\\' == '"') = false from rfl, Bool.false_eq_true, if_false, beq_self_eq_true,
      if_true]
    split
    · rename_i hnone
      simp [he] at hnone
    · rename_i escaped rest hsome
      rw [he] at hsome
      obtain ⟨rfl, rfl⟩ := Prod.mk.inj (Option.some.inj hsome)
      rfl
  unfold escapeChar
  split_ifs with hquote hslash hback hfeed hline hreturn htab hcontrol
  · obtain rfl : c = '"' := by simpa using hquote
    exact hescaped (e := ['"']) rfl
  · obtain rfl : c = '\\' := by simpa using hslash
    exact hescaped (e := ['\\']) rfl
  · obtain rfl : c = '\x08' := by simpa using hback
    exact hescaped (e := ['b']) rfl
  · obtain rfl : c = '\x0c' := by simpa using hfeed
    exact hescaped (e := ['f']) rfl
  · obtain rfl : c = '\n' := by simpa using hline
    exact hescaped (e := ['n']) rfl
  · obtain rfl : c = '\r' := by simpa using hreturn
    exact hescaped (e := ['r']) rfl
  · obtain rfl : c = '\t' := by simpa using htab
    exact hescaped (e := ['t']) rfl
  · exact hescaped (readEscape?_code hcontrol cs)
  · rw [List.singleton_append, readString?]
    simp only [hquote, hslash, hcontrol, if_false, Bool.false_eq_true]

/-- A string is read back from its escaped characters and the closing quote. -/
theorem readString?_escape (done s cs : List Char) :
    readString? done (s.flatMap escapeChar ++ '"' :: cs) =
      some (String.ofList (done.reverse ++ s), cs) := by
  induction s generalizing done with
  | nil =>
    rw [List.flatMap_nil, List.nil_append, readString?]
    simp
  | cons c s ih =>
    rw [List.flatMap_cons, List.append_assoc, readString?_escapeChar, ih]
    simp

/-! ## Tokens -/

theorem tokenizeAfter?_space {c : Char} (hc : isSpace c) (done : List Token) (cs : List Char) :
    tokenizeAfter? done (c :: cs) = tokenizeAfter? done cs := by
  rw [tokenizeAfter?, if_pos hc]

/-- Indentation is no token. -/
theorem tokenizeAfter?_newline (done : List Token) (level : Nat) (cs : List Char) :
    tokenizeAfter? done (newline level ++ cs) = tokenizeAfter? done cs := by
  have hspaces (n : Nat) :
      tokenizeAfter? done (List.replicate n ' ' ++ cs) = tokenizeAfter? done cs := by
    induction n with
    | zero => rfl
    | succ n ih => rw [List.replicate_succ, List.cons_append, tokenizeAfter?_space rfl, ih]
  rw [newline, List.cons_append, tokenizeAfter?_space rfl, hspaces]

theorem tokenizeAfter?_lexeme {c : Char} {cs rest : List Char} {t : Token}
    (hc : isSpace c = false) (ht : lexeme? c cs = some (t, rest)) (done : List Token) :
    tokenizeAfter? done (c :: cs) = tokenizeAfter? (t :: done) rest := by
  rw [tokenizeAfter?, if_neg (by simp [hc])]
  split
  · rename_i hnone
    simp [ht] at hnone
  · rename_i t' rest' hsome
    rw [ht] at hsome
    obtain ⟨rfl, rfl⟩ := Prod.mk.inj (Option.some.inj hsome)
    rfl

theorem tokenizeAfter?_punctuation {c : Char} {t : Token} (hc : isSpace c = false)
    (ht : punctuation? c = some t) (done : List Token) (cs : List Char) :
    tokenizeAfter? done (c :: cs) = tokenizeAfter? (t :: done) cs :=
  tokenizeAfter?_lexeme hc (by simp [lexeme?, ht]) done

theorem tokenizeAfter?_printString (done : List Token) (s : String) (cs : List Char) :
    tokenizeAfter? done (printString s ++ cs) =
      tokenizeAfter? (.scalar (.string s) :: done) cs := by
  have hread : readString? [] (s.toList.flatMap escapeChar ++ '"' :: cs) = some (s, cs) := by
    rw [readString?_escape, List.reverse_nil, List.nil_append, String.ofList_toList]
  have hprint : printString s ++ cs = '"' :: (s.toList.flatMap escapeChar ++ '"' :: cs) := by
    simp [printString]
  rw [hprint]
  exact tokenizeAfter?_lexeme rfl (by simp [lexeme?, punctuation?, hread]) done

/-! ## Values -/

/-- A printed value splits into the tokens `ts`, on any level of indentation. -/
def SplitsInto (v : Json) (ts : List Token) : Prop :=
  ∀ (level : Nat) (done : List Token) (cs : List Char),
    tokenizeAfter? done (printValue level v ++ cs) = tokenizeAfter? (ts.reverse ++ done) cs

/-- What was read is this value, and these tokens are left. -/
def Yields {bound : Nat} (found : Except Malformed (Found Token Json bound)) (v : Json)
    (rest : List Token) : Prop :=
  ∃ h, found = .ok ⟨v, rest, h⟩

/-- A reader reads the value off the front of the tokens `ts` and leaves what follows. -/
def Reads (read : ValueReader) (ts : List Token) (v : Json) : Prop :=
  ∀ tokens rest, tokens = ts ++ rest → Yields (read tokens) v rest

/-- A value is read back from its pretty form with at most `n` arrays and objects open at once. -/
def ReadsBack (n : Nat) (v : Json) : Prop :=
  ∃ ts, SplitsInto v ts ∧ Reads (value n) ts v

/-- The document of a value that is read back is read as this value. -/
theorem ReadsBack.parse?_pretty {v : Json} (h : ReadsBack maxDepth v) :
    parse? v.pretty = some v := by
  obtain ⟨ts, hsplits, hreads⟩ := h
  obtain ⟨_, hread⟩ := hreads ts [] (List.append_nil ts).symm
  have htokens : tokenize? v.pretty.toList = some ts := by
    have hall := hsplits 0 [] []
    rw [List.append_nil, List.append_nil, tokenizeAfter?, List.reverse_reverse] at hall
    rw [tokenize?, pretty, String.toList_ofList, hall]
  simp only [parse?, htokens, hread]

/-- A string is read back. -/
theorem readsBack_string (n : Nat) (s : String) : ReadsBack n (.string s) := by
  refine ⟨[.scalar (.string s)], fun level done cs => ?_, ?_⟩
  · rw [printValue]
    exact tokenizeAfter?_printString done s cs
  · rintro _ rest rfl
    cases n with
    | zero => exact ⟨_, rfl⟩
    | succ n => exact ⟨_, rfl⟩

/-- The tokens of a value do not begin with a closing bracket. -/
theorem Reads.exists_cons {n : Nat} {ts : List Token} {v : Json} (h : Reads (value n) ts v) :
    ∃ t ts', ts = t :: ts' ∧ t ≠ .closeBracket := by
  have hclose (rest : List Token) : value n (.closeBracket :: rest) = .error .malformed := by
    cases n <;> rfl
  cases ts with
  | nil =>
    obtain ⟨_, hread⟩ := h [.closeBracket] [.closeBracket] rfl
    simp [hclose] at hread
  | cons t ts' =>
    refine ⟨t, ts', rfl, ?_⟩
    rintro rfl
    obtain ⟨_, hread⟩ := h (.closeBracket :: ts') [] (List.append_nil _).symm
    simp [hclose] at hread

/-! ## Arrays -/

section Items

variable {item : ValueReader} {tokens tokens' rest : List Token} {v w : Json} {done : List Json}

theorem items_last (h : Yields (item tokens) v (.closeBracket :: rest)) :
    Yields (items item done tokens) (.array (v :: done).reverse) rest := by
  obtain ⟨hlt, hread⟩ := h
  refine ⟨by simp only [List.length_cons] at hlt; omega, ?_⟩
  rw [items]
  simp only [hread]

theorem items_comma (h : Yields (item tokens) v (.comma :: tokens'))
    (hrest : Yields (items item (v :: done) tokens') w rest) :
    Yields (items item done tokens) w rest := by
  obtain ⟨hlt, hread⟩ := h
  obtain ⟨hlt', hread'⟩ := hrest
  refine ⟨by simp only [List.length_cons] at hlt; omega, ?_⟩
  rw [items]
  simp only [hread, hread']

theorem value_items {n : Nat} {t : Token} (ht : t ≠ .closeBracket)
    (h : Yields (items (value n) [] (t :: tokens)) v rest) :
    Yields (value (n + 1) (.openBracket :: t :: tokens)) v rest := by
  obtain ⟨hlt, hread⟩ := h
  refine ⟨by simp only [List.length_cons] at hlt ⊢; omega, ?_⟩
  cases t with
  | closeBracket => exact absurd rfl ht
  | _ => simp only [value, valueWith, hread]

end Items

/-- Items after the first one: their tokens, and how the reader of an array goes on with them. -/
theorem exists_itemTokens {n : Nat} {vs : List Json} (h : ∀ v ∈ vs, ReadsBack n v) :
    ∃ ts : List Token,
      (∀ level done cs, tokenizeAfter? done (printItems level vs ++ cs) =
        tokenizeAfter? (ts.reverse ++ done) cs) ∧
      ∀ (v : Json) (first : List Token), Reads (value n) first v → ∀ done tokens rest,
        tokens = first ++ (ts ++ .closeBracket :: rest) →
          Yields (items (value n) done tokens) (.array (done.reverse ++ v :: vs)) rest := by
  induction vs with
  | nil =>
    refine ⟨[], fun level done cs => by rw [printItems]; rfl, ?_⟩
    intro v first hfirst done tokens rest htokens
    rw [← List.reverse_cons]
    exact items_last (hfirst tokens _ htokens)
  | cons w vs ih =>
    obtain ⟨tw, hsplits, hreads⟩ := h w List.mem_cons_self
    obtain ⟨ts, hprint, hitems⟩ := ih fun v hv => h v (List.mem_cons_of_mem _ hv)
    refine ⟨.comma :: (tw ++ ts), fun level done cs => ?_, ?_⟩
    · have hcomma : printItems level (w :: vs) ++ cs =
          ',' :: (newline level ++ (printValue level w ++ (printItems level vs ++ cs))) := by
        simp [printItems]
      rw [hcomma, tokenizeAfter?_punctuation rfl rfl, tokenizeAfter?_newline, hsplits, hprint]
      simp
    · intro v first hfirst done tokens rest htokens
      have hrest := hitems w tw hreads (v :: done) _ rest rfl
      rw [List.reverse_cons, List.append_assoc] at hrest
      refine items_comma (hfirst tokens _ ?_) hrest
      rw [htokens, List.cons_append, List.append_assoc]

/-- An array is read back if its items are, one level deeper. -/
theorem readsBack_array {n : Nat} {vs : List Json} (h : ∀ v ∈ vs, ReadsBack n v) :
    ReadsBack (n + 1) (.array vs) := by
  cases vs with
  | nil =>
    refine ⟨[.openBracket, .closeBracket], fun level done cs => ?_, ?_⟩
    · rw [printValue]
      show tokenizeAfter? done ('[' :: ']' :: cs) = _
      rw [tokenizeAfter?_punctuation rfl rfl, tokenizeAfter?_punctuation rfl rfl]
      rfl
    · rintro _ rest rfl
      exact ⟨_, rfl⟩
  | cons v vs =>
    obtain ⟨tv, hsplits, hreads⟩ := h v List.mem_cons_self
    obtain ⟨ts, hprint, hitems⟩ := exists_itemTokens fun w hw => h w (List.mem_cons_of_mem _ hw)
    refine ⟨.openBracket :: (tv ++ (ts ++ [.closeBracket])), fun level done cs => ?_, ?_⟩
    · have hopen : printValue level (.array (v :: vs)) ++ cs = '[' :: (newline (level + 1) ++
          (printValue (level + 1) v ++ (printItems (level + 1) vs ++
            (newline level ++ ']' :: cs)))) := by
        simp [printValue]
      rw [hopen, tokenizeAfter?_punctuation rfl rfl, tokenizeAfter?_newline, hsplits, hprint,
        tokenizeAfter?_newline, tokenizeAfter?_punctuation rfl rfl]
      simp
    · rintro _ rest rfl
      obtain ⟨t, tv', rfl, hne⟩ := hreads.exists_cons
      have hread := hitems v (t :: tv') hreads [] _ rest rfl
      rw [List.cons_append, List.append_assoc, List.append_assoc]
      exact value_items hne hread

/-! ## Objects -/

/-- A new key goes to the end. -/
theorem put_of_nodup {done ms : List (String × Json)} {key : String} {v : Json}
    (hkeys : ((done ++ (key, v) :: ms).map Prod.fst).Nodup) :
    put done key v = done ++ [(key, v)] := by
  rw [List.map_append, List.map_cons, List.nodup_middle, List.nodup_cons, List.mem_append,
    not_or] at hkeys
  have hnew : done.any (·.1 == key) = false := by
    rw [List.any_eq_false]
    intro m hm heq
    have hmem := List.mem_map_of_mem (f := Prod.fst) hm
    rw [beq_iff_eq.1 heq] at hmem
    exact hkeys.1.1 hmem
  rw [put, hnew]
  rfl

section Members

variable {item : ValueReader} {tokens tokens' rest : List Token} {v w : Json} {key : String}
  {done : List (String × Json)}

theorem members_last (h : Yields (item tokens) v (.closeBrace :: rest)) :
    Yields (members item done (.scalar (.string key) :: .colon :: tokens))
      (.object (put done key v)) rest := by
  obtain ⟨hlt, hread⟩ := h
  refine ⟨by simp only [List.length_cons] at hlt ⊢; omega, ?_⟩
  rw [members]
  simp only [hread]

theorem members_comma (h : Yields (item tokens) v (.comma :: tokens'))
    (hrest : Yields (members item (put done key v) tokens') w rest) :
    Yields (members item done (.scalar (.string key) :: .colon :: tokens)) w rest := by
  obtain ⟨hlt, hread⟩ := h
  obtain ⟨hlt', hread'⟩ := hrest
  refine ⟨by simp only [List.length_cons] at hlt ⊢; omega, ?_⟩
  rw [members]
  simp only [hread, hread']

theorem value_members {n : Nat}
    (h : Yields (members (value n) [] (.scalar (.string key) :: tokens)) v rest) :
    Yields (value (n + 1) (.openBrace :: .scalar (.string key) :: tokens)) v rest := by
  obtain ⟨hlt, hread⟩ := h
  refine ⟨by simp only [List.length_cons] at hlt ⊢; omega, ?_⟩
  simp only [value, valueWith, hread]

end Members

/-- Members after the first one: their tokens, and how the reader of an object goes on with
    them. -/
theorem exists_memberTokens {n : Nat} {ms : List (String × Json)}
    (h : ∀ m ∈ ms, ReadsBack n m.2) :
    ∃ ts : List Token,
      (∀ level done cs, tokenizeAfter? done (printMembers level ms ++ cs) =
        tokenizeAfter? (ts.reverse ++ done) cs) ∧
      ∀ (key : String) (v : Json) (first : List Token), Reads (value n) first v →
        ∀ done tokens rest, ((done ++ (key, v) :: ms).map Prod.fst).Nodup →
          tokens = first ++ (ts ++ .closeBrace :: rest) →
            Yields (members (value n) done (.scalar (.string key) :: .colon :: tokens))
              (.object (done ++ (key, v) :: ms)) rest := by
  induction ms with
  | nil =>
    refine ⟨[], fun level done cs => by rw [printMembers]; rfl, ?_⟩
    intro key v first hfirst done tokens rest hkeys htokens
    rw [← put_of_nodup hkeys]
    exact members_last (hfirst tokens _ htokens)
  | cons m ms ih =>
    obtain ⟨key', w⟩ := m
    obtain ⟨tw, hsplits, hreads⟩ := h (key', w) List.mem_cons_self
    obtain ⟨ts, hprint, hmembers⟩ := ih fun m hm => h m (List.mem_cons_of_mem _ hm)
    refine ⟨.comma :: .scalar (.string key') :: .colon :: (tw ++ ts), fun level done cs => ?_, ?_⟩
    · have hcomma : printMembers level ((key', w) :: ms) ++ cs =
          ',' :: (newline level ++ (printString key' ++ (':' :: ' ' ::
            (printValue level w ++ (printMembers level ms ++ cs))))) := by
        simp [printMembers]
      rw [hcomma, tokenizeAfter?_punctuation rfl rfl, tokenizeAfter?_newline,
        tokenizeAfter?_printString, tokenizeAfter?_punctuation rfl rfl, tokenizeAfter?_space rfl,
        hsplits, hprint]
      simp
    · intro key v first hfirst done tokens rest hkeys htokens
      have hput := put_of_nodup hkeys
      rw [List.append_cons] at hkeys
      have hrest := hmembers key' w tw hreads (done ++ [(key, v)]) _ rest hkeys rfl
      rw [List.append_assoc, List.singleton_append, ← hput] at hrest
      refine members_comma (hfirst tokens _ ?_) hrest
      rw [htokens]
      simp

/-- An object is read back if its keys differ and its members are read back, one level deeper. -/
theorem readsBack_object {n : Nat} {ms : List (String × Json)} (hkeys : (ms.map Prod.fst).Nodup)
    (h : ∀ m ∈ ms, ReadsBack n m.2) : ReadsBack (n + 1) (.object ms) := by
  cases ms with
  | nil =>
    refine ⟨[.openBrace, .closeBrace], fun level done cs => ?_, ?_⟩
    · rw [printValue]
      show tokenizeAfter? done ('\x7b' :: '\x7d' :: cs) = _
      rw [tokenizeAfter?_punctuation rfl rfl, tokenizeAfter?_punctuation rfl rfl]
      rfl
    · rintro _ rest rfl
      exact ⟨_, rfl⟩
  | cons m ms =>
    obtain ⟨key, v⟩ := m
    obtain ⟨tv, hsplits, hreads⟩ := h (key, v) List.mem_cons_self
    obtain ⟨ts, hprint, hmembers⟩ :=
      exists_memberTokens fun m hm => h m (List.mem_cons_of_mem _ hm)
    refine ⟨.openBrace :: .scalar (.string key) :: .colon :: (tv ++ (ts ++ [.closeBrace])),
      fun level done cs => ?_, ?_⟩
    · have hopen : printValue level (.object ((key, v) :: ms)) ++ cs =
          '\x7b' :: (newline (level + 1) ++ (printString key ++ (':' :: ' ' ::
            (printValue (level + 1) v ++ (printMembers (level + 1) ms ++
              (newline level ++ '\x7d' :: cs)))))) := by
        simp [printValue]
      rw [hopen, tokenizeAfter?_punctuation rfl rfl, tokenizeAfter?_newline,
        tokenizeAfter?_printString, tokenizeAfter?_punctuation rfl rfl, tokenizeAfter?_space rfl,
        hsplits, hprint, tokenizeAfter?_newline, tokenizeAfter?_punctuation rfl rfl]
      simp
    · rintro _ rest rfl
      have hread := hmembers key v tv hreads [] _ rest hkeys rfl
      have hclose : tv ++ (ts ++ [.closeBrace]) ++ rest = tv ++ (ts ++ .closeBrace :: rest) := by
        simp
      rw [List.cons_append, List.cons_append, List.cons_append, hclose]
      exact value_members hread

end Spreadsheet.Json
