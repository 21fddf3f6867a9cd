import Mathlib.Data.List.DropRight
import Spreadsheet.Text.Blank

/-!
# Blanks around and between words

Results:
* `trimBlank_of_ends`: a text whose first and last characters are not blank stays as it is.
* `trim_trim`: trimming twice is trimming once.
* `Spaced`: a text is a row of words with blanks before, between and after them; `trimBlank_spaced`:
  so is what is left of it after trimming, if no word is empty or ends in a blank.
-/

namespace Spreadsheet

theorem trimBlank_eq (cs : List Char) :
    trimBlank cs = (cs.dropWhile isBlank).rdropWhile isBlank :=
  rfl

theorem head_dropWhile {p : Char → Bool} {cs : List Char} {c : Char}
    (h : (cs.dropWhile p).head? = some c) : p c = false := by
  have hnot := List.head?_dropWhile_not p cs
  rw [h] at hnot
  simpa using hnot

/-- A run of characters that satisfy `p` ends where it was written to end. -/
theorem span_append {p : Char → Bool} {cs rest : List Char} (hcs : ∀ c ∈ cs, p c)
    (hrest : ∀ c ∈ rest.head?, p c = false) :
    (cs ++ rest).takeWhile p = cs ∧ (cs ++ rest).dropWhile p = rest := by
  have hend : rest.takeWhile p = [] ∧ rest.dropWhile p = rest := by
    cases rest with
    | nil => exact ⟨rfl, rfl⟩
    | cons c rest => simp [hrest c rfl]
  rw [List.takeWhile_append_of_pos hcs, List.dropWhile_append_of_pos hcs, hend.1, hend.2,
    List.append_nil]
  exact ⟨rfl, rfl⟩

theorem trimBlank_of_ends {cs : List Char} (hhead : ∀ c ∈ cs.head?, isBlank c = false)
    (hlast : ∀ c ∈ cs.getLast?, isBlank c = false) : trimBlank cs = cs := by
  have hleft : cs.dropWhile isBlank = cs := by
    cases cs with
    | nil => rfl
    | cons c cs => simp [hhead c rfl]
  rw [trimBlank_eq, hleft, List.rdropWhile_eq_self_iff]
  intro hne
  rw [hlast _ (List.getLast?_eq_some_getLast hne)]
  exact Bool.false_ne_true

theorem head_trimBlank {cs : List Char} {c : Char} (h : c ∈ (trimBlank cs).head?) :
    isBlank c = false := by
  obtain ⟨t, ht⟩ := List.rdropWhile_prefix isBlank (l := cs.dropWhile isBlank)
  rw [Option.mem_def, trimBlank_eq] at h
  have hhead : (cs.dropWhile isBlank).head? = some c := by
    rw [← ht, List.head?_append, h]
    rfl
  exact head_dropWhile hhead

theorem getLast_trimBlank {cs : List Char} {c : Char} (h : c ∈ (trimBlank cs).getLast?) :
    isBlank c = false := by
  rw [trimBlank, List.getLast?_reverse] at h
  exact head_dropWhile h

theorem trimBlank_trimBlank (cs : List Char) : trimBlank (trimBlank cs) = trimBlank cs :=
  trimBlank_of_ends (fun _ => head_trimBlank) (fun _ => getLast_trimBlank)

/-- A trimmed text stays as it is. -/
theorem trim_trim (s : String) : trim (trim s) = trim s := by
  rw [trim, toList_trim, trimBlank_trimBlank, trim]

theorem trim_of_ends {s : String} (hhead : ∀ c ∈ s.toList.head?, isBlank c = false)
    (hlast : ∀ c ∈ s.toList.getLast?, isBlank c = false) : trim s = s := by
  rw [trim, trimBlank_of_ends hhead hlast, String.ofList_toList]

/-! ## Words -/

/-- The words stand in the text in this order, with nothing but blanks before, between and after
    them. -/
inductive Spaced : List (List Char) → List Char → Prop
  | nil (blanks : List Char) (hblanks : ∀ c ∈ blanks, isBlank c) : Spaced [] blanks
  | cons (blanks : List Char) (hblanks : ∀ c ∈ blanks, isBlank c) (word : List Char)
      {words : List (List Char)} {cs : List Char} (h : Spaced words cs) :
      Spaced (word :: words) (blanks ++ (word ++ cs))

theorem spaced_flatten (words : List (List Char)) : Spaced words words.flatten := by
  induction words with
  | nil => exact .nil [] (by simp)
  | cons word words ih => exact .cons [] (by simp) word ih

/-- The word is not empty and does not end in a blank. -/
def EndsInWord (word : List Char) : Prop :=
  ∃ c, word.getLast? = some c ∧ isBlank c = false

theorem endsInWord_of_forall {cs : List Char} (hne : cs ≠ [])
    (hblank : ∀ c ∈ cs, isBlank c = false) : EndsInWord cs :=
  ⟨_, List.getLast?_eq_some_getLast hne, hblank _ (List.getLast_mem hne)⟩

theorem endsInWord_append (cs : List Char) {word : List Char} (h : EndsInWord word) :
    EndsInWord (cs ++ word) := by
  obtain ⟨c, hlast, hblank⟩ := h
  exact ⟨c, by rw [List.getLast?_append, hlast]; rfl, hblank⟩

theorem endsInWord_flatten {words : List (List Char)} (hne : words ≠ [])
    (h : ∀ word ∈ words, EndsInWord word) : EndsInWord words.flatten := by
  obtain ⟨init, last, rfl⟩ := (List.eq_nil_or_concat' words).resolve_left hne
  rw [List.flatten_concat]
  exact endsInWord_append _ (h last (by simp))

theorem rdropWhile_append_of_endsInWord {word : List Char} (h : EndsInWord word)
    (cs : List Char) :
    (word ++ cs).rdropWhile isBlank = word ++ cs.rdropWhile isBlank := by
  obtain ⟨c, hlast, hblank⟩ := h
  obtain ⟨init, rfl⟩ := List.getLast?_eq_some_iff.1 hlast
  rw [List.rdropWhile, List.reverse_append, List.dropWhile_append]
  split
  · rename_i hempty
    rw [List.isEmpty_iff] at hempty
    rw [List.rdropWhile, hempty]
    simp [hblank]
  · rw [List.reverse_append, List.reverse_reverse, List.rdropWhile]

/-- A text that does not start with a blank keeps its start. -/
theorem trimBlank_cons {c : Char} (hc : isBlank c = false) (cs : List Char) :
    trimBlank (c :: cs) = c :: cs.rdropWhile isBlank := by
  have hword : EndsInWord [c] := ⟨c, rfl, hc⟩
  rw [trimBlank_eq, List.dropWhile_cons_of_neg (by simp [hc]), ← List.singleton_append,
    rdropWhile_append_of_endsInWord hword, List.singleton_append]

theorem rdropWhile_spaced {words : List (List Char)} {cs : List Char} (h : Spaced words cs)
    (hwords : ∀ word ∈ words, EndsInWord word) : Spaced words (cs.rdropWhile isBlank) := by
  induction h with
  | nil blanks hblanks =>
    rw [List.rdropWhile_eq_nil_iff.2 hblanks]
    exact .nil [] (by simp)
  | cons blanks hblanks word h ih =>
    have hword := hwords word List.mem_cons_self
    rw [← List.append_assoc, rdropWhile_append_of_endsInWord (endsInWord_append _ hword),
      List.append_assoc]
    exact .cons _ hblanks word (ih fun w hw => hwords w (List.mem_cons_of_mem _ hw))

/-- Trimming leaves the first word in front and the words in their order. -/
theorem trimBlank_spaced {c : Char} {word : List Char} {words : List (List Char)} {cs : List Char}
    (h : Spaced ((c :: word) :: words) cs) (hc : isBlank c = false)
    (hwords : ∀ w ∈ (c :: word) :: words, EndsInWord w) :
    ∃ rest, trimBlank cs = c :: word ++ rest ∧ Spaced words rest := by
  cases h with
  | @cons blanks hblanks _ _ rest h =>
    refine ⟨rest.rdropWhile isBlank, ?_,
      rdropWhile_spaced h fun w hw => hwords w (List.mem_cons_of_mem _ hw)⟩
    rw [trimBlank_eq, List.dropWhile_append_of_pos hblanks, List.cons_append,
      List.dropWhile_cons_of_neg (by simp [hc]), ← List.cons_append,
      rdropWhile_append_of_endsInWord (hwords _ List.mem_cons_self)]

end Spreadsheet
