import Mathlib.Data.List.Perm.Subperm
import Spreadsheet.Proofs.Decimal.Digits
import Spreadsheet.Proofs.Position
import Spreadsheet.Proofs.Workbook.View
import Spreadsheet.Workbook.Edit

/-!
# Lists of sheets

Results:
* `indexed_push`, `indexed_reindex`: the registry after a sheet was added, and made anew.
* `names_push`, `cellAt_push`, `hasSheet_erase`, `cellAt_erase`, `cellAt_perm`: which cells there
  are after a sheet was added, deleted or moved.
* `nameFault?_numbered_sheet`, `nameFault?_numbered_copy`, `freeName_free`: a name that is made up
  for a new sheet breaks no rule and is free.
* `leastFree_spec`, `exists_not_isTaken`: its number is the least one, and there always is one.
-/

namespace Spreadsheet.Workbook

variable {book book' : Workbook}

/-- Cells are found by the sheets of their name. -/
theorem cellAt_congr (h : book.Indexed) (h' : book'.Indexed) {key : CellKey}
    (hsheets : ∀ sheet : Sheet, upper sheet.name = key.sheet →
      (sheet ∈ book'.sheets ↔ sheet ∈ book.sheets)) :
    book'.cellAt key = book.cellAt key := by
  apply Option.ext
  intro cell
  rw [h'.cellAt_eq_some_iff, h.cellAt_eq_some_iff]
  constructor
  · rintro ⟨sheet, hmem, hname, hcell⟩
    exact ⟨sheet, (hsheets sheet hname).1 hmem, hname, hcell⟩
  · rintro ⟨sheet, hmem, hname, hcell⟩
    exact ⟨sheet, (hsheets sheet hname).2 hmem, hname, hcell⟩

/-! ## One sheet more -/

/-- The workbook with an empty sheet at the end. -/
def push (book : Workbook) (name : String) : Workbook :=
  { book with
    sheets := book.sheets ++ [Sheet.named name]
    registry := book.registry.insert (upper name) book.size }

section Push

variable {name : String}

theorem names_push : (book.push name).names = book.names ++ [name] := by
  simp [names, push, Sheet.named]

variable (h : book.Indexed) (hfree : ¬ book.HasSheet (upper name))
include h hfree

theorem indexed_push : (book.push name).Indexed := by
  intro n i
  have hsize : book.sheets.length = book.size := rfl
  simp only [push, Std.HashMap.getElem?_insert, beq_iff_eq, List.getElem?_append, hsize]
  by_cases hi : i < book.size
  · rw [if_pos hi]
    by_cases hn : upper name = n
    · rw [if_pos hn, Option.some.injEq]
      constructor
      · rintro rfl
        omega
      · rintro ⟨sheet, hs, hname⟩
        exact absurd (hasSheet_iff.2 ⟨sheet, List.mem_of_getElem? hs, hname.trans hn.symm⟩) hfree
    · rw [if_neg hn]
      exact h n i
  · have hold : book.registry[n]? ≠ some i := by
      intro hr
      obtain ⟨sheet, hs, -⟩ := (h n i).1 hr
      have := (List.getElem?_eq_some_iff.1 hs).1
      omega
    rw [if_neg hi]
    by_cases hlast : i = book.size
    · subst hlast
      simp [Sheet.named, hold]
    · have hout : [Sheet.named name][i - book.size]? = none := by
        rw [List.getElem?_eq_none]
        simp only [List.length_singleton]
        omega
      have hnone : (if upper name = n then some book.size else book.registry[n]?) ≠ some i := by
        split
        · simpa using Ne.symm hlast
        · exact hold
      simp [hout, hnone]

theorem cellAt_push (key : CellKey) : (book.push name).cellAt key = book.cellAt key := by
  have h' := indexed_push h hfree
  by_cases hkey : key.sheet = upper name
  · rw [h.cellAt_eq_none (hkey ▸ hfree)]
    have hmem : Sheet.named name ∈ (book.push name).sheets := by simp [push]
    rw [h'.cellAt_eq hmem hkey.symm]
    exact Sheet.cell?_named name _
  · apply cellAt_congr h h'
    intro sheet hname
    simp only [push, List.mem_append, List.mem_singleton, or_iff_left_iff_imp]
    rintro rfl
    exact absurd hname.symm hkey

end Push

/-! ## The registry made anew -/

theorem indexed_reindex (h : (book.names.map upper).Nodup) : book.reindex.Indexed := by
  let entries := book.sheets.zipIdx.map fun e => (upper e.1.name, e.2)
  have hmem (n : String) (i : Nat) :
      (n, i) ∈ entries ↔ ∃ sheet, book.sheets[i]? = some sheet ∧ upper sheet.name = n := by
    simp only [entries, List.mem_map, Prod.exists, List.mem_zipIdx_iff_getElem?, Prod.mk.injEq]
    constructor
    · rintro ⟨sheet, _, hs, hname, rfl⟩
      exact ⟨sheet, hs, hname⟩
    · rintro ⟨sheet, hs, hname⟩
      exact ⟨sheet, i, hs, hname, rfl⟩
  have hdistinct : entries.Pairwise fun a b => (a.1 == b.1) = false := by
    have hnames : entries.map Prod.fst = book.names.map upper := by
      calc entries.map Prod.fst
          = (book.sheets.zipIdx.map Prod.fst).map fun s => upper s.name := by
            rw [List.map_map, List.map_map]
            rfl
        _ = book.names.map upper := by
            rw [List.zipIdx_map_fst, names, List.map_map]
            rfl
    rw [← hnames, List.Nodup, List.pairwise_map] at h
    exact h.imp fun hne => by simpa using hne
  intro n i
  change (Std.HashMap.ofList entries)[n]? = some i ↔ _
  rw [show (book.reindex).sheets = book.sheets from rfl, ← hmem]
  constructor
  · intro hfound
    by_contra hnot
    have hany : (entries.map Prod.fst).contains n = true := by
      by_contra hno
      rw [Std.HashMap.getElem?_ofList_of_contains_eq_false (Bool.eq_false_iff.2 hno)] at hfound
      simp at hfound
    obtain ⟨⟨n', j⟩, hj, heq⟩ := List.mem_map.1 (List.contains_iff_mem.1 hany)
    obtain rfl : n' = n := heq
    rw [Std.HashMap.getElem?_ofList_of_mem (BEq.refl n') hdistinct hj] at hfound
    obtain rfl := Option.some.inj hfound
    exact hnot hj
  · exact Std.HashMap.getElem?_ofList_of_mem (BEq.refl n) hdistinct

/-- The workbook with another list of sheets. -/
def arrange (book : Workbook) (sheets : List Sheet) : Workbook :=
  ({ book with sheets } : Workbook).reindex

theorem hasSheet_arrange {sheets : List Sheet} {name : String} :
    (book.arrange sheets).HasSheet name ↔ ∃ sheet ∈ sheets, upper sheet.name = name :=
  hasSheet_iff

/-! ## One sheet less -/

theorem indexed_erase (h : book.Indexed) (index : Nat) :
    (book.arrange (book.sheets.eraseIdx index)).Indexed := by
  apply indexed_reindex
  have hsub := ((List.eraseIdx_sublist book.sheets index).map Sheet.name).map upper
  exact h.nodup_names.sublist hsub

section Erase

variable (h : book.Indexed) {index : Nat} {gone : Sheet} (hs : book.sheets[index]? = some gone)
include h hs

theorem mem_eraseIdx_iff (sheet : Sheet) :
    sheet ∈ book.sheets.eraseIdx index ↔
      sheet ∈ book.sheets ∧ upper sheet.name ≠ upper gone.name := by
  rw [List.mem_eraseIdx_iff_getElem?]
  constructor
  · rintro ⟨i, hi, hsheet⟩
    exact ⟨List.mem_of_getElem? hsheet, fun hname => hi (h.eq_of_upper_eq hsheet hs hname)⟩
  · rintro ⟨hmem, hname⟩
    obtain ⟨i, hi⟩ := List.getElem?_of_mem hmem
    refine ⟨i, ?_, hi⟩
    rintro rfl
    rw [hs] at hi
    obtain rfl := Option.some.inj hi
    exact hname rfl

theorem hasSheet_erase (name : String) :
    (book.arrange (book.sheets.eraseIdx index)).HasSheet name ↔
      book.HasSheet name ∧ name ≠ upper gone.name := by
  rw [hasSheet_arrange, hasSheet_iff]
  simp only [mem_eraseIdx_iff h hs]
  constructor
  · rintro ⟨sheet, ⟨hmem, hne⟩, rfl⟩
    exact ⟨⟨sheet, hmem, rfl⟩, hne⟩
  · rintro ⟨⟨sheet, hmem, rfl⟩, hne⟩
    exact ⟨sheet, ⟨hmem, hne⟩, rfl⟩

theorem cellAt_erase (key : CellKey) :
    (book.arrange (book.sheets.eraseIdx index)).cellAt key =
      if key.sheet = upper gone.name then none else book.cellAt key := by
  have h' := indexed_erase h index
  by_cases hkey : key.sheet = upper gone.name
  · rw [if_pos hkey, h'.cellAt_eq_none]
    rw [hasSheet_erase h hs, hkey]
    exact fun hname => hname.2 rfl
  · rw [if_neg hkey]
    apply cellAt_congr h h'
    intro sheet hname
    change sheet ∈ book.sheets.eraseIdx index ↔ _
    rw [mem_eraseIdx_iff h hs, hname]
    exact and_iff_left hkey

end Erase

/-! ## Another order -/

/-- A sheet that is taken out can be put back at any place. -/
theorem perm_insertIdx_eraseIdx {sheets : List Sheet} {i target : Nat} {sheet : Sheet}
    (hs : sheets[i]? = some sheet) (htarget : target < sheets.length) :
    ((sheets.eraseIdx i).insertIdx target sheet).Perm sheets := by
  obtain ⟨hi, rfl⟩ := List.getElem?_eq_some_iff.1 hs
  have hlength : target ≤ (sheets.eraseIdx i).length := by
    rw [List.length_eraseIdx_of_lt hi]
    exact Nat.le_sub_one_of_lt htarget
  exact (List.perm_insertIdx _ _ hlength).trans (List.getElem_cons_eraseIdx_perm hi)

section Perm

variable (h : book.Indexed) {sheets : List Sheet} (hperm : sheets.Perm book.sheets)
include h hperm

theorem indexed_perm : (book.arrange sheets).Indexed :=
  indexed_reindex (((hperm.map Sheet.name).map upper).nodup_iff.2 h.nodup_names)

theorem cellAt_perm (key : CellKey) : (book.arrange sheets).cellAt key = book.cellAt key :=
  cellAt_congr h (indexed_perm h hperm) fun _ _ => hperm.mem_iff

end Perm

/-! ## Free names -/

/-- What the rules for names come to: quotes are not among the allowed characters. -/
theorem nameFault?_eq_none_iff {name : String} :
    nameFault? name = none ↔
      name ≠ "" ∧ trim name = name ∧ ∀ c ∈ name.toList, isSheetNameChar c := by
  have hquote (hall : ∀ c ∈ name.toList, isSheetNameChar c) :
      (name.toList.any fun c => c == '\'' || c == '"') = false := by
    rw [List.any_eq_false]
    intro c hc hquote
    have hname := hall c hc
    rw [Bool.or_eq_true, beq_iff_eq, beq_iff_eq] at hquote
    rcases hquote with rfl | rfl
    · exact absurd hname (by decide)
    · exact absurd hname (by decide)
  constructor
  · intro h
    unfold nameFault? at h
    simp only [bne_iff_ne, ne_eq, ite_not, Bool.not_eq_true', List.all_eq_false] at h
    split at h
    · simp at h
    · rename_i hne
      split at h
      · rename_i htrim
        split at h
        · simp at h
        · split at h
          · simp at h
          · rename_i hall
            exact ⟨by simpa using hne, htrim, by simpa using hall⟩
      · simp at h
  · rintro ⟨hne, htrim, hall⟩
    simp [nameFault?, hne, htrim, hquote hall, List.all_eq_true.2 hall]

/-- An allowed name stays one if allowed characters without blanks are put after it. -/
theorem nameFault?_append {name suffix : String} (h : nameFault? name = none)
    (hsuffix : ∀ c ∈ suffix.toList, isSheetNameChar c ∧ isBlank c = false) :
    nameFault? (name ++ suffix) = none := by
  obtain ⟨hne, htrim, hall⟩ := nameFault?_eq_none_iff.1 h
  have hlist : trimBlank name.toList = name.toList := by
    rw [← toList_trim, htrim]
  refine nameFault?_eq_none_iff.2 ⟨by simp [hne], ?_, ?_⟩
  · apply trim_of_ends
    · intro c hc
      rw [String.toList_append, List.head?_append_of_ne_nil _ (by simpa using hne), ← hlist] at hc
      exact head_trimBlank hc
    · intro c hc
      rw [String.toList_append, List.getLast?_append] at hc
      rcases hlast : suffix.toList.getLast? with _ | d
      · rw [hlast, Option.none_or, ← hlist] at hc
        exact getLast_trimBlank hc
      · rw [hlast] at hc
        obtain rfl := Option.some.inj hc
        exact (hsuffix d (List.mem_of_getLast? hlast)).2
  · intro c hc
    rw [String.toList_append] at hc
    rcases List.mem_append.1 hc with hc | hc
    · exact hall c hc
    · exact (hsuffix c hc).1

/-- A number may be put after an allowed name. -/
theorem nameFault?_numbered {stem : String} (h : nameFault? stem = none) (n : Nat) :
    nameFault? (numbered stem n) = none := by
  refine nameFault?_append h fun c hc => ?_
  rw [Digits.text, String.toList_ofList] at hc
  have hdigit := Digits.isDigit_of_mem_print hc
  exact ⟨by simp [isSheetNameChar, hdigit], Digits.isBlank_of_isDigit hdigit⟩

/-- The names that are made up for new sheets break no rule. -/
theorem nameFault?_numbered_sheet (n : Nat) : nameFault? (numbered "Sheet" n) = none :=
  nameFault?_numbered rfl n

/-- The names that are made up for copies break no rule. -/
theorem nameFault?_numbered_copy {name : String} (h : nameFault? name = none) (n : Nat) :
    nameFault? (numbered (name ++ "_") n) = none := by
  refine nameFault?_numbered (nameFault?_append h fun c hc => ?_) n
  obtain rfl := List.mem_singleton.1 hc
  decide

theorem upper_text (n : Nat) : upper (Digits.text n) = Digits.text n := by
  have hdigits : (Digits.text n).toList = [] ++ Digits.print n := by
    rw [Digits.text, String.toList_ofList]
    rfl
  apply String.toList_inj.1
  rw [Position.toList_upper_of_shape (by simp) (fun _ => Digits.isDigit_of_mem_print) hdigits,
    hdigits]
  rfl

theorem upper_numbered_injective (stem : String) :
    Function.Injective fun n => upper (numbered stem n) := by
  intro m n heq
  simp only [numbered, upper_append, upper_text] at heq
  have htext : Digits.text m = Digits.text n := by
    apply String.toList_inj.1
    have := congrArg String.toList heq
    rw [String.toList_append, String.toList_append] at this
    exact List.append_cancel_left this
  exact Digits.print_injective (String.ofList_injective htext)

theorem isTaken_iff (h : book.Indexed) {name : String} :
    book.isTaken name ↔ book.HasSheet (upper name) := by
  rw [h.hasSheet_iff_registry, isTaken, position?, Option.isSome_iff_exists]

/-- Of one more numbers than there are sheets, one gives a name that is not taken: different numbers
    give names that differ in more than case. -/
theorem exists_not_isTaken (book : Workbook) (stem : String) :
    ∃ n, 1 ≤ n ∧ n ≤ book.registry.size + 1 ∧ book.isTaken (numbered stem n) = false := by
  by_contra hnone
  let candidates :=
    (List.range' 1 (book.registry.size + 1)).map fun n => upper (numbered stem n)
  have hnodup : candidates.Nodup :=
    (List.nodup_range' (s := 1) (n := book.registry.size + 1)).map (upper_numbered_injective stem)
  have hsub : candidates ⊆ book.registry.keys := by
    intro name hname
    obtain ⟨n, hn, rfl⟩ := List.mem_map.1 hname
    obtain ⟨hone, hlast⟩ := List.mem_range'_1.1 hn
    rw [Std.HashMap.mem_keys, Std.HashMap.mem_iff_isSome_getElem?]
    by_contra hfree
    exact hnone ⟨n, hone, by omega, Bool.eq_false_iff.2 hfree⟩
  have hle := (List.Nodup.subperm hnodup hsub).length_le
  rw [List.length_map, List.length_range', Std.HashMap.length_keys] at hle
  omega

/-- The search finds the least number whose name is not taken, if there is one within the bound. -/
theorem leastFree_spec {names : Nat} {taken : String → Bool} {stem : String}
    (h : ∃ n, 1 ≤ n ∧ n ≤ names + 1 ∧ taken (numbered stem n) = false) :
    let n := leastFree names taken stem
    (1 ≤ n ∧ n ≤ names + 1) ∧ taken (numbered stem n) = false ∧
      ∀ m, 1 ≤ m → m < n → taken (numbered stem m) = true := by
  rw [leastFree]
  rcases hfind : (List.range' 1 (names + 1)).find? fun n => !taken (numbered stem n) with _ | n
  · obtain ⟨n, hone, hlast, hfree⟩ := h
    have htaken := List.find?_range'_eq_none.1 hfind n hone (by omega)
    simp [hfree] at htaken
  · obtain ⟨hfree, hmem, hbefore⟩ := List.find?_range'_eq_some.1 hfind
    obtain ⟨hone, hlast⟩ := List.mem_range'_1.1 hmem
    refine ⟨⟨hone, ?_⟩, by simpa using hfree, fun m hm hlt => ?_⟩
    · change n ≤ names + 1
      omega
    · simpa using hbefore m hm hlt

/-- The name that is chosen for a new sheet is free. -/
theorem freeName_free (h : book.Indexed) (stem : String) :
    ¬ book.HasSheet (upper (book.freeName stem)) := by
  obtain ⟨-, hfree, -⟩ := leastFree_spec (book.exists_not_isTaken stem)
  rw [← isTaken_iff h, freeName, hfree]
  exact Bool.false_ne_true

end Spreadsheet.Workbook
