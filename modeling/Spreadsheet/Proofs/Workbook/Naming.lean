import Spreadsheet.Proofs.Workbook.Copy
import Spreadsheet.Proofs.Workbook.Registry

/-!
# Names that are made up

A sheet that is added without a name, and a copy, get a name that ends in a number: the numbers are
tried from 1 on until one gives a name that no sheet has. Nothing in this loop says when to stop. It
ends because the names for different numbers differ in more than case, and there are only as many
taken names as there are sheets.

Results:
* `EndsAt`, `endsAt_iff`: a loop without a bound, and where it ends.
* `FirstFree`: what the number of a name has to satisfy.
* `exists_firstFree`: there is such a number in every valid workbook, and its name is the one that
  is chosen.
* `made_up_names`: the names of added sheets and of copies, for every reachable workbook.
-/

namespace Spreadsheet

/-! ## A loop without a bound -/

/-- The loop that counts up from the first number until a number is good ends at the second. A loop
    that runs for ever has no derivation. -/
inductive EndsAt (good : Nat → Prop) : Nat → Nat → Prop where
  | stop {n : Nat} (h : good n) : EndsAt good n n
  | next {n m : Nat} (h : ¬ good n) (rest : EndsAt good (n + 1) m) : EndsAt good n m

/-- The loop ends at the least good number. -/
theorem endsAt_iff {good : Nat → Prop} {n m : Nat} :
    EndsAt good n m ↔ n ≤ m ∧ good m ∧ ∀ k, n ≤ k → k < m → ¬ good k := by
  constructor
  · intro hends
    induction hends with
    | stop h => exact ⟨Nat.le_refl _, h, fun k hk hlt => absurd hlt (Nat.not_lt.2 hk)⟩
    | next h _ ih =>
      obtain ⟨hle, hm, hbefore⟩ := ih
      refine ⟨Nat.le_of_succ_le hle, hm, fun k hk hlt => ?_⟩
      rcases Nat.eq_or_lt_of_le hk with rfl | hk
      · exact h
      · exact hbefore k hk hlt
  · rintro ⟨hle, hm, hbefore⟩
    -- by induction on the number of steps that are left
    obtain ⟨steps, rfl⟩ := Nat.exists_eq_add_of_le hle
    induction steps generalizing n with
    | zero => exact .stop hm
    | succ steps ih =>
      have hshift : n + (steps + 1) = n + 1 + steps := by omega
      rw [hshift] at hm hbefore ⊢
      refine .next (hbefore n (Nat.le_refl n) (by omega)) (ih (by omega) hm ?_)
      exact fun k hk hlt => hbefore k (Nat.le_of_succ_le hk) hlt

namespace Workbook

variable {book : Workbook}

/-! ## The first free number -/

/-- The loop from 1 on ends at `n`, after one more try than there are sheets at the latest. No sheet
    has the name with this number, in any case, and with every smaller number some sheet has. The
    name passes the checks for new names. -/
structure FirstFree (book : Workbook) (stem : String) (n : Nat) : Prop where
  ends : EndsAt (fun k => ¬ book.isTaken (numbered stem k)) 1 n
  pos : 1 ≤ n
  le : n ≤ book.size + 1
  free : ∀ other ∈ book.names, upper other ≠ upper (numbered stem n)
  least : ∀ k, 1 ≤ k → k < n → ∃ other ∈ book.names, upper other = upper (numbered stem k)
  allowed : book.checkName (numbered stem n) = .ok ()

theorem exists_firstFree (h : Valid book) {stem : String}
    (hallowed : ∀ n, nameFault? (numbered stem n) = none) :
    ∃ n, FirstFree book stem n ∧ book.freeName stem = numbered stem n := by
  have hi := h.wired.indexed
  have htaken (k : Nat) : book.isTaken (numbered stem k) ↔
      ∃ other ∈ book.names, upper other = upper (numbered stem k) := by
    rw [isTaken_iff hi, HasSheet, List.mem_map]
  obtain ⟨⟨hone, hlast⟩, hfree, hbefore⟩ := leastFree_spec (book.exists_not_isTaken stem)
  refine ⟨_, ⟨?_, hone, ?_, fun other hother heq => ?_, fun k hk hlt => ?_, ?_⟩, rfl⟩
  · rw [endsAt_iff]
    exact ⟨hone, Bool.eq_false_iff.1 hfree, fun k hk hlt => not_not.2 (hbefore k hk hlt)⟩
  · exact hi.size_registry ▸ hlast
  · exact Bool.eq_false_iff.1 hfree ((htaken _).2 ⟨other, hother, heq⟩)
  · exact (htaken k).1 (hbefore k hk hlt)
  · exact (checkName_eq_ok_iff hi).2 ⟨hallowed _, freeName_free hi stem⟩

/-! ## Added sheets and copies -/

/-- Added without a name, a sheet is called `Sheet` with the first free number. A copy is called
    like its original as that is spelled, with an underscore and the first free number. Both calls
    succeed in every reachable workbook, and the new sheet is the last. -/
theorem made_up_names (commands : List Command) :
    let book := after commands
    (∃ n o, FirstFree book "Sheet" n ∧ book.addSheet none = .ok o ∧
      o.result = (book.size, numbered "Sheet" n) ∧
      o.book.names = book.names ++ [numbered "Sheet" n]) ∧
    ∀ name, book.HasSheet (upper name) →
      ∃ source ∈ book.sheets, upper source.name = upper name ∧
        ∃ n o, FirstFree book (source.name ++ "_") n ∧ book.copySheet name = .ok o ∧
          o.result = (book.size, numbered (source.name ++ "_") n) ∧
          o.book.names = book.names ++ [numbered (source.name ++ "_") n] := by
  intro book
  have h : Valid book := valid_after commands
  constructor
  · obtain ⟨n, hn, hname⟩ := exists_firstFree h nameFault?_numbered_sheet
    have hnames := (entries_append h (nameFault?_numbered_sheet _)
      (freeName_free h.wired.indexed "Sheet")).1
    refine ⟨n, _, hn, rfl, ?_, ?_⟩
    · rw [← hname]
      rfl
    · rw [← hname]
      exact hnames
  · intro name hsheet
    obtain ⟨source, hmem, hspelled, o, ho, hresult, hcopied⟩ := copySheet_spec h hsheet
    have hallowed : nameFault? source.name = none := h.allowed _ (List.mem_map_of_mem hmem)
    obtain ⟨n, hn, hname⟩ := exists_firstFree h (nameFault?_numbered_copy hallowed)
    rw [hname] at hresult
    refine ⟨source, hmem, hspelled, n, o, hn, ho, hresult, ?_⟩
    rw [hcopied.names_eq, hresult]

end Workbook

end Spreadsheet
