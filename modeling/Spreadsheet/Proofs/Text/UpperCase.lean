import Spreadsheet.Text.UpperCase

/-!
# Upper case is final

A sheet is found by the upper-case form of its name, and a reference may give that form itself. Both
find the same sheet because no character of an upper-case form has another upper-case form.

Results:
* `upper_upper`: a text in upper case is its own upper-case form.
* `upper_append`: a text is put in upper case piece by piece.
-/

namespace Spreadsheet

/-! ## ASCII -/

/-- A property of the ASCII characters can be checked one by one. -/
theorem forall_ascii {p : Char → Prop} (h : ∀ n < 0x80, p (Char.ofNat n)) {c : Char}
    (hc : c.toNat < 0x80) : p c := by
  have hp := h c.toNat hc
  rwa [Char.ofNat_toNat] at hp

theorem upperChar_of_ascii {c : Char} (hc : c.toNat < 0x80) : upperChar c = [c.toUpper] := by
  simp [upperChar, hc]

theorem toUpper_ascii {c : Char} (hc : c.toNat < 0x80) :
    c.toUpper.toNat < 0x80 ∧ c.toUpper.toUpper = c.toUpper := by
  refine forall_ascii (p := fun c => c.toUpper.toNat < 0x80 ∧ c.toUpper.toUpper = c.toUpper) ?_ hc
  decide

/-! ## The tables -/

namespace CaseRun

/-- The upper-case code point of the last member of a run. -/
def lastImage (r : CaseRun) : Nat :=
  r.image + (r.last - r.first)

/-- The run with one member, which is in upper case. -/
def single (n : Nat) : CaseRun :=
  ⟨n, n, 1, n⟩

/-- No upper-case code point of `r` is a member of `q`: the two ranges are apart, or their members
    alternate. -/
def avoids (r q : CaseRun) : Bool :=
  Nat.blt r.lastImage q.first || Nat.blt q.last r.image ||
    (Nat.beq q.step 2 && (Nat.beq r.step 2 || Nat.beq r.first r.last) &&
      Nat.beq ((r.image + q.first) % 2) 1)

theorem upper?_eq_some_iff {r : CaseRun} {n m : Nat} :
    r.upper? n = some m ↔
      (r.first ≤ n ∧ n ≤ r.last ∧ (n - r.first) % r.step = 0) ∧ r.image + (n - r.first) = m := by
  unfold upper?
  split
  · rename_i h
    simp [h]
  · rename_i h
    simp [h]

theorem upper?_eq_none_of_avoids {r q : CaseRun} (h : r.avoids q) {n m : Nat}
    (hm : r.upper? n = some m) : q.upper? m = none := by
  obtain ⟨⟨hfirst, hlast, hstep⟩, rfl⟩ := upper?_eq_some_iff.1 hm
  simp only [avoids, lastImage, Bool.or_eq_true, Bool.and_eq_true, Nat.blt_eq, Nat.beq_eq] at h
  refine if_neg ?_
  rintro ⟨hle, hge, hmod⟩
  rcases h with (h | h) | ⟨⟨hq, hr⟩, hodd⟩
  · omega
  · omega
  · rw [hq] at hmod
    rcases hr with hr | hr
    · rw [hr] at hstep
      omega
    · omega

end CaseRun

/-- The characters with an upper-case form of their own. -/
def lowerRuns : List CaseRun :=
  caseRuns ++ expansions.map fun e => CaseRun.single e.1

/-- The characters of upper-case forms: those of the runs, and those of the longer forms. -/
def upperRuns : List CaseRun :=
  caseRuns ++ (expansions.flatMap (·.2)).eraseDups.map CaseRun.single

/-- An upper-case code point is a capital letter of ASCII or no ASCII at all, and a character. -/
def CaseRun.scalar (r : CaseRun) : Bool :=
  (Nat.ble 0x80 r.image || (Nat.ble 0x41 r.image && Nat.ble r.lastImage 0x5A)) &&
    (Nat.blt r.lastImage 0xD800 || (Nat.blt 0xDFFF r.image && Nat.blt r.lastImage 0x110000))

theorem upperRuns_spec :
    (upperRuns.all fun r => r.scalar && lowerRuns.all r.avoids) = true := by
  decide +kernel

theorem lookup_eq_none {images : List (Nat × List Nat)} {n : Nat}
    (h : ∀ e ∈ images, e.1 ≠ n) : images.lookup n = none := by
  rw [List.lookup_eq_none_iff]
  intro e he
  simpa using Ne.symm (h e he)

theorem upperChar_image {r : CaseRun} (hr : r ∈ upperRuns) {n m : Nat}
    (hm : r.upper? n = some m) : upperChar (Char.ofNat m) = [Char.ofNat m] := by
  have hspec := List.all_eq_true.1 upperRuns_spec r hr
  rw [Bool.and_eq_true, List.all_eq_true] at hspec
  obtain ⟨hscalar, havoids⟩ := hspec
  obtain ⟨⟨hfirst, hlast, -⟩, hmr⟩ := CaseRun.upper?_eq_some_iff.1 hm
  simp only [CaseRun.scalar, CaseRun.lastImage, Bool.or_eq_true, Bool.and_eq_true, Nat.ble_eq,
    Nat.blt_eq] at hscalar
  have hvalid : m.isValidChar := by
    unfold Nat.isValidChar
    omega
  have hnat : (Char.ofNat m).toNat = m := by
    have hchar : Char.ofNat m = Char.ofNatAux m hvalid := dif_pos hvalid
    rw [hchar]
    rfl
  by_cases hascii : m < 0x80
  · have hcapital : 0x41 ≤ m ∧ m ≤ 0x5A := by omega
    rw [upperChar_of_ascii (by omega)]
    have hall : ∀ m < 0x5B, 0x41 ≤ m → (Char.ofNat m).toUpper = Char.ofNat m := by decide
    rw [hall m (by omega) hcapital.1]
  · have hnone : caseRuns.findSome? (·.upper? m) = none := by
      rw [List.findSome?_eq_none_iff]
      intro q hq
      exact CaseRun.upper?_eq_none_of_avoids (havoids q (List.mem_append_left _ hq)) hm
    have hlookup : expansions.lookup m = none := by
      apply lookup_eq_none
      rintro e he rfl
      have hsingle : CaseRun.single e.1 ∈ lowerRuns :=
        List.mem_append_right _ (List.mem_map_of_mem he)
      have hnone := CaseRun.upper?_eq_none_of_avoids (havoids _ hsingle) hm
      simp [CaseRun.upper?, CaseRun.single] at hnone
    simp [upperChar, hnat, hascii, hnone, hlookup]

/-! ## Texts -/

/-- Every character of an upper-case form is in upper case. -/
theorem upperChar_of_mem {c d : Char} (hd : d ∈ upperChar c) : upperChar d = [d] := by
  unfold upperChar at hd
  dsimp only at hd
  split at hd
  · rename_i hc
    obtain rfl := List.mem_singleton.1 hd
    obtain ⟨hlt, hfix⟩ := toUpper_ascii hc
    rw [upperChar_of_ascii hlt, hfix]
  · rename_i hc
    split at hd
    · rename_i m hrun
      obtain rfl := List.mem_singleton.1 hd
      obtain ⟨r, hr, hm⟩ := List.exists_of_findSome?_eq_some hrun
      exact upperChar_image (List.mem_append_left _ hr) hm
    · rename_i hrun
      split at hd
      · rename_i images hlook
        obtain ⟨m, hm, rfl⟩ := List.mem_map.1 hd
        obtain ⟨l₁, l₂, heq, -⟩ := List.lookup_eq_some_iff.1 hlook
        have hmem : CaseRun.single m ∈ upperRuns := by
          apply List.mem_append_right
          apply List.mem_map_of_mem
          rw [List.mem_eraseDups, List.mem_flatMap]
          exact ⟨(c.toNat, images), by simp [heq], hm⟩
        exact upperChar_image hmem (n := m) (by simp [CaseRun.upper?, CaseRun.single])
      · rename_i hlook
        obtain rfl := List.mem_singleton.1 hd
        simp [upperChar, hc, hrun, hlook]

theorem flatMap_upperChar {cs : List Char} (h : ∀ c ∈ cs, upperChar c = [c]) :
    cs.flatMap upperChar = cs := by
  induction cs with
  | nil => rfl
  | cons c cs ih =>
    rw [List.flatMap_cons, h c List.mem_cons_self, ih fun d hd => h d (List.mem_cons_of_mem _ hd)]
    rfl

/-- A text in upper case stays as it is. -/
theorem upper_upper (s : String) : upper (upper s) = upper s := by
  have hfix : (upper s).toList.flatMap upperChar = (upper s).toList := by
    apply flatMap_upperChar
    intro d hd
    rw [toList_upper] at hd
    obtain ⟨c, -, hc⟩ := List.mem_flatMap.1 hd
    exact upperChar_of_mem hc
  rw [upper, hfix, String.ofList_toList]

theorem upper_append (s t : String) : upper (s ++ t) = upper s ++ upper t := by
  simp [upper]

end Spreadsheet
