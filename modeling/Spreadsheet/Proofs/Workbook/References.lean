import Spreadsheet.Proofs.Workbook.View

/-!
# What a formula reads

Results:
* `resolve_target`: a reference is resolved to the cell that it reads.
* `lookup_eq_view`: a formula sees values by key and not by place.
* `value_map`, `value_congr`: the value of a formula follows from the values of the cells that it
  reads.
-/

namespace Spreadsheet

open Formula (Expr Lookup Reference Scalar)

/-! ## References -/

/-- The cell that a reference means in a formula on the sheet `home`; none outside the grid. -/
def Formula.Reference.cell? (home : String) (r : Reference) : Option CellKey :=
  match Position.ofAddress r.address with
  | .error _ => none
  | .ok p =>
    if p.inGrid then
      some (match r.sheet with
        | none => ⟨home, p⟩
        | some sheet => CellKey.on sheet.name p)
    else
      none

theorem on_of_upper {name : String} (h : upper name = name) (p : Position) :
    CellKey.on name p = ⟨name, p⟩ := by
  rw [CellKey.on, h]

theorem on_upper (name : String) (p : Position) :
    CellKey.on (upper name) p = CellKey.on name p := by
  rw [CellKey.on, CellKey.on, upper_upper]

theorem cell?_eq_some_iff {home : String} {r : Reference} {key : CellKey} :
    r.cell? home = some key ↔
      ∃ p, Position.ofAddress r.address = .ok p ∧ p.inGrid ∧
        key = match r.sheet with
          | none => ⟨home, p⟩
          | some sheet => CellKey.on sheet.name p := by
  unfold Reference.cell?
  rcases Position.ofAddress r.address with e | p
  · simp
  · simp only [Except.ok.injEq, exists_eq_left']
    by_cases hp : p.inGrid
    · simp [hp, eq_comm]
    · simp [hp]

/-- A reference is linked to the cell that it reads. -/
theorem resolve_target {home : String} (hhome : upper home = home) {r : Reference}
    (hr : Position.IsShape r.address) : resolve home r.target = r.cell? home := by
  apply Option.ext
  intro key
  obtain ⟨sheet, address⟩ := r
  have hlocation := Position.toOption_ofLocation_upper hr
  rw [cell?_eq_some_iff]
  simp only [resolve]
  rcases sheet with _ | sheet
  · simp only [Reference.target, Option.map_eq_some_iff, hlocation, on_of_upper hhome, and_assoc,
      eq_comm (b := key)]
  · simp only [Reference.target, Option.map_eq_some_iff, hlocation, on_upper, and_assoc,
      eq_comm (b := key)]

theorem inGrid_of_resolve {home : String} {t : Formula.Target} {key : CellKey}
    (h : resolve home t = some key) : key.position.inGrid := by
  simp only [resolve, Option.map_eq_some_iff] at h
  obtain ⟨p, hp, rfl⟩ := h
  exact Position.inGrid_of_ofLocation (Position.toOption_eq_some_iff.1 hp)

/-! ## Values that a formula sees -/

theorem scalar_congr {l₁ l₂ : Lookup} {e : Expr} (h : ∀ r ∈ e.references, l₁.read r = l₂.read r) :
    e.scalar l₁ = e.scalar l₂ := by
  induction e with
  | ref r => exact h r (List.mem_singleton_self r)
  | signed sign operand ih => rw [Expr.scalar, Expr.scalar, ih h]
  | binary op left right ihl ihr =>
    rw [Expr.scalar, Expr.scalar, ihl fun r hr => h r (List.mem_append_left _ hr),
      ihr fun r hr => h r (List.mem_append_right _ hr)]
  | group inner ih => rw [Expr.scalar, Expr.scalar, ih h]
  | _ => rfl

namespace Workbook

instance (book : Workbook) (name : String) : Decidable (book.HasSheet name) :=
  inferInstanceAs (Decidable (name ∈ book.names.map upper))

/-- What a formula on the sheet with the name `home`, in upper case, sees. -/
def view (book : Workbook) (home : String) : Lookup where
  here p := Scalar.ofCell (book.valueAt ⟨home, p⟩)
  on name p :=
    if book.HasSheet (upper name) then Scalar.ofCell (book.valueAt (CellKey.on name p))
    else .error .reference

variable {book : Workbook}

theorem lookup_eq_view (h : book.Indexed) {index : Nat} {sheet : Sheet}
    (hs : book.sheets[index]? = some sheet) :
    book.lookup index = book.view (upper sheet.name) := by
  have hmem := List.mem_of_getElem? hs
  rw [lookup, view]
  congr 1
  · funext p
    rw [hs, Option.bind_some, valueAt, h.cellAt_eq hmem rfl, Sheet.value?]
  · funext name p
    have hsheet : book.sheet? name = book.sheetOf? (CellKey.on name p) := rfl
    rw [hsheet]
    by_cases hname : book.HasSheet (upper name)
    · obtain ⟨other, ho, hother⟩ := hasSheet_iff.1 hname
      have hfound : book.sheetOf? (CellKey.on name p) = some other :=
        h.sheetOf?_eq_some_iff.2 ⟨ho, hother⟩
      rw [hfound, if_pos hname, valueAt, cellAt, hfound]
      rfl
    · have hnone : book.sheetOf? (CellKey.on name p) = none := h.sheetOf?_eq_none_iff.2 hname
      rw [hnone, if_neg hname]

theorem read_view {home : String} (hhome : book.HasSheet home) (r : Reference) :
    (book.view home).read r =
      match r.cell? home with
      | none => .error .reference
      | some key =>
        if book.HasSheet key.sheet then Scalar.ofCell (book.valueAt key)
        else .error .reference := by
  unfold Lookup.read Reference.cell?
  rcases Position.ofAddress r.address with e | p
  · rfl
  · by_cases hp : p.inGrid
    · rcases r.sheet with _ | sheet
      · simp [hp, view, hhome]
      · simp only [hp, if_true, view]
        rfl
    · simp [hp]

/-- A formula amounts to the same in another place or workbook if it reads there, for every cell,
    one that is on a sheet exactly if this cell is, and has the same value. -/
theorem value_map {book' : Workbook} {home home' : String} {e : Expr} (f : CellKey → CellKey)
    (hhome : book.HasSheet home) (hhome' : book'.HasSheet home')
    (hcells : ∀ r ∈ e.references, r.cell? home' = (r.cell? home).map f)
    (hsheets : ∀ r ∈ e.references, ∀ key, r.cell? home = some key →
      (book'.HasSheet (f key).sheet ↔ book.HasSheet key.sheet))
    (hvalues : ∀ r ∈ e.references, ∀ key, r.cell? home = some key →
      book'.valueAt (f key) = book.valueAt key) :
    e.value (book'.view home') = e.value (book.view home) := by
  have hscalar : e.scalar (book'.view home') = e.scalar (book.view home) := by
    apply scalar_congr
    intro r hr
    rw [read_view hhome', read_view hhome, hcells r hr]
    rcases hc : r.cell? home with _ | key
    · rfl
    · simp only [Option.map_some, hvalues r hr key hc, hsheets r hr key hc]
  rw [Expr.value, hscalar, Expr.value]

/-- The value of a formula follows from the values of the cells that it reads. -/
theorem value_congr {book' : Workbook} {home : String} {e : Expr}
    (hsheets : ∀ name, book.HasSheet name ↔ book'.HasSheet name) (hhome : book.HasSheet home)
    (hvalues : ∀ r ∈ e.references, ∀ key, r.cell? home = some key →
      book.valueAt key = book'.valueAt key) :
    e.value (book.view home) = e.value (book'.view home) :=
  value_map id ((hsheets home).1 hhome) hhome (fun _ _ => Option.map_id'.symm)
    (fun _ _ key _ => hsheets key.sheet) hvalues

end Workbook

end Spreadsheet
