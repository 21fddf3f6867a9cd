import Spreadsheet.Proofs.Workbook.Content

/-!
# Writing a content that is there

A write drops the value of the cell and all edges into it, links it anew, marks its cycle and
evaluates every formula, whatever was there before. If the cell has this content already, all of it
comes back: values follow from entries, edges from formulas, and the nodes that linking needs are
there.

Results:
* `keys_writeAt`: a write of the entry that is there makes no node but its own.
* `write_entry`: such a write is silent.
* `write_again`: so is a second write of one content, and a write of what is shown.
-/

namespace Spreadsheet.Workbook

open DependencyGraph (insertKey insertKey_of_mem)

variable {book book' : Workbook}

/-! ## Nodes -/

/-- Linking with sources that are nodes makes no new ones. -/
theorem keys_foldl_linkFrom (h : book.graph.WellFormed) {key : CellKey}
    (hkey : key ∈ book.graph.keys) {sources : List CellKey}
    (hsources : ∀ source ∈ sources, source ∈ book.graph.keys) :
    (sources.foldl (linkFrom key) book).graph.keys = book.graph.keys := by
  induction sources generalizing book with
  | nil => rfl
  | cons source sources ih =>
    have hgraph : (linkFrom key book source).graph = book.graph.connect source key := by
      rw [linkFrom, graph_ensureAt]
    have hkeys : (linkFrom key book source).graph.keys = book.graph.keys := by
      rw [hgraph, DependencyGraph.keys_connect h,
        insertKey_of_mem (hsources source List.mem_cons_self), insertKey_of_mem hkey]
    rw [List.foldl_cons, ih (hgraph ▸ h.connect source key) (hkeys ▸ hkey), hkeys]
    rw [hkeys]
    exact fun s hs => hsources s (List.mem_cons_of_mem _ hs)

theorem keys_link (h : book.graph.WellFormed) {key : CellKey} (hkey : key ∈ book.graph.keys)
    (hsources : ∀ source ∈ book.readsAt key, source ∈ book.graph.keys) :
    (book.link key).graph.keys = book.graph.keys := by
  have hkeys : (book.graph.disconnect key).keys = book.graph.keys :=
    DependencyGraph.keys_disconnect ..
  rw [link, ← readsAt_eq]
  exact (keys_foldl_linkFrom (h.disconnect key) (hkeys ▸ hkey) (hkeys ▸ hsources)).trans hkeys

/-- What a formula reads are nodes. -/
theorem mem_keys_of_mem_readsAt (h : Wired book) {key source : CellKey}
    (hsource : source ∈ book.readsAt key) : source ∈ book.graph.keys :=
  h.graph.mem_keys_of_readersOf ((h.readBy_iff (by simp)).2 hsource)

/-- Settling changes no edge and no node. -/
theorem graph_settle (h : Wired book) (changes : Changes) (written : List CellKey) :
    (book.settle changes written).1.graph = book.graph :=
  (settle_spec h changes written).1.graph_eq

/-- The entry that is there is written: the cell becomes a node if it is none, and no other cell
    does. -/
theorem keys_writeAt (h : Valid book) {index : Nat} {sheet : Sheet}
    (hs : book.sheets[index]? = some sheet) {p : Position} (hp : p.inGrid)
    {content : Option String}
    (hsame : book.entryAt (.on sheet.name p) = Cell.ofContent content) :
    (book.writeAt index p content).1.graph.keys =
      insertKey book.graph.keys (.on sheet.name p) := by
  have hkeys := DependencyGraph.keys_add h.wired.graph (.on sheet.name p)
  have hmem (k : CellKey) :
      k ∈ (book.graph.add (.on sheet.name p)).keys ↔
        k ∈ book.graph.keys ∨ k = .on sheet.name p := by
    rw [hkeys, DependencyGraph.mem_insertKey]
  -- the cell reads after the write what it read before
  have hentry : (book.modifySheet index (·.write p content)).entryAt (.on sheet.name p) =
      book.entryAt (.on sheet.name p) := by
    rw [entryAt, cellAt_write h.wired.indexed hs, if_pos rfl, Option.getD_some,
      Cell.unevaluated_ofContent, hsame]
  have hreads : (book.modifySheet index (·.write p content)).readsAt (.on sheet.name p) =
      book.readsAt (.on sheet.name p) := by
    rw [readsAt, hentry, readsAt]
  rw [writeAt_eq hs, graph_settle (prepared_write h hs hp content).wired, ← hkeys]
  refine keys_link (h.wired.graph.add _) ((hmem _).2 (Or.inr rfl)) fun source hsource => ?_
  have hread : source ∈ (book.modifySheet index (·.write p content)).readsAt
    (.on sheet.name p) := hsource
  rw [hreads] at hread
  exact (hmem source).2 (Or.inl (mem_keys_of_mem_readsAt h.wired hread))

/-! ## Silence -/

/-- Nobody is told of a call, and no content, value, extent or edge is another one after it. -/
structure Silent (book : Workbook) (o : Outcome Unit) : Prop where
  announcements_eq : o.announcements = []
  looksLike : LooksLike book o.book
  edges_eq : o.book.graph.edges = book.graph.edges

/-- Workbooks with the same entries have the same edges. -/
theorem SameEntries.edges_eq (hs : SameEntries book book') (h : Wired book) (h' : Wired book') :
    book'.graph.edges = book.graph.edges := by
  refine DependencyGraph.edges_eq_of_sourcesOf h'.graph h.graph fun key => ?_
  rw [h'.sourcesOf_eq key (by simp), h.sourcesOf_eq key (by simp), readsAt, readsAt,
    hs.entryAt_eq]

/-- An edit that leaves all entries as they were is silent. -/
theorem SameEntries.silent {o : Outcome Unit} (hs : SameEntries book o.book) (h : Valid book)
    (hedited : Edited book.valueAt book o.book o.announcements) : Silent book o := by
  refine ⟨?_, hs.looksLike h hedited.valid, hs.edges_eq h.wired hedited.valid.wired⟩
  obtain ⟨-, hnil⟩ | ⟨⟨key, -, hvalue⟩, -⟩ := hedited.announced
  · exact hnil
  · rw [hs.valueAt_eq h hedited.valid, agrees_self] at hvalue
    exact absurd hvalue (by decide)

/-- A write to a cell that is named is one at a place of the list of sheets. -/
theorem exists_writeAt_of_named (h : book.Indexed) {name location : String}
    {content : Option String} {o : Outcome Unit} (ho : book.write name location content = .ok o)
    {key : CellKey} (hkey : book.named? name location = some key) :
    ∃ (index : Nat) (sheet : Sheet) (p : Position), book.sheets[index]? = some sheet ∧
      p.inGrid ∧ .on sheet.name p = key ∧
      book.writeAt index p content = (o.book, o.announcements) := by
  obtain ⟨index, sheet, p, hs, hsheet, hp, hwrite⟩ := exists_writeAt_of_write h ho
  obtain ⟨-, q, hq, rfl⟩ := named?_eq_some_iff.1 hkey
  obtain rfl : p = q := Except.ok.inj (hp.symm.trans hq)
  refine ⟨index, sheet, p, hs, Position.inGrid_of_ofLocation hp, ?_, hwrite⟩
  rw [CellKey.on, CellKey.on, hsheet]

/-- The cell that is written becomes a node. -/
theorem mem_keys_write (h : Valid book) {name location : String} {content : Option String}
    {o : Outcome Unit} (ho : book.write name location content = .ok o) {key : CellKey}
    (hkey : book.named? name location = some key) : key ∈ o.book.graph.keys := by
  obtain ⟨index, sheet, p, hs, hp, rfl, hwrite⟩ := exists_writeAt_of_named h.wired.indexed ho hkey
  have hagrees := agrees_writeAt h hs hp content
  rw [hwrite] at hagrees
  refine (edited_write h ho).valid.wired.node _ (hagrees.stored _ ?_)
  rw [cellAt_write h.wired.indexed hs, if_pos rfl]
  rfl

/-- A write of the entry that is there is silent. -/
theorem write_entry (h : Valid book) {name location : String} {key : CellKey}
    (hkey : book.named? name location = some key) {content : Option String}
    (hsame : book.entryAt key = Cell.ofContent content) :
    ∃ o, book.write name location content = .ok o ∧ Silent book o ∧
      o.book.graph.keys = insertKey book.graph.keys key := by
  obtain ⟨result, hrun, hnames, hentry⟩ := run_write h hkey content
  obtain ⟨o, ho, rfl⟩ := map_eq_ok_iff.1 hrun
  have hs : SameEntries book o.book := by
    refine ⟨fun n => (hasSheet_congr hnames n).symm, fun k => ?_⟩
    rw [hentry]
    split
    · rename_i hk
      rw [hk, hsame]
    · rfl
  refine ⟨o, ho, hs.silent h (edited_write h ho), ?_⟩
  obtain ⟨index, sheet, p, hs, hp, rfl, hwrite⟩ := exists_writeAt_of_named h.wired.indexed ho hkey
  have hkeys := keys_writeAt h hs hp hsame
  rwa [hwrite] at hkeys

/-! ## Reachable workbooks -/

/-- The cell `name!location` is there, and it shows the content `shown`. After a content has been
    written to it, a second write of this content is silent and makes no node, and so is a write of
    what the cell shows then. A write of what is shown is silent without a write before it, but the
    cell becomes a node if it was none: nothing has been written to it then, and no formula reads
    it. -/
theorem write_again (commands : List Command) {name location : String} {shown : Option String}
    (hcell : (after commands).content name location = .ok shown) (content : Option String) :
    let book := after commands
    (∃ o stored, book.write name location content = .ok o ∧
      o.book.content name location = .ok stored ∧
      ∀ c, c = content ∨ c = stored →
        ∃ again, o.book.write name location c = .ok again ∧ Silent o.book again ∧
          again.book.graph.keys = o.book.graph.keys) ∧
    ∃ o p, book.write name location shown = .ok o ∧ Silent book o ∧
      Position.ofLocation location = .ok p ∧
      o.book.graph.keys = insertKey book.graph.keys (.on name p) := by
  intro book
  have h : Valid book := valid_after commands
  obtain ⟨key, hkey, hshown⟩ := exists_named_of_content h.wired.indexed hcell
  constructor
  · obtain ⟨result, hrun, hnames, hentry⟩ := run_write h hkey content
    obtain ⟨o, ho, rfl⟩ := map_eq_ok_iff.1 hrun
    have ho' : Valid o.book := (edited_write h ho).valid
    have hkey' : o.book.named? name location = some key := (named?_congr hnames _ _).trans hkey
    have hwritten : o.book.entryAt key = Cell.ofContent content := (hentry key).trans (if_pos rfl)
    have hstored : o.book.content name location = .ok (o.book.entryAt key).content? := by
      obtain ⟨hname, p, hp, rfl⟩ := named?_eq_some_iff.1 hkey'
      rw [content_eq ho'.wired.indexed, answer, if_pos hname, hp]
    have hnode : key ∈ o.book.graph.keys := mem_keys_write h ho hkey
    refine ⟨o, _, ho, hstored, fun c hc => ?_⟩
    have hsame : o.book.entryAt key = Cell.ofContent c := by
      rcases hc with rfl | rfl
      · exact hwritten
      · exact entryAt_eq_ofContent ho'.wired key
    obtain ⟨again, hagain, hsilent, hkeys⟩ := write_entry ho' hkey' hsame
    exact ⟨again, hagain, hsilent, hkeys.trans (insertKey_of_mem hnode)⟩
  · obtain ⟨o, ho, hsilent, hkeys⟩ := write_entry h hkey
      ((entryAt_eq_ofContent h.wired key).trans (congrArg Cell.ofContent hshown))
    obtain ⟨-, p, hp, rfl⟩ := named?_eq_some_iff.1 hkey
    exact ⟨o, p, ho, hsilent, hp, hkeys⟩

/-- An error in small letters takes the place of a formula on a cycle, twice. -/
theorem write_again_on_cycle :
    let book := after [.addSheet (some "A"), .write "A" "A1" (some "=A1")]
    book.content "A" "A1" = .ok (some "=A1") ∧
      ∃ o again, book.write "A" "A1" (some " #ref! ") = .ok o ∧
        o.book.write "A" "A1" (some " #ref! ") = .ok again ∧ Silent o.book again ∧
        again.book.graph.keys = o.book.graph.keys := by
  intro book
  have hname : nameFault? "A" = none := rfl
  have hlocation : Position.ofLocation "A1" = .ok ⟨0, 0⟩ := rfl
  obtain ⟨hnames, hentry⟩ := entries_first_write hname hlocation (some "=A1")
  have hshown : book.content "A" "A1" = .ok (some "=A1") := by
    rw [content_eq (valid_after _).wired.indexed, answer,
      if_pos ((hasSheet_of_names hnames _).2 rfl)]
    show Except.ok (book.entryAt (.on "A" ⟨0, 0⟩)).content? = _
    rw [hentry, if_pos rfl]
    with_unfolding_all rfl
  obtain ⟨⟨o, stored, ho, -, hwrites⟩, -⟩ := write_again _ hshown (some " #ref! ")
  obtain ⟨again, hagain, hsilent, hkeys⟩ := hwrites _ (Or.inl rfl)
  exact ⟨hshown, o, again, ho, hagain, hsilent, hkeys⟩

end Spreadsheet.Workbook
