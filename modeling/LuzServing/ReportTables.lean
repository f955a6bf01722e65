import LuzServing.Dictionaries
import Mathlib.Data.List.DropRight

/-!
# Checking the tables of a report

The tables of the report are pasted from the output of a renderer, each under a marker that names
its source. `check_report_tables` runs the renderer again and compares: both texts are read line by
line into a dictionary of the rows of each source, and the rows of the sources that are in both have
to be the same.

`parse` finds for a source the rows of one of its tables, the last (`get?_parse`). **So two tables
of one source are never compared with each other, and a renderer that fails without any output
agrees with every report** (`tablesChecked_iff`).

Texts are lists of characters.
-/

namespace LuzServing

/-! ## Text -/

/-- What Python takes for white space in a string. -/
def isSpace (c : Char) : Bool :=
  (9 ≤ c.toNat && c.toNat ≤ 13) || (28 ≤ c.toNat && c.toNat ≤ 32) || c.toNat == 0x85 ||
    c.toNat == 0xa0 || c.toNat == 0x1680 || (0x2000 ≤ c.toNat && c.toNat ≤ 0x200a) ||
    c.toNat == 0x2028 || c.toNat == 0x2029 || c.toNat == 0x202f || c.toNat == 0x205f ||
    c.toNat == 0x3000

/-- `rstrip` of the characters that are so. -/
def rstripWhile (p : Char → Bool) (text : List Char) : List Char := text.rdropWhile p

/-- `strip` of the characters that are so. -/
def stripWhile (p : Char → Bool) (text : List Char) : List Char :=
  rstripWhile p (text.dropWhile p)

/-- What follows a prefix in a text that begins with it. -/
def afterPrefix (start text : List Char) : Option (List Char) :=
  if start.isPrefixOf text then some (text.drop start.length) else none

/-! ## Lines -/

/-- The rest of a line matches `\s*-->`. -/
def closesComment (text : List Char) : Bool :=
  "-->".toList.isPrefixOf (text.dropWhile isSpace)

/-- `(.+?)\s*-->`: the shortest text that is not empty and is followed by the end of the comment. -/
def lazySource : List Char → Option (List Char)
  | [] => none
  | c :: rest => if closesComment rest then some [c] else (lazySource rest).map (c :: ·)

/-- `MARKER`, with the source that it names. -/
def matchMarker (line : List Char) : Option (List Char) :=
  (afterPrefix "<!--".toList line).bind fun rest =>
    (afterPrefix "generated from ".toList (rest.dropWhile isSpace)).bind lazySource

/-- The headings that end a table's section. -/
def isHeading (line : List Char) : Bool :=
  "## ".toList.isPrefixOf line || "### ".toList.isPrefixOf line

/-- `TABLE_ROW` -/
def isTableRow (line : List Char) : Bool := ['|'].isPrefixOf line

/-- The cells of a row. -/
def rowCells (row : List Char) : List (List Char) :=
  ((stripWhile (· == '|') row).splitOn '|').map (stripWhile isSpace)

/-- A row that only aligns columns. -/
def isAlignmentRow (row : List Char) : Bool :=
  (rowCells row).all fun cell => cell.all fun c => c == '-' || c == ':' || c == ' '

/-! ## `parse` -/

/-- The variables of the loop. -/
structure ParseState : Type where
  /-- `tables` -/
  tables : Dict (List Char) (List (List Char))
  /-- `current` -/
  current : Option (List Char)

/-- The body of the loop over the lines. -/
def parseLine (s : ParseState) (line : List Char) : ParseState :=
  match matchMarker line with
  | some src => ⟨s.tables.set src [], some src⟩
  | none =>
    match s.current with
    | none => s
    | some src =>
      if isHeading line then { s with current := none }
      else if isTableRow line then
        { s with
          tables := s.tables.set src ((s.tables.get? src).getD [] ++ [rstripWhile isSpace line]) }
      else s

/-- The header and the data rows. -/
def keptRows (rows : List (List Char)) : List (List Char) :=
  rows.filter fun row => !isAlignmentRow row

/-- `parse` -/
def parse (text : List Char) : Dict (List Char) (List (List Char)) :=
  (((text.splitOn '\n').foldl parseLine ⟨Dict.empty, none⟩).tables).mapValues keptRows

/-! ## `main` -/

/-- How the renderer ends: its exit status and its output. -/
structure Rendered : Type where
  /-- `returncode` -/
  returncode : ℤ
  /-- `stdout` -/
  stdout : List Char

/-- `main`, where the renderer is found. -/
def checkReportTables (proc : Rendered) (report : List Char) : ℕ :=
  let generated := parse proc.stdout
  let published := parse report
  let fails := generated.entries.filter fun e =>
    match published.get? e.1 with
    | none => false
    | some prows => e.2 != prows
  if fails.isEmpty then 0 else 1

/-! ## The tables of a text -/

/-- The rows up to the next marker or heading. -/
def rowsAfter : List (List Char) → List (List Char)
  | [] => []
  | line :: rest =>
    if (matchMarker line).isSome || isHeading line then []
    else if isTableRow line then rstripWhile isSpace line :: rowsAfter rest
    else rowsAfter rest

/-- The sources of all markers, each with the rows that follow. -/
def sections : List (List Char) → List (List Char × List (List Char))
  | [] => []
  | line :: rest =>
    match matchMarker line with
    | some src => (src, rowsAfter rest) :: sections rest
    | none => sections rest

/-- The tables of a text: the source of every marker, and the header and data rows that follow. -/
def tableBlocks (text : List Char) : List (List Char × List (List Char)) :=
  (sections (text.splitOn '\n')).map fun b => (b.1, keptRows b.2)

/-- What the check is for: the renderer has run, and no table of the report differs from one of its
source in the output. -/
structure TablesChecked (proc : Rendered) (report : List Char) : Prop where
  /-- the renderer succeeded -/
  succeeded : proc.returncode = 0
  /-- the tables of a source have the same rows -/
  rows_eq : ∀ o ∈ tableBlocks report, ∀ g ∈ tableBlocks proc.stdout, o.1 = g.1 → o.2 = g.2

/-! ## What `parse` finds -/

/-- The tables so far, with the rows that are still to come for the open one. -/
def ParseState.openRows (s : ParseState) (lines : List (List Char)) :
    List Char → Option (List (List Char)) :=
  match s.current with
  | none => s.tables.get?
  | some src =>
    Function.update s.tables.get? src (some ((s.tables.get? src).getD [] ++ rowsAfter lines))

/-- The open table is one of the tables. -/
def ParseState.OpenIn (s : ParseState) : Prop :=
  ∀ src, s.current = some src → ∃ rows, s.tables.get? src = some rows

/-- Where no rows are to come, the tables are those so far. -/
theorem ParseState.OpenIn.openRows_of_nil {s : ParseState} (h : s.OpenIn)
    {lines : List (List Char)} (hnil : rowsAfter lines = []) :
    s.openRows lines = s.tables.get? := by
  rw [openRows]
  cases hcurrent : s.current with
  | none => rfl
  | some src =>
    obtain ⟨rows, hrows⟩ := h src hcurrent
    dsimp only
    rw [hnil, List.append_nil, hrows, Option.getD_some, ← hrows, Function.update_eq_self]

/-- A marker closes the table that is open and opens an empty one under its own name. -/
theorem openRows_marker {s : ParseState} (h : s.OpenIn) {line src : List Char}
    (hmarker : matchMarker line = some src) (lines : List (List Char)) :
    (parseLine s line).OpenIn ∧ (parseLine s line).openRows lines =
      Function.update (s.openRows (line :: lines)) src (some (rowsAfter lines)) := by
  have hnil : rowsAfter (line :: lines) = [] := by rw [rowsAfter, hmarker]; rfl
  have hline : parseLine s line = ⟨s.tables.set src [], some src⟩ := by rw [parseLine, hmarker]
  have hget : (s.tables.set src []).get? src = some [] := by rw [Dict.get?_set, if_pos rfl]
  rw [hline]
  refine ⟨fun src' hsrc => ⟨[], ?_⟩, ?_⟩
  · cases hsrc
    exact hget
  · dsimp only [ParseState.openRows]
    rw [hget, Dict.get?_set_eq_update, Function.update_idem]
    exact congrArg (Function.update · src _) (h.openRows_of_nil hnil).symm

/-- A row that is met while a table is open is put to this table and to no other. -/
theorem openRows_row {s : ParseState} {line src : List Char} (hcurrent : s.current = some src)
    (hmarker : matchMarker line = none) (hheading : ¬ isHeading line = true)
    (hrow : isTableRow line = true) (lines : List (List Char)) :
    (parseLine s line).OpenIn ∧
      (parseLine s line).openRows lines = s.openRows (line :: lines) := by
  have hline : parseLine s line =
      { s with
        tables := s.tables.set src
          ((s.tables.get? src).getD [] ++ [rstripWhile isSpace line]) } := by
    rw [parseLine, hmarker, hcurrent]
    exact (if_neg hheading).trans (if_pos hrow)
  have hrows : rowsAfter (line :: lines) = rstripWhile isSpace line :: rowsAfter lines := by
    rw [rowsAfter, hmarker, Option.isSome_none, Bool.false_or, if_neg hheading, if_pos hrow]
  rw [hline]
  constructor
  · intro src' hsrc
    cases hcurrent.symm.trans hsrc
    exact ⟨_, by rw [Dict.get?_set, if_pos rfl]⟩
  · rw [ParseState.openRows, ParseState.openRows, hcurrent, hrows]
    dsimp only
    rw [Dict.get?_set_eq_update, Function.update_self, Function.update_idem,
      Option.getD_some, List.append_assoc, List.singleton_append]

/-- A line: the open table goes on, or ends, or another is opened. -/
theorem openRows_parseLine {s : ParseState} (h : s.OpenIn) (line : List Char)
    (lines : List (List Char)) :
    (parseLine s line).OpenIn ∧
      (parseLine s line).openRows lines =
        match matchMarker line with
        | some src => Function.update (s.openRows (line :: lines)) src (some (rowsAfter lines))
        | none => s.openRows (line :: lines) := by
  cases hmarker : matchMarker line with
  | some src => exact openRows_marker h hmarker lines
  | none =>
    cases hcurrent : s.current with
    | none =>
      have hline : parseLine s line = s := by rw [parseLine, hmarker, hcurrent]
      rw [hline]
      refine ⟨h, ?_⟩
      rw [ParseState.openRows, ParseState.openRows, hcurrent]
    | some src =>
      by_cases hheading : isHeading line = true
      · have hnil : rowsAfter (line :: lines) = [] := by
          rw [rowsAfter, hheading, Bool.or_true, if_pos rfl]
        have hline : parseLine s line = { s with current := none } := by
          rw [parseLine, hmarker, hcurrent]
          exact if_pos hheading
        rw [hline]
        refine ⟨fun _ hsrc => ?_, (h.openRows_of_nil hnil).symm⟩
        cases hsrc
      by_cases hrow : isTableRow line = true
      · exact openRows_row hcurrent hmarker hheading hrow lines
      · have hline : parseLine s line = s := by
          rw [parseLine, hmarker, hcurrent]
          exact (if_neg hheading).trans (if_neg hrow)
        have hrows : rowsAfter (line :: lines) = rowsAfter lines := by
          rw [rowsAfter, hmarker, Option.isSome_none, Bool.false_or, if_neg hheading, if_neg hrow]
        rw [hline]
        refine ⟨h, ?_⟩
        rw [ParseState.openRows, ParseState.openRows, hcurrent, hrows]

/-- After all lines have been parsed, each section has opened its table and filled it with its
rows. -/
theorem get?_foldl_parseLine (lines : List (List Char)) {s : ParseState} (h : s.OpenIn) :
    (lines.foldl parseLine s).tables.get? =
      storeAll (s.openRows lines) ((sections lines).map fun b => (b.1, some b.2)) := by
  induction lines generalizing s with
  | nil => exact (h.openRows_of_nil rfl).symm
  | cons line lines ih =>
    obtain ⟨hopen, hstep⟩ := openRows_parseLine h line lines
    rw [List.foldl_cons, ih hopen, hstep, sections]
    cases matchMarker line with
    | some src => rfl
    | none => rfl

/-- The tables that the parser leaves are those of a dictionary that is filled from all sections. -/
theorem get?_tables (text src : List Char) :
    ((text.splitOn '\n').foldl parseLine ⟨Dict.empty, none⟩).tables.get? src =
      (Dict.ofList (sections (text.splitOn '\n'))).get? src := by
  have hopen : ParseState.OpenIn ⟨Dict.empty, none⟩ := by
    intro _ hsrc
    cases hsrc
  exact (congrFun (get?_foldl_parseLine _ hopen) src).trans (Dict.get?_setAll ..).symm

/-- What `parse` finds for a source are the rows of a table. -/
theorem mem_of_get?_parse {text src : List Char} {rows : List (List Char)}
    (h : (parse text).get? src = some rows) : (src, rows) ∈ tableBlocks text := by
  rw [parse, Dict.get?_mapValues, get?_tables] at h
  obtain ⟨all, hall, rfl⟩ := Option.map_eq_some_iff.mp h
  exact List.mem_map.mpr ⟨(src, all), Dict.mem_of_get?_ofList hall, rfl⟩

/-- **It finds the rows of one of the tables**, where there are any. -/
theorem get?_parse {text : List Char} {b : List Char × List (List Char)}
    (h : b ∈ tableBlocks text) :
    ∃ rows, (parse text).get? b.1 = some rows ∧ (b.1, rows) ∈ tableBlocks text := by
  obtain ⟨section_, hmem, rfl⟩ := List.mem_map.mp h
  obtain ⟨all, hall, -⟩ := Dict.exists_get?_ofList (List.mem_map.mpr ⟨section_, hmem, rfl⟩)
  have hget : (parse text).get? section_.1 = some (keptRows all) := by
    rw [parse, Dict.get?_mapValues, get?_tables, hall, Option.map_some]
  exact ⟨keptRows all, hget, mem_of_get?_parse hget⟩

/-! ## When the check can be trusted -/

/-- The tables of a source that both texts have are the same in the first. -/
def Unambiguous (text other : List Char) : Prop :=
  ∀ o ∈ tableBlocks text, ∀ o' ∈ tableBlocks text, o.1 = o'.1 →
    (∃ g ∈ tableBlocks other, g.1 = o.1) → o.2 = o'.2

/-- Where the check passes, what is found in both texts is the same. -/
theorem eq_of_checkReportTables {proc : Rendered} {report src : List Char}
    {rows rows' : List (List Char)} (h : checkReportTables proc report = 0)
    (hgenerated : (parse proc.stdout).get? src = some rows)
    (hpublished : (parse report).get? src = some rows') : rows = rows' := by
  rw [checkReportTables] at h
  split_ifs at h with hfails
  have hnone := List.filter_eq_nil_iff.mp (List.isEmpty_iff.mp hfails) (src, rows)
    (Dict.mem_entries_iff.mpr hgenerated)
  dsimp only at hnone
  rw [hpublished] at hnone
  exact not_not.mp fun hne => hnone (bne_iff_ne.mpr hne)

/-- **A check that passes means what it says exactly when the renderer succeeded and neither text
has two different tables of a source that is in both.** -/
theorem tablesChecked_iff (proc : Rendered) (report : List Char)
    (h : checkReportTables proc report = 0) :
    TablesChecked proc report ↔
      proc.returncode = 0 ∧ Unambiguous report proc.stdout ∧ Unambiguous proc.stdout report := by
  constructor
  · intro hchecked
    refine ⟨hchecked.succeeded, ?_, ?_⟩
    · rintro o ho o' ho' hsrc ⟨g, hg, hgsrc⟩
      have hog := hchecked.rows_eq o ho g hg hgsrc.symm
      exact hog.trans (hchecked.rows_eq o' ho' g hg (hsrc.symm.trans hgsrc.symm)).symm
    · rintro g hg g' hg' hsrc ⟨o, ho, hosrc⟩
      have hog := hchecked.rows_eq o ho g hg hosrc
      exact hog.symm.trans (hchecked.rows_eq o ho g' hg' (hosrc.trans hsrc))
  · rintro ⟨hrc, hreport, hstdout⟩
    refine ⟨hrc, fun o ho g hg hsrc => ?_⟩
    obtain ⟨prows, hprows, hpmem⟩ := get?_parse ho
    obtain ⟨grows, hgrows, hgmem⟩ := get?_parse hg
    calc o.2 = prows := hreport o ho _ hpmem rfl ⟨g, hg, hsrc.symm⟩
      _ = grows := (eq_of_checkReportTables h hgrows (hsrc ▸ hprows)).symm
      _ = g.2 := (hstdout g hg _ hgmem rfl ⟨o, ho, hsrc⟩).symm

/-- One table of one row passes when it stands in both texts, up to blanks at the end of a row. -/
theorem tablesChecked_one :
    TablesChecked ⟨0, "<!-- generated from a -->\n|x|".toList⟩
      "<!-- generated from a -->\n|x| ".toList := by
  refine (tablesChecked_iff _ _ (by decide +kernel)).mpr ⟨rfl, ?_, ?_⟩
  · unfold Unambiguous
    decide +kernel
  · unfold Unambiguous
    decide +kernel

/-- **A renderer that crashes before it prints anything: the check passes.** -/
theorem not_tablesChecked :
    ¬ ∀ (proc : Rendered) (report : List Char), checkReportTables proc report = 0 →
      TablesChecked proc report := by
  intro hclaim
  have h := (hclaim ⟨1, []⟩ [] (by decide +kernel)).succeeded
  cases h

end LuzServing
