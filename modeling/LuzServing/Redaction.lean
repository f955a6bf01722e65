import LuzServing.Regex
import LuzServing.ReportTables

/-!
# The leak scan of the published tree

`check_redaction` walks a tree, reads every file that does not look binary, and searches each of its
lines for the patterns of the classes that have to be masked. A hit that no entry of `CLASSIFIED`
names makes it fail, and it calls itself fail-closed.

It is not: `os.walk` passes over a directory that it cannot list, a file that cannot be opened
counts as binary, one that cannot be read is passed over, and what a pattern matches across a line
break is in no line. **A scan that passes says what it should exactly if every file could be read
and no pattern needed a line break** (`scan_sound_iff`). Of the patterns of the source that is in
question for one only, the pinning map, as no other blocker has a class with the line break
(`blockers_inline`, `scan_sound_iff_pinning`).
-/

namespace LuzServing

/-! ## Files -/

/-- A regular file. -/
structure TreeFile : Type where
  /-- its name -/
  name : String
  /-- its bytes -/
  content : List UInt8
  /-- that `is_binary` opens and reads it raises no `OSError` -/
  probed : Bool
  /-- nor that `scan` does -/
  opened : Bool

/-- A directory of the tree. -/
structure Folder : Type where
  /-- its name -/
  name : String
  /-- it can be listed -/
  listable : Bool

/-- The entries of a directory, in the order in which they are listed. -/
inductive Entries : Type where
  /-- nothing more -/
  | nil
  /-- a file -/
  | file (f : TreeFile) (more : Entries)
  /-- a directory -/
  | dir (d : Folder) (inside more : Entries)

/-- What a path leads to. What is no directory has no entries. -/
structure Directory : Type where
  /-- it can be listed -/
  listable : Bool
  /-- what it has -/
  entries : Entries

/-- The file is in the directories, one in the other. -/
inductive Entries.Has : Entries → List Folder → TreeFile → Prop where
  /-- the file itself -/
  | here {f : TreeFile} {more : Entries} : Has (.file f more) [] f
  /-- after a file -/
  | file {f g : TreeFile} {more : Entries} {folders : List Folder} :
    Has more folders f → Has (.file g more) folders f
  /-- in a directory -/
  | inside {d : Folder} {f : TreeFile} {inside more : Entries} {folders : List Folder} :
    Has inside folders f → Has (.dir d inside more) (d :: folders) f
  /-- after a directory -/
  | dir {d : Folder} {f : TreeFile} {inside more : Entries} {folders : List Folder} :
    Has more folders f → Has (.dir d inside more) folders f

/-- `filenames` -/
def Entries.filenames : Entries → List TreeFile
  | nil => []
  | file f more => f :: more.filenames
  | dir _ _ more => more.filenames

/-- `os.walk` below a directory, without the names that are pruned: each file with the names of the
directories that it is in. -/
def Entries.walkDirs (skipDirs : List String) (dirpath : List String) :
    Entries → List (List String × TreeFile)
  | nil => []
  | file _ more => walkDirs skipDirs dirpath more
  | dir d inside more =>
    (if d.name ∈ skipDirs then []
      else if d.listable then
        inside.filenames.map (Prod.mk (dirpath ++ [d.name])) ++
          walkDirs skipDirs (dirpath ++ [d.name]) inside
      else []) ++ walkDirs skipDirs dirpath more

/-- `os.walk` -/
def Directory.walk (skipDirs : List String) (root : Directory) : List (List String × TreeFile) :=
  if root.listable then
    root.entries.filenames.map (Prod.mk []) ++ root.entries.walkDirs skipDirs []
  else []

/-- `os.path.relpath(fp, root)`, with slashes. -/
def relPath (dirpath : List String) (f : TreeFile) : String := "/".intercalate (dirpath ++ [f.name])

/-- `os.path.splitext(path)[1]`: from the last dot on, unless there are only dots before it. -/
def splitext (name : String) : List Char :=
  let upToDot := name.toList.rdropWhile (· != '.')
  if upToDot.dropLast.any (· != '.') then '.' :: name.toList.rtakeWhile (· != '.') else []

/-! ## Text -/

/-- What a UTF-8 decoder is in the middle of. -/
structure Utf8State : Type where
  /-- how many bytes are still to come -/
  owed : ℕ
  /-- the least that the next may be -/
  low : ℕ
  /-- the greatest -/
  high : ℕ
  /-- the bits so far -/
  code : ℕ

/-- The state of the decoder between two characters. -/
def Utf8State.start : Utf8State := ⟨0, 0x80, 0xBF, 0⟩

/-- What `errors="replace"` puts in place of what is no UTF-8. -/
def replacement : Char := Char.ofNat 0xFFFD

/-- The first byte of a character. -/
def firstByte (b : ℕ) : List Char × Utf8State :=
  if b < 0x80 then ([Char.ofNat b], .start)
  else if 0xC2 ≤ b ∧ b ≤ 0xDF then ([], ⟨1, 0x80, 0xBF, b - 0xC0⟩)
  else if 0xE0 ≤ b ∧ b ≤ 0xEF then
    ([], ⟨2, if b = 0xE0 then 0xA0 else 0x80, if b = 0xED then 0x9F else 0xBF, b - 0xE0⟩)
  else if 0xF0 ≤ b ∧ b ≤ 0xF4 then
    ([], ⟨3, if b = 0xF0 then 0x90 else 0x80, if b = 0xF4 then 0x8F else 0xBF, b - 0xF0⟩)
  else ([replacement], .start)

/-- `encoding="utf-8", errors="replace"`: a sequence that breaks off is replaced as a whole. -/
def decodeUtf8 : Utf8State → List UInt8 → List Char
  | s, [] => if s.owed = 0 then [] else [replacement]
  | s, b :: rest =>
    if s.owed = 0 then
      (firstByte b.toNat).1 ++ decodeUtf8 (firstByte b.toNat).2 rest
    else if s.low ≤ b.toNat ∧ b.toNat ≤ s.high then
      let code := s.code * 64 + (b.toNat - 0x80)
      if s.owed = 1 then Char.ofNat code :: decodeUtf8 .start rest
      else decodeUtf8 ⟨s.owed - 1, 0x80, 0xBF, code⟩ rest
    else replacement :: (firstByte b.toNat).1 ++ decodeUtf8 (firstByte b.toNat).2 rest

/-- The line breaks of a file that is opened as text, after a carriage return or not. -/
def newlines : Bool → List Char → List Char
  | _, [] => []
  | _, '\r' :: rest => '\n' :: newlines true rest
  | cr, '\n' :: rest => if cr then newlines false rest else '\n' :: newlines false rest
  | _, c :: rest => c :: newlines false rest

/-- `f.read()` -/
def TreeFile.text (f : TreeFile) : List Char := newlines false (decodeUtf8 .start f.content)

/-! ## The checker -/

/-- The characters of words: those that `str.isalnum` has, and the underscore. -/
structure WordChars : Type where
  /-- `\w` -/
  isWord : Char → Bool
  /-- the ASCII ones -/
  ascii : ∀ c, c.toNat < 128 → isWord c = (c.isAlphanum || c == '_')

/-- What the audit says of a class. -/
inductive Severity : Type where
  /-- mask it -/
  | blocker
  /-- it is retained -/
  | classified
  deriving DecidableEq

/-- An entry of `PATTERNS`. -/
structure Pattern : Type where
  /-- its name -/
  id : String
  /-- what it matches -/
  rx : Regex
  /-- its class -/
  cls : String
  /-- the verdict -/
  sev : Severity

/-- The tables that the checker is made up of. -/
structure Checker : Type where
  /-- `PATTERNS` -/
  patterns : List Pattern
  /-- the keys of `CLASSIFIED`: a pattern and a path, or `*` -/
  classified : List (String × String)
  /-- `SELFTEST_NO_MATCH` -/
  selftestNoMatch : List String
  /-- `SELFTEST_MUST_MATCH` -/
  selftestMustMatch : List (String × String)
  /-- `SKIP_DIRS` -/
  skipDirs : List String
  /-- `BINARY_EXT` -/
  binaryExt : List String

/-- What a pattern found in a line. -/
structure Hit : Type where
  /-- the pattern -/
  pid : String
  /-- its class -/
  cls : String
  /-- its verdict -/
  sev : Severity
  /-- the file -/
  rel : String
  /-- the line, from one on -/
  lineno : ℕ
  /-- the start of the line -/
  text : List Char

namespace Checker

variable (C : Checker) (w : WordChars)

/-- `selftest`, unless it has a pattern that is not there. -/
def selftest : Option ℕ := do
  let falsePositives := C.selftestNoMatch.flatMap fun text =>
    (C.patterns.filter fun p => p.sev = .blocker && p.rx.search w.isWord text.toList).map
      Pattern.id
  let lookup := Dict.ofList (C.patterns.map fun p => (p.id, p.rx))
  let missed ← C.selftestMustMatch.mapM fun (pid, text) => do
    let rx ← lookup.get? pid
    pure (if rx.search w.isWord text.toList then [] else [pid])
  pure (if falsePositives ++ missed.flatten = [] then 0 else 1)

/-- The name of the file is that of a binary one. -/
def hasBinaryExt (f : TreeFile) : Bool :=
  C.binaryExt.any fun ext => ext.toList == (splitext f.name).map Char.toLower

/-- `is_binary` -/
def isBinary (f : TreeFile) : Bool :=
  if C.hasBinaryExt f then true
  else if f.probed then (f.content.take 8192).contains 0
  else true

/-- The text of a file, if `scan` gets to it. -/
def readText (f : TreeFile) : Option (List Char) :=
  if C.isBinary f then none
  else if f.opened then some f.text
  else none

/-- The hits in a text. -/
def hitsIn (rel : String) (text : List Char) : List Hit :=
  ((text.splitOn '\n').zipIdx 1).flatMap fun (line, i) =>
    (C.patterns.filter fun p => p.rx.search w.isWord line).map fun p =>
      ⟨p.id, p.cls, p.sev, rel, i, (stripWhile isSpace line).take 150⟩

/-- `scan` -/
def scan (root : Directory) : List Hit :=
  (root.walk C.skipDirs).flatMap fun (dirpath, f) =>
    match C.readText f with
    | none => []
    | some text => C.hitsIn w (relPath dirpath f) text

/-- The hit is of a class that is retained, or an entry of `CLASSIFIED` names it. -/
def isClassified (h : Hit) : Bool :=
  h.sev = .classified || C.classified.contains (h.pid, h.rel) || C.classified.contains (h.pid, "*")

/-- The root that the arguments name. -/
def rootArg (argv : List String) (defaultRoot : String) : String :=
  ((argv.drop 1).filter fun a => !"--".toList.isPrefixOf a.toList).head?.getD defaultRoot

/-- `main`: its exit code. -/
def main (argv : List String) (defaultRoot : String) (tree : String → Directory) : Option ℕ := do
  if "--selftest" ∈ argv then C.selftest w
  else
    if (← C.selftest w) ≠ 0 then pure 2
    else
      let hits := C.scan w (tree (rootArg argv defaultRoot))
      let unclassified := hits.filter fun h => !C.isClassified h
      pure (if unclassified = [] then 0 else 1)

end Checker

/-! ## Its tables -/

/-- `[0-9]` -/
def isDigit (c : Char) : Bool := '0' ≤ c && c ≤ '9'

/-- `[a-z]` -/
def isLower (c : Char) : Bool := 'a' ≤ c && c ≤ 'z'

/-- `[A-Z]` -/
def isUpper (c : Char) : Bool := 'A' ≤ c && c ≤ 'Z'

section
open Regex

/-- The pinning map: the one pattern with the line break in its classes. -/
def pinningMap : Pattern where
  id := "peer-hca-pinning-map"
  rx := lit "PEER_HCA_RANK" ++ one isDigit ++ many isSpace ++ lit "=" ++ many isSpace ++ lit "\"" ++
    many (· != '"') ++ lit "roce"
  cls := "topology-fingerprint"
  sev := .blocker

/-- The patterns of the other classes that have to be masked. -/
def otherBlockers : List Pattern :=
  [⟨"username-in-path",
      lit "/home/" ++ notAhead (oneOf ["spark", "zurih", "user", "username", "you", "your",
        "example", "me", "appuser", "host", "node"] ++ lit "/") ++ one isLower ++
        many (fun c => isLower c || isDigit c || c == '_' || c == '-') ++ lit "/",
      "identity", .blocker⟩,
    ⟨"sudo-password", boundary ++ lit "AS1217hf" ++ boundary, "credential", .blocker⟩,
    ⟨"api-token",
      alt (boundary ++ lit "sk-dgxspark-" ++
          atLeast 4 (fun c => isDigit c || ('a' ≤ c && c ≤ 'f')) ++ boundary)
        (boundary ++ lit "LuZvLLMDEV2026" ++ boundary),
      "credential", .blocker⟩,
    ⟨"node-hostname",
      boundary ++ lit "dgxspark0" ++ one (fun c => '1' ≤ c && c ≤ '4') ++ boundary ++
        notAhead (lit ".example"),
      "identity", .blocker⟩,
    ⟨"mgmt-ip",
      alt (boundary ++ lit "192.168." ++ oneOf ["5", "1"] ++ lit ".18" ++
          one (fun c => '6' ≤ c && c ≤ '9') ++ boundary)
        (boundary ++ lit "192.168.5.5" ++ one (fun c => '7' ≤ c && c ≤ '8') ++ boundary),
      "network", .blocker⟩]

/-- The patterns of the classes that are retained. -/
def retained : List Pattern :=
  [⟨"hca-name",
      alt (boundary ++ lit "rocep" ++ one isDigit ++ lit "s" ++ one isDigit ++ lit "f" ++
          one isDigit ++ boundary)
        (boundary ++ lit "roceP" ++ one isDigit ++ lit "p" ++ one isDigit ++ lit "s" ++
          one isDigit ++ lit "f" ++ one isDigit ++ boundary),
      "network", .classified⟩,
    ⟨"nic-name",
      alt (boundary ++ lit "enp" ++ one isDigit ++ lit "s" ++ one isDigit ++ lit "f" ++
          one isDigit ++ lit "np" ++ one isDigit ++ boundary)
        (boundary ++ lit "enP" ++ one isDigit ++ lit "s" ++ one isDigit ++ boundary),
      "network", .classified⟩,
    ⟨"upstream-author-path", lit "/home/zurih/", "attribution", .classified⟩,
    ⟨"generic-scheme-ip", boundary ++ lit "10.0.0." ++ atLeast 1 isDigit ++ boundary, "network",
      .classified⟩,
    ⟨"nfs-pair-ip",
      boundary ++ lit "10.0." ++ oneOf ["22", "23", "33"] ++ lit "." ++ atLeast 1 isDigit ++
        boundary,
      "network", .classified⟩,
    ⟨"upstream-author", boundary ++ lit "zurih" ++ boundary, "attribution", .classified⟩,
    ⟨"share-code", lit "?pwd=luzi" ++ boundary, "deliberate", .classified⟩,
    ⟨"aicad-path", lit "/opt/aicad-prod" ++ boundary, "published-name", .classified⟩,
    ⟨"placeholder-account", lit "/home/spark/", "placeholder", .classified⟩,
    ⟨"ascii-placeholder",
      alt (lit "_PH_" ++ atLeast 1 (fun c => isUpper c || isDigit c || c == '_') ++ lit "_")
        (oneOf ["<NODE_IP>", "<PINNING>", "<IB_HCA>", "<NET_IFACE>", "<USER>"]),
      "placeholder", .classified⟩]

end

/-- The checker of the source. -/
def checkRedaction : Checker where
  patterns := otherBlockers ++ pinningMap :: retained
  classified := ["hca-name", "nic-name", "upstream-author-path", "generic-scheme-ip", "nfs-pair-ip",
    "upstream-author", "share-code", "aicad-path", "placeholder-account",
    "ascii-placeholder"].map fun pid => (pid, "*")
  selftestNoMatch :=
    ["assert budget == \"~189 GiB\"", "prefill 149.8 / decode 140.3 tok/s",
      "disk-cache-hit / mask-initialization", "API_KEY = \"YOUR_API_KEY\"",
      "password = os.environ.get(\"WORKER_PASS\")", "https://example.invalid/home/user/index.html",
      "see /home/appuser/config for the template"]
  selftestMustMatch :=
    [("peer-hca-pinning-map", "PEER_HCA_RANK0=\"1=rocep1s0f0;3=hcaC,hcaD\""),
      ("hca-name", "IB_HCA=rocep1s0f0"), ("nic-name", "GLOO_SOCKET_IFNAME=enP7s7"),
      ("username-in-path", "SB=/home/someone/state"),
      ("mgmt-ip", "upstream at 192.168.5.186:8001"), ("sudo-password", "pw AS1217hf end")]
  skipDirs := [".git", "node_modules", "__pycache__", "venv", ".venv", "site-packages", "dist",
    "build", ".mypy_cache", ".pytest_cache", ".workbuddy"]
  binaryExt := [".bin", ".safetensors", ".gguf", ".tar", ".tgz", ".zip", ".png", ".jpg", ".jpeg",
    ".gif", ".pdf", ".so", ".o", ".a", ".pyc", ".ipynb", ".gz", ".xz", ".7z", ".zst", ".woff",
    ".woff2", ".ttf"]

/-! ## What the walk gets to -/

namespace Entries

variable {skipDirs : List String} {f : TreeFile}

theorem has_file {g : TreeFile} {more : Entries} {folders : List Folder} :
    (file g more).Has folders f ↔ (folders = [] ∧ f = g) ∨ more.Has folders f := by
  refine ⟨?_, ?_⟩
  · intro h
    cases h with
    | here => exact .inl ⟨rfl, rfl⟩
    | file h => exact .inr h
  · rintro (⟨rfl, rfl⟩ | h)
    · exact .here
    · exact .file h

theorem has_dir {d : Folder} {inside more : Entries} {folders : List Folder} :
    (dir d inside more).Has folders f ↔
      (∃ below, folders = d :: below ∧ inside.Has below f) ∨ more.Has folders f := by
  refine ⟨?_, ?_⟩
  · intro h
    cases h with
    | inside h => exact .inl ⟨_, rfl, h⟩
    | dir h => exact .inr h
  · rintro (⟨below, rfl, h⟩ | h)
    · exact .inside h
    · exact .dir h

/-- **What `os.walk` gets to in a directory**: the files below it, unless a directory on the way is
pruned or cannot be listed. -/
theorem mem_walkDirs {entries : Entries} {dirpath names : List String} :
    (names, f) ∈ entries.filenames.map (Prod.mk dirpath) ++ entries.walkDirs skipDirs dirpath ↔
      ∃ folders, entries.Has folders f ∧ names = dirpath ++ folders.map Folder.name ∧
        ∀ d ∈ folders, d.name ∉ skipDirs ∧ d.listable = true := by
  induction entries generalizing dirpath names with
  | nil =>
    refine ⟨fun h => absurd h List.not_mem_nil, ?_⟩
    rintro ⟨folders, h, -⟩
    cases h
  | file g more ih =>
    rw [filenames, walkDirs, List.map_cons, List.cons_append, List.mem_cons, ih]
    simp only [has_file, or_and_right, exists_or]
    refine or_congr_left ?_
    refine ⟨?_, ?_⟩
    · rintro ⟨⟩
      exact ⟨[], ⟨rfl, rfl⟩, (List.append_nil _).symm, by simp⟩
    · rintro ⟨folders, ⟨rfl, rfl⟩, rfl, -⟩
      rw [List.map_nil, List.append_nil]
  | dir d inside more ihInside ihMore =>
    have hinside : (names, f) ∈ (if d.name ∈ skipDirs then []
          else if d.listable then
            inside.filenames.map (Prod.mk (dirpath ++ [d.name])) ++
              walkDirs skipDirs (dirpath ++ [d.name]) inside
          else []) ↔
        ∃ folders, (∃ below, folders = d :: below ∧ inside.Has below f) ∧
          names = dirpath ++ folders.map Folder.name ∧
          ∀ d ∈ folders, d.name ∉ skipDirs ∧ d.listable = true := by
      rw [List.mem_ite_nil_left, List.mem_ite_nil_right, ihInside]
      refine ⟨?_, ?_⟩
      · rintro ⟨hskip, hlist, below, hhas, rfl, hall⟩
        exact ⟨d :: below, ⟨below, rfl, hhas⟩, List.append_assoc ..,
          List.forall_mem_cons.mpr ⟨⟨hskip, hlist⟩, hall⟩⟩
      · rintro ⟨_, ⟨below, rfl, hhas⟩, rfl, hall⟩
        obtain ⟨⟨hskip, hlist⟩, hall⟩ := List.forall_mem_cons.mp hall
        refine ⟨hskip, hlist, below, hhas, ?_, hall⟩
        rw [List.append_assoc, List.map_cons, List.singleton_append]
    rw [filenames, walkDirs, ← List.append_assoc, List.mem_append, List.mem_append]
    simp only [has_dir, or_and_right, exists_or]
    rw [← hinside, ← ihMore, List.mem_append]
    tauto

end Entries

/-- `os.walk` gets to nothing in a root that cannot be listed. -/
theorem Directory.mem_walk {skipDirs : List String} {root : Directory} {names : List String}
    {f : TreeFile} :
    (names, f) ∈ root.walk skipDirs ↔ root.listable = true ∧
      ∃ folders, root.entries.Has folders f ∧ names = folders.map Folder.name ∧
        ∀ d ∈ folders, d.name ∉ skipDirs ∧ d.listable = true := by
  rw [Directory.walk, List.mem_ite_nil_right, Entries.mem_walkDirs]
  rfl

/-- The text of the file is not binary content. -/
def TreeFile.IsText (f : TreeFile) : Prop := 0 ∉ f.content.take 8192

/-- The path of a file from the root. -/
def pathOf (folders : List Folder) (f : TreeFile) : String := relPath (folders.map Folder.name) f

/-- The file could not be read: a directory that it is in cannot be listed, or it cannot be opened
as often as it has to be. -/
def Directory.Unreadable (root : Directory) (folders : List Folder) (f : TreeFile) : Prop :=
  root.listable = false ∨ (∃ d ∈ folders, d.listable = false) ∨ f.probed = false ∨
    (f.IsText ∧ f.opened = false)

namespace Checker

variable (C : Checker) (w : WordChars)

/-- The scan is meant for the file: it is outside `SKIP_DIRS` and has no extension of
`BINARY_EXT`. -/
structure InScope (folders : List Folder) (f : TreeFile) : Prop where
  /-- outside -/
  dirs : ∀ d ∈ folders, d.name ∉ C.skipDirs
  /-- no extension -/
  ext : C.hasBinaryExt f = false

/-- The files that `scan` reads, with their texts. -/
def reads (root : Directory) : List (String × List Char) :=
  (root.walk C.skipDirs).filterMap fun (dirpath, f) =>
    (C.readText f).map (Prod.mk (relPath dirpath f))

variable {C} {w} {root : Directory}

/-- The scan of a tree returns the hits in each file that it reads, one file after the other. -/
theorem scan_eq :
    C.scan w root = (C.reads root).flatMap fun (rel, text) => C.hitsIn w rel text := by
  rw [scan, reads, List.filterMap_eq_flatMap_toList, List.flatMap_assoc]
  refine List.flatMap_congr fun ⟨dirpath, f⟩ _ => ?_
  dsimp only
  cases C.readText f with
  | none => rfl
  | some text => exact (List.append_nil _).symm

theorem readText_eq_some {f : TreeFile} {text : List Char} :
    C.readText f = some text ↔
      C.hasBinaryExt f = false ∧ f.probed = true ∧ f.IsText ∧ f.opened = true ∧ f.text = text := by
  rw [readText, isBinary, TreeFile.IsText]
  cases C.hasBinaryExt f <;> cases f.probed <;> cases f.opened <;> simp [ite_eq_iff]

/-- **What the scan reads**: the texts of the files that it is meant for and that can be read. -/
theorem mem_reads {rel : String} {text : List Char} :
    (rel, text) ∈ C.reads root ↔
      ∃ folders f, root.entries.Has folders f ∧ C.InScope folders f ∧ f.IsText ∧
        ¬ root.Unreadable folders f ∧ pathOf folders f = rel ∧ f.text = text := by
  rw [reads, List.mem_filterMap]
  refine ⟨?_, ?_⟩
  · rintro ⟨⟨names, f⟩, hmem, hread⟩
    obtain ⟨hlist, folders, hhas, rfl, hall⟩ := Directory.mem_walk.mp hmem
    obtain ⟨text', htext, heq⟩ := Option.map_eq_some_iff.mp hread
    obtain ⟨rfl, rfl⟩ := Prod.mk.inj heq
    obtain ⟨hext, hprobed, hcontent, hopened, rfl⟩ := readText_eq_some.mp htext
    refine ⟨folders, f, hhas, ⟨fun d hd => (hall d hd).1, hext⟩, hcontent, ?_, rfl, rfl⟩
    rintro (hroot | ⟨d, hd, hclosed⟩ | hfail | ⟨-, hfail⟩)
    · exact absurd hlist (by rw [hroot]; exact Bool.false_ne_true)
    · exact absurd (hall d hd).2 (by rw [hclosed]; exact Bool.false_ne_true)
    · exact absurd hprobed (by rw [hfail]; exact Bool.false_ne_true)
    · exact absurd hopened (by rw [hfail]; exact Bool.false_ne_true)
  · rintro ⟨folders, f, hhas, hscope, hcontent, hreadable, rfl, rfl⟩
    simp only [Directory.Unreadable, not_or, not_exists, not_and, Bool.not_eq_false] at hreadable
    obtain ⟨hlist, hall, hprobed, hopened⟩ := hreadable
    refine ⟨(folders.map Folder.name, f), Directory.mem_walk.mpr ⟨hlist, folders, hhas, rfl,
      fun d hd => ⟨hscope.dirs d hd, hall d hd⟩⟩, Option.map_eq_some_iff.mpr ⟨f.text, ?_, rfl⟩⟩
    exact readText_eq_some.mpr ⟨hscope.ext, hprobed, hcontent, hopened hcontent, rfl⟩

/-! ## What a scan that passes says -/

variable (C) in
/-- The pattern is of a class that has to be masked, and no entry of `CLASSIFIED` names it for the
file. -/
structure Blocks (p : Pattern) (rel : String) : Prop where
  /-- a pattern -/
  mem : p ∈ C.patterns
  /-- of a blocker class -/
  sev : p.sev = .blocker
  /-- not retained in the file -/
  here : (p.id, rel) ∉ C.classified
  /-- nor everywhere -/
  everywhere : (p.id, "*") ∉ C.classified

/-- The hits in a text: a pattern and a line that it matches in. -/
theorem mem_hitsIn {rel : String} {text : List Char} {h : Hit} :
    h ∈ C.hitsIn w rel text ↔
      ∃ i line, (text.splitOn '\n')[i]? = some line ∧
        ∃ p ∈ C.patterns, p.rx.search w.isWord line = true ∧
          h = ⟨p.id, p.cls, p.sev, rel, 1 + i, (stripWhile isSpace line).take 150⟩ := by
  rw [hitsIn, List.mem_flatMap]
  refine ⟨?_, ?_⟩
  · rintro ⟨⟨line, n⟩, hline, hhit⟩
    obtain ⟨p, hp, rfl⟩ := List.mem_map.mp hhit
    obtain ⟨hp, hfound⟩ := List.mem_filter.mp hp
    obtain ⟨hle, hline⟩ := List.mk_mem_zipIdx_iff_le_and_getElem?_sub.mp hline
    exact ⟨n - 1, line, hline, p, hp, hfound, by rw [Nat.add_sub_cancel' hle]⟩
  · rintro ⟨i, line, hline, p, hp, hfound, rfl⟩
    exact ⟨(line, 1 + i), List.mk_add_mem_zipIdx_iff_getElem?.mpr hline,
      List.mem_map.mpr ⟨p, List.mem_filter.mpr ⟨hp, hfound⟩, rfl⟩⟩

/-- **The hits that are not classified** are missing exactly when no blocking pattern matches in a
line that is read. -/
theorem filter_scan_eq_nil :
    (C.scan w root).filter (fun h => !C.isClassified h) = [] ↔
      ∀ rel text, (rel, text) ∈ C.reads root → ∀ p, C.Blocks p rel →
        ∀ line ∈ text.splitOn '\n', ¬ p.rx.MatchesIn w.isWord line := by
  have hblocks : ∀ (p : Pattern) (rel : String) (n : ℕ) (text : List Char), p ∈ C.patterns →
      ((!C.isClassified ⟨p.id, p.cls, p.sev, rel, n, text⟩) = true ↔ C.Blocks p rel) := by
    intro p rel n text hp
    simp only [isClassified, Bool.not_eq_true', Bool.or_eq_false_iff, decide_eq_false_iff_not,
      List.contains_eq_mem]
    refine ⟨?_, ?_⟩
    · rintro ⟨⟨hsev, hhere⟩, heverywhere⟩
      refine ⟨hp, ?_, hhere, heverywhere⟩
      cases hs : p.sev with
      | blocker => rfl
      | classified => exact absurd hs hsev
    · rintro ⟨-, hsev, hhere, heverywhere⟩
      rw [hsev]
      exact ⟨⟨nofun, hhere⟩, heverywhere⟩
  rw [List.filter_eq_nil_iff, scan_eq]
  refine ⟨?_, ?_⟩
  · intro hnone rel text hread p hp line hline hmatch
    obtain ⟨i, hi⟩ := List.mem_iff_getElem?.mp hline
    have hhit : ⟨p.id, p.cls, p.sev, rel, 1 + i, (stripWhile isSpace line).take 150⟩ ∈
        C.hitsIn w rel text :=
      mem_hitsIn.mpr ⟨i, line, hi, p, hp.mem, Regex.search_iff.mpr hmatch, rfl⟩
    exact hnone _ (List.mem_flatMap.mpr ⟨(rel, text), hread, hhit⟩)
      ((hblocks p rel _ _ hp.mem).mpr hp)
  · intro hnone h hh
    obtain ⟨⟨rel, text⟩, hread, hhit⟩ := List.mem_flatMap.mp hh
    obtain ⟨i, line, hi, p, hp, hfound, rfl⟩ := mem_hitsIn.mp hhit
    intro hun
    exact hnone rel text hread p ((hblocks p rel _ _ hp).mp hun) line
      (List.mem_of_getElem? hi) (Regex.search_iff.mp hfound)

/-- **Exit code zero**: the self-test has passed, and no pattern that blocks matches in a line of
what was read. -/
theorem main_eq_zero {argv : List String} {defaultRoot : String} {tree : String → Directory}
    (hmode : "--selftest" ∉ argv) :
    C.main w argv defaultRoot tree = some 0 ↔ C.selftest w = some 0 ∧
      ∀ rel text, (rel, text) ∈ C.reads (tree (rootArg argv defaultRoot)) →
        ∀ p, C.Blocks p rel → ∀ line ∈ text.splitOn '\n', ¬ p.rx.MatchesIn w.isWord line := by
  rw [← filter_scan_eq_nil, main, if_neg hmode]
  cases hself : C.selftest w with
  | none => simp
  | some code =>
    by_cases hcode : code = 0
    · subst hcode
      simp
    · simp [hcode]

/-- What a scan that passes should say: each text that it is meant for was read in full and has no
match of a pattern that blocks, also none across a line break, and a file that could not be read
makes it fail. -/
structure Sound (C : Checker) (w : WordChars) (argv : List String) (defaultRoot : String)
    (tree : String → Directory) : Prop where
  /-- was read -/
  read : ∀ folders f, (tree (rootArg argv defaultRoot)).entries.Has folders f →
    C.InScope folders f → f.IsText →
      (pathOf folders f, f.text) ∈ C.reads (tree (rootArg argv defaultRoot))
  /-- has no match -/
  clean : ∀ folders f, (tree (rootArg argv defaultRoot)).entries.Has folders f →
    C.InScope folders f → f.IsText →
      ∀ p, C.Blocks p (pathOf folders f) → ¬ p.rx.MatchesIn w.isWord f.text
  /-- makes it fail -/
  fails : ∀ folders f, (tree (rootArg argv defaultRoot)).entries.Has folders f →
    C.InScope folders f → (tree (rootArg argv defaultRoot)).Unreadable folders f →
      C.main w argv defaultRoot tree ≠ some 0

/-- What the scan can do: it can read every file that it is meant for, and where a pattern that
blocks matches in a text, it matches in one of its lines. -/
structure LineByLine (C : Checker) (w : WordChars) (root : Directory) : Prop where
  /-- read -/
  readable : ∀ folders f, root.entries.Has folders f → C.InScope folders f →
    ¬ root.Unreadable folders f
  /-- match -/
  lines : ∀ folders f, root.entries.Has folders f → C.InScope folders f → f.IsText →
    ∀ p, C.Blocks p (pathOf folders f) → p.rx.MatchesIn w.isWord f.text →
      ∃ line ∈ f.text.splitOn '\n', p.rx.MatchesIn w.isWord line

variable {argv : List String} {defaultRoot : String} {tree : String → Directory}

/-- What is said of a scan that passes is what it can do. -/
theorem lineByLine_of_sound (hzero : C.main w argv defaultRoot tree = some 0)
    (h : C.Sound w argv defaultRoot tree) : C.LineByLine w (tree (rootArg argv defaultRoot)) :=
  ⟨fun folders f hhas hscope hfail => h.fails folders f hhas hscope hfail hzero,
    fun folders f hhas hscope htext p hp hmatch =>
      absurd hmatch (h.clean folders f hhas hscope htext p hp)⟩

/-- **What it can do is enough**: whatever it is meant for it reads, and a match would be in a
line. -/
theorem sound_of_lineByLine (hmode : "--selftest" ∉ argv)
    (hzero : C.main w argv defaultRoot tree = some 0)
    (h : C.LineByLine w (tree (rootArg argv defaultRoot))) :
    C.Sound w argv defaultRoot tree := by
  obtain ⟨-, hlines⟩ := (main_eq_zero hmode).mp hzero
  have hread : ∀ folders f, (tree (rootArg argv defaultRoot)).entries.Has folders f →
      C.InScope folders f → f.IsText →
        (pathOf folders f, f.text) ∈ C.reads (tree (rootArg argv defaultRoot)) :=
    fun folders f hhas hscope htext => mem_reads.mpr
      ⟨folders, f, hhas, hscope, htext, h.readable folders f hhas hscope, rfl, rfl⟩
  refine ⟨hread, fun folders f hhas hscope htext p hp hmatch => ?_,
    fun folders f hhas hscope hfail => absurd hfail (h.readable folders f hhas hscope)⟩
  obtain ⟨line, hline, hin⟩ := h.lines folders f hhas hscope htext p hp hmatch
  exact hlines _ _ (hread folders f hhas hscope htext) p hp line hline hin

end Checker

/-! ## The patterns of the source -/

/-- No pattern of the other blocking classes can match a line break, so each match lies in a
line. -/
theorem blockers_inline : ∀ p ∈ otherBlockers, p.rx.Inline := by decide

/-- The line break is not a word character, whichever characters are. -/
theorem WordChars.newline (w : WordChars) : w.isWord '\n' = false :=
  (w.ascii '\n' (by decide)).trans (by decide)

/-- What blocks is one of the other blockers, or the pinning map. -/
theorem blocks_checkRedaction {p : Pattern} {rel : String} (hp : checkRedaction.Blocks p rel) :
    p ∈ otherBlockers ∨ p = pinningMap := by
  have hretained : ∀ p ∈ retained, p.sev = .classified := by decide
  rcases List.mem_append.mp hp.mem with hother | hrest
  · exact .inl hother
  · rcases List.mem_cons.mp hrest with rfl | hretain
    · exact .inr rfl
    · exact absurd hp.sev (by rw [hretained p hretain]; exact nofun)

/-- The pattern of the pinning map blocks in every file, as none of its hits may be retained. -/
theorem blocks_pinningMap (rel : String) : checkRedaction.Blocks pinningMap rel := by
  have hnone : ∀ e ∈ checkRedaction.classified, e.1 ≠ pinningMap.id := by decide
  exact ⟨List.mem_append_right _ List.mem_cons_self, rfl, fun h => hnone _ h rfl,
    fun h => hnone _ h rfl⟩

/-- **The scan of the source.** When it passes, it says what it should exactly if it could read
every file that it is meant for, and no pinning map goes over a line break. -/
theorem scan_sound_iff_pinning {w : WordChars} {argv : List String} {defaultRoot : String}
    {tree : String → Directory} (hmode : "--selftest" ∉ argv)
    (hzero : checkRedaction.main w argv defaultRoot tree = some 0) :
    checkRedaction.Sound w argv defaultRoot tree ↔
      ∀ folders f, (tree (Checker.rootArg argv defaultRoot)).entries.Has folders f →
        checkRedaction.InScope folders f →
          ¬ (tree (Checker.rootArg argv defaultRoot)).Unreadable folders f ∧
          (f.IsText → pinningMap.rx.MatchesIn w.isWord f.text →
            ∃ line ∈ f.text.splitOn '\n', pinningMap.rx.MatchesIn w.isWord line) := by
  refine ⟨?_, ?_⟩
  · intro hsound folders f hhas hscope
    have h := Checker.lineByLine_of_sound hzero hsound
    exact ⟨h.readable folders f hhas hscope, fun htext =>
      h.lines folders f hhas hscope htext pinningMap (blocks_pinningMap _)⟩
  · intro h
    refine Checker.sound_of_lineByLine hmode hzero
      ⟨fun folders f hhas hscope => (h folders f hhas hscope).1,
        fun folders f hhas hscope htext p hp hmatch => ?_⟩
    rcases blocks_checkRedaction hp with hother | rfl
    · exact (Regex.matchesIn_splitOn w.newline (blockers_inline p hother)).mp hmatch
    · exact (h folders f hhas hscope).2 htext hmatch

/-! ## Every scan -/

/-- **What a scan that passes says.** It says what it should exactly if it could read every file
that it is meant for, and no pattern needed a line break to match. -/
theorem scan_sound_iff {C : Checker} {w : WordChars} {argv : List String} {defaultRoot : String}
    {tree : String → Directory} (hmode : "--selftest" ∉ argv)
    (hzero : C.main w argv defaultRoot tree = some 0) :
    C.Sound w argv defaultRoot tree ↔ C.LineByLine w (tree (Checker.rootArg argv defaultRoot)) :=
  ⟨Checker.lineByLine_of_sound hzero, Checker.sound_of_lineByLine hmode hzero⟩

/-- The ASCII characters of words. -/
def asciiWords : WordChars where
  isWord c := c.isAlphanum || c == '_'
  ascii _ _ := rfl

/-- The self-test that the script runs before its scan passes with the ASCII word characters. -/
theorem selftest_asciiWords : checkRedaction.selftest asciiWords = some 0 := by decide +kernel

/-- The bytes of an ASCII text. -/
def asciiBytes (text : String) : List UInt8 := text.toList.map fun c => UInt8.ofNat c.toNat

/-- A tree with a retained name in a file. -/
def retainedTree : Directory where
  listable := true
  entries := .file ⟨"env.sh", asciiBytes "IB_HCA=rocep1s0f0\n", true, true⟩ .nil

/-- The scan of a tree with a retained hit exits with zero, and it is sound there. -/
theorem scan_sound_iff_retained :
    checkRedaction.main asciiWords ["check_redaction.py", "release"] "." (fun _ => retainedTree) =
        some 0 ∧
      checkRedaction.Sound asciiWords ["check_redaction.py", "release"] "."
        fun _ => retainedTree := by
  have hzero : checkRedaction.main asciiWords ["check_redaction.py", "release"] "."
      (fun _ => retainedTree) = some 0 :=
    (Checker.main_eq_zero (by decide)).mpr
      ⟨selftest_asciiWords, Checker.filter_scan_eq_nil.mp (by decide +kernel)⟩
  have hfile : ∀ folders f, retainedTree.entries.Has folders f →
      folders = [] ∧ f = ⟨"env.sh", asciiBytes "IB_HCA=rocep1s0f0\n", true, true⟩ := by
    intro folders f hhas
    rcases Entries.has_file.mp hhas with hf | hnil
    · exact hf
    · cases hnil
  have hclean : ∀ p ∈ pinningMap :: otherBlockers,
      p.rx.search asciiWords.isWord "IB_HCA=rocep1s0f0\n".toList = false := by decide +kernel
  refine ⟨hzero, (scan_sound_iff (by decide) hzero).mpr ⟨fun folders f hhas _ => ?_,
    fun folders f hhas _ _ p hp hmatch => ?_⟩⟩
  · obtain ⟨rfl, rfl⟩ := hfile folders f hhas
    simp [Directory.Unreadable, retainedTree]
  · obtain ⟨rfl, rfl⟩ := hfile folders f hhas
    have hp' : p ∈ pinningMap :: otherBlockers :=
      List.mem_cons.mpr (blocks_checkRedaction hp).symm
    have htext : TreeFile.text ⟨"env.sh", asciiBytes "IB_HCA=rocep1s0f0\n", true, true⟩ =
        "IB_HCA=rocep1s0f0\n".toList := by decide +kernel
    rw [htext] at hmatch
    exact absurd (Regex.search_iff.mpr hmatch) (by rw [hclean p hp']; exact Bool.false_ne_true)

/-- A pinning map on two lines, and a file that cannot be opened. -/
def leakingTree : Directory where
  listable := true
  entries :=
    .file ⟨"env.sh", asciiBytes "PEER_HCA_RANK0=\"1=hcaA,hcaB;\n  3=rocep1s0f0\"\n", true, true⟩
      (.file ⟨"state.env", asciiBytes "pw AS1217hf\n", false, false⟩ .nil)

/-- **The scan of it passes**: the map is in no line, and the file that cannot be opened counts as
binary. -/
theorem not_scan_sound : ¬ ∀ (C : Checker) (w : WordChars) (argv : List String)
    (defaultRoot : String) (tree : String → Directory), "--selftest" ∉ argv →
      C.main w argv defaultRoot tree = some 0 → C.Sound w argv defaultRoot tree := by
  intro h
  have hzero : checkRedaction.main asciiWords ["check_redaction.py", "release"] "."
      (fun _ => leakingTree) = some 0 :=
    (Checker.main_eq_zero (by decide)).mpr
      ⟨selftest_asciiWords, Checker.filter_scan_eq_nil.mp (by decide +kernel)⟩
  have hsound := h checkRedaction asciiWords ["check_redaction.py", "release"] "."
    (fun _ => leakingTree) (by decide) hzero
  refine hsound.fails [] ⟨"state.env", asciiBytes "pw AS1217hf\n", false, false⟩
    (.file .here) ⟨nofun, by decide +kernel⟩ (.inr (.inr (.inl rfl))) hzero

end LuzServing
