import AgenticCore.DecisionSource
import AgenticCore.Repository

/-!
# Instruction sources (`instruction_source.rs`)

* `metadata`        : what the front matter of a Markdown source declares, and its body.
* `parsed`          : the document of some bytes.
* `currentDocument` : the document of a source as the repository has it now.
* `currentSources`  : the documents of both instruction directories.
-/

set_option autoImplicit false

namespace AgenticCore.InstructionSource

open Json Text Repository

/-! ## Text -/

def isQuote (c : Char) : Bool := c == '\'' || c == '"'

/-- `trim_matches` of both quotes. -/
def trimQuotes (s : String) : String :=
  String.ofList ((s.toList.dropWhile isQuote).reverse.dropWhile isQuote).reverse

/-- `str::lines`: a line feed ends a line, with the carriage return right before it. -/
def lines : List Char → List (List Char)
  | [] => []
  | '\r' :: '\n' :: rest => [] :: lines rest
  | '\n' :: rest => [] :: lines rest
  | c :: rest =>
    match lines rest with
    | [] => [[c]]
    | line :: others => (c :: line) :: others

/-- `replace("\r\n", "\n")`. -/
def lineFeeds : List Char → List Char
  | [] => []
  | '\r' :: '\n' :: rest => '\n' :: lineFeeds rest
  | c :: rest => c :: lineFeeds rest

theorem lineFeeds_of_not_mem {cs : List Char} (h : '\r' ∉ cs) : lineFeeds cs = cs := by
  fun_induction lineFeeds cs with
  | case1 => rfl
  | case2 rest => exact absurd List.mem_cons_self h
  | case3 c rest _ ih => rw [ih fun hmem => h (List.mem_cons_of_mem _ hmem)]

theorem lineFeeds_cons {c : Char} {cs : List Char} (h : c = '\r' → cs.head? ≠ some '\n') :
    lineFeeds (c :: cs) = c :: lineFeeds cs := by
  rw [lineFeeds]
  rintro rest rfl rfl
  exact h rfl rfl

/-- A line feed keeps what is before it from what is behind it. -/
theorem lineFeeds_append (a b : List Char) :
    lineFeeds (a ++ '\n' :: b) = lineFeeds (a ++ ['\n']) ++ lineFeeds b := by
  fun_induction lineFeeds a with
  | case1 => rfl
  | case2 rest ih => exact congrArg ('\n' :: ·) ih
  | case3 c rest h ih =>
    by_cases hc : c = '\r' ∧ rest = []
    · rw [hc.1, hc.2]
      rfl
    · have hhead : ∀ tail, c = '\r' → (rest ++ '\n' :: tail).head? ≠ some '\n' := by
        intro tail hr hhead
        cases rest with
        | nil => exact hc ⟨hr, rfl⟩
        | cons d rest =>
          obtain rfl := Option.some.inj hhead
          exact h rest hr rfl
      rw [List.cons_append, List.cons_append, lineFeeds_cons (hhead b), lineFeeds_cons (hhead []), ih,
        List.cons_append]

/-- A text that ends in a line feed still does. -/
theorem lineFeeds_getLast? (a : List Char) : (lineFeeds (a ++ ['\n'])).getLast? = some '\n' := by
  fun_induction lineFeeds a with
  | case1 => rfl
  | case2 rest ih =>
    change ('\n' :: lineFeeds (rest ++ ['\n'])).getLast? = some '\n'
    rw [List.getLast?_cons, ih]
    rfl
  | case3 c rest h ih =>
    by_cases hc : c = '\r' ∧ rest = []
    · rw [hc.1, hc.2]
      rfl
    · have hhead : c = '\r' → (rest ++ ['\n']).head? ≠ some '\n' := by
        intro hr hhead
        cases rest with
        | nil => exact hc ⟨hr, rfl⟩
        | cons d rest =>
          obtain rfl := Option.some.inj hhead
          exact h rest hr rfl
      rw [List.cons_append, lineFeeds_cons hhead, List.getLast?_cons, ih]
      rfl

/-! ## Metadata -/

def FIELDS : List String :=
  ["paths", "routes", "read", "reconcile", "governed_by", "use", "checks", "protect"]

/-- The fields before any line is read. -/
def noFields : Value :=
  .object (["checks", "governed_by", "paths", "protect", "read", "reconcile", "routes", "use"].map
    fun field => (field, .array []))

/-- `result.get_mut(field)?.as_array_mut()?.push(v)`. -/
def push (result : Value) (field : String) (v : Value) : Option Value :=
  ((result.get? field).bind Value.asArray).map fun items =>
    result.insert field (.array (items ++ [v]))

/-- The field that a line is about, the fields named so far and the line's own values. A value on a
    line of its own may be a command to run. -/
def lineItems (line value field : String) (seen : List String) :
    Option (String × List String × List (String × Bool)) :=
  if startsWith " " line = false ∧ startsWith "-" line = false ∧ ':' ∈ value.toList then do
    let (key, rest) ← splitOnce ':' value
    let field := trim key
    if field ∉ FIELDS ∨ field ∈ seen then none
    else if trim rest = "" then some (field, field :: seen, [])
    else do
      let listed ← (stripPrefix "[" (trim rest)).bind (stripSuffix "]")
      some (field, field :: seen,
        (((split ',' listed).map trim).filter (· ≠ "")).map fun v => (trimQuotes v, false))
  else do
    let item ← stripPrefix "-" value
    some (field, seen, [(trim item, true)])

/-- A path that leaves the repository, or names a device. -/
def outside (value : String) : Bool :=
  startsWith "/" value || startsWith "~" value || value.toList.any (fun c => c = '\\' || c = ':') ||
    decide (".." ∈ split '/' value)

/-- A field whose values are exact paths names no pattern. -/
def inexact (value : String) : Bool :=
  !(DecisionSource.relative value).isOk || value.toList.any (· ∈ ['*', '?', '[', ']'])

/-- One value of a field. -/
def pushItem (field : String) (result : Value) (item : String × Bool) : Option Value :=
  let value := trimQuotes item.1
  if value = "" then none
  else if field = "checks" then
    match (stripPrefix "run:" item.1).filter (fun _ => item.2) with
    | some command =>
      if trim command = "" then none
      else push result field (.object [("run", .string (trim command))])
    | none => push result field (.string value)
  else if field ∈ ["paths", "read", "reconcile", "governed_by", "protect"] ∧ outside value = true then
    none
  else if field ∈ ["reconcile", "governed_by"] ∧ inexact value = true then none
  else if field = "routes" ∧
      (routeIds [(stripSuffix "/**" value).getD value] "instruction routes").isOk = false then none
  else push result field (.string value)

/-- The values in turn, up to one that is refused; whether all were taken, and the fields then. -/
def pushItems (field : String) : List (String × Bool) → Value → Bool × Value
  | [], result => (true, result)
  | item :: items, result =>
    match pushItem field result item with
    | none => (false, result)
    | some result => pushItems field items result

/-- The lines after the first: the body if the metadata is valid, and the fields as far as they
    were read. -/
def readLines : List String → String → List String → Value → Option String × Value
  | [], _, _, result => (none, result)
  | line :: rest, field, seen, result =>
    if line = "---" then (some (trim ("\n".intercalate rest)), result)
    else if trim line = "" ∨ startsWith "#" (trim line) = true then readLines rest field seen result
    else
      match lineItems line (trim line) field seen with
      | none => (none, result)
      | some (field, seen, items) =>
        match pushItems field items result with
        | (false, result) => (none, result)
        | (true, result) => readLines rest field seen result

/-- `metadata`, with the fields it fills in. -/
def metadata (bytes : ByteArray) : Option String × Value :=
  match String.fromUTF8? bytes with
  | none => (none, noFields)
  | some text =>
    match (lines text.toList).map String.ofList with
    | [] => (none, noFields)
    | first :: rest =>
      if first = "---" then readLines rest "" [] noFields else (some (trim text), noFields)

def INVALID : String :=
  "invalid or unterminated scoped instruction metadata; preserve source and reconcile"

def parsed (bytes : ByteArray) (includeBody : Bool) : Value :=
  let (body, fields) := metadata bytes
  .object [("body", .string (if includeBody then body.getD "" else "")),
    ("diagnostic", .string (if body.isSome then "" else INVALID)),
    ("has_guidance", .bool (body.any (· ≠ ""))), ("metadata", fields),
    ("valid", .bool body.isSome)]

/-- Metadata that names governing sources. -/
def governing (document : Value) : Bool :=
  document.field "valid" = .bool true ∧
    (((document.field "metadata").field "governed_by").asArray.any (· ≠ [])) = true

/-! ## Sources -/

def REPOSITORY : String := ".agentic-workspace/instructions"

def LOCAL : String := ".agentic-workspace/local/instructions"

/-- The name of a Markdown source directly in the directory. -/
def directName (directory reference : String) : Option String :=
  (stripPrefix (directory ++ "/") reference).filter fun name =>
    '/' ∉ name.toList ∧ endsWith ".md" name = true ∧ name ≠ ".md"

def sourceScope (reference : String) : Option String :=
  if (directName REPOSITORY reference).isSome then some "repository"
  else if (directName LOCAL reference).isSome then some "machine-local"
  else none

/-- The host. `commit` lists the files of an available commit and `printed` is how git prints a path;
    `procedure` is what a named procedure resolves to. -/
structure Host extends AttemptStore.Host where
  /-- `String::from_utf8_lossy`. -/
  lossy : ByteArray → String
  commit : String → Option (List (String × ByteArray))
  printed : String → String
  procedure : String → Result Value

variable (host : Host)

/-- `decision_source::hash`. -/
def Host.revision (bytes : ByteArray) : String :=
  let text := (String.fromUTF8? bytes).getD (host.lossy bytes)
  host.hash (String.ofList (lineFeeds text.toList)).toUTF8

/-- `operating::source_material` of a body. -/
def Host.sourceMaterial (reference : String) (bytes : ByteArray) (body : String) : Value :=
  .object [("content_revision", .string (host.hash body.toUTF8)),
    ("extent", .string "exact-fragment"), ("reference", .string reference),
    ("revision", .string (host.hash bytes)), ("revision_scheme", .string "sha256-raw-bytes"),
    ("selector", .string "instruction-body")]

def sourceOf (reference revision : String) (scope : Option String) : Value :=
  .object [("reference", .string reference), ("revision", .string revision),
    ("scope", .orNull (scope.map .string))]

variable (files : Files)

/-- `decision_source::read`. -/
def read (path : String) : Result ByteArray := do
  DecisionSource.relative path
  let found ← admitted files[path]?
  okOr found "No such file or directory"

def Host.currentDocument (reference : String) (includeBody : Bool) : Result Value := do
  let scope ← okOr (sourceScope reference)
    "current instruction must name a direct scoped Markdown source"
  let bytes ← read files reference
  let document := (parsed bytes includeBody).insert "source"
    (sourceOf reference (host.revision bytes) (some scope))
  pure (if includeBody then
    document.insert "source_material"
      (host.sourceMaterial reference bytes ((document.field "body").asStr.getD ""))
  else document)

/-- The names in a directory. -/
def entries (directory : String) : List String :=
  sortDedup (files.keys.filterMap fun path =>
    (stripPrefix (directory ++ "/") path).bind fun rest => (split '/' rest).head?)

/-- The Markdown names in both directories. -/
def listed : List String :=
  [REPOSITORY, LOCAL].flatMap fun directory =>
    ((entries files directory).filter fun name => endsWith ".md" name = true).map fun name =>
      directory ++ "/" ++ name

def Host.currentSources : Result (List Value) := do
  check ((entries files REPOSITORY).length + (entries files LOCAL).length ≤ 256)
    "instruction directories exceed bounded discovery (256 entries)"
  check ((listed files).length ≤ 64) "select at most 64 instruction sources"
  ((listed files).insertionSort (· ≤ ·)).mapM fun path => host.currentDocument files path false

end AgenticCore.InstructionSource
