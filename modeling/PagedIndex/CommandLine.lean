import PagedIndex.Index.Reading
import PagedIndex.Index.Updates
import PagedIndex.Tree.Survey

/-!
# The command line

One run of the program, as a function of its arguments and of the disk.

## Main definitions

* `CommandLine.run` — the report of a run, and the workspace behind it.
-/

namespace PagedIndex

/-- Why a run ends early. -/
inductive Complaint where
  /-- The arguments make no sense; the unknown command if that is why. -/
  | usage (unknown : Option String)
  | failed (text : String)
  /-- The run is abandoned in the middle. -/
  | abandoned

/-- What a run writes and what it works on. -/
structure Console where
  workspace : Workspace := {}
  output : String := ""

abbrev CommandM := EStateM Complaint Console

/-- What a run leaves to the shell. -/
@[ext]
structure Report where
  exitCode : Nat
  output : String
  errors : String
  deriving DecidableEq

namespace Complaint

def usageText : String :=
  String.join <| List.map (· ++ "\n") [
    "Usage: xio_cli <index_path> <command> [args...]",
    "Commands:",
    "  create <key_len> [dups]  - Create an empty index",
    "  insert <key> <record>    - Index a record position under a key",
    "  find <key>               - Look up the first entry for a key",
    "  find-last <prefix>       - Look up the last entry with a prefix",
    "  delete <key> [record]    - Delete a key, or one key/position pair",
    "  scan [start] [end]       - List entries in key order",
    "  stats                    - Show block and entry counts",
    "  dump                     - Print the tree as JSON",
    "  verify                   - Check the tree structure"]

/-- What is written about a complaint. Where a run was abandoned is not told. -/
def text : Complaint → String
  | usage none => usageText
  | usage (some command) => "Unknown command: " ++ command ++ "\n" ++ usageText
  | failed text => "ERROR: " ++ text ++ "\n"
  | abandoned => ""

def exitCode : Complaint → Nat
  | abandoned => 101
  | _ => 1

def ofError (context : String) (e : Error) : Complaint :=
  if e = .outOfRange then abandoned else failed (context ++ e.message)

end Complaint

namespace CommandLine

def say (line : String) : CommandM Unit :=
  modify fun c => { c with output := c.output ++ line ++ "\n" }

/-- Runs a computation on the workspace; the text of an error follows `context`. -/
def onWorkspace {α : Type} (context : String) (x : WorkspaceM α) : CommandM α :=
  fun ⟨workspace, output⟩ =>
    match x workspace with
    | .ok a workspace => .ok a ⟨workspace, output⟩
    | .error e workspace => .error (.ofError context e) ⟨workspace, output⟩

/-- Runs a call on an open file, which is dropped with a call that is abandoned. -/
def on {α : Type} (ix : Index) (x : IndexM α) : CommandM (α × Index) :=
  onWorkspace "" fun w =>
    match x (ix, w) with
    | .ok a (ix, w) => .ok (a, ix) w
    | .error e (ix, w) =>
      if e = .outOfRange then
        match Index.drop (ix, w) with
        | .ok () (_, w) | .error _ (_, w) => .error e w
      else .error e w

/-- Reads a number of 64 bits, a plus sign in front allowed. -/
def number? (text : String) : Option Nat :=
  let digits :=
    match Bytes.ofText text with
    | 0x2B :: digits => digits
    | digits => digits
  if digits.isEmpty || !digits.all Decimal.isDigit then none
  else if Decimal.value digits < Decimal.bound then some (Decimal.value digits)
  else none

def number (text what : String) : CommandM Nat :=
  match number? text with
  | some n => pure n
  | none => throw (.failed ("invalid " ++ what ++ ": " ++ text))

/-- The argument at a place, which has to be there. -/
def required (args : List String) (i : Nat) : CommandM String :=
  match args[i]? with
  | some arg => pure arg
  | none => throw (.usage none)

def cell : Nat := 0

def record : CommandM Nat := do return (← get).workspace.cell cell

def setRecord (record : Nat) : CommandM Unit :=
  modify fun c => { c with workspace := c.workspace.setCell cell record }

def openIndex (name : String) (mode : OpenMode) : CommandM Index :=
  onWorkspace "failed to open index: " (Index.openFile name { mode := mode } cell)

/-- Closes a file that was changed. -/
def close (ix : Index) : CommandM Unit := do
  let ((), _) ← on ix Index.close

/-- Gives up a file that was only read. -/
def drop (ix : Index) : CommandM Unit := do
  let ((), _) ← on ix Index.drop

def sayEntry (ix : Index) : CommandM Unit := do
  let key := (ix.cursor.current.map Entry.key).getD []
  say (Key.text key ++ " -> " ++ toString (← record))

def stateName : KeyState → String
  | .onKey => "FOUND"
  | .beforeFirst => "BEFORE_FIRST"
  | .between => "BETWEEN"
  | .afterLast => "AFTER_LAST"

/-! ## Commands -/

def create (name : String) (args : List String) : CommandM Unit := do
  let length ← number (← required args 0) "key length"
  let policy : DuplicatePolicy := if args[1]? = some "dups" then .allow else .fromFile
  let options : OpenOptions := { mode := .create, keyLength := length, duplicates := policy }
  let ix ← onWorkspace "" (Index.openFile name options cell)
  say ("TEXT: " ++ ix.textName)
  close ix
  say "CREATED"

def insert (name : String) (args : List String) : CommandM Unit := do
  let key ← required args 0
  let position ← required args 1
  let ix ← openIndex name .exclusive
  setRecord (← number position "record")
  let (outcome, ix) ← on ix (Index.insert (Bytes.ofText key))
  say <|
    match outcome with
    | .inserted => "OK"
    | .duplicateKey => "DUPLICATE_KEY"
    | .duplicateExact => "DUPLICATE_EXACT"
  close ix

def lookUp (move : Bytes → IndexM KeyState) (name : String) (args : List String) :
    CommandM Unit := do
  let key ← required args 0
  let ix ← openIndex name .readOnly
  let (state, ix) ← on ix (move (Bytes.ofText key))
  match state with
  | .onKey => sayEntry ix
  | other => say (stateName other)
  drop ix

def delete (name : String) (args : List String) : CommandM Unit := do
  let key ← required args 0
  let ix ← openIndex name .exclusive
  match args[1]? with
  | some position => setRecord (← number position "record")
  | none => pure ()
  let (outcome, ix) ← on ix (Index.delete (Bytes.ofText key) (args[1]?.isSome))
  match outcome with
  | .deleted => say ("DELETED " ++ toString (← record))
  | .notFound => say "NOT_FOUND"
  close ix

/-- Whether a key lies behind the end of a scan, of which only as much is compared as the end
has. -/
def isPast (key last : Bytes) : Bool :=
  Collation.compare .binary (key.take last.length) last == .gt

/-- Counts one entry more in 32 bits. Behind the largest number comes the least one, unless sums are
checked: then the run is abandoned. -/
def countOne (checked : Bool) (ix : Index) (count : Int32) : CommandM Int32 := do
  if checked && count = Int32.maxValue then
    drop ix
    throw .abandoned
  else return count + 1

/-- Lists the entries from the cursor on, `limit` of them at most, and counts them. -/
def listFrom (checked : Bool) (last : Option Bytes) :
    Nat → Int32 → KeyState → Index → CommandM (Int32 × Index)
  | 0, count, _, ix => return (count, ix)
  | limit + 1, count, state, ix => do
    let key := (ix.cursor.current.map Entry.key).getD []
    if state ≠ .onKey || last.any (isPast key) then return (count, ix)
    else
      sayEntry ix
      let count ← countOne checked ix count
      let (state, ix) ← on ix Index.next
      listFrom checked last limit count state ix

def scanStart (first : Option String) : IndexM KeyState := do
  match first with
  | none => Index.next
  | some first =>
    match ← Index.find (Bytes.ofText first) with
    | .onKey => return .onKey
    | _ => Index.next

/-- Lists entries in key order, `limit` of them at most. -/
def scan (checked : Bool) (limit : Nat) (name : String) (args : List String) : CommandM Unit := do
  let ix ← openIndex name .readOnly
  let last := args[1]?.map fun arg => Bytes.ofText (Space.trimEnd arg)
  let (state, ix) ← on ix (scanStart args[0]?)
  let (count, ix) ← listFrom checked last limit 0 state ix
  say ("COUNT: " ++ toString count)
  drop ix

def stats (name : String) : CommandM Unit := do
  let ix ← openIndex name .readOnly
  let (s, ix) ← on ix Index.stats
  say ("height: " ++ toString s.height)
  say ("entries: " ++ toString s.entries)
  say ("leaf_blocks: " ++ toString s.leafBlocks)
  say ("branch_blocks: " ++ toString s.branchBlocks)
  say ("free_blocks: " ++ toString s.freeBlocks)
  say ("free_slots: " ++ toString s.freeSlots)
  say ("total_blocks: " ++ toString s.totalBlocks)
  say ("block_size: " ++ toString s.blockSize)
  say ("key_len: " ++ toString s.keyLength)
  drop ix

def dump (name : String) : CommandM Unit := do
  let ix ← openIndex name .readOnly
  let (shape, ix) ← on ix Index.outline
  say ((shape.map Outline.toDocument).getD .null).render
  drop ix

def verify (name : String) : CommandM Unit := do
  let ix ← openIndex name .readOnly
  let (s, ix) ← on ix Index.verify
  say ("OK: " ++ toString s.entries ++ " entries in " ++ toString s.height ++ " levels")
  drop ix

def dispatch (checked : Bool) (limit : Nat) : List String → CommandM Unit
  | name :: command :: args =>
    match command with
    | "create" => create name args
    | "insert" => insert name args
    | "find" => lookUp Index.find name args
    | "find-last" => lookUp Index.findLast name args
    | "delete" => delete name args
    | "scan" => scan checked limit name args
    | "stats" => stats name
    | "dump" => dump name
    | "verify" => verify name
    | other => throw (.usage (some other))
  | _ => throw (.usage none)

/-- Bound of the entries that a scan lists; no file holds as many. -/
def scanLimit : Nat := 0x10000000000000000

/-- One run with the given arguments over a disk, with sums that are checked or not. -/
def run (limit : Nat) (args : List String) (disk : Disk) (checked : Bool := false) : Report × Disk :=
  let workspace := (({ disk := disk } : Workspace).addCell).2
  match dispatch checked limit args { workspace := workspace } with
  | .ok () c => (⟨0, c.output, ""⟩, c.workspace.disk)
  | .error complaint c => (⟨complaint.exitCode, c.output, complaint.text⟩, c.workspace.disk)

end CommandLine

end PagedIndex
