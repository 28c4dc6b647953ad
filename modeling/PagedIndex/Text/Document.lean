/-!
# Documents

Values in JSON notation, one item a line, indented by two spaces for every level.

## Main definitions

* `Document` — null, truth values, numbers, texts, lists and records.
* `Document.render` — the notation.
-/

namespace PagedIndex

/-- A value to be written in JSON notation. -/
inductive Document where
  | null
  | truth (b : Bool)
  | number (n : Nat)
  | text (s : String)
  | list (items : List Document)
  | record (fields : List (String × Document))

namespace Document

/-- A character within quotes. -/
def escape (c : Char) : List Char :=
  if c = '"' then ['\\', '"']
  else if c = '\\' then ['\\', '\\']
  else if c = '\n' then ['\\', 'n']
  else if c = '\r' then ['\\', 'r']
  else if c = '\t' then ['\\', 't']
  else if c.toNat = 0x08 then ['\\', 'b']
  else if c.toNat = 0x0C then ['\\', 'f']
  else if c.toNat < 0x20 then
    ['\\', 'u', '0', '0', Nat.digitChar (c.toNat / 16), Nat.digitChar (c.toNat % 16)]
  else [c]

def quote (s : String) : String := "\"" ++ String.ofList (s.toList.flatMap escape) ++ "\""

def newLine (depth : Nat) : String := "\n" ++ String.ofList (List.replicate (2 * depth) ' ')

/-- Items between brackets, one a line. -/
def block (depth : Nat) (left right : String) (items : List String) : String :=
  if items.isEmpty then left ++ right
  else
    left ++ newLine (depth + 1) ++ String.intercalate ("," ++ newLine (depth + 1)) items
      ++ newLine depth ++ right

mutual

def renderAt (depth : Nat) : Document → String
  | null => "null"
  | truth b => if b then "true" else "false"
  | number n => toString n
  | text s => quote s
  | list items => block depth "[" "]" (renderItems (depth + 1) items)
  | record fields => block depth "\x7b" "\x7d" (renderFields (depth + 1) fields)

def renderItems (depth : Nat) : List Document → List String
  | [] => []
  | item :: rest => renderAt depth item :: renderItems depth rest

def renderFields (depth : Nat) : List (String × Document) → List String
  | [] => []
  | (name, value) :: rest =>
    (quote name ++ ": " ++ renderAt depth value) :: renderFields depth rest

end

def render (d : Document) : String := renderAt 0 d

end Document

end PagedIndex
