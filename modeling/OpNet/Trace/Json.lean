import OpNet.Trace.Record

/-!
Trace records as JSON objects. A text value escapes quotes, backslashes, line feeds, carriage
returns and tabs, and holds all other characters as they are.
-/
namespace OpNet.Trace.Json

def escapedChar : Char → List Char
  | '\\' => ['\\', '\\']
  | '"' => ['\\', '"']
  | '\n' => ['\\', 'n']
  | '\r' => ['\\', 'r']
  | '\t' => ['\\', 't']
  | c => [c]

def escaped (text : List Char) : List Char := text.flatMap escapedChar

def text (value : String) : List Char := '"' :: escaped value.toList ++ ['"']

def number (n : Nat) : List Char := (toString n).toList

def boolean (b : Bool) : List Char := (if b then "true" else "false").toList

def joined (separator : List Char) (items : List (List Char)) : List Char :=
  separator.intercalate items

def numbers (ns : List Nat) : List Char := '[' :: joined [','] (ns.map number) ++ [']']

def object (members : List (String × List Char)) : List Char :=
  '\x7b' :: joined [','] (members.map fun m => text m.1 ++ ':' :: m.2) ++ ['\x7d']

def eventMembers : Event → List (String × List Char)
  | .passStart rule strategy => [("transform", text rule), ("strategy", text strategy.name)]
  | .passEnd rule applied skipped success =>
    [("transform", text rule), ("applied", number applied), ("skipped", number skipped),
     ("success", boolean success)]
  | .matchFound index nodes => [("index", number index), ("nodes", numbers nodes)]
  | .matchApplied index nodes => [("index", number index), ("nodes", numbers nodes)]
  | .matchSkipped index nodes inactive =>
    [("index", number index), ("nodes", numbers nodes), ("inactive", number inactive)]
  | .rewriteFailed index nodes reason =>
    [("index", number index), ("nodes", numbers nodes), ("reason", text reason)]
  | .searchStats stats =>
    [("expansions", number stats.expansions), ("candidates_tried", number stats.tried),
     ("candidates_accepted", number stats.accepted)]
  | .custom name data => [("name", text name), ("data", text data)]

def members (r : Record) : List (String × List Char) :=
  [("id", number r.id), ("pass", number r.pass), ("timestamp_ns", number r.timestamp),
   ("type", text r.event.kind)] ++ eventMembers r.event

def recordChars (r : Record) : List Char := object (members r)

def compactChars (rs : List Record) : List Char :=
  '[' :: joined [','] (rs.map recordChars) ++ [']']

def prettyChars (rs : List Record) : List Char :=
  "[\n  ".toList ++ joined ",\n  ".toList (rs.map recordChars) ++ "\n]".toList

def record (r : Record) : String := String.ofList (recordChars r)

def compact (rs : List Record) : String := String.ofList (compactChars rs)

def pretty (rs : List Record) : String := String.ofList (prettyChars rs)

end OpNet.Trace.Json
