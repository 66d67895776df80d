import OpNet.Pack.Encode

/-!
MessagePack tokens: one marker with its payload, or the head of an array or map whose members
follow.
-/
namespace OpNet.Pack

inductive Fault
  | truncated
  | reservedMarker
  | tooDeep
  | invalidText
  | unexpected (wanted : String)
  | tooManyFields
  | repeatedField (name : String)
  | missingField (name : String)
  deriving DecidableEq, Repr

def Fault.message : Fault → String
  | truncated => "the input ends early"
  | reservedMarker => "a reserved marker"
  | tooDeep => "nested too deeply"
  | invalidText => "a text is not valid UTF-8"
  | unexpected wanted => s!"expected {wanted}"
  | tooManyFields => "too many fields"
  | repeatedField name => s!"repeated field {name}"
  | missingField name => s!"missing field {name}"

inductive Token
  | nil
  | boolean (value : Bool)
  | natural (value : Nat)
  | signed (bytes : Bytes)
  | float (bytes : Bytes)
  | text (bytes : Bytes)
  | binary (bytes : Bytes)
  | extension (kind : UInt8) (bytes : Bytes)
  | array (length : Nat)
  | map (length : Nat)
  deriving DecidableEq, Repr

/-- How many members follow the head of a list. An empty binary stands for an empty list. -/
def Token.members? : Token → Option Nat
  | .array length => some length
  | .binary [] => some 0
  | _ => none

abbrev Reader (α : Type) := Bytes → Except Fault (α × Bytes)

def take (n : Nat) : Reader Bytes := fun bytes =>
  let parts := bytes.splitAt n
  if parts.1.length < n then .error .truncated else .ok parts

def ofBigEndian (bytes : Bytes) : Nat :=
  bytes.foldl (fun n b => n * 256 + b.toNat) 0

def number (width : Nat) : Reader Nat := fun bytes => do
  let (digits, rest) ← take width bytes
  return (ofBigEndian digits, rest)

def payload (width : Nat) : Reader Bytes := fun bytes => do
  let (length, rest) ← number width bytes
  take length rest

def extension (length : Nat) : Reader Token := fun bytes => do
  let (kind, rest) ← take 1 bytes
  let (data, rest) ← take length rest
  return (.extension (kind.headD 0) data, rest)

def Reader.as (reader : Reader α) (f : α → β) : Reader β := fun bytes => do
  let (value, rest) ← reader bytes
  return (f value, rest)

def sizedExtension (width : Nat) : Reader Token := fun bytes => do
  let (length, rest) ← number width bytes
  extension length rest

def afterMarker (marker : Nat) : Reader Token :=
  if marker < 0x80 then fun rest => .ok (.natural marker, rest)
  else if marker < 0x90 then fun rest => .ok (.map (marker - 0x80), rest)
  else if marker < 0xa0 then fun rest => .ok (.array (marker - 0x90), rest)
  else if marker < 0xc0 then (take (marker - 0xa0)).as .text
  else if 0xe0 ≤ marker then fun rest => .ok (.signed [UInt8.ofNat marker], rest)
  else
    match marker with
    | 0xc0 => fun rest => .ok (.nil, rest)
    | 0xc2 => fun rest => .ok (.boolean false, rest)
    | 0xc3 => fun rest => .ok (.boolean true, rest)
    | 0xc4 => (payload 1).as .binary
    | 0xc5 => (payload 2).as .binary
    | 0xc6 => (payload 4).as .binary
    | 0xc7 => sizedExtension 1
    | 0xc8 => sizedExtension 2
    | 0xc9 => sizedExtension 4
    | 0xca => (take 4).as .float
    | 0xcb => (take 8).as .float
    | 0xcc => (number 1).as .natural
    | 0xcd => (number 2).as .natural
    | 0xce => (number 4).as .natural
    | 0xcf => (number 8).as .natural
    | 0xd0 => (take 1).as .signed
    | 0xd1 => (take 2).as .signed
    | 0xd2 => (take 4).as .signed
    | 0xd3 => (take 8).as .signed
    | 0xd4 => extension 1
    | 0xd5 => extension 2
    | 0xd6 => extension 4
    | 0xd7 => extension 8
    | 0xd8 => extension 16
    | 0xd9 => (payload 1).as .text
    | 0xda => (payload 2).as .text
    | 0xdb => (payload 4).as .text
    | 0xdc => (number 2).as .array
    | 0xdd => (number 4).as .array
    | 0xde => (number 2).as .map
    | 0xdf => (number 4).as .map
    | _ => fun _ => .error .reservedMarker

def token : Reader Token
  | [] => .error .truncated
  | marker :: rest => afterMarker marker.toNat rest

/-- Skips `count` values that nest at most `depth` deep; an extension counts as one level. Every
value takes a token and every token a byte, so `fuel` may be any number above that of the
bytes. -/
def skip : (fuel : Nat) → (depth count : Nat) → Bytes → Except Fault Bytes
  | _, _, 0, bytes => .ok bytes
  | 0, _, _ + 1, _ => .error .truncated
  | fuel + 1, depth, count + 1, bytes => do
    let (head, rest) ← token bytes
    let within (members : Nat) : Except Fault Bytes :=
      match depth with
      | 0 => .error .tooDeep
      | inner + 1 => skip fuel inner members rest
    let rest ← match head with
      | .array length => within length
      | .map length => within (2 * length)
      | .extension .. => within 0
      | _ => .ok rest
    skip fuel depth count rest

def skipValue (depth : Nat) (bytes : Bytes) : Except Fault Bytes :=
  skip (bytes.length + 1) depth 1 bytes

end OpNet.Pack
