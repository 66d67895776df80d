import OpNet.Error
import OpNet.Pack.Token

/-!
Reading a net from its MessagePack form. A record is a map, with its fields in any order, or a list
of its fields in the order of declaration, which may end early. A list is an array or, when it is
empty, an empty binary. Fields that are missing take their defaults, but an operator must have a
kind. Unknown fields are skipped, and so is what follows the net.
-/
namespace OpNet.Pack

def maxDepth : Nat := 1023

def string : Reader String := fun bytes => do
  let (head, rest) ← token bytes
  match head with
  | .text data | .binary data =>
    match String.fromUTF8? ⟨data.toArray⟩ with
    | some value => .ok (value, rest)
    | none => .error .invalidText
  | _ => .error (.unexpected "a text")

def repeated (reader : Reader α) : (count : Nat) → Reader (List α)
  | 0, bytes => .ok ([], bytes)
  | count + 1, bytes => do
    let (item, rest) ← reader bytes
    let (items, rest) ← repeated reader count rest
    return (item :: items, rest)

def list (reader : Reader α) : Reader (List α) := fun bytes => do
  let (head, rest) ← token bytes
  match head.members? with
  | some length => repeated reader length rest
  | none => .error (.unexpected "a list")

def entry : Reader (String × String) := fun bytes => do
  let (key, rest) ← string bytes
  let (value, rest) ← string rest
  return ((key, value), rest)

def textMap : Reader (List (String × String)) := fun bytes => do
  let (head, rest) ← token bytes
  match head with
  | .map length => (repeated entry length).as Ascending.ofPairs rest
  | _ => .error (.unexpected "a map")

structure Layout (σ : Type) where
  names : List String
  has : σ → Nat → Bool
  read : σ → Nat → Reader σ

namespace Layout

/-- Which field a key stands for: a field may be named, or given by its position. No field, if it
is unknown. -/
def field? (layout : Layout σ) : Token → Except Fault (Option Nat)
  | .text name | .binary name => .ok (layout.names.findIdx? fun known => utf8 known = name)
  | .natural i => .ok (if i < layout.names.length then some i else none)
  | _ => .error (.unexpected "a field")

def readEntry (layout : Layout σ) (depth : Nat) (fields : σ) : Reader σ := fun bytes => do
  let (key, rest) ← token bytes
  match ← layout.field? key with
  | some i =>
    if layout.has fields i then .error (.repeatedField ((layout.names[i]?).getD ""))
    else layout.read fields i rest
  | none => return (fields, ← skipValue depth rest)

def readEntries (layout : Layout σ) (depth : Nat) : (count : Nat) → σ → Reader σ
  | 0, fields, bytes => .ok (fields, bytes)
  | count + 1, fields, bytes => do
    let (fields, rest) ← layout.readEntry depth fields bytes
    layout.readEntries depth count fields rest

def readInOrder (layout : Layout σ) : (count i : Nat) → σ → Reader σ
  | 0, _, fields, bytes => .ok (fields, bytes)
  | count + 1, i, fields, bytes => do
    let (fields, rest) ← layout.read fields i bytes
    layout.readInOrder count (i + 1) fields rest

def readRecord (layout : Layout σ) (depth : Nat) (empty : σ) : Reader σ := fun bytes => do
  let (head, rest) ← token bytes
  match head, head.members? with
  | .map length, _ => layout.readEntries depth length empty rest
  | _, some length =>
    if layout.names.length < length then .error .tooManyFields
    else layout.readInOrder length 0 empty rest
  | _, none => .error (.unexpected "a record")

end Layout

structure OperatorFields where
  kind : Option String := none
  name : Option String := none
  inputs : Option (List String) := none
  outputs : Option (List String) := none
  args : Option (List (String × String)) := none

namespace OperatorFields

def layout : Layout OperatorFields where
  names := ["op_type", "name", "inputs", "outputs", "args"]
  has fields
    | 0 => fields.kind.isSome
    | 1 => fields.name.isSome
    | 2 => fields.inputs.isSome
    | 3 => fields.outputs.isSome
    | _ => fields.args.isSome
  read fields
    | 0 => string.as ({ fields with kind := some · })
    | 1 => string.as ({ fields with name := some · })
    | 2 => (list string).as ({ fields with inputs := some · })
    | 3 => (list string).as ({ fields with outputs := some · })
    | _ => textMap.as ({ fields with args := some · })

def finish (fields : OperatorFields) : Except Fault Operator :=
  match fields.kind with
  | none => .error (.missingField "op_type")
  | some kind => .ok
    { kind
      name := fields.name.getD ""
      inputs := fields.inputs.getD []
      outputs := fields.outputs.getD []
      args := fields.args.getD [] }

end OperatorFields

def readOperator : Reader Operator := fun bytes => do
  let (fields, rest) ← OperatorFields.layout.readRecord (maxDepth - 3) {} bytes
  return (← fields.finish, rest)

structure NetFields where
  name : Option String := none
  ops : Option (List Operator) := none
  externalInputs : Option (List String) := none
  externalOutputs : Option (List String) := none

namespace NetFields

def layout : Layout NetFields where
  names := ["name", "ops", "external_inputs", "external_outputs"]
  has fields
    | 0 => fields.name.isSome
    | 1 => fields.ops.isSome
    | 2 => fields.externalInputs.isSome
    | _ => fields.externalOutputs.isSome
  read fields
    | 0 => string.as ({ fields with name := some · })
    | 1 => (list readOperator).as ({ fields with ops := some · })
    | 2 => (list string).as ({ fields with externalInputs := some · })
    | _ => (list string).as ({ fields with externalOutputs := some · })

def finish (fields : NetFields) : Net where
  name := fields.name.getD ""
  ops := fields.ops.getD []
  externalInputs := fields.externalInputs.getD []
  externalOutputs := fields.externalOutputs.getD []

end NetFields

def readNet : Reader Net := fun bytes => do
  let (fields, rest) ← NetFields.layout.readRecord (maxDepth - 1) {} bytes
  return (fields.finish, rest)

def decode (bytes : Bytes) : Except Error Net :=
  match readNet bytes with
  | .ok (net, _) => .ok net
  | .error fault => .error (Cause.serialization fault.message)

end OpNet.Pack
