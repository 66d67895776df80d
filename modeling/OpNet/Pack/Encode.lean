import OpNet.Net

/-!
The MessagePack form of a net. Every record is a map from field names, in the order in which the
fields are declared; a length is written in the shortest form that holds it.
-/
namespace OpNet.Pack

abbrev Bytes := List UInt8

def bigEndian : (width : Nat) → Nat → Bytes
  | 0, _ => []
  | width + 1, n => bigEndian width (n / 256) ++ [UInt8.ofNat n]

def textHead (n : Nat) : Bytes :=
  if n < 32 then [UInt8.ofNat (0xa0 + n)]
  else if n < 0x100 then 0xd9 :: bigEndian 1 n
  else if n < 0x10000 then 0xda :: bigEndian 2 n
  else 0xdb :: bigEndian 4 n

def arrayHead (n : Nat) : Bytes :=
  if n < 16 then [UInt8.ofNat (0x90 + n)]
  else if n < 0x10000 then 0xdc :: bigEndian 2 n
  else 0xdd :: bigEndian 4 n

def mapHead (n : Nat) : Bytes :=
  if n < 16 then [UInt8.ofNat (0x80 + n)]
  else if n < 0x10000 then 0xde :: bigEndian 2 n
  else 0xdf :: bigEndian 4 n

def utf8 (text : String) : Bytes := text.toUTF8.data.toList

def text (value : String) : Bytes :=
  let bytes := utf8 value
  textHead bytes.length ++ bytes

def array (items : List Bytes) : Bytes := arrayHead items.length ++ items.flatten

def texts (values : List String) : Bytes := array (values.map text)

def map (entries : List (Bytes × Bytes)) : Bytes :=
  mapHead entries.length ++ entries.flatMap fun entry => entry.1 ++ entry.2

def args (entries : List (String × String)) : Bytes :=
  map (entries.map fun entry => (text entry.1, text entry.2))

def operator (op : Operator) : Bytes :=
  map [(text "op_type", text op.kind), (text "name", text op.name),
    (text "inputs", texts op.inputs), (text "outputs", texts op.outputs),
    (text "args", args op.args)]

def encode (net : Net) : Bytes :=
  map [(text "name", text net.name), (text "ops", array (net.ops.map operator)),
    (text "external_inputs", texts net.externalInputs),
    (text "external_outputs", texts net.externalOutputs)]

end OpNet.Pack
