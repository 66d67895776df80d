import OpNet.Pass
import OpNet.Rule.Fusion

/-!
Rules by key. A key is given once; listing goes by ascending key.
-/
namespace OpNet

structure Catalog where
  entries : List (String × Rule) := []

namespace Catalog

def find? (c : Catalog) (key : String) : Option Rule := c.entries.lookup key

def contains (c : Catalog) (key : String) : Bool := (c.find? key).isSome

def keys (c : Catalog) : List String := c.entries.map Prod.fst

def size (c : Catalog) : Nat := c.entries.length

def isEmpty (c : Catalog) : Bool := c.entries.isEmpty

def register (c : Catalog) (key : String) (rule : Rule) : Except Error Catalog :=
  if c.contains key then .error (Cause.duplicateRule key)
  else .ok { entries := Ascending.put key rule c.entries }

def create (c : Catalog) (key : String) : Except Error Rule :=
  match c.find? key with
  | some rule => .ok rule
  | none => .error (Cause.unknownRule key)

def fusions : List Fusion :=
  [{ name := "fuse_conv_relu", pattern := ["Conv", "Relu"], fused := "ConvRelu" },
   { name := "fuse_fc_relu", pattern := ["FC", "Relu"], fused := "FCRelu" }]

def builtins : Catalog where
  entries := Ascending.ofPairs (fusions.map fun f => (f.name, f.rule))

def createBuiltin (key : String) : Except Error Rule := builtins.create key

def applyBuiltin (key : String) (net : Net) : Except Error Net := do
  let rule ← createBuiltin key
  ({ rule } : Pass).applyTo net

end Catalog

end OpNet
