import OpNet.Ascending

/-!
Networks of operators. An operator reads the blobs named in its inputs and writes the blobs named
in its outputs; a net lists its operators in execution order.
-/
namespace OpNet

structure Operator where
  kind : String
  name : String := ""
  inputs : List String := []
  outputs : List String := []
  args : List (String × String) := []
  deriving DecidableEq, Repr, Inhabited

namespace Operator

def reads (op : Operator) (blob : String) : Bool :=
  op.inputs.contains blob

def writes (op : Operator) (blob : String) : Bool :=
  op.outputs.contains blob

def withArg (op : Operator) (key value : String) : Operator :=
  { op with args := Ascending.put key value op.args }

/-- Sets each argument in turn, so that the last of equal keys wins. -/
def withArgs (op : Operator) (entries : List (String × String)) : Operator :=
  entries.foldl (fun op entry => op.withArg entry.1 entry.2) op

theorem readsIff {op : Operator} {blob : String} : op.reads blob = true ↔ blob ∈ op.inputs := by
  simp [reads]

theorem writesIff {op : Operator} {blob : String} :
    op.writes blob = true ↔ blob ∈ op.outputs := by
  simp [writes]

end Operator

structure Net where
  name : String := ""
  ops : List Operator := []
  externalInputs : List String := []
  externalOutputs : List String := []
  deriving DecidableEq, Repr, Inhabited

def Net.kinds (net : Net) : List String :=
  net.ops.map Operator.kind

end OpNet
