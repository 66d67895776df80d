import OpNet.Graph.Boundary
import OpNet.Rule

/-!
Fusion of operator chains. A chain of given kinds, each operator reading an output of the one
before it, becomes one operator. What flows between its members must be private: no active
operator outside reads it, and it is no external output.
-/
namespace OpNet

structure Fusion where
  name : String
  pattern : List String
  fused : String
  deriving DecidableEq, Repr

namespace Fusion

def accept (f : Fusion) (g : Graph) (chain : List Nat) (i : Nat) : Bool :=
  match f.pattern[chain.length]?, g.node? i with
  | some expected, some node =>
    node.op.kind = expected &&
      chain.getLast?.all fun previous => node.parents.nodes.contains previous
  | _, _ => false

def isPrivate (g : Graph) (chain : List Nat) (i : Nat) : Bool :=
  (g.node? i).any fun node =>
    (node.children.nodes.all fun child => chain.contains child || !g.isActive child) &&
      node.op.outputs.all fun blob => !g.externalOutputs.contains blob

def validate (f : Fusion) (g : Graph) (chain : List Nat) : Bool :=
  chain.length = f.pattern.length && !chain.isEmpty &&
    chain.dropLast.all (isPrivate g chain)

def members (f : Fusion) (g : Graph) : List Nat → List String → Except Error (List Operator)
  | i :: rest, expected :: kinds => do
    let node ← g.node i
    if node.op.kind = expected then
      return node.op :: (← members f g rest kinds)
    else
      .error (Cause.invalidGraph (.chainKind f.name i node.op.kind expected))
  | _, _ => .ok []

/-- One operator for a chain: the names that are not empty, joined, and all arguments, of equal
keys the last. -/
def merged (f : Fusion) (ops : List Operator) (inputs outputs : List String) : Operator :=
  Operator.withArgs
    { kind := f.fused
      name := "+".intercalate ((ops.map Operator.name).filter fun name => name ≠ "")
      inputs, outputs }
    (ops.flatMap Operator.args)

def replacement (f : Fusion) (g : Graph) (chain : List Nat) : Except Error Operator := do
  if chain.length ≠ f.pattern.length then
    .error (Cause.invalidGraph (.chainLength f.name f.pattern.length chain.length))
  else
    let ops ← f.members g chain f.pattern
    match ops.getLast? with
    | none => .error (Cause.invalidGraph (.chainEmpty f.name))
    | some last => return f.merged ops (← g.subgraphInputs chain) last.outputs

def fuse (f : Fusion) (chain : List Nat) (g : Graph) : Except Error Graph := do
  let op ← f.replacement g chain
  return (← g.replaceSubgraph chain op).1

def rule (f : Fusion) : Rule where
  name := f.name
  strategy := .ordered
  accept := f.accept
  validate := f.validate
  rewrite chain g := .ofChange g (f.fuse chain g)

end Fusion

end OpNet
