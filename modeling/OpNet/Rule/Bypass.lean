import OpNet.Rule

/-!
Bypassing identity operators: the readers of what an identity writes read its input instead.
-/
namespace OpNet.Bypass

def accept (g : Graph) (grown : List Nat) (i : Nat) : Bool :=
  grown.isEmpty && (g.node? i).any fun node =>
    node.op.kind = "Identity" && node.op.inputs.length = 1 && node.op.outputs.length = 1

/-- What the identity writes must not be wanted outside the net under its own name. -/
def validate (g : Graph) (grown : List Nat) : Bool :=
  match grown with
  | [i] => (g.node? i).any fun node =>
      node.op.outputs.head?.all fun blob => !g.externalOutputs.contains blob
  | _ => false

def redirected (source target : String) (op : Operator) : Operator :=
  { op with inputs := op.inputs.map fun blob => if blob = target then source else blob }

def reconnect (i : Nat) (node : Node) (source target : String) (r : Rewritten) (child : Nat) :
    Rewritten :=
  if r.failure.isNone && r.graph.isActive child then
    node.parents.nodes.foldl (fun r parent => r.andThen (·.addEdge parent child source))
      ((r.andThen (·.update child fun reader =>
          { reader with op := redirected source target reader.op })).andThen
        fun g => (g.removeEdge i child).map Prod.fst)
  else r

def rewrite (matched : List Nat) (g : Graph) : Rewritten :=
  match matched with
  | [] => { graph := g }
  | i :: _ =>
    match g.node i with
    | .error e => { graph := g, failure := some e }
    | .ok node =>
      let source := node.op.inputs.headD ""
      let target := node.op.outputs.headD ""
      (node.children.nodes.foldl (reconnect i node source target) { graph := g }).andThen
        (·.deactivate i)

def rule : Rule where
  name := "drop_identity"
  strategy := .ordered
  accept := accept
  validate := validate
  rewrite := rewrite

end OpNet.Bypass
