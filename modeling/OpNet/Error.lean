/-!
What can go wrong, as causes. `Cause.message` is the one place that holds the wording; a context
says which rule was at work and in which phase.
-/
namespace OpNet

def indexList (nodes : List Nat) : String :=
  "[" ++ ", ".intercalate (nodes.map toString) ++ "]"

inductive GraphFault
  | selfEdge (node : Nat) (blob : String)
  | selfOrdering (node : Nat)
  | cycle (ordered active : Nat)
  | chainLength (rule : String) (expected actual : Nat)
  | chainKind (rule : String) (node : Nat) (actual expected : String)
  | chainEmpty (rule : String)
  | refused
  | other (text : String)
  deriving DecidableEq, Repr

def GraphFault.text : GraphFault → String
  | .selfEdge node blob => s!"self edge on node {node} via {blob}"
  | .selfOrdering node => s!"node {node} ordered after itself"
  | .cycle ordered active => s!"cycle among active nodes ({ordered} of {active} ordered)"
  | .chainLength rule expected actual => s!"{rule}: expected {expected} nodes, got {actual}"
  | .chainKind rule node actual expected => s!"{rule}: node {node} is {actual}, expected {expected}"
  | .chainEmpty rule => s!"{rule}: empty match"
  | .refused => "refused"
  | .other text => text

inductive Cause
  | sizeChanged (expected actual : Nat)
  | rewriteFailed (index : Nat) (nodes : List Nat) (reason : String)
  | nodeNotFound (index : Nat)
  | invalidGraph (fault : GraphFault)
  | unknownStrategy (name : String)
  | unknownRule (key : String)
  | duplicateRule (key : String)
  | limitExceeded (limit : Nat) (rule : Option String)
  | serialization (text : String)
  | io (text : String)
  deriving DecidableEq, Repr

namespace Cause

def message : Cause → String
  | sizeChanged expected actual =>
    s!"subgraph size changed across recursive call: expected {expected}, got {actual}"
  | rewriteFailed index nodes reason =>
    s!"rewrite failed for match {index} {indexList nodes}: {reason}"
  | nodeNotFound index => s!"node not found: {index}"
  | invalidGraph fault => s!"invalid graph: {fault.text}"
  | unknownStrategy name => s!"unknown match strategy: {name}"
  | unknownRule key => s!"unknown transform: {key}"
  | duplicateRule key => s!"transform already registered: {key}"
  | limitExceeded limit none => s!"limit exceeded: max expansions ({limit}) exceeded"
  | limitExceeded limit (some rule) =>
    s!"limit exceeded: max expansions ({limit}) exceeded in transform {rule}"
  | serialization text => s!"serialization error: {text}"
  | io text => s!"io error: {text}"

/-- A fatal cause aborts a pass; the others describe bad input. -/
def isFatal : Cause → Bool
  | sizeChanged .. | rewriteFailed .. | limitExceeded .. => true
  | _ => false

end Cause

structure Context where
  source : Option String := none
  stack : List String := []
  deriving DecidableEq, Repr

namespace Context

def withSource (context : Context) (source : String) : Context :=
  { context with source := some source }

def withFrame (context : Context) (frame : String) : Context :=
  { context with stack := context.stack ++ [frame] }

def text (context : Context) : String :=
  let place := match context.source with
    | some source => s!"at {source}"
    | none => ""
  match context.stack with
  | [] => place
  | frames => place ++ "\n" ++ String.join (frames.map fun frame => s!"  in {frame}\n")

end Context

structure Error where
  cause : Cause
  context : Option Context := none
  deriving DecidableEq, Repr

namespace Error

instance : Coe Cause Error := ⟨fun cause => { cause }⟩

def message (error : Error) : String := error.cause.message

def isFatal (error : Error) : Bool := error.cause.isFatal

def during (error : Error) (rule phase : String) : Error :=
  { error with context := some { source := some rule, stack := [phase] } }

end Error

/-! Steps that may fail, taken apart. -/

theorem bindOk {x : Except ε α} {f : α → Except ε β} {b : β} :
    (x >>= f) = .ok b ↔ ∃ a, x = .ok a ∧ f a = .ok b := by
  cases x <;> simp [bind, Except.bind]

theorem mapOk {x : Except ε α} {f : α → β} {b : β} :
    x.map f = .ok b ↔ ∃ a, x = .ok a ∧ f a = b := by
  cases x <;> simp [Except.map]

/-! A step that may fail and keeps what it has changed by then. -/

section
variable {m : Type → Type} [Monad m] [LawfulMonad m] {σ ε α β : Type} {before after : σ}
  {x : ExceptT ε (StateT σ m) α} {f : α → ExceptT ε (StateT σ m) β}

theorem runOk {a : α} (first : x.run.run before = pure (.ok a, after)) :
    (x >>= f).run.run before = (f a).run.run after := by
  simp only [ExceptT.run_bind, StateT.run_bind, first, pure_bind]

theorem runError {e : ε} (first : x.run.run before = pure (.error e, after)) :
    (x >>= f).run.run before = pure (.error e, after) := by
  simp only [ExceptT.run_bind, StateT.run_bind, first, pure_bind, StateT.run_pure]

end

end OpNet
