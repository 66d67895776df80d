import OpNet.Apply
import OpNet.Search

/-!
What a trace records: the events of a pass, each with a number, the pass it belongs to and the
time at which it was recorded.
-/
namespace OpNet.Trace

inductive Event
  | passStart (rule : String) (strategy : Strategy)
  | passEnd (rule : String) (applied skipped : Nat) (success : Bool)
  | matchFound (index : Nat) (nodes : List Nat)
  | matchApplied (index : Nat) (nodes : List Nat)
  | matchSkipped (index : Nat) (nodes : List Nat) (inactive : Nat)
  | rewriteFailed (index : Nat) (nodes : List Nat) (reason : String)
  | searchStats (stats : Search.Stats)
  | custom (name data : String)
  deriving DecidableEq, Repr

namespace Event

def kind : Event → String
  | passStart .. => "pass-start"
  | passEnd .. => "pass-end"
  | matchFound .. => "match-found"
  | matchApplied .. => "match-applied"
  | matchSkipped .. => "match-skipped"
  | rewriteFailed .. => "rewrite-failed"
  | searchStats .. => "search-stats"
  | custom .. => "custom"

def isPassBoundary : Event → Bool
  | passStart .. | passEnd .. => true
  | _ => false

def isMatchEvent : Event → Bool
  | matchFound .. | matchApplied .. | matchSkipped .. | rewriteFailed .. => true
  | _ => false

end Event

structure Record where
  id : Nat
  pass : Nat
  timestamp : Nat
  event : Event
  deriving DecidableEq, Repr

end OpNet.Trace
