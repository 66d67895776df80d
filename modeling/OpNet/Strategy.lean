import OpNet.Error

/-!
How a search may extend the match it is growing.
-/
namespace OpNet

inductive Strategy
  | connected
  | ordered
  | unrestricted
  deriving DecidableEq, Repr, Inhabited

namespace Strategy

def all : List Strategy := [connected, ordered, unrestricted]

def name : Strategy → String
  | connected => "connected"
  | ordered => "ordered"
  | unrestricted => "unrestricted"

def spellings : Strategy → List String
  | connected => ["connected", "connected-subgraph"]
  | ordered => ["ordered", "ordered-by-position", "sorted", "sorted-wrt-execution-order"]
  | unrestricted => ["unrestricted", "general"]

def title : Strategy → String
  | connected => "Connected"
  | ordered => "OrderedByPosition"
  | unrestricted => "Unrestricted"

/-- Case is ignored in ASCII letters, and an underscore may stand for a hyphen. -/
def plain (text : String) : String :=
  String.ofList (text.toList.map fun c => if c = '_' then '-' else c.toLower)

def parse (text : String) : Except Error Strategy :=
  match all.find? fun strategy => strategy.spellings.contains (plain text) with
  | some strategy => .ok strategy
  | none => .error (Cause.unknownStrategy text)

def position (strategy : Strategy) : Nat := all.idxOf strategy

end Strategy

end OpNet
