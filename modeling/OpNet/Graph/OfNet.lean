import OpNet.Graph.Edit

/-!
The graph of a net, in one scan of its operators. A read is joined to the latest writer of its
blob by an edge. A write is ordered after the latest writer and after all readers since then, so
that no value is lost before it has been read.
-/
namespace OpNet.Graph

structure Scan where
  graph : Graph
  writers : List (String × Nat) := []
  readers : List (String × Nat) := []

namespace Scan

def writer? (s : Scan) (blob : String) : Option Nat := s.writers.lookup blob

def readersOf (s : Scan) (blob : String) : List Nat :=
  (s.readers.filter fun entry => entry.1 = blob).map Prod.snd

def read (i : Nat) (s : Scan) (blob : String) : Scan :=
  { s with
    graph := match s.writer? blob with
      | some writer => s.graph.link writer i blob
      | none => s.graph
    readers := (blob, i) :: s.readers }

def write (i : Nat) (s : Scan) (blob : String) : Scan :=
  let earlier := (s.writer? blob).toList ++ s.readersOf blob
  { graph := (earlier.filter (· ≠ i)).foldl (fun g first => g.precede first i) s.graph
    writers := (blob, i) :: s.writers
    readers := s.readers.filter fun entry => entry.1 ≠ blob }

def visit (s : Scan) (op : Operator) (i : Nat) : Scan :=
  op.outputs.foldl (write i) (op.inputs.foldl (read i) s)

end Scan

def isolated (net : Net) : Graph :=
  { name := net.name
    nodes := (net.ops.map fun op => { op }).toArray
    externalInputs := net.externalInputs
    externalOutputs := net.externalOutputs }

def ofNet (net : Net) : Graph :=
  (net.ops.zipIdx.foldl (fun s entry => s.visit entry.1 entry.2)
    ({ graph := isolated net } : Scan)).graph

end OpNet.Graph
