import OpNet.Trace.Record

/-!
The most recent records, up to a fixed number. Numbers of records keep rising when old ones are
dropped and when the buffer is cleared.
-/
namespace OpNet.Trace

structure Buffer where
  maxSize : Nat := 10000
  records : List Record := []
  nextId : Nat := 0
  deriving DecidableEq, Repr, Inhabited

structure BufferStats where
  recordCount : Nat
  maxSize : Nat
  oldestPass : Option Nat
  newestPass : Option Nat
  passCount : Nat
  eventCounts : List (String × Nat)
  deriving DecidableEq, Repr

namespace Buffer

def size (b : Buffer) : Nat := b.records.length

def isEmpty (b : Buffer) : Bool := b.records.isEmpty

def lastOf (count : Nat) (rs : List α) : List α := rs.drop (rs.length - count)

def push (b : Buffer) (pass timestamp : Nat) (event : Event) : Buffer :=
  { b with
    records := lastOf b.maxSize (b.records ++ [{ id := b.nextId, pass, timestamp, event }])
    nextId := b.nextId + 1 }

def clear (b : Buffer) : Buffer := { b with records := [] }

def last? (b : Buffer) : Option Record := b.records.getLast?

def forPass (b : Buffer) (pass : Nat) : List Record := b.records.filter fun r => r.pass = pass

def recent (b : Buffer) (count : Nat) : List Record := lastOf count b.records

def ofKind (b : Buffer) (kind : String) : List Record :=
  b.records.filter fun r => r.event.kind = kind

/-- The pass numbers, oldest first; neighbours with one number count once. -/
def passesOf : List Record → List Nat
  | [] => []
  | [r] => [r.pass]
  | r :: s :: rest => if r.pass = s.pass then passesOf (s :: rest) else r.pass :: passesOf (s :: rest)

def passes (b : Buffer) : List Nat := passesOf b.records

def countKind (counts : List (String × Nat)) (kind : String) : List (String × Nat) :=
  Ascending.put kind ((counts.lookup kind).getD 0 + 1) counts

def stats (b : Buffer) : BufferStats where
  recordCount := b.size
  maxSize := b.maxSize
  oldestPass := b.records.head?.map Record.pass
  newestPass := b.records.getLast?.map Record.pass
  passCount := b.passes.length
  eventCounts := (b.records.map fun r => r.event.kind).foldl countKind []

end Buffer

end OpNet.Trace
