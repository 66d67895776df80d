import OpNet.Text.Duration
import OpNet.Trace.Record

/-!
Trace records as lines for people to read.
-/
namespace OpNet.Trace.Human

structure Columns where
  ids : Bool := false
  timestamps : Bool := false
  deriving DecidableEq, Repr, Inhabited

def event : Event → String
  | .passStart rule strategy => s!"=== PASS {rule} ({strategy.name}) START ==="
  | .passEnd rule applied skipped success =>
    let status := if success then "OK" else "FAILED"
    s!"=== PASS {rule} END ({status}, {applied} applied, {skipped} skipped) ==="
  | .matchFound index nodes => s!"  FOUND #{index} {indexList nodes}"
  | .matchApplied index nodes => s!"  APPLIED #{index} {indexList nodes}"
  | .matchSkipped index nodes inactive =>
    s!"  SKIPPED #{index} {indexList nodes} (node {inactive} inactive)"
  | .rewriteFailed index nodes reason => s!"  FAILED #{index} {indexList nodes}: {reason}"
  | .searchStats stats =>
    s!"  SEARCH {stats.expansions} expansions, " ++
      s!"{stats.accepted}/{stats.tried} candidates accepted"
  | .custom name data => s!"  CUSTOM {name}: {data}"

/-- One record: its number in six digits and its time in ten places, if wanted, the pass in three
digits, and the event. -/
def record (columns : Columns) (r : Record) : String :=
  (if columns.ids then "[" ++ Text.padLeft 6 '0' (toString r.id) ++ "] " else "") ++
  "P" ++ Text.padLeft 3 '0' (toString r.pass) ++ " " ++
  (if columns.timestamps then Text.padLeft 10 ' ' (Text.duration r.timestamp) ++ " " else "") ++
  event r.event

def records (columns : Columns) (rs : List Record) : String :=
  "\n".intercalate (rs.map (record columns))

end OpNet.Trace.Human
