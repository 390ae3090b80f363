/-! # Paths

A path is written as steps with slashes between them. An empty step and `.` stay where they are, `..` goes
back, and every other step is a name. A name without slashes is a path of one step
(`steps_ofText_of_plain`). -/

namespace ReplicatedLedger

/-- A path: where it starts, and its steps. -/
structure Path where
  /-- Whether it starts at the root; otherwise it starts where it is read. -/
  isAbsolute : Bool
  steps : List String
  deriving DecidableEq

namespace Path

/-- The path that a text writes. -/
def ofText (text : String) : Path :=
  ⟨text.toList.head? = some '/', (text.toList.splitOn '/').map String.ofList⟩

/-- The text of a path. -/
def toText (p : Path) : String := "/".intercalate p.steps

/-- Whether a step stays where it is. -/
def stays (step : String) : Bool := step = "" || step = "."

/-- The path without the steps that stay at its two ends. -/
def trim (p : Path) : Path :=
  { p with steps := ((p.steps.dropWhile stays).reverse.dropWhile stays).reverse }

/-- Whether slashes stand at the end. -/
def isSlashed (p : Path) : Bool := p.steps.getLast? = some ""

/-- The last step before the slashes at the end, and the steps before it. -/
def last? (p : Path) : Option (String × List String) :=
  match p.steps.reverse.dropWhile (· = "") with
  | [] => none
  | step :: before => some (step, before.reverse)

theorem steps_ofText_of_plain {text : String} (h : '/' ∉ text.toList) : (ofText text).steps = [text] := by
  have : text.toList.splitOn '/' = [text.toList] :=
    List.splitOnP_eq_singleton fun c hc => by simpa using fun e : c = '/' => h (e ▸ hc)
  simp [ofText, this]

end Path

end ReplicatedLedger
