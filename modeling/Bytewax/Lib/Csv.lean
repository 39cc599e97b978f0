import Mathlib.Data.List.Basic

/-!
# Bytewax.Lib.Csv — how lines become rows of fields

A `RowParser` is given the lines of a text one by one and says when a row is complete.  The parser
of a `Dialect` is the one of Python's `csv` module: a machine that takes the characters of a line
and then the end of the line.
-/

/-- How rows are made of lines: the state at the start of a row, what a line does to the state, and
what is left of a row at the end of the input. -/
structure RowParser (F : Type) where
  State : Type
  start : State
  feed : State → List Char → Except String (State ⊕ List F)
  finish : State → Option (Except String (List F))
  finish_start : finish start = none

namespace Csv

/-- The parameters of a dialect; without a quote character nothing is quoted. -/
structure Dialect where
  delimiter : Char
  quotechar : Option Char
  escapechar : Option Char
  doublequote : Bool
  skipinitialspace : Bool
  strict : Bool
  fieldSizeLimit : Nat

/-- The dialect `excel`. -/
def excel : Dialect where
  delimiter := ','
  quotechar := some '"'
  escapechar := none
  doublequote := true
  skipinitialspace := false
  strict := false
  fieldSizeLimit := 131072

/-- The states of the machine. -/
inductive State
  | startRecord
  | startField
  | escapedChar
  | inField
  | inQuotedField
  | escapeInQuotedField
  | quoteInQuotedField
  | eatCrnl
  | afterEscapedCrnl
  deriving DecidableEq, Repr

/-- The machine: its state, the fields of the row so far, and the field that is read. -/
structure Machine where
  state : State
  fields : List (List Char)
  field : List Char
  deriving DecidableEq, Repr

namespace Machine

/-- The machine at the start of a row. -/
def start : Machine := ⟨.startRecord, [], []⟩

/-- End the field that is read. -/
def saveField (m : Machine) (state : State) : Machine := ⟨state, m.fields ++ [m.field], []⟩

/-- Put a character at the end of the field that is read. -/
def addChar (d : Dialect) (m : Machine) (c : Char) (state : State) : Except String Machine :=
  if m.field.length ≥ d.fieldSizeLimit then
    .error "field larger than field limit"
  else
    .ok { m with field := m.field ++ [c], state }

/-- The character ends the line; `none` is behind the last one. -/
def endsLine (c : Option Char) : Bool := c = none ∨ c = some '\n' ∨ c = some '\r'

/-- The field and its row end with the line. -/
def endRow (m : Machine) (c : Option Char) : Machine :=
  m.saveField (if c = none then .startRecord else .eatCrnl)

/-- A character at the start of a field. -/
def atStartField (d : Dialect) (m : Machine) (c : Option Char) : Except String Machine :=
  if endsLine c then .ok (m.endRow c)
  else if c = d.quotechar then .ok { m with state := .inQuotedField }
  else if c = d.escapechar then .ok { m with state := .escapedChar }
  else if c = some ' ' ∧ d.skipinitialspace then .ok { m with state := .startField }
  else if c = some d.delimiter then .ok (m.saveField .startField)
  else m.addChar d (c.getD '\n') .inField

/-- A character in a field that is not quoted. -/
def atInField (d : Dialect) (m : Machine) (c : Option Char) : Except String Machine :=
  if endsLine c then .ok (m.endRow c)
  else if c = d.escapechar then .ok { m with state := .escapedChar }
  else if c = some d.delimiter then .ok (m.saveField .startField)
  else m.addChar d (c.getD '\n') .inField

/-- One character, or the end of the line. -/
def processChar (d : Dialect) (m : Machine) (c : Option Char) : Except String Machine :=
  match m.state with
  | .startRecord =>
    if c = none then .ok m
    else if endsLine c then .ok { m with state := .eatCrnl }
    else m.atStartField d c
  | .startField => m.atStartField d c
  | .escapedChar =>
    if c = some '\n' ∨ c = some '\r' then m.addChar d (c.getD '\n') .afterEscapedCrnl
    else m.addChar d (c.getD '\n') .inField
  | .afterEscapedCrnl => if c = none then .ok m else m.atInField d c
  | .inField => m.atInField d c
  | .inQuotedField =>
    if c = none then .ok m
    else if c = d.escapechar then .ok { m with state := .escapeInQuotedField }
    else if c = d.quotechar then
      .ok { m with state := if d.doublequote then .quoteInQuotedField else .inField }
    else m.addChar d (c.getD '\n') .inQuotedField
  | .escapeInQuotedField => m.addChar d (c.getD '\n') .inQuotedField
  | .quoteInQuotedField =>
    if c ≠ none ∧ c = d.quotechar then m.addChar d (c.getD '\n') .inQuotedField
    else if c = some d.delimiter then .ok (m.saveField .startField)
    else if endsLine c then .ok (m.endRow c)
    else if d.strict then .error "delimiter expected after quote"
    else m.addChar d (c.getD '\n') .inField
  | .eatCrnl =>
    if c = none then .ok { m with state := .startRecord }
    else if endsLine c then .ok m
    else .error "new-line character seen in unquoted field"

/-- The characters of a line and its end. -/
def feed (d : Dialect) (m : Machine) (line : List Char) :
    Except String (Machine ⊕ List (List Char)) := do
  let m ← (line.map some ++ [none]).foldlM (processChar d) m
  return if m.state = .startRecord then .inr m.fields else .inl m

/-- The end of the input. -/
def finish (d : Dialect) (m : Machine) : Option (Except String (List (List Char))) :=
  if m.field ≠ [] ∨ m.state = .inQuotedField then
    if d.strict then some (.error "unexpected end of data")
    else some (.ok (m.saveField .startRecord).fields)
  else
    none

end Machine

/-- The parser of a dialect. -/
def Dialect.parser (d : Dialect) : RowParser (List Char) where
  State := Machine
  start := .start
  feed := Machine.feed d
  finish := Machine.finish d
  finish_start := rfl

end Csv
