import Reckoner.Failure
import Reckoner.NameMap

/-!
# Sources of values

A source is asked for the value of a name and answers with the value or with the reason why there is
none. It may change with each request, so the answer comes with the source as it is afterwards.

* A `Table` is a source that knows its names and never changes.
* A `Script` is a source that gives prepared answers in order, whatever it is asked for.
-/

set_option autoImplicit false

namespace Reckoner

/-- What a source says to a request. -/
abbrev Answer := Except SourceError Float

/-- A source whose states are the values of `σ`: it answers the request for a name, and is another one afterwards. -/
class ValueSource (σ : Type) where
  request : σ → String → Answer × σ

/-- The answer of a fixed set of values. -/
def Table.answer (t : Table) (name : String) : Answer :=
  match t.get? name with
  | some value => .ok value
  | none => .error (.missing name)

instance : ValueSource Table where
  request t name := (t.answer name, t)

/-- Answers that are given one after the other. -/
structure Script where
  answers : List Answer

/-- The next answer; after the last one every name is missing. -/
def Script.request (s : Script) (name : String) : Answer × Script :=
  match s.answers with
  | [] => (.error (.missing name), s)
  | answer :: answers => (answer, ⟨answers⟩)

instance : ValueSource Script where
  request := Script.request

end Reckoner
