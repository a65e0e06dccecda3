import Reckoner.Formula.Evaluation
import Reckoner.Formula.Names
import Reckoner.Supply.Resolution
import Reckoner.Validity.Verdict

/-!
# The calculator

A calculator evaluates texts over a source of values. It keeps each value it was given, by its user or
by the source, so that no name is asked for twice.

An evaluation has three stages, and a failure of one ends it: the text is judged; the values it lacks
are obtained; its value is computed. Values that were obtained are kept even if it fails afterwards.
-/

set_option autoImplicit false

namespace Reckoner

/-- The values known so far, and the source of further ones. -/
structure Calculator (σ : Type) where
  table : Table
  source : σ

/-- What an evaluation gave, the calculator afterwards, and the requests that were made. -/
structure Evaluated (σ : Type) where
  result : Except Rejection Float
  calculator : Calculator σ
  exchanges : List Exchange

namespace Calculator

variable {σ : Type}

/-- A calculator that knows no values yet. -/
def ofSource (source : σ) : Calculator σ := ⟨NameMap.empty, source⟩

/-- Gives a name a value, so that the source is not asked for it. -/
def define (c : Calculator σ) (name : String) (value : Float) : Calculator σ :=
  { c with table := c.table.insert name value }

/-- Evaluates the text. -/
def evaluate [ValueSource σ] (c : Calculator σ) (text : String) : Evaluated σ :=
  match validate text with
  | .error e => ⟨.error ⟨text, e⟩, c, []⟩
  | .ok () =>
    let resolved := resolve (namesIn text) c.table c.source
    let after : Calculator σ := ⟨resolved.table, resolved.source⟩
    match resolved.outcome with
    | .error e => ⟨.error ⟨text, e⟩, after, resolved.exchanges⟩
    | .ok () =>
      match valueOf resolved.table.get? text with
      | .error e => ⟨.error ⟨text, e⟩, after, resolved.exchanges⟩
      | .ok value => ⟨.ok value, after, resolved.exchanges⟩

end Calculator

/-- Evaluates the text once, with these values and no others. -/
def evaluateWith (values : Table) (text : String) : Except Rejection Float :=
  ((Calculator.ofSource values).evaluate text).result

end Reckoner
