import Reckoner.Supply.Source

/-!
# Obtaining missing values

The names of a set that a table does not have yet are asked for, in ascending order, and the answers
go into the table. The first failure ends it; what was answered before stays.
-/

set_option autoImplicit false

namespace Reckoner

/-- A request, and what the source said to it. -/
structure Exchange where
  name : String
  answer : Answer

/-- How a resolution ended, the table and the source afterwards, and the requests that were made. -/
structure Resolution (σ : Type) where
  outcome : Except FormulaError Unit
  table : Table
  source : σ
  exchanges : List Exchange

/-- Asks for those of the names, one after the other, that the table lacks. -/
def resolveEach {σ : Type} [ValueSource σ] : List String → Table → σ → Resolution σ
  | [], table, source => ⟨.ok (), table, source, []⟩
  | name :: names, table, source =>
    if table.contains name then resolveEach names table source
    else
      match ValueSource.request source name with
      | (.error e, source) =>
        ⟨.error (.unavailable name e), table, source, [⟨name, .error e⟩]⟩
      | (.ok value, source) =>
        let later := resolveEach names (table.insert name value) source
        { later with exchanges := ⟨name, .ok value⟩ :: later.exchanges }

/-- Asks for the names of the set that the table lacks. -/
def resolve {σ : Type} [ValueSource σ] (names : NameSet) (table : Table) (source : σ) :
    Resolution σ :=
  resolveEach names.names table source

end Reckoner
