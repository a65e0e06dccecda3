import Reckoner.NameMap
import Reckoner.Text.Run

/-!
# The names in a text

A name is a maximal run of letters, and so ends at a digit, at a mark and at a blank. `namesIn` finds
the names of any text, formula or not.
-/

set_option autoImplicit false

namespace Reckoner

/-- The names in the text. -/
def namesIn (text : String) : NameSet :=
  NameSet.ofNames ((runs Char.isAlpha text.toList).map String.ofList)

end Reckoner
