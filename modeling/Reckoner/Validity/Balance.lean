import Reckoner.Failure

/-!
# Balanced parentheses

The text is read from left to right with the number of parentheses that are open. The first closing
parenthesis without a partner is reported; failing that, an opening one that is still open at the end.
-/

set_option autoImplicit false

namespace Reckoner

/-- The kind of parenthesis that lacks its partner when `opened` are open in front of the text. -/
def unmatchedFrom? (opened : Nat) : List Char → Option Parenthesis
  | [] => if opened = 0 then none else some .opening
  | c :: s =>
    if c = '(' then unmatchedFrom? (opened + 1) s
    else if c = ')' then
      match opened with
      | 0 => some .closing
      | opened + 1 => unmatchedFrom? opened s
    else unmatchedFrom? opened s

/-- The kind of parenthesis that lacks its partner in the text. -/
def unmatched? (s : List Char) : Option Parenthesis :=
  unmatchedFrom? 0 s

end Reckoner
