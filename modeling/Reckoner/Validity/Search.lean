/-!
# Leftmost matches

A `Pattern` looks at the front of a text and returns the piece it matches there. A search returns the
piece at the leftmost place where the pattern matches.

* `leftmost` — tries the places one after the other.
* `leftmostByRuns` — where the pattern does not match in front of a run of `q` characters, it goes on
  behind the whole run. This takes time proportional to the text for patterns that look through runs,
  and it finds the same piece for a pattern that cannot match inside a run without matching at the
  start of it.
-/

set_option autoImplicit false

namespace Reckoner

/-- The piece that is matched at the front of a text, if any. -/
abbrev Pattern := List Char → Option (List Char)

/-- The piece at the leftmost place where the pattern matches. -/
def leftmost (p : Pattern) : List Char → Option (List Char)
  | [] => p []
  | c :: s =>
    match p (c :: s) with
    | some piece => some piece
    | none => leftmost p s

/-- The piece at the leftmost of the places that are not inside a run of `q` characters. -/
def leftmostByRuns (p : Pattern) (q : Char → Bool) (s : List Char) : Option (List Char) :=
  match p s with
  | some piece => some piece
  | none =>
    match s with
    | [] => none
    | c :: s => leftmostByRuns p q (if q c then s.dropWhile q else s)
termination_by s.length
decreasing_by
  rw [List.length_cons]
  have h := (List.dropWhile_suffix (l := s) q).length_le
  split <;> omega

end Reckoner
