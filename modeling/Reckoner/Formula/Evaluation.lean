import Reckoner.Formula.Cursor
import Reckoner.Text.Run

/-!
# Evaluating a formula while reading it

The value of a text without blanks, found in one pass from left to right and without a tree:

```
expression = term (("+" | "-") term)*
term       = factor (("*" | "/") factor)*
factor     = literal | name | "(" expression ")" | "-" factor
```

`expression`, `term` and `factor` each read as much as their rule allows from the front of a text and
return the value of what they read together with the rest. `sums` and `products` continue a chain
whose value so far is known. What lies inside parentheses or behind a unary minus is one level deeper;
a level beyond `maxDepth` is refused before it is entered.

Each function returns a rest that is shorter than what it was given, and so they end.
-/

set_option autoImplicit false

namespace Reckoner

/-- How many groups and unary minus signs may lie inside each other. -/
def maxDepth : Nat := 256

namespace Evaluation

/-- A value, and what is left of a text of `n` characters after reading it. -/
abbrev Reading (n : Nat) := Float × { rest : List Char // rest.length < n }

mutual

/-- Reads an expression. -/
def expression (look : String → Option Float) (depth : Nat) (s : List Char) :
    Except FormulaError (Reading s.length) :=
  match term look depth s with
  | .error e => .error e
  | .ok (value, ⟨rest, h⟩) => sums look depth s.length value rest h
termination_by 4 * s.length + 3

/-- Continues a sum whose value so far is `value`. -/
def sums (look : String → Option Float) (depth n : Nat) (value : Float) (s : List Char)
    (h : s.length < n) : Except FormulaError (Reading n) :=
  match s with
  | [] => .ok (value, ⟨[], h⟩)
  | c :: s =>
    if c = '+' then
      match term look depth s with
      | .error e => .error e
      | .ok (right, ⟨rest, hrest⟩) =>
        sums look depth n (value + right) rest (by rw [List.length_cons] at h; omega)
    else if c = '-' then
      match term look depth s with
      | .error e => .error e
      | .ok (right, ⟨rest, hrest⟩) =>
        sums look depth n (value - right) rest (by rw [List.length_cons] at h; omega)
    else .ok (value, ⟨c :: s, h⟩)
termination_by 4 * s.length

/-- Reads a term. -/
def term (look : String → Option Float) (depth : Nat) (s : List Char) :
    Except FormulaError (Reading s.length) :=
  match factor look depth s with
  | .error e => .error e
  | .ok (value, ⟨rest, h⟩) => products look depth s.length value rest h
termination_by 4 * s.length + 2

/-- Continues a product whose value so far is `value`. -/
def products (look : String → Option Float) (depth n : Nat) (value : Float) (s : List Char)
    (h : s.length < n) : Except FormulaError (Reading n) :=
  match s with
  | [] => .ok (value, ⟨[], h⟩)
  | c :: s =>
    if c = '*' then
      match factor look depth s with
      | .error e => .error e
      | .ok (right, ⟨rest, hrest⟩) =>
        products look depth n (value * right) rest (by rw [List.length_cons] at h; omega)
    else if c = '/' then
      match factor look depth s with
      | .error e => .error e
      | .ok (right, ⟨rest, hrest⟩) =>
        products look depth n (value / right) rest (by rw [List.length_cons] at h; omega)
    else .ok (value, ⟨c :: s, h⟩)
termination_by 4 * s.length

/-- Reads a factor. -/
def factor (look : String → Option Float) (depth : Nat) (s : List Char) :
    Except FormulaError (Reading s.length) :=
  match s with
  | [] => .error .unexpectedEnd
  | c :: s =>
    if hliteral : isLiteralChar c = true then
      match literalValue ((c :: s).takeWhile isLiteralChar) with
      | .error e => .error e
      | .ok value => .ok (value, ⟨(c :: s).dropWhile isLiteralChar, length_dropWhile_lt hliteral⟩)
    else if c = '(' then
      if maxDepth ≤ depth then .error (.tooDeep maxDepth)
      else
        match expression look (depth + 1) s with
        | .error e => .error e
        | .ok (_, ⟨[], _⟩) => .error .unclosedGroup
        | .ok (value, ⟨d :: rest, hrest⟩) =>
          if d = ')' then .ok (value, ⟨rest, by rw [List.length_cons] at hrest ⊢; omega⟩)
          else .error .unclosedGroup
    else if hname : c.isAlpha = true then
      let name := String.ofList ((c :: s).takeWhile Char.isAlpha)
      match look name with
      | none => .error (.undefinedName name)
      | some value => .ok (value, ⟨(c :: s).dropWhile Char.isAlpha, length_dropWhile_lt hname⟩)
    else if c = '-' then
      if maxDepth ≤ depth then .error (.tooDeep maxDepth)
      else
        match factor look (depth + 1) s with
        | .error e => .error e
        | .ok (value, ⟨rest, hrest⟩) =>
          .ok (-value, ⟨rest, by rw [List.length_cons]; omega⟩)
    else .error (.unexpectedCharacter c)
termination_by 4 * s.length + 1

end

end Evaluation

/-- The value of the whole text, its blanks left out. Nothing may follow the expression. -/
def valueOf (look : String → Option Float) (text : String) : Except FormulaError Float :=
  match Evaluation.expression look 0 (strip text.toList) with
  | .error e => .error e
  | .ok (value, ⟨[], _⟩) => .ok value
  | .ok (_, ⟨c :: _, _⟩) => .error (.unexpectedCharacter c)

end Reckoner
