import Reckoner.Formula.Tree

/-!
# The grammar

```
expression = term (("+" | "-") term)*
term       = factor (("*" | "/") factor)*
factor     = literal | name | "(" expression ")" | "-" factor
```

`Derives level tokens tree` says that the tokens derive from the rule of that level, with this tree.
The repetitions are written as left recursion, so a chain of operators of one level leans to the left.
-/

set_option autoImplicit false

namespace Reckoner

/-- The three rules of the grammar, from loose to tight. -/
inductive Level where
  | expression
  | term
  | factor
  deriving DecidableEq, Repr

/-- The level at which an operation stands between its operands. -/
def Operation.level : Operation → Level
  | .add | .sub => .expression
  | .mul | .div => .term

/-- The next tighter level. -/
def Level.tighter : Level → Level
  | .expression => .term
  | .term | .factor => .factor

/-- The tokens derive from the rule of the level, and this is the tree of the derivation. -/
inductive Derives : Level → List Token → Tree → Prop where
  | literal (text : List Char) : Derives .factor [.literal text] (.literal text)
  | name (text : List Char) : Derives .factor [.name text] (.name text)
  | group {ts : List Token} {t : Tree} (h : Derives .expression ts t) :
      Derives .factor (.opening :: ts ++ [.closing]) (.group t)
  | negation {ts : List Token} {t : Tree} (h : Derives .factor ts t) :
      Derives .factor (.operation .sub :: ts) (.negation t)
  | term {ts : List Token} {t : Tree} (h : Derives .factor ts t) : Derives .term ts t
  | expression {ts : List Token} {t : Tree} (h : Derives .term ts t) : Derives .expression ts t
  | chain {op : Operation} {ls rs : List Token} {l r : Tree}
      (hl : Derives op.level ls l) (hr : Derives op.level.tighter rs r) :
      Derives op.level (ls ++ .operation op :: rs) (.operation op l r)

/-- The tokens of a derivation are those of its tree. -/
theorem Derives.tokens_eq {level : Level} {ts : List Token} {t : Tree} (h : Derives level ts t) :
    t.tokens = ts := by
  induction h with
  | literal text => rfl
  | name text => rfl
  | group _ ih => rw [Tree.tokens, ih]
  | negation _ ih => rw [Tree.tokens, ih]
  | term _ ih => exact ih
  | expression _ ih => exact ih
  | chain _ _ ihl ihr => rw [Tree.tokens, ihl, ihr]

/-- A factor may stand where any level is due. -/
theorem Derives.ofFactor {ts : List Token} {t : Tree} (h : Derives .factor ts t) (due : Level) :
    Derives due ts t := by
  cases due with
  | factor => exact h
  | term => exact h.term
  | expression => exact h.term.expression

/-- Every level may stand where an expression is due. -/
theorem Derives.toExpression {level : Level} {ts : List Token} {t : Tree} (h : Derives level ts t) :
    Derives .expression ts t := by
  cases level with
  | expression => exact h
  | term => exact h.expression
  | factor => exact h.term.expression

end Reckoner
