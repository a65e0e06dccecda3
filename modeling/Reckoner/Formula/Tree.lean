import Reckoner.Decimal.Reading
import Reckoner.Formula.Token

/-!
# Trees

A formula as a tree: what its value is, which names it needs and how deep it is nested, said without
a text. Parentheses are kept as `group`; they change no value, but they count for the depth.
-/

set_option autoImplicit false

namespace Reckoner

inductive Tree where
  | literal (text : List Char)
  | name (text : List Char)
  | negation (operand : Tree)
  | operation (op : Operation) (left right : Tree)
  | group (inner : Tree)
  deriving DecidableEq, Repr

namespace Tree

/-- The value of the tree when `look` gives the values of names: none if a name has no value or a
    literal is not a numeral. -/
def value? (look : String → Option Float) : Tree → Option Float
  | literal text =>
    match Decimal.read text with
    | .ok value => some value
    | .error _ => none
  | name text => look (String.ofList text)
  | negation operand =>
    match operand.value? look with
    | some x => some (-x)
    | none => none
  | operation op left right =>
    match left.value? look, right.value? look with
    | some x, some y => some (op.apply x y)
    | _, _ => none
  | group inner => inner.value? look

/-- The names in the tree, from left to right. -/
def names : Tree → List String
  | literal _ => []
  | name text => [String.ofList text]
  | negation operand => operand.names
  | operation _ left right => left.names ++ right.names
  | group inner => inner.names

/-- The literals in the tree, from left to right. -/
def literals : Tree → List (List Char)
  | literal text => [text]
  | name _ => []
  | negation operand => operand.literals
  | operation _ left right => left.literals ++ right.literals
  | group inner => inner.literals

/-- How many groups and negations lie inside each other; operands side by side do not add up. -/
def depth : Tree → Nat
  | literal _ | name _ => 0
  | negation operand => operand.depth + 1
  | operation _ left right => max left.depth right.depth
  | group inner => inner.depth + 1

/-- The tokens of the tree, with parentheses for its groups only. -/
def tokens : Tree → List Token
  | literal text => [.literal text]
  | name text => [.name text]
  | negation operand => .operation .sub :: operand.tokens
  | operation op left right => left.tokens ++ .operation op :: right.tokens
  | group inner => .opening :: inner.tokens ++ [.closing]

/-- The value depends on the values of the tree's own names only. -/
theorem value?_congr {look look' : String → Option Float} {t : Tree}
    (h : ∀ x ∈ t.names, look x = look' x) : t.value? look = t.value? look' := by
  induction t with
  | literal text => rfl
  | name text => exact h _ List.mem_cons_self
  | negation operand ih => rw [value?, value?, ih h]
  | operation op left right ihl ihr =>
    rw [value?, value?, ihl fun x hx => h x (List.mem_append_left _ hx),
      ihr fun x hx => h x (List.mem_append_right _ hx)]
  | group inner ih => exact ih h

end Tree

end Reckoner
