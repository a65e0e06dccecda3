import Reckoner.Formula.Grammar

/-!
# Parentheses for a tree

A tree may be such that its tokens, written down as they are, would be read as another tree. Two ways
of putting parentheses where they are needed:

* `grouped level t` — only those that precedence and leaning to the left require, so that the result
  can stand where the level is due.
* `fullyGrouped t` — around every operation and every negation.

Both keep the value, `value?_grouped` and `value?_fullyGrouped`, and the tokens of both are derived by
the grammar with the grouped tree, `derives_grouped` and `derives_fullyGrouped`.
-/

set_option autoImplicit false

namespace Reckoner.Tree

/-- The loosest level at which the tree needs no parentheses around it. -/
def level : Tree → Level
  | literal _ | name _ | negation _ | group _ => .factor
  | operation op _ _ => op.level

/-- An expression may not stand where a term or a factor is due, nor a term where a factor is. -/
def fits (due : Level) (t : Tree) : Bool :=
  match due, t.level with
  | .expression, _ => true
  | .term, .expression => false
  | .term, _ => true
  | .factor, .factor => true
  | .factor, _ => false

/-- The tree in parentheses unless it fits. -/
def groupUnlessFits (due : Level) (t : Tree) : Tree :=
  if t.fits due then t else group t

/-- The tree with the parentheses that it needs where `due` is due. -/
def grouped (due : Level) : Tree → Tree
  | literal text => literal text
  | name text => name text
  | negation operand => negation (operand.grouped .factor)
  | operation op left right =>
    groupUnlessFits due
      (operation op (left.grouped op.level) (right.grouped op.level.tighter))
  | group inner => group (inner.grouped .expression)

/-- The tree with parentheses around each of its compound parts. -/
def fullyGrouped : Tree → Tree
  | literal text => literal text
  | name text => name text
  | negation operand => group (negation operand.fullyGrouped)
  | operation op left right => group (operation op left.fullyGrouped right.fullyGrouped)
  | group inner => group inner.fullyGrouped

theorem value?_groupUnlessFits (look : String → Option Float) (due : Level) (t : Tree) :
    (groupUnlessFits due t).value? look = t.value? look := by
  unfold groupUnlessFits
  split <;> rfl

/-- Parentheses change no value. -/
theorem value?_grouped (look : String → Option Float) (due : Level) (t : Tree) :
    (t.grouped due).value? look = t.value? look := by
  induction t generalizing due with
  | literal text => rfl
  | name text => rfl
  | negation operand ih => rw [grouped, value?, value?, ih]
  | operation op left right ihl ihr =>
    rw [grouped, value?_groupUnlessFits, value?, value?, ihl, ihr]
  | group inner ih => rw [grouped, value?, value?, ih]

theorem value?_fullyGrouped (look : String → Option Float) (t : Tree) :
    t.fullyGrouped.value? look = t.value? look := by
  induction t with
  | literal text => rfl
  | name text => rfl
  | negation operand ih => rw [fullyGrouped, value?, value?, value?, ih]
  | operation op left right ihl ihr => rw [fullyGrouped, value?, value?, value?, ihl, ihr]
  | group inner ih => rw [fullyGrouped, value?, value?, ih]

theorem derives_group {level : Level} {t : Tree} (h : Derives level t.tokens t) (due : Level) :
    Derives due (group t).tokens (group t) :=
  (Derives.group h.toExpression).ofFactor due

/-- An operation whose operands derive where they are due derives at every level, in parentheses if
    it does not fit there. -/
theorem derives_groupUnlessFits {op : Operation} {l r : Tree} (hl : Derives op.level l.tokens l)
    (hr : Derives op.level.tighter r.tokens r) (due : Level) :
    Derives due (groupUnlessFits due (operation op l r)).tokens
      (groupUnlessFits due (operation op l r)) := by
  have h : Derives op.level (operation op l r).tokens (operation op l r) := Derives.chain hl hr
  unfold groupUnlessFits
  split
  · rename_i hfits
    cases due with
    | expression => exact h.toExpression
    | term =>
      cases op with
      | add | sub => cases hfits
      | mul | div => exact h
    | factor => cases op <;> cases hfits
  · exact derives_group h due

/-- With the parentheses that are needed, the tokens derive with this very tree. -/
theorem derives_grouped (t : Tree) (due : Level) :
    Derives due (t.grouped due).tokens (t.grouped due) := by
  induction t generalizing due with
  | literal text => exact (Derives.literal text).ofFactor due
  | name text => exact (Derives.name text).ofFactor due
  | negation operand ih => exact (Derives.negation (ih .factor)).ofFactor due
  | operation op left right ihl ihr => exact derives_groupUnlessFits (ihl _) (ihr _) due
  | group inner ih => exact derives_group (ih .expression) due

/-- With parentheses everywhere as well. -/
theorem derives_fullyGrouped (t : Tree) (due : Level) :
    Derives due t.fullyGrouped.tokens t.fullyGrouped := by
  induction t generalizing due with
  | literal text => exact (Derives.literal text).ofFactor due
  | name text => exact (Derives.name text).ofFactor due
  | negation operand ih => exact derives_group (Derives.negation (ih .factor)) due
  | operation op left right ihl ihr => exact derives_group (Derives.chain (ihl _) (ihr _)) due
  | group inner ih => exact derives_group (ih .expression) due

end Reckoner.Tree
