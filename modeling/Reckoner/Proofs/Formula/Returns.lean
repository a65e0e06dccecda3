import Reckoner.Proofs.Formula.Descent

/-!
# The descent as a relation

`Returns look rule depth s result` has one constructor for each way in which a rule can come to its result.
`returns_read`: every reading comes about in one of these ways, so what is true of all readings is proved
by induction on them. `Returns.read_eq`: there is no other result.
-/

set_option autoImplicit false

namespace Reckoner.Evaluation

/-- In front of `s` the function of the rule returns this result. -/
inductive Returns (look : String → Option Float) :
    Rule → Nat → List Char → Except FormulaError (Float × List Char) → Prop where
  | stop {level : Level} {depth : Nat} {s : List Char} {x : Float} (hs : Stops level s) :
      Returns look (.more level x) depth s (.ok (x, s))
  | operandFails {op : Operation} {depth : Nat} {s : List Char} {x : Float} {e : FormulaError}
      (hy : Returns look (.due op.level.tighter) depth s (.error e)) :
      Returns look (.more op.level x) depth (op.mark :: s) (.error e)
  | again {op : Operation} {depth : Nat} {s rest : List Char} {x y : Float}
      {result : Except FormulaError (Float × List Char)}
      (hy : Returns look (.due op.level.tighter) depth s (.ok (y, rest)))
      (h : Returns look (.more op.level (op.apply x y)) depth rest result) :
      Returns look (.more op.level x) depth (op.mark :: s) result
  | firstFails {level : Level} {depth : Nat} {s : List Char} {e : FormulaError} (hl : level ≠ .factor)
      (hx : Returns look (.due level.tighter) depth s (.error e)) :
      Returns look (.due level) depth s (.error e)
  | first {level : Level} {depth : Nat} {s rest : List Char} {x : Float}
      {result : Except FormulaError (Float × List Char)} (hl : level ≠ .factor)
      (hx : Returns look (.due level.tighter) depth s (.ok (x, rest)))
      (h : Returns look (.more level x) depth rest result) : Returns look (.due level) depth s result
  | missing {depth : Nat} : Returns look (.due .factor) depth [] (.error .unexpectedEnd)
  | malformed {depth : Nat} {c : Char} {s : List Char} {e : FormulaError} (hc : isLiteralChar c = true)
      (he : literalValue ((c :: s).takeWhile isLiteralChar) = .error e) :
      Returns look (.due .factor) depth (c :: s) (.error e)
  | literal {depth : Nat} {c : Char} {s : List Char} {x : Float} (hc : isLiteralChar c = true)
      (hx : literalValue ((c :: s).takeWhile isLiteralChar) = .ok x) :
      Returns look (.due .factor) depth (c :: s) (.ok (x, (c :: s).dropWhile isLiteralChar))
  | undefined {depth : Nat} {c : Char} {s : List Char} (hc : c.isAlpha = true)
      (hx : look (String.ofList ((c :: s).takeWhile Char.isAlpha)) = none) :
      Returns look (.due .factor) depth (c :: s)
        (.error (.undefinedName (String.ofList ((c :: s).takeWhile Char.isAlpha))))
  | name {depth : Nat} {c : Char} {s : List Char} {x : Float} (hc : c.isAlpha = true)
      (hx : look (String.ofList ((c :: s).takeWhile Char.isAlpha)) = some x) :
      Returns look (.due .factor) depth (c :: s) (.ok (x, (c :: s).dropWhile Char.isAlpha))
  | deep {depth : Nat} {c : Char} {s : List Char} (hc : c = '(' ∨ c = '-') (hd : maxDepth ≤ depth) :
      Returns look (.due .factor) depth (c :: s) (.error (.tooDeep maxDepth))
  | insideFails {depth : Nat} {s : List Char} {e : FormulaError} (hd : ¬ maxDepth ≤ depth)
      (hx : Returns look (.due .expression) (depth + 1) s (.error e)) :
      Returns look (.due .factor) depth ('(' :: s) (.error e)
  | unclosed {depth : Nat} {s rest : List Char} {x : Float} (hd : ¬ maxDepth ≤ depth)
      (hrest : rest.head? ≠ some ')')
      (hx : Returns look (.due .expression) (depth + 1) s (.ok (x, rest))) :
      Returns look (.due .factor) depth ('(' :: s) (.error .unclosedGroup)
  | group {depth : Nat} {s rest : List Char} {x : Float} (hd : ¬ maxDepth ≤ depth)
      (hx : Returns look (.due .expression) (depth + 1) s (.ok (x, ')' :: rest))) :
      Returns look (.due .factor) depth ('(' :: s) (.ok (x, rest))
  | negatedFails {depth : Nat} {s : List Char} {e : FormulaError} (hd : ¬ maxDepth ≤ depth)
      (hx : Returns look (.due .factor) (depth + 1) s (.error e)) :
      Returns look (.due .factor) depth ('-' :: s) (.error e)
  | negation {depth : Nat} {s rest : List Char} {x : Float} (hd : ¬ maxDepth ≤ depth)
      (hx : Returns look (.due .factor) (depth + 1) s (.ok (x, rest))) :
      Returns look (.due .factor) depth ('-' :: s) (.ok (-x, rest))
  | unexpected {depth : Nat} {c : Char} {s : List Char} (hc : beginsFactor c = false) :
      Returns look (.due .factor) depth (c :: s) (.error (.unexpectedCharacter c))

variable {look : String → Option Float}

/-- A factor, given that all readings of less weight come about in one of the ways. -/
theorem returns_read_factor {depth : Nat} {s : List Char}
    (ih : ∀ (rule : Rule) (depth : Nat) (s' : List Char), s'.length < s.length →
      Returns look rule depth s' (read look rule depth s')) :
    Returns look (.due .factor) depth s (read look (.due .factor) depth s) := by
  rcases factor_cases s with rfl | ⟨c, s, rfl, hc | rfl | hc | rfl | hc⟩
  · rw [read_factor_end]
    exact .missing
  · rw [read_factor_literal hc]
    split
    · rename_i e he
      exact .malformed hc he
    · rename_i x hx
      exact .literal hc hx
  · rw [read_factor_group]
    split
    · rename_i hd
      exact .deep (Or.inl rfl) hd
    · rename_i hd
      have hx := ih (.due .expression) (depth + 1) s (by simp)
      split
      · rename_i e he
        exact .insideFails hd (he ▸ hx)
      · rename_i x he
        exact .unclosed hd (by simp) (he ▸ hx)
      · rename_i x d rest he
        split
        · rename_i hclose
          subst hclose
          exact .group hd (he ▸ hx)
        · rename_i hclose
          exact .unclosed hd (by simpa using hclose) (he ▸ hx)
  · rw [read_factor_name hc]
    split
    · rename_i hx
      exact .undefined hc hx
    · rename_i x hx
      exact .name hc hx
  · rw [read_factor_minus]
    split
    · rename_i hd
      exact .deep (Or.inr rfl) hd
    · rename_i hd
      have hx := ih (.due .factor) (depth + 1) s (by simp)
      split
      · rename_i e he
        exact .negatedFails hd (he ▸ hx)
      · rename_i x rest he
        exact .negation hd (he ▸ hx)
  · rw [read_factor_other hc]
    exact .unexpected hc

/-- **Every reading comes about in one of these ways.** By induction on the weight. -/
theorem returns_read (rule : Rule) (depth : Nat) (s : List Char) :
    Returns look rule depth s (read look rule depth s) := by
  induction hw : rule.weight s using Nat.strongRecOn generalizing rule depth s with
  | ind w ih =>
    subst hw
    cases rule with
    | more level x =>
      rcases stops_or_operation level s with hs | ⟨op, s, rfl, rfl⟩
      · rw [read_more_stop hs]
        exact .stop hs
      · rw [read_more_operation]
        have hy := ih _ (weight_lt_of_length_lt (by simp)) (.due op.level.tighter) depth s rfl
        split
        · rename_i e he
          exact .operandFails (he ▸ hy)
        · rename_i y rest he
          have hlen := length_read_due he
          exact .again (he ▸ hy) (ih _ (weight_lt_of_length_lt (by rw [List.length_cons]; omega)) _ _ _ rfl)
    | due level =>
      by_cases hl : level = .factor
      · subst hl
        exact returns_read_factor fun rule depth s' hlen =>
          ih _ (weight_lt_of_length_lt hlen) rule depth s' rfl
      · rw [read_due hl]
        have hx := ih _ (weight_tighter hl s) (.due level.tighter) depth s rfl
        split
        · rename_i e he
          exact .firstFails hl (he ▸ hx)
        · rename_i x rest he
          exact .first hl (he ▸ hx) (ih _ (weight_lt_of_length_lt (length_read_due he)) _ _ _ rfl)

/-- **There is no other result.** -/
theorem Returns.read_eq {rule : Rule} {depth : Nat} {s : List Char}
    {result : Except FormulaError (Float × List Char)} (h : Returns look rule depth s result) :
    read look rule depth s = result := by
  induction h with
  | stop hs => exact read_more_stop hs _
  | operandFails _ ihy => rw [read_more_operation, ihy]
  | again _ _ ihy ih => rw [read_more_operation, ihy]; exact ih
  | firstFails hl _ ihx => rw [read_due hl, ihx]
  | first hl _ _ ihx ih => rw [read_due hl, ihx]; exact ih
  | missing => exact read_factor_end
  | malformed hc he => rw [read_factor_literal hc, he]
  | literal hc hx => rw [read_factor_literal hc, hx]
  | undefined hc hx => rw [read_factor_name hc, hx]
  | name hc hx => rw [read_factor_name hc, hx]
  | deep hc hd =>
    rcases hc with rfl | rfl
    · rw [read_factor_group, if_pos hd]
    · rw [read_factor_minus, if_pos hd]
  | insideFails hd _ ihx => rw [read_factor_group, if_neg hd, ihx]
  | @unclosed _ _ rest _ hd hrest _ ihx =>
    rw [read_factor_group, if_neg hd, ihx]
    cases rest with
    | nil => rfl
    | cons d rest => simp at hrest; simp [hrest]
  | group hd _ ihx => rw [read_factor_group, if_neg hd, ihx]; simp
  | negatedFails hd _ ihx => rw [read_factor_minus, if_neg hd, ihx]
  | negation hd _ ihx => rw [read_factor_minus, if_neg hd, ihx]
  | unexpected hc => exact read_factor_other hc

theorem returns_iff {rule : Rule} {depth : Nat} {s : List Char}
    {result : Except FormulaError (Float × List Char)} :
    Returns look rule depth s result ↔ read look rule depth s = result :=
  ⟨Returns.read_eq, fun h => h ▸ returns_read rule depth s⟩

end Reckoner.Evaluation
