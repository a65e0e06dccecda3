import Reckoner.Proofs.Formula.Lookahead

/-!
# Which rules the descent calls, and where

`Called look text rule depth behind ahead` says that the evaluation of `text` gets to call the function of
`rule`, with `behind` read and `ahead` not yet read. A rule calls others one after the other, each only
where the ones before it succeeded.

* `Called.behind_of_due` — in front of an operand is the start, an operator or an opening parenthesis.
* `Called.propagates` — the failure of any call is the failure of the evaluation.
* `Called.takeWhile_mem_runs` — what a call takes for a name or a literal is a maximal run of the text.
* `LooksUp` — a name is looked up where a call finds a letter ahead. `Called.read_congr`, `called_congr`:
  the values of names that are not looked up do not matter.
-/

set_option autoImplicit false

namespace Reckoner.Evaluation

variable {look look' : String → Option Float} {text : List Char}

/-- The evaluation of `text` calls the function of the rule at this place. A sum or a product begins with its first
    operand and may go on behind it; behind an operation the next operand is due, and behind this it may go on
    again. Groups and minus signs are one level deeper. -/
inductive Called (look : String → Option Float) (text : List Char) :
    Rule → Nat → List Char → List Char → Prop where
  | start : Called look text (.due .expression) 0 [] text
  | first {level : Level} {depth : Nat} {p s : List Char} (hl : level ≠ .factor)
      (h : Called look text (.due level) depth p s) : Called look text (.due level.tighter) depth p s
  | loop {level : Level} {depth : Nat} {p r s : List Char} {x : Float} (hl : level ≠ .factor)
      (h : Called look text (.due level) depth p (r ++ s))
      (hx : read look (.due level.tighter) depth (r ++ s) = .ok (x, s)) :
      Called look text (.more level x) depth (p ++ r) s
  | operand {op : Operation} {depth : Nat} {p s : List Char} {x : Float}
      (h : Called look text (.more op.level x) depth p (op.mark :: s)) :
      Called look text (.due op.level.tighter) depth (p ++ [op.mark]) s
  | again {op : Operation} {depth : Nat} {p r s : List Char} {x y : Float}
      (h : Called look text (.more op.level x) depth p (op.mark :: (r ++ s)))
      (hy : read look (.due op.level.tighter) depth (r ++ s) = .ok (y, s)) :
      Called look text (.more op.level (op.apply x y)) depth (p ++ op.mark :: r) s
  | group {depth : Nat} {p s : List Char} (hd : ¬ maxDepth ≤ depth)
      (h : Called look text (.due .factor) depth p ('(' :: s)) :
      Called look text (.due .expression) (depth + 1) (p ++ ['(']) s
  | negation {depth : Nat} {p s : List Char} (hd : ¬ maxDepth ≤ depth)
      (h : Called look text (.due .factor) depth p ('-' :: s)) :
      Called look text (.due .factor) (depth + 1) (p ++ ['-']) s

theorem Called.text_eq {rule : Rule} {depth : Nat} {p s : List Char}
    (h : Called look text rule depth p s) : text = p ++ s := by
  induction h with
  | start => rfl
  | first _ _ ih => exact ih
  | loop _ _ _ ih | operand _ ih | again _ _ ih | group _ _ ih | negation _ _ ih => simp [ih]

/-- Nothing is behind, or something after which an operand is due. -/
def AwaitsOperand (p : List Char) : Prop :=
  p = [] ∨ ∃ p' c, p = p' ++ [c] ∧ awaitsOperand c = true

theorem awaitsOperand_mark (op : Operation) : awaitsOperand op.mark = true := by
  cases op <;> decide

/-- **In front of an operand** is the start, an operator or an opening parenthesis. -/
theorem Called.behind_of_due {level : Level} {depth : Nat} {p s : List Char}
    (h : Called look text (.due level) depth p s) : AwaitsOperand p := by
  generalize hrule : Rule.due level = rule at h
  induction h generalizing level with
  | start => exact Or.inl rfl
  | @first level' _ _ _ _ _ ih => exact ih rfl
  | loop _ _ _ _ => cases hrule
  | @operand op _ p _ _ _ _ => exact Or.inr ⟨p, op.mark, rfl, awaitsOperand_mark op⟩
  | again _ _ _ => cases hrule
  | @group _ p _ _ _ _ => exact Or.inr ⟨p, '(', rfl, by decide⟩
  | @negation _ p _ _ _ _ => exact Or.inr ⟨p, '-', rfl, by decide⟩

/-- **The failure of any call is the failure of the evaluation.** -/
theorem Called.propagates {rule : Rule} {depth : Nat} {p s : List Char} {e : FormulaError}
    (h : Called look text rule depth p s) (he : read look rule depth s = .error e) :
    read look (.due .expression) 0 text = .error e := by
  induction h with
  | start => exact he
  | first hl _ ih => exact ih (by rw [read_due hl, he])
  | loop hl _ hx ih => exact ih (by rw [read_due hl, hx]; exact he)
  | operand _ ih => exact ih (by rw [read_more_operation, he])
  | again _ hy ih => exact ih (by rw [read_more_operation, hy]; exact he)
  | group hd _ ih => exact ih (by rw [read_factor_group, if_neg hd, he])
  | negation hd _ ih => exact ih (by rw [read_factor_minus, if_neg hd, he])

/-- **The descent begins operands where runs begin.** -/
theorem Called.takeWhile_mem_runs {q : Char → Bool} (hq : ∀ c, q c = true → isOperandChar c = true)
    {level : Level} {depth : Nat} {p s : List Char} {c : Char}
    (h : Called look text (.due level) depth p (c :: s)) (hc : q c = true) :
    (c :: s).takeWhile q ∈ runs q text := by
  refine mem_runs_iff.mpr ⟨p, (c :: s).dropWhile q, ?_, by simp [hc],
    fun d hd => List.mem_takeWhile_imp hd, ?_, beginsWithout_dropWhile _ _⟩
  · rw [h.text_eq, List.append_assoc, List.takeWhile_append_dropWhile]
  · rcases h.behind_of_due with rfl | ⟨p', d, rfl, hd⟩
    · exact endsWithout_nil
    · refine endsWithout_concat.mpr ?_
      cases hqd : q d with
      | false => rfl
      | true =>
        have hop := hq d hqd
        rw [isOperandChar_of_awaitsOperand hd] at hop
        cases hop

/-! ## Names -/

/-- The evaluation of `text` looks up this name. -/
def LooksUp (look : String → Option Float) (text : List Char) (x : String) : Prop :=
  ∃ depth p c s, Called look text (.due .factor) depth p (c :: s) ∧ c.isAlpha = true ∧
    x = String.ofList ((c :: s).takeWhile Char.isAlpha)

theorem LooksUp.mem_runs {x : String} (h : LooksUp look text x) :
    x ∈ (runs Char.isAlpha text).map String.ofList := by
  obtain ⟨depth, p, c, s, hcall, hc, rfl⟩ := h
  exact List.mem_map_of_mem (hcall.takeWhile_mem_runs (fun _ => isOperandChar_of_isAlpha) hc)

/-- A call returns the same with other values for names that are not looked up. -/
theorem Returns.congr (hagree : ∀ x, LooksUp look text x → look x = look' x) {rule : Rule} {depth : Nat}
    {p s : List Char} {result : Except FormulaError (Float × List Char)}
    (h : Returns look rule depth s result) (hcall : Called look text rule depth p s) :
    Returns look' rule depth s result := by
  induction h generalizing p with
  | stop hs => exact .stop hs
  | operandFails _ ihy => exact .operandFails (ihy hcall.operand)
  | again hy _ ihy ih =>
    obtain ⟨r, rfl⟩ := exists_append_of_read hy.read_eq
    exact .again (ihy hcall.operand) (ih (hcall.again hy.read_eq))
  | firstFails hl _ ihx => exact .firstFails hl (ihx (hcall.first hl))
  | first hl hx _ ihx ih =>
    obtain ⟨r, rfl⟩ := exists_append_of_read hx.read_eq
    exact .first hl (ihx (hcall.first hl)) (ih (hcall.loop hl hx.read_eq))
  | missing => exact .missing
  | malformed hc he => exact .malformed hc he
  | literal hc hx => exact .literal hc hx
  | undefined hc hx => exact .undefined hc (hagree _ ⟨_, _, _, _, hcall, hc, rfl⟩ ▸ hx)
  | name hc hx => exact .name hc (hagree _ ⟨_, _, _, _, hcall, hc, rfl⟩ ▸ hx)
  | deep hc hd => exact .deep hc hd
  | insideFails hd _ ihx => exact .insideFails hd (ihx (hcall.group hd))
  | unclosed hd hrest _ ihx => exact .unclosed hd hrest (ihx (hcall.group hd))
  | group hd _ ihx => exact .group hd (ihx (hcall.group hd))
  | negatedFails hd _ ihx => exact .negatedFails hd (ihx (hcall.negation hd))
  | negation hd _ ihx => exact .negation hd (ihx (hcall.negation hd))
  | unexpected hc => exact .unexpected hc

theorem Called.read_congr (hagree : ∀ x, LooksUp look text x → look x = look' x) {rule : Rule}
    {depth : Nat} {p s : List Char} (h : Called look text rule depth p s) :
    read look rule depth s = read look' rule depth s :=
  ((returns_read rule depth s).congr hagree h).read_eq.symm

/-- So the calls are the same as well. -/
theorem called_congr (hagree : ∀ x, LooksUp look text x → look x = look' x) {rule : Rule} {depth : Nat}
    {p s : List Char} : Called look text rule depth p s ↔ Called look' text rule depth p s := by
  constructor
  · intro h
    induction h with
    | start => exact .start
    | first hl _ ih => exact .first hl ih
    | loop hl h hx ih => exact .loop hl ih (by rw [← Called.read_congr hagree (h.first hl), hx])
    | operand _ ih => exact .operand ih
    | again h hy ih => exact .again ih (by rw [← Called.read_congr hagree h.operand, hy])
    | group hd _ ih => exact .group hd ih
    | negation hd _ ih => exact .negation hd ih
  · intro h
    induction h with
    | start => exact .start
    | first hl _ ih => exact .first hl ih
    | loop hl _ hx ih => exact .loop hl ih (by rw [Called.read_congr hagree (ih.first hl), hx])
    | operand _ ih => exact .operand ih
    | again _ hy ih => exact .again ih (by rw [Called.read_congr hagree ih.operand, hy])
    | group hd _ ih => exact .group hd ih
    | negation hd _ ih => exact .negation hd ih

theorem looksUp_congr (hagree : ∀ x, LooksUp look text x → look x = look' x) {x : String} :
    LooksUp look text x ↔ LooksUp look' text x := by
  unfold LooksUp
  simp only [called_congr hagree]

end Reckoner.Evaluation
