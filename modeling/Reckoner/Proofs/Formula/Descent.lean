import Reckoner.Formula.Evaluation
import Reckoner.Formula.Grammar
import Reckoner.Proofs.Text.Runs

/-!
# The descent, rule by rule

The five functions that evaluate a formula while reading it, brought under one name. A `Rule` is what is
being done: an operand of some level is `due`, or `more` operations of a level may follow the operand
whose value is known. `read look rule depth s` is what the function of that rule returns, without the
proof that the rest is shorter.

* `read_due`, `read_more_operation`, `read_more_stop` — sums and products are read alike, each with the
  operations and the operands of its level.
* `read_factor_...` — the cases of a factor, one lemma for each.
* `length_read_due` — what is left behind an operand is shorter.
* `valueOf_eq` — the value of a text in these terms.
-/

set_option autoImplicit false

namespace Reckoner

/-- The character begins a factor. -/
def beginsFactor (c : Char) : Bool :=
  isOperandChar c || c == '(' || c == '-'

namespace Evaluation

variable {look : String → Option Float} {depth : Nat}

/-- What a reading returned, without the proof that the rest is shorter. -/
def plain {n : Nat} : Except FormulaError (Reading n) → Except FormulaError (Float × List Char)
  | .error e => .error e
  | .ok (value, ⟨rest, _⟩) => .ok (value, rest)

/-- What the descent is doing in front of a text. -/
inductive Rule where
  | due (level : Level)
  | more (level : Level) (value : Float)

/-- What the function of the rule returns. Behind a factor there are no more operations of its level. -/
def read (look : String → Option Float) (rule : Rule) (depth : Nat) (s : List Char) :
    Except FormulaError (Float × List Char) :=
  match rule with
  | .due .expression => plain (expression look depth s)
  | .due .term => plain (term look depth s)
  | .due .factor => plain (factor look depth s)
  | .more .expression value => plain (sums look depth (s.length + 1) value s (Nat.lt_succ_self _))
  | .more .term value => plain (products look depth (s.length + 1) value s (Nat.lt_succ_self _))
  | .more .factor value => .ok (value, s)

/-- The first character is no operation of the level. -/
def Stops (level : Level) (s : List Char) : Prop :=
  ∀ c ∈ s.head?, ∀ op : Operation, op.level = level → c ≠ op.mark

/-! ## Sums and products -/

theorem plain_sums {n m : Nat} {value : Float} {s : List Char} (hn : s.length < n) (hm : s.length < m) :
    plain (sums look depth n value s hn) = plain (sums look depth m value s hm) := by
  induction hl : s.length using Nat.strongRecOn generalizing value s with
  | ind l ih =>
    cases s with
    | nil => simp [sums, plain]
    | cons c s =>
      rw [List.length_cons] at hl
      rw [sums, sums]
      split
      · split
        · rfl
        · rename_i right rest hrest _
          exact ih rest.length (by omega) _ _ rfl
      · split
        · split
          · rfl
          · rename_i right rest hrest _
            exact ih rest.length (by omega) _ _ rfl
        · rfl

theorem plain_products {n m : Nat} {value : Float} {s : List Char} (hn : s.length < n)
    (hm : s.length < m) :
    plain (products look depth n value s hn) = plain (products look depth m value s hm) := by
  induction hl : s.length using Nat.strongRecOn generalizing value s with
  | ind l ih =>
    cases s with
    | nil => simp [products, plain]
    | cons c s =>
      rw [List.length_cons] at hl
      rw [products, products]
      split
      · split
        · rfl
        · rename_i right rest hrest _
          exact ih rest.length (by omega) _ _ rfl
      · split
        · split
          · rfl
          · rename_i right rest hrest _
            exact ih rest.length (by omega) _ _ rfl
        · rfl

/-- An operand of a level is one of the next tighter level, and more behind it. -/
theorem read_due {level : Level} (hl : level ≠ .factor) (s : List Char) :
    read look (.due level) depth s =
      match read look (.due level.tighter) depth s with
      | .error e => .error e
      | .ok (value, rest) => read look (.more level value) depth rest := by
  cases level with
  | factor => exact absurd rfl hl
  | expression =>
    simp only [read, Level.tighter]
    rw [expression]
    cases term look depth s with
    | error e => rfl
    | ok r => exact plain_sums _ _
  | term =>
    simp only [read, Level.tighter]
    rw [term]
    cases factor look depth s with
    | error e => rfl
    | ok r => exact plain_products _ _

/-- An operation of the level takes the operand that follows it. -/
theorem read_more_operation (op : Operation) (value : Float) (s : List Char) :
    read look (.more op.level value) depth (op.mark :: s) =
      match read look (.due op.level.tighter) depth s with
      | .error e => .error e
      | .ok (right, rest) => read look (.more op.level (op.apply value right)) depth rest := by
  cases op with
  | add | sub =>
    simp only [read, Operation.level, Operation.mark, Level.tighter]
    rw [sums]
    cases term look depth s with
    | error e => rfl
    | ok r => exact plain_sums _ _
  | mul | div =>
    simp only [read, Operation.level, Operation.mark, Level.tighter]
    rw [products]
    cases factor look depth s with
    | error e => rfl
    | ok r => exact plain_products _ _

/-- Anything else ends the sum or the product. -/
theorem read_more_stop {level : Level} {s : List Char} (hs : Stops level s) (value : Float) :
    read look (.more level value) depth s = .ok (value, s) := by
  cases level with
  | factor => rfl
  | expression =>
    cases s with
    | nil => simp [read, sums, plain]
    | cons c s =>
      have hadd : c ≠ '+' := hs c rfl .add rfl
      have hsub : c ≠ '-' := hs c rfl .sub rfl
      simp [read, sums, hadd, hsub, plain]
  | term =>
    cases s with
    | nil => simp [read, products, plain]
    | cons c s =>
      have hmul : c ≠ '*' := hs c rfl .mul rfl
      have hdiv : c ≠ '/' := hs c rfl .div rfl
      simp [read, products, hmul, hdiv, plain]

/-- Either the level stops in front of a text or one of its operations comes next. -/
theorem stops_or_operation (level : Level) (s : List Char) :
    Stops level s ∨ ∃ (op : Operation) (rest : List Char), op.level = level ∧ s = op.mark :: rest := by
  by_cases h : ∃ (op : Operation) (rest : List Char), op.level = level ∧ s = op.mark :: rest
  · exact Or.inr h
  · refine Or.inl fun c hc op hop hmark => h ⟨op, s.tail, hop, ?_⟩
    cases s with
    | nil => cases hc
    | cons d s => cases hc; rw [hmark]; rfl

theorem stops_nil (level : Level) : Stops level [] := by simp [Stops]

theorem stops_cons {level : Level} {c : Char} {s : List Char} :
    Stops level (c :: s) ↔ ∀ op : Operation, op.level = level → c ≠ op.mark := by
  simp [Stops]

/-! ## Factors -/

theorem read_factor_end : read look (.due .factor) depth [] = .error .unexpectedEnd := by
  simp [read, factor, plain]

theorem read_factor_literal {c : Char} {s : List Char} (hc : isLiteralChar c = true) :
    read look (.due .factor) depth (c :: s) =
      match literalValue ((c :: s).takeWhile isLiteralChar) with
      | .error e => .error e
      | .ok value => .ok (value, (c :: s).dropWhile isLiteralChar) := by
  simp only [read]
  rw [factor, dif_pos hc]
  cases literalValue ((c :: s).takeWhile isLiteralChar) <;> rfl

theorem read_factor_group (s : List Char) :
    read look (.due .factor) depth ('(' :: s) =
      if maxDepth ≤ depth then .error (.tooDeep maxDepth)
      else
        match read look (.due .expression) (depth + 1) s with
        | .error e => .error e
        | .ok (_, []) => .error .unclosedGroup
        | .ok (value, d :: rest) => if d = ')' then .ok (value, rest) else .error .unclosedGroup := by
  simp only [read]
  rw [factor, dif_neg (by decide), if_pos rfl]
  split
  · rfl
  · cases expression look (depth + 1) s with
    | error e => rfl
    | ok r =>
      obtain ⟨value, rest, hrest⟩ := r
      cases rest with
      | nil => rfl
      | cons d rest =>
        by_cases hd : d = ')' <;> simp [plain, hd]

theorem read_factor_name {c : Char} {s : List Char} (hc : c.isAlpha = true) :
    read look (.due .factor) depth (c :: s) =
      match look (String.ofList ((c :: s).takeWhile Char.isAlpha)) with
      | none => .error (.undefinedName (String.ofList ((c :: s).takeWhile Char.isAlpha)))
      | some value => .ok (value, (c :: s).dropWhile Char.isAlpha) := by
  have hopen : c ≠ '(' := by rintro rfl; revert hc; decide
  simp only [read]
  rw [factor, dif_neg (by rw [isLiteralChar_of_isAlpha hc]; simp), if_neg hopen, dif_pos hc]
  simp only
  cases look (String.ofList ((c :: s).takeWhile Char.isAlpha)) <;> rfl

theorem read_factor_minus (s : List Char) :
    read look (.due .factor) depth ('-' :: s) =
      if maxDepth ≤ depth then .error (.tooDeep maxDepth)
      else
        match read look (.due .factor) (depth + 1) s with
        | .error e => .error e
        | .ok (value, rest) => .ok (-value, rest) := by
  simp only [read]
  rw [factor, dif_neg (by decide), if_neg (by decide), dif_neg (by decide), if_pos rfl]
  split
  · rfl
  · cases factor look (depth + 1) s <;> rfl

theorem read_factor_other {c : Char} {s : List Char} (hc : beginsFactor c = false) :
    read look (.due .factor) depth (c :: s) = .error (.unexpectedCharacter c) := by
  simp only [beginsFactor, isOperandChar, Bool.or_eq_false_iff, beq_eq_false_iff_ne] at hc
  obtain ⟨⟨⟨halpha, hliteral⟩, hopen⟩, hminus⟩ := hc
  simp only [read]
  rw [factor, dif_neg (by simp [hliteral]), if_neg hopen, dif_neg (by simp [halpha]), if_neg hminus]
  rfl

/-- The cases of a factor. -/
theorem factor_cases (s : List Char) :
    s = [] ∨ ∃ c rest, s = c :: rest ∧
      (isLiteralChar c = true ∨ c = '(' ∨ c.isAlpha = true ∨ c = '-' ∨ beginsFactor c = false) := by
  cases s with
  | nil => exact Or.inl rfl
  | cons c s =>
    refine Or.inr ⟨c, s, rfl, ?_⟩
    cases h : beginsFactor c with
    | false => simp
    | true =>
      simp only [beginsFactor, isOperandChar, Bool.or_eq_true, beq_iff_eq] at h
      rcases h with ((h | h) | h) | h <;> simp [h]

/-! ## What is left -/

theorem length_plain {n : Nat} {r : Except FormulaError (Reading n)} {value : Float} {rest : List Char}
    (h : plain r = .ok (value, rest)) : rest.length < n := by
  unfold plain at h
  split at h
  · cases h
  · rename_i hrest
    cases h
    exact hrest

theorem length_read_due {level : Level} {s rest : List Char} {value : Float}
    (h : read look (.due level) depth s = .ok (value, rest)) : rest.length < s.length := by
  cases level <;> exact length_plain h

/-- What gets smaller from each rule to the rules that it uses. -/
def Rule.weight (rule : Rule) (s : List Char) : Nat :=
  4 * s.length +
    match rule with
    | .due .expression => 3
    | .due .term => 2
    | .due .factor => 1
    | .more _ _ => 0

theorem weight_tighter {level : Level} (hl : level ≠ .factor) (s : List Char) :
    (Rule.due level.tighter).weight s < (Rule.due level).weight s := by
  cases level with
  | factor => exact absurd rfl hl
  | expression | term => simp [Rule.weight, Level.tighter]

theorem weight_lt_of_length_lt {rule rule' : Rule} {s s' : List Char} (h : s'.length < s.length) :
    rule'.weight s' < rule.weight s := by
  have hrank : rule'.weight s' ≤ 4 * s'.length + 3 := by
    unfold Rule.weight
    split <;> omega
  have : 4 * s.length ≤ rule.weight s := Nat.le_add_right _ _
  omega

/-- The value of a text, in these terms. -/
theorem valueOf_eq (look : String → Option Float) (text : String) :
    valueOf look text =
      match read look (.due .expression) 0 (strip text.toList) with
      | .error e => .error e
      | .ok (value, []) => .ok value
      | .ok (_, c :: _) => .error (.unexpectedCharacter c) := by
  unfold valueOf
  simp only [read]
  cases expression look 0 (strip text.toList) with
  | error e => rfl
  | ok r =>
    obtain ⟨value, rest, hrest⟩ := r
    cases rest <;> rfl

end Evaluation

end Reckoner
