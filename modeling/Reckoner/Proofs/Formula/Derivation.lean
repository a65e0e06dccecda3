import Reckoner.Formula.Evaluation
import Reckoner.Formula.Grammar
import Reckoner.Proofs.Decimal.Numeral
import Reckoner.Proofs.Formula.Descent
import Reckoner.Proofs.Validity.Acceptance

/-!
# Derivations and their text

What is true of the text of every derivation, and what its tree is worth.

* `Tree.compute` — the value of a tree from left to right with the first failure, no deeper than allowed.
  `compute_eq_ok_iff`, `value?_isSome_iff`: when there is a value. `compute_of_value?`: what is computed where
  the tree is worth something.
* `Derives.join_begins`, `Derives.join_ends`, `Derives.balanced` — how the text of a derivation begins
  and ends, and that it closes its groups.
* `Derives.runs_join` — the runs of letters in it are the names of its tree.
-/

set_option autoImplicit false

namespace Reckoner

/-! ## The value of a tree -/

namespace Tree

/-- The value of the tree as it is found from left to right, or the first failure on the way. -/
def compute (look : String → Option Float) : Tree → Nat → Except FormulaError Float
  | literal text, _ => literalValue text
  | name text, _ =>
    match look (String.ofList text) with
    | none => .error (.undefinedName (String.ofList text))
    | some value => .ok value
  | negation operand, depth =>
    if maxDepth ≤ depth then .error (.tooDeep maxDepth)
    else
      match operand.compute look (depth + 1) with
      | .error e => .error e
      | .ok x => .ok (-x)
  | operation op left right, depth =>
    match left.compute look depth with
    | .error e => .error e
    | .ok x =>
      match right.compute look depth with
      | .error e => .error e
      | .ok y => .ok (op.apply x y)
  | group inner, depth =>
    if maxDepth ≤ depth then .error (.tooDeep maxDepth) else inner.compute look (depth + 1)

/-- **When a tree has a value**: where it is worth something and not nested too deep. -/
theorem compute_eq_ok_iff {look : String → Option Float} {t : Tree} {depth : Nat} {v : Float}
    (hd : depth ≤ maxDepth) :
    t.compute look depth = .ok v ↔ t.value? look = some v ∧ depth + t.depth ≤ maxDepth := by
  induction t generalizing depth v with
  | literal text =>
    unfold compute value? literalValue
    cases Decimal.read text <;> simp [Tree.depth, hd]
  | name text =>
    unfold compute value?
    cases look (String.ofList text) <;> simp [Tree.depth, hd]
  | negation operand ih =>
    unfold compute value? Tree.depth
    split
    · rename_i hdeep
      constructor
      · intro h
        cases h
      · rintro ⟨_, h⟩
        omega
    · rename_i hdeep
      have ih := @ih (depth + 1)
      constructor
      · intro h
        split at h
        · cases h
        · rename_i x hx
          obtain ⟨hv, hle⟩ := (ih (by omega)).mp hx
          cases h
          exact ⟨by rw [hv], by omega⟩
      · rintro ⟨h, hle⟩
        split at h
        · rename_i x hx
          cases h
          rw [(ih (by omega)).mpr ⟨hx, by omega⟩]
        · cases h
  | operation op left right ihl ihr =>
    unfold compute value? Tree.depth
    constructor
    · intro h
      split at h
      · cases h
      · rename_i x hx
        split at h
        · cases h
        · rename_i y hy
          obtain ⟨hvl, hl⟩ := (ihl hd).mp hx
          obtain ⟨hvr, hr⟩ := (ihr hd).mp hy
          cases h
          exact ⟨by rw [hvl, hvr], by omega⟩
    · rintro ⟨h, hle⟩
      split at h
      · rename_i x y hx hy
        cases h
        rw [(ihl hd).mpr ⟨hx, by omega⟩, (ihr hd).mpr ⟨hy, by omega⟩]
      · cases h
  | group inner ih =>
    unfold compute value? Tree.depth
    split
    · rename_i hdeep
      constructor
      · intro h
        cases h
      · rintro ⟨_, h⟩
        omega
    · rw [ih (by omega)]
      have harith : depth + 1 + inner.depth ≤ maxDepth ↔ depth + (inner.depth + 1) ≤ maxDepth := by omega
      rw [harith]

theorem exists_value?_operand {look : String → Option Float} {operand : Tree} {v : Float}
    (h : (negation operand).value? look = some v) : ∃ x, operand.value? look = some x := by
  cases hx : operand.value? look with
  | none => simp [value?, hx] at h
  | some x => exact ⟨x, rfl⟩

theorem exists_value?_operands {look : String → Option Float} {op : Operation} {left right : Tree}
    {v : Float} (h : (operation op left right).value? look = some v) :
    (∃ x, left.value? look = some x) ∧ ∃ y, right.value? look = some y := by
  cases hx : left.value? look with
  | none => simp [value?, hx] at h
  | some x =>
    cases hy : right.value? look with
    | none => simp [value?, hx, hy] at h
    | some y => exact ⟨⟨x, rfl⟩, y, rfl⟩

/-- A tree that is worth something fails at the limit only. -/
theorem eq_tooDeep_of_value? {look : String → Option Float} {t : Tree} {depth : Nat} {v : Float}
    {e : FormulaError} (hv : t.value? look = some v) (h : t.compute look depth = .error e) :
    e = .tooDeep maxDepth := by
  induction t generalizing depth v with
  | literal text =>
    unfold value? at hv
    unfold compute literalValue at h
    cases hread : Decimal.read text with
    | error flaw => simp [hread] at hv
    | ok w => simp [hread] at h
  | name text =>
    rw [value?] at hv
    rw [compute, hv] at h
    cases h
  | negation operand ih =>
    obtain ⟨x, hx⟩ := exists_value?_operand hv
    unfold compute at h
    split at h
    · exact (Except.error.inj h).symm
    · split at h
      · rename_i e' he'
        exact ih hx (he'.trans h)
      · cases h
  | operation op left right ihl ihr =>
    obtain ⟨⟨x, hx⟩, y, hy⟩ := exists_value?_operands hv
    unfold compute at h
    split at h
    · rename_i e' he'
      exact ihl hx (he'.trans h)
    · split at h
      · rename_i e' he'
        exact ihr hy (he'.trans h)
      · cases h
  | group inner ih =>
    unfold compute at h
    split at h
    · exact (Except.error.inj h).symm
    · exact ih hv h

/-- **What a tree that is worth something computes**: its value, or that it is nested too deep. -/
theorem compute_of_value? {look : String → Option Float} {t : Tree} {depth : Nat} {v : Float}
    (hd : depth ≤ maxDepth) (hv : t.value? look = some v) :
    t.compute look depth =
      if depth + t.depth ≤ maxDepth then .ok v else .error (.tooDeep maxDepth) := by
  split
  · rename_i hle
    exact (compute_eq_ok_iff hd).mpr ⟨hv, hle⟩
  · rename_i hgt
    cases h : t.compute look depth with
    | ok w => exact absurd ((compute_eq_ok_iff hd).mp h).2 hgt
    | error e => rw [eq_tooDeep_of_value? hv h]

/-- Within the limit the place of a tree does not matter, not for its failures either. -/
theorem compute_depth_congr {look : String → Option Float} {t : Tree} {depth depth' : Nat}
    (h : depth + t.depth ≤ maxDepth) (h' : depth' + t.depth ≤ maxDepth) :
    t.compute look depth = t.compute look depth' := by
  induction t generalizing depth depth' with
  | literal text => rfl
  | name text => rfl
  | negation operand ih =>
    unfold Tree.depth at h h'
    rw [compute, compute, if_neg (by omega), if_neg (by omega), @ih (depth + 1) (depth' + 1) (by omega)
      (by omega)]
  | operation op left right ihl ihr =>
    unfold Tree.depth at h h'
    rw [compute, compute, @ihl depth depth' (by omega) (by omega), @ihr depth depth' (by omega) (by omega)]
  | group inner ih =>
    unfold Tree.depth at h h'
    rw [compute, compute, if_neg (by omega), if_neg (by omega), @ih (depth + 1) (depth' + 1) (by omega)
      (by omega)]

/-- A tree is worth something if its literals can be read and its names have values. -/
theorem value?_isSome_iff {look : String → Option Float} {t : Tree} :
    (∃ v, t.value? look = some v) ↔
      (∀ l ∈ t.literals, ∃ v, Decimal.read l = .ok v) ∧ ∀ x ∈ t.names, ∃ v, look x = some v := by
  induction t with
  | literal text =>
    unfold value?
    cases h : Decimal.read text <;> simp [literals, names, h]
  | name text => simp [value?, literals, names]
  | negation operand ih =>
    unfold literals names
    rw [← ih, value?]
    cases operand.value? look <;> simp
  | operation op left right ihl ihr =>
    unfold literals names
    simp only [List.forall_mem_append]
    have hboth : (∃ v, (operation op left right).value? look = some v) ↔
        (∃ v, left.value? look = some v) ∧ ∃ v, right.value? look = some v := by
      rw [value?]
      cases left.value? look <;> cases right.value? look <;> simp
    rw [hboth, ihl, ihr]
    exact ⟨fun h => ⟨⟨h.1.1, h.2.1⟩, h.1.2, h.2.2⟩, fun h => ⟨⟨h.1.1, h.2.1⟩, h.1.2, h.2.2⟩⟩
  | group inner ih => exact ih

end Tree

/-! ## The text of a derivation -/

/-- The character may end an operand. -/
def endsOperand (c : Char) : Bool := isOperandChar c || c == ')'

theorem Token.join_nil : Token.join [] = [] := rfl

theorem Token.join_cons (t : Token) (ts : List Token) : Token.join (t :: ts) = t.text ++ Token.join ts :=
  rfl

theorem Token.join_append (ts us : List Token) : Token.join (ts ++ us) = Token.join ts ++ Token.join us :=
  List.flatMap_append

theorem join_group (ts : List Token) (rest : List Char) :
    Token.join (.opening :: ts ++ [.closing]) ++ rest = '(' :: (Token.join ts ++ ')' :: rest) := by
  simp [Token.join, Token.text]

theorem join_negation (ts : List Token) (rest : List Char) :
    Token.join (.operation .sub :: ts) ++ rest = '-' :: (Token.join ts ++ rest) := by
  simp [Token.join, Token.text, Operation.mark]

theorem join_chain (op : Operation) (ls rs : List Token) (rest : List Char) :
    Token.join (ls ++ .operation op :: rs) ++ rest =
      Token.join ls ++ op.mark :: (Token.join rs ++ rest) := by
  simp [Token.join, Token.text]

theorem isOperandChar_mark (op : Operation) : isOperandChar op.mark = false := by
  cases op <;> decide

/-- Every token of the list is well-formed. -/
def WellFormed (ts : List Token) : Prop := ∀ t ∈ ts, t.wellFormed

theorem wellFormed_append {ts us : List Token} : WellFormed (ts ++ us) ↔ WellFormed ts ∧ WellFormed us :=
  List.forall_mem_append

theorem wellFormed_cons {t : Token} {ts : List Token} :
    WellFormed (t :: ts) ↔ t.wellFormed ∧ WellFormed ts := by
  simp [WellFormed]

theorem wellFormed_group {ts : List Token} : WellFormed (.opening :: ts ++ [.closing]) ↔ WellFormed ts := by
  simp [WellFormed, Token.wellFormed, or_imp, forall_and]

theorem wellFormed_negation {ts : List Token} :
    WellFormed (.operation .sub :: ts) ↔ WellFormed ts := by
  simp [WellFormed, Token.wellFormed]

theorem wellFormed_chain {op : Operation} {ls rs : List Token} :
    WellFormed (ls ++ .operation op :: rs) ↔ WellFormed ls ∧ WellFormed rs := by
  rw [wellFormed_append, wellFormed_cons]
  simp [Token.wellFormed]

namespace Derives

variable {level : Level} {ts : List Token} {t : Tree}

theorem join_begins (h : Derives level ts t) (hw : WellFormed ts) :
    ∃ c s, Token.join ts = c :: s ∧ beginsFactor c = true := by
  induction h with
  | literal text =>
    obtain ⟨hne, hc⟩ := hw (.literal text) (by simp)
    cases text with
    | nil => exact absurd rfl hne
    | cons c s => exact ⟨c, s, by simp [Token.join, Token.text],
        by simp [beginsFactor, isOperandChar_of_isLiteralChar (hc c (by simp))]⟩
  | name text =>
    obtain ⟨hne, hc⟩ := hw (.name text) (by simp)
    cases text with
    | nil => exact absurd rfl hne
    | cons c s => exact ⟨c, s, by simp [Token.join, Token.text],
        by simp [beginsFactor, isOperandChar_of_isAlpha (hc c (by simp))]⟩
  | group _ _ => exact ⟨'(', _, rfl, by decide⟩
  | negation _ _ => exact ⟨'-', _, rfl, by decide⟩
  | term _ ih => exact ih hw
  | expression _ ih => exact ih hw
  | chain _ _ ihl _ =>
    obtain ⟨c, s, heq, hc⟩ := ihl (wellFormed_chain.mp hw).1
    exact ⟨c, _, by rw [Token.join_append, heq]; rfl, hc⟩

theorem join_ends (h : Derives level ts t) (hw : WellFormed ts) :
    ∃ s c, Token.join ts = s ++ [c] ∧ endsOperand c = true := by
  have ofText : ∀ text : List Char, text ≠ [] → (∀ c ∈ text, isOperandChar c = true) →
      ∃ s c, text = s ++ [c] ∧ endsOperand c = true := by
    intro text hne hc
    refine ⟨_, _, (List.dropLast_concat_getLast hne).symm, ?_⟩
    simp [endsOperand, hc _ (List.getLast_mem hne)]
  induction h with
  | literal text =>
    obtain ⟨hne, hc⟩ := hw (.literal text) (by simp)
    simpa [Token.join, Token.text] using
      ofText text hne fun c h => isOperandChar_of_isLiteralChar (hc c h)
  | name text =>
    obtain ⟨hne, hc⟩ := hw (.name text) (by simp)
    simpa [Token.join, Token.text] using ofText text hne fun c h => isOperandChar_of_isAlpha (hc c h)
  | group _ _ => exact ⟨_, ')', by rw [Token.join_append]; rfl, by decide⟩
  | negation _ ih =>
    obtain ⟨s, c, heq, hc⟩ := ih (wellFormed_negation.mp hw)
    exact ⟨'-' :: s, c, by rw [Token.join_cons, heq]; rfl, hc⟩
  | term _ ih => exact ih hw
  | expression _ ih => exact ih hw
  | @chain op ls rs _ _ _ _ _ ihr =>
    obtain ⟨s, c, heq, hc⟩ := ihr (wellFormed_chain.mp hw).2
    exact ⟨Token.join ls ++ op.mark :: s, c, by
      rw [Token.join_append, Token.join_cons, heq]; simp [Token.text], hc⟩

theorem unmatchedFrom?_of_operandChars {s : List Char} (hs : ∀ c ∈ s, isOperandChar c = true)
    (opened : Nat) (rest : List Char) : unmatchedFrom? opened (s ++ rest) = unmatchedFrom? opened rest := by
  induction s with
  | nil => rfl
  | cons c s ih =>
    have hc := hs c (by simp)
    have hopen : c ≠ '(' := by rintro rfl; exact absurd hc (by decide)
    have hclose : c ≠ ')' := by rintro rfl; exact absurd hc (by decide)
    rw [List.cons_append, unmatchedFrom?_other hopen hclose, ih fun d hd => hs d (by simp [hd])]

/-- Reading over a derivation leaves the number of open groups as it was. -/
theorem unmatchedFrom?_join (h : Derives level ts t) (hw : WellFormed ts) (opened : Nat)
    (rest : List Char) :
    unmatchedFrom? opened (Token.join ts ++ rest) = unmatchedFrom? opened rest := by
  induction h generalizing opened rest with
  | literal text =>
    rw [Token.join_cons, Token.join_nil, List.append_nil]
    exact unmatchedFrom?_of_operandChars
      (fun c hc => isOperandChar_of_isLiteralChar ((hw (.literal text) (by simp)).2 c hc)) _ _
  | name text =>
    rw [Token.join_cons, Token.join_nil, List.append_nil]
    exact unmatchedFrom?_of_operandChars
      (fun c hc => isOperandChar_of_isAlpha ((hw (.name text) (by simp)).2 c hc)) _ _
  | group _ ih =>
    rw [join_group, unmatchedFrom?_open, ih (wellFormed_group.mp hw), unmatchedFrom?_close_succ]
  | negation _ ih =>
    rw [join_negation, unmatchedFrom?_other (by decide) (by decide), ih (wellFormed_negation.mp hw)]
  | term _ ih => exact ih hw opened rest
  | expression _ ih => exact ih hw opened rest
  | @chain op _ _ _ _ _ _ ihl ihr =>
    obtain ⟨hl, hr⟩ := wellFormed_chain.mp hw
    have hopen : op.mark ≠ '(' := by cases op <;> decide
    have hclose : op.mark ≠ ')' := by cases op <;> decide
    rw [join_chain, ihl hl, unmatchedFrom?_other hopen hclose, ihr hr]

theorem balanced (h : Derives level ts t) (hw : WellFormed ts) : Balanced (Token.join ts) := by
  have hnone := h.unmatchedFrom?_join hw 0 []
  rw [List.append_nil] at hnone
  exact unmatched?_eq_none_iff.mp hnone

/-- **The names of a derivation** are the runs of letters in its text. -/
theorem runs_join (h : Derives level ts t) (hw : WellFormed ts) {rest : List Char}
    (hrest : BeginsWithout isOperandChar rest) :
    (runs Char.isAlpha (Token.join ts ++ rest)).map String.ofList =
      t.names ++ (runs Char.isAlpha rest).map String.ofList := by
  have skip : ∀ (c : Char) (s : List Char), c.isAlpha = false →
      (runs Char.isAlpha (c :: s)).map String.ofList = (runs Char.isAlpha s).map String.ofList := by
    intro c s hc
    rw [runs_cons_of_not _ _ hc]
  induction h generalizing rest with
  | literal text =>
    obtain ⟨_, hc⟩ := hw (.literal text) (by simp)
    rw [Token.join_cons, Token.join_nil, List.append_nil, Token.text, runs_append_of_none]
    · rfl
    · exact fun c hmem => isAlpha_of_isLiteralChar (hc c hmem)
  | name text =>
    obtain ⟨hne, hc⟩ := hw (.name text) (by simp)
    have hr : BeginsWithout Char.isAlpha rest := hrest.mono fun _ => isOperandChar_of_isAlpha
    rw [Token.join_cons, Token.join_nil, List.append_nil, Token.text, runs_append_run hne hc hr]
    rfl
  | group _ ih =>
    rw [join_group, skip _ _ (by decide), ih (wellFormed_group.mp hw) (by simp [BeginsWithout]; decide),
      skip _ _ (by decide)]
    rfl
  | negation _ ih =>
    rw [join_negation, skip _ _ (by decide), ih (wellFormed_negation.mp hw) hrest]
    rfl
  | term _ ih => exact ih hw hrest
  | expression _ ih => exact ih hw hrest
  | @chain op _ _ _ _ _ _ ihl ihr =>
    obtain ⟨hl, hr⟩ := wellFormed_chain.mp hw
    have hmark : op.mark.isAlpha = false := by cases op <;> decide
    rw [join_chain, ihl hl (beginsWithout_cons.mpr (isOperandChar_mark op)), skip _ _ hmark, ihr hr hrest,
      Tree.names, List.append_assoc]

theorem mem_literals (h : Derives level ts t) (hw : WellFormed ts) :
    ∀ l ∈ t.literals, ∀ c ∈ l, isLiteralChar c = true := by
  induction h with
  | literal text =>
    intro l hl
    rw [Tree.literals, List.mem_singleton] at hl
    exact hl ▸ (hw (.literal text) (by simp)).2
  | name text => intro l hl; cases hl
  | group _ ih => exact ih (wellFormed_group.mp hw)
  | negation _ ih => exact ih (wellFormed_negation.mp hw)
  | term _ ih => exact ih hw
  | expression _ ih => exact ih hw
  | chain _ _ ihl ihr =>
    obtain ⟨hl, hr⟩ := wellFormed_chain.mp hw
    intro l hmem
    rcases List.mem_append.mp hmem with hmem | hmem
    · exact ihl hl l hmem
    · exact ihr hr l hmem

end Derives

end Reckoner
