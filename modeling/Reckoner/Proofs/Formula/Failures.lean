import Reckoner.Proofs.Formula.Calls

/-!
# How the descent fails

`Raises look text e behind ahead` lists the ways in which the evaluation of `text` comes to fail with `e`:
the call that fails, and the place up to which it has read.

* `exists_raises` — every failure comes about in one of these ways.
* `looksUp_iff_undefined` — a name is looked up exactly if the evaluation fails at it once its value is
  taken away. This says in terms of results what `LooksUp` says in terms of calls.
* `valueOf_ne_unavailable` — that a value cannot be had is none of these failures.
-/

set_option autoImplicit false

namespace Reckoner.Evaluation

variable {look : String → Option Float} {text : List Char}

/-- The evaluation of `text` fails in this way, with this behind and this ahead. A group is unclosed where something
    else than its closing parenthesis is behind its inside, or nothing; what is trailing is behind the whole
    expression. -/
inductive Raises (look : String → Option Float) (text : List Char) :
    FormulaError → List Char → List Char → Prop where
  | missingOperand {depth : Nat} {p : List Char} (h : Called look text (.due .factor) depth p []) :
      Raises look text .unexpectedEnd p []
  | literal {depth : Nat} {p s : List Char} {c : Char} {e : FormulaError} (hc : isLiteralChar c = true)
      (h : Called look text (.due .factor) depth p (c :: s))
      (he : literalValue ((c :: s).takeWhile isLiteralChar) = .error e) : Raises look text e p (c :: s)
  | name {depth : Nat} {p s : List Char} {c : Char} (hc : c.isAlpha = true)
      (h : Called look text (.due .factor) depth p (c :: s))
      (he : look (String.ofList ((c :: s).takeWhile Char.isAlpha)) = none) :
      Raises look text (.undefinedName (String.ofList ((c :: s).takeWhile Char.isAlpha))) p (c :: s)
  | deep {depth : Nat} {p s : List Char} {c : Char} (hc : c = '(' ∨ c = '-') (hd : maxDepth ≤ depth)
      (h : Called look text (.due .factor) depth p (c :: s)) :
      Raises look text (.tooDeep maxDepth) p (c :: s)
  | character {depth : Nat} {p s : List Char} {c : Char} (hc : beginsFactor c = false)
      (h : Called look text (.due .factor) depth p (c :: s)) :
      Raises look text (.unexpectedCharacter c) p (c :: s)
  | unclosed {depth : Nat} {p r s : List Char} {x : Float} (hs : s.head? ≠ some ')')
      (hd : ¬ maxDepth ≤ depth) (h : Called look text (.due .factor) depth p ('(' :: (r ++ s)))
      (hx : read look (.due .expression) (depth + 1) (r ++ s) = .ok (x, s)) :
      Raises look text .unclosedGroup (p ++ '(' :: r) s
  | trailing {r s : List Char} {c : Char} {x : Float} (htext : text = r ++ c :: s)
      (hx : read look (.due .expression) 0 text = .ok (x, c :: s)) :
      Raises look text (.unexpectedCharacter c) r (c :: s)

theorem Raises.text_eq {p s : List Char} {e : FormulaError} (h : Raises look text e p s) :
    text = p ++ s := by
  cases h with
  | missingOperand h | literal _ h _ | name _ h _ | deep _ _ h | character _ h => exact h.text_eq
  | unclosed _ _ h _ => simpa using h.text_eq
  | trailing htext _ => exact htext

/-- A call that fails raises the failure, or a call that it makes does. -/
theorem Returns.exists_raises {rule : Rule} {depth : Nat} {p s : List Char} {e : FormulaError}
    {result : Except FormulaError (Float × List Char)} (h : Returns look rule depth s result)
    (hresult : result = .error e) (hcall : Called look text rule depth p s) :
    ∃ behind ahead, Raises look text e behind ahead := by
  induction h generalizing p with
  | operandFails _ ihy => exact ihy hresult hcall.operand
  | again hy _ _ ih =>
    obtain ⟨r, rfl⟩ := exists_append_of_read hy.read_eq
    exact ih hresult (hcall.again hy.read_eq)
  | firstFails hl _ ihx => exact ihx hresult (hcall.first hl)
  | first hl hx _ _ ih =>
    obtain ⟨r, rfl⟩ := exists_append_of_read hx.read_eq
    exact ih hresult (hcall.loop hl hx.read_eq)
  | missing =>
    cases hresult
    exact ⟨_, _, .missingOperand hcall⟩
  | malformed hc he =>
    cases hresult
    exact ⟨_, _, .literal hc hcall he⟩
  | undefined hc hx =>
    cases hresult
    exact ⟨_, _, .name hc hcall hx⟩
  | deep hc hd =>
    cases hresult
    exact ⟨_, _, .deep hc hd hcall⟩
  | insideFails hd _ ihx => exact ihx hresult (hcall.group hd)
  | unclosed hd hrest hx _ =>
    cases hresult
    obtain ⟨r, rfl⟩ := exists_append_of_read hx.read_eq
    exact ⟨_, _, .unclosed hrest hd hcall hx.read_eq⟩
  | negatedFails hd _ ihx => exact ihx hresult (hcall.negation hd)
  | unexpected hc =>
    cases hresult
    exact ⟨_, _, .character hc hcall⟩
  | _ => cases hresult

/-- **Every failure comes about in one of these ways.** -/
theorem exists_raises {text : String} {e : FormulaError} (h : valueOf look text = .error e) :
    ∃ behind ahead, Raises look (strip text.toList) e behind ahead := by
  rw [valueOf_eq] at h
  split at h
  · rename_i hx
    cases h
    exact (returns_read _ _ _).exists_raises hx .start
  · cases h
  · rename_i x c rest hx
    cases h
    obtain ⟨r, hr⟩ := exists_append_of_read hx
    exact ⟨_, _, .trailing hr hx⟩

/-! ## Looking up, in terms of results -/

/-- The values without that of one name. -/
def without (look : String → Option Float) (x : String) : String → Option Float :=
  fun y => if y = x then none else look y

/-- A failure at a name comes from looking it up. -/
theorem Raises.undefinedName {p s : List Char} {x : String}
    (h : Raises look text (.undefinedName x) p s) : LooksUp look text x ∧ look x = none := by
  generalize he : FormulaError.undefinedName x = e at h
  cases h with
  | missingOperand _ | deep _ _ _ | character _ _ | unclosed _ _ _ _ | trailing _ _ => cases he
  | literal _ _ hv =>
    subst he
    unfold literalValue at hv
    split at hv <;> cases hv
  | name hc hcall hnone =>
    cases he
    exact ⟨⟨_, _, _, _, hcall, hc, rfl⟩, hnone⟩

/-- That a value could not be obtained is no failure of the descent. -/
theorem valueOf_ne_unavailable {text : String} (name : String) (cause : SourceError) :
    valueOf look text ≠ .error (.unavailable name cause) := by
  intro h
  obtain ⟨p, s, hraises⟩ := exists_raises h
  generalize he : FormulaError.unavailable name cause = e at hraises
  cases hraises with
  | literal _ _ hv =>
    subst he
    unfold literalValue at hv
    split at hv <;> cases hv
  | _ => cases he

/-- A name that is looked up and has no value makes the evaluation fail. -/
theorem LooksUp.valueOf_eq_error {text : String} {x : String} (h : LooksUp look (strip text.toList) x)
    (hx : look x = none) : valueOf look text = .error (.undefinedName x) := by
  obtain ⟨depth, p, c, s, hcall, hc, rfl⟩ := h
  rw [valueOf_eq, hcall.propagates (by rw [read_factor_name hc, hx])]

/-- **A name is looked up exactly if the evaluation fails at it once its value is taken away.** Up to
    there both evaluations make the same calls. -/
theorem looksUp_iff_undefined {text : String} {x : String} :
    LooksUp look (strip text.toList) x ↔ valueOf (without look x) text = .error (.undefinedName x) := by
  have hnone : without look x x = none := by simp [without]
  have hother : ∀ y, y ≠ x → look y = without look x y := by
    intro y hy
    simp [without, hy]
  constructor
  · intro h
    refine LooksUp.valueOf_eq_error ?_ hnone
    by_contra hno
    refine hno ((looksUp_congr fun y hy => ?_).mpr h)
    exact (hother y fun heq => hno (heq ▸ hy)).symm
  · intro h
    obtain ⟨p, s, hraises⟩ := exists_raises h
    by_contra hno
    refine hno ((looksUp_congr fun y hy => ?_).mpr hraises.undefinedName.1)
    exact hother y fun heq => hno (heq ▸ hy)

end Reckoner.Evaluation
