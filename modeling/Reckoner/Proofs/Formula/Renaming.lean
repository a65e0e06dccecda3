import Reckoner.Proofs.Formula.Returns
import Reckoner.Proofs.Validity.Renaming

/-!
# Other names do not change what is read

The descent takes a whole run of letters for a name and does nothing with it but look it up. So it reads a text
with other names step by step as it reads the text itself, if the other names have the values of the names that
they are put for.

* `Returns.rename` — each call returns what it returned, in front of what is left with the other names.
* `valueOf_renameText_eq_ok_iff` — the text with other names has the same value, or none either.
-/

set_option autoImplicit false

namespace Reckoner.Evaluation

variable {look : String → Option Float} {r : String → String}

/-- What is returned where the text has other names. -/
def renamedReading (r : String → String) :
    Except FormulaError (Float × List Char) → Except FormulaError (Float × List Char)
  | .error e => .error (e.renamed r)
  | .ok (value, rest) => .ok (value, replaceRuns Char.isAlpha (renameRun r) rest)

theorem isAlpha_mark (op : Operation) : op.mark.isAlpha = false := by
  cases op <;> decide

theorem isAlpha_of_not_beginsFactor {c : Char} (h : beginsFactor c = false) : c.isAlpha = false :=
  Bool.eq_false_iff.mpr fun ha => by
    simp [beginsFactor, isOperandChar_of_isAlpha ha] at h

theorem renamed_of_literalValue {literal : List Char} {e : FormulaError}
    (h : literalValue literal = .error e) : e.renamed r = e := by
  unfold literalValue at h
  split at h
  · cases h
  · cases h
    rfl

/-- Letters are no operations. -/
theorem Stops.replaceRuns (hf : KeepsRuns Char.isAlpha (renameRun r)) {level : Level} {s : List Char}
    (hs : Stops level s) : Stops level (replaceRuns Char.isAlpha (renameRun r) s) := by
  rintro c hc op hlevel rfl
  exact hs op.mark ((head?_replaceRuns_eq_some_iff hf (isAlpha_mark op)).mp hc) op hlevel rfl

/-- A literal is read as it is. -/
theorem takeWhile_isLiteralChar_replaceRuns (hf : KeepsRuns Char.isAlpha (renameRun r)) (s : List Char) :
    (replaceRuns Char.isAlpha (renameRun r) s).takeWhile isLiteralChar = s.takeWhile isLiteralChar := by
  rw [takeWhile_replaceRuns hf uniform_isLiteralChar]
  exact replaceRuns_eq_self fun c hc => isAlpha_of_isLiteralChar (List.mem_takeWhile_imp hc)

/-- Where a name is read, the name that was put for it is read. -/
theorem takeWhile_isAlpha_replaceRuns (hf : KeepsRuns Char.isAlpha (renameRun r)) {c : Char} (s : List Char)
    (hc : c.isAlpha = true) : ∃ d t, replaceRuns Char.isAlpha (renameRun r) (c :: s) = d :: t ∧
      d.isAlpha = true ∧ String.ofList ((d :: t).takeWhile Char.isAlpha) =
        r (String.ofList ((c :: s).takeWhile Char.isAlpha)) := by
  have huniform : Uniform Char.isAlpha Char.isAlpha := Or.inl fun _ h => h
  have hrun : (replaceRuns Char.isAlpha (renameRun r) (c :: s)).takeWhile Char.isAlpha =
      renameRun r ((c :: s).takeWhile Char.isAlpha) := by
    rw [takeWhile_replaceRuns hf huniform]
    exact replaceRuns_eq_apply (by simp [hc]) fun d hd => List.mem_takeWhile_imp hd
  have hne : renameRun r ((c :: s).takeWhile Char.isAlpha) ≠ [] :=
    (hf _ (by simp [hc]) fun d hd => List.mem_takeWhile_imp hd).1
  cases ht : replaceRuns Char.isAlpha (renameRun r) (c :: s) with
  | nil =>
    rw [ht, List.takeWhile_nil] at hrun
    exact absurd hrun.symm hne
  | cons d t =>
    rw [ht] at hrun
    refine ⟨d, t, rfl, ?_, by rw [hrun, renameRun, String.ofList_toList]⟩
    cases hd : d.isAlpha with
    | true => rfl
    | false =>
      rw [List.takeWhile_cons, hd] at hrun
      exact absurd hrun.symm hne

/-- **Each call returns what it returned**, in front of what is left with the other names. By induction on what
    the call returned. -/
theorem Returns.rename (hr : ∀ x, IsName x → IsName (r x)) {rule : Rule} {depth : Nat} {s : List Char}
    {result : Except FormulaError (Float × List Char)}
    (h : Returns (fun x => look (r x)) rule depth s result) :
    Returns look rule depth (replaceRuns Char.isAlpha (renameRun r) s) (renamedReading r result) := by
  have hf := keepsRuns_renameRun hr
  induction h with
  | stop hs => exact .stop (hs.replaceRuns hf)
  | operandFails _ ihy =>
    rw [replaceRuns_cons_of_not _ (isAlpha_mark _)]
    exact .operandFails ihy
  | again _ _ ihy ih =>
    rw [replaceRuns_cons_of_not _ (isAlpha_mark _)]
    exact .again ihy ih
  | firstFails hl _ ihx => exact .firstFails hl ihx
  | first hl _ _ ihx ih => exact .first hl ihx ih
  | missing => exact .missing
  | @malformed _ c s e hc he =>
    have hread := takeWhile_isLiteralChar_replaceRuns hf (c :: s)
    rw [renamedReading, renamed_of_literalValue he]
    rw [replaceRuns_cons_of_not _ (isAlpha_of_isLiteralChar hc)] at hread ⊢
    exact .malformed hc (by rw [hread, he])
  | @literal _ c s x hc hx =>
    have hread := takeWhile_isLiteralChar_replaceRuns hf (c :: s)
    rw [renamedReading, ← dropWhile_replaceRuns hf uniform_isLiteralChar]
    rw [replaceRuns_cons_of_not _ (isAlpha_of_isLiteralChar hc)] at hread ⊢
    exact .literal hc (by rw [hread, hx])
  | @undefined _ c s hc hx =>
    obtain ⟨d, t, heq, hd, hname⟩ := takeWhile_isAlpha_replaceRuns hf s hc
    rw [heq, renamedReading, FormulaError.renamed, ← hname]
    exact .undefined hd (by rw [hname, hx])
  | @name _ c s x hc hx =>
    obtain ⟨d, t, heq, hd, hname⟩ := takeWhile_isAlpha_replaceRuns hf s hc
    rw [renamedReading, ← dropWhile_replaceRuns hf (Or.inl fun _ h => h), heq]
    exact .name hd (by rw [hname, hx])
  | deep hc hd =>
    have hother : ∀ c : Char, c = '(' ∨ c = '-' → c.isAlpha = false := by
      rintro c (rfl | rfl) <;> rfl
    rw [replaceRuns_cons_of_not _ (hother _ hc)]
    exact .deep hc hd
  | insideFails hd _ ihx =>
    rw [replaceRuns_cons_of_not _ (by decide)]
    exact .insideFails hd ihx
  | unclosed hd hrest _ ihx =>
    rw [replaceRuns_cons_of_not _ (by decide)]
    exact .unclosed hd (mt (head?_replaceRuns_eq_some_iff hf (by decide)).mp hrest) ihx
  | group hd _ ihx =>
    rw [replaceRuns_cons_of_not _ (by decide)]
    rw [renamedReading, replaceRuns_cons_of_not _ (by decide)] at ihx
    exact .group hd ihx
  | negatedFails hd _ ihx =>
    rw [replaceRuns_cons_of_not _ (by decide)]
    exact .negatedFails hd ihx
  | negation hd _ ihx =>
    rw [replaceRuns_cons_of_not _ (by decide)]
    exact .negation hd ihx
  | unexpected hc =>
    rw [replaceRuns_cons_of_not _ (isAlpha_of_not_beginsFactor hc)]
    exact .unexpected hc

/-- **The text with other names has the same value**, or none either, if no two operands are side by side. -/
theorem valueOf_renameText_eq_ok_iff (hr : ∀ x, IsName x → IsName (r x)) {text : String} {v : Float}
    (hside : ∀ n ∈ neighbours text.toList, n.sideBySide = false) :
    valueOf look (renameText r text) = .ok v ↔ valueOf (fun x => look (r x)) text = .ok v := by
  have hf := keepsRuns_renameRun hr
  have hread := ((@returns_read (fun x => look (r x)) (.due .expression) 0 (strip text.toList)).rename hr).read_eq
  rw [valueOf_eq, valueOf_eq, toList_renameText, strip_replaceRuns hf (fun _ => isOperandChar_of_isAlpha) hside,
    hread]
  cases read (fun x => look (r x)) (.due .expression) 0 (strip text.toList) with
  | error e => exact iff_of_false (by simp [renamedReading]) (by simp)
  | ok result =>
    obtain ⟨x, rest⟩ := result
    cases rest with
    | nil => rfl
    | cons c rest =>
      -- something is left in both texts, though it need not be the same character
      obtain ⟨d, left, hleft⟩ := List.exists_cons_of_ne_nil
        (mt (replaceRuns_eq_nil_iff hf).mp (List.cons_ne_nil c rest))
      rw [renamedReading, hleft]
      exact iff_of_false (by simp) (by simp)

end Reckoner.Evaluation
