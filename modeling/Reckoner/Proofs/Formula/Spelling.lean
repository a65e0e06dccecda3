import Mathlib.Data.List.Chain
import Reckoner.Formula.Names
import Reckoner.Proofs.Formula.Derivation

/-!
# Spellings of derivations

The checks look at a text with its blanks, the descent at the text without them.

* `spelled_of_strip_eq_join` — where no operands are side by side, a text whose stripped form is a row of
  tokens is a spelling of them: no blank lies inside a literal or a name.
* `Spelled.append`, `spelled_join` — spellings one after the other, and the one without blanks.
* `Derives.acceptable` — no check finds a defect in a spelling of a derivation.
* `Derives.namesIn_eq` — the names in a spelling of a derivation are those of its tree.
-/

set_option autoImplicit false

namespace Reckoner

variable {level : Level} {ts : List Token} {t : Tree}

/-! ## From the stripped text to the spelling -/

/-- An operand of the stripped text stands in the text in one piece. -/
theorem exists_gap_of_strip_eq_append {w u s : List Char} (hne : w ≠ [])
    (hw : ∀ c ∈ w, isOperandChar c = true) (hside : ∀ n ∈ neighbours s, n.sideBySide = false)
    (h : strip s = w ++ u) :
    ∃ gap rest, s = gap ++ w ++ rest ∧ (∀ x ∈ gap, isBlank x = true) ∧ strip rest = u := by
  induction w generalizing s with
  | nil => exact absurd rfl hne
  | cons c w ih =>
    obtain ⟨gap, rest, rfl, hgap, hrest⟩ := exists_gap_of_strip_eq_cons h
    cases w with
    | nil => exact ⟨gap, rest, by simp, hgap, hrest⟩
    | cons d w =>
      have hside' : ∀ n ∈ neighbours rest, n.sideBySide = false := fun n hn => hside n
        (mem_neighbours_append_left gap (mem_neighbours_append_left [c] hn))
      obtain ⟨gap', rest', rfl, hgap', hrest'⟩ :=
        ih (by simp) (fun x hx => hw x (List.mem_cons_of_mem c hx)) hside' hrest
      -- the second gap would separate two operand characters
      have hempty : gap' = [] := by
        have hn : (⟨c, !gap'.isEmpty, d⟩ : Neighbours) ∈
            neighbours (gap ++ c :: (gap' ++ d :: w ++ rest')) :=
          mem_neighbours_iff.mpr ⟨gap, gap', w ++ rest', by simp, hgap',
            isBlank_of_isOperandChar (hw c (by simp)), isBlank_of_isOperandChar (hw d (by simp)), rfl⟩
        have hnot := hside _ hn
        simpa [Neighbours.sideBySide, hw c, hw d] using hnot
      subst hempty
      exact ⟨gap, rest', by simp, hgap, hrest'⟩

theorem Token.text_cases {t : Token} (ht : t.wellFormed) :
    (∃ c, t.text = [c]) ∨ (t.text ≠ [] ∧ ∀ c ∈ t.text, isOperandChar c = true) := by
  cases t with
  | literal text => exact Or.inr ⟨ht.1, fun c hc => isOperandChar_of_isLiteralChar (ht.2 c hc)⟩
  | name text => exact Or.inr ⟨ht.1, fun c hc => isOperandChar_of_isAlpha (ht.2 c hc)⟩
  | operation op => exact Or.inl ⟨op.mark, rfl⟩
  | opening => exact Or.inl ⟨'(', rfl⟩
  | closing => exact Or.inl ⟨')', rfl⟩

theorem Token.text_ne_nil {t : Token} (ht : t.wellFormed) : t.text ≠ [] := by
  rcases Token.text_cases ht with ⟨c, hc⟩ | ⟨hne, -⟩
  · simp [hc]
  · exact hne

theorem Spelled.wellFormed {text : List Char} (h : Spelled ts text) : WellFormed ts := by
  induction h with
  | blanks _ => simp [WellFormed]
  | token _ ht _ ih => exact wellFormed_cons.mpr ⟨ht, ih⟩

/-- **From the stripped text to the spelling.** -/
theorem spelled_of_strip_eq_join {s : List Char} (hw : WellFormed ts)
    (hside : ∀ n ∈ neighbours s, n.sideBySide = false) (h : strip s = Token.join ts) :
    Spelled ts s := by
  induction ts generalizing s with
  | nil => exact .blanks (strip_eq_nil_iff.mp h)
  | cons t ts ih =>
    obtain ⟨ht, hts⟩ := wellFormed_cons.mp hw
    rw [Token.join_cons] at h
    have hpiece : ∃ gap rest, s = gap ++ t.text ++ rest ∧ (∀ x ∈ gap, isBlank x = true) ∧
        strip rest = Token.join ts := by
      rcases Token.text_cases ht with ⟨c, hc⟩ | ⟨hne, hoperand⟩
      · rw [hc] at h
        obtain ⟨gap, rest, rfl, hgap, hrest⟩ := exists_gap_of_strip_eq_cons h
        exact ⟨gap, rest, by simp [hc], hgap, hrest⟩
      · exact exists_gap_of_strip_eq_append hne hoperand hside h
    obtain ⟨gap, rest, rfl, hgap, hrest⟩ := hpiece
    exact .token hgap ht (ih hts (fun n hn => hside n (mem_neighbours_append_left _ hn)) hrest)

/-! ## Spellings one after the other -/

theorem Spelled.prepend {gap s : List Char} (hgap : ∀ c ∈ gap, isBlank c = true) (h : Spelled ts s) :
    Spelled ts (gap ++ s) := by
  cases h with
  | blanks hgap' => exact .blanks (List.forall_mem_append.mpr ⟨hgap, hgap'⟩)
  | token hgap' ht hrest =>
    rw [← List.append_assoc, ← List.append_assoc]
    exact .token (List.forall_mem_append.mpr ⟨hgap, hgap'⟩) ht hrest

theorem Spelled.append {us : List Token} {s r : List Char} (h : Spelled ts s) (h' : Spelled us r) :
    Spelled (ts ++ us) (s ++ r) := by
  induction h with
  | blanks hgap => exact h'.prepend hgap
  | token hgap ht _ ih =>
    rw [List.cons_append, List.append_assoc]
    exact .token hgap ht ih

theorem Spelled.single {t : Token} (ht : t.wellFormed) : Spelled [t] t.text := by
  have h := @Spelled.token t [] [] [] (by simp) ht (.blanks (by simp))
  simpa using h

/-- The tokens written one after the other are a spelling of them. -/
theorem spelled_join (hw : WellFormed ts) : Spelled ts (Token.join ts) := by
  induction ts with
  | nil => exact .blanks (by simp [Token.join_nil])
  | cons t ts ih =>
    obtain ⟨ht, hts⟩ := wellFormed_cons.mp hw
    rw [Token.join_cons]
    exact (Spelled.single ht).append (ih hts)

/-! ## Operands are not side by side -/

/-- Two tokens that may be written next to each other, as no two operands touch. -/
def Token.separate (t u : Token) : Prop :=
  ∀ x ∈ t.text.getLast?, ∀ y ∈ u.text.head?, isOperandChar x = false ∨ isOperandChar y = false

theorem Token.separate_operation (op : Operation) (t : Token) : (Token.operation op).separate t := by
  intro x hx y _
  left
  simp only [Token.text, List.getLast?_singleton, Option.mem_some_iff] at hx
  exact hx ▸ isOperandChar_mark op

theorem Token.separate_before_operation (op : Operation) (t : Token) :
    t.separate (Token.operation op) := by
  intro x _ y hy
  right
  simp only [Token.text, List.head?_cons, Option.mem_some_iff] at hy
  exact hy ▸ isOperandChar_mark op

/-- In a derivation an operation or a parenthesis is between any two operands. -/
theorem Derives.tokens_separate (h : Derives level ts t) : ts.IsChain Token.separate := by
  induction h with
  | literal text => exact List.isChain_singleton _
  | name text => exact List.isChain_singleton _
  | group _ ih =>
    refine List.isChain_append.mpr ⟨List.isChain_cons.mpr ⟨?_, ih⟩, List.isChain_singleton _, ?_⟩
    · intro u _ x hx y _
      left
      simp only [Token.text, List.getLast?_singleton, Option.mem_some_iff] at hx
      subst hx
      decide
    · intro u _ v hv x _ y hy
      right
      simp only [List.head?_cons, Option.mem_some_iff] at hv
      subst hv
      simp only [Token.text, List.head?_cons, Option.mem_some_iff] at hy
      subst hy
      decide
  | negation _ ih => exact List.isChain_cons.mpr ⟨fun u _ => Token.separate_operation _ u, ih⟩
  | term _ ih => exact ih
  | expression _ ih => exact ih
  | chain _ _ ihl ihr =>
    refine List.isChain_append.mpr ⟨ihl, List.isChain_cons.mpr ⟨?_, ihr⟩, ?_⟩
    · exact fun u _ => Token.separate_operation _ u
    · intro u _ v hv
      simp only [List.head?_cons, Option.mem_some_iff] at hv
      exact hv ▸ Token.separate_before_operation _ u

/-- Neighbours of a text that begins with a stretch of marks touch inside it, or one is its last mark,
    or both come later. -/
theorem mem_neighbours_append {w s : List Char} {n : Neighbours} (hw : ∀ c ∈ w, isBlank c = false)
    (h : n ∈ neighbours (w ++ s)) :
    n.apart = false ∨ (∃ x ∈ w.getLast?, n ∈ withNext x s) ∨ n ∈ neighbours s := by
  induction w with
  | nil => exact Or.inr (Or.inr h)
  | cons c w ih =>
    rw [List.cons_append, neighbours_cons_of_mark (hw c (by simp)), List.mem_append,
      Option.mem_toList] at h
    cases w with
    | nil =>
      rcases h with h | h
      · exact Or.inr (Or.inl ⟨c, by simp, h⟩)
      · exact Or.inr (Or.inr h)
    | cons d w =>
      rcases h with h | h
      · left
        have hd : isBlank d = false := hw d (by simp)
        rw [List.cons_append, withNext, List.dropWhile_cons_of_neg (by simp [hd])] at h
        cases h
        exact hd
      · rw [List.getLast?_cons_cons]
        exact ih (fun x hx => hw x (List.mem_cons_of_mem c hx)) h

theorem Spelled.notSideBySide {text : List Char} (h : Spelled ts text)
    (hts : ts.IsChain Token.separate) : ∀ n ∈ neighbours text, n.sideBySide = false := by
  induction h with
  | blanks hgap =>
    intro n hn
    have := neighbours_append_of_blank hgap []
    rw [List.append_nil] at this
    rw [this] at hn
    cases hn
  | @token t ts gap text hgap ht hrest ih =>
    intro n hn
    obtain ⟨hnext, hlater⟩ := List.isChain_cons.mp hts
    rw [List.append_assoc, neighbours_append_of_blank hgap] at hn
    rcases mem_neighbours_append (fun c hc => Token.isBlank_of_mem_text ht hc) hn with
      htouch | ⟨x, hx, hboundary⟩ | hn
    · simp [Neighbours.sideBySide, htouch]
    · -- the right one is the first mark of the next token
      obtain ⟨gap', rest, htext, hgap', hright, rfl, -⟩ := withNext_eq_some_iff.mp hboundary
      have hstrip := hrest.strip_eq_join
      rw [htext, strip_append, strip_eq_nil_iff.mpr hgap', strip_cons, hright] at hstrip
      cases ts with
      | nil => simp [Token.join_nil] at hstrip
      | cons u us =>
        have hu : n.right ∈ u.text.head? := by
          have hne := Token.text_ne_nil (wellFormed_cons.mp hrest.wellFormed).1
          rw [Token.join_cons] at hstrip
          cases hut : u.text with
          | nil => exact absurd hut hne
          | cons d w =>
            rw [hut, List.cons_append] at hstrip
            have hd := (List.cons.inj hstrip).1
            simp [hd]
        rcases hnext u (by simp) _ hx _ hu with hno | hno <;> simp [Neighbours.sideBySide, hno]
    · exact ih hlater n hn

/-! ## Operators are not out of place -/

/-- The second mark may follow the first. -/
def mayFollow (c d : Char) : Prop := (awaitsOperand c && clashes c d) = false

theorem mayFollow_of_endsOperand {c : Char} (h : endsOperand c = true) (d : Char) : mayFollow c d := by
  have hc : awaitsOperand c = false := by
    cases hc : awaitsOperand c with
    | false => rfl
    | true =>
      simp only [awaitsOperand, isOperator, isInfixOnly, Bool.or_eq_true, beq_iff_eq] at hc
      rcases hc with (((rfl | rfl) | rfl) | rfl) | rfl <;> revert h <;> decide
  simp [mayFollow, hc]

theorem mayFollow_of_beginsFactor {d : Char} (h : beginsFactor d = true) (c : Char) : mayFollow c d := by
  have hd : isInfixOnly d = false ∧ (d == ')') = false := by
    constructor
    · cases hd : isInfixOnly d with
      | false => rfl
      | true =>
        simp only [isInfixOnly, Bool.or_eq_true, beq_iff_eq] at hd
        rcases hd with (rfl | rfl) | rfl <;> revert h <;> decide
    · rw [beq_eq_false_iff_ne]
      rintro rfl
      revert h
      decide
  simp [mayFollow, clashes, hd.1, hd.2]

theorem isChain_mayFollow_of_operandChars {s : List Char} (hs : ∀ c ∈ s, isOperandChar c = true) :
    s.IsChain mayFollow := by
  induction s with
  | nil => exact List.isChain_nil
  | cons c s ih =>
    refine List.isChain_cons.mpr ⟨fun d _ => mayFollow_of_endsOperand ?_ d,
      ih fun d hd => hs d (List.mem_cons_of_mem c hd)⟩
    simp [endsOperand, hs c]

theorem Derives.isChain_cons_join (h : Derives level ts t) (hw : WellFormed ts) (c : Char)
    (hts : (Token.join ts).IsChain mayFollow) : (c :: Token.join ts).IsChain mayFollow := by
  obtain ⟨d, s, hbegin, hd⟩ := h.join_begins hw
  refine List.isChain_cons.mpr ⟨fun e he => ?_, hts⟩
  rw [hbegin, List.head?_cons, Option.mem_some_iff] at he
  exact he ▸ mayFollow_of_beginsFactor hd c

/-- In the text of a derivation each mark may follow the one before it. -/
theorem Derives.join_mayFollow (h : Derives level ts t) (hw : WellFormed ts) :
    (Token.join ts).IsChain mayFollow := by
  induction h with
  | literal text =>
    rw [Token.join_cons, Token.join_nil, List.append_nil]
    exact isChain_mayFollow_of_operandChars
      fun c hc => isOperandChar_of_isLiteralChar ((hw (.literal text) (by simp)).2 c hc)
  | name text =>
    rw [Token.join_cons, Token.join_nil, List.append_nil]
    exact isChain_mayFollow_of_operandChars
      fun c hc => isOperandChar_of_isAlpha ((hw (.name text) (by simp)).2 c hc)
  | group hinner ih =>
    have hw := wellFormed_group.mp hw
    obtain ⟨s, c, hend, hc⟩ := hinner.join_ends hw
    rw [Token.join_append]
    refine List.isChain_append.mpr
      ⟨hinner.isChain_cons_join hw '(' (ih hw), List.isChain_singleton _, ?_⟩
    intro d hd e _
    rw [Token.join_cons, hend, ← List.append_assoc, List.getLast?_concat, Option.mem_some_iff] at hd
    exact hd ▸ mayFollow_of_endsOperand hc e
  | negation hoperand ih =>
    have hw := wellFormed_negation.mp hw
    exact hoperand.isChain_cons_join hw '-' (ih hw)
  | term _ ih => exact ih hw
  | expression _ ih => exact ih hw
  | @chain op _ _ _ _ hl hr ihl ihr =>
    obtain ⟨hwl, hwr⟩ := wellFormed_chain.mp hw
    obtain ⟨s, c, hend, hc⟩ := hl.join_ends hwl
    rw [Token.join_append]
    refine List.isChain_append.mpr ⟨ihl hwl, hr.isChain_cons_join hwr op.mark (ihr hwr), ?_⟩
    intro d hd e _
    rw [hend, List.getLast?_concat, Option.mem_some_iff] at hd
    exact hd ▸ mayFollow_of_endsOperand hc e

theorem noClash_of_isChain_strip {s : List Char} (h : (strip s).IsChain mayFollow) :
    ∀ n ∈ neighbours s, n.clash = false := by
  intro n hn
  have hm : n.touching ∈ neighbours (strip s) := by
    rw [neighbours_strip]
    exact List.mem_map_of_mem hn
  obtain ⟨a, gap, b, heq, hgap, -, -, hapart⟩ := mem_neighbours_iff.mp hm
  have hempty : gap = [] := by simpa [Neighbours.touching] using hapart
  subst hempty
  rw [heq, List.append_assoc] at h
  exact (List.isChain_cons_cons.mp (List.isChain_append.mp h).2.1).1

/-! ## Acceptance -/

theorem isFormulaChar_of_mem_join (hw : WellFormed ts) {c : Char} (hc : c ∈ Token.join ts) :
    isFormulaChar c = true := by
  obtain ⟨t, ht, hct⟩ := List.mem_flatMap.mp hc
  cases t with
  | literal text => simp [isFormulaChar, isOperandChar_of_isLiteralChar ((hw _ ht).2 c hct)]
  | name text => simp [isFormulaChar, isOperandChar_of_isAlpha ((hw _ ht).2 c hct)]
  | operation op => rw [List.mem_singleton.mp hct]; cases op <;> decide
  | opening => rw [List.mem_singleton.mp hct]; decide
  | closing => rw [List.mem_singleton.mp hct]; decide

/-- **No check finds a defect in a spelling of a derivation.** -/
theorem Derives.acceptable {s : List Char} (h : Derives level ts t) (hs : Spelled ts s) :
    Acceptable s := by
  have hw := hs.wellFormed
  have hstrip := hs.strip_eq_join
  refine ⟨?_, ?_, hs.notSideBySide h.tokens_separate, noClash_of_isChain_strip ?_, ?_⟩
  · obtain ⟨c, r, hbegin, -⟩ := h.join_begins hw
    rw [hstrip, hbegin]
    simp
  · rw [hstrip]
    exact fun c hc => isFormulaChar_of_mem_join hw hc
  · rw [hstrip]
    exact h.join_mayFollow hw
  · rw [hstrip]
    exact h.balanced hw

/-- **The names in a spelling of a derivation** are those of its tree. -/
theorem Derives.namesIn_eq {text : String} (h : Derives level ts t) (hs : Spelled ts text.toList) :
    namesIn text = NameSet.ofNames t.names := by
  have hruns := h.runs_join hs.wellFormed beginsWithout_nil
  rw [List.append_nil, runs_nil, List.map_nil, List.append_nil, ← hs.strip_eq_join,
    runs_strip (fun c hc => isOperandChar_of_isAlpha hc) (hs.notSideBySide h.tokens_separate)] at hruns
  rw [namesIn, hruns]

end Reckoner
