import Reckoner.Proofs.Validity.Leftmost

/-!
# Parsing expressions

The patterns are parsing expressions: choices are ordered, repetitions are greedy, and neither is taken back. How
such an expression goes over a text is described here by itself, so that searches can be compared as they are
written and not by what they find.

* `ParsingExpression`, `Parses` — the expressions, and what one does with a text. `Parses.unique`: nothing else.
* `MatchesAs` — the expression matches, and marks, what a pattern matches.
* `parses_search` — a search that goes on by more than one character finds the leftmost match if it never goes
  past one.
* `parses_search_any`, `parses_search_runs` — one character at a time, and whole runs at a time.
-/

set_option autoImplicit false

namespace Reckoner

/-- Two places in a text, each told by what is ahead there. -/
structure Span where
  begins : List Char
  ends : List Char
  deriving DecidableEq

/-- No match, or the spans that were marked, in order, and what is ahead behind the match. -/
abbrev Outcome := Option (List Span × List Char)

/-- One character of a kind; two expressions in turn; the second where the first does not match; the body as often
    as possible; nothing, where the body does not match; the body, with what it matches marked. -/
inductive ParsingExpression where
  | one (p : Char → Bool)
  | sequence (first second : ParsingExpression)
  | choice (first second : ParsingExpression)
  | many (body : ParsingExpression)
  | absent (body : ParsingExpression)
  | marked (body : ParsingExpression)

namespace ParsingExpression

/-- Any character. -/
def any : ParsingExpression := one fun _ => true

/-- As often as possible, and at least once. -/
def plus (body : ParsingExpression) : ParsingExpression := sequence body (many body)

/-- The target behind as many steps as it takes to come to a match of it. -/
def search (target step : ParsingExpression) : ParsingExpression :=
  sequence (many (sequence (absent target) step)) target

end ParsingExpression

open ParsingExpression

/-- What an expression does with a text. What is marked where something must be absent is forgotten. -/
inductive Parses : ParsingExpression → List Char → Outcome → Prop where
  | one {p : Char → Bool} {c : Char} {s : List Char} (hc : p c = true) : Parses (one p) (c :: s) (some ([], s))
  | one_other {p : Char → Bool} {c : Char} {s : List Char} (hc : p c = false) : Parses (one p) (c :: s) none
  | one_end {p : Char → Bool} : Parses (one p) [] none
  | sequence {e f : ParsingExpression} {s t u : List Char} {m n : List Span} (he : Parses e s (some (m, t)))
      (hf : Parses f t (some (n, u))) : Parses (sequence e f) s (some (m ++ n, u))
  | sequence_first {e f : ParsingExpression} {s : List Char} (he : Parses e s none) :
      Parses (sequence e f) s none
  | sequence_second {e f : ParsingExpression} {s t : List Char} {m : List Span} (he : Parses e s (some (m, t)))
      (hf : Parses f t none) : Parses (sequence e f) s none
  | choice_first {e f : ParsingExpression} {s : List Char} {r : List Span × List Char}
      (he : Parses e s (some r)) : Parses (choice e f) s (some r)
  | choice_second {e f : ParsingExpression} {s : List Char} {r : Outcome} (he : Parses e s none)
      (hf : Parses f s r) : Parses (choice e f) s r
  | many_stop {e : ParsingExpression} {s : List Char} (he : Parses e s none) : Parses (many e) s (some ([], s))
  | many_more {e : ParsingExpression} {s t u : List Char} {m n : List Span} (he : Parses e s (some (m, t)))
      (hmore : Parses (many e) t (some (n, u))) : Parses (many e) s (some (m ++ n, u))
  | absent {e : ParsingExpression} {s : List Char} (he : Parses e s none) : Parses (absent e) s (some ([], s))
  | absent_present {e : ParsingExpression} {s : List Char} {r : List Span × List Char}
      (he : Parses e s (some r)) : Parses (absent e) s none
  | marked {e : ParsingExpression} {s t : List Char} {m : List Span} (he : Parses e s (some (m, t))) :
      Parses (marked e) s (some (⟨s, t⟩ :: m, t))
  | marked_none {e : ParsingExpression} {s : List Char} (he : Parses e s none) : Parses (marked e) s none

/-- **An expression does one thing with a text.** -/
theorem Parses.unique {e : ParsingExpression} {s : List Char} {r r' : Outcome} (h : Parses e s r)
    (h' : Parses e s r') : r' = r := by
  induction h generalizing r' with
  | one hc | one_other hc =>
    cases h' <;> simp_all
  | one_end =>
    cases h'
    rfl
  | sequence he hf ihe ihf =>
    cases h' with
    | sequence he' hf' =>
      cases ihe he'
      cases ihf hf'
      rfl
    | sequence_first he' => cases ihe he'
    | sequence_second he' hf' =>
      cases ihe he'
      cases ihf hf'
  | sequence_first he ihe =>
    cases h' with
    | sequence he' hf' => cases ihe he'
    | sequence_first he' => rfl
    | sequence_second he' hf' => rfl
  | sequence_second he hf ihe ihf =>
    cases h' with
    | sequence he' hf' =>
      cases ihe he'
      cases ihf hf'
    | sequence_first he' => rfl
    | sequence_second he' hf' => rfl
  | choice_first he ihe =>
    cases h' with
    | choice_first he' => exact ihe he'
    | choice_second he' hf' => cases ihe he'
  | choice_second he hf ihe ihf =>
    cases h' with
    | choice_first he' => cases ihe he'
    | choice_second he' hf' => exact ihf hf'
  | many_stop he ihe =>
    cases h' with
    | many_stop he' => rfl
    | many_more he' hmore' => cases ihe he'
  | many_more he hmore ihe ihmore =>
    cases h' with
    | many_stop he' => cases ihe he'
    | many_more he' hmore' =>
      cases ihe he'
      cases ihmore hmore'
      rfl
  | absent he ihe =>
    cases h' with
    | absent he' => rfl
    | absent_present he' => cases ihe he'
  | absent_present he ihe =>
    cases h' with
    | absent he' => cases ihe he'
    | absent_present he' => rfl
  | marked he ihe =>
    cases h' with
    | marked he' =>
      cases ihe he'
      rfl
    | marked_none he' => cases ihe he'
  | marked_none he ihe =>
    cases h' with
    | marked he' => cases ihe he'
    | marked_none he' => rfl

/-! ## Runs -/

theorem parses_many_one (q : Char → Bool) (s : List Char) :
    Parses (many (.one q)) s (some ([], s.dropWhile q)) := by
  induction s with
  | nil => exact .many_stop .one_end
  | cons c s ih =>
    cases hc : q c with
    | true =>
      rw [List.dropWhile_cons_of_pos hc]
      exact .many_more (.one hc) ih
    | false =>
      rw [List.dropWhile_cons_of_neg (by simp [hc])]
      exact .many_stop (.one_other hc)

theorem parses_plus_one_of_nil {q : Char → Bool} {s : List Char} (h : s.takeWhile q = []) :
    Parses (plus (.one q)) s none := by
  refine .sequence_first ?_
  cases s with
  | nil => exact .one_end
  | cons c s =>
    refine .one_other ?_
    cases hc : q c with
    | false => rfl
    | true => simp [hc] at h

theorem parses_plus_one_of_ne_nil {q : Char → Bool} {s : List Char} (h : s.takeWhile q ≠ []) :
    Parses (plus (.one q)) s (some ([], s.dropWhile q)) := by
  cases s with
  | nil => simp at h
  | cons c s =>
    have hc : q c = true := by
      by_contra hc
      simp [hc] at h
    rw [List.dropWhile_cons_of_pos hc]
    exact .sequence (.one hc) (parses_many_one q s)

/-! ## Searches -/

/-- What is reported where the pattern is to match and the match is marked. -/
def Pattern.outcome (p : Pattern) (s : List Char) : Outcome :=
  (p s).map fun piece => ([⟨s, s.drop piece.length⟩], s.drop piece.length)

/-- The expression matches what the pattern matches, and marks it. -/
def MatchesAs (target : ParsingExpression) (p : Pattern) : Prop :=
  ∀ s, Parses target s (p.outcome s)

/-- The leftmost place where the pattern matches, or the end. -/
def Pattern.firstPlace (p : Pattern) (s : List Char) : List Char :=
  (leftmost (fun t => (p t).map fun _ => t) s).getD []

namespace Pattern

variable {p : Pattern} {q : Char → Bool} {c : Char} {s piece : List Char}

theorem firstPlace_of_some (h : p s = some piece) : p.firstPlace s = s := by
  unfold firstPlace
  cases s <;> simp [leftmost, h]

theorem firstPlace_nil (p : Pattern) : p.firstPlace [] = [] := by
  unfold firstPlace leftmost
  cases p [] <;> rfl

theorem firstPlace_cons_of_none (h : p (c :: s) = none) : p.firstPlace (c :: s) = p.firstPlace s := by
  unfold firstPlace
  rw [leftmost, h]
  rfl

/-- In front of a run without a match the first place is the same as behind the run. -/
theorem firstPlace_dropWhile
    (hpq : ∀ c d s, q c = true → q d = true → p (c :: d :: s) = none → p (d :: s) = none)
    (hc : q c = true) (h : p (c :: s) = none) : p.firstPlace (s.dropWhile q) = p.firstPlace s := by
  unfold firstPlace
  rw [leftmost_dropWhile (fun c d s hc hd hn => ?_) hc (Option.map_eq_none_iff.mpr h)]
  exact Option.map_eq_none_iff.mpr (hpq c d s hc hd (Option.map_eq_none_iff.mp hn))

theorem firstPlace_suffix (p : Pattern) (s : List Char) : p.firstPlace s <:+ s := by
  induction s with
  | nil => exact ⟨[], firstPlace_nil p⟩
  | cons c s ih =>
    cases h : p (c :: s) with
    | none =>
      rw [firstPlace_cons_of_none h]
      exact ih.trans (List.suffix_cons c s)
    | some piece => exact ⟨[], firstPlace_of_some h⟩

/-- The leftmost match is the match at the leftmost place. -/
theorem leftmost_eq_apply_firstPlace (p : Pattern) (s : List Char) : leftmost p s = p (p.firstPlace s) := by
  induction s with
  | nil => rw [firstPlace_nil, leftmost]
  | cons c s ih =>
    unfold leftmost
    cases h : p (c :: s) with
    | none => rw [firstPlace_cons_of_none h, ih]
    | some piece => rw [firstPlace_of_some h, h]

end Pattern

section Search

variable {target step : ParsingExpression} {p : Pattern} {q : Char → Bool}

section Steps

variable (htarget : MatchesAs target p) (hend : Parses step [] none)
  (hstep : ∀ c s, p (c :: s) = none →
    ∃ t, Parses step (c :: s) (some ([], t)) ∧ t.length ≤ s.length ∧ p.firstPlace t = p.firstPlace s)

include htarget hend hstep

/-- The steps of a search lead to the first place of a match if none of them goes past it. -/
theorem parses_steps (s : List Char) :
    Parses (many (.sequence (.absent target) step)) s (some ([], p.firstPlace s)) := by
  induction hlen : s.length using Nat.strongRecOn generalizing s with
  | ind length ih =>
    have hs := htarget s
    unfold Pattern.outcome at hs
    cases hp : p s with
    | some piece =>
      rw [hp] at hs
      rw [Pattern.firstPlace_of_some hp]
      exact .many_stop (.sequence_first (.absent_present hs))
    | none =>
      rw [hp] at hs
      cases s with
      | nil =>
        rw [Pattern.firstPlace_nil]
        exact .many_stop (.sequence_second (.absent hs) hend)
      | cons c s =>
        obtain ⟨t, ht, hle, hplace⟩ := hstep c s hp
        have hlt : t.length < length := by rw [← hlen, List.length_cons]; omega
        rw [Pattern.firstPlace_cons_of_none hp, ← hplace]
        exact .many_more (.sequence (.absent hs) ht) (ih t.length hlt t rfl)

/-- **Such a search finds the leftmost match.** -/
theorem parses_search (s : List Char) : Parses (search target step) s (p.outcome (p.firstPlace s)) := by
  have hsteps := parses_steps htarget hend hstep s
  have hmatch := htarget (p.firstPlace s)
  cases hfound : p.outcome (p.firstPlace s) with
  | none => exact .sequence_second hsteps (hfound ▸ hmatch)
  | some found => exact .sequence hsteps (hfound ▸ hmatch)

end Steps

/-- One character at a time. -/
theorem parses_search_any (htarget : MatchesAs target p) (s : List Char) :
    Parses (search target any) s (p.outcome (p.firstPlace s)) :=
  parses_search htarget .one_end (fun _ s _ => ⟨s, .one rfl, Nat.le_refl _, rfl⟩) s

/-- Whole runs at a time, for a pattern that does not match inside a run without matching in front of it. -/
theorem parses_search_runs (htarget : MatchesAs target p)
    (hpq : ∀ c d s, q c = true → q d = true → p (c :: d :: s) = none → p (d :: s) = none) (s : List Char) :
    Parses (search target (.choice (plus (.one q)) any)) s (p.outcome (p.firstPlace s)) := by
  refine parses_search htarget (.choice_second (parses_plus_one_of_nil rfl) .one_end) (fun c s hp => ?_) s
  cases hc : q c with
  | true =>
    have hrun : Parses (plus (.one q)) (c :: s) (some ([], s.dropWhile q)) :=
      .sequence (.one hc) (parses_many_one q s)
    exact ⟨_, .choice_first hrun, (List.dropWhile_suffix q).length_le, Pattern.firstPlace_dropWhile hpq hc hp⟩
  | false =>
    exact ⟨s, .choice_second (.sequence_first (.one_other hc)) (.one rfl), Nat.le_refl _, rfl⟩

end Search

end Reckoner
