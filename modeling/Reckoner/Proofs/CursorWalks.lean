import Reckoner.Proofs.Decimal.Numeral

/-!
# A cursor loses, repeats and splits nothing

Whatever is asked of a cursor and in whatever order, it goes over the text without blanks from left to right.

* `LongestRun` — the longest beginning of a text with characters of one kind only; `longestRun_iff`: there is
  one such.
* `Cursor.Passes` — one cursor is further on in the same text than another, by a piece of it.
* `Cursor.passes_next`, `Cursor.passes_takeRun` — what one move passes. `Cursor.exists_passes_walk` — so all
  moves together pass some piece.
* `Cursor.walks_lose_nothing` — where a cursor is after any moves, and what each further move does there.
-/

set_option autoImplicit false

namespace Reckoner

/-! ## Longest runs -/

/-- The longest beginning of the text that has `p` characters only. -/
structure LongestRun (p : Char → Bool) (s run : List Char) : Prop where
  begins : run <+: s
  only : ∀ c ∈ run, p c = true
  longest : ∀ u, u <+: s → (∀ c ∈ u, p c = true) → u.length ≤ run.length

theorem longestRun_takeWhile (p : Char → Bool) (s : List Char) : LongestRun p s (s.takeWhile p) := by
  refine ⟨List.takeWhile_prefix p, fun c hc => List.mem_takeWhile_imp hc, fun u hu hp => ?_⟩
  obtain ⟨t, rfl⟩ := hu
  rw [List.takeWhile_append_of_pos hp, List.length_append]
  omega

theorem longestRun_iff {p : Char → Bool} {s run : List Char} :
    LongestRun p s run ↔ run = s.takeWhile p := by
  have htake := longestRun_takeWhile p s
  constructor
  · intro h
    have hle : run.length ≤ (s.takeWhile p).length := htake.longest run h.begins h.only
    have hge : (s.takeWhile p).length ≤ run.length := h.longest _ htake.begins htake.only
    exact (List.prefix_of_prefix_length_le h.begins htake.begins hle).eq_of_length_le hge
  · rintro rfl
    exact htake

/-- A literal fails exactly if it has no digit or a second point. -/
theorem literalValue_error_iff {literal : List Char} (h : ∀ c ∈ literal, isLiteralChar c = true) :
    (∃ e, literalValue literal = .error e) ↔
      (∀ c ∈ literal, c.isDigit = false) ∨ 1 < literal.count '.' := by
  have hread : (∃ e, literalValue literal = .error e) ↔ ¬ ∃ value, Decimal.read literal = .ok value := by
    unfold literalValue
    cases Decimal.read literal <;> simp
  rw [hread, Decimal.read_isOk_iff h, isNumeral, Bool.and_eq_true, not_and_or, List.any_eq_true,
    decide_eq_true_eq, Nat.not_le]
  simp

namespace Cursor

/-! ## Moves -/

/-- What can be asked of a cursor. -/
inductive Move where
  | hasNext
  | peek
  | next
  | name
  | literal

/-- Where the cursor is then. -/
def after (c : Cursor) : Move → Cursor
  | .hasNext | .peek => c
  | .next => c.next.2
  | .name => c.name.2
  | .literal => c.literal.2

/-- Where it is after all of the moves. -/
def walk (c : Cursor) (moves : List Move) : Cursor :=
  moves.foldl after c

/-- How many characters it has passed. -/
def position (c : Cursor) : Nat := c.passed.length

/-- The second cursor is in the same text, further on by this piece. -/
def Passes (c : Cursor) (piece : List Char) (d : Cursor) : Prop :=
  d.text = c.text ∧ c.ahead = piece ++ d.ahead

variable {c d e : Cursor} {piece later : List Char}

theorem Passes.refl (c : Cursor) : c.Passes [] c := ⟨rfl, rfl⟩

theorem Passes.trans (h : c.Passes piece d) (h' : d.Passes later e) : c.Passes (piece ++ later) e := by
  refine ⟨h'.1.trans h.1, ?_⟩
  rw [h.2, h'.2, List.append_assoc]

/-- What is further on has the piece behind it as well. -/
theorem Passes.passed_eq (h : c.Passes piece d) : d.passed = c.passed ++ piece := by
  have htext : d.passed ++ d.ahead = c.passed ++ piece ++ d.ahead := by
    rw [List.append_assoc, ← h.2]
    exact h.1
  exact List.append_cancel_right htext

theorem passes_next (c : Cursor) : c.Passes (c.ahead.take 1) c.next.2 := by
  refine ⟨c.text_next, ?_⟩
  unfold next
  split
  · rename_i h
    rw [h]
    rfl
  · rename_i x rest h
    rw [h]
    rfl

theorem passes_takeRun (p : Char → Bool) (c : Cursor) :
    c.Passes (c.ahead.takeWhile p) (c.takeRun p).2 :=
  ⟨c.text_takeRun p, List.takeWhile_append_dropWhile.symm⟩

/-- Every move passes some piece of the text. -/
theorem exists_passes_after (c : Cursor) (move : Move) : ∃ piece, c.Passes piece (c.after move) := by
  cases move with
  | hasNext => exact ⟨[], .refl c⟩
  | peek => exact ⟨[], .refl c⟩
  | next => exact ⟨_, c.passes_next⟩
  | name => exact ⟨_, c.passes_takeRun Char.isAlpha⟩
  | literal => exact ⟨_, c.passes_takeRun isLiteralChar⟩

/-- **And so do all moves together.** -/
theorem exists_passes_walk (c : Cursor) (moves : List Move) : ∃ piece, c.Passes piece (c.walk moves) := by
  induction moves generalizing c with
  | nil => exact ⟨[], .refl c⟩
  | cons move moves ih =>
    obtain ⟨piece, h⟩ := c.exists_passes_after move
    obtain ⟨later, h'⟩ := ih (c.after move)
    exact ⟨piece ++ later, h.trans h'⟩

theorem text_walk (c : Cursor) (moves : List Move) : (c.walk moves).text = c.text := by
  obtain ⟨piece, h⟩ := c.exists_passes_walk moves
  exact h.1

/-- In a text the place of a cursor is told by its position. -/
theorem ahead_eq_drop (c : Cursor) : c.position ≤ c.text.length ∧ c.ahead = c.text.drop c.position := by
  unfold position text
  exact ⟨by rw [List.length_append]; omega, List.drop_left.symm⟩

/-! ## What the moves find -/

theorem hasNext_iff : c.hasNext = true ↔ c.ahead ≠ [] := by
  simp [hasNext]

theorem isSome_peek?_iff : c.peek?.isSome = true ↔ c.ahead ≠ [] := by
  simp [peek?]

theorem next_of_nil (h : c.ahead = []) : c.next = (none, c) := by
  unfold next
  rw [h]

theorem next_of_cons {x : Char} {rest : List Char} (h : c.ahead = x :: rest) :
    c.next.1 = some x ∧ c.Passes [x] c.next.2 := by
  have hpasses := c.passes_next
  rw [h] at hpasses
  refine ⟨?_, hpasses⟩
  unfold next
  rw [h]

theorem strip_eq_filter (s : List Char) :
    strip s = s.filter fun x => x ∉ [' ', '\t', '\n', '\r', '\x0b', '\x0c'] := by
  unfold strip
  apply List.filter_congr
  intro x _
  rw [Bool.eq_iff_iff, Bool.not_eq_true', decide_eq_true_eq]
  simp [isBlank, and_assoc]

/-- **A cursor loses, repeats and splits nothing**, for every text and all moves. Wherever it is, the characters
    that it has passed and those ahead are the text without the six blanks; its position is within this text and
    tells what is ahead; and more moves only bring it further on. It says that there is something ahead, and shows
    the first character of it, exactly if this is so; then the next move passes that one character, and otherwise
    none. A name is the longest run of letters ahead, which may be empty, and exactly this is passed. Of a literal
    the longest run of digits and points is passed in any case; it fails exactly if the run has no digit or more
    than one point, and the failure carries the run. -/
theorem walks_lose_nothing (text : String) (moves : List Move) :
    let c := (start text).walk moves
    let s := text.toList.filter fun x => x ∉ [' ', '\t', '\n', '\r', '\x0b', '\x0c']
    c.passed ++ c.ahead = s ∧
    (c.position ≤ s.length ∧ c.ahead = s.drop c.position) ∧
    (∀ more, c.position ≤ (c.walk more).position ∧ ∃ piece, c.Passes piece (c.walk more)) ∧
    (c.hasNext = true ↔ c.ahead ≠ []) ∧ (c.peek?.isSome = true ↔ c.ahead ≠ []) ∧
    (c.ahead = [] → c.next = (none, c)) ∧
    (∀ x rest, c.ahead = x :: rest → c.peek? = some x ∧ c.next.1 = some x ∧ c.Passes [x] c.next.2) ∧
    (∃ run, LongestRun Char.isAlpha c.ahead run ∧ c.name.1 = String.ofList run ∧ c.Passes run c.name.2) ∧
    ∃ run, LongestRun isLiteralChar c.ahead run ∧ c.Passes run c.literal.2 ∧
      (∀ v, c.literal.1 = .ok v → Decimal.read run = .ok v) ∧
      ((∃ e, c.literal.1 = .error e) ↔ (∀ x ∈ run, x.isDigit = false) ∨ 1 < run.count '.') ∧
      ∀ e, c.literal.1 = .error e → ∃ flaw, e = .malformedLiteral (String.ofList run) flaw := by
  intro c s
  have htext : c.text = s := ((start text).text_walk moves).trans (strip_eq_filter text.toList)
  have hrun : LongestRun isLiteralChar c.ahead (c.ahead.takeWhile isLiteralChar) := longestRun_takeWhile _ _
  refine ⟨htext, htext ▸ c.ahead_eq_drop, fun more => ?_, hasNext_iff, isSome_peek?_iff, next_of_nil,
    fun x rest h => ⟨?_, next_of_cons h⟩,
    ⟨_, longestRun_takeWhile _ _, rfl, c.passes_takeRun Char.isAlpha⟩,
    ⟨_, hrun, c.passes_takeRun isLiteralChar, fun v hv => ?_, literalValue_error_iff hrun.only,
      fun e he => (literalValue_eq_error hrun.only he).2⟩⟩
  · obtain ⟨piece, h⟩ := c.exists_passes_walk more
    refine ⟨?_, piece, h⟩
    unfold position
    rw [h.passed_eq, List.length_append]
    omega
  · unfold peek?
    rw [h]
    rfl
  · have hvalue : literalValue (c.ahead.takeWhile isLiteralChar) = .ok v := hv
    unfold literalValue at hvalue
    split at hvalue
    · rename_i w hread
      cases hvalue
      exact hread
    · cases hvalue

/-- A name that is asked for at a digit is empty; a literal with two points is passed although it fails. -/
theorem walks_lose_nothing_misread :
    let c := (start " ab 1.2\t.3+").walk [.literal, .name, .name]
    c.ahead = ['1', '.', '2', '.', '3', '+'] ∧ c.position = 2 ∧ c.next.1 = some '1' ∧ c.name.1 = "" ∧
    (∃ e, c.literal.1 = .error e) ∧ c.Passes ['1', '.', '2', '.', '3'] c.literal.2 ∧
    (c.walk [.literal, .next]).ahead = [] ∧ (c.walk [.literal, .next]).next.1 = none := by
  intro c
  have hahead : c.ahead = ['1', '.', '2', '.', '3', '+'] := by decide +kernel
  have hend : (c.walk [.literal, .next]).ahead = [] := by decide +kernel
  obtain ⟨-, -, -, -, -, -, hnext, ⟨name, hname, hc, -⟩, literal, hliteral, hpasses, -, herror, -⟩ :=
    walks_lose_nothing " ab 1.2\t.3+" [.literal, .name, .name]
  obtain ⟨-, -, -, -, -, hnone, -⟩ :=
    walks_lose_nothing " ab 1.2\t.3+" ([.literal, .name, .name] ++ [.literal, .next])
  have hname' : name = [] := (longestRun_iff.mp hname).trans (by rw [hahead]; decide)
  have hliteral' : literal = ['1', '.', '2', '.', '3'] :=
    (longestRun_iff.mp hliteral).trans (by rw [hahead]; decide)
  subst hname' hliteral'
  exact ⟨hahead, by decide +kernel, (hnext _ _ hahead).2.1, hc, herror.mpr (Or.inr (by decide)), hpasses, hend,
    congrArg Prod.fst (hnone hend)⟩

end Cursor

end Reckoner
