import Reckoner.Proofs.CursorWalks
import Reckoner.Proofs.Formula.Lookahead

/-!
# The descent with a cursor

The functions of the descent are given what is left of the text. Here they are told with a cursor that stands in
the text: where they look at the first character, it is shown; where they go on behind a character, a name or a
literal, the cursor is moved.

* `Cursor.onTo` — the cursor further on in the same text; `Cursor.onTo_of_append`: where it has passed a piece.
* `descend` — what the function of a rule reads from the place of a cursor, and where the cursor is then.
* `descend_due`, `descend_more_operation`, `descend_more_stop`, `descend_factor` — each function in terms of what
  the cursor shows and of where its moves lead; `valueOf_eq_descend`: the whole text.
* `exists_walk_of_descend` — whatever was read, the cursor was brought there by its moves.
-/

set_option autoImplicit false

namespace Reckoner

/-! ## Places further on -/

namespace Cursor

/-- The cursor in the same text in front of `rest`, with which what is ahead ends. -/
def onTo (c : Cursor) (rest : List Char) : Cursor :=
  ⟨(c.ahead.take (c.ahead.length - rest.length)).reverse ++ c.behind, rest⟩

variable {c : Cursor} {r rest : List Char}

theorem onTo_of_append (h : c.ahead = r ++ rest) : c.onTo rest = ⟨r.reverse ++ c.behind, rest⟩ := by
  unfold onTo
  rw [h, List.length_append, Nat.add_sub_cancel, List.take_left]

theorem onTo_ahead (c : Cursor) : c.onTo c.ahead = c :=
  onTo_of_append (r := []) rfl

/-- Going on in two parts. -/
theorem onTo_onTo {u q : List Char} (h : c.ahead = r ++ rest) (h' : rest = u ++ q) :
    (c.onTo rest).onTo q = c.onTo q := by
  have hall : c.ahead = (r ++ u) ++ q := by rw [h, h', List.append_assoc]
  rw [onTo_of_append hall, onTo_of_append (show (c.onTo rest).ahead = u ++ q from h'), onTo_of_append h,
    List.reverse_append, List.append_assoc]

theorem takeRun_eq_onTo (p : Char → Bool) (c : Cursor) :
    (c.takeRun p).2 = c.onTo (c.ahead.dropWhile p) :=
  (onTo_of_append List.takeWhile_append_dropWhile.symm).symm

theorem next_eq_onTo {x : Char} (h : c.ahead = x :: rest) : c.next = (some x, c.onTo rest) := by
  rw [onTo_of_append (r := [x]) h]
  unfold next
  rw [h]
  rfl

theorem ahead_next {x : Char} (h : c.ahead = x :: rest) : c.next.2.ahead = rest := by
  rw [next_eq_onTo h]
  rfl

theorem walk_append (c : Cursor) (moves more : List Move) :
    c.walk (moves ++ more) = (c.walk moves).walk more :=
  List.foldl_append

/-- In a text the place of a cursor is told by what is ahead. -/
theorem Passes.eq_onTo {d : Cursor} (h : c.Passes r d) : d = c.onTo d.ahead := by
  have hbehind : d.behind = r.reverse ++ c.behind := by
    rw [List.reverse_eq_iff.mp h.passed_eq, List.reverse_append, passed, List.reverse_reverse]
  rw [onTo_of_append h.2, ← hbehind]

end Cursor

namespace Evaluation

variable {look : String → Option Float} {depth : Nat} {c d : Cursor} {x : Float}

/-- What the function of the rule reads from the place of the cursor, and where the cursor is then. -/
def descend (look : String → Option Float) (rule : Rule) (depth : Nat) (c : Cursor) :
    Except FormulaError (Float × Cursor) :=
  (read look rule depth c.ahead).map fun (value, rest) => (value, c.onTo rest)

/-- From a place further on the cursor comes where it comes from the first place. -/
theorem descend_onTo {rule : Rule} {r rest : List Char} (h : c.ahead = r ++ rest) :
    descend look rule depth (c.onTo rest) =
      (read look rule depth rest).map fun (value, q) => (value, c.onTo q) := by
  show (read look rule depth rest).map _ = _
  cases hread : read look rule depth rest with
  | error e => rfl
  | ok reading =>
    obtain ⟨u, hu⟩ := exists_append_of_read hread
    show Except.ok (reading.1, (c.onTo rest).onTo reading.2) = _
    rw [Cursor.onTo_onTo h hu]
    rfl

/-! ## Each function -/

/-- An operand of a level is one of the next tighter level, and more behind it. -/
theorem descend_due {level : Level} (hl : level ≠ .factor) (c : Cursor) :
    descend look (.due level) depth c =
      match descend look (.due level.tighter) depth c with
      | .error e => .error e
      | .ok (value, d) => descend look (.more level value) depth d := by
  rw [descend, read_due hl, descend]
  cases hread : read look (.due level.tighter) depth c.ahead with
  | error e => rfl
  | ok reading =>
    obtain ⟨r, hr⟩ := exists_append_of_read hread
    exact (descend_onTo hr).symm

/-- If an operation of the level is shown, the cursor is moved over it and the operand that follows is taken. -/
theorem descend_more_operation {op : Operation} (h : c.peek? = some op.mark) (value : Float) :
    descend look (.more op.level value) depth c =
      match descend look (.due op.level.tighter) depth c.next.2 with
      | .error e => .error e
      | .ok (right, d) => descend look (.more op.level (op.apply value right)) depth d := by
  obtain ⟨s, hs⟩ := List.head?_eq_some_iff.mp h
  have hpiece : c.ahead = [op.mark] ++ s := hs
  rw [descend, hs, read_more_operation, Cursor.next_eq_onTo hs, descend_onTo hpiece]
  cases hread : read look (.due op.level.tighter) depth s with
  | error e => rfl
  | ok reading =>
    obtain ⟨r, hr⟩ := exists_append_of_read hread
    have hboth : c.ahead = (op.mark :: r) ++ reading.2 := by rw [hs, hr, List.cons_append]
    exact (descend_onTo hboth).symm

/-- Anything else ends the sum or the product, and the cursor stays. -/
theorem descend_more_stop {level : Level} (h : ∀ op : Operation, op.level = level → c.peek? ≠ some op.mark)
    (value : Float) : descend look (.more level value) depth c = .ok (value, c) := by
  have hstops : Stops level c.ahead := fun x hx op hop heq => h op hop (heq ▸ hx)
  rw [descend, read_more_stop hstops]
  show Except.ok (value, c.onTo c.ahead) = _
  rw [c.onTo_ahead]

/-- A literal that is shown is passed. -/
theorem descend_literal {ch : Char} (h : c.peek? = some ch) (hch : isLiteralChar ch = true) :
    descend look (.due .factor) depth c =
      match c.literal with
      | (.error e, _) => .error e
      | (.ok value, d) => .ok (value, d) := by
  obtain ⟨s, hs⟩ := List.head?_eq_some_iff.mp h
  have hliteral : c.literal = (literalValue (c.ahead.takeWhile isLiteralChar),
      c.onTo (c.ahead.dropWhile isLiteralChar)) :=
    Prod.ext rfl (c.takeRun_eq_onTo isLiteralChar)
  rw [descend, hliteral, hs, read_factor_literal hch]
  cases literalValue ((ch :: s).takeWhile isLiteralChar) <;> rfl

theorem descend_group (h : c.peek? = some '(') :
    descend look (.due .factor) depth c =
      if maxDepth ≤ depth then .error (.tooDeep maxDepth)
      else
        match descend look (.due .expression) (depth + 1) c.next.2 with
        | .error e => .error e
        | .ok (value, d) =>
          if d.next.1 = some ')' then .ok (value, d.next.2) else .error .unclosedGroup := by
  obtain ⟨s, hs⟩ := List.head?_eq_some_iff.mp h
  have hpiece : c.ahead = ['('] ++ s := hs
  rw [descend, hs, read_factor_group, Cursor.next_eq_onTo hs, descend_onTo hpiece]
  split
  · rfl
  · cases hread : read look (.due .expression) (depth + 1) s with
    | error e => rfl
    | ok reading =>
      obtain ⟨value, rest⟩ := reading
      cases rest with
      | nil => rfl
      | cons ch rest =>
        obtain ⟨r, hr⟩ := exists_append_of_read hread
        have hinner : c.ahead = ('(' :: r) ++ ch :: rest := by rw [hs, hr, List.cons_append]
        have hnext : (c.onTo (ch :: rest)).next = (some ch, c.onTo rest) := by
          rw [Cursor.next_eq_onTo (show (c.onTo (ch :: rest)).ahead = ch :: rest from rfl),
            Cursor.onTo_onTo (u := [ch]) hinner rfl]
        simp only [Except.map, hnext, Option.some.injEq]
        by_cases hch : ch = ')'
        · simp only [if_pos hch]
        · simp only [if_neg hch]

/-- A name that is shown is passed. -/
theorem descend_name {ch : Char} (h : c.peek? = some ch) (hch : ch.isAlpha = true) :
    descend look (.due .factor) depth c =
      match look c.name.1 with
      | none => .error (.undefinedName c.name.1)
      | some value => .ok (value, c.name.2) := by
  obtain ⟨s, hs⟩ := List.head?_eq_some_iff.mp h
  have hname : c.name = (String.ofList (c.ahead.takeWhile Char.isAlpha),
      c.onTo (c.ahead.dropWhile Char.isAlpha)) :=
    Prod.ext rfl (c.takeRun_eq_onTo Char.isAlpha)
  rw [descend, hname, hs, read_factor_name hch]
  cases look (String.ofList ((ch :: s).takeWhile Char.isAlpha)) <;> rfl

theorem descend_minus (h : c.peek? = some '-') :
    descend look (.due .factor) depth c =
      if maxDepth ≤ depth then .error (.tooDeep maxDepth)
      else
        match descend look (.due .factor) (depth + 1) c.next.2 with
        | .error e => .error e
        | .ok (value, d) => .ok (-value, d) := by
  obtain ⟨s, hs⟩ := List.head?_eq_some_iff.mp h
  have hpiece : c.ahead = ['-'] ++ s := hs
  rw [descend, hs, read_factor_minus, Cursor.next_eq_onTo hs, descend_onTo hpiece]
  split
  · rfl
  · cases read look (.due .factor) (depth + 1) s <;> rfl

/-- **A factor**, by what the cursor shows. -/
theorem descend_factor (c : Cursor) :
    descend look (.due .factor) depth c =
      match c.peek? with
      | none => .error .unexpectedEnd
      | some ch =>
        if isLiteralChar ch = true then
          match c.literal with
          | (.error e, _) => .error e
          | (.ok value, d) => .ok (value, d)
        else if ch = '(' then
          if maxDepth ≤ depth then .error (.tooDeep maxDepth)
          else
            match descend look (.due .expression) (depth + 1) c.next.2 with
            | .error e => .error e
            | .ok (value, d) =>
              if d.next.1 = some ')' then .ok (value, d.next.2) else .error .unclosedGroup
        else if ch.isAlpha = true then
          match look c.name.1 with
          | none => .error (.undefinedName c.name.1)
          | some value => .ok (value, c.name.2)
        else if ch = '-' then
          if maxDepth ≤ depth then .error (.tooDeep maxDepth)
          else
            match descend look (.due .factor) (depth + 1) c.next.2 with
            | .error e => .error e
            | .ok (value, d) => .ok (-value, d)
        else .error (.unexpectedCharacter ch) := by
  cases hpeek : c.peek? with
  | none =>
    have hend : c.ahead = [] := List.head?_eq_none_iff.mp hpeek
    rw [descend, hend, read_factor_end]
    rfl
  | some ch =>
    obtain ⟨s, hs⟩ := List.head?_eq_some_iff.mp hpeek
    by_cases hliteral : isLiteralChar ch = true
    · rw [descend_literal hpeek hliteral]
      simp only [if_pos hliteral]
    by_cases hopen : ch = '('
    · subst hopen
      exact descend_group hpeek
    by_cases halpha : ch.isAlpha = true
    · rw [descend_name hpeek halpha]
      simp only [if_neg hliteral, if_neg hopen, if_pos halpha]
    by_cases hminus : ch = '-'
    · subst hminus
      exact descend_minus hpeek
    have hother : beginsFactor ch = false := by
      simp [beginsFactor, isOperandChar, hliteral, hopen, halpha, hminus]
    rw [descend, hs, read_factor_other hother]
    simp only [if_neg hliteral, if_neg hopen, if_neg halpha, if_neg hminus]
    rfl

/-- **The value of a text**: the cursor starts in front of it, and behind the expression it shows nothing more. -/
theorem valueOf_eq_descend (look : String → Option Float) (text : String) :
    valueOf look text =
      match descend look (.due .expression) 0 (Cursor.start text) with
      | .error e => .error e
      | .ok (value, d) =>
        match d.peek? with
        | none => .ok value
        | some ch => .error (.unexpectedCharacter ch) := by
  have hahead : (Cursor.start text).ahead = strip text.toList := rfl
  rw [valueOf_eq, descend, hahead]
  cases read look (.due .expression) 0 (strip text.toList) with
  | error e => rfl
  | ok reading =>
    obtain ⟨value, rest⟩ := reading
    cases rest <;> rfl

/-! ## By moves alone -/

/-- What is read is passed by moves of the cursor. By induction on how the result comes about. -/
theorem Returns.exists_walk {rule : Rule} {s rest : List Char}
    {result : Except FormulaError (Float × List Char)} (h : Returns look rule depth s result)
    (hresult : result = .ok (x, rest)) {c : Cursor} (hc : c.ahead = s) :
    ∃ moves, (c.walk moves).ahead = rest := by
  induction h generalizing x rest c with
  | stop _ =>
    cases hresult
    exact ⟨[], hc⟩
  | again _ _ ihy ih =>
    obtain ⟨moves, hmoves⟩ := ihy rfl (Cursor.ahead_next hc)
    obtain ⟨more, hmore⟩ := ih hresult hmoves
    refine ⟨.next :: moves ++ more, ?_⟩
    rw [Cursor.walk_append]
    exact hmore
  | first _ _ _ ihx ih =>
    obtain ⟨moves, hmoves⟩ := ihx rfl hc
    obtain ⟨more, hmore⟩ := ih hresult hmoves
    exact ⟨moves ++ more, by rw [Cursor.walk_append, hmore]⟩
  | literal _ _ =>
    cases hresult
    exact ⟨[.literal], congrArg (List.dropWhile isLiteralChar) hc⟩
  | name _ _ =>
    cases hresult
    exact ⟨[.name], congrArg (List.dropWhile Char.isAlpha) hc⟩
  | group _ _ ihx =>
    cases hresult
    obtain ⟨moves, hmoves⟩ := ihx rfl (Cursor.ahead_next hc)
    refine ⟨.next :: moves ++ [.next], ?_⟩
    rw [Cursor.walk_append]
    exact Cursor.ahead_next hmoves
  | negation _ _ ihx =>
    cases hresult
    obtain ⟨moves, hmoves⟩ := ihx rfl (Cursor.ahead_next hc)
    exact ⟨.next :: moves, hmoves⟩
  | _ => cases hresult

/-- **Whatever was read, the cursor was brought there by its moves.** -/
theorem exists_walk_of_descend {rule : Rule} (h : descend look rule depth c = .ok (x, d)) :
    ∃ moves, d = c.walk moves := by
  unfold descend at h
  cases hread : read look rule depth c.ahead with
  | error e =>
    rw [hread] at h
    cases h
  | ok reading =>
    rw [hread] at h
    obtain ⟨moves, hmoves⟩ := (returns_iff.mpr hread).exists_walk rfl (c := c) rfl
    obtain ⟨piece, hpasses⟩ := c.exists_passes_walk moves
    cases h
    refine ⟨moves, ?_⟩
    rw [hpasses.eq_onTo, hmoves]

end Evaluation

end Reckoner
