import Mathlib.Data.List.Infix
import Reckoner.Proofs.Formula.Returns

/-!
# The descent with a counter

The functions of the descent are told how deep they are nested. Here the nesting is kept in one counter
that outlives the calls: it goes up before a nested call and back when the call returns, with a value or with
a failure. The machine does one thing at a time, and what is left to do behind the calls under way is a stack
of frames.

* `Machine.step_cases` — what a step does to the counter and to the nested calls on the stack.
* `Machine.Counts` — the counter is the number of these and within the limit. `Counts.runs`: so it is all the
  way from a state where it is.
* `Returns.comesBack` — the machine does what the descent does: from a call it comes back with what the
  function of the rule returns, to the same frames and with the counter as it was.
* `Machine.runs_start` — on a whole text it comes to the value of the text.
-/

set_option autoImplicit false

namespace Reckoner.Evaluation

/-! ## The machine -/

/-- What is left to do when a call returns: what it returns is the first operand of a level, or a right operand;
    it was one level deeper, and the counter goes back; it is in parentheses, or behind a minus sign. -/
inductive Frame where
  | first (level : Level)
  | right (op : Operation) (left : Float)
  | nested
  | closing
  | negated

/-- A nested call is under way. -/
def Frame.isNested : Frame → Bool
  | .nested => true
  | _ => false

/-- What is being done: the function of a rule is called, first thing or one level deeper, or a call returns. -/
inductive Control where
  | call (rule : Rule)
  | nest (level : Level)
  | returned (outcome : Except FormulaError Float)

/-- What is being done, the counter, what is not yet read, and what is left to do, innermost first. -/
structure Machine where
  control : Control
  depth : Nat
  ahead : List Char
  frames : List Frame

/-- The operation of the level that comes first, and what follows it. -/
def operation? (level : Level) : List Char → Option (Operation × List Char)
  | [] => none
  | c :: s =>
    match [Operation.add, .sub, .mul, .div].find? fun op => op.level = level ∧ c = op.mark with
    | none => none
    | some op => some (op, s)

namespace Machine

/-- Nothing is read yet. -/
def start (text : String) : Machine := ⟨.call (.due .expression), 0, strip text.toList, []⟩

/-- How many nested calls are under way. -/
def nestings (m : Machine) : Nat := m.frames.countP Frame.isNested

/-- A factor is due. -/
def factor (look : String → Option Float) (m : Machine) : Machine :=
  match m.ahead with
  | [] => { m with control := .returned (.error .unexpectedEnd) }
  | c :: s =>
    if isLiteralChar c = true then
      { m with
        control := .returned (literalValue ((c :: s).takeWhile isLiteralChar))
        ahead := (c :: s).dropWhile isLiteralChar }
    else if c = '(' then
      { m with control := .nest .expression, ahead := s, frames := .closing :: m.frames }
    else if c.isAlpha = true then
      let name := String.ofList ((c :: s).takeWhile Char.isAlpha)
      { m with
        control := .returned
          (match look name with
            | none => .error (.undefinedName name)
            | some value => .ok value)
        ahead := (c :: s).dropWhile Char.isAlpha }
    else if c = '-' then
      { m with control := .nest .factor, ahead := s, frames := .negated :: m.frames }
    else { m with control := .returned (.error (.unexpectedCharacter c)) }

/-- The function of the rule is called. -/
def call (look : String → Option Float) (rule : Rule) (m : Machine) : Machine :=
  match rule with
  | .due .factor => m.factor look
  | .due level => { m with control := .call (.due level.tighter), frames := .first level :: m.frames }
  | .more level value =>
    match operation? level m.ahead with
    | none => { m with control := .returned (.ok value) }
    | some (op, s) =>
      { m with control := .call (.due level.tighter), ahead := s, frames := .right op value :: m.frames }

/-- One level deeper, unless this is beyond the limit. -/
def nest (level : Level) (m : Machine) : Machine :=
  if maxDepth ≤ m.depth then { m with control := .returned (.error (.tooDeep maxDepth)) }
  else { m with control := .call (.due level), depth := m.depth + 1, frames := .nested :: m.frames }

/-- A call returns to this frame. The counter goes back behind a failure as well. -/
def resume (frame : Frame) (outcome : Except FormulaError Float) (m : Machine) : Machine :=
  match frame, outcome with
  | .nested, outcome => { m with control := .returned outcome, depth := m.depth - 1 }
  | _, .error e => { m with control := .returned (.error e) }
  | .first level, .ok value => { m with control := .call (.more level value) }
  | .right op left, .ok right => { m with control := .call (.more op.level (op.apply left right)) }
  | .negated, .ok value => { m with control := .returned (.ok (-value)) }
  | .closing, .ok value =>
    if m.ahead.head? = some ')' then { m with control := .returned (.ok value), ahead := m.ahead.tail }
    else { m with control := .returned (.error .unclosedGroup), ahead := m.ahead.tail }

/-- One step. There is none when a call returns and nothing is left to do. -/
def step (look : String → Option Float) (m : Machine) : Option Machine :=
  match m.control, m.frames with
  | .call rule, _ => some (m.call look rule)
  | .nest level, _ => some (m.nest level)
  | .returned _, [] => none
  | .returned outcome, frame :: frames => some (({ m with frames := frames } : Machine).resume frame outcome)

/-- The machine gets from one state to another, and the frames `base` stay where they are all the way. -/
inductive Runs (look : String → Option Float) (base : List Frame) : Machine → Machine → Prop where
  | refl {m : Machine} (hbase : base <:+ m.frames) : Runs look base m m
  | step {m m₁ m₂ : Machine} (hbase : base <:+ m.frames) (hm : m.step look = some m₁)
      (h : Runs look base m₁ m₂) : Runs look base m m₂

variable {look : String → Option Float} {base frames : List Frame} {m m₁ m₂ : Machine}

/-! ## The counter -/

theorem factor_depth_nestings (m : Machine) :
    (m.factor look).depth = m.depth ∧ (m.factor look).nestings = m.nestings := by
  unfold factor
  split
  · exact ⟨rfl, rfl⟩
  · split
    · exact ⟨rfl, rfl⟩
    · split
      · exact ⟨rfl, rfl⟩
      · split
        · exact ⟨rfl, rfl⟩
        · split <;> exact ⟨rfl, rfl⟩

theorem call_depth_nestings (rule : Rule) (m : Machine) :
    (m.call look rule).depth = m.depth ∧ (m.call look rule).nestings = m.nestings := by
  unfold call
  split
  · exact m.factor_depth_nestings
  · exact ⟨rfl, rfl⟩
  · split <;> exact ⟨rfl, rfl⟩

theorem resume_depth_nestings {frame : Frame} (hframe : frame.isNested = false)
    (outcome : Except FormulaError Float) (m : Machine) :
    (m.resume frame outcome).depth = m.depth ∧ (m.resume frame outcome).nestings = m.nestings := by
  unfold resume
  split
  · cases hframe
  · exact ⟨rfl, rfl⟩
  · exact ⟨rfl, rfl⟩
  · exact ⟨rfl, rfl⟩
  · exact ⟨rfl, rfl⟩
  · split <;> exact ⟨rfl, rfl⟩

/-- **What a step does to the counter**: nothing, or it goes up with a nested call, or back with one. -/
theorem step_cases (h : m.step look = some m₁) :
    (m₁.depth = m.depth ∧ m₁.nestings = m.nestings) ∨
      (m.depth < maxDepth ∧ m₁.depth = m.depth + 1 ∧ m₁.nestings = m.nestings + 1) ∨
      (m₁.depth = m.depth - 1 ∧ m.nestings = m₁.nestings + 1) := by
  unfold step at h
  split at h
  · cases h
    exact Or.inl (m.call_depth_nestings _)
  · cases h
    unfold nest
    split
    · exact Or.inl ⟨rfl, rfl⟩
    · rename_i hd
      exact Or.inr (Or.inl ⟨by omega, rfl, List.countP_cons_of_pos rfl⟩)
  · cases h
  · rename_i frame frames _ hframes
    cases h
    cases hframe : frame.isNested with
    | false =>
      obtain ⟨hdepth, hnestings⟩ := resume_depth_nestings hframe _ { m with frames := frames }
      refine Or.inl ⟨hdepth, hnestings.trans ?_⟩
      rw [nestings, nestings, hframes, List.countP_cons_of_neg (by simp [hframe])]
    | true =>
      cases frame with
      | nested =>
        refine Or.inr (Or.inr ⟨rfl, ?_⟩)
        rw [nestings, hframes, List.countP_cons_of_pos rfl]
        rfl
      | _ => cases hframe

/-- The counter is the number of nested calls under way, and within the limit. -/
structure Counts (m : Machine) : Prop where
  depth_eq : m.depth = m.nestings
  depth_le : m.depth ≤ maxDepth

theorem counts_start (text : String) : (start text).Counts :=
  ⟨rfl, Nat.zero_le _⟩

/-- Every step keeps the count. -/
theorem Counts.step (h : m.Counts) (hm : m.step look = some m₁) : m₁.Counts := by
  obtain ⟨heq, hle⟩ := h
  rcases step_cases hm with ⟨hd, hn⟩ | ⟨hlt, hd, hn⟩ | ⟨hd, hn⟩
  · exact ⟨by omega, by omega⟩
  · exact ⟨by omega, by omega⟩
  · exact ⟨by omega, by omega⟩

/-- **And so does every run.** -/
theorem Counts.runs (h : m.Counts) (hruns : Runs look base m m₁) : m₁.Counts := by
  induction hruns with
  | refl _ => exact h
  | step _ hm _ ih => exact ih (h.step hm)

/-! ## Runs -/

theorem frames_resume (frame : Frame) (outcome : Except FormulaError Float) (m : Machine) :
    (m.resume frame outcome).frames = m.frames := by
  unfold resume
  split
  · rfl
  · rfl
  · rfl
  · rfl
  · rfl
  · split <;> rfl

namespace Runs

theorem trans (h : Runs look base m m₁) (h' : Runs look base m₁ m₂) : Runs look base m m₂ := by
  induction h with
  | refl _ => exact h'
  | step hbase hm _ ih => exact .step hbase hm (ih h')

theorem mono {fewer : List Frame} (hfewer : fewer <:+ base) (h : Runs look base m m₁) :
    Runs look fewer m m₁ := by
  induction h with
  | refl hbase => exact .refl (hfewer.trans hbase)
  | step hbase hm _ ih => exact .step (hfewer.trans hbase) hm ih

/-- A step that leaves something to do, the run until a call returns to that, and the step of doing it. -/
theorem under {frame : Frame} {outcome : Except FormulaError Float} {depth : Nat} {rest : List Char}
    (hframes : m.frames = frames) (hm : m.step look = some m₁)
    (h : Runs look (frame :: frames) m₁ ⟨.returned outcome, depth, rest, frame :: frames⟩) :
    Runs look frames m ((⟨.returned outcome, depth, rest, frames⟩ : Machine).resume frame outcome) := by
  refine .step (hframes ▸ List.suffix_refl _) hm ((h.mono (List.suffix_cons frame frames)).trans ?_)
  refine .step (List.suffix_cons frame frames) rfl (.refl ?_)
  rw [frames_resume]

end Runs

end Machine

/-! ## The machine and the descent -/

open Machine (Runs)

variable {look : String → Option Float} {control control' control'' : Control} {depth : Nat}
  {s s' s'' rest : List Char} {x : Float} {e : FormulaError} {frame : Frame}
  {result : Except FormulaError (Float × List Char)}

/-- The machine returns with the outcome of the result, to the frames and with the counter that it began with;
    where there is a value, the rest of the result is ahead. -/
def ComesBack (look : String → Option Float) (control : Control) (depth : Nat) (s : List Char)
    (result : Except FormulaError (Float × List Char)) : Prop :=
  ∀ frames, ∃ rest,
    Runs look frames ⟨control, depth, s, frames⟩ ⟨.returned (result.map Prod.fst), depth, rest, frames⟩ ∧
      ∀ value, result = .ok value → rest = value.2

namespace ComesBack

theorem ok (h : ∀ frames, Runs look frames ⟨control, depth, s, frames⟩ ⟨.returned (.ok x), depth, rest, frames⟩) :
    ComesBack look control depth s (.ok (x, rest)) := by
  intro frames
  refine ⟨rest, h frames, fun value hvalue => ?_⟩
  rw [← Except.ok.inj hvalue]

theorem runs_ok (h : ComesBack look control depth s (.ok (x, rest))) (frames : List Frame) :
    Runs look frames ⟨control, depth, s, frames⟩ ⟨.returned (.ok x), depth, rest, frames⟩ := by
  obtain ⟨rest', hruns, hrest⟩ := h frames
  rw [hrest _ rfl] at hruns
  exact hruns

theorem error (h : ∀ frames, ∃ rest,
      Runs look frames ⟨control, depth, s, frames⟩ ⟨.returned (.error e), depth, rest, frames⟩) :
    ComesBack look control depth s (.error e) := by
  intro frames
  obtain ⟨rest, hruns⟩ := h frames
  exact ⟨rest, hruns, fun _ hvalue => nomatch hvalue⟩

theorem runs_error (h : ComesBack look control depth s (.error e)) (frames : List Frame) :
    ∃ rest, Runs look frames ⟨control, depth, s, frames⟩ ⟨.returned (.error e), depth, rest, frames⟩ := by
  obtain ⟨rest, hruns, -⟩ := h frames
  exact ⟨rest, hruns⟩

/-- One step that leaves the frames and the counter alone. -/
theorem next (hm : ∀ frames, (⟨control, depth, s, frames⟩ : Machine).step look =
      some ⟨control', depth, s', frames⟩) (h : ComesBack look control' depth s' result) :
    ComesBack look control depth s result := by
  intro frames
  obtain ⟨rest, hruns, hrest⟩ := h frames
  exact ⟨rest, .step (List.suffix_refl _) (hm frames) hruns, hrest⟩

theorem returned_ok : ComesBack look (.returned (.ok x)) depth s (.ok (x, s)) :=
  ok fun _ => .refl (List.suffix_refl _)

theorem returned_error : ComesBack look (.returned (.error e)) depth s (.error e) :=
  error fun _ => ⟨s, .refl (List.suffix_refl _)⟩

/-- What is called fails, and so does the caller. -/
theorem fails (hframe : frame.isNested = false)
    (hm : ∀ frames, (⟨control, depth, s, frames⟩ : Machine).step look =
      some ⟨control', depth, s', frame :: frames⟩)
    (h : ComesBack look control' depth s' (.error e)) : ComesBack look control depth s (.error e) := by
  refine error fun frames => ?_
  obtain ⟨rest, hruns⟩ := h.runs_error (frame :: frames)
  have hunder := Runs.under rfl (hm frames) hruns
  cases frame with
  | nested => cases hframe
  | _ => exact ⟨rest, hunder⟩

/-- What is called has a value, and the caller goes on with it. -/
theorem goesOn (hm : ∀ frames, (⟨control, depth, s, frames⟩ : Machine).step look =
      some ⟨control', depth, s', frame :: frames⟩)
    (hcall : ComesBack look control' depth s' (.ok (x, rest)))
    (hresume : ∀ frames, (⟨.returned (.ok x), depth, rest, frames⟩ : Machine).resume frame (.ok x) =
      ⟨control'', depth, s'', frames⟩)
    (h : ComesBack look control'' depth s'' result) : ComesBack look control depth s result := by
  intro frames
  obtain ⟨rest', hruns, hrest⟩ := h frames
  have hunder := Runs.under rfl (hm frames) (hcall.runs_ok (frame :: frames))
  rw [hresume] at hunder
  exact ⟨rest', hunder.trans hruns, hrest⟩

/-- Within the limit a nested call does what a call does one level deeper, and the counter goes back. -/
theorem nest {level : Level} (hd : ¬ maxDepth ≤ depth)
    (h : ComesBack look (.call (.due level)) (depth + 1) s result) :
    ComesBack look (.nest level) depth s result := by
  intro frames
  obtain ⟨rest, hruns, hrest⟩ := h (.nested :: frames)
  have hm : (⟨.nest level, depth, s, frames⟩ : Machine).step look =
      some ⟨.call (.due level), depth + 1, s, .nested :: frames⟩ := by
    simp only [Machine.step, Machine.nest, if_neg hd]
  exact ⟨rest, Runs.under rfl hm hruns, hrest⟩

theorem nest_deep {level : Level} (hd : maxDepth ≤ depth) :
    ComesBack look (.nest level) depth s (.error (.tooDeep maxDepth)) := by
  have hm : ∀ frames, (⟨.nest level, depth, s, frames⟩ : Machine).step look =
      some ⟨.returned (.error (.tooDeep maxDepth)), depth, s, frames⟩ := by
    intro frames
    simp only [Machine.step, Machine.nest, if_pos hd]
  exact next hm returned_error

end ComesBack

/-! ## Rule by rule -/

theorem operation?_eq_none {level : Level} (hs : Stops level s) : operation? level s = none := by
  cases s with
  | nil => rfl
  | cons c s =>
    have hnone : [Operation.add, .sub, .mul, .div].find?
        (fun op => decide (op.level = level ∧ c = op.mark)) = none := by
      rw [List.find?_eq_none]
      intro op _
      rw [decide_eq_true_eq]
      rintro ⟨hlevel, hmark⟩
      exact stops_cons.mp hs op hlevel hmark
    rw [operation?, hnone]

theorem operation?_mark (op : Operation) (s : List Char) :
    operation? op.level (op.mark :: s) = some (op, s) := by
  cases op <;> rfl

theorem step_due {level : Level} (hl : level ≠ .factor) (frames : List Frame) :
    (⟨.call (.due level), depth, s, frames⟩ : Machine).step look =
      some ⟨.call (.due level.tighter), depth, s, .first level :: frames⟩ := by
  cases level with
  | factor => exact absurd rfl hl
  | expression | term => rfl

theorem step_more_operation {op : Operation} (frames : List Frame) :
    (⟨.call (.more op.level x), depth, op.mark :: s, frames⟩ : Machine).step look =
      some ⟨.call (.due op.level.tighter), depth, s, .right op x :: frames⟩ := by
  simp only [Machine.step, Machine.call, operation?_mark]

theorem step_more_stop {level : Level} (hs : Stops level s) (frames : List Frame) :
    (⟨.call (.more level x), depth, s, frames⟩ : Machine).step look =
      some ⟨.returned (.ok x), depth, s, frames⟩ := by
  simp only [Machine.step, Machine.call, operation?_eq_none hs]

theorem step_factor_literal {c : Char} (hc : isLiteralChar c = true) (frames : List Frame) :
    (⟨.call (.due .factor), depth, c :: s, frames⟩ : Machine).step look =
      some ⟨.returned (literalValue ((c :: s).takeWhile isLiteralChar)), depth,
        (c :: s).dropWhile isLiteralChar, frames⟩ := by
  simp only [Machine.step, Machine.call, Machine.factor, hc, if_true]

theorem step_factor_name {c : Char} (hc : c.isAlpha = true) (frames : List Frame) :
    (⟨.call (.due .factor), depth, c :: s, frames⟩ : Machine).step look =
      some ⟨.returned
          (match look (String.ofList ((c :: s).takeWhile Char.isAlpha)) with
            | none => .error (.undefinedName (String.ofList ((c :: s).takeWhile Char.isAlpha)))
            | some value => .ok value),
        depth, (c :: s).dropWhile Char.isAlpha, frames⟩ := by
  have hopen : c ≠ '(' := by rintro rfl; revert hc; decide
  simp only [Machine.step, Machine.call, Machine.factor, isLiteralChar_of_isAlpha hc, Bool.false_eq_true,
    if_false, if_neg hopen, hc, if_true]

theorem step_factor_other {c : Char} (hc : beginsFactor c = false) (frames : List Frame) :
    (⟨.call (.due .factor), depth, c :: s, frames⟩ : Machine).step look =
      some ⟨.returned (.error (.unexpectedCharacter c)), depth, c :: s, frames⟩ := by
  simp only [beginsFactor, isOperandChar, Bool.or_eq_false_iff, beq_eq_false_iff_ne] at hc
  obtain ⟨⟨⟨halpha, hliteral⟩, hopen⟩, hminus⟩ := hc
  simp only [Machine.step, Machine.call, Machine.factor, hliteral, halpha, Bool.false_eq_true, if_false,
    if_neg hopen, if_neg hminus]

theorem step_factor_group (frames : List Frame) :
    (⟨.call (.due .factor), depth, '(' :: s, frames⟩ : Machine).step look =
      some ⟨.nest .expression, depth, s, .closing :: frames⟩ := rfl

theorem step_factor_minus (frames : List Frame) :
    (⟨.call (.due .factor), depth, '-' :: s, frames⟩ : Machine).step look =
      some ⟨.nest .factor, depth, s, .negated :: frames⟩ := rfl

theorem resume_closing (frames : List Frame) :
    (⟨.returned (.ok x), depth, ')' :: rest, frames⟩ : Machine).resume .closing (.ok x) =
      ⟨.returned (.ok x), depth, rest, frames⟩ := rfl

theorem resume_closing_other (hrest : rest.head? ≠ some ')') (frames : List Frame) :
    (⟨.returned (.ok x), depth, rest, frames⟩ : Machine).resume .closing (.ok x) =
      ⟨.returned (.error .unclosedGroup), depth, rest.tail, frames⟩ := by
  simp only [Machine.resume, if_neg hrest]

/-- **The machine does what the descent does.** -/
theorem Returns.comesBack {rule : Rule} (h : Returns look rule depth s result) :
    ComesBack look (.call rule) depth s result := by
  induction h with
  | stop hs => exact .next (step_more_stop hs) .returned_ok
  | operandFails _ ihy => exact .fails rfl step_more_operation ihy
  | again _ _ ihy ih => exact .goesOn step_more_operation ihy (fun _ => rfl) ih
  | firstFails hl _ ihx => exact .fails rfl (step_due hl) ihx
  | first hl _ _ ihx ih => exact .goesOn (step_due hl) ihx (fun _ => rfl) ih
  | missing => exact .next (fun _ => rfl) .returned_error
  | malformed hc he =>
    refine .next (step_factor_literal hc) ?_
    rw [he]
    exact .returned_error
  | literal hc hx =>
    refine .next (step_factor_literal hc) ?_
    rw [hx]
    exact .returned_ok
  | undefined hc hx =>
    refine .next (step_factor_name hc) ?_
    rw [hx]
    exact .returned_error
  | name hc hx =>
    refine .next (step_factor_name hc) ?_
    rw [hx]
    exact .returned_ok
  | deep hc hd =>
    rcases hc with rfl | rfl
    · exact .fails rfl step_factor_group (.nest_deep hd)
    · exact .fails rfl step_factor_minus (.nest_deep hd)
  | insideFails hd _ ihx => exact .fails rfl step_factor_group (.nest hd ihx)
  | unclosed hd hrest _ ihx =>
    exact .goesOn step_factor_group (.nest hd ihx) (resume_closing_other hrest) .returned_error
  | group hd _ ihx => exact .goesOn step_factor_group (.nest hd ihx) resume_closing .returned_ok
  | negatedFails hd _ ihx => exact .fails rfl step_factor_minus (.nest hd ihx)
  | negation hd _ ihx => exact .goesOn step_factor_minus (.nest hd ihx) (fun _ => rfl) .returned_ok
  | unexpected hc => exact .next (step_factor_other hc) .returned_error

/-- What the outcome of the expression and what is left behind it say about a whole text. -/
def wholeValue (outcome : Except FormulaError Float) (rest : List Char) : Except FormulaError Float :=
  match outcome, rest with
  | .error e, _ => .error e
  | .ok value, [] => .ok value
  | .ok _, c :: _ => .error (.unexpectedCharacter c)

/-- **On a whole text** the machine ends, and with the value of the text. -/
theorem Machine.runs_start (look : String → Option Float) (text : String) :
    ∃ outcome rest, Runs look [] (Machine.start text) ⟨.returned outcome, 0, rest, []⟩ ∧
      wholeValue outcome rest = valueOf look text := by
  obtain ⟨rest, hruns, hrest⟩ :=
    (@returns_read look (.due .expression) 0 (strip text.toList)).comesBack []
  refine ⟨_, rest, hruns, ?_⟩
  rw [valueOf_eq]
  cases hread : read look (.due .expression) 0 (strip text.toList) with
  | error e => rfl
  | ok value =>
    obtain ⟨x, rest'⟩ := value
    obtain rfl := hrest _ hread
    cases rest <;> rfl

end Reckoner.Evaluation
