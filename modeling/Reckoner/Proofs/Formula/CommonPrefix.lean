import Reckoner.Proofs.Formula.Failures

/-!
# Texts that begin alike

Two texts are alike up to and including a character `c`, and differ behind it in any way. One character of
lookahead decides where the descent stops, so up to `c` it does the same in front of both, whatever values
the names have:

* `stops_alike` — what stops in front of `c`, or before it, on one text stops there on the other, or fails.
* `Called.transfer` — what is called in front of `c`, or before it, on one text is called there on the other,
  or the evaluation of the other fails.
* `Raises.hopeless` — where an evaluation fails at `c`, no text that begins alike has a value.
-/

set_option autoImplicit false

namespace Reckoner.Evaluation

variable {look look' : String → Option Float} {c : Char} {q r : List Char}

/-! ## Successful readings, in parts -/

theorem read_due_eq_ok {level : Level} (hl : level ≠ .factor) {depth : Nat} {s rest : List Char} {x : Float}
    (h : read look (.due level) depth s = .ok (x, rest)) :
    ∃ y mid, read look (.due level.tighter) depth s = .ok (y, mid) ∧
      read look (.more level y) depth mid = .ok (x, rest) := by
  rw [read_due hl] at h
  split at h
  · cases h
  · rename_i y mid hy
    exact ⟨y, mid, hy, h⟩

theorem read_more_operation_eq_ok {op : Operation} {depth : Nat} {s rest : List Char} {x y : Float}
    (h : read look (.more op.level x) depth (op.mark :: s) = .ok (y, rest)) :
    ∃ z mid, read look (.due op.level.tighter) depth s = .ok (z, mid) ∧
      read look (.more op.level (op.apply x z)) depth mid = .ok (y, rest) := by
  rw [read_more_operation] at h
  split at h
  · cases h
  · rename_i z mid hz
    exact ⟨z, mid, hz, h⟩

theorem read_factor_group_eq_ok {depth : Nat} {s rest : List Char} {x : Float}
    (h : read look (.due .factor) depth ('(' :: s) = .ok (x, rest)) :
    read look (.due .expression) (depth + 1) s = .ok (x, ')' :: rest) := by
  rw [read_factor_group] at h
  split at h
  · cases h
  · split at h
    · cases h
    · cases h
    · rename_i d tail hx
      split at h
      · rename_i hclose
        cases h
        rw [hx, hclose]
      · cases h

theorem read_factor_minus_eq_ok {depth : Nat} {s rest : List Char} {x : Float}
    (h : read look (.due .factor) depth ('-' :: s) = .ok (x, rest)) :
    ∃ y, read look (.due .factor) (depth + 1) s = .ok (y, rest) := by
  rw [read_factor_minus] at h
  split at h
  · cases h
  · split at h
    · cases h
    · rename_i y tail hy
      cases h
      exact ⟨y, hy⟩

theorem read_factor_literal_eq_ok {depth : Nat} {d : Char} {s rest : List Char} {x : Float}
    (hd : isLiteralChar d = true) (h : read look (.due .factor) depth (d :: s) = .ok (x, rest)) :
    rest = (d :: s).dropWhile isLiteralChar := by
  rw [read_factor_literal hd] at h
  split at h
  · cases h
  · cases h
    rfl

theorem read_factor_name_eq_ok {depth : Nat} {d : Char} {s rest : List Char} {x : Float}
    (hd : d.isAlpha = true) (h : read look (.due .factor) depth (d :: s) = .ok (x, rest)) :
    rest = (d :: s).dropWhile Char.isAlpha := by
  rw [read_factor_name hd] at h
  split at h
  · cases h
  · cases h
    rfl

/-! ## Where reading stops -/

/-- The rule with another value so far. -/
def Rule.withValue (rule : Rule) (y : Float) : Rule :=
  match rule with
  | .due level => .due level
  | .more level _ => .more level y

@[simp] theorem Rule.withValue_due (level : Level) (y : Float) : (Rule.due level).withValue y = .due level :=
  rfl

@[simp] theorem Rule.withValue_more (level : Level) (x y : Float) :
    (Rule.more level x).withValue y = .more level y :=
  rfl

/-- In front of a text that begins with `u`, and goes on with `a` and `c`, the rule reads `u` and no more, if
    it does not fail. -/
def StopsBehind (look : String → Option Float) (rule : Rule) (depth : Nat) (u a : List Char) (c : Char)
    (r : List Char) : Prop :=
  ∀ y z rest, read look (rule.withValue y) depth (u ++ (a ++ c :: r)) = .ok (z, rest) → rest = a ++ c :: r

/-- An operand that is the longest run of `p` characters is the same run in front of both texts. -/
theorem stopsBehind_run {p : Char → Bool} {depth : Nat} {d : Char} {s a : List Char} (hd : p d = true)
    (hrest : (d :: s).dropWhile p = a ++ c :: q)
    (hread : ∀ look s' z rest, read look (.due .factor) depth (d :: s') = .ok (z, rest) →
      rest = (d :: s').dropWhile p) :
    ∃ u, d :: s = u ++ (a ++ c :: q) ∧ ∀ look r, StopsBehind look (.due .factor) depth u a c r := by
  refine ⟨(d :: s).takeWhile p, by rw [← hrest, List.takeWhile_append_dropWhile],
    fun look r y z rest h => ?_⟩
  have hcut := (run_of_beginsAlike hrest (beginsAlike_cons c r q)).2
  rw [List.takeWhile_cons_of_pos hd, List.cons_append] at hcut h
  rw [hread look _ z rest h, hcut]

theorem Returns.stops_alike {rule : Rule} {depth : Nat} {s : List Char}
    {result : Except FormulaError (Float × List Char)} (h : Returns look rule depth s result) {x : Float}
    {a : List Char} (hresult : result = .ok (x, a ++ c :: q)) :
    ∃ u, s = u ++ (a ++ c :: q) ∧ ∀ look' r, StopsBehind look' rule depth u a c r := by
  induction h generalizing x a with
  | @stop level depth s _ hs =>
    cases hresult
    refine ⟨[], rfl, fun look' r y z rest h => ?_⟩
    rw [List.nil_append, Rule.withValue_more, read_more_stop (((beginsAlike_cons c r q).append a).stops hs)] at h
    cases h
    rfl
  | @again op _ _ _ _ _ _ _ _ ihy ih =>
    obtain ⟨u₂, rfl, hrest⟩ := ih hresult
    obtain ⟨u₁, rfl, hmid⟩ := ihy (a := u₂ ++ a) (by rw [List.append_assoc])
    refine ⟨op.mark :: (u₁ ++ u₂), by simp, fun look' r y z rest h => ?_⟩
    have htext : op.mark :: (u₁ ++ u₂) ++ (a ++ c :: r) = op.mark :: (u₁ ++ (u₂ ++ a ++ c :: r)) := by simp
    rw [Rule.withValue_more, htext] at h
    obtain ⟨w, mid, hw, hlater⟩ := read_more_operation_eq_ok h
    obtain rfl := hmid look' r y w mid hw
    rw [List.append_assoc] at hlater
    exact hrest look' r _ z rest hlater
  | @first level _ _ _ _ _ hl _ _ ihx ih =>
    obtain ⟨u₂, rfl, hrest⟩ := ih hresult
    obtain ⟨u₁, rfl, hmid⟩ := ihx (a := u₂ ++ a) (by rw [List.append_assoc])
    refine ⟨u₁ ++ u₂, by simp, fun look' r y z rest h => ?_⟩
    have htext : u₁ ++ u₂ ++ (a ++ c :: r) = u₁ ++ (u₂ ++ a ++ c :: r) := by simp
    rw [Rule.withValue_due, htext] at h
    obtain ⟨w, mid, hw, hlater⟩ := read_due_eq_ok hl h
    obtain rfl := hmid look' r y w mid hw
    rw [List.append_assoc] at hlater
    exact hrest look' r _ z rest hlater
  | literal hd _ =>
    exact stopsBehind_run hd (congrArg Prod.snd (Except.ok.inj hresult))
      fun _ _ _ _ h => read_factor_literal_eq_ok hd h
  | name hd _ =>
    exact stopsBehind_run hd (congrArg Prod.snd (Except.ok.inj hresult))
      fun _ _ _ _ h => read_factor_name_eq_ok hd h
  | group hd _ ihx =>
    cases hresult
    obtain ⟨u, rfl, hinner⟩ := ihx (a := ')' :: a) rfl
    refine ⟨'(' :: (u ++ [')']), by simp, fun look' r y z rest h => ?_⟩
    have htext : '(' :: (u ++ [')']) ++ (a ++ c :: r) = '(' :: (u ++ (')' :: a ++ c :: r)) := by simp
    rw [Rule.withValue_due, htext] at h
    exact (List.cons.inj (hinner look' r y z _ (read_factor_group_eq_ok h))).2
  | negation hd _ ihx =>
    cases hresult
    obtain ⟨u, rfl, hoperand⟩ := ihx rfl
    refine ⟨'-' :: u, by simp, fun look' r y z rest h => ?_⟩
    obtain ⟨w, hw⟩ := read_factor_minus_eq_ok h
    exact hoperand look' r y w rest hw
  | _ => cases hresult

/-- **One character of lookahead decides where reading stops.** -/
theorem stops_alike {level : Level} {depth : Nat} {u a : List Char} {x : Float}
    (h : read look (.due level) depth (u ++ (a ++ c :: q)) = .ok (x, a ++ c :: q)) {z : Float}
    {rest : List Char} (h' : read look' (.due level) depth (u ++ (a ++ c :: r)) = .ok (z, rest)) :
    rest = a ++ c :: r := by
  obtain ⟨u', hu, hstops⟩ := (returns_read (.due level) depth _).stops_alike h
  obtain rfl := List.append_cancel_right hu
  exact hstops look' r 0 z rest h'

/-! ## What is called -/

/-- If an evaluation succeeds, so do all its calls. -/
theorem Called.succeeds {text p s : List Char} {rule : Rule} {depth : Nat}
    (h : Called look text rule depth p s) {v : Float} {rest : List Char}
    (hok : read look (.due .expression) 0 text = .ok (v, rest)) :
    ∃ y mid, read look rule depth s = .ok (y, mid) := by
  cases hread : read look rule depth s with
  | error e =>
    rw [h.propagates hread] at hok
    cases hok
  | ok result => exact ⟨result.1, result.2, rfl⟩

/-- **What is called up to a character is called on every text that begins alike**, if the evaluation of
    that text succeeds. -/
theorem Called.transfer {text text' b s : List Char} {rule : Rule} {depth : Nat}
    (h : Called look text rule depth b s) {a : List Char} (hs : s = a ++ c :: q)
    (htext : b ++ (a ++ c :: r) = text') {v : Float} {rest : List Char}
    (hok : read look' (.due .expression) 0 text' = .ok (v, rest)) :
    ∃ y, Called look' text' (rule.withValue y) depth b (a ++ c :: r) := by
  induction h generalizing a with
  | start =>
    refine ⟨0, ?_⟩
    rw [← htext]
    exact .start
  | first hl _ ih =>
    obtain ⟨y, hcall⟩ := ih hs htext
    exact ⟨y, .first hl hcall⟩
  | @loop level depth p u s x hl _ hx ih =>
    subst hs
    obtain ⟨y, hcall⟩ := ih (a := u ++ a) (by simp) (by simpa using htext)
    rw [List.append_assoc] at hcall
    obtain ⟨z, mid, hz⟩ := (Called.first hl hcall).succeeds hok
    obtain rfl := stops_alike hx hz
    exact ⟨z, .loop hl hcall hz⟩
  | @operand op depth p s x _ ih =>
    subst hs
    obtain ⟨y, hcall⟩ := ih (a := op.mark :: a) rfl (by simpa using htext)
    exact ⟨0, .operand hcall⟩
  | @again op depth p u s x y _ hy ih =>
    subst hs
    obtain ⟨w, hcall⟩ := ih (a := op.mark :: (u ++ a)) (by simp) (by simpa using htext)
    rw [Rule.withValue_more, List.cons_append, List.append_assoc] at hcall
    obtain ⟨z, mid, hz⟩ := hcall.operand.succeeds hok
    obtain rfl := stops_alike hy hz
    exact ⟨op.apply w z, .again hcall hz⟩
  | group hd _ ih =>
    subst hs
    obtain ⟨y, hcall⟩ := ih (a := '(' :: a) rfl (by simpa using htext)
    exact ⟨0, .group hd hcall⟩
  | negation hd _ ih =>
    subst hs
    obtain ⟨y, hcall⟩ := ih (a := '-' :: a) rfl (by simpa using htext)
    exact ⟨0, .negation hd hcall⟩

/-- **Where an evaluation fails at a character, no text that begins alike has a value.** -/
theorem Raises.hopeless {text p : List Char} {e : FormulaError} (h : Raises look text e p (c :: q))
    (he : (∃ d, e = .unexpectedCharacter d) ∨ e = .unclosedGroup) (look' : String → Option Float)
    (r : List Char) (v : Float) :
    read look' (.due .expression) 0 (p ++ c :: r) ≠ .ok (v, []) := by
  intro hok
  generalize hahead : c :: q = ahead at h
  cases h with
  | missingOperand h => cases hahead
  | literal _ _ hv =>
    obtain ⟨-, flaw, rfl⟩ := literalValue_eq_error (fun _ hd => List.mem_takeWhile_imp hd) hv
    simp at he
  | name _ _ _ | deep _ _ _ => simp at he
  | character hc h =>
    cases hahead
    obtain ⟨y, hcall⟩ := h.transfer (a := []) rfl rfl hok
    obtain ⟨z, mid, hz⟩ := hcall.succeeds hok
    rw [Rule.withValue_due, List.nil_append, read_factor_other hc] at hz
    cases hz
  | @unclosed depth p u s x hs hd h hx =>
    subst hahead
    obtain ⟨y, hcall⟩ := h.transfer (a := '(' :: u) (r := r) rfl (by simp) hok
    obtain ⟨z, mid, hz⟩ := hcall.succeeds hok
    have hclose := stops_alike (a := []) hx (read_factor_group_eq_ok hz)
    exact hs (congrArg some (List.cons.inj hclose).1.symm)
  | trailing htext hx =>
    cases hahead
    subst htext
    have hrest := stops_alike (a := []) hx hok
    cases hrest

end Reckoner.Evaluation
