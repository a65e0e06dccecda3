import Reckoner.Proofs.Formula.Derivation
import Reckoner.Proofs.Formula.Returns

/-!
# The descent reads the grammar

* `reads_of_read` — what the descent reads successfully is a derivation, and the value it returns is that
  of the tree.
* `read_join` — in front of a derivation the descent does what its tree computes, failures included.
  `read_of_reads` — so what is derived is read.
* `valueOf_of_derives`, `valueOf_eq_ok_iff` — the same for whole texts: the value of a text is the value of
  its derivation.
-/

set_option autoImplicit false

namespace Reckoner.Evaluation

variable {look : String → Option Float} {depth : Nat}

/-! ## Soundness -/

/-- The text from `s` up to `rest` derives from the rule of the level, and its tree has this value. -/
def Reads (look : String → Option Float) (level : Level) (depth : Nat) (s : List Char) (value : Float)
    (rest : List Char) : Prop :=
  ∃ ts t, Derives level ts t ∧ WellFormed ts ∧ s = Token.join ts ++ rest ∧
    t.compute look depth = .ok value

namespace Reads

variable {level : Level} {s rest : List Char} {value : Float}

theorem loosen (hl : level ≠ .factor) (h : Reads look level.tighter depth s value rest) :
    Reads look level depth s value rest := by
  obtain ⟨ts, t, hd, hrest⟩ := h
  refine ⟨ts, t, ?_, hrest⟩
  cases level with
  | factor => exact absurd rfl hl
  | term => exact hd.term
  | expression => exact hd.expression

theorem toExpression (h : Reads look level depth s value rest) :
    Reads look .expression depth s value rest := by
  obtain ⟨ts, t, hd, hrest⟩ := h
  exact ⟨ts, t, hd.toExpression, hrest⟩

theorem chain {op : Operation} {s₀ : List Char} {x y : Float}
    (hl : Reads look op.level depth s₀ x (op.mark :: s))
    (hr : Reads look op.level.tighter depth s y rest) :
    Reads look op.level depth s₀ (op.apply x y) rest := by
  obtain ⟨ls, l, hdl, hwl, rfl, hx⟩ := hl
  obtain ⟨rs, r, hdr, hwr, rfl, hy⟩ := hr
  refine ⟨_, _, .chain hdl hdr, wellFormed_chain.mpr ⟨hwl, hwr⟩, (join_chain op ls rs rest).symm, ?_⟩
  rw [Tree.compute, hx, hy]

theorem group (hd : ¬ maxDepth ≤ depth)
    (h : Reads look .expression (depth + 1) s value (')' :: rest)) :
    Reads look .factor depth ('(' :: s) value rest := by
  obtain ⟨ts, t, ht, hw, rfl, hv⟩ := h
  refine ⟨_, _, .group ht, wellFormed_group.mpr hw, (join_group ts rest).symm, ?_⟩
  rw [Tree.compute, if_neg hd, hv]

theorem negation (hd : ¬ maxDepth ≤ depth) (h : Reads look .factor (depth + 1) s value rest) :
    Reads look .factor depth ('-' :: s) (-value) rest := by
  obtain ⟨ts, t, ht, hw, rfl, hv⟩ := h
  refine ⟨_, _, .negation ht, wellFormed_negation.mpr hw, (join_negation ts rest).symm, ?_⟩
  rw [Tree.compute, if_neg hd, hv]

theorem literal {c : Char} (hc : isLiteralChar c = true)
    (hv : literalValue ((c :: s).takeWhile isLiteralChar) = .ok value) :
    Reads look .factor depth (c :: s) value ((c :: s).dropWhile isLiteralChar) := by
  refine ⟨_, _, .literal ((c :: s).takeWhile isLiteralChar), ?_, ?_, hv⟩
  · intro t ht
    rw [List.mem_singleton.mp ht]
    exact ⟨by simp [hc], fun d hd => List.mem_takeWhile_imp hd⟩
  · simp [Token.join, Token.text, List.takeWhile_append_dropWhile]

theorem name {c : Char} (hc : c.isAlpha = true)
    (hv : look (String.ofList ((c :: s).takeWhile Char.isAlpha)) = some value) :
    Reads look .factor depth (c :: s) value ((c :: s).dropWhile Char.isAlpha) := by
  refine ⟨_, _, .name ((c :: s).takeWhile Char.isAlpha), ?_, ?_, by rw [Tree.compute, hv]⟩
  · intro t ht
    rw [List.mem_singleton.mp ht]
    exact ⟨by simp [hc], fun d hd => List.mem_takeWhile_imp hd⟩
  · simp [Token.join, Token.text, List.takeWhile_append_dropWhile]

end Reads

/-- What is read is derived; a longer sum or product is told from where it began. -/
theorem Returns.reads {rule : Rule} {s : List Char} {result : Except FormulaError (Float × List Char)}
    (h : Returns look rule depth s result) {value : Float} {rest : List Char}
    (hresult : result = .ok (value, rest)) :
    match rule with
    | .due level => Reads look level depth s value rest
    | .more level x => ∀ s₀, Reads look level depth s₀ x s → Reads look level depth s₀ value rest := by
  induction h generalizing value rest with
  | stop _ =>
    intro s₀ h₀
    cases hresult
    exact h₀
  | again _ _ ihy ih =>
    intro s₀ h₀
    exact ih hresult s₀ (h₀.chain (ihy rfl))
  | first hl _ _ ihx ih => exact ih hresult _ ((ihx rfl).loosen hl)
  | literal hc hx =>
    cases hresult
    exact .literal hc hx
  | name hc hx =>
    cases hresult
    exact .name hc hx
  | group hd _ ihx =>
    cases hresult
    exact .group hd (ihx rfl)
  | negation hd _ ihx =>
    cases hresult
    exact .negation hd (ihx rfl)
  | _ => cases hresult

/-- **What is read is derived.** -/
theorem reads_of_read {level : Level} {s rest : List Char} {value : Float}
    (h : read look (.due level) depth s = .ok (value, rest)) : Reads look level depth s value rest :=
  (returns_read (.due level) depth s).reads h

/-! ## Completeness -/

theorem stops_factor (s : List Char) : Stops .factor s := by
  intro c _ op hop
  cases op <;> cases hop

theorem stops_tighter {level : Level} {rest : List Char} (h : level = .expression → Stops .term rest) :
    Stops level.tighter rest := by
  cases level with
  | expression => exact h rfl
  | term | factor => exact stops_factor rest

theorem stops_of_beginsWithout {level : Level} {c : Char} {rest : List Char}
    (h : ∀ op : Operation, c ≠ op.mark) : Stops level (c :: rest) :=
  stops_cons.mpr fun op _ => h op

theorem mark_ne_of_level_ne {op op' : Operation} (h : op.level ≠ op'.level) : op.mark ≠ op'.mark := by
  cases op <;> cases op' <;> first | exact absurd rfl h | decide

/-- A literal is read whole. -/
theorem read_literal_append {text rest : List Char} (hw : (Token.literal text).wellFormed)
    (hrest : BeginsWithout isOperandChar rest) :
    read look (.due .factor) depth (text ++ rest) =
      match literalValue text with
      | .error e => .error e
      | .ok value => .ok (value, rest) := by
  obtain ⟨hne, hc⟩ := hw
  have hr : BeginsWithout isLiteralChar rest := hrest.mono fun _ => isOperandChar_of_isLiteralChar
  have hrun := takeWhile_append_run hc hr
  have hleft := dropWhile_append_run hc hr
  cases text with
  | nil => exact absurd rfl hne
  | cons c s =>
    have hread := @read_factor_literal look depth c (s ++ rest) (hc c (by simp))
    rw [← List.cons_append, hrun, hleft] at hread
    exact hread

/-- A name is read whole. -/
theorem read_name_append {text rest : List Char} (hw : (Token.name text).wellFormed)
    (hrest : BeginsWithout isOperandChar rest) :
    read look (.due .factor) depth (text ++ rest) =
      match look (String.ofList text) with
      | none => .error (.undefinedName (String.ofList text))
      | some value => .ok (value, rest) := by
  obtain ⟨hne, hc⟩ := hw
  have hr : BeginsWithout Char.isAlpha rest := hrest.mono fun _ => isOperandChar_of_isAlpha
  have hrun := takeWhile_append_run hc hr
  have hleft := dropWhile_append_run hc hr
  cases text with
  | nil => exact absurd rfl hne
  | cons c s =>
    have hread := @read_factor_name look depth c (s ++ rest) (hc c (by simp))
    rw [← List.cons_append, hrun, hleft] at hread
    exact hread

/-- **In front of a derivation the descent computes its tree**, and then goes on behind it. The text that
    follows must not lengthen the last operand, nor, where a whole expression is due, its last term. -/
theorem read_join {level : Level} {ts : List Token} {t : Tree} (h : Derives level ts t)
    (hw : WellFormed ts) {rest : List Char} (hrest : BeginsWithout isOperandChar rest)
    (hterm : level = .expression → Stops .term rest) :
    read look (.due level) depth (Token.join ts ++ rest) =
      match t.compute look depth with
      | .error e => .error e
      | .ok value => read look (.more level value) depth rest := by
  induction h generalizing depth rest with
  | literal text =>
    rw [Token.join_cons, Token.join_nil, List.append_nil, Token.text, Tree.compute,
      read_literal_append (hw (.literal text) (by simp)) hrest]
    rfl
  | name text =>
    rw [Token.join_cons, Token.join_nil, List.append_nil, Token.text, Tree.compute,
      read_name_append (hw (.name text) (by simp)) hrest]
    cases look (String.ofList text) <;> rfl
  | group hinner ih =>
    have hclose : ∀ op : Operation, ')' ≠ op.mark := by intro op; cases op <;> decide
    rw [join_group, read_factor_group, Tree.compute]
    split
    · rfl
    · rw [ih (wellFormed_group.mp hw) (beginsWithout_cons.mpr (by decide))
        fun _ => stops_of_beginsWithout hclose]
      cases Tree.compute look _ (depth + 1) with
      | error e => rfl
      | ok value =>
        simp only
        rw [read_more_stop (stops_of_beginsWithout hclose)]
        simp [read]
  | negation _ ih =>
    rw [join_negation, read_factor_minus, Tree.compute]
    split
    · rfl
    · rw [ih (wellFormed_negation.mp hw) hrest fun hl => by cases hl]
      cases Tree.compute look _ (depth + 1) <;> rfl
  | term _ ih =>
    rw [read_due (by decide), Level.tighter, ih hw hrest fun hl => by cases hl]
    cases Tree.compute look _ depth <;> rfl
  | expression _ ih =>
    rw [read_due (by decide), Level.tighter, ih hw hrest fun hl => by cases hl]
    cases Tree.compute look _ depth with
    | error e => rfl
    | ok value =>
      simp only
      rw [read_more_stop (hterm rfl)]
  | @chain op ls rs l r _ _ ihl ihr =>
    obtain ⟨hwl, hwr⟩ := wellFormed_chain.mp hw
    have hmark : op.level = .expression →
        ∀ op' : Operation, op'.level = .term → op.mark ≠ op'.mark :=
      fun hl op' hl' => mark_ne_of_level_ne (by rw [hl, hl']; decide)
    rw [join_chain, ihl hwl (beginsWithout_cons.mpr (isOperandChar_mark op))
      fun hl => stops_cons.mpr (hmark hl), Tree.compute]
    cases l.compute look depth with
    | error e => rfl
    | ok x =>
      simp only
      rw [read_more_operation, ihr hwr hrest fun hl => by cases op <;> cases hl]
      cases r.compute look depth with
      | error e => rfl
      | ok y =>
        simp only
        rw [read_more_stop (stops_tighter hterm)]

/-- What is derived is read, if the text that follows does not lengthen it. -/
theorem read_of_reads {level : Level} {s rest : List Char} {value : Float}
    (h : Reads look level depth s value rest) (hrest : BeginsWithout isOperandChar rest)
    (hlevel : Stops level rest) (hterm : level = .expression → Stops .term rest) :
    read look (.due level) depth s = .ok (value, rest) := by
  obtain ⟨ts, t, hd, hw, rfl, hv⟩ := h
  rw [read_join hd hw hrest hterm, hv]
  exact read_more_stop hlevel value

/-- **The value of a derivation's text is what its tree computes**, failures included. -/
theorem valueOf_of_derives {text : String} {ts : List Token} {t : Tree}
    (h : Derives .expression ts t) (hw : WellFormed ts) (hs : strip text.toList = Token.join ts) :
    valueOf look text = t.compute look 0 := by
  have hread : read look (.due .expression) 0 (Token.join ts ++ []) = _ :=
    read_join h hw beginsWithout_nil fun _ => stops_nil .term
  rw [List.append_nil] at hread
  rw [valueOf_eq, hs, hread]
  cases t.compute look 0 with
  | error e => rfl
  | ok value =>
    simp only
    rw [read_more_stop (stops_nil _)]

/-- **A text has a value exactly if it is derived and its tree has that value.** -/
theorem valueOf_eq_ok_iff {text : String} {v : Float} :
    valueOf look text = .ok v ↔ ∃ ts t, Derives .expression ts t ∧ WellFormed ts ∧
      strip text.toList = Token.join ts ∧ t.compute look 0 = .ok v := by
  constructor
  · intro h
    rw [valueOf_eq] at h
    split at h
    · cases h
    · rename_i hread
      cases h
      obtain ⟨ts, t, hd, hw, hs, hv⟩ := reads_of_read hread
      exact ⟨ts, t, hd, hw, by simpa using hs, hv⟩
    · cases h
  · rintro ⟨ts, t, hd, hw, hs, hv⟩
    rw [valueOf_of_derives hd hw hs, hv]

end Reckoner.Evaluation
