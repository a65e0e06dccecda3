import Reckoner.Proofs.Formula.Failures

/-!
# Completing what has been read

Whatever the descent has read when it calls a rule can be completed to a text that has a value: with an
operand if one is due, and with the closing parentheses of the groups that are open.

* `Completable look p level depth` — any operand of the level that has a value at this depth may be written
  behind `p`.
* `Called.completable` — this holds in front of every operand that is due, and behind an operand for what is
  in front of it. By induction on the calls.
* `Raises.hasCompletion` — where the evaluation fails for a character that cannot follow, for a group that is
  not closed or for the end of the text, what has been read can be completed.
-/

set_option autoImplicit false

namespace Reckoner.Evaluation

variable {look : String → Option Float} {text p r s : List Char} {level : Level} {depth : Nat} {x y : Float}

/-- What is read from the front of a text could be the whole text. -/
theorem reads_append_iff {rest : List Char} :
    Reads look level depth (r ++ rest) x rest ↔ Reads look level depth r x [] := by
  unfold Reads
  refine exists₂_congr fun ts t => and_congr_right fun _ => and_congr_right fun _ => and_congr_left fun _ => ?_
  rw [List.append_nil]
  exact List.append_left_inj rest

/-- Some text that begins with `p` has a value. -/
def HasCompletion (look : String → Option Float) (p : List Char) : Prop :=
  ∃ r v, p <+: r ∧ Reads look .expression 0 r v []

theorem HasCompletion.shorten (h : HasCompletion look r) (hp : p <+: r) : HasCompletion look p := by
  obtain ⟨r', v, hr, hv⟩ := h
  exact ⟨r', v, hp.trans hr, hv⟩

/-- Any operand of the level that has a value at this depth may be written behind `p`. -/
def Completable (look : String → Option Float) (p : List Char) (level : Level) (depth : Nat) : Prop :=
  ∀ r v, Reads look level depth r v [] → HasCompletion look (p ++ r)

/-- At the end of `p` an operand of the level has been read, and any other could be in its place. -/
def Continuable (look : String → Option Float) (p : List Char) (level : Level) (depth : Nat) (x : Float) :
    Prop :=
  ∃ p₀ r, p = p₀ ++ r ∧ Completable look p₀ level depth ∧ Reads look level depth r x []

namespace Completable

theorem tighter (hl : level ≠ .factor) (h : Completable look p level depth) :
    Completable look p level.tighter depth :=
  fun r v hr => h r v (hr.loosen hl)

theorem group (hd : ¬ maxDepth ≤ depth) (h : Completable look p .factor depth) :
    Completable look (p ++ ['(']) .expression (depth + 1) := by
  intro r v hr
  have hclosed : Reads look .factor depth ('(' :: (r ++ [')'])) v [] :=
    .group hd (reads_append_iff.mpr hr)
  exact (h _ v hclosed).shorten ⟨[')'], by simp⟩

theorem negation (hd : ¬ maxDepth ≤ depth) (h : Completable look p .factor depth) :
    Completable look (p ++ ['-']) .factor (depth + 1) := by
  intro r v hr
  rw [List.append_assoc]
  exact h _ _ (.negation hd hr)

theorem read (hl : level ≠ .factor) (h : Completable look p level depth)
    (hr : Reads look level.tighter depth (r ++ s) x s) : Continuable look (p ++ r) level depth x :=
  ⟨p, r, rfl, h, (reads_append_iff.mp hr).loosen hl⟩

end Completable

namespace Continuable

variable {op : Operation}

theorem operand (h : Continuable look p op.level depth x) :
    Completable look (p ++ [op.mark]) op.level.tighter depth := by
  obtain ⟨p₀, l, rfl, hcompletable, hl⟩ := h
  intro r v hr
  have hchain : Reads look op.level depth (l ++ op.mark :: r) (op.apply x v) [] :=
    .chain (reads_append_iff.mpr hl) hr
  simpa using hcompletable _ _ hchain

theorem again (h : Continuable look p op.level depth x)
    (hr : Reads look op.level.tighter depth (r ++ s) y s) :
    Continuable look (p ++ op.mark :: r) op.level depth (op.apply x y) := by
  obtain ⟨p₀, l, rfl, hcompletable, hl⟩ := h
  exact ⟨p₀, l ++ op.mark :: r, by simp, hcompletable,
    .chain (reads_append_iff.mpr hl) (reads_append_iff.mp hr)⟩

end Continuable

/-- **What has been read when a rule is called can be completed.** -/
theorem Called.completable {rule : Rule} (h : Called look text rule depth p s) :
    match rule with
    | .due level => Completable look p level depth
    | .more level x => Continuable look p level depth x := by
  induction h with
  | start => exact fun r v hr => ⟨r, v, List.prefix_rfl, hr⟩
  | first hl _ ih => exact ih.tighter hl
  | loop hl _ hx ih => exact ih.read hl (reads_of_read hx)
  | operand _ ih => exact ih.operand
  | again _ hy ih => exact ih.again (reads_of_read hy)
  | group hd _ ih => exact ih.group hd
  | negation hd _ ih => exact ih.negation hd

/-- A literal has its value at every depth, so it may be written where any operand is due. -/
theorem exists_reads_literal (look : String → Option Float) (depth : Nat) :
    ∃ v, Reads look .factor depth ['1'] v [] := by
  obtain ⟨v, hv⟩ : ∃ v, Decimal.read ['1'] = .ok v :=
    (Decimal.read_isOk_iff (List.all_eq_true.mp rfl)).mpr rfl
  refine ⟨v, ?_⟩
  have hliteral : literalValue ['1'] = .ok v := by
    unfold literalValue
    rw [hv]
  exact .literal (c := '1') (s := []) (by decide) hliteral

theorem Completable.hasCompletion (h : Completable look p .factor depth) : HasCompletion look p := by
  obtain ⟨v, hv⟩ := exists_reads_literal look depth
  exact (h _ v hv).shorten (List.prefix_append p ['1'])

/-- **Where the evaluation fails for what comes next, what has been read can be completed.** -/
theorem Raises.hasCompletion {e : FormulaError} (h : Raises look text e p s)
    (he : (∃ c, e = .unexpectedCharacter c) ∨ e = .unclosedGroup ∨ e = .unexpectedEnd) :
    HasCompletion look p := by
  cases h with
  | missingOperand h => exact Completable.hasCompletion h.completable
  | literal _ _ hv =>
    obtain ⟨-, flaw, rfl⟩ := literalValue_eq_error (fun _ hd => List.mem_takeWhile_imp hd) hv
    simp at he
  | name _ _ _ | deep _ _ _ => simp at he
  | character _ h => exact Completable.hasCompletion h.completable
  | unclosed _ hd h hx =>
    have hinside := (h.group hd).completable _ _ (reads_append_iff.mp (reads_of_read hx))
    simpa using hinside
  | trailing htext hx =>
    subst htext
    exact ⟨_, _, List.prefix_rfl, reads_append_iff.mp (reads_of_read hx)⟩

end Reckoner.Evaluation
