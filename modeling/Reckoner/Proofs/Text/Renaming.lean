import Mathlib.Data.List.Basic
import Reckoner.Proofs.Text.Neighbours
import Reckoner.Proofs.Text.Replacement

/-!
# Putting runs for runs

`KeepsRuns p f` says that `f` puts a run of `p` characters for a run of them. The text with `f w` in place of
each run `w` then has the same shape as the text: it is cut at the same places by every class of characters that
holds all `p` characters or none, `Uniform p q`.

* `runs_replaceRuns` — the runs are those that were put.
* `takeWhile_replaceRuns`, `dropWhile_replaceRuns` — what a uniform class cuts off is cut off here as well.
* `trimBlanks_replaceRuns`, `strip_replaceRuns` — it makes no difference whether blanks are left out before or
  after, unless this glues two runs together.
* `renameText` — a text with other names.
-/

set_option autoImplicit false

namespace Reckoner

/-- For a run another run is put. -/
def KeepsRuns (p : Char → Bool) (f : List Char → List Char) : Prop :=
  ∀ w, w ≠ [] → (∀ c ∈ w, p c = true) → f w ≠ [] ∧ ∀ c ∈ f w, p c = true

/-- The class `q` does not tell `p` characters apart. -/
def Uniform (p q : Char → Bool) : Prop :=
  (∀ c, p c = true → q c = true) ∨ ∀ c, p c = true → q c = false

variable {p q : Char → Bool} {f : List Char → List Char} {s : List Char}

theorem replaceRuns_eq_nil_iff (hf : KeepsRuns p f) : replaceRuns p f s = [] ↔ s = [] := by
  cases s using runInduction p with
  | nil => simp
  | other c s hc => simp [replaceRuns_cons_of_not _ hc]
  | run w s hne hw hs => simp [replaceRuns_append_run hne hw hs, hne, (hf w hne hw).1]

theorem exists_head_of_run {w : List Char} (hne : w ≠ []) (hw : ∀ c ∈ w, p c = true) (t : List Char) :
    ∃ d, (w ++ t).head? = some d ∧ p d = true := by
  obtain ⟨d, w, rfl⟩ := List.exists_cons_of_ne_nil hne
  exact ⟨d, rfl, hw d List.mem_cons_self⟩

/-- No character outside `p` comes to the front, and none goes. -/
theorem head?_replaceRuns_eq_some_iff (hf : KeepsRuns p f) {c : Char} (hc : p c = false) :
    (replaceRuns p f s).head? = some c ↔ s.head? = some c := by
  cases s using runInduction p with
  | nil => rfl
  | other d s hd => rw [replaceRuns_cons_of_not _ hd]; rfl
  | run w s hne hw hs =>
    obtain ⟨d, hd, hpd⟩ := exists_head_of_run hne hw s
    obtain ⟨d', hd', hpd'⟩ := exists_head_of_run (hf w hne hw).1 (hf w hne hw).2 (replaceRuns p f s)
    rw [replaceRuns_append_run hne hw hs, hd, hd']
    refine iff_of_false ?_ ?_ <;> rintro ⟨⟩
    · rw [hc] at hpd'
      cases hpd'
    · rw [hc] at hpd
      cases hpd

/-! ## Cutting -/

/-- A uniform class cuts both texts at the same place: it takes a run along as a whole or stops in front of it. -/
theorem span_replaceRuns (hf : KeepsRuns p f) (hq : Uniform p q) :
    (replaceRuns p f s).takeWhile q = replaceRuns p f (s.takeWhile q) ∧
      (replaceRuns p f s).dropWhile q = replaceRuns p f (s.dropWhile q) := by
  induction s using runInduction p with
  | nil => exact ⟨rfl, rfl⟩
  | other c s hc ih =>
    rw [replaceRuns_cons_of_not _ hc]
    cases hqc : q c with
    | false => simp [hqc, replaceRuns_cons_of_not _ hc]
    | true => simp [hqc, replaceRuns_cons_of_not _ hc, ih]
  | run w s hne hw hs ih =>
    obtain ⟨hne', hw'⟩ := hf w hne hw
    rw [replaceRuns_append_run hne hw hs]
    rcases hq with hq | hq
    · have hwq : ∀ c ∈ w, q c = true := fun c hc => hq c (hw c hc)
      have hwq' : ∀ c ∈ f w, q c = true := fun c hc => hq c (hw' c hc)
      rw [List.takeWhile_append_of_pos hwq', List.takeWhile_append_of_pos hwq,
        List.dropWhile_append_of_pos hwq', List.dropWhile_append_of_pos hwq,
        replaceRuns_append_run hne hw hs.takeWhile, ih.1, ih.2]
      exact ⟨rfl, rfl⟩
    · have hbegin : ∀ w : List Char, w ≠ [] → (∀ c ∈ w, p c = true) → ∀ t, BeginsWithout q (w ++ t) := by
        intro w hne hw t c hc
        obtain ⟨d, hd, hpd⟩ := exists_head_of_run hne hw t
        rw [hd] at hc
        exact Option.some.inj hc ▸ hq d hpd
      rw [beginsWithout_iff_takeWhile.mp (hbegin _ hne' hw' _), beginsWithout_iff_takeWhile.mp (hbegin w hne hw s),
        (hbegin _ hne' hw' _).dropWhile_eq, (hbegin w hne hw s).dropWhile_eq, replaceRuns_append_run hne hw hs]
      exact ⟨rfl, rfl⟩

theorem takeWhile_replaceRuns (hf : KeepsRuns p f) (hq : Uniform p q) :
    (replaceRuns p f s).takeWhile q = replaceRuns p f (s.takeWhile q) :=
  (span_replaceRuns hf hq).1

theorem dropWhile_replaceRuns (hf : KeepsRuns p f) (hq : Uniform p q) :
    (replaceRuns p f s).dropWhile q = replaceRuns p f (s.dropWhile q) :=
  (span_replaceRuns hf hq).2

/-- At its front it has a character of the same class. -/
theorem BeginsWithout.replaceRuns (hf : KeepsRuns p f) (hq : Uniform p q) (hs : BeginsWithout q s) :
    BeginsWithout q (replaceRuns p f s) := by
  rw [beginsWithout_iff_takeWhile] at hs ⊢
  rw [takeWhile_replaceRuns hf hq, hs, replaceRuns_nil]

theorem EndsWithout.replaceRuns (hf : KeepsRuns p f) (hq : ∀ c, p c = true → q c = false)
    (hs : EndsWithout q s) : EndsWithout q (replaceRuns p f s) := by
  induction s using runInduction p with
  | nil => exact hs
  | other c s hc ih =>
    rw [replaceRuns_cons_of_not _ hc]
    by_cases hnil : s = []
    · rwa [hnil, replaceRuns_nil, ← hnil]
    · exact (@endsWithout_append q [c] _ (mt (replaceRuns_eq_nil_iff hf).mp hnil)).mpr
        (ih ((@endsWithout_append q [c] s hnil).mp hs))
  | run w s hne hw hbegin ih =>
    rw [replaceRuns_append_run hne hw hbegin]
    by_cases hnil : s = []
    · intro c hc
      rw [hnil, replaceRuns_nil, List.append_nil] at hc
      exact hq c ((hf w hne hw).2 c (List.mem_of_getLast? hc))
    · exact (endsWithout_append (mt (replaceRuns_eq_nil_iff hf).mp hnil)).mpr
        (ih ((endsWithout_append hnil).mp hs))

/-! ## Runs -/

/-- **The runs are those that were put.** -/
theorem runs_replaceRuns (hf : KeepsRuns p f) : runs p (replaceRuns p f s) = (runs p s).map f := by
  induction s using runInduction p with
  | nil => rfl
  | other c s hc ih => rw [replaceRuns_cons_of_not _ hc, runs_cons_of_not p _ hc, runs_cons_of_not p _ hc, ih]
  | run w s hne hw hs ih =>
    obtain ⟨hne', hw'⟩ := hf w hne hw
    have hs' : BeginsWithout p (replaceRuns p f s) := hs.replaceRuns hf (Or.inl fun _ hc => hc)
    rw [replaceRuns_append_run hne hw hs, runs_append_run hne' hw' hs', runs_append_run hne hw hs, ih,
      List.map_cons]

/-! ## Blanks -/

/-- **Blanks at the ends** may be left out before or after. -/
theorem trimBlanks_replaceRuns (hf : KeepsRuns p f) (hp : ∀ c, p c = true → isBlank c = false) :
    trimBlanks (replaceRuns p f s) = replaceRuns p f (trimBlanks s) := by
  obtain ⟨hbegin, hend⟩ := trimWhile_ends isBlank s
  obtain ⟨lead, trail, heq, hlead, htrail⟩ := exists_blanks_trimBlanks s
  have hother : ∀ c, isBlank c = true → p c = false := fun c hc =>
    Bool.eq_false_iff.mpr fun hpc => by
      rw [hp c hpc] at hc
      cases hc
  have htrailp : ∀ c ∈ trail, p c = false := fun c hc => hother c (htrail c hc)
  have hbetween : replaceRuns p f s = lead ++ replaceRuns p f (trimBlanks s) ++ trail := by
    have hbeginp : BeginsWithout p trail := fun c hc => htrailp c (List.mem_of_mem_head? hc)
    conv => lhs; rw [heq]
    rw [List.append_assoc, replaceRuns_append_of_none fun c hc => hother c (hlead c hc),
      replaceRuns_append_of_beginsWithout hbeginp, replaceRuns_eq_self htrailp, List.append_assoc]
  rw [hbetween]
  change BeginsWithout isBlank (trimBlanks s) at hbegin
  change EndsWithout isBlank (trimBlanks s) at hend
  rw [trimBlanks, trimWhile_append_append isBlank _ hlead htrail]
  exact trimWhile_eq_self isBlank _ (hbegin.replaceRuns hf (Or.inr hp)) (hend.replaceRuns hf hp)

/-- Behind a run the text without blanks does not go on with the run, if no two operands are side by side. -/
theorem beginsWithout_strip (hp : ∀ c, p c = true → isOperandChar c = true) {w : List Char} (hne : w ≠ [])
    (hw : ∀ c ∈ w, p c = true) (hs : BeginsWithout p s)
    (h : ∀ n ∈ neighbours (w ++ s), n.sideBySide = false) : BeginsWithout p (strip s) := by
  intro d hd
  obtain ⟨a, c, rfl⟩ := (List.eq_nil_or_concat' w).resolve_left hne
  obtain ⟨gap, rest, rfl, hgap, -⟩ := exists_gap_of_strip_eq_cons (List.cons_head?_tail hd).symm
  cases hpd : p d with
  | false => rfl
  | true =>
    have hc := hp c (hw c (by simp))
    have hd := hp d hpd
    have hn : (⟨c, !gap.isEmpty, d⟩ : Neighbours) ∈ neighbours (a ++ [c] ++ (gap ++ d :: rest)) :=
      mem_neighbours_iff.mpr ⟨a, gap, rest, by simp, hgap, isBlank_of_isOperandChar hc,
        isBlank_of_isOperandChar hd, rfl⟩
    have hside := h _ hn
    simp only [Neighbours.sideBySide, hc, hd, Bool.and_true, Bool.not_eq_false', List.isEmpty_iff] at hside
    rw [hside, List.nil_append, beginsWithout_cons, hpd] at hs
    cases hs

/-- **All blanks** may be left out before or after, unless this glues two runs together. -/
theorem strip_replaceRuns (hf : KeepsRuns p f) (hp : ∀ c, p c = true → isOperandChar c = true)
    (h : ∀ n ∈ neighbours s, n.sideBySide = false) :
    strip (replaceRuns p f s) = replaceRuns p f (strip s) := by
  induction s using runInduction p with
  | nil => rfl
  | other c s hc ih =>
    rw [replaceRuns_cons_of_not _ hc, strip_cons, strip_cons]
    cases hb : isBlank c with
    | true => exact ih (neighbours_cons_of_blank hb s ▸ h)
    | false =>
      rw [neighbours_cons_of_mark hb] at h
      rw [if_neg Bool.false_ne_true, if_neg Bool.false_ne_true, replaceRuns_cons_of_not _ hc,
        ih fun n hn => h n (List.mem_append_right _ hn)]
  | run w s hne hw hs ih =>
    have hmarks : ∀ w : List Char, (∀ c ∈ w, p c = true) → strip w = w := fun w hw =>
      strip_eq_self fun c hc => isBlank_of_isOperandChar (hp c (hw c hc))
    rw [replaceRuns_append_run hne hw hs, strip_append, strip_append, hmarks w hw, hmarks _ (hf w hne hw).2,
      replaceRuns_append_run hne hw (beginsWithout_strip hp hne hw hs h),
      ih fun n hn => h n (mem_neighbours_append_left w hn)]

/-! ## Names for names -/

/-- A non-empty text of letters. -/
def IsName (x : String) : Prop := x.toList ≠ [] ∧ ∀ c ∈ x.toList, c.isAlpha = true

/-- What is put for a run of letters. -/
def renameRun (r : String → String) (w : List Char) : List Char := (r (String.ofList w)).toList

/-- The text with `r x` in place of each name `x`, wherever a name is. -/
def renameText (r : String → String) (text : String) : String :=
  String.ofList (replaceRuns Char.isAlpha (renameRun r) text.toList)

theorem toList_renameText (r : String → String) (text : String) :
    (renameText r text).toList = replaceRuns Char.isAlpha (renameRun r) text.toList :=
  String.toList_ofList

theorem keepsRuns_renameRun {r : String → String} (hr : ∀ x, IsName x → IsName (r x)) :
    KeepsRuns Char.isAlpha (renameRun r) := by
  intro w hne hw
  refine hr _ ⟨?_, ?_⟩ <;> rwa [String.toList_ofList]

end Reckoner
