import Mathlib.Data.List.TakeWhile
import Reckoner.Text.Run

/-!
# What the runs of a text are

`BeginsWithout p s` and `EndsWithout p s` say that a text has no `p` character at that end. With them:

* `takeWhile_append_run`, `dropWhile_append_run` — a stretch of `p` characters in front of a text that
  begins without one is cut off whole.
* `runInduction` — induction on a text, run after run.
* `runs_append`, `runs_append_append` — the runs of a text that is cut behind a character outside `p`, or
  around such characters, are those of the parts.
* `mem_runs_iff` — the runs are exactly the non-empty stretches of `p` characters that have none on
  either side.
-/

set_option autoImplicit false

namespace Reckoner

variable {p : Char → Bool}

/-- The text is empty or its first character is outside `p`. -/
def BeginsWithout (p : Char → Bool) (s : List Char) : Prop := ∀ c ∈ s.head?, p c = false

/-- The text is empty or its last character is outside `p`. -/
def EndsWithout (p : Char → Bool) (s : List Char) : Prop := ∀ c ∈ s.getLast?, p c = false

theorem beginsWithout_nil : BeginsWithout p [] := by simp [BeginsWithout]

theorem beginsWithout_cons {c : Char} {s : List Char} : BeginsWithout p (c :: s) ↔ p c = false := by
  simp [BeginsWithout]

theorem BeginsWithout.mono {q : Char → Bool} (hpq : ∀ c, p c = true → q c = true) {s : List Char}
    (h : BeginsWithout q s) : BeginsWithout p s := by
  intro c hc
  have hq := h c hc
  cases hp : p c with
  | false => rfl
  | true =>
    rw [hpq c hp] at hq
    cases hq

theorem endsWithout_nil : EndsWithout p [] := by simp [EndsWithout]

theorem endsWithout_concat {c : Char} {s : List Char} : EndsWithout p (s ++ [c]) ↔ p c = false := by
  simp [EndsWithout]

theorem endsWithout_cons_cons {c d : Char} {s : List Char} :
    EndsWithout p (c :: d :: s) ↔ EndsWithout p (d :: s) := by
  simp [EndsWithout, List.getLast?_cons_cons]

/-- What is left behind the longest run of `p` characters begins without one. -/
theorem beginsWithout_dropWhile (p : Char → Bool) (s : List Char) : BeginsWithout p (s.dropWhile p) := by
  intro c hc
  have h := List.head?_dropWhile_not p s
  rw [Option.mem_def.mp hc] at h
  simpa using h

theorem BeginsWithout.append {s t : List Char} (hs : BeginsWithout p s) (ht : BeginsWithout p t) :
    BeginsWithout p (s ++ t) := by
  cases s with
  | nil => exact ht
  | cons c s => exact beginsWithout_cons.mpr (beginsWithout_cons.mp hs)

theorem beginsWithout_iff_takeWhile {s : List Char} : BeginsWithout p s ↔ s.takeWhile p = [] := by
  cases s with
  | nil => simp [BeginsWithout]
  | cons c s => cases h : p c <;> simp [beginsWithout_cons, h]

theorem BeginsWithout.takeWhile {q : Char → Bool} {s : List Char} (hs : BeginsWithout p s) :
    BeginsWithout p (s.takeWhile q) := by
  cases s with
  | nil => exact hs
  | cons c s =>
    rw [List.takeWhile_cons]
    split
    · exact beginsWithout_cons.mpr (beginsWithout_cons.mp hs)
    · exact beginsWithout_nil

theorem endsWithout_append {s t : List Char} (ht : t ≠ []) :
    EndsWithout p (s ++ t) ↔ EndsWithout p t := by
  unfold EndsWithout
  rw [List.getLast?_append, List.getLast?_eq_some_getLast ht, Option.some_or]

theorem takeWhile_append_run {w rest : List Char} (hw : ∀ c ∈ w, p c = true)
    (hr : BeginsWithout p rest) : (w ++ rest).takeWhile p = w := by
  rw [List.takeWhile_append_of_pos hw]
  cases rest with
  | nil => simp
  | cons c rest => simp [beginsWithout_cons.mp hr]

theorem dropWhile_append_run {w rest : List Char} (hw : ∀ c ∈ w, p c = true)
    (hr : BeginsWithout p rest) : (w ++ rest).dropWhile p = rest := by
  rw [List.dropWhile_append_of_pos hw]
  cases rest with
  | nil => rfl
  | cons c rest => simp [beginsWithout_cons.mp hr]

theorem BeginsWithout.dropWhile_eq {s : List Char} (hs : BeginsWithout p s) : s.dropWhile p = s := by
  have h := @List.takeWhile_append_dropWhile _ p s
  rwa [beginsWithout_iff_takeWhile.mp hs, List.nil_append] at h

/-! ## Run after run -/

/-- Induction on a text, with a run taken off as a whole. -/
@[elab_as_elim]
theorem runInduction (p : Char → Bool) {motive : List Char → Prop} (nil : motive [])
    (other : ∀ c s, p c = false → motive s → motive (c :: s))
    (run : ∀ w s, w ≠ [] → (∀ c ∈ w, p c = true) → BeginsWithout p s → motive s → motive (w ++ s))
    (s : List Char) : motive s := by
  induction hn : s.length using Nat.strongRecOn generalizing s with
  | ind n ih =>
    subst hn
    cases s with
    | nil => exact nil
    | cons c s =>
      cases hc : p c with
      | false => exact other c s hc (ih s.length (by simp) s rfl)
      | true =>
        have hrest := ih _ (length_dropWhile_lt hc) ((c :: s).dropWhile p) rfl
        rw [← @List.takeWhile_append_dropWhile _ p (c :: s)]
        exact run _ _ (by simp [hc]) (fun d hd => List.mem_takeWhile_imp hd)
          (beginsWithout_dropWhile p _) hrest

/-! ## Cutting a text -/

theorem finishedRun_of_ne_nil {run : List Char} (h : run ≠ []) : finishedRun run = [run.reverse] := by
  cases run with
  | nil => exact absurd rfl h
  | cons c run => rfl

theorem mem_finishedRun {run w : List Char} :
    w ∈ finishedRun run ↔ run ≠ [] ∧ w = run.reverse := by
  cases run <;> simp [finishedRun]

/-- A begun run ends where the text begins without a `p` character. -/
theorem runsFrom_of_beginsWithout (run : List Char) {s : List Char} (h : BeginsWithout p s) :
    runsFrom p run s = finishedRun run ++ runs p s := by
  cases s with
  | nil => simp [runsFrom]
  | cons c s => rw [runsFrom, beginsWithout_cons.mp h, runs_cons_of_not p s (beginsWithout_cons.mp h)]; rfl

theorem runsFrom_append_of_endsWithout {a : List Char} (hne : a ≠ []) (ha : EndsWithout p a)
    (run b : List Char) : runsFrom p run (a ++ b) = runsFrom p run a ++ runs p b := by
  induction a generalizing run with
  | nil => exact absurd rfl hne
  | cons c a ih =>
    cases a with
    | nil =>
      have hc : p c = false := by simpa [EndsWithout] using ha
      simp [runsFrom, hc, runs, finishedRun]
    | cons d a =>
      have ih := ih (by simp) (endsWithout_cons_cons.mp ha)
      rw [List.cons_append, runsFrom, runsFrom]
      split
      · exact ih _
      · rw [ih, List.append_assoc]

/-- Behind a character outside `p` no run goes on. -/
theorem runs_append {a : List Char} (ha : EndsWithout p a) (b : List Char) :
    runs p (a ++ b) = runs p a ++ runs p b := by
  cases a with
  | nil => simp
  | cons c a => exact runsFrom_append_of_endsWithout (by simp) ha [] b

theorem runsFrom_append_of_beginsWithout {b : List Char} (hb : BeginsWithout p b) (run a : List Char) :
    runsFrom p run (a ++ b) = runsFrom p run a ++ runs p b := by
  induction a generalizing run with
  | nil => rw [List.nil_append, runsFrom_of_beginsWithout run hb, runsFrom]
  | cons c a ih =>
    rw [List.cons_append, runsFrom, runsFrom]
    split
    · exact ih _
    · rw [ih, List.append_assoc]

/-- Nor does a run reach into a text that begins without a `p` character. -/
theorem runs_append_of_beginsWithout (a : List Char) {b : List Char} (hb : BeginsWithout p b) :
    runs p (a ++ b) = runs p a ++ runs p b :=
  runsFrom_append_of_beginsWithout hb [] a

/-- A stretch of `p` characters in front of a text that begins without one is its first run. -/
theorem runs_append_run {w rest : List Char} (hne : w ≠ []) (hw : ∀ c ∈ w, p c = true)
    (hr : BeginsWithout p rest) : runs p (w ++ rest) = w :: runs p rest := by
  have h := runsFrom_append p w hw [] rest
  rw [List.append_nil, runsFrom_of_beginsWithout _ hr, finishedRun_of_ne_nil (by simpa using hne),
    List.reverse_reverse] at h
  exact h

/-- Characters outside `p` are in no run. -/
theorem runs_append_of_none {a : List Char} (ha : ∀ c ∈ a, p c = false) (rest : List Char) :
    runs p (a ++ rest) = runs p rest := by
  induction a with
  | nil => rfl
  | cons c a ih =>
    rw [List.cons_append, runs_cons_of_not p _ (ha c (by simp)), ih fun d hd => ha d (by simp [hd])]

/-- What stands between two texts parts their runs if it has any characters and none of them is in `p`. -/
theorem runs_append_append (a : List Char) {s : List Char} (hne : s ≠ []) (hs : ∀ c ∈ s, p c = false)
    (b : List Char) : runs p (a ++ s ++ b) = runs p a ++ runs p b := by
  have hbegins : BeginsWithout p (s ++ b) := by
    obtain ⟨c, s', rfl⟩ := List.exists_cons_of_ne_nil hne
    exact beginsWithout_cons.mpr (hs c List.mem_cons_self)
  rw [List.append_assoc, runs_append_of_beginsWithout a hbegins, runs_append_of_none hs]

/-! ## Membership -/

theorem split_of_mem_runsFrom (run : List Char) {s w : List Char} (hrun : ∀ c ∈ run, p c = true)
    (hw : w ∈ runsFrom p run s) :
    ∃ a b, run.reverse ++ s = a ++ w ++ b ∧ w ≠ [] ∧ (∀ c ∈ w, p c = true) ∧
      EndsWithout p a ∧ BeginsWithout p b := by
  induction s generalizing run with
  | nil =>
    obtain ⟨hne, rfl⟩ := mem_finishedRun.mp hw
    exact ⟨[], [], by simp, by simpa using hne, by simpa using hrun, endsWithout_nil, beginsWithout_nil⟩
  | cons c s ih =>
    rw [runsFrom] at hw
    split at hw
    · rename_i hc
      obtain ⟨a, b, heq, h⟩ := ih (c :: run) (by simpa [hc] using hrun) hw
      exact ⟨a, b, by rw [← heq]; simp, h⟩
    · rename_i hc
      have hc : p c = false := by simpa using hc
      rcases List.mem_append.mp hw with hw | hw
      · obtain ⟨hne, rfl⟩ := mem_finishedRun.mp hw
        exact ⟨[], c :: s, by simp, by simpa using hne, by simpa using hrun, endsWithout_nil,
          beginsWithout_cons.mpr hc⟩
      · obtain ⟨a, b, heq, hwne, hwp, ha, hb⟩ := ih [] (by simp) hw
        rw [List.reverse_nil, List.nil_append] at heq
        refine ⟨run.reverse ++ c :: a, b, by simp [heq], hwne, hwp, ?_, hb⟩
        cases a with
        | nil => exact endsWithout_concat.mpr hc
        | cons d a =>
          intro x hx
          apply ha x
          rw [List.getLast?_append] at hx
          simpa [List.getLast?_cons_cons] using hx

/-- **The runs are the maximal stretches**: not empty, of `p` characters only, with no `p` character
    in front of them or behind them. -/
theorem mem_runs_iff {s w : List Char} :
    w ∈ runs p s ↔ ∃ a b, s = a ++ w ++ b ∧ w ≠ [] ∧ (∀ c ∈ w, p c = true) ∧
      EndsWithout p a ∧ BeginsWithout p b := by
  constructor
  · intro h
    simpa using split_of_mem_runsFrom [] (by simp) h
  · rintro ⟨a, b, rfl, hne, hw, ha, hb⟩
    rw [List.append_assoc, runs_append ha, runs_append_run hne hw hb]
    simp

end Reckoner
