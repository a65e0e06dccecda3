import Mathlib.Data.List.TakeWhile
import Reckoner.Formula.Alphabet
import Reckoner.Proofs.Text.Runs

/-!
# Neighbours

Two marks of a text are neighbours if nothing but blanks is between them. Both patterns that a formula
must not contain speak about neighbours only, and leaving out blanks keeps the neighbours:

* `mem_neighbours_iff` — what neighbours are, said with the text around them.
* `neighbours_strip` — the neighbours of the text without blanks are the same, side by side.
* `runs_strip` — where no blank separates two operand characters, leaving out the blanks changes no run
  of operand characters, and so glues no names and no literals together.
-/

set_option autoImplicit false

namespace Reckoner

/-- Two marks in a text with nothing but blanks between them; `apart` if there is at least one. -/
structure Neighbours where
  left : Char
  apart : Bool
  right : Char
  deriving DecidableEq, Repr

/-- The mark `c` and the next one behind it. -/
def withNext (c : Char) (s : List Char) : Option Neighbours :=
  match s.dropWhile isBlank with
  | [] => none
  | d :: _ => some ⟨c, s.head?.any isBlank, d⟩

/-- All neighbours in a text, from left to right. -/
def neighbours : List Char → List Neighbours
  | [] => []
  | c :: s => if isBlank c then neighbours s else (withNext c s).toList ++ neighbours s

/-- The neighbours without what is between them. -/
def Neighbours.touching (n : Neighbours) : Neighbours := { n with apart := false }

theorem neighbours_cons_of_blank {c : Char} (h : isBlank c = true) (s : List Char) :
    neighbours (c :: s) = neighbours s := by
  simp [neighbours, h]

theorem neighbours_cons_of_mark {c : Char} (h : isBlank c = false) (s : List Char) :
    neighbours (c :: s) = (withNext c s).toList ++ neighbours s := by
  simp [neighbours, h]

theorem withNext_eq_some_iff {c : Char} {s : List Char} {n : Neighbours} :
    withNext c s = some n ↔ ∃ gap rest, s = gap ++ n.right :: rest ∧ (∀ x ∈ gap, isBlank x = true) ∧
      isBlank n.right = false ∧ n.left = c ∧ n.apart = !gap.isEmpty := by
  constructor
  · intro h
    unfold withNext at h
    split at h
    · cases h
    · rename_i d rest hd
      cases h
      refine ⟨s.takeWhile isBlank, rest, ?_, fun x hx => List.mem_takeWhile_imp hx, ?_, rfl, ?_⟩
      · rw [← hd, List.takeWhile_append_dropWhile]
      · exact beginsWithout_cons.mp (hd ▸ beginsWithout_dropWhile isBlank s)
      · cases s with
        | nil => rfl
        | cons a s => cases ha : isBlank a <;> simp [ha]
  · rintro ⟨gap, rest, rfl, hgap, hright, rfl, hapart⟩
    unfold withNext
    rw [dropWhile_append_run hgap (beginsWithout_cons.mpr hright)]
    cases gap with
    | nil => cases n; simp_all
    | cons a gap => cases n; simp_all

/-- **What neighbours are**: two marks with a stretch of blanks between them. -/
theorem mem_neighbours_iff {s : List Char} {n : Neighbours} :
    n ∈ neighbours s ↔ ∃ a gap b, s = a ++ n.left :: gap ++ n.right :: b ∧
      (∀ x ∈ gap, isBlank x = true) ∧ isBlank n.left = false ∧ isBlank n.right = false ∧
      n.apart = !gap.isEmpty := by
  constructor
  · intro h
    induction s with
    | nil => simp [neighbours] at h
    | cons c s ih =>
      have later : n ∈ neighbours s → ∃ a gap b, c :: s = a ++ n.left :: gap ++ n.right :: b ∧
          (∀ x ∈ gap, isBlank x = true) ∧ isBlank n.left = false ∧ isBlank n.right = false ∧
          n.apart = !gap.isEmpty := by
        intro h
        obtain ⟨a, gap, b, rfl, hrest⟩ := ih h
        exact ⟨c :: a, gap, b, rfl, hrest⟩
      cases hc : isBlank c with
      | true => exact later (by rwa [neighbours_cons_of_blank hc] at h)
      | false =>
        rw [neighbours_cons_of_mark hc, List.mem_append, Option.mem_toList] at h
        rcases h with h | h
        · obtain ⟨gap, rest, rfl, hgap, hright, rfl, hapart⟩ := withNext_eq_some_iff.mp h
          exact ⟨[], gap, rest, rfl, hgap, hc, hright, hapart⟩
        · exact later h
  · rintro ⟨a, gap, b, rfl, hgap, hleft, hright, hapart⟩
    induction a with
    | nil =>
      rw [List.nil_append, List.cons_append, neighbours_cons_of_mark hleft,
        withNext_eq_some_iff.mpr ⟨gap, b, rfl, hgap, hright, rfl, hapart⟩]
      simp
    | cons c a ih =>
      cases hc : isBlank c with
      | true => rw [List.cons_append, List.cons_append, neighbours_cons_of_blank hc]; exact ih
      | false =>
        rw [List.cons_append, List.cons_append, neighbours_cons_of_mark hc]
        exact List.mem_append_right _ ih

theorem mem_neighbours_append_left {s : List Char} {n : Neighbours} (a : List Char)
    (h : n ∈ neighbours s) : n ∈ neighbours (a ++ s) := by
  obtain ⟨b, gap, c, rfl, hrest⟩ := mem_neighbours_iff.mp h
  exact mem_neighbours_iff.mpr ⟨a ++ b, gap, c, by simp, hrest⟩

/-! ## Leaving out blanks -/

theorem exists_gap_of_strip_eq_cons {s u : List Char} {c : Char} (h : strip s = c :: u) :
    ∃ gap rest, s = gap ++ c :: rest ∧ (∀ x ∈ gap, isBlank x = true) ∧ strip rest = u := by
  obtain ⟨gap, rest, rfl, hgap, -, hrest⟩ := List.filter_eq_cons_iff.mp h
  exact ⟨gap, rest, rfl, fun x hx => by simpa using hgap x hx, hrest⟩

theorem head?_strip (s : List Char) : (strip s).head? = (s.dropWhile isBlank).head? := by
  induction s with
  | nil => rfl
  | cons c s ih =>
    rw [strip_cons]
    cases hc : isBlank c with
    | true => simp [hc, ih]
    | false => simp [hc]

theorem withNext_strip (c : Char) (s : List Char) :
    withNext c (strip s) = (withNext c s).map Neighbours.touching := by
  have hs := head?_strip s
  have hstrip : (strip s).dropWhile isBlank = strip s := by
    cases h : strip s with
    | nil => rfl
    | cons d r =>
      have hd : isBlank d = false := (mem_strip.mp (h ▸ List.mem_cons_self)).2
      simp [hd]
  unfold withNext
  rw [hstrip]
  cases h : strip s with
  | nil =>
    rw [h] at hs
    cases hr : s.dropWhile isBlank with
    | nil => rfl
    | cons d r => rw [hr] at hs; cases hs
  | cons d r =>
    have hd : isBlank d = false := (mem_strip.mp (h ▸ List.mem_cons_self)).2
    rw [h] at hs
    cases hr : s.dropWhile isBlank with
    | nil => rw [hr] at hs; cases hs
    | cons e r' =>
      rw [hr] at hs
      cases hs
      simp [Neighbours.touching, hd]

/-- **Leaving out blanks keeps the neighbours**, and brings them together. -/
theorem neighbours_strip (s : List Char) :
    neighbours (strip s) = (neighbours s).map Neighbours.touching := by
  induction s with
  | nil => rfl
  | cons c s ih =>
    rw [strip_cons]
    cases hc : isBlank c with
    | true => rw [if_pos rfl, neighbours_cons_of_blank hc, ih]
    | false =>
      rw [if_neg (by simp), neighbours_cons_of_mark hc, neighbours_cons_of_mark hc, ih,
        withNext_strip, List.map_append]
      cases withNext c s <;> rfl

/-- Two marks that touch in the text without blanks are neighbours in the text. -/
theorem exists_neighbours_of_strip {s p q : List Char} {x y : Char} (h : strip s = p ++ x :: y :: q) :
    ∃ n ∈ neighbours s, n.left = x ∧ n.right = y := by
  have hx : isBlank x = false := (mem_strip.mp (h ▸ by simp : x ∈ strip s)).2
  have hy : isBlank y = false := (mem_strip.mp (h ▸ by simp : y ∈ strip s)).2
  have hm : (⟨x, false, y⟩ : Neighbours) ∈ neighbours (strip s) :=
    mem_neighbours_iff.mpr ⟨p, [], q, by simpa using h, by simp, hx, hy, rfl⟩
  rw [neighbours_strip] at hm
  obtain ⟨n, hn, heq⟩ := List.mem_map.mp hm
  refine ⟨n, hn, ?_, ?_⟩
  · exact congrArg Neighbours.left heq
  · exact congrArg Neighbours.right heq

/-! ## Blanks at the ends -/

theorem neighbours_append_of_blank {gap : List Char} (h : ∀ c ∈ gap, isBlank c = true) (s : List Char) :
    neighbours (gap ++ s) = neighbours s := by
  induction gap with
  | nil => rfl
  | cons c gap ih =>
    rw [List.cons_append, neighbours_cons_of_blank (h c (by simp)), ih fun d hd => h d (by simp [hd])]

theorem withNext_append_blank (c : Char) (s : List Char) {gap : List Char}
    (h : ∀ c ∈ gap, isBlank c = true) : withNext c (s ++ gap) = withNext c s := by
  have hgap : gap.dropWhile isBlank = [] := List.dropWhile_eq_nil_iff.mpr h
  unfold withNext
  cases s with
  | nil => simp [hgap]
  | cons d s =>
    rw [List.dropWhile_append, hgap]
    cases (d :: s).dropWhile isBlank <;> simp

theorem neighbours_append_blank (s : List Char) {gap : List Char} (h : ∀ c ∈ gap, isBlank c = true) :
    neighbours (s ++ gap) = neighbours s := by
  induction s with
  | nil => simpa [neighbours] using neighbours_append_of_blank h []
  | cons c s ih =>
    cases hc : isBlank c with
    | true => rw [List.cons_append, neighbours_cons_of_blank hc, neighbours_cons_of_blank hc, ih]
    | false =>
      rw [List.cons_append, neighbours_cons_of_mark hc, neighbours_cons_of_mark hc, ih,
        withNext_append_blank c s h]

theorem exists_append_dropEndWhile (p : Char → Bool) (s : List Char) :
    ∃ trail, s = dropEndWhile p s ++ trail ∧ ∀ c ∈ trail, p c = true :=
  ⟨_, (dropEndWhile_append_reverse p s).symm,
    fun _ hc => List.mem_takeWhile_imp (List.mem_reverse.mp hc)⟩

/-- Trimming takes away characters of the kind only. -/
theorem exists_append_trimWhile (p : Char → Bool) (s : List Char) :
    ∃ lead trail, s = lead ++ trimWhile p s ++ trail ∧ (∀ c ∈ lead, p c = true) ∧
      ∀ c ∈ trail, p c = true := by
  obtain ⟨trail, htrail, hkind⟩ := exists_append_dropEndWhile p (s.dropWhile p)
  refine ⟨s.takeWhile p, trail, ?_, fun c hc => List.mem_takeWhile_imp hc, hkind⟩
  unfold trimWhile
  rw [List.append_assoc, ← htrail, List.takeWhile_append_dropWhile]

theorem endsWithout_dropEndWhile (p : Char → Bool) (s : List Char) : EndsWithout p (dropEndWhile p s) := by
  intro c hc
  unfold dropEndWhile at hc
  rw [List.getLast?_reverse] at hc
  exact beginsWithout_dropWhile p _ c hc

/-- What trimming leaves has none of them at its ends. -/
theorem trimWhile_ends (p : Char → Bool) (s : List Char) :
    BeginsWithout p (trimWhile p s) ∧ EndsWithout p (trimWhile p s) := by
  have happ := dropEndWhile_append_reverse p (s.dropWhile p)
  refine ⟨fun c hc => ?_, endsWithout_dropEndWhile p _⟩
  apply beginsWithout_dropWhile p s c
  have hhead : (dropEndWhile p (s.dropWhile p)).head? = some c := hc
  rw [← happ, List.head?_append, hhead]
  rfl

theorem exists_blanks_trimBlanks (s : List Char) :
    ∃ lead trail, s = lead ++ trimBlanks s ++ trail ∧ (∀ c ∈ lead, isBlank c = true) ∧
      ∀ c ∈ trail, isBlank c = true :=
  exists_append_trimWhile isBlank s

theorem strip_eq_nil_iff {s : List Char} : strip s = [] ↔ ∀ c ∈ s, isBlank c = true := by
  unfold strip
  simp

theorem strip_trimBlanks (s : List Char) : strip (trimBlanks s) = strip s := by
  obtain ⟨lead, trail, heq, hl, ht⟩ := exists_blanks_trimBlanks s
  conv => rhs; rw [heq]
  rw [strip_append, strip_append, strip_eq_nil_iff.mpr hl, strip_eq_nil_iff.mpr ht]
  simp

theorem neighbours_trimBlanks (s : List Char) : neighbours (trimBlanks s) = neighbours s := by
  obtain ⟨lead, trail, heq, hl, ht⟩ := exists_blanks_trimBlanks s
  conv => rhs; rw [heq]
  rw [neighbours_append_blank _ ht, neighbours_append_of_blank hl]

/-! ## Runs -/

/-- Two operands with blanks between them. -/
def Neighbours.sideBySide (n : Neighbours) : Bool :=
  n.apart && isOperandChar n.left && isOperandChar n.right

theorem runsFrom_strip {p : Char → Bool} (hp : ∀ c, p c = true → isOperandChar c = true)
    {s : List Char} (run : List Char) (h : ∀ n ∈ neighbours s, n.sideBySide = false)
    (hrun : run ≠ [] → s.head?.any isBlank = true → BeginsWithout p (strip s)) :
    runsFrom p run s = runsFrom p run (strip s) := by
  induction s generalizing run with
  | nil => rfl
  | cons c s ih =>
    cases hc : isBlank c with
    | true =>
      rw [neighbours_cons_of_blank hc] at h
      have hpc : p c = false := by
        cases hpc : p c with
        | false => rfl
        | true => have hop := hp c hpc; rw [isOperandChar_of_isBlank hc] at hop; cases hop
      rw [runsFrom, hpc, if_neg (by simp), ih [] h (by simp), strip_cons, hc, if_pos rfl]
      by_cases hne : run = []
      · subst hne; rfl
      · have hb := hrun hne (by simpa using hc)
        rw [strip_cons, hc, if_pos rfl] at hb
        rw [runsFrom_of_beginsWithout run hb]
        rfl
    | false =>
      rw [neighbours_cons_of_mark hc] at h
      have hs : ∀ n ∈ neighbours s, n.sideBySide = false := fun n hn => h n (List.mem_append_right _ hn)
      rw [strip_cons, hc, if_neg (by simp), runsFrom, runsFrom]
      cases hpc : p c with
      | false => simp only [Bool.false_eq_true, if_false]; rw [ih [] hs (by simp)]
      | true =>
        simp only [if_true]
        apply ih (c :: run) hs
        -- the character behind the gap is the right neighbour of `c`
        intro _ hgap d hd
        rw [head?_strip] at hd
        cases hr : s.dropWhile isBlank with
        | nil => rw [hr] at hd; cases hd
        | cons e r =>
          have hed : e = d := by rw [hr] at hd; simpa using hd
          subst hed
          have hn := h ⟨c, s.head?.any isBlank, e⟩ (List.mem_append_left _ (by simp [withNext, hr]))
          cases hpe : p e with
          | false => rfl
          | true => simp [Neighbours.sideBySide, hgap, hp c hpc, hp e hpe] at hn

/-- **Leaving out blanks glues no operands together** if no two are side by side. -/
theorem runs_strip {p : Char → Bool} (hp : ∀ c, p c = true → isOperandChar c = true) {s : List Char}
    (h : ∀ n ∈ neighbours s, n.sideBySide = false) : runs p (strip s) = runs p s :=
  (runsFrom_strip hp [] h (by simp)).symm

end Reckoner
