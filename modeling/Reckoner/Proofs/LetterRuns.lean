import Reckoner.Proofs.NameOrder
import Reckoner.Proofs.PrintedTrees

/-!
# The names of a text are its maximal runs of letters

No text has to be a formula for its names to be found.

* `contains_namesIn_iff_split` — a name is a stretch of letters with no letter on either side.
* `contains_namesIn_append_append` — what stands between two texts parts their names.
* `Tree.contains_namesIn_printed_iff` — a printed tree has the names of the tree.
* `names_are_letter_runs` — all of it, for every text and every tree.
-/

set_option autoImplicit false

namespace Reckoner

theorem contains_namesIn_iff_mem_runs {text x : String} :
    (namesIn text).contains x = true ↔ x.toList ∈ runs Char.isAlpha text.toList := by
  rw [← NameMap.mem_names_iff, mem_names_namesIn]

/-- **A name is a stretch of letters** with no letter on either side. -/
theorem contains_namesIn_iff_split {text x : String} : (namesIn text).contains x = true ↔
    ∃ a b : String, text = a ++ x ++ b ∧ x ≠ "" ∧ (∀ c ∈ x.toList, c.isAlpha = true) ∧
      EndsWithout Char.isAlpha a.toList ∧ BeginsWithout Char.isAlpha b.toList := by
  rw [contains_namesIn_iff_mem_runs, mem_runs_iff]
  have hne : x.toList ≠ [] ↔ x ≠ "" := not_congr String.toList_eq_nil_iff
  constructor
  · rintro ⟨a, b, heq, hx, hletters, ha, hb⟩
    refine ⟨String.ofList a, String.ofList b, ?_, hne.mp hx, hletters, ?_, ?_⟩
    · apply String.toList_inj.mp
      simp [heq]
    · rwa [String.toList_ofList]
    · rwa [String.toList_ofList]
  · rintro ⟨a, b, rfl, hx, hletters, ha, hb⟩
    exact ⟨a.toList, b.toList, by simp, hne.mpr hx, hletters, ha, hb⟩

/-- **What stands between two texts parts their names** if it is not empty and has no letter. -/
theorem contains_namesIn_append_append {a b s x : String} (hne : s ≠ "")
    (hs : ∀ c ∈ s.toList, c.isAlpha = false) : (namesIn (a ++ s ++ b)).contains x = true ↔
      (namesIn a).contains x = true ∨ (namesIn b).contains x = true := by
  have hparts := runs_append_append a.toList (mt String.toList_eq_nil_iff.mp hne) hs b.toList
  simp only [contains_namesIn_iff_mem_runs, String.toList_append, hparts, List.mem_append]

/-- **A printed tree has the names of the tree**, whatever blanks are between the tokens. -/
theorem Tree.contains_namesIn_printed_iff {t u : Tree} (hu : u ∈ [t.grouped .expression, t.fullyGrouped])
    {text x : String} (h : Spelled u.tokens text.toList) :
    (namesIn text).contains x = true ↔ x ∈ t.names := by
  have hprinted : Derives .expression u.tokens u ∧ u.names = t.names := by
    rcases List.mem_pair.mp hu with rfl | rfl
    · exact ⟨t.derives_grouped _, (t.literals_names_grouped _).2⟩
    · exact ⟨t.derives_fullyGrouped _, t.names_fullyGrouped⟩
  have hparsed : Parsed text u := ⟨h, hprinted.1⟩
  rw [hparsed.contains_namesIn_iff, hprinted.2]

/-- **The names of a text are its maximal runs of letters**, for every text: a name is a stretch of letters,
    not empty, in front of which and behind which no letter stands. So two texts with something between them
    that has no letters have the names of both; and a tree, printed with the parentheses it needs or with all
    that it can have, has its own names. -/
theorem names_are_letter_runs :
    (∀ text x : String, (namesIn text).contains x = true ↔
      ∃ a b : String, text = a ++ x ++ b ∧ x ≠ "" ∧ (∀ c ∈ x.toList, c.isAlpha = true) ∧
        EndsWithout Char.isAlpha a.toList ∧ BeginsWithout Char.isAlpha b.toList) ∧
    (∀ a b s : String, s ≠ "" → (∀ c ∈ s.toList, c.isAlpha = false) →
      ∀ x, (namesIn (a ++ s ++ b)).contains x = true ↔
        (namesIn a).contains x = true ∨ (namesIn b).contains x = true) ∧
    ∀ t : Tree, WellFormed t.tokens → ∀ u ∈ [t.grouped .expression, t.fullyGrouped],
      Spelled u.tokens u.written.toList ∧
      ∀ text : String, Spelled u.tokens text.toList →
        ∀ x, (namesIn text).contains x = true ↔ x ∈ t.names := by
  refine ⟨fun text x => contains_namesIn_iff_split,
    fun a b s hne hs x => contains_namesIn_append_append hne hs, fun t hw u hu => ⟨?_, fun text h x => ?_⟩⟩
  · rcases List.mem_pair.mp hu with rfl | rfl
    · exact (parsed_written (t.wellFormed_tokens_grouped hw _) (t.derives_grouped _)).spelled
    · exact (parsed_written (t.wellFormed_tokens_fullyGrouped hw) (t.derives_fullyGrouped _)).spelled
  · exact Tree.contains_namesIn_printed_iff hu h

/-- The negated sum of two names. -/
def negatedSum : Tree := .negation (.operation .add (.name ['b']) (.name ['x']))

/-- A digit ends a name and so does a letter beyond the alphabet; the parentheses of a printed tree add none. -/
theorem names_are_letter_runs_rate :
    (namesIn "2*rate2Rate").contains "rate" = true ∧
    "é" ≠ "" ∧ (∀ c ∈ "é".toList, c.isAlpha = false) ∧
    (namesIn ("rate" ++ "é" ++ "Rate")).contains "Rate" = true ∧
    WellFormed negatedSum.tokens ∧ (namesIn " -( b+x )").contains "x" = true := by
  obtain ⟨hsplit, hparted, hprinted⟩ := names_are_letter_runs
  have hbefore : EndsWithout Char.isAlpha "2*".toList := by
    intro c hc
    cases hc
    rfl
  have hrate : (namesIn "2*rate2Rate").contains "rate" = true :=
    (hsplit _ _).mpr ⟨"2*", "2Rate", rfl, by decide, List.all_eq_true.mp rfl, hbefore,
      beginsWithout_cons.mpr rfl⟩
  have halone : (namesIn "Rate").contains "Rate" = true :=
    (hsplit _ _).mpr ⟨"", "", rfl, by decide, List.all_eq_true.mp rfl, endsWithout_nil, beginsWithout_nil⟩
  have hne : "é" ≠ "" := by decide
  have hforeign : ∀ c ∈ "é".toList, c.isAlpha = false := by
    intro c hc
    rw [List.mem_singleton.mp hc]
    decide
  have hw : WellFormed negatedSum.tokens := by
    simp [negatedSum, Tree.tokens, WellFormed, Token.wellFormed]
  have hspelled : Spelled (negatedSum.grouped .expression).tokens " -( b+x )".toList :=
    spelled_of_strip_eq_join (Tree.wellFormed_tokens_grouped hw _) (by decide) (by decide)
  obtain ⟨-, hnames⟩ := hprinted negatedSum hw _ List.mem_cons_self
  exact ⟨hrate, hne, hforeign, (hparted _ _ _ hne hforeign _).mpr (Or.inr halone), hw,
    (hnames _ hspelled _).mpr (by decide)⟩

end Reckoner
