import Reckoner.Formula.Grouping
import Reckoner.Proofs.FixedValues

/-!
# Printing a tree and evaluating the text

A tree says by itself what is applied to what; printed on one line it needs parentheses for that. `grouped`
puts them only where they are needed, `fullyGrouped` around every operation and every negation.

* `ungrouped_grouped`, `ungrouped_fullyGrouped` — both print the same tree.
* `groups_grouped_le` — no text in which the tree is read has fewer parentheses than `grouped` puts.
* `printing_keeps_the_value` — every spelling of either, with any blanks, evaluates to the value of the tree,
  unless it is nested too deep.
-/

set_option autoImplicit false

namespace Reckoner

namespace Tree

/-- The tree without parentheses. -/
def ungrouped : Tree → Tree
  | literal text => literal text
  | name text => name text
  | negation operand => negation operand.ungrouped
  | operation op left right => operation op left.ungrouped right.ungrouped
  | group inner => inner.ungrouped

/-- How many pairs of parentheses the tree has. -/
def groups : Tree → Nat
  | literal _ | name _ => 0
  | negation operand => operand.groups
  | operation _ left right => left.groups + right.groups
  | group inner => inner.groups + 1

/-! ## What is printed -/

theorem ungrouped_groupUnlessFits (due : Level) (t : Tree) :
    (groupUnlessFits due t).ungrouped = t.ungrouped := by
  unfold groupUnlessFits
  split <;> rfl

/-- Both print the same tree. -/
theorem ungrouped_grouped (t : Tree) (due : Level) : (t.grouped due).ungrouped = t.ungrouped := by
  induction t generalizing due with
  | literal text => rfl
  | name text => rfl
  | negation operand ih => rw [grouped, ungrouped, ungrouped, ih]
  | operation op left right ihl ihr =>
    rw [grouped, ungrouped_groupUnlessFits, ungrouped, ungrouped, ihl, ihr]
  | group inner ih => rw [grouped, ungrouped, ungrouped, ih]

theorem ungrouped_fullyGrouped (t : Tree) : t.fullyGrouped.ungrouped = t.ungrouped := by
  induction t with
  | literal text => rfl
  | name text => rfl
  | negation operand ih => rw [fullyGrouped, ungrouped, ungrouped, ungrouped, ih]
  | operation op left right ihl ihr => rw [fullyGrouped, ungrouped, ungrouped, ungrouped, ihl, ihr]
  | group inner ih => rw [fullyGrouped, ungrouped, ungrouped, ih]

/-! ## No fewer parentheses -/

theorem groups_grouped_operation (due : Level) (op : Operation) (left right : Tree) :
    ((operation op left right).grouped due).groups =
      (left.grouped op.level).groups + (right.grouped op.level.tighter).groups +
        if (operation op left right).fits due then 0 else 1 := by
  have hfits : (operation op (left.grouped op.level) (right.grouped op.level.tighter)).fits due =
      (operation op left right).fits due := rfl
  rw [grouped, groupUnlessFits, hfits]
  split <;> rfl

/-- One pair around it lets a tree stand anywhere. -/
theorem groups_grouped_le_succ (t : Tree) (due due' : Level) :
    (t.grouped due).groups ≤ (t.grouped due').groups + 1 := by
  cases t with
  | operation op left right =>
    rw [groups_grouped_operation, groups_grouped_operation]
    split <;> split <;> omega
  | _ => exact Nat.le_succ _

theorem fits_of_fits_tighter {t : Tree} {due : Level} : t.fits due.tighter = true → t.fits due = true := by
  unfold fits
  generalize t.level = level
  cases due <;> cases level <;> decide

/-- Where a tighter level is due no fewer are needed. -/
theorem groups_grouped_le_tighter (t : Tree) (due : Level) :
    (t.grouped due).groups ≤ (t.grouped due.tighter).groups := by
  cases t with
  | operation op left right =>
    rw [groups_grouped_operation, groups_grouped_operation]
    split
    · omega
    · rename_i hnot
      rw [if_neg fun h => hnot (fits_of_fits_tighter h)]
  | _ => exact Nat.le_refl _

/-- **No fewer parentheses** let the tree stand where the level is due. By induction on how the text with the
    other parentheses is derived. -/
theorem groups_grouped_le {level : Level} {ts : List Token} {u : Tree} (h : Derives level ts u) :
    (u.ungrouped.grouped level).groups ≤ u.groups := by
  induction h with
  | literal text => exact Nat.le_refl _
  | name text => exact Nat.le_refl _
  | @group _ inner _ ih =>
    have hpair := groups_grouped_le_succ inner.ungrouped .factor .expression
    rw [ungrouped, groups]
    omega
  | negation _ ih => exact ih
  | term _ ih => exact (groups_grouped_le_tighter _ .term).trans ih
  | expression _ ih => exact (groups_grouped_le_tighter _ .expression).trans ih
  | @chain op _ _ left right _ _ ihl ihr =>
    have hfits : (operation op left.ungrouped right.ungrouped).fits op.level = true := by cases op <;> rfl
    rw [ungrouped, groups_grouped_operation, if_pos hfits, groups]
    omega

/-! ## What is in it -/

theorem literals_names_grouped (t : Tree) (due : Level) :
    (t.grouped due).literals = t.literals ∧ (t.grouped due).names = t.names := by
  induction t generalizing due with
  | literal text => exact ⟨rfl, rfl⟩
  | name text => exact ⟨rfl, rfl⟩
  | negation operand ih => exact ih .factor
  | operation op left right ihl ihr =>
    obtain ⟨hll, hln⟩ := ihl op.level
    obtain ⟨hrl, hrn⟩ := ihr op.level.tighter
    rw [grouped, groupUnlessFits]
    split <;> simp only [literals, names, hll, hln, hrl, hrn, and_self]
  | group inner ih => exact ih .expression

theorem names_fullyGrouped (t : Tree) : t.fullyGrouped.names = t.names := by
  induction t with
  | literal text => rfl
  | name text => rfl
  | negation operand ih => exact ih
  | operation op left right ihl ihr => rw [fullyGrouped, names, names, names, ihl, ihr]
  | group inner ih => exact ih

theorem wellFormed_tokens_grouped {t : Tree} (h : WellFormed t.tokens) (due : Level) :
    WellFormed (t.grouped due).tokens := by
  induction t generalizing due with
  | literal text => exact h
  | name text => exact h
  | negation operand ih => exact wellFormed_negation.mpr (ih (wellFormed_negation.mp h) .factor)
  | operation op left right ihl ihr =>
    obtain ⟨hl, hr⟩ := wellFormed_chain.mp h
    have hboth := (@wellFormed_chain op _ _).mpr ⟨ihl hl op.level, ihr hr op.level.tighter⟩
    rw [grouped, groupUnlessFits]
    split
    · exact hboth
    · exact wellFormed_group.mpr hboth
  | group inner ih => exact wellFormed_group.mpr (ih (wellFormed_group.mp h) .expression)

theorem wellFormed_tokens_fullyGrouped {t : Tree} (h : WellFormed t.tokens) :
    WellFormed t.fullyGrouped.tokens := by
  induction t with
  | literal text => exact h
  | name text => exact h
  | negation operand ih =>
    exact wellFormed_group.mpr (wellFormed_negation.mpr (ih (wellFormed_negation.mp h)))
  | operation op left right ihl ihr =>
    obtain ⟨hl, hr⟩ := wellFormed_chain.mp h
    exact wellFormed_group.mpr (wellFormed_chain.mpr ⟨ihl hl, ihr hr⟩)
  | group inner ih => exact wellFormed_group.mpr (ih (wellFormed_group.mp h))

end Tree

/-! ## Evaluating what is printed -/

variable {m : Table} {t : Tree}

/-- A tree of numerals and of names with values is worth something. -/
theorem exists_value?_of_wellFormed (hw : WellFormed t.tokens)
    (hliterals : ∀ l ∈ t.literals, isNumeral l = true) (hnames : ∀ x ∈ t.names, m.contains x = true) :
    ∃ v, t.value? m.get? = some v := by
  obtain ⟨hl, hn⟩ := t.literals_names_grouped .expression
  have hparsed := parsed_written (t.wellFormed_tokens_grouped hw .expression) (t.derives_grouped .expression)
  rw [← hl] at hliterals
  rw [← hn] at hnames
  obtain ⟨v, hv⟩ := hparsed.exists_value? hliterals fun x hx => NameMap.contains_iff.mp (hnames x hx)
  exact ⟨v, by rw [← hv, t.value?_grouped]⟩

/-- **Printing a tree and evaluating the text** gives the value of the tree, for every tree of numerals and of
    names with values. Whatever blanks are between the tokens, this is so for the text with the parentheses that
    precedence and leaning to the left require and for the text with parentheses around every compound part,
    unless the printed text is nested deeper than 256. Both texts have this very tree but for parentheses,
    and of all texts that have it, none has fewer parentheses than the first. -/
theorem printing_keeps_the_value (m : Table) (t : Tree) (hw : WellFormed t.tokens)
    (hliterals : ∀ l ∈ t.literals, isNumeral l = true) (hnames : ∀ x ∈ t.names, m.contains x = true) :
    ∃ v, t.value? m.get? = some v ∧
      (∀ u ∈ [t.grouped .expression, t.fullyGrouped],
        u.ungrouped = t.ungrouped ∧ Spelled u.tokens u.written.toList ∧
        ∀ text : String, Spelled u.tokens text.toList → evaluateWith m text =
          if u.depth ≤ 256 then .ok v else .error ⟨text, .tooDeep 256⟩) ∧
      ∀ text u, Parsed text u → u.ungrouped = t → (t.grouped .expression).groups ≤ u.groups := by
  obtain ⟨v, hv⟩ := exists_value?_of_wellFormed hw hliterals hnames
  refine ⟨v, hv, fun u hu => ?_, fun text u hparsed hu => hu ▸ Tree.groups_grouped_le hparsed.derives⟩
  have hprinted : u.ungrouped = t.ungrouped ∧ WellFormed u.tokens ∧ Derives .expression u.tokens u ∧
      u.value? m.get? = some v := by
    rcases List.mem_pair.mp hu with rfl | rfl
    · exact ⟨t.ungrouped_grouped _, t.wellFormed_tokens_grouped hw _, t.derives_grouped _,
        (t.value?_grouped _ _).trans hv⟩
    · exact ⟨t.ungrouped_fullyGrouped, t.wellFormed_tokens_fullyGrouped hw, t.derives_fullyGrouped _,
        (t.value?_fullyGrouped _).trans hv⟩
  obtain ⟨hsame, hwu, hderives, hvalue⟩ := hprinted
  refine ⟨hsame, (parsed_written hwu hderives).spelled, fun text hspelled => ?_⟩
  exact evaluateWith_of_parsed ⟨hspelled, hderives⟩ hvalue

/-- From `a` the difference of `b` and a negated sum is subtracted. -/
def nestedDifference : Tree :=
  .operation .sub (.name ['a'])
    (.operation .sub (.name ['b']) (.negation (.operation .add (.literal ['2']) (.name ['c']))))

/-- A right operand of the same precedence keeps its parentheses, and so does what is negated. -/
theorem printing_keeps_the_value_nestedDifference :
    let m : Table := ((NameMap.empty.insert "a" 5).insert "b" 3).insert "c" 1
    ∃ v, nestedDifference.value? m.get? = some v ∧ evaluateWith m "a - (b - -(2 + c))" = .ok v ∧
      evaluateWith m "(a - (b - (- (2 + c))))" = .ok v := by
  intro m
  have hw : WellFormed nestedDifference.tokens := by
    simp [nestedDifference, Tree.tokens, WellFormed, Token.wellFormed]
    decide
  have hnames : ∀ x ∈ nestedDifference.names, m.contains x = true := by
    intro x hx
    have hmem : x = "a" ∨ x = "b" ∨ x = "c" := by simpa using (by decide : _ ⊆ ["a", "b", "c"]) hx
    rw [NameMap.contains_insert, NameMap.contains_insert, NameMap.contains_insert]
    rcases hmem with rfl | rfl | rfl <;> simp
  obtain ⟨v, hv, hprinted, -⟩ := printing_keeps_the_value m nestedDifference hw (by decide) hnames
  obtain ⟨-, -, hfew⟩ := hprinted _ List.mem_cons_self
  obtain ⟨-, -, hall⟩ := hprinted _ (List.mem_cons_of_mem _ List.mem_cons_self)
  refine ⟨v, hv, ?_, ?_⟩
  · have hspelled : Spelled (nestedDifference.grouped .expression).tokens "a - (b - -(2 + c))".toList :=
      spelled_of_strip_eq_join (Tree.wellFormed_tokens_grouped hw _) (by decide) (by decide)
    rw [hfew _ hspelled, if_pos (by decide)]
  · have hspelled : Spelled nestedDifference.fullyGrouped.tokens "(a - (b - (- (2 + c))))".toList :=
      spelled_of_strip_eq_join (Tree.wellFormed_tokens_fullyGrouped hw) (by decide) (by decide)
    rw [hall _ hspelled, if_pos (by decide)]

end Reckoner
