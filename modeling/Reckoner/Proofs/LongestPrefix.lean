import Reckoner.Proofs.Formula.Lookahead
import Reckoner.Proofs.Formula.Machine

/-!
# What a call has read

Each of the three functions of the descent reads as much as its rule allows, wherever it is called, whatever
stands there, and however deep it is nested.

* `Machine.Runs.ahead_suffix` — what is read stays read, in a call that fails as well.
* `DerivesText`, `LongestReading` — a text derives from a rule as it is written; and what there is to say about
  the text that a call has read.
* `read_derivesText` — in front of such a text alone its tree is computed, and nothing is left.
* `calls_read_longest` — each call returns and, if with a value, has read the longest text that derives from its
  rule.
-/

set_option autoImplicit false

namespace Reckoner.Evaluation

variable {look : String → Option Float}

/-! ## What is read stays read -/

namespace Machine

variable {base : List Frame} {m m₁ : Machine}

theorem operation?_suffix {level : Level} {s rest : List Char} {op : Operation}
    (h : operation? level s = some (op, rest)) : rest <:+ s := by
  cases s with
  | nil => cases h
  | cons c s =>
    simp only [operation?] at h
    split at h
    · cases h
    · cases h
      exact List.suffix_cons _ _

theorem factor_ahead_suffix (m : Machine) : (m.factor look).ahead <:+ m.ahead := by
  unfold factor
  split
  · exact List.suffix_refl _
  · rename_i c s hahead
    rw [hahead]
    split
    · exact List.dropWhile_suffix _
    · split
      · exact List.suffix_cons c s
      · split
        · exact List.dropWhile_suffix _
        · split
          · exact List.suffix_cons c s
          · exact List.suffix_refl _

theorem call_ahead_suffix (rule : Rule) (m : Machine) : (m.call look rule).ahead <:+ m.ahead := by
  unfold call
  split
  · exact m.factor_ahead_suffix
  · exact List.suffix_refl _
  · split
    · exact List.suffix_refl _
    · rename_i hop
      exact operation?_suffix hop

theorem ahead_nest (level : Level) (m : Machine) : (m.nest level).ahead = m.ahead := by
  unfold nest
  split <;> rfl

theorem resume_ahead_suffix (frame : Frame) (outcome : Except FormulaError Float) (m : Machine) :
    (m.resume frame outcome).ahead <:+ m.ahead := by
  unfold resume
  split
  · exact List.suffix_refl _
  · exact List.suffix_refl _
  · exact List.suffix_refl _
  · exact List.suffix_refl _
  · exact List.suffix_refl _
  · split <;> exact List.tail_suffix _

theorem step_ahead_suffix (h : m.step look = some m₁) : m₁.ahead <:+ m.ahead := by
  unfold step at h
  split at h
  · cases h
    exact m.call_ahead_suffix _
  · cases h
    rw [ahead_nest]
  · cases h
  · cases h
    exact resume_ahead_suffix _ _ _

/-- **The machine never goes back in the text.** -/
theorem Runs.ahead_suffix (h : Runs look base m m₁) : m₁.ahead <:+ m.ahead := by
  induction h with
  | refl _ => exact List.suffix_refl _
  | step _ hm _ ih => exact ih.trans (step_ahead_suffix hm)

end Machine

open Machine (Runs)

/-! ## What is read derives, and is the longest that does -/

/-- The text, as it is written, derives from the rule of the level, with this tree. -/
structure DerivesText (level : Level) (u : List Char) (t : Tree) : Prop where
  derives : Derives level t.tokens t
  wellFormed : WellFormed t.tokens
  text_eq : u = Token.join t.tokens

/-- In front of `rest` the call has read `u` and returned `v`. -/
structure LongestReading (look : String → Option Float) (level : Level) (s u rest : List Char) (v : Float) :
    Prop where
  text_eq : s = u ++ rest
  ne_nil : u ≠ []
  derives : ∃ t, DerivesText level u t
  value : ∀ t, DerivesText level u t → t.value? look = some v
  longest : ∀ u' t, u' <+: s → DerivesText level u' t → u'.length ≤ u.length
  expression_behind : level = .expression → ∀ c ∈ rest.head?, c ∉ ['+', '-', '*', '/']
  term_behind : level = .term → ∀ c ∈ rest.head?, c ∉ ['*', '/']

variable {level : Level} {depth : Nat} {s u rest : List Char} {t : Tree} {v : Float}

theorem not_mem_of_stops_term (h : Stops .term rest) : ∀ c ∈ rest.head?, c ∉ ['*', '/'] := by
  intro c hc hmem
  simp only [List.mem_cons, List.not_mem_nil, or_false] at hmem
  rcases hmem with rfl | rfl
  · exact h _ hc .mul rfl rfl
  · exact h _ hc .div rfl rfl

theorem not_mem_of_stops_expression (h : Stops .expression rest) (hterm : Stops .term rest) :
    ∀ c ∈ rest.head?, c ∉ ['+', '-', '*', '/'] := by
  intro c hc hmem
  simp only [List.mem_cons, List.not_mem_nil, or_false] at hmem
  rcases hmem with rfl | rfl | rfl | rfl
  · exact h _ hc .add rfl rfl
  · exact h _ hc .sub rfl rfl
  · exact hterm _ hc .mul rfl rfl
  · exact hterm _ hc .div rfl rfl

theorem exists_derivesText_of_read (h : read look (.due level) depth s = .ok (v, rest)) :
    ∃ u t, s = u ++ rest ∧ DerivesText level u t := by
  obtain ⟨ts, t, hd, hw, hs, -⟩ := reads_of_read h
  obtain rfl := hd.tokens_eq
  exact ⟨_, t, hs, hd, hw, rfl⟩

/-- **A text that derives is read to its end**, unless its tree cannot be computed. -/
theorem read_derivesText (h : DerivesText level u t) :
    read look (.due level) depth u =
      match t.compute look depth with
      | .error e => .error e
      | .ok value => .ok (value, []) := by
  obtain ⟨hd, hw, rfl⟩ := h
  have hread := @read_join look depth level _ t hd hw [] beginsWithout_nil fun _ => stops_nil .term
  rw [List.append_nil] at hread
  rw [hread]
  cases t.compute look depth with
  | error e => rfl
  | ok value => exact read_more_stop (stops_nil level) value

theorem eq_nil_of_read_derivesText (h : DerivesText level u t)
    (hread : read look (.due level) depth u = .ok (v, rest)) : rest = [] := by
  rw [read_derivesText h] at hread
  split at hread
  · cases hread
  · cases hread
    rfl

theorem value?_of_read_derivesText (hdepth : depth ≤ maxDepth) (h : DerivesText level u t)
    (hread : read look (.due level) depth u = .ok (v, rest)) : t.value? look = some v := by
  rw [read_derivesText h] at hread
  split at hread
  · cases hread
  · rename_i hvalue
    cases hread
    exact ((Tree.compute_eq_ok_iff hdepth).mp hvalue).1

theorem longestReading_of_read (hdepth : depth ≤ maxDepth)
    (hread : read look (.due level) depth s = .ok (v, rest)) : ∃ u, LongestReading look level s u rest v := by
  obtain ⟨u, rfl, halike⟩ := read_alike hread
  obtain ⟨u', t, hu, hderives⟩ := exists_derivesText_of_read hread
  obtain rfl := List.append_cancel_right hu
  obtain ⟨hstops, hstops'⟩ := stops_of_read hread
  have hlength := length_read_due hread
  -- with nothing behind it, it is read just so
  have halone : read look (.due level) depth (u ++ []) = .ok (v, []) := halike [] (beginsAlike_nil rest)
  rw [List.append_nil] at halone
  refine ⟨u, rfl, ?_, ⟨t, hderives⟩, fun t' ht' => value?_of_read_derivesText hdepth ht' halone, ?_, ?_, ?_⟩
  · rintro rfl
    rw [List.nil_append] at hlength
    omega
  · intro u' t' hprefix ht'
    by_contra hlt
    -- a longer one would have been read to its end
    obtain ⟨more, rfl⟩ : u <+: u' :=
      List.prefix_of_prefix_length_le ⟨rest, rfl⟩ hprefix (by omega)
    obtain ⟨q, hq⟩ := hprefix
    rw [List.append_assoc] at hq
    have hrest : rest = more ++ q := (List.append_cancel_left hq).symm
    cases more with
    | nil => simp at hlt
    | cons c more =>
      have hlonger := halike (c :: more) (hrest ▸ beginsAlike_cons c more (more ++ q))
      cases eq_nil_of_read_derivesText ht' hlonger
  · rintro rfl
    exact not_mem_of_stops_expression hstops hstops'
  · rintro rfl
    exact not_mem_of_stops_term hstops

/-- **A call reads the longest text that derives from its rule**, for all values of the names, at every place of
    every text and at every depth up to the limit. The call returns, and its outcome is that of the function of
    the rule; on the way, also in a call that fails, nothing that was read is read again. And if it returns a
    value, then what it has read is not empty and derives from the rule; no longer beginning of the text derives
    from it; no operator of the rule follows; and the value is that of the derivation. -/
theorem calls_read_longest (look : String → Option Float) (level : Level) (depth : Nat) (hdepth : depth ≤ 256)
    (s : List Char) :
    (∀ frames, ∃ rest,
      Runs look frames ⟨.call (.due level), depth, s, frames⟩
        ⟨.returned ((read look (.due level) depth s).map Prod.fst), depth, rest, frames⟩ ∧
      ∀ v behind, read look (.due level) depth s = .ok (v, behind) → rest = behind) ∧
    (∀ frames m m', Runs look frames ⟨.call (.due level), depth, s, frames⟩ m → Runs look frames m m' →
      m.ahead <:+ s ∧ m'.ahead <:+ m.ahead) ∧
    ∀ v rest, read look (.due level) depth s = .ok (v, rest) → ∃ u, LongestReading look level s u rest v := by
  refine ⟨fun frames => ?_, fun frames m m' hm hm' => ⟨hm.ahead_suffix, hm'.ahead_suffix⟩,
    fun v rest hread => longestReading_of_read hdepth hread⟩
  obtain ⟨rest, hruns, hrest⟩ := (@returns_read look (.due level) depth s).comesBack frames
  exact ⟨rest, hruns, fun v behind hread => hrest _ hread⟩

/-- A name glued to a parenthesis ends the expression as well; the first term ends before the minus sign. In a group
    that is not closed the call fails, and what was read stays read. -/
theorem calls_read_longest_glued :
    let look : String → Option Float := fun name => if name = "x" then some 2 else none
    LongestReading look .expression "2*x-(3)y+1".toList "2*x-(3)".toList "y+1".toList 1 ∧
    LongestReading look .term "2*x-(3)y+1".toList "2*x".toList "-(3)y+1".toList 4 ∧
    ∃ rest, rest <:+ "(1]".toList ∧ Runs look [] ⟨.call (.due .factor), 255, "(1]".toList, []⟩
      ⟨.returned (.error .unclosedGroup), 255, rest, []⟩ := by
  intro look
  obtain ⟨-, -, hsum⟩ := calls_read_longest look .expression 255 (by decide) "2*x-(3)y+1".toList
  obtain ⟨-, -, hproduct⟩ := calls_read_longest look .term 255 (by decide) "2*x-(3)y+1".toList
  obtain ⟨hreturns, hahead, -⟩ := calls_read_longest look .factor 255 (by decide) "(1]".toList
  obtain ⟨u, hu⟩ := hsum 1 "y+1".toList (by decide +kernel)
  obtain ⟨w, hw⟩ := hproduct 4 "-(3)y+1".toList (by decide +kernel)
  have hsumtext : "2*x-(3)".toList ++ "y+1".toList = u ++ "y+1".toList := hu.text_eq
  have hproducttext : "2*x".toList ++ "-(3)y+1".toList = w ++ "-(3)y+1".toList := hw.text_eq
  obtain rfl := List.append_cancel_right hsumtext
  obtain rfl := List.append_cancel_right hproducttext
  have hfails : read look (.due .factor) 255 "(1]".toList = .error .unclosedGroup := by decide +kernel
  obtain ⟨rest, hruns, -⟩ := hreturns []
  rw [hfails] at hruns
  exact ⟨hu, hw, rest, (hahead [] _ _ (.refl (List.suffix_refl _)) hruns).2, hruns⟩

end Reckoner.Evaluation
