import Reckoner.Proofs.Formula.Spelling
import Reckoner.Proofs.Text.Replacement

/-!
# Substituting a group for a name

The same substitution at three places: in a tree, in its tokens and in a spelling of them. A name becomes
the substituted formula in parentheses.

* `Derives.substitute` — the substituted tokens derive with the substituted tree.
* `Spelled.substitute` — the text in which each run of letters equal to the name is replaced is a spelling
  of the substituted tokens. In a derivation no two operands touch, so each such run is one token.
* `Tree.value?_substitute` — the value is that of the tree where the name has the value of the group.
* `Tree.depth_substitute_le_iff` — the depth is decided by the tree and by how deep the name occurs in it.
-/

set_option autoImplicit false

namespace Reckoner

/-! ## Trees -/

namespace Tree

/-- The tree with `u`, in parentheses, in place of the name. -/
def substitute (t : Tree) (x : String) (u : Tree) : Tree :=
  match t with
  | literal text => literal text
  | name text => if String.ofList text = x then group u else name text
  | negation operand => negation (operand.substitute x u)
  | operation op left right => operation op (left.substitute x u) (right.substitute x u)
  | group inner => group (inner.substitute x u)

/-- How many groups and negations are around each occurrence of the name, from left to right. -/
def depthsOf (x : String) : Tree → List Nat
  | literal _ => []
  | name text => if String.ofList text = x then [0] else []
  | negation operand => (operand.depthsOf x).map (· + 1)
  | operation _ left right => left.depthsOf x ++ right.depthsOf x
  | group inner => (inner.depthsOf x).map (· + 1)

variable {x : String} {u : Tree}

/-- **The value**: what is substituted counts as the value of the name. -/
theorem value?_substitute {look : String → Option Float} {v : Float} (hu : u.value? look = some v)
    (t : Tree) :
    (t.substitute x u).value? look = t.value? fun y => if y = x then some v else look y := by
  induction t with
  | literal text => rfl
  | name text =>
    unfold substitute
    split
    · rename_i hx
      rw [value?, value?, if_pos hx, hu]
    · rename_i hx
      rw [value?, value?, if_neg hx]
  | negation operand ih => rw [substitute, value?, value?, ih]
  | operation op left right ihl ihr => rw [substitute, value?, value?, ihl, ihr]
  | group inner ih => exact ih

/-- **The depth**: an occurrence at depth `d` brings one group more and what is in the group. -/
theorem depth_substitute_le_iff {t : Tree} {n : Nat} :
    (t.substitute x u).depth ≤ n ↔ t.depth ≤ n ∧ ∀ d ∈ t.depthsOf x, d + 1 + u.depth ≤ n := by
  induction t generalizing n with
  | literal text => simp [substitute, depthsOf, depth]
  | name text =>
    unfold substitute depthsOf
    split <;> simp [depth]
    omega
  | operation op left right ihl ihr =>
    simp only [substitute, depthsOf, depth, Nat.max_le, ihl, ihr, List.forall_mem_append]
    exact and_and_and_comm
  | negation inner ih | group inner ih =>
    simp only [substitute, depthsOf, depth, List.forall_mem_map]
    cases n with
    | zero => simp
    | succ n =>
      rw [Nat.add_le_add_iff_right, Nat.add_le_add_iff_right, ih]
      exact and_congr_right fun _ => forall₂_congr fun d _ => by omega

end Tree

/-! ## Tokens -/

/-- What is put for a token when the tokens `us`, in parentheses, are put for the name. -/
def Token.substitute (x : String) (us : List Token) : Token → List Token
  | .name text => if String.ofList text = x then .opening :: us ++ [.closing] else [.name text]
  | t => [t]

/-- The tokens with `us`, in parentheses, in place of each name `x`. -/
def substituteTokens (x : String) (us ts : List Token) : List Token :=
  ts.flatMap (Token.substitute x us)

variable {level : Level} {ts us : List Token} {t u : Tree} {x : String}

theorem substituteTokens_cons (t : Token) (ts : List Token) :
    substituteTokens x us (t :: ts) = t.substitute x us ++ substituteTokens x us ts :=
  List.flatMap_cons

theorem substituteTokens_group (ts : List Token) :
    substituteTokens x us (.opening :: ts ++ [.closing]) =
      .opening :: substituteTokens x us ts ++ [.closing] := by
  simp [substituteTokens, Token.substitute]

theorem substituteTokens_negation (ts : List Token) :
    substituteTokens x us (.operation .sub :: ts) = .operation .sub :: substituteTokens x us ts := by
  simp [substituteTokens, Token.substitute]

theorem substituteTokens_chain (op : Operation) (ls rs : List Token) :
    substituteTokens x us (ls ++ .operation op :: rs) =
      substituteTokens x us ls ++ .operation op :: substituteTokens x us rs := by
  simp [substituteTokens, Token.substitute]

/-- **The substituted tokens derive with the substituted tree**, at every level. -/
theorem Derives.substitute (h : Derives level ts t) (hu : Derives .expression us u) :
    Derives level (substituteTokens x us ts) (t.substitute x u) := by
  induction h with
  | literal text => exact .literal text
  | name text =>
    rw [substituteTokens, List.flatMap_singleton]
    by_cases hx : String.ofList text = x
    · rw [Token.substitute, Tree.substitute, if_pos hx, if_pos hx]
      exact .group hu
    · rw [Token.substitute, Tree.substitute, if_neg hx, if_neg hx]
      exact .name text
  | group _ ih =>
    rw [substituteTokens_group]
    exact .group ih
  | negation _ ih =>
    rw [substituteTokens_negation]
    exact .negation ih
  | term _ ih => exact .term ih
  | expression _ ih => exact .expression ih
  | chain _ _ ihl ihr =>
    rw [substituteTokens_chain]
    exact .chain ihl ihr

/-! ## Texts -/

/-- The text with `r`, in parentheses, in place of each run of letters that is the name. -/
def substituteName (x : String) (r : List Char) (s : List Char) : List Char :=
  replaceRuns Char.isAlpha (fun w => if String.ofList w = x then '(' :: r ++ [')'] else w) s

/-- A spelling in parentheses is a spelling of the tokens in parentheses. -/
theorem Spelled.group {r : List Char} (h : Spelled us r) :
    Spelled (.opening :: us ++ [.closing]) ('(' :: r ++ [')']) :=
  ((Spelled.single (t := .opening) trivial).append h).append (Spelled.single (t := .closing) trivial)

/-- A spelling begins with an operand character only if its first token does. -/
theorem Spelled.beginsWithout {s : List Char} (h : Spelled ts s)
    (hts : ∀ t ∈ ts.head?, ∀ y ∈ t.text.head?, isOperandChar y = false) :
    BeginsWithout isOperandChar s := by
  intro c hc
  cases h with
  | blanks hgap => exact isOperandChar_of_isBlank (hgap c (List.mem_of_head? hc))
  | @token t ts gap rest hgap ht _ =>
    cases gap with
    | cons d gap =>
      have hd : d = c := by simpa using hc
      exact isOperandChar_of_isBlank (hgap c (by simp [hd]))
    | nil =>
      refine hts t (by simp) c ?_
      cases htext : t.text with
      | nil => exact absurd htext (Token.text_ne_nil ht)
      | cons d w => simpa [htext] using hc

/-- The run of letters that a name begins ends with the name. -/
theorem Spelled.beginsWithout_letter {w rest : List Char} (h : Spelled ts rest) (hne : w ≠ [])
    (hw : ∀ c ∈ w, c.isAlpha = true) (hnext : ∀ u ∈ ts.head?, (Token.name w).separate u) :
    BeginsWithout Char.isAlpha rest := by
  refine (h.beginsWithout fun u hu y hy => ?_).mono fun _ => isOperandChar_of_isAlpha
  have hlast := isOperandChar_of_isAlpha (hw _ (List.getLast_mem hne))
  rcases hnext u hu _ (List.getLast?_eq_some_getLast hne) y hy with hno | hno
  · exact absurd hlast (by simp [hno])
  · exact hno

/-- Only names contain letters. -/
theorem Token.name_or_no_letter {t : Token} (ht : t.wellFormed) :
    (∃ w, t = .name w ∧ w ≠ [] ∧ ∀ c ∈ w, c.isAlpha = true) ∨
      (∀ c ∈ t.text, c.isAlpha = false) ∧ ∀ x us, t.substitute x us = [t] := by
  cases t with
  | name w => exact Or.inl ⟨w, rfl, ht⟩
  | literal w => exact Or.inr ⟨fun c hc => isAlpha_of_isLiteralChar (ht.2 c hc), fun _ _ => rfl⟩
  | operation op =>
    refine Or.inr ⟨fun c hc => ?_, fun _ _ => rfl⟩
    rw [List.mem_singleton.mp hc]
    cases op <;> decide
  | opening | closing =>
    refine Or.inr ⟨fun c hc => ?_, fun _ _ => rfl⟩
    rw [List.mem_singleton.mp hc]
    decide

/-- **The text in which the name is replaced is a spelling of the substituted tokens**, if no two operands
    touch. -/
theorem Spelled.substitute {s r : List Char} (h : Spelled ts s) (hts : ts.IsChain Token.separate)
    (hr : Spelled us r) : Spelled (substituteTokens x us ts) (substituteName x r s) := by
  have hblank : ∀ {gap : List Char}, (∀ c ∈ gap, isBlank c = true) → ∀ c ∈ gap, c.isAlpha = false :=
    fun hgap c hc => isAlpha_of_isBlank (hgap c hc)
  unfold substituteName
  induction h with
  | @blanks gap hgap =>
    rw [replaceRuns_eq_self (hblank hgap)]
    exact .blanks hgap
  | @token t ts gap rest hgap ht hrest ih =>
    obtain ⟨hnext, hlater⟩ := List.isChain_cons.mp hts
    have ih := ih hlater
    rw [substituteTokens_cons, List.append_assoc, replaceRuns_append_of_none (hblank hgap)]
    refine Spelled.prepend hgap ?_
    rcases Token.name_or_no_letter ht with ⟨w, rfl, hne, hw⟩ | ⟨hnone, hself⟩
    · rw [Token.text, replaceRuns_append_run hne hw (hrest.beginsWithout_letter hne hw hnext)]
      by_cases hx : String.ofList w = x
      · rw [Token.substitute, if_pos hx, if_pos hx]
        exact hr.group.append ih
      · rw [Token.substitute, if_neg hx, if_neg hx]
        exact (Spelled.single ht).append ih
    · rw [replaceRuns_append_of_none hnone, hself]
      exact (Spelled.single ht).append ih

end Reckoner
