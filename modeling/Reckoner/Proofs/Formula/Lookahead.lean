import Reckoner.Proofs.Formula.Language

/-!
# What a reading depends on

The descent looks at what it reads and at the one character behind it. So it reads the same, with the same
value, where something else follows, as long as this begins with the same character or is nothing at all.

* `BeginsAlike` — one text is empty or begins as the other does.
* `Returns.alike`, `read_alike` — what is read in front of the one is read in front of the other, with the same
  value.
* `stops_of_read` — the character behind is no operator that could have gone on.
-/

set_option autoImplicit false

namespace Reckoner.Evaluation

variable {look : String → Option Float} {q r : List Char}

/-! ## Texts that begin alike -/

/-- The first text is empty, or begins with the character with which the second begins. -/
def BeginsAlike (r q : List Char) : Prop := ∀ c ∈ r.head?, c ∈ q.head?

theorem beginsAlike_nil (q : List Char) : BeginsAlike [] q := by simp [BeginsAlike]

theorem beginsAlike_cons (c : Char) (r q : List Char) : BeginsAlike (c :: r) (c :: q) := fun _ hc => hc

theorem BeginsAlike.append (h : BeginsAlike r q) (a : List Char) : BeginsAlike (a ++ r) (a ++ q) := by
  cases a with
  | nil => exact h
  | cons c a => exact beginsAlike_cons c _ _

theorem BeginsAlike.stops (h : BeginsAlike r q) {level : Level} (hq : Stops level q) : Stops level r :=
  fun c hc => hq c (h c hc)

theorem BeginsAlike.beginsWithout (h : BeginsAlike r q) {p : Char → Bool} (hq : BeginsWithout p q) :
    BeginsWithout p r :=
  fun c hc => hq c (h c hc)

/-- The longest run in front of `q` is the longest run in front of `r`. -/
theorem run_of_beginsAlike {p : Char → Bool} {s a : List Char} (hrest : s.dropWhile p = a ++ q)
    (h : BeginsAlike r q) :
    (s.takeWhile p ++ (a ++ r)).takeWhile p = s.takeWhile p ∧
      (s.takeWhile p ++ (a ++ r)).dropWhile p = a ++ r := by
  have hrun : ∀ c ∈ s.takeWhile p, p c = true := fun _ hc => List.mem_takeWhile_imp hc
  have hstop : BeginsWithout p (a ++ r) :=
    (h.append a).beginsWithout (hrest ▸ beginsWithout_dropWhile p s)
  exact ⟨takeWhile_append_run hrun hstop, dropWhile_append_run hrun hstop⟩

/-! ## What is read in front of either -/

/-- An operand that is the longest run of `p` characters is the same operand in front of `r`. -/
theorem returns_run_alike {p : Char → Bool} {depth : Nat} {c : Char} {s a : List Char} {x : Float} (hc : p c = true)
    (hrest : (c :: s).dropWhile p = a ++ q)
    (hreturns : ∀ s', (c :: s').takeWhile p = (c :: s).takeWhile p →
      Returns look (.due .factor) depth (c :: s') (.ok (x, (c :: s').dropWhile p))) :
    ∃ u, c :: s = u ++ (a ++ q) ∧
      ∀ r, BeginsAlike r q → Returns look (.due .factor) depth (u ++ (a ++ r)) (.ok (x, a ++ r)) := by
  refine ⟨(c :: s).takeWhile p, by rw [← hrest, List.takeWhile_append_dropWhile], fun r hr => ?_⟩
  obtain ⟨htake, hdrop⟩ := run_of_beginsAlike hrest hr
  have htext : (c :: s).takeWhile p ++ (a ++ r) = c :: (s.takeWhile p ++ (a ++ r)) := by
    rw [List.takeWhile_cons_of_pos hc, List.cons_append]
  rw [htext] at htake hdrop ⊢
  have hreads := hreturns _ htake
  rwa [hdrop] at hreads

/-- Where `a` is not yet read and something is behind it, something else may be behind it. By induction on how
    the result comes about: what a first part leaves is what a later part reads, and then `a`. -/
theorem Returns.alike {rule : Rule} {depth : Nat} {s : List Char}
    {result : Except FormulaError (Float × List Char)} (h : Returns look rule depth s result) {x : Float}
    {a : List Char} (hresult : result = .ok (x, a ++ q)) :
    ∃ u, s = u ++ (a ++ q) ∧
      ∀ r, BeginsAlike r q → Returns look rule depth (u ++ (a ++ r)) (.ok (x, a ++ r)) := by
  induction h generalizing x a with
  | stop hs =>
    cases hresult
    exact ⟨[], rfl, fun r hr => .stop ((hr.append a).stops hs)⟩
  | @again op _ _ _ _ _ _ _ _ ihy ih =>
    obtain ⟨u₂, rfl, hlater⟩ := ih hresult
    obtain ⟨u₁, rfl, hoperand⟩ := ihy (a := u₂ ++ a) (by rw [List.append_assoc])
    refine ⟨op.mark :: (u₁ ++ u₂), by simp, fun r hr => ?_⟩
    have hy := hoperand r hr
    rw [List.append_assoc u₂] at hy
    rw [List.cons_append, List.append_assoc]
    exact .again hy (hlater r hr)
  | first hl _ _ ihx ih =>
    obtain ⟨u₂, rfl, hlater⟩ := ih hresult
    obtain ⟨u₁, rfl, hoperand⟩ := ihx (a := u₂ ++ a) (by rw [List.append_assoc])
    refine ⟨u₁ ++ u₂, by simp, fun r hr => ?_⟩
    have hx := hoperand r hr
    rw [List.append_assoc u₂] at hx
    rw [List.append_assoc]
    exact .first hl hx (hlater r hr)
  | literal hc hx =>
    obtain ⟨rfl, hrest⟩ := Prod.mk.inj (Except.ok.inj hresult)
    exact returns_run_alike hc hrest fun s' htake => .literal hc (htake ▸ hx)
  | name hc hx =>
    obtain ⟨rfl, hrest⟩ := Prod.mk.inj (Except.ok.inj hresult)
    exact returns_run_alike hc hrest fun s' htake => .name hc (htake ▸ hx)
  | group hd _ ihx =>
    cases hresult
    obtain ⟨u, rfl, hinner⟩ := ihx (a := ')' :: a) rfl
    refine ⟨'(' :: (u ++ [')']), by simp, fun r hr => ?_⟩
    have hx := hinner r hr
    rw [List.cons_append, List.append_assoc]
    exact .group hd hx
  | negation hd _ ihx =>
    cases hresult
    obtain ⟨u, rfl, hoperand⟩ := ihx rfl
    exact ⟨'-' :: u, rfl, fun r hr => .negation hd (hoperand r hr)⟩
  | _ => cases hresult

/-- **What is read in front of a text is read in front of every text that begins alike.** -/
theorem read_alike {level : Level} {depth : Nat} {s : List Char} {x : Float}
    (h : read look (.due level) depth s = .ok (x, q)) :
    ∃ u, s = u ++ q ∧ ∀ r, BeginsAlike r q → read look (.due level) depth (u ++ r) = .ok (x, r) := by
  obtain ⟨u, hs, halike⟩ := (returns_iff.mpr h).alike (a := []) rfl
  exact ⟨u, hs, fun r hr => (halike r hr).read_eq⟩

/-- What has been read is in front of what is left. -/
theorem exists_append_of_read {rule : Rule} {depth : Nat} {s rest : List Char} {x : Float}
    (h : read look rule depth s = .ok (x, rest)) : ∃ r, s = r ++ rest := by
  obtain ⟨r, hs, -⟩ := (returns_iff.mpr h).alike (a := []) rfl
  exact ⟨r, hs⟩

/-! ## What is not behind -/

/-- An operand ends where neither its level nor the next tighter one goes on; what is added to it ends so as well. -/
theorem Returns.stops {rule : Rule} {depth : Nat} {s : List Char}
    {result : Except FormulaError (Float × List Char)} (h : Returns look rule depth s result) {x : Float}
    (hresult : result = .ok (x, q)) :
    match rule with
    | .due level => Stops level q ∧ Stops level.tighter q
    | .more level _ => Stops level.tighter s → Stops level q ∧ Stops level.tighter q := by
  induction h generalizing x q with
  | stop hs =>
    cases hresult
    exact fun htighter => ⟨hs, htighter⟩
  | again _ _ ihy ih => exact fun _ => ih hresult (ihy rfl).1
  | first hl _ _ ihx ih => exact ih hresult (ihx rfl).1
  | literal _ _ | name _ _ | group _ _ | negation _ _ => exact ⟨stops_factor _, stops_factor _⟩
  | _ => cases hresult

theorem stops_of_read {level : Level} {depth : Nat} {s : List Char} {x : Float}
    (h : read look (.due level) depth s = .ok (x, q)) : Stops level q ∧ Stops level.tighter q :=
  (returns_iff.mpr h).stops rfl

end Reckoner.Evaluation
