import Mathlib.Data.List.Forall2
import Reckoner.Proofs.Decimal.WhiteSpace
import Reckoner.Proofs.Supply.Requests
import Reckoner.Proofs.Text.Lines
import Reckoner.Supply.Console

/-!
# A console answers line by line

* `Trimmed` — a text without the white space at its ends; `trimmed_iff`: there is one such.
* `LineAnswers` — what a line, or the lack of one, answers.
* `Console.askInTurn_eq` — requests and lines correspond one to one: the answer to the request at a place is
  the line at that place, whatever the names are and whatever the lines before it were.
* `Console.afterAsking_eq` — what is left unread are the further lines, and what was written are the prompts.
* `Console.answerOfLine_getD_eq_iff`, `Console.answerOfLine_eq_ok_iff`, `Console.gives_iff` — which lines are values, and what
  the others are.
* `Console.askInTurn_eq_ok_iff` — the requests bring the values that the lines give.
-/

set_option autoImplicit false

namespace Reckoner

/-! ## What a line answers -/

/-- The body is the text without the white space at its two ends. -/
def Trimmed (s body : List Char) : Prop :=
  ∃ lead trail, s = lead ++ body ++ trail ∧ (∀ c ∈ lead, isWhiteSpace c = true) ∧
    (∀ c ∈ trail, isWhiteSpace c = true) ∧ BeginsWithout isWhiteSpace body ∧ EndsWithout isWhiteSpace body

theorem trimmed_iff {s body : List Char} : Trimmed s body ↔ body = trimWhiteSpace s := by
  constructor
  · rintro ⟨lead, trail, rfl, hlead, htrail, hbegins, hends⟩
    exact ((trimWhile_append_append isWhiteSpace body hlead htrail).trans
      (trimWhile_eq_self isWhiteSpace body hbegins hends)).symm
  · rintro rfl
    obtain ⟨lead, trail, heq, hlead, htrail⟩ := exists_append_trimWhile isWhiteSpace s
    exact ⟨lead, trail, heq, hlead, htrail, trimWhile_ends isWhiteSpace s⟩

/-- What a request is answered that finds this line, or that finds none. -/
inductive LineAnswers : Option Bytes → Answer → Prop where
  | exhausted : LineAnswers none (.error .exhausted)
  | unreadable {line : Bytes} (h : decodeUtf8 line = none) :
      LineAnswers (some line) (.error (.unreadable "stream did not contain valid UTF-8"))
  | value {line : Bytes} {text : String} {body : List Char} {v : Float} (h : decodeUtf8 line = some text)
      (htrimmed : Trimmed text.toList body) (hread : Decimal.read body = .ok v) :
      LineAnswers (some line) (.ok v)
  | malformed {line : Bytes} {text : String} {body : List Char} {flaw : Decimal.Flaw}
      (h : decodeUtf8 line = some text) (htrimmed : Trimmed text.toList body)
      (hread : Decimal.read body = .error flaw) :
      LineAnswers (some line) (.error (.malformed (String.ofList body) flaw))

namespace Console

theorem answerOfLine_eq_iff {line : Bytes} {a : Answer} (hne : line ≠ []) :
    answerOfLine line = a ↔ LineAnswers (some line) a := by
  constructor
  · rintro rfl
    unfold answerOfLine
    rw [if_neg hne]
    cases hdecode : decodeUtf8 line with
    | none => exact .unreadable hdecode
    | some text =>
      have htrimmed : Trimmed text.toList (trimWhiteSpace text.toList) := trimmed_iff.mpr rfl
      cases hread : Decimal.read (trimWhiteSpace text.toList) with
      | ok v => simpa only [hread] using LineAnswers.value hdecode htrimmed hread
      | error flaw => simpa only [hread] using LineAnswers.malformed hdecode htrimmed hread
  · intro h
    cases h with
    | unreadable hdecode =>
      simp only [answerOfLine, if_neg hne, hdecode]
      rfl
    | value hdecode htrimmed hread | malformed hdecode htrimmed hread =>
      obtain rfl := trimmed_iff.mp htrimmed
      simp only [answerOfLine, if_neg hne, hdecode, hread]

/-- **What is answered at a place** is a matter of the line there; behind the last line the input is exhausted. -/
theorem answerOfLine_getD_eq_iff {bs : Bytes} {i : Nat} {a : Answer} :
    answerOfLine ((lines bs).getD i []) = a ↔ LineAnswers (lines bs)[i]? a := by
  rw [List.getD_eq_getElem?_getD]
  cases hline : (lines bs)[i]? with
  | none =>
    constructor
    · rintro rfl
      exact .exhausted
    · rintro ⟨⟩
      rfl
  | some line => exact answerOfLine_eq_iff (ne_nil_of_mem_lines (List.mem_of_getElem? hline))

/-! ## Requests -/

/-- **Requests and lines correspond one to one.** Behind the last line every request finds no bytes. -/
theorem askInTurn_eq (c : Console) (names : List String) :
    askInTurn c names =
      names.mapIdx fun i name => ⟨name, answerOfLine ((lines c.unread).getD i [])⟩ := by
  induction names generalizing c with
  | nil => rfl
  | cons name names ih =>
    rw [askInTurn_cons, ih, List.mapIdx_cons, getD_lines_zero]
    simp only [getD_lines_succ]
    rfl

/-- What the console has read and written after some requests. -/
theorem afterAsking_eq (c : Console) (names : List String) :
    afterAsking c names = ⟨((lines c.unread).drop names.length).flatten,
      c.written ++ String.join (names.map prompt)⟩ := by
  induction names generalizing c with
  | nil => simp [afterAsking, flatten_lines]
  | cons name names ih =>
    show afterAsking (c.request name).2 names = _
    rw [ih, List.length_cons, flatten_drop_lines_succ, List.map_cons, String.join_cons,
      ← String.append_assoc]
    rfl

/-! ## Which lines are values -/

/-- The line is text and, without the white space at its ends, a numeral of this value. -/
def Gives (line : Bytes) (v : Float) : Prop :=
  ∃ text, decodeUtf8 line = some text ∧ Decimal.read (trimWhiteSpace text.toList) = .ok v

theorem answerOfLine_eq_ok_iff {line : Bytes} {v : Float} :
    answerOfLine line = .ok v ↔ line ≠ [] ∧ Gives line v := by
  unfold answerOfLine Gives
  by_cases hline : line = []
  · simp [hline]
  · rw [if_neg hline]
    cases decodeUtf8 line with
    | none => simp
    | some text => cases hread : Decimal.read (trimWhiteSpace text.toList) <;> simp [hline, hread]

/-- A line that gives a value is text with a numeral in it and white space around the numeral. -/
theorem gives_iff {line : Bytes} {v : Float} : Gives line v ↔ ∃ lead body trail : List Char,
    decodeUtf8 line = some (String.ofList (lead ++ body ++ trail)) ∧
      (∀ c ∈ lead, isWhiteSpace c = true) ∧ (∀ c ∈ trail, isWhiteSpace c = true) ∧
      Decimal.read body = .ok v := by
  unfold Gives
  constructor
  · rintro ⟨text, hdecode, hread⟩
    obtain ⟨lead, body, trail, heq, h⟩ := Decimal.read_trimWhiteSpace_eq_ok_iff.mp hread
    exact ⟨lead, body, trail, by rw [hdecode, ← heq, String.ofList_toList], h⟩
  · rintro ⟨lead, body, trail, hdecode, h⟩
    refine ⟨_, hdecode, Decimal.read_trimWhiteSpace_eq_ok_iff.mpr ⟨lead, body, trail, ?_, h⟩⟩
    rw [String.toList_ofList]

/-- The first lines give these values, each line one. -/
def GivesAll (bs : Bytes) (values : List Float) : Prop :=
  List.Forall₂ Gives ((lines bs).take values.length) values

theorem givesAll_nil (bs : Bytes) : GivesAll bs [] := by
  simp [GivesAll]

theorem givesAll_cons {bs : Bytes} {v : Float} {values : List Float} : GivesAll bs (v :: values) ↔
    answerOfLine (takeLine bs).1 = .ok v ∧ GivesAll (takeLine bs).2 values := by
  rw [answerOfLine_eq_ok_iff]
  unfold GivesAll
  cases bs with
  | nil => simp [lines_nil, takeLine]
  | cons b bs => simp [lines_cons, takeLine_cons_ne_nil]

/-- Each value is what the line at its place answers. -/
theorem givesAll_iff {bs : Bytes} {values : List Float} : GivesAll bs values ↔
    ∀ (i : Nat) (v : Float), values[i]? = some v → LineAnswers (lines bs)[i]? (.ok v) := by
  induction values generalizing bs with
  | nil => simp [givesAll_nil]
  | cons v values ih =>
    rw [givesAll_cons, ih, ← Nat.and_forall_add_one (p := fun i =>
      ∀ w, (v :: values)[i]? = some w → LineAnswers (lines bs)[i]? (.ok w))]
    simp only [← answerOfLine_getD_eq_iff, getD_lines_zero, getD_lines_succ, List.getElem?_cons_zero,
      List.getElem?_cons_succ, Option.some.injEq, forall_eq']

/-- **Which values the requests bring** is a matter of the lines alone. -/
theorem askInTurn_eq_ok_iff {c : Console} {names : List String} {values : List Float}
    (hlength : values.length = names.length) :
    askInTurn c names = answeredWith (names.zip values) ↔ GivesAll c.unread values := by
  induction names generalizing c values with
  | nil =>
    rw [List.length_eq_zero_iff.mp hlength]
    exact iff_of_true rfl (givesAll_nil _)
  | cons name names ih =>
    cases values with
    | nil => cases hlength
    | cons v values =>
      have hlater := ih (c := (c.request name).2) (Nat.succ.inj hlength)
      rw [askInTurn_cons, List.zip_cons_cons, answeredWith, List.map_cons, List.cons_eq_cons, givesAll_cons]
      refine and_congr ?_ hlater
      rw [Exchange.mk.injEq, and_iff_right rfl]
      rfl

theorem exists_givesAll {c : Console} {names : List String}
    (h : ∀ e ∈ askInTurn c names, ∃ v, e.answer = .ok v) :
    ∃ values : List Float, values.length = names.length ∧ GivesAll c.unread values := by
  induction names generalizing c with
  | nil => exact ⟨[], rfl, givesAll_nil _⟩
  | cons name names ih =>
    rw [askInTurn_cons, List.forall_mem_cons] at h
    obtain ⟨⟨v, hv⟩, h⟩ := h
    obtain ⟨values, hlength, hvalues⟩ := ih h
    exact ⟨v :: values, congrArg Nat.succ hlength, givesAll_cons.mpr ⟨hv, hvalues⟩⟩

end Console

end Reckoner
