import Reckoner.Proofs.NameOrder
import Reckoner.Proofs.Supply.ConsoleLines

/-!
# Requests to a console and lines of its input correspond one to one

Whatever is asked for and whatever the lines hold, each request is answered by the next line and takes nothing
else from the input.

* `Console.answer_eq_of_getElem?_eq`, `Console.cut_unread_afterAsking` — a request takes the line at its place,
  and no other line has a part in the answer.
* `Console.requests_match_lines` — all of it, for every console and every list of names.
-/

set_option autoImplicit false

namespace Reckoner

namespace Console

/-! ## Requests in turn -/

variable {c d : Console} {names others : List String} {i : Nat} {e e' : Exchange}

/-- The request at a place is answered by the line at that place. -/
theorem answer_of_getElem? (h : (askInTurn c names)[i]? = some e) :
    e.answer = answerOfLine ((lines c.unread).getD i []) := by
  rw [askInTurn_eq, List.getElem?_mapIdx, Option.map_eq_some_iff] at h
  obtain ⟨name, -, rfl⟩ := h
  rfl

/-- The same line at the same place answers the same, whatever else is asked for and is in the input. -/
theorem answer_eq_of_getElem?_eq (h : (askInTurn c names)[i]? = some e)
    (h' : (askInTurn d others)[i]? = some e') (hline : (lines d.unread)[i]? = (lines c.unread)[i]?) :
    e'.answer = e.answer := by
  rw [answer_of_getElem? h, answer_of_getElem? h', List.getD_eq_getElem?_getD, List.getD_eq_getElem?_getD,
    hline]

/-- What the requests leave unread are the lines behind those that were taken, one for each request. -/
theorem cut_unread_afterAsking (c : Console) (names : List String) :
    Cut (afterAsking c names).unread ((lines c.unread).drop names.length) := by
  induction names generalizing c with
  | nil => exact cut_lines c.unread
  | cons name names ih =>
    rw [List.length_cons, ← List.drop_tail, tail_lines]
    exact ih (c.request name).2

/-- **Requests to a console and lines of its input correspond one to one**, for every input and all names that
    are asked for. Let the input be cut behind each newline. The request at a place is answered by the piece at
    that place: if it is not UTF-8, that it cannot be read; else the number that it is without the white space
    at its ends, or that what is left then is malformed. A request for which there is no piece finds the input
    exhausted. No name and no earlier answer has a part in this. Each request takes its own piece from the input
    and nothing else, and writes its own prompt. -/
theorem requests_match_lines (c : Console) (names : List String) : ∃ pieces, Cut c.unread pieces ∧
    (askInTurn c names).map Exchange.name = names ∧
    (∀ (i : Nat) (e : Exchange), (askInTurn c names)[i]? = some e → LineAnswers pieces[i]? e.answer) ∧
    (∀ (i : Nat) (e : Exchange), (askInTurn c names)[i]? = some e → pieces.length ≤ i →
      e.answer = .error .exhausted) ∧
    (∀ (d : Console) (others : List String) (pieces' : List Bytes), Cut d.unread pieces' →
      ∀ (i : Nat) (e e' : Exchange), (askInTurn c names)[i]? = some e →
        (askInTurn d others)[i]? = some e' → pieces'[i]? = pieces[i]? → e'.answer = e.answer) ∧
    Cut (afterAsking c names).unread (pieces.drop names.length) ∧
    (pieces.take names.length).flatten ++ (afterAsking c names).unread = c.unread ∧
    (afterAsking c names).written =
      c.written ++ String.join (names.map fun name => "Enter value for variable " ++ name ++ ": ") := by
  refine ⟨lines c.unread, cut_lines c.unread, map_name_askInTurn c names, fun i e he => ?_,
    fun i e he hi => ?_, fun d others pieces hcut i e e' he he' hsame => ?_, cut_unread_afterAsking c names,
    ?_, ?_⟩
  · exact answerOfLine_getD_eq_iff.mp (answer_of_getElem? he).symm
  · rw [answer_of_getElem? he, List.getD_eq_getElem?_getD, List.getElem?_eq_none hi]
    rfl
  · rw [hcut.eq_lines] at hsame
    exact answer_eq_of_getElem?_eq he he' hsame
  · rw [afterAsking_eq, ← List.flatten_append, List.take_append_drop, flatten_lines]
  · rw [afterAsking_eq]
    rfl

/-- Behind a line that cannot be read a line is answered as it is behind one that can; a name that is asked for
    twice takes two lines and is prompted for twice, and the request behind the last line finds none. -/
theorem requests_match_lines_unreadable :
    let c : Console := ⟨[255, 10] ++ utf8Bytes " 2\r\nfive", ""⟩
    let d : Console := ⟨utf8Bytes "7\n 2\r\n", ""⟩
    ∃ second second' fourth : Exchange,
      (askInTurn c ["x", "x", "y", "z"])[1]? = some second ∧ (askInTurn d ["a", "b"])[1]? = some second' ∧
      second'.answer = second.answer ∧ (askInTurn c ["x", "x", "y", "z"])[3]? = some fourth ∧
      fourth.answer = .error .exhausted ∧ Cut (afterAsking c ["x", "x"]).unread [utf8Bytes "five"] ∧
      (afterAsking c ["x", "x"]).written = "Enter value for variable x: Enter value for variable x: " := by
  intro c d
  have hlines : lines c.unread = [[255, 10], utf8Bytes " 2\r\n", utf8Bytes "five"] := by decide +kernel
  have hlines' : lines d.unread = [utf8Bytes "7\n", utf8Bytes " 2\r\n"] := by decide +kernel
  obtain ⟨pieces, hcut, -, -, hend, hsame, -⟩ := requests_match_lines c ["x", "x", "y", "z"]
  obtain ⟨pieces', hcut', -, -, -, -, hunread, -, hwritten⟩ := requests_match_lines c ["x", "x"]
  rw [hcut'.eq_lines, hlines] at hunread
  have hpieces := hcut.eq_lines.trans hlines
  subst hpieces
  refine ⟨_, _, _, rfl, rfl, ?_, rfl, hend 3 _ rfl (Nat.le_refl 3), hunread, hwritten.trans (by decide)⟩
  exact hsame d ["a", "b"] _ (cut_lines d.unread) 1 _ _ rfl rfl (by rw [hlines']; rfl)

end Console

end Reckoner
