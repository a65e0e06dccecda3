import Mathlib.Data.List.Sort
import Reckoner.Formula.Names
import Reckoner.Proofs.NameMap
import Reckoner.Proofs.Text.Runs
import Reckoner.Text.Line

/-!
# The order of names

A map keeps its names in the order of their characters.

* `lt_iff_utf8Bytes_lt` — this is the order of their bytes. UTF-8 was made for it: the first byte of a
  character tells how long it is, and the bits of its code point follow from the highest to the lowest.
* `namesInOrder_iff` — the names of a text in the order of their bytes are those that `namesIn` lists.
-/

set_option autoImplicit false

namespace Reckoner

/-- The bytes of a text in UTF-8. -/
def utf8Bytes (text : String) : Bytes := text.toUTF8.data.toList

theorem utf8Bytes_eq (text : String) :
    utf8Bytes text = text.toList.flatMap String.utf8EncodeChar := by
  unfold utf8Bytes
  rw [String.toUTF8_eq_toByteArray, ← String.utf8Encode_toList, List.utf8Encode]
  simp

/-! ## One character -/

theorem codePoint_lt (c : Char) : c.val.toNat < 1114112 := by
  have h := c.valid
  simp only [UInt32.isValidChar, Nat.isValidChar] at h
  omega

/-- Numbers compare like their digits. -/
theorem div_lt_or_mod_lt {m n : Nat} (h : m < n) :
    m / 64 < n / 64 ∨ (m / 64 = n / 64 ∧ m % 64 < n % 64) := by
  omega

/-- The bytes of two characters with four bytes each: three of them carry a digit to the base 64. -/
theorem fourBytes_lt {m n : Nat} (h : m < n) (hn : n < 1114112) :
    (m / 262144 % 8 + 240) % 256 < (n / 262144 % 8 + 240) % 256 ∨
      (m / 262144 % 8 + 240) % 256 = (n / 262144 % 8 + 240) % 256 ∧
        ((m / 4096 % 64 + 128) % 256 < (n / 4096 % 64 + 128) % 256 ∨
          (m / 4096 % 64 + 128) % 256 = (n / 4096 % 64 + 128) % 256 ∧
            ((m / 64 % 64 + 128) % 256 < (n / 64 % 64 + 128) % 256 ∨
              (m / 64 % 64 + 128) % 256 = (n / 64 % 64 + 128) % 256 ∧
                (m % 64 + 128) % 256 < (n % 64 + 128) % 256)) := by
  rw [show m / 262144 = m / 64 / 64 / 64 by omega, show n / 262144 = n / 64 / 64 / 64 by omega,
    show m / 4096 = m / 64 / 64 by omega, show n / 4096 = n / 64 / 64 by omega]
  rcases div_lt_or_mod_lt h with h | ⟨h, hlast⟩
  · rcases div_lt_or_mod_lt h with h | ⟨h, hthird⟩
    · rcases div_lt_or_mod_lt h with hfirst | ⟨h, hsecond⟩
      · left
        omega
      · rw [h]
        refine Or.inr ⟨rfl, Or.inl ?_⟩
        omega
    · rw [h]
      refine Or.inr ⟨rfl, Or.inr ⟨rfl, Or.inl ?_⟩⟩
      omega
  · rw [h]
    refine Or.inr ⟨rfl, Or.inr ⟨rfl, Or.inr ⟨rfl, ?_⟩⟩⟩
    omega

/-- The smaller character has the smaller bytes, whatever comes behind them. -/
theorem utf8EncodeChar_append_lt {c d : Char} (h : c < d) (s t : Bytes) :
    String.utf8EncodeChar c ++ s < String.utf8EncodeChar d ++ t := by
  have hlt : c.val.toNat < d.val.toNat := h
  have hd := codePoint_lt d
  unfold String.utf8EncodeChar
  simp only
  rcases Nat.lt_or_ge c.val.toNat 65536 with hshort | hlong
  · split_ifs <;> simp only [List.cons_append, List.nil_append, List.cons_lt_cons_iff,
      UInt8.lt_iff_toNat_lt, UInt8.toNat_ofNat', Nat.reducePow, ← UInt8.toNat_inj] <;> omega
  · -- both have four bytes
    have hfour := fourBytes_lt hlt hd
    rw [if_neg (by omega), if_neg (by omega), if_neg (by omega), if_neg (by omega), if_neg (by omega),
      if_neg (by omega)]
    simp only [List.cons_append, List.nil_append, List.cons_lt_cons_iff, UInt8.lt_iff_toNat_lt,
      UInt8.toNat_ofNat', Nat.reducePow, ← UInt8.toNat_inj]
    exact hfour.imp_right (And.imp_right (Or.imp_right (And.imp_right (Or.imp_right
      (And.imp_right Or.inl)))))

theorem utf8EncodeChar_ne_nil (c : Char) : String.utf8EncodeChar c ≠ [] := by
  unfold String.utf8EncodeChar
  simp only
  split_ifs <;> simp

/-! ## Texts -/

theorem flatMap_utf8EncodeChar_lt {s t : List Char} (h : s < t) :
    s.flatMap String.utf8EncodeChar < t.flatMap String.utf8EncodeChar := by
  induction s generalizing t with
  | nil =>
    cases t with
    | nil => exact absurd h (List.lt_irrefl _)
    | cons d t =>
      rw [List.flatMap_cons]
      cases hd : String.utf8EncodeChar d with
      | nil => exact absurd hd (utf8EncodeChar_ne_nil d)
      | cons b bs => exact List.nil_lt_cons b _
  | cons c s ih =>
    cases t with
    | nil => exact absurd h (List.not_lt_nil _)
    | cons d t =>
      rw [List.flatMap_cons, List.flatMap_cons]
      rcases List.cons_lt_cons_iff.mp h with hlt | ⟨rfl, hlt⟩
      · exact utf8EncodeChar_append_lt hlt _ _
      · exact List.append_left_lt (ih hlt)

/-- **The order of texts is the order of their bytes.** -/
theorem lt_iff_utf8Bytes_lt {x y : String} : x < y ↔ utf8Bytes x < utf8Bytes y := by
  have himp : ∀ {x y : String}, x < y → utf8Bytes x < utf8Bytes y := by
    intro x y h
    rw [utf8Bytes_eq, utf8Bytes_eq]
    exact flatMap_utf8EncodeChar_lt (String.lt_iff.mp h)
  refine ⟨himp, fun h => ?_⟩
  rcases Std.lt_trichotomy x y with hlt | rfl | hgt
  · exact hlt
  · exact absurd h (List.lt_irrefl _)
  · exact absurd (himp hgt) (List.lt_asymm h)

/-- A map lists its names in the order of their bytes. -/
theorem NameMap.names_pairwise_utf8Bytes_lt {α : Type} (m : NameMap α) :
    m.names.Pairwise fun x y => utf8Bytes x < utf8Bytes y :=
  List.pairwise_map.mpr (m.ascending.imp lt_iff_utf8Bytes_lt.mp)

/-! ## The names of a text -/

/-- These are the maximal runs of letters in the text, each once, in the order of their bytes. -/
structure NamesInOrder (text : String) (names : List String) : Prop where
  ascending : names.Pairwise fun x y => utf8Bytes x < utf8Bytes y
  mem_iff : ∀ x, x ∈ names ↔ ∃ a b, text.toList = a ++ x.toList ++ b ∧ x.toList ≠ [] ∧
    (∀ c ∈ x.toList, c.isAlpha = true) ∧ EndsWithout Char.isAlpha a ∧ BeginsWithout Char.isAlpha b

theorem mem_names_namesIn {text x : String} :
    x ∈ (namesIn text).names ↔ x.toList ∈ runs Char.isAlpha text.toList := by
  unfold namesIn
  rw [NameMap.mem_names_iff, NameSet.contains_ofNames, List.mem_map]
  constructor
  · rintro ⟨run, hrun, rfl⟩
    rwa [String.toList_ofList]
  · intro h
    exact ⟨x.toList, h, String.ofList_toList⟩

theorem namesInOrder_namesIn (text : String) : NamesInOrder text (namesIn text).names where
  ascending := (namesIn text).names_pairwise_utf8Bytes_lt
  mem_iff _ := mem_names_namesIn.trans mem_runs_iff

/-- **The names of a text in the order of their bytes** are those that `namesIn` lists. -/
theorem namesInOrder_iff {text : String} {names : List String} :
    NamesInOrder text names ↔ names = (namesIn text).names := by
  constructor
  · intro h
    have hirrefl : Std.Irrefl fun x y : String => utf8Bytes x < utf8Bytes y :=
      ⟨fun x => List.lt_irrefl (utf8Bytes x)⟩
    have hasymm : Std.Antisymm fun x y : String => utf8Bytes x < utf8Bytes y :=
      ⟨fun x y hxy hyx => absurd hyx (List.lt_asymm hxy)⟩
    refine h.ascending.eq_of_mem_iff (namesInOrder_namesIn text).ascending fun x => ?_
    rw [h.mem_iff, (namesInOrder_namesIn text).mem_iff]
  · rintro rfl
    exact namesInOrder_namesIn text

end Reckoner
