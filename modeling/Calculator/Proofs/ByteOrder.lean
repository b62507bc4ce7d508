import Mathlib.Data.String.Basic

/-!
The order of texts is that of their bytes.

Texts are compared by the code points of their characters. The bytes in UTF-8 give the same order
(`bytes_lt_bytes_iff`): of two characters the smaller one has the smaller byte at the first place
where their bytes differ, and neither encoding ends before that place
(`diverges_utf8EncodeChar`).
-/

namespace Calculator

/-- The bytes of a text in UTF-8. -/
def bytes (text : String) : List UInt8 :=
  text.toUTF8.data.toList

theorem bytes_eq (text : String) : bytes text = text.toList.flatMap String.utf8EncodeChar := by
  have encoded : text.toUTF8 = text.toList.utf8Encode := by
    rw [← String.toByteArray_ofList, String.ofList_toList]
    rfl
  rw [bytes, encoded, List.utf8Encode, List.toList_data_toByteArray]

/-- There is a first place where two lists of bytes differ, and the byte of the first list is the
smaller one. -/
def Diverges : List UInt8 → List UInt8 → Prop
  | a :: as, b :: bs => a < b ∨ a = b ∧ Diverges as bs
  | _, _ => False

theorem Diverges.append_lt {as bs : List UInt8} (diverges : Diverges as bs)
    (rest rest' : List UInt8) : as ++ rest < bs ++ rest' := by
  induction as generalizing bs with
  | nil => cases diverges
  | cons a as ih =>
    cases bs with
    | nil => cases diverges
    | cons b bs =>
      refine List.cons_lt_cons_iff.mpr ?_
      rcases diverges with less | ⟨same, diverges⟩
      · exact .inl less
      · exact .inr ⟨same, ih diverges⟩

theorem diverges_utf8EncodeChar {c d : Char} (less : c < d) :
    Diverges (String.utf8EncodeChar c) (String.utf8EncodeChar d) := by
  have less : c.val.toNat < d.val.toNat := less
  have bound : d.val.toNat < 0x110000 := by
    rcases d.valid with low | ⟨-, high⟩
    · exact Nat.lt_trans low (by decide)
    · exact high
  unfold String.utf8EncodeChar
  generalize c.val.toNat = m at less
  generalize d.val.toNat = n at less bound
  -- The first byte tells the number of bytes; otherwise the digits to the base 64 are compared.
  have digits (v : Nat) : v / 4096 = v / 64 / 64 ∧ v / 262144 = v / 64 / 64 / 64 := by omega
  simp only [digits]
  split_ifs <;> simp only [Diverges, UInt8.lt_iff_toNat_lt, ← UInt8.toNat_inj,
    UInt8.toNat_ofNat', and_false, or_false] <;> omega

theorem flatMap_utf8EncodeChar_lt {cs ds : List Char} (less : cs < ds) :
    cs.flatMap String.utf8EncodeChar < ds.flatMap String.utf8EncodeChar := by
  induction cs generalizing ds with
  | nil =>
    cases ds with
    | nil => cases less
    | cons d ds =>
      obtain ⟨first, bytes, encoded⟩ :=
        List.exists_cons_of_ne_nil (@String.utf8EncodeChar_ne_nil d)
      rw [List.flatMap_cons, encoded]
      exact List.nil_lt_cons _ _
  | cons c cs ih =>
    cases ds with
    | nil => cases less
    | cons d ds =>
      rw [List.flatMap_cons, List.flatMap_cons]
      rcases List.cons_lt_cons_iff.mp less with first | ⟨rfl, later⟩
      · exact (diverges_utf8EncodeChar first).append_lt _ _
      · exact List.append_left_lt (ih later)

/-- The bytes of texts are in the order of the texts. -/
theorem bytes_lt_bytes {s t : String} (less : s < t) : bytes s < bytes t := by
  rw [bytes_eq, bytes_eq]
  exact flatMap_utf8EncodeChar_lt (String.lt_iff_toList_lt.mp less)

theorem bytes_lt_bytes_iff {s t : String} : bytes s < bytes t ↔ s < t := by
  constructor
  · intro less
    rcases lt_trichotomy s t with before | rfl | behind
    · exact before
    · exact absurd less (List.lt_irrefl _)
    · exact absurd less (List.lt_asymm (bytes_lt_bytes behind))
  · exact bytes_lt_bytes

end Calculator
