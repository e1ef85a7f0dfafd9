import Mathlib.Data.String.Basic
import Mathlib.Data.List.Lex

/-! Texts as bytes in UTF-8. The order of texts, character by character, is the order of their
bytes. -/
namespace TableQuery.Text

def bytes (s : String) : List UInt8 := s.toUTF8.data.toList

theorem bytes_eq (s : String) : bytes s = s.toList.flatMap String.utf8EncodeChar := by
  have hbytes : s.toUTF8 = s.toList.utf8Encode := by
    conv => left; rw [← String.ofList_toList (s := s)]
    exact String.toByteArray_ofList
  rw [bytes, hbytes, List.utf8Encode, List.toList_data_toByteArray]

theorem ofNat_cons_lt {a b : Nat} (ha : a < 256) (hb : b < 256) {l m : List UInt8} :
    UInt8.ofNat a :: l < UInt8.ofNat b :: m ↔ a < b ∨ a = b ∧ l < m := by
  have heq : UInt8.ofNat a = UInt8.ofNat b ↔ a = b := by
    rw [← UInt8.toNat_inj, UInt8.toNat_ofNat_of_lt' ha, UInt8.toNat_ofNat_of_lt' hb]
  rw [List.cons_lt_cons_iff, UInt8.ofNat_lt_iff_lt ha hb, heq]

/-- In digits of six bits: the last one decides where those before it are the same. -/
theorem digits_lt {v w : Nat} (h : v < w) : v / 64 < w / 64 ∨ v / 64 = w / 64 ∧ v % 64 < w % 64 := by
  omega

/-- The bytes of a character come before those of a greater one, whatever follows. -/
theorem utf8EncodeChar_append_lt {c d : Char} (h : c < d) (l m : List UInt8) :
    String.utf8EncodeChar c ++ l < String.utf8EncodeChar d ++ m := by
  have hlt : c.val.toNat < d.val.toNat := h
  have hd : d.val.toNat < 0x110000 := by
    have hvalid := d.valid
    simp only [UInt32.isValidChar, Nat.isValidChar] at hvalid
    omega
  unfold String.utf8EncodeChar
  dsimp only
  generalize c.val.toNat = v at *
  generalize d.val.toNat = w at *
  have hlast := digits_lt hlt
  have hmiddle := @digits_lt (v / 64) (w / 64)
  have hfirst := @digits_lt (v / 4096) (w / 4096)
  have hmod : v / 262144 % 8 = v / 262144 ∧ w / 262144 % 8 = w / 262144 := by omega
  simp only [Nat.div_div_eq_div_mul, Nat.reduceMul] at hmiddle hfirst
  -- Texts of fewer bytes have a first byte that is less, and of as many the digits decide.
  split_ifs <;> simp (disch := omega) only [List.cons_append, List.nil_append, ofNat_cons_lt] <;>
    omega

theorem flatMap_utf8EncodeChar_lt {l m : List Char} (h : l < m) :
    l.flatMap String.utf8EncodeChar < m.flatMap String.utf8EncodeChar := by
  induction l generalizing m with
  | nil =>
    cases m with
    | nil => exact absurd h (List.lt_irrefl [])
    | cons d m =>
      have hlength : 0 < (String.utf8EncodeChar d).length := by
        rw [String.length_utf8EncodeChar]
        exact d.utf8Size_pos
      obtain ⟨b, bs, hbytes⟩ := List.exists_cons_of_length_pos hlength
      rw [List.flatMap_cons, hbytes, List.flatMap_nil]
      exact List.nil_lt_cons b _
  | cons c l ih =>
    cases m with
    | nil => exact absurd h (List.not_lt_nil _)
    | cons d m =>
      rw [List.flatMap_cons, List.flatMap_cons]
      cases List.cons_lt_cons_iff.1 h with
      | inl hlt => exact utf8EncodeChar_append_lt hlt _ _
      | inr hrest =>
        obtain ⟨rfl, hlt⟩ := hrest
        exact List.append_left_lt (ih hlt)

theorem bytes_lt {s t : String} (h : s < t) : bytes s < bytes t := by
  rw [bytes_eq, bytes_eq]
  exact flatMap_utf8EncodeChar_lt (String.lt_iff_toList_lt.1 h)

theorem bytes_le_iff {s t : String} : bytes s ≤ bytes t ↔ s ≤ t := by
  rw [← List.not_lt, ← not_lt]
  refine ⟨fun h hlt => h (bytes_lt hlt), ?_⟩
  intro h hlt
  rcases lt_trichotomy s t with hst | rfl | hts
  · exact List.lt_asymm hlt (bytes_lt hst)
  · exact List.lt_irrefl _ hlt
  · exact h hts

/-- Texts compare as their bytes do. -/
theorem isLE_compare_iff {s t : String} : (Ord.compare s t).isLE ↔ bytes s ≤ bytes t := by
  rw [bytes_le_iff, ← compare_le_iff_le]
  exact Ordering.isLE_iff_ne_gt

end TableQuery.Text
