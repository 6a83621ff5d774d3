import Mathlib.Data.List.Basic
import Mathlib.Tactic.Common

/-! # Texts of ASCII

A text whose bytes are all below 128 has these bytes as its characters. What is decided of such a text is decided of its bytes,
without decoding it.
-/

namespace Alexandria.Ascii
set_option autoImplicit false

def bytes (text : String) : List UInt8 := text.toByteArray.data.toList

theorem bytes_ofList (l : List Char) : bytes (String.ofList l) = l.flatMap String.utf8EncodeChar := by
  unfold bytes
  rw [String.toByteArray_ofList, List.utf8Encode, List.data_toByteArray, List.toList_toArray]

theorem bytes_infix {part text : String} (h : part.toList <:+: text.toList) : bytes part <:+: bytes text := by
  obtain ⟨before, after, hparts⟩ := h
  rw [← String.ofList_toList (s := part), ← String.ofList_toList (s := text), bytes_ofList, bytes_ofList, ← hparts]
  exact ⟨before.flatMap String.utf8EncodeChar, after.flatMap String.utf8EncodeChar, by simp⟩

/-- A byte below 128 is a character of its own. -/
theorem utf8EncodeChar_ascii {c : Char} {b : UInt8} (hb : b ∈ String.utf8EncodeChar c) (hsmall : b.toNat < 128) :
    c.toNat ≤ 127 := by
  by_contra hlarge
  have hv : ¬ c.val.toNat ≤ 127 := hlarge
  unfold String.utf8EncodeChar at hb
  simp only [hv, if_false] at hb
  split at hb
  · simp only [List.mem_cons, List.not_mem_nil, or_false] at hb
    obtain rfl | rfl := hb <;> simp only [UInt8.toNat_ofNat'] at hsmall <;> omega
  · split at hb
    · simp only [List.mem_cons, List.not_mem_nil, or_false] at hb
      obtain rfl | rfl | rfl := hb <;> simp only [UInt8.toNat_ofNat'] at hsmall <;> omega
    · simp only [List.mem_cons, List.not_mem_nil, or_false] at hb
      obtain rfl | rfl | rfl | rfl := hb <;> simp only [UInt8.toNat_ofNat'] at hsmall <;> omega

theorem utf8EncodeChar_of_le {c : Char} (h : c.toNat ≤ 127) : String.utf8EncodeChar c = [UInt8.ofNat c.toNat] := by
  unfold String.utf8EncodeChar
  exact if_pos h

/-- The characters of a text of ASCII. -/
theorem toList_of_ascii {text : String} (h : ∀ b ∈ bytes text, b.toNat < 128) :
    text.toList = (bytes text).map fun b => Char.ofNat b.toNat := by
  have hlist : ∀ l : List Char, (∀ b ∈ bytes (String.ofList l), b.toNat < 128) →
      l = (bytes (String.ofList l)).map fun b => Char.ofNat b.toNat := by
    intro l hl
    rw [bytes_ofList] at hl ⊢
    induction l with
    | nil => rfl
    | cons c l ih =>
      have hrest := ih fun b hb => hl b (by rw [List.flatMap_cons]; exact List.mem_append_right _ hb)
      have hne : String.utf8EncodeChar c ≠ [] := by
        intro hnil
        have hlength := congrArg List.length hnil
        rw [String.length_utf8EncodeChar, List.length_nil] at hlength
        exact absurd hlength (Nat.ne_of_gt c.utf8Size_pos)
      obtain ⟨b, tail, hb⟩ := List.exists_cons_of_ne_nil hne
      have hmem : b ∈ String.utf8EncodeChar c := by
        rw [hb]
        exact List.mem_cons_self
      have hc := utf8EncodeChar_ascii hmem (hl b (by rw [List.flatMap_cons]; exact List.mem_append_left _ hmem))
      have hbyte : (UInt8.ofNat c.toNat).toNat = c.toNat := by
        rw [UInt8.toNat_ofNat']
        omega
      rw [List.flatMap_cons, utf8EncodeChar_of_le hc, List.singleton_append, List.map_cons, hbyte, Char.ofNat_toNat, ← hrest]
  have htext := hlist text.toList
  rw [String.ofList_toList] at htext
  exact htext h

/-- What holds of the characters of the bytes holds of the text. -/
theorem forall_mem_toList {P : Char → Prop} {text : String} (h : ∀ b ∈ bytes text, b.toNat < 128 ∧ P (Char.ofNat b.toNat)) :
    ∀ c ∈ text.toList, P c := by
  rw [toList_of_ascii fun b hb => (h b hb).1]
  intro c hc
  obtain ⟨b, hb, rfl⟩ := List.mem_map.mp hc
  exact (h b hb).2

end Alexandria.Ascii
