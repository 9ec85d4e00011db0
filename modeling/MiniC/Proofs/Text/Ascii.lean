import MiniC.Text.Blank
import MiniC.Text.Utf8

/-!
# ASCII in UTF-8

A byte below `80` in the bytes of a text is the code of a character of that text: no other character
has such a byte.  So bytes that separate words or lines stand for the characters that do.
-/

namespace MiniC.Text

/-- The characters that separate words of input: space, tab, line feed, form feed, carriage
return. -/
def isBlank (c : Char) : Bool :=
  c = ' ' || c = '\t' || c = '\n' || c = '\x0c' || c = '\r'

theorem isBlank_iff {c : Char} :
    isBlank c = true ↔ c = ' ' ∨ c = '\t' ∨ c = '\n' ∨ c = '\x0c' ∨ c = '\r' := by
  simp [isBlank, or_assoc]

namespace Utf8

theorem encode_append (s t : String) : encode (s ++ t) = encode s ++ encode t := by
  simp [encode, String.toUTF8]

theorem encode_eq (s : String) : encode s = s.toList.flatMap String.utf8EncodeChar := by
  have hbytes : s.toByteArray = s.toList.utf8Encode := String.utf8Encode_toList.symm
  simp [encode, hbytes, List.utf8Encode]

@[simp] theorem encode_eq_nil {s : String} : encode s = [] ↔ s = "" := by
  constructor
  · intro h
    have hdecode := decode?_encode s
    rw [h] at hdecode
    simpa using hdecode.symm.trans (decode?_encode "")
  · rintro rfl
    rfl

/-- All bytes of a character above `7F` are above `7F`. -/
theorem toNat_of_mem_encodeChar (c : Char) :
    ∀ b ∈ String.utf8EncodeChar c, b.toNat < 0x80 → b.toNat = c.toNat := by
  show ∀ b ∈ String.utf8EncodeChar c, b.toNat < 0x80 → b.toNat = c.val.toNat
  fun_cases String.utf8EncodeChar c
  all_goals
    simp only [List.forall_mem_cons, List.not_mem_nil, false_implies, implies_true, and_true,
      UInt8.toNat_ofNat']
    omega

theorem exists_of_mem_encode {s : String} {b : UInt8} (h : b ∈ encode s) (hb : b.toNat < 0x80) :
    ∃ c ∈ s.toList, b.toNat = c.toNat := by
  rw [encode_eq] at h
  obtain ⟨c, hc, hmem⟩ := List.mem_flatMap.1 h
  exact ⟨c, hc, toNat_of_mem_encodeChar c b hmem hb⟩

theorem lineFeed_notMem_encode {s : String} (h : '\n' ∉ s.toList) : lineFeed ∉ encode s := by
  intro hmem
  obtain ⟨c, hc, hcode⟩ := exists_of_mem_encode hmem (by decide)
  have hfeed : c = '\n' := Char.toNat_inj.1 hcode.symm
  exact h (hfeed ▸ hc)

theorem not_isBlankByte_of_mem_encode {s : String} (h : ∀ c ∈ s.toList, isBlank c = false)
    {b : UInt8} (hmem : b ∈ encode s) : isBlankByte b = false := by
  rw [Bool.eq_false_iff]
  intro hblank
  have hcodes : b = 0x20 ∨ b = 0x09 ∨ b = 0x0A ∨ b = 0x0C ∨ b = 0x0D := by
    simpa [isBlankByte, or_assoc] using hblank
  have hascii : b.toNat < 0x80 := by
    rcases hcodes with rfl | rfl | rfl | rfl | rfl <;> decide
  obtain ⟨c, hc, hcode⟩ := exists_of_mem_encode hmem hascii
  have hseparates : isBlank c = true := by
    rw [isBlank_iff]
    simp only [← Char.toNat_inj, ← hcode]
    rcases hcodes with rfl | rfl | rfl | rfl | rfl <;> decide
  rw [h c hc] at hseparates
  cases hseparates

end Utf8

end MiniC.Text
