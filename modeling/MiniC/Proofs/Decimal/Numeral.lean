import MiniC.Proofs.Decimal.Written
import MiniC.Text.Blank

/-!
# Runs of digits as integers

A run of digits, with any zeros in front, is read as the number that it stands for, unless that is
beyond the range of 64-bit integers.  None of its characters is white space.
-/

namespace MiniC

namespace Decimal

variable {c : Char} {ds : List Char}

theorem isNumeral_iff : isNumeral ds = true ↔ ds ≠ [] ∧ ∀ d ∈ ds, d.isDigit = true := by
  simp [isNumeral, List.all_eq_true]

/-- Reading a run of digits is deciding whether its value is in range. -/
theorem readInt?_of_isNumeral (h : isNumeral ds = true) : readInt? ds = toInt64? (value ds) := by
  have hsign := splitSign_of_digits (isNumeral_iff.1 h).2
  rw [readInt?_eq, hsign, if_pos h]
  rfl

theorem exists_toInt64? {k : Nat} (h : k < intLimit) :
    ∃ n : Int64, toInt64? k = some n ∧ n.toInt = k := by
  have hlow : -(intLimit : Int) ≤ k := by omega
  have hhigh : (k : Int) < intLimit := by exact_mod_cast h
  refine ⟨Int64.ofInt k, ?_, Int64.toInt_ofInt_of_le hlow hhigh⟩
  rw [toInt64?, if_pos ⟨hlow, hhigh⟩]

theorem toInt64?_of_le {k : Nat} (h : intLimit ≤ k) : toInt64? k = none := by
  have hbeyond : ¬ (k : Int) < intLimit := by omega
  rw [toInt64?, if_neg fun hrange => hbeyond hrange.2]

/-- The text of an int that is not negative is a run of digits. -/
theorem ofInt64_of_nonneg {n : Int64} (h : 0 ≤ n.toInt) :
    ofInt64 n = String.ofList (digits n.toInt.natAbs) := by
  rw [ofInt64, ofInt, if_neg (by omega)]
  rfl

theorem not_isWhiteSpace_of_isDigit (h : c.isDigit = true) : Text.isWhiteSpace c = false := by
  have hlow : 48 ≤ c.toNat := (Char.isDigit_iff_toNat.1 h).1
  have hhigh : c.toNat ≤ 57 := (Char.isDigit_iff_toNat.1 h).2
  simp only [Text.isWhiteSpace, Text.whiteSpaceRanges, List.any_cons, List.any_nil, Bool.or_false,
    Bool.or_eq_false_iff, Bool.and_eq_false_iff, decide_eq_false_iff_not]
  omega

end Decimal

/-- White space around a text is trimmed, if the text has none. -/
theorem Text.trim_surrounded {before text after : List Char}
    (hbefore : ∀ c ∈ before, isWhiteSpace c = true) (hafter : ∀ c ∈ after, isWhiteSpace c = true)
    (htext : ∀ c ∈ text, isWhiteSpace c = false) : trim (before ++ text ++ after) = text := by
  have hkeep : ∀ {cs : List Char}, (∀ c ∈ cs, isWhiteSpace c = false) →
      cs.dropWhile isWhiteSpace = cs := by
    intro cs hcs
    cases cs with
    | nil => rfl
    | cons c cs => rw [List.dropWhile_cons, hcs c List.mem_cons_self]; rfl
  have hfront : (before ++ text ++ after).dropWhile isWhiteSpace =
      (text ++ after).dropWhile isWhiteSpace := by
    rw [List.append_assoc, List.dropWhile_append_of_pos hbefore]
  unfold trim
  rw [hfront]
  cases text with
  | nil =>
    have hnone : (after ++ []).dropWhile isWhiteSpace = [].dropWhile isWhiteSpace :=
      List.dropWhile_append_of_pos hafter
    rw [List.append_nil] at hnone
    rw [List.nil_append, hnone]
    rfl
  | cons c cs =>
    have hbody : (c :: cs ++ after).dropWhile isWhiteSpace = c :: cs ++ after := by
      rw [List.cons_append, List.dropWhile_cons, htext c List.mem_cons_self]
      rfl
    rw [hbody, List.reverse_append,
      List.dropWhile_append_of_pos fun d hd => hafter d (List.mem_reverse.1 hd),
      hkeep fun d hd => htext d (List.mem_reverse.1 hd), List.reverse_reverse]

end MiniC
