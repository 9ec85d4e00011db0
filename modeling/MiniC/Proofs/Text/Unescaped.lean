import MiniC.Text.Escape

/-!
# Expanding escape sequences

Expanding undoes escaping.  It goes through the parts of a text one by one, unless a part ends in
the middle of an escape sequence.  That takes a run of backslashes of odd length at its end, since
the backslashes of a run pair up from its front.  Main statement: `unescape_laws`.
-/

namespace MiniC.Text

/-- How many backslashes a text ends with. -/
def backslashesAtEnd (cs : List Char) : Nat :=
  (cs.reverse.takeWhile (· = '\\')).length

variable {b c : Char} {cs : List Char}

/-! ## The run at the end -/

theorem backslashesAtEnd_cons_of_ne (hc : c ≠ '\\') :
    backslashesAtEnd (c :: cs) = backslashesAtEnd cs := by
  unfold backslashesAtEnd
  rw [List.reverse_cons, List.takeWhile_append]
  split
  · next hall =>
    rw [(List.takeWhile_prefix _).eq_of_length hall, List.takeWhile_cons_of_neg (by simpa using hc),
      List.append_nil]
  · rfl

/-- What stands in front of another character does not count. -/
theorem backslashesAtEnd_behind (hc : c ≠ '\\') :
    backslashesAtEnd (b :: c :: cs) = backslashesAtEnd (c :: cs) := by
  unfold backslashesAtEnd
  rw [List.reverse_cons (a := b), List.takeWhile_append, if_neg]
  intro hall
  have hslashes : (c :: cs).reverse.all (· = '\\') = true := by
    rw [← (List.takeWhile_prefix _).eq_of_length hall]
    exact List.all_takeWhile
  exact hc (by simpa using List.all_eq_true.1 hslashes c (by simp))

theorem backslashesAtEnd_sequence (hc : c ≠ '\\') :
    backslashesAtEnd ('\\' :: c :: cs) = backslashesAtEnd cs :=
  (backslashesAtEnd_behind hc).trans (backslashesAtEnd_cons_of_ne hc)

/-- A pair in front keeps the parity. -/
theorem backslashesAtEnd_pair (cs : List Char) :
    backslashesAtEnd ('\\' :: '\\' :: cs) % 2 = backslashesAtEnd cs % 2 := by
  unfold backslashesAtEnd
  rw [List.reverse_cons, List.reverse_cons, List.append_assoc, List.takeWhile_append]
  split
  · next hall => simp [hall]
  · rfl

/-! ## Going through a text -/

/-- A backslash in front of a character that makes no escape sequence with it stands for itself. -/
theorem unescape_backslash (h : c ≠ 'n' ∧ c ≠ 't' ∧ c ≠ '\\' ∧ c ≠ '\"') (rest : List Char) :
    unescape ('\\' :: c :: rest) = '\\' :: unescape (c :: rest) := by
  rw [unescape]
  all_goals
    intro rest' _ hrest
    simp_all

/-- The scan stands between two of its steps behind a text that ends with an even number of
backslashes. -/
theorem unescape_append {a : List Char} (h : backslashesAtEnd a % 2 = 0) (b : List Char) :
    unescape (a ++ b) = unescape a ++ unescape b := by
  fun_induction unescape a with
  | case1 rest ih =>
    rw [backslashesAtEnd_sequence (by decide)] at h
    simp [unescape, ih h]
  | case2 rest ih =>
    rw [backslashesAtEnd_sequence (by decide)] at h
    simp [unescape, ih h]
  | case3 rest ih =>
    rw [backslashesAtEnd_pair] at h
    simp [unescape, ih h]
  | case4 rest ih =>
    rw [backslashesAtEnd_sequence (by decide)] at h
    simp [unescape, ih h]
  | case5 c rest hn ht hslash hquote ih =>
    by_cases hc : c = '\\'
    · subst hc
      cases rest with
      | nil => exact absurd h (by decide)
      | cons d rest =>
        have hd : d ≠ 'n' ∧ d ≠ 't' ∧ d ≠ '\\' ∧ d ≠ '\"' := by
          refine ⟨?_, ?_, ?_, ?_⟩ <;> rintro rfl
          · exact hn rest rfl rfl
          · exact ht rest rfl rfl
          · exact hslash rest rfl rfl
          · exact hquote rest rfl rfl
        rw [backslashesAtEnd_behind hd.2.2.1] at h
        rw [List.cons_append, List.cons_append, unescape_backslash hd]
        exact congrArg ('\\' :: ·) (ih h)
    · rw [backslashesAtEnd_cons_of_ne hc] at h
      rw [List.cons_append, unescape_cons_of_ne hc, ih h, List.cons_append]
  | case6 => rfl

/-- What escaping writes, expanding reads back; a text without backslashes stays as it is; and texts
one after the other are expanded one after the other, if the run of backslashes at the end of the
first one is of even length. -/
theorem unescape_laws :
    (∀ t : List Char, unescape (escape t) = t) ∧
    (∀ a b : List Char, backslashesAtEnd a % 2 = 0 →
      unescape (a ++ b) = unescape a ++ unescape b) ∧
    ∀ t : List Char, '\\' ∉ t → unescape t = t := by
  refine ⟨fun t => ?_, fun a b h => unescape_append h b, fun t h => unescape_of_notMem h⟩
  have hread := unescape_escape_append t []
  rwa [List.append_nil, unescape_nil, List.append_nil] at hread

/-- Behind an escaped backslash, a letter is no part of an escape sequence. -/
theorem escaped_backslash_laws :
    unescape ("a\\\\".toList ++ "n\\t".toList) = "a\\n\t".toList ∧
      unescape "größe\n".toList = "größe\n".toList := by
  obtain ⟨-, hparts, hplain⟩ := unescape_laws
  refine ⟨?_, hplain _ (by decide)⟩
  rw [hparts _ _ (by decide)]
  decide

/-- An odd run at the end of a part makes an escape sequence with the next part. -/
example : unescape ("\\".toList ++ "n".toList) ≠
    unescape "\\".toList ++ unescape "n".toList := by
  decide

end MiniC.Text
