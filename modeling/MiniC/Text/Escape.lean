/-!
# Escape sequences

A backslash followed by `n`, `t`, a backslash or a double quote stands for one character; any other
backslash stands for itself.  `unescape_escape`: what `escape` writes reads back.
-/

namespace MiniC.Text

/-- Expands the escape sequences of a text. -/
def unescape : List Char → List Char
  | '\\' :: 'n' :: rest => '\n' :: unescape rest
  | '\\' :: 't' :: rest => '\t' :: unescape rest
  | '\\' :: '\\' :: rest => '\\' :: unescape rest
  | '\\' :: '\"' :: rest => '\"' :: unescape rest
  | c :: rest => c :: unescape rest
  | [] => []

/-- The escape sequence for a character, or the character itself. -/
def escapeChar (c : Char) : List Char :=
  if c = '\n' then ['\\', 'n']
  else if c = '\t' then ['\\', 't']
  else if c = '\\' then ['\\', '\\']
  else if c = '\"' then ['\\', '\"']
  else [c]

/-- Writes line feeds, tabs, backslashes and double quotes as escape sequences. -/
def escape (cs : List Char) : List Char :=
  cs.flatMap escapeChar

@[simp] theorem unescape_nil : unescape [] = [] := by simp [unescape]

theorem unescape_cons_of_ne {c : Char} (h : c ≠ '\\') (rest : List Char) :
    unescape (c :: rest) = c :: unescape rest := by
  rw [unescape]
  all_goals simp_all

theorem unescape_of_notMem {cs : List Char} (h : '\\' ∉ cs) : unescape cs = cs := by
  induction cs with
  | nil => exact unescape_nil
  | cons c cs ih =>
    obtain ⟨hne, hrest⟩ := not_or.1 (mt List.mem_cons.2 h)
    rw [unescape_cons_of_ne (Ne.symm hne), ih hrest]

theorem unescape_escapeChar_append (c : Char) (rest : List Char) :
    unescape (escapeChar c ++ rest) = c :: unescape rest := by
  unfold escapeChar
  split
  · subst c; simp [unescape]
  · split
    · subst c; simp [unescape]
    · split
      · subst c; simp [unescape]
      · split
        · subst c; simp [unescape]
        · next h _ => exact unescape_cons_of_ne h rest

theorem unescape_escape_append (cs rest : List Char) :
    unescape (escape cs ++ rest) = cs ++ unescape rest := by
  induction cs with
  | nil => rfl
  | cons c cs ih =>
    show unescape (escapeChar c ++ escape cs ++ rest) = c :: (cs ++ unescape rest)
    rw [List.append_assoc, unescape_escapeChar_append, ih]

end MiniC.Text
