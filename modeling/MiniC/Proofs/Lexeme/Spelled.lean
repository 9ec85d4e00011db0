import Mathlib.Data.List.TakeWhile
import MiniC.Proofs.Lexeme.Delivered
import MiniC.Proofs.Syntax.Print

/-!
# Spellings

A lexeme is spelled if its literal alone is scanned as its token.  Every lexeme of a source text is,
and so are symbols and reserved words as they are written: the character after a token never matters
if it is a blank or a line break (`Piece.classify_apart`).
-/

namespace MiniC

namespace Piece

variable {p : Char → Bool} {c : Char} {cs ds fs rest after : List Char} {t : Token} {n : Nat}

/-! ## Runs of characters -/

/-- What does not go on with a run. -/
def Ends (p : Char → Bool) (rest : List Char) : Prop := ∀ c more, rest = c :: more → p c = false

theorem run_append (hcs : ∀ c ∈ cs, p c = true) (hrest : Ends p rest) :
    run p (cs ++ rest) = cs.length := by
  unfold run
  induction cs with
  | nil =>
    cases rest with
    | nil => rfl
    | cons c more => rw [List.nil_append, List.takeWhile_cons, hrest c more rfl]; rfl
  | cons c cs ih =>
    rw [List.cons_append, List.takeWhile_cons, hcs c List.mem_cons_self]
    exact congrArg Nat.succ (ih fun d hd => hcs d (List.mem_cons_of_mem _ hd))

/-- A text begins with a run that ends. -/
theorem exists_run (p : Char → Bool) (rest : List Char) :
    ∃ cs after, rest = cs ++ after ∧ (∀ c ∈ cs, p c = true) ∧ Ends p after := by
  refine ⟨rest.takeWhile p, rest.dropWhile p, List.takeWhile_append_dropWhile.symm,
    fun c => List.mem_takeWhile_imp, ?_⟩
  intro c more h
  have hhead := List.head?_dropWhile_not p rest
  rw [h] at hhead
  exact hhead

/-! ## Blanks and line breaks -/

theorem isSpace_iff :
    isSpace c = true ↔ c = ' ' ∨ c = '\t' ∨ c = '\r' ∨ c = '\x0c' ∨ c = '\n' := by
  simp [isSpace, or_assoc]

theorem not_isDigit_of_isSpace (h : isSpace c = true) : c.isDigit = false := by
  rcases isSpace_iff.1 h with rfl | rfl | rfl | rfl | rfl <;> rfl

theorem not_continuesName_of_isSpace (h : isSpace c = true) : continuesName c = false := by
  rcases isSpace_iff.1 h with rfl | rfl | rfl | rfl | rfl <;> rfl

/-- What can follow a token that stands apart: nothing, or a blank or a line break. -/
def Apart (after : List Char) : Prop :=
  after = [] ∨ ∃ c more, after = c :: more ∧ isSpace c = true

theorem Apart.ends (h : Apart after) (hp : ∀ {c}, isSpace c = true → p c = false) :
    Ends p after := by
  intro c more hafter
  rcases h with rfl | ⟨c', more', rfl, hspace⟩
  · cases hafter
  · cases hafter
    exact hp hspace

/-! ## Numbers, strings, names and symbols -/

theorem classifyNumber_int (hds : ∀ d ∈ ds, d.isDigit = true) (hrest : Ends Char.isDigit rest)
    (hpoint : ∀ more, rest ≠ '.' :: more) :
    classifyNumber c (ds ++ rest) = (integerRole (c :: ds), ds.length) := by
  unfold classifyNumber
  dsimp only
  rw [run_append hds hrest, List.drop_left, List.take_left]
  split
  · exact absurd rfl (hpoint _)
  · rfl

theorem classifyNumber_float (hds : ∀ d ∈ ds, d.isDigit = true)
    (hfs : ∀ d ∈ fs, d.isDigit = true) (hrest : Ends Char.isDigit rest) :
    classifyNumber c (ds ++ '.' :: (fs ++ rest)) =
      (.token (.floatLiteral (Decimal.readPoint (c :: ds) fs 0)), ds.length + 1 + fs.length) := by
  have hpoint : Ends Char.isDigit ('.' :: (fs ++ rest)) := by
    rintro d more ⟨⟩
    rfl
  unfold classifyNumber
  dsimp only
  rw [run_append hds hpoint, List.drop_left, List.take_left]
  split
  · next heq =>
    cases heq
    rw [run_append hfs hrest, List.take_left]
  · next hne => exact absurd rfl (hne _)

theorem take_float :
    (ds ++ '.' :: (fs ++ rest)).take (ds.length + 1 + fs.length) = ds ++ '.' :: fs := by
  have hlength : (ds ++ '.' :: fs).length = ds.length + 1 + fs.length := by
    simp only [List.length_append, List.length_cons]
    omega
  rw [← hlength, ← List.cons_append, ← List.append_assoc, List.take_left]

theorem classifyQuoted_string (hcs : ∀ c ∈ cs, (decide (c ≠ '\"')) = true) :
    classifyQuoted (cs ++ '\"' :: rest) =
      (.token (.stringLiteral (String.ofList cs)), cs.length + 1) := by
  have hquote : Ends (fun c => decide (c ≠ '\"')) ('\"' :: rest) := by
    rintro d more ⟨⟩
    rfl
  unfold classifyQuoted
  dsimp only
  rw [run_append hcs hquote, if_pos (by simp), List.take_left]

/-- A symbol is read whatever stands apart from it. -/
theorem classify_symbol (s : Symbol) (h : Apart after) :
    ∃ c cs, s.chars = c :: cs ∧ classify c (cs ++ after) = (.token (.symbol s), cs.length) := by
  rcases h with rfl | ⟨c, more, rfl, hspace⟩
  · cases s <;> exact ⟨_, _, rfl, rfl⟩
  · rcases isSpace_iff.1 hspace with rfl | rfl | rfl | rfl | rfl <;>
      cases s <;> exact ⟨_, _, rfl, rfl⟩

theorem exists_of_read? {s : Symbol} {text : List Char} (h : Symbol.read? text = some s) :
    ∃ rest, text = s.chars ++ rest := by
  unfold Symbol.read? at h
  have hfound := List.find?_some h
  obtain ⟨rest, hrest⟩ := List.isPrefixOf_iff_prefix.1 hfound
  exact ⟨rest, hrest.symm⟩

/-! ## The token at the front of a text

It depends on its own characters alone, and on what follows standing apart. -/

theorem classifyNumber_apart (h : classifyNumber c rest = (.token t, n)) :
    n ≤ rest.length ∧
      ∀ after, Apart after → classifyNumber c (rest.take n ++ after) = (.token t, n) := by
  obtain ⟨ds, left, rfl, hds, hleft⟩ := exists_run Char.isDigit rest
  by_cases hpoint : ∃ more, left = '.' :: more
  · obtain ⟨more, rfl⟩ := hpoint
    obtain ⟨fs, left, rfl, hfs, hleft⟩ := exists_run Char.isDigit more
    rw [classifyNumber_float hds hfs hleft] at h
    obtain ⟨ht, rfl⟩ := Prod.mk.inj h
    refine ⟨by simp; omega, fun after hafter => ?_⟩
    rw [take_float, List.append_assoc, List.cons_append,
      classifyNumber_float hds hfs (hafter.ends not_isDigit_of_isSpace), ht]
  · have hpoint : ∀ more, left ≠ '.' :: more := fun more hmore => hpoint ⟨more, hmore⟩
    rw [classifyNumber_int hds hleft hpoint] at h
    obtain ⟨ht, rfl⟩ := Prod.mk.inj h
    refine ⟨by simp, fun after hafter => ?_⟩
    have hblank : ∀ more, after ≠ '.' :: more := by
      rintro more rfl
      rcases hafter with hafter | ⟨c, more', hafter, hspace⟩
      · cases hafter
      · cases hafter
        exact absurd hspace (by decide)
    rw [List.take_left, classifyNumber_int hds (hafter.ends not_isDigit_of_isSpace) hblank, ht]

theorem classifyQuoted_apart (h : classifyQuoted rest = (.token t, n)) :
    n ≤ rest.length ∧
      ∀ after, classifyQuoted (rest.take n ++ after) = (.token t, n) := by
  obtain ⟨cs, left, rfl, hcs, hleft⟩ := exists_run (fun c => decide (c ≠ '\"')) rest
  cases left with
  | nil =>
    unfold classifyQuoted at h
    dsimp only at h
    rw [run_append hcs hleft, if_neg (by simp)] at h
    cases h
  | cons d more =>
    have hd : d = '\"' := by simpa using hleft d more rfl
    subst hd
    rw [classifyQuoted_string hcs] at h
    obtain ⟨ht, rfl⟩ := Prod.mk.inj h
    have htake : (cs ++ '\"' :: more).take (cs.length + 1) = cs ++ ['\"'] := by
      rw [List.append_cons, List.take_left' (by simp)]
    refine ⟨by simp, fun after => ?_⟩
    rw [htake, List.append_assoc, List.singleton_append, classifyQuoted_string hcs, ht]

theorem word_apart (rest : List Char) (h : Apart after) :
    run continuesName (rest.take (run continuesName rest) ++ after) = run continuesName rest := by
  obtain ⟨cs, left, rfl, hcs, hleft⟩ := exists_run continuesName rest
  rw [run_append hcs hleft, List.take_left, run_append hcs (h.ends not_continuesName_of_isSpace)]

theorem classify_apart (h : classify c rest = (.token t, n)) :
    n ≤ rest.length ∧
      ∀ after, Apart after → classify c (rest.take n ++ after) = (.token t, n) := by
  unfold classify at h
  split at h
  · cases h
  next hspace =>
  split at h
  · next hdigit =>
    obtain ⟨hn, hafter⟩ := classifyNumber_apart h
    refine ⟨hn, fun after h => ?_⟩
    unfold classify
    rw [if_neg hspace, if_pos hdigit]
    exact hafter after h
  next hdigit =>
  split at h
  · next hquote =>
    obtain ⟨hn, hafter⟩ := classifyQuoted_apart h
    refine ⟨hn, fun after _ => ?_⟩
    unfold classify
    rw [if_neg hspace, if_neg hdigit, if_pos hquote]
    exact hafter after
  next hquote =>
  split at h
  · next hname =>
    obtain ⟨ht, rfl⟩ := Prod.mk.inj h
    have hn : run continuesName rest ≤ rest.length := (List.takeWhile_prefix _).length_le
    refine ⟨hn, fun after h => ?_⟩
    unfold classify
    rw [if_neg hspace, if_neg hdigit, if_neg hquote, if_pos hname]
    dsimp only
    rw [word_apart rest h, List.take_left' (List.length_take_of_le hn), ht]
  split at h
  · cases h
  · cases h
  · unfold classifySymbol at h
    split at h
    · next s hs =>
      obtain ⟨hrole, hn⟩ := Prod.mk.inj h
      cases hrole
      obtain ⟨left, hleft⟩ := exists_of_read? hs
      have hsplit : ∀ after, Apart after → rest = s.chars.tail ++ left ∧
          s.chars.tail.length = n ∧
          classify c (s.chars.tail ++ after) = (.token (.symbol s), n) := by
        intro after hafter
        obtain ⟨d, ds, hchars, hclassify⟩ := classify_symbol s hafter
        rw [hchars] at hleft hn ⊢
        cases hleft
        cases hn
        exact ⟨rfl, rfl, hclassify⟩
      obtain ⟨hrest, hlength, -⟩ := hsplit [] (Or.inl rfl)
      constructor
      · rw [hrest, List.length_append, hlength]
        exact Nat.le_add_right _ _
      · intro after hafter
        rw [hrest, List.take_left' hlength]
        exact (hsplit after hafter).2.2
    · cases h

/-! ## What a token says about its spelling -/

end Piece

/-- Whether a text is how a token without a payload of its own is written. -/
def Token.WrittenAs (t : Token) (text : String) : Prop :=
  match t with
  | .symbol s => text = s.text
  | .keyword w => text = w.text
  | .identifier name => text = name
  | .intLiteral _ | .floatLiteral _ | .stringLiteral _ | .endOfInput => True

namespace Piece

variable {c : Char} {rest : List Char} {t : Token} {n : Nat}

theorem wordToken_writtenAs (word : String) : (wordToken word).WrittenAs word := by
  unfold wordToken
  split
  · next w h =>
    unfold Keyword.ofText? at h
    have hw := List.find?_some h
    exact (beq_iff_eq.1 hw).symm
  · rfl

theorem classify_writtenAs (h : classify c rest = (.token t, n)) :
    t.WrittenAs (String.ofList (c :: rest.take n)) := by
  unfold classify at h
  split at h
  · cases h
  split at h
  · unfold classifyNumber at h
    dsimp only at h
    split at h
    · cases h
      trivial
    · obtain ⟨hrole, -⟩ := Prod.mk.inj h
      unfold integerRole at hrole
      split at hrole
      · cases hrole
        trivial
      · cases hrole
  split at h
  · unfold classifyQuoted at h
    dsimp only at h
    split at h
    · cases h
      trivial
    · cases h
  split at h
  · cases h
    exact wordToken_writtenAs _
  split at h
  · cases h
  · cases h
  · unfold classifySymbol at h
    split at h
    · next s hs =>
      cases h
      obtain ⟨left, hleft⟩ := exists_of_read? hs
      obtain ⟨d, ds, hchars, -⟩ := classify_symbol s (Or.inl rfl)
      have htext : s.text = String.ofList (d :: ds) := congrArg String.ofList hchars
      rw [hchars, List.cons_append, List.cons.injEq] at hleft
      obtain ⟨rfl, rfl⟩ := hleft
      rw [hchars, List.length_cons, Nat.add_sub_cancel, List.take_left]
      exact htext.symm
    · cases h

end Piece

/-! ## Spelled lexemes -/

theorem Token.kind_eq_symbol {t : Token} {s : Symbol} :
    t.kind = .symbol s ↔ t = .symbol s := by
  cases t <;> simp [kind]

theorem Token.kind_eq_keyword {t : Token} {w : Keyword} :
    t.kind = .keyword w ↔ t = .keyword w := by
  cases t <;> simp [kind]

/-- The literal alone is scanned as the token. -/
def Lexeme.IsSpelled (l : Lexeme) : Prop :=
  ∃ c cs, l.literal.toList = c :: cs ∧ Piece.classify c cs = (.token l.token, cs.length)

namespace Lexeme

theorem IsSpelled.unplaced {l : Lexeme} (h : l.IsSpelled) : l.unplaced.IsSpelled := h

theorem IsSpelled.writtenAs {l : Lexeme} (h : l.IsSpelled) : l.token.WrittenAs l.literal := by
  obtain ⟨c, cs, hliteral, hclassify⟩ := h
  have hwritten := Piece.classify_writtenAs hclassify
  rw [List.take_length, ← hliteral, String.ofList_toList] at hwritten
  exact hwritten

/-- How a lexeme is spelled says which token it is. -/
theorem IsSpelled.token_eq {l l' : Lexeme} (h : l.IsSpelled) (h' : l'.IsSpelled)
    (hl : l.literal = l'.literal) : l.token = l'.token := by
  obtain ⟨c, cs, hliteral, hclassify⟩ := h
  obtain ⟨c', cs', hliteral', hclassify'⟩ := h'
  rw [hl, hliteral'] at hliteral
  cases hliteral
  rw [hclassify'] at hclassify
  exact (Role.token.inj (Prod.ext_iff.1 hclassify).1).symm

@[simp] theorem isSpelled_ofSymbol (s : Symbol) : (ofSymbol s).IsSpelled := by
  obtain ⟨c, cs, hchars, hclassify⟩ := Piece.classify_symbol s (Or.inl rfl)
  rw [List.append_nil] at hclassify
  refine ⟨c, cs, ?_, hclassify⟩
  rw [← hchars]
  exact String.toList_ofList

@[simp] theorem isSpelled_ofKeyword (w : Keyword) : (ofKeyword w).IsSpelled := by
  cases w <;> exact ⟨_, _, rfl, rfl⟩

/-- A spelled lexeme of a token that is written in one way. -/
theorem IsSpelled.unplaced_of_token {l : Lexeme} {t : Token} {text : String} (h : l.IsSpelled)
    (hl : l.token = t) (ht : ∀ literal, t.WrittenAs literal → literal = text) :
    l.unplaced = ⟨t, text, .nowhere⟩ := by
  have hwritten := h.writtenAs
  rw [hl] at hwritten
  exact unplaced_eq hl (ht l.literal hwritten)

theorem IsSpelled.unplaced_symbol {l : Lexeme} {s : Symbol} (h : l.IsSpelled)
    (hl : l.kind = .symbol s) : l.unplaced = ofSymbol s :=
  h.unplaced_of_token (Token.kind_eq_symbol.1 hl) fun _ hwritten => hwritten

theorem IsSpelled.unplaced_keyword {l : Lexeme} {w : Keyword} (h : l.IsSpelled)
    (hl : l.kind = .keyword w) : l.unplaced = ofKeyword w :=
  h.unplaced_of_token (Token.kind_eq_keyword.1 hl) fun _ hwritten => hwritten

/-- A name is written as itself. -/
theorem IsSpelled.unplaced_name {l : Lexeme} {name : String} (h : l.IsSpelled)
    (hl : l.token = .identifier name) : l.unplaced = ofName name :=
  h.unplaced_of_token hl fun _ hwritten => hwritten

end Lexeme

/-- The lexemes of a source text are spelled. -/
theorem isSpelled_of_mem_entries {source : List Char} {l : Lexeme} (h : .ok l ∈ entries source) :
    l.IsSpelled := by
  obtain ⟨c, rest, n, hclassify, hliteral⟩ := exists_classify_of_mem_entries h
  obtain ⟨hn, hapart⟩ := Piece.classify_apart hclassify
  have hclassify := hapart [] (Or.inl rfl)
  rw [List.append_nil] at hclassify
  refine ⟨c, rest.take n, ?_, ?_⟩
  · rw [hliteral, String.toList_ofList]
  · rw [hclassify, List.length_take_of_le hn]

/-- Lexemes that are all spelled. -/
def AllSpelled (ls : List Lexeme) : Prop := ∀ l ∈ ls, l.IsSpelled

@[simp] theorem allSpelled_nil : AllSpelled [] := fun _ h => by cases h

@[simp] theorem allSpelled_cons {l : Lexeme} {ls : List Lexeme} :
    AllSpelled (l :: ls) ↔ l.IsSpelled ∧ AllSpelled ls :=
  List.forall_mem_cons

@[simp] theorem allSpelled_append {ls ls' : List Lexeme} :
    AllSpelled (ls ++ ls') ↔ AllSpelled ls ∧ AllSpelled ls' :=
  List.forall_mem_append

@[simp] theorem allSpelled_enclosed {opening closing : Symbol} {ls : List Lexeme} :
    AllSpelled (enclosed opening closing ls) ↔ AllSpelled ls := by
  simp [enclosed]

theorem Stream.Delivers.allSpelled {source : String} {ls : List Lexeme}
    (h : (Stream.ofSource source).Delivers ls) : AllSpelled ls := by
  have hentries : MiniC.entries source.toList = ls.map .ok :=
    (Stream.endsOnce_ofSource source).delivers_iff.1 h
  intro l hl
  have hmem : .ok l ∈ MiniC.entries source.toList := by
    rw [hentries]
    exact List.mem_map_of_mem hl
  exact isSpelled_of_mem_entries hmem

/-- Lexemes that are spelled alike are the same tokens. -/
theorem AllSpelled.tokens_eq {ls ls' : List Lexeme} (h : AllSpelled ls) (h' : AllSpelled ls')
    (hliterals : ls.map Lexeme.literal = ls'.map Lexeme.literal) :
    ls.map (fun l => (l.token, l.literal)) = ls'.map fun l => (l.token, l.literal) := by
  induction ls generalizing ls' with
  | nil =>
    cases ls' with
    | nil => rfl
    | cons l' ls' => cases hliterals
  | cons l ls ih =>
    cases ls' with
    | nil => cases hliterals
    | cons l' ls' =>
      obtain ⟨hl, hls⟩ := allSpelled_cons.1 h
      obtain ⟨hl', hls'⟩ := allSpelled_cons.1 h'
      obtain ⟨hliteral, hliterals⟩ := List.cons.inj hliterals
      rw [List.map_cons, List.map_cons, hl.token_eq hl' hliteral, hliteral, ih hls hls' hliterals]

end MiniC
