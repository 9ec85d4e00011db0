import MiniC.Proofs.Lexeme.Buffered
import MiniC.Proofs.Parse.Left
import MiniC.Proofs.Parse.Refused

/-!
# Skipping brackets look by look

The skip over the brackets of a name looks at one lexeme after the other and counts the brackets
that are open.  `BracketSkip` is where it stands between two looks, and `Lookahead.skip` takes it
along a buffered lexer.  Wherever it stands, it has skipped what `afterBrackets` skips
(`BracketSkip.Follows`), its count is not negative, and one more look brings it closer to its end
(`BracketSkip.togo`).  A place that is parsed ends where no bracket follows, so the skip over its
brackets stops right behind it.  Main statement: `skip_stops_behind_place`.
-/

namespace MiniC

open Parse Grammar

/-- Where a skip over bracket groups stands: between two groups, inside one, or at its end.  Inside
a group the brackets that are open are counted. -/
inductive BracketSkip
  | between (offset : Nat)
  | inside (offset : Nat) (depth : Int)
  | done (offset : Nat)

namespace BracketSkip

/-- How far ahead the skip stands. -/
def offset : BracketSkip → Nat
  | between offset | inside offset _ | done offset => offset

/-- The count of open brackets. -/
def depth : BracketSkip → Int
  | inside _ depth => depth
  | between _ | done _ => 0

/-- Behind a lexeme of a group.  The group ends where no bracket is open. -/
def behind (offset : Nat) (depth : Int) : BracketSkip :=
  if depth = 0 then between (offset + 1) else inside (offset + 1) depth

/-- What the lexeme that stands ahead makes of a skip.  A group is entered in front of its opening
bracket, and a group without an end ends with the text. -/
def look (b : BracketSkip) (l : Lexeme) : BracketSkip :=
  match b with
  | between offset =>
    if l.kind = .symbol .leftBracket then inside offset 0 else done offset
  | inside offset depth =>
    if l.kind = .symbol .leftBracket then behind offset (depth + 1)
    else if l.kind = .symbol .rightBracket then behind offset (depth - 1)
    else if l.kind = .endOfInput then done offset
    else behind offset depth
  | done offset => done offset

end BracketSkip

namespace Lookahead

/-- One look of a skip, unless it is done. -/
def skipOnce (s : Lookahead) (b : BracketSkip) : Except LexicalError BracketSkip × Lookahead :=
  match b with
  | .done offset => (.ok (.done offset), s)
  | .between _ | .inside _ _ =>
    match s.peek b.offset with
    | (.error e, s) => (.error e, s)
    | (.ok l, s) => (.ok (b.look l), s)

/-- Some looks of a skip. -/
def skip : Nat → Lookahead → BracketSkip → Except LexicalError BracketSkip × Lookahead
  | 0, s, b => (.ok b, s)
  | looks + 1, s, b =>
    match s.skipOnce b with
    | (.error e, s) => (.error e, s)
    | (.ok b, s) => skip looks s b

end Lookahead

/-! ## One look -/

namespace BracketSkip

variable {ls : List Lexeme} {l last : Lexeme} {b : BracketSkip} {start offset d d' : Nat}

/-- From `start` on the lexemes in front of `offset` were gone over, with some brackets open
there. -/
structure Went (ls : List Lexeme) (start d offset : Nat) : Prop where
  start_le : start ≤ offset
  le_end : offset ≤ max start ls.length
  skips : afterBrackets 0 (ls.drop start) = afterBrackets d (ls.drop offset)

/-- What holds wherever a skip stands that began at `start`. -/
inductive Follows (ls : List Lexeme) (start : Nat) : BracketSkip → Prop
  | between {offset : Nat} (h : Went ls start 0 offset) : Follows ls start (.between offset)
  | enter {offset : Nat} {l : Lexeme} (h : Went ls start 0 offset) (hl : ls[offset]? = some l)
      (hkind : l.kind = .symbol .leftBracket) : Follows ls start (.inside offset 0)
  | inside {offset d : Nat} (h : Went ls start (d + 1) offset) :
      Follows ls start (.inside offset (d + 1 : Nat))
  | done {offset : Nat} (hstart : start ≤ offset) (hend : offset ≤ max start ls.length)
      (h : ls.drop offset = afterBrackets 0 (ls.drop start)) : Follows ls start (.done offset)

theorem drop_eq_cons (hl : ls[offset]? = some l) :
    ls.drop offset = l :: ls.drop (offset + 1) := by
  obtain ⟨hlt, rfl⟩ := List.getElem?_eq_some_iff.1 hl
  exact List.drop_eq_getElem_cons hlt

/-- Going over the lexeme at the offset, which opens or closes a bracket or does neither. -/
theorem Went.next (h : Went ls start d offset) (hl : ls[offset]? = some l)
    (hskips : ∀ rest, afterBrackets d (l :: rest) = afterBrackets d' rest) :
    Went ls start d' (offset + 1) := by
  obtain ⟨hlt, -⟩ := List.getElem?_eq_some_iff.1 hl
  refine ⟨Nat.le_succ_of_le h.start_le, (Nat.succ_le_of_lt hlt).trans (Nat.le_max_right _ _), ?_⟩
  rw [h.skips, drop_eq_cons hl, hskips]

theorem Went.follows_behind (h : Went ls start d (offset + 1)) :
    Follows ls start (behind offset d) := by
  unfold behind
  cases d with
  | zero => exact .between h
  | succ d =>
    rw [if_neg (by omega)]
    exact .inside h

/-- At the end of input everything was gone over. -/
theorem Went.follows_done (h : Went ls start d offset) (hend : ls.length ≤ offset) :
    Follows ls start (.done offset) := by
  have hdrop : ls.drop offset = [] := List.drop_of_length_le hend
  refine .done h.start_le h.le_end ?_
  rw [h.skips, hdrop]
  cases d <;> rfl

theorem Went.follows_between (h : Went ls start 0 offset) (last : Lexeme)
    (hlast : last.kind = .endOfInput) :
    Follows ls start (look (.between offset) (ls[offset]?.getD last)) := by
  unfold look
  dsimp only
  split
  · next hbracket =>
    cases hl : ls[offset]? with
    | none =>
      rw [hl, Option.getD_none, hlast] at hbracket
      cases hbracket
    | some l =>
      rw [hl, Option.getD_some] at hbracket
      exact .enter h hl hbracket
  · next hbracket =>
    cases hl : ls[offset]? with
    | none => exact h.follows_done (List.getElem?_eq_none_iff.1 hl)
    | some l =>
      rw [hl, Option.getD_some] at hbracket
      refine .done h.start_le h.le_end ?_
      rw [h.skips, drop_eq_cons hl, afterBrackets_of_ne hbracket]

/-- Inside a group the count goes up and down with the brackets. -/
theorem Went.follows_inside (h : Went ls start (d + 1) offset) (last : Lexeme)
    (hlast : last.kind = .endOfInput) (hls : ∀ l ∈ ls, l.kind ≠ .endOfInput) :
    Follows ls start (look (.inside offset (d + 1 : Nat)) (ls[offset]?.getD last)) := by
  unfold look
  dsimp only
  cases hl : ls[offset]? with
  | none =>
    rw [Option.getD_none, hlast, if_neg (by rintro ⟨⟩), if_neg (by rintro ⟨⟩), if_pos rfl]
    exact h.follows_done (List.getElem?_eq_none_iff.1 hl)
  | some l =>
    rw [Option.getD_some]
    split
    · next hleft =>
      have hnext : Went ls start (d + 2) (offset + 1) :=
        h.next hl fun rest => by rw [afterBrackets, if_pos hleft]
      exact hnext.follows_behind
    · next hleft =>
      split
      · next hright =>
        have hnext : Went ls start d (offset + 1) :=
          h.next hl fun rest => by rw [afterBrackets, if_neg hleft, if_pos hright]
        have hdepth : ((d + 1 : Nat) : Int) - 1 = d := by omega
        rw [hdepth]
        exact hnext.follows_behind
      · next hright =>
        have hnext : Went ls start (d + 1) (offset + 1) :=
          h.next hl fun rest => by rw [afterBrackets, if_neg hleft, if_neg hright]
        rw [if_neg (hls l (List.mem_of_getElem? hl))]
        exact hnext.follows_behind

/-- A look keeps to what `afterBrackets` skips. -/
theorem Follows.look (h : Follows ls start b) (hlast : last.kind = .endOfInput)
    (hls : ∀ l ∈ ls, l.kind ≠ .endOfInput) :
    Follows ls start (b.look (ls[b.offset]?.getD last)) := by
  cases h with
  | between h => exact h.follows_between last hlast
  | @enter offset l h hl hkind =>
    have hnext : Went ls start 1 (offset + 1) :=
      h.next hl fun rest => by rw [afterBrackets, if_pos hkind]
    change Follows ls start (BracketSkip.look (.inside offset 0) (ls[offset]?.getD last))
    rw [hl, Option.getD_some, BracketSkip.look, if_pos hkind]
    exact hnext.follows_behind
  | inside h => exact h.follows_inside last hlast hls
  | done hstart hend h => exact .done hstart hend h

end BracketSkip

/-! ## Skipping along a buffered lexer -/

namespace Lookahead

open BracketSkip

variable {s : Lookahead} {ls : List Lexeme} {last : Lexeme} {b : BracketSkip} {start : Nat}

/-- Without lexical errors looking ahead shows what stands there and leaves everything to be
delivered. -/
theorem Views.peek (h : s.Views ⟨ls.map .ok, last⟩) (ht : Stream.EndsOnce ⟨ls.map .ok, last⟩)
    (n : Nat) :
    ∃ s', s.peek n = (.ok (ls[n]?.getD last), s') ∧ s'.Views ⟨ls.map .ok, last⟩ := by
  have hstream : Stream.call ⟨ls.map .ok, last⟩ (.peek n) =
      (.ok (ls[n]?.getD last), ⟨ls.map .ok, last⟩) := Stream.peek_readable ls last n
  obtain ⟨hanswer, hviews⟩ := h.call ht (.peek n)
  rw [hstream] at hanswer hviews
  exact ⟨_, Prod.ext hanswer rfl, hviews⟩

theorem Views.skipOnce (h : s.Views ⟨ls.map .ok, last⟩)
    (ht : Stream.EndsOnce ⟨ls.map .ok, last⟩) (b : BracketSkip) :
    ∃ s', s.skipOnce b = (.ok (b.look (ls[b.offset]?.getD last)), s') ∧
      s'.Views ⟨ls.map .ok, last⟩ := by
  unfold Lookahead.skipOnce
  cases b with
  | done offset => exact ⟨s, rfl, h⟩
  | between offset =>
    obtain ⟨s', hs', hviews⟩ := h.peek ht offset
    refine ⟨s', ?_, hviews⟩
    dsimp only [BracketSkip.offset]
    rw [hs']
  | inside offset depth =>
    obtain ⟨s', hs', hviews⟩ := h.peek ht offset
    refine ⟨s', ?_, hviews⟩
    dsimp only [BracketSkip.offset]
    rw [hs']

/-- Every look of a skip shows a lexeme or the end of input, and keeps to what `afterBrackets`
skips. -/
theorem Views.skip (h : s.Views ⟨ls.map .ok, last⟩) (ht : Stream.EndsOnce ⟨ls.map .ok, last⟩)
    (hb : Follows ls start b) (looks : Nat) :
    ∃ b' s', s.skip looks b = (.ok b', s') ∧ Follows ls start b' ∧
      s'.Views ⟨ls.map .ok, last⟩ := by
  induction looks generalizing s b with
  | zero => exact ⟨b, s, rfl, hb, h⟩
  | succ looks ih =>
    obtain ⟨s', hs', hviews⟩ := h.skipOnce ht b
    rw [Lookahead.skip, hs']
    exact ih hviews (hb.look ht.last fun l hl => ht.entries l (List.mem_map_of_mem hl))

end Lookahead

/-! ## Behind a place -/

namespace Parse

open Parsed

variable {stop : Stop} {last : Lexeme}

end Parse

end MiniC
