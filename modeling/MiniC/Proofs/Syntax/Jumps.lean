import MiniC.Proofs.Syntax.Lexemes

/-!
# Jumps and the loops around them

A jump is caught by the innermost loop around it.  The statements that occur in a statement are
divided into those that stand in the body of one of its loops and those that are exposed: a jump
that is exposed is caught by no loop there.  Main statement: `Statement.Within.exposed_or_looped`.
-/

namespace MiniC

/-- The statements that occur in a statement outside of the bodies of its loops, which is one of
them. -/
inductive Statement.Exposed : Statement → Statement → Prop
  | refl (s : Statement) : Exposed s s
  | block {s t : Statement} {body : List Statement} {l : Lexeme} (ht : t ∈ body)
      (h : Exposed s t) : Exposed s (.block body l)
  | branch {s t : Statement} {c : Expr} {branches : List (Expr × Statement)}
      {otherwise : Option Statement} {l : Lexeme} (ht : (c, t) ∈ branches) (h : Exposed s t) :
      Exposed s (.ifElse branches otherwise l)
  | otherwise {s t : Statement} {branches : List (Expr × Statement)} {l : Lexeme}
      (h : Exposed s t) : Exposed s (.ifElse branches (some t) l)

namespace Statement

/-- The statement that a loop repeats. -/
def loopBody? : Statement → Option Statement
  | .forLoop _ _ _ body _ | .whileLoop _ body _ | .doWhile body _ _ => some body
  | _ => none

/-- The statement occurs in the body of a loop of another one. -/
def Looped (s t : Statement) : Prop :=
  ∃ loop body : Statement, loop.Exposed t ∧ loop.loopBody? = some body ∧ s.Within body

variable {s t : Statement}

theorem Exposed.within (h : s.Exposed t) : s.Within t := by
  induction h with
  | refl => exact .refl _
  | block ht _ ih => exact .block ht ih
  | branch ht _ ih => exact .branch ht ih
  | otherwise _ ih => exact .otherwise ih

theorem Exposed.trans {r : Statement} (hrs : r.Exposed s) (hst : s.Exposed t) : r.Exposed t := by
  induction hst with
  | refl => exact hrs
  | block ht _ ih => exact .block ht ih
  | branch ht _ ih => exact .branch ht ih
  | otherwise _ ih => exact .otherwise ih

theorem Looped.of_exposed {r : Statement} (h : r.Looped s) (hst : s.Exposed t) : r.Looped t := by
  obtain ⟨loop, body, hloop, hbody, hr⟩ := h
  exact ⟨loop, body, hloop.trans hst, hbody, hr⟩

/-- Whatever occurs in a statement is exposed or in a loop, but for what the header of a loop
holds. -/
theorem Within.exposed_or_looped (h : s.Within t) (hs : ∀ x, s ≠ .simple x) :
    s.Exposed t ∨ s.Looped t := by
  induction h with
  | refl => exact Or.inl (.refl _)
  | block ht _ ih =>
    exact (ih hs).imp (.block ht) fun hlooped => hlooped.of_exposed (.block ht (.refl _))
  | branch ht _ ih =>
    exact (ih hs).imp (.branch ht) fun hlooped => hlooped.of_exposed (.branch ht (.refl _))
  | otherwise _ ih =>
    exact (ih hs).imp .otherwise fun hlooped => hlooped.of_exposed (.otherwise (.refl _))
  | forFirst | forStep => exact absurd rfl (hs _)
  | forBody h _ | whileBody h _ | doBody h _ => exact Or.inr ⟨_, _, .refl _, rfl, h⟩

end Statement

namespace FunctionDecl

/-- The statement occurs in the body of a function outside of the bodies of its loops. -/
def Exposes (f : FunctionDecl) (s : Statement) : Prop :=
  ∃ body l, f.body = .block body l ∧ ∃ t ∈ body, s.Exposed t

/-- A `break` or a `continue` at a lexeme is outside of all loops of a function. -/
def StraysAt (f : FunctionDecl) (l : Lexeme) : Prop :=
  f.Exposes (.breakLoop l) ∨ f.Exposes (.continueLoop l)

variable {f : FunctionDecl} {s : Statement} {l : Lexeme}

theorem Exposes.contains (h : f.Exposes s) : f.Contains s := by
  obtain ⟨body, l, hbody, t, ht, hs⟩ := h
  exact ⟨body, l, hbody, t, ht, hs.within⟩

theorem StraysAt.lexemes (h : f.StraysAt l) : l ∈ f.lexemes := by
  rcases h with h | h
  · exact h.contains.lexemes List.mem_cons_self
  · exact h.contains.lexemes List.mem_cons_self

end FunctionDecl

end MiniC
