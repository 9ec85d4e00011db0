import MiniC.Proofs.Parse.Declared

/-!
# The lexemes of trees

All lexemes that a tree keeps, and the expressions that occur in a program.  A part of a tree keeps
lexemes of the tree only (`Expr.Within.lexemes`, `Statement.Within.lexemes`,
`Program.Mentions.lexemes`).
-/

namespace MiniC

/-! ## Lexemes -/

mutual

/-- The lexemes of an expression. -/
def Expr.lexemes : Expr → List Lexeme
  | .literal _ l => [l]
  | .list elements l => l :: Expr.lexemesAll elements
  | .variable _ indices l => l :: Expr.lexemesIndices indices
  | .unary _ operand l | .cast _ operand l => l :: operand.lexemes
  | .binary _ left right l => l :: (left.lexemes ++ right.lexemes)
  | .call _ arguments l => l :: Expr.lexemesAll arguments

/-- The lexemes of expressions. -/
def Expr.lexemesAll : List Expr → List Lexeme
  | [] => []
  | e :: rest => e.lexemes ++ Expr.lexemesAll rest

/-- The lexemes of indices. -/
def Expr.lexemesIndices : List (Option Expr) → List Lexeme
  | [] => []
  | none :: rest => Expr.lexemesIndices rest
  | some e :: rest => e.lexemes ++ Expr.lexemesIndices rest

end

/-- The lexemes of an expression that may be absent. -/
def Expr.lexemesOption (e : Option Expr) : List Lexeme := e.elim [] Expr.lexemes

/-- The lexemes of a place. -/
def Place.lexemes (p : Place) : List Lexeme := p.lexeme :: Expr.lexemesIndices p.indices

/-- The lexemes of a call. -/
def Call.lexemes (c : Call) : List Lexeme := c.lexeme :: Expr.lexemesAll c.arguments

/-- The lexemes of the declaration of a variable. -/
def Declaration.lexemes (d : Declaration) : List Lexeme :=
  d.target.lexemes ++ Expr.lexemesOption d.initial

/-- The lexemes of a simple statement. -/
def SimpleStatement.lexemes : SimpleStatement → List Lexeme
  | .declaration d => d.lexemes
  | .assignment target _ value l => l :: (target.lexemes ++ value.lexemes)
  | .call c => c.lexemes

/-- The lexemes of a simple statement that may be absent. -/
def SimpleStatement.lexemesOption (s : Option SimpleStatement) : List Lexeme :=
  s.elim [] SimpleStatement.lexemes

mutual

/-- The lexemes of a statement. -/
def Statement.lexemes : Statement → List Lexeme
  | .empty => []
  | .simple s => s.lexemes
  | .block body l => l :: Statement.lexemesAll body
  | .ifElse branches otherwise l =>
    l :: (Statement.lexemesBranches branches ++ Statement.lexemesOtherwise otherwise)
  | .forLoop first c step body l =>
    l :: (SimpleStatement.lexemesOption first ++ c.lexemes
      ++ SimpleStatement.lexemesOption step ++ body.lexemes)
  | .whileLoop c body l | .doWhile body c l => l :: (c.lexemes ++ body.lexemes)
  | .breakLoop l | .continueLoop l => [l]
  | .returnValue e l => l :: Expr.lexemesOption e

/-- The lexemes of statements. -/
def Statement.lexemesAll : List Statement → List Lexeme
  | [] => []
  | s :: rest => s.lexemes ++ Statement.lexemesAll rest

/-- The lexemes of branches. -/
def Statement.lexemesBranches : List (Expr × Statement) → List Lexeme
  | [] => []
  | (c, s) :: rest => c.lexemes ++ s.lexemes ++ Statement.lexemesBranches rest

/-- The lexemes of the last branch. -/
def Statement.lexemesOtherwise : Option Statement → List Lexeme
  | none => []
  | some s => s.lexemes

end

/-- The lexemes of the body of a function. -/
def FunctionBody.lexemes : FunctionBody → List Lexeme
  | .block body l => l :: Statement.lexemesAll body
  | .builtin _ => []

/-- The lexemes of a function. -/
def FunctionDecl.lexemes (f : FunctionDecl) : List Lexeme :=
  f.lexeme :: (f.parameters.map Parameter.lexeme ++ f.body.lexemes)

/-- The lexemes of an item. -/
def Item.lexemes : Item → List Lexeme
  | .function f => f.lexemes
  | .global d => d.lexemes

/-! ## Parts of lists -/

namespace Expr

theorem lexeme_mem_lexemes (e : Expr) : e.lexeme ∈ e.lexemes := by
  cases e <;> exact List.mem_cons_self

theorem lexemesAll_eq (es : List Expr) : lexemesAll es = es.flatMap lexemes := by
  induction es with
  | nil => rfl
  | cons e rest ih => rw [lexemesAll, ih, List.flatMap_cons]

theorem mem_lexemesAll {es : List Expr} {e : Expr} (he : e ∈ es) {l : Lexeme}
    (hl : l ∈ e.lexemes) : l ∈ lexemesAll es := by
  rw [lexemesAll_eq]
  exact List.mem_flatMap.2 ⟨e, he, hl⟩

theorem mem_lexemesIndices {indices : List (Option Expr)} {e : Expr} (he : some e ∈ indices)
    {l : Lexeme} (hl : l ∈ e.lexemes) : l ∈ lexemesIndices indices := by
  induction indices with
  | nil => cases he
  | cons i rest ih =>
    rcases List.mem_cons.1 he with rfl | hrest
    · exact List.mem_append_left _ hl
    · cases i with
      | none => exact ih hrest
      | some e' => exact List.mem_append_right _ (ih hrest)

end Expr

namespace Statement

theorem mem_lexemesAll {body : List Statement} {s : Statement} (hs : s ∈ body) {l : Lexeme}
    (hl : l ∈ s.lexemes) : l ∈ lexemesAll body := by
  induction body with
  | nil => cases hs
  | cons t rest ih =>
    rcases List.mem_cons.1 hs with rfl | hrest
    · exact List.mem_append_left _ hl
    · exact List.mem_append_right _ (ih hrest)

theorem mem_lexemesBranches {branches : List (Expr × Statement)} {c : Expr} {s : Statement}
    (hb : (c, s) ∈ branches) {l : Lexeme} (hl : l ∈ c.lexemes ++ s.lexemes) :
    l ∈ lexemesBranches branches := by
  induction branches with
  | nil => cases hb
  | cons b rest ih =>
    rcases List.mem_cons.1 hb with rfl | hrest
    · exact List.mem_append_left _ hl
    · exact List.mem_append_right _ (ih hrest)

/-- A statement that occurs in another one keeps lexemes of that. -/
theorem Within.lexemes {s t : Statement} (h : s.Within t) {l : Lexeme} (hl : l ∈ s.lexemes) :
    l ∈ t.lexemes := by
  induction h with
  | refl => exact hl
  | block ht _ ih => exact List.mem_cons_of_mem _ (mem_lexemesAll ht (ih hl))
  | branch ht _ ih =>
    have hbranch := mem_lexemesBranches ht (List.mem_append_right _ (ih hl))
    exact List.mem_cons_of_mem _ (List.mem_append_left _ hbranch)
  | otherwise _ ih => exact List.mem_cons_of_mem _ (List.mem_append_right _ (ih hl))
  | forFirst =>
    refine List.mem_cons_of_mem _ (List.mem_append_left _ (List.mem_append_left _ ?_))
    exact List.mem_append_left _ hl
  | forStep =>
    refine List.mem_cons_of_mem _ (List.mem_append_left _ ?_)
    exact List.mem_append_right _ hl
  | forBody _ ih => exact List.mem_cons_of_mem _ (List.mem_append_right _ (ih hl))
  | whileBody _ ih | doBody _ ih =>
    exact List.mem_cons_of_mem _ (List.mem_append_right _ (ih hl))

end Statement

/-! ## Expressions of programs -/

/-- The expressions that occur in an expression, which is one of them. -/
inductive Expr.Within : Expr → Expr → Prop
  | refl (e : Expr) : Within e e
  | element {e x : Expr} {elements : List Expr} {l : Lexeme} (hx : x ∈ elements)
      (h : Within e x) : Within e (.list elements l)
  | index {e x : Expr} {name : String} {indices : List (Option Expr)} {l : Lexeme}
      (hx : some x ∈ indices) (h : Within e x) : Within e (.variable name indices l)
  | operand {e x : Expr} {op : UnaryOp} {l : Lexeme} (h : Within e x) : Within e (.unary op x l)
  | left {e x y : Expr} {op : BinaryOp} {l : Lexeme} (h : Within e x) : Within e (.binary op x y l)
  | right {e x y : Expr} {op : BinaryOp} {l : Lexeme} (h : Within e y) :
      Within e (.binary op x y l)
  | converted {e x : Expr} {type : TypeName} {l : Lexeme} (h : Within e x) :
      Within e (.cast type x l)
  | argument {e x : Expr} {name : String} {arguments : List Expr} {l : Lexeme}
      (hx : x ∈ arguments) (h : Within e x) : Within e (.call name arguments l)

/-- The expressions that a declaration holds: its dimensions and the initial value. -/
def Declaration.Holds (d : Declaration) (e : Expr) : Prop :=
  some e ∈ d.target.indices ∨ d.initial = some e

/-- The expressions that a statement holds itself, outside of the statements in it. -/
inductive Statement.Holds : Statement → Expr → Prop
  | declaration {d : Declaration} {e : Expr} (h : d.Holds e) : Holds (.simple (.declaration d)) e
  | assigned {target : Place} {op : AssignOp} {e : Expr} {l : Lexeme} :
      Holds (.simple (.assignment target op e l)) e
  | index {target : Place} {op : AssignOp} {e value : Expr} {l : Lexeme}
      (h : some e ∈ target.indices) : Holds (.simple (.assignment target op value l)) e
  | call {c : Call} : Holds (.simple (.call c)) c.expr
  | branch {e : Expr} {s : Statement} {branches : List (Expr × Statement)}
      {otherwise : Option Statement} {l : Lexeme} (h : (e, s) ∈ branches) :
      Holds (.ifElse branches otherwise l) e
  | forCondition {e : Expr} {first step : Option SimpleStatement} {body : Statement} {l : Lexeme} :
      Holds (.forLoop first e step body l) e
  | whileCondition {e : Expr} {body : Statement} {l : Lexeme} : Holds (.whileLoop e body l) e
  | doCondition {e : Expr} {body : Statement} {l : Lexeme} : Holds (.doWhile body e l) e
  | returned {e : Expr} {l : Lexeme} : Holds (.returnValue (some e) l) e

/-- The expressions of a program, in its functions and its global declarations. -/
def Program.Mentions (p : Program) (e : Expr) : Prop :=
  ∃ x, e.Within x ∧
    ((∃ s, p.Contains s ∧ s.Holds x) ∨ ∃ d, .global d ∈ p.items ∧ d.Holds x)

/-- The lexemes of a program. -/
def Program.lexemes (p : Program) : List Lexeme := p.items.flatMap Item.lexemes

variable {p : Program} {l : Lexeme}

/-- An expression that occurs in another one keeps lexemes of that. -/
theorem Expr.Within.lexemes {e x : Expr} (h : e.Within x) (hl : l ∈ e.lexemes) :
    l ∈ x.lexemes := by
  induction h with
  | refl => exact hl
  | element hx _ ih | argument hx _ ih =>
    exact List.mem_cons_of_mem _ (Expr.mem_lexemesAll hx ih)
  | index hx _ ih => exact List.mem_cons_of_mem _ (Expr.mem_lexemesIndices hx ih)
  | operand _ ih | converted _ ih => exact List.mem_cons_of_mem _ ih
  | left _ ih => exact List.mem_cons_of_mem _ (List.mem_append_left _ ih)
  | right _ ih => exact List.mem_cons_of_mem _ (List.mem_append_right _ ih)

theorem Declaration.Holds.lexemes {d : Declaration} {e : Expr} (h : d.Holds e)
    (hl : l ∈ e.lexemes) : l ∈ d.lexemes := by
  rcases h with hindex | hinitial
  · have hindices := Expr.mem_lexemesIndices hindex hl
    exact List.mem_append_left _ (List.mem_cons_of_mem _ hindices)
  · refine List.mem_append_right _ ?_
    rw [hinitial]
    exact hl

theorem Statement.Holds.lexemes {s : Statement} {e : Expr} (h : s.Holds e)
    (hl : l ∈ e.lexemes) : l ∈ s.lexemes := by
  cases h with
  | declaration h => exact h.lexemes hl
  | assigned => exact List.mem_cons_of_mem _ (List.mem_append_right _ hl)
  | index h =>
    have hindices := Expr.mem_lexemesIndices h hl
    exact List.mem_cons_of_mem _ (List.mem_append_left _ (List.mem_cons_of_mem _ hindices))
  | call => exact hl
  | branch h =>
    have hbranch := Statement.mem_lexemesBranches h (List.mem_append_left _ hl)
    exact List.mem_cons_of_mem _ (List.mem_append_left _ hbranch)
  | forCondition =>
    refine List.mem_cons_of_mem _ (List.mem_append_left _ (List.mem_append_left _ ?_))
    exact List.mem_append_right _ hl
  | whileCondition | doCondition => exact List.mem_cons_of_mem _ (List.mem_append_left _ hl)
  | returned => exact List.mem_cons_of_mem _ hl

theorem Program.mem_lexemes {i : Item} (hi : i ∈ p.items) (hl : l ∈ i.lexemes) : l ∈ p.lexemes :=
  List.mem_flatMap.2 ⟨i, hi, hl⟩

theorem FunctionDecl.Contains.lexemes {f : FunctionDecl} {s : Statement} (h : f.Contains s)
    (hl : l ∈ s.lexemes) : l ∈ f.lexemes := by
  obtain ⟨body, brace, hbody, t, ht, hst⟩ := h
  refine List.mem_cons_of_mem _ (List.mem_append_right _ ?_)
  rw [hbody]
  exact List.mem_cons_of_mem _ (Statement.mem_lexemesAll ht (hst.lexemes hl))

theorem Program.Contains.lexemes {s : Statement} (h : p.Contains s) (hl : l ∈ s.lexemes) :
    l ∈ p.lexemes := by
  obtain ⟨f, hf, hs⟩ := h
  exact mem_lexemes hf (hs.lexemes hl)

theorem Program.Declares.lexemes {d : Declaration} (h : p.Declares d) (hl : l ∈ d.lexemes) :
    l ∈ p.lexemes := by
  rcases h with hglobal | hlocal
  · exact mem_lexemes hglobal hl
  · exact hlocal.lexemes hl

theorem Program.Mentions.lexemes {e : Expr} (h : p.Mentions e) (hl : l ∈ e.lexemes) :
    l ∈ p.lexemes := by
  obtain ⟨x, hx, ⟨s, hs, hholds⟩ | ⟨d, hd, hholds⟩⟩ := h
  · exact hs.lexemes (hholds.lexemes (hx.lexemes hl))
  · exact mem_lexemes hd (hholds.lexemes (hx.lexemes hl))

end MiniC
