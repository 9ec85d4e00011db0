import MiniC.Parse.Program

/-!
# Declared types

The statements and declarations of a program, at any depth, and the types that a parsed program can
declare variables with.  `Parsed.Yields P` says that whatever a parser yields satisfies `P`; it goes
through the combinators, and the parsers of statements are followed in their own recursion.  Main
statement: `declares_valueType`, a program that was parsed declares ints, floats and strings only.
-/

namespace MiniC

/-- The statements that occur in a statement, which is one of them.  What stands in the header of a
loop occurs as a statement. -/
inductive Statement.Within : Statement → Statement → Prop
  | refl (s : Statement) : Within s s
  | block {s t : Statement} {body : List Statement} {l : Lexeme} (ht : t ∈ body)
      (h : Within s t) : Within s (.block body l)
  | branch {s t : Statement} {c : Expr} {branches : List (Expr × Statement)}
      {otherwise : Option Statement} {l : Lexeme} (ht : (c, t) ∈ branches) (h : Within s t) :
      Within s (.ifElse branches otherwise l)
  | otherwise {s t : Statement} {branches : List (Expr × Statement)} {l : Lexeme}
      (h : Within s t) : Within s (.ifElse branches (some t) l)
  | forFirst {s : SimpleStatement} {c : Expr} {step : Option SimpleStatement} {body : Statement}
      {l : Lexeme} : Within (.simple s) (.forLoop (some s) c step body l)
  | forStep {s : SimpleStatement} {c : Expr} {first : Option SimpleStatement} {body : Statement}
      {l : Lexeme} : Within (.simple s) (.forLoop first c (some s) body l)
  | forBody {s : Statement} {c : Expr} {first step : Option SimpleStatement} {body : Statement}
      {l : Lexeme} (h : Within s body) : Within s (.forLoop first c step body l)
  | whileBody {s : Statement} {c : Expr} {body : Statement} {l : Lexeme} (h : Within s body) :
      Within s (.whileLoop c body l)
  | doBody {s : Statement} {c : Expr} {body : Statement} {l : Lexeme} (h : Within s body) :
      Within s (.doWhile body c l)

theorem Statement.Within.trans {r s t : Statement} (hrs : r.Within s) (hst : s.Within t) :
    r.Within t := by
  induction hst with
  | refl => exact hrs
  | block ht _ ih => exact .block ht (ih hrs)
  | branch ht _ ih => exact .branch ht (ih hrs)
  | otherwise _ ih => exact .otherwise (ih hrs)
  | forFirst =>
    cases hrs
    exact .forFirst
  | forStep =>
    cases hrs
    exact .forStep
  | forBody _ ih => exact .forBody (ih hrs)
  | whileBody _ ih => exact .whileBody (ih hrs)
  | doBody _ ih => exact .doBody (ih hrs)

/-- The statements of a function. -/
def FunctionDecl.Contains (f : FunctionDecl) (s : Statement) : Prop :=
  ∃ body l, f.body = .block body l ∧ ∃ t ∈ body, s.Within t

namespace Program

/-- The statements of a program, in the functions that it declares. -/
def Contains (p : Program) (s : Statement) : Prop :=
  ∃ f, .function f ∈ p.items ∧ f.Contains s

/-- The declarations of variables in a program, global or not. -/
def Declares (p : Program) (d : Declaration) : Prop :=
  .global d ∈ p.items ∨ p.Contains (.simple (.declaration d))

end Program

/-- The type of a variable can be declared: it is a scalar type. -/
def Declaration.Valued (d : Declaration) : Prop := d.type ≠ .void ∧ d.type ≠ .array

/-- All variables that a statement declares are of scalar types. -/
def Statement.Valued (s : Statement) : Prop :=
  ∀ d : Declaration, Statement.Within (.simple (.declaration d)) s → d.Valued

/-- All variables that a simple statement declares are of scalar types. -/
def SimpleStatement.Valued (s : SimpleStatement) : Prop := (Statement.simple s).Valued

/-- All variables that a function or a global declaration declares are of scalar types. -/
def Item.Valued : Item → Prop
  | .function f => ∀ s, f.Contains s → s.Valued
  | .global d => d.Valued

namespace Statement

variable {l : Lexeme} {c : Expr}

theorem valued_simple_declaration {d : Declaration} (h : d.Valued) :
    SimpleStatement.Valued (.declaration d) := by
  rintro _ (_ | _)
  exact h

theorem valued_simple {s : SimpleStatement} (h : ∀ d, s ≠ .declaration d) : s.Valued := by
  rintro d (_ | _)
  exact absurd rfl (h d)

theorem valued_block {body : List Statement} (h : ∀ s ∈ body, s.Valued) :
    (block body l).Valued := by
  rintro d (_ | ⟨ht, hd⟩)
  exact h _ ht d hd

theorem valued_ifElse {branches : List (Expr × Statement)} {otherwise : Option Statement}
    (h : ∀ b ∈ branches, b.2.Valued) (h' : ∀ s ∈ otherwise, s.Valued) :
    (ifElse branches otherwise l).Valued := by
  intro d hd
  cases hd with
  | branch ht hd => exact h _ ht d hd
  | otherwise hd => exact h' _ rfl d hd

theorem valued_forLoop {first step : Option SimpleStatement} {body : Statement}
    (hfirst : ∀ s ∈ first, s.Valued) (hstep : ∀ s ∈ step, s.Valued) (hbody : body.Valued) :
    (forLoop first c step body l).Valued := by
  intro d hd
  cases hd with
  | forFirst => exact hfirst _ rfl d (.refl _)
  | forStep => exact hstep _ rfl d (.refl _)
  | forBody hd => exact hbody d hd

theorem valued_whileLoop {body : Statement} (h : body.Valued) : (whileLoop c body l).Valued := by
  intro d hd
  cases hd with
  | whileBody hd => exact h d hd

theorem valued_doWhile {body : Statement} (h : body.Valued) : (doWhile body c l).Valued := by
  intro d hd
  cases hd with
  | doBody hd => exact h d hd

end Statement

/-! ## What parsers yield -/

namespace Parsed

variable {α β : Type} {n : Nat} {P : α → Prop} {Q : β → Prop}

/-- Whatever is yielded satisfies `P`. -/
def Yields (P : α → Prop) : Parsed n α → Prop
  | .ok value _ _ => P value
  | .error _ _ => True

theorem yields_true (p : Parsed n α) : p.Yields fun _ => True := by
  cases p with
  | ok value rest shorter => exact trivial
  | error e rest => exact trivial

theorem yields_leaving {value : α} (h : P value) (rest : List Lexeme) :
    (leaving value rest).Yields P := h

theorem Yields.relax {p : Parsed n α} (h : p.Yields P) : p.relax.Yields P := by
  cases p with
  | ok value rest shorter => exact h
  | error e rest => exact trivial

theorem Yields.map {p : Parsed n α} {f : α → β} (h : p.Yields P)
    (hf : ∀ value, P value → Q (f value)) : (p.map f).Yields Q := by
  cases p with
  | ok value rest shorter => exact hf value h
  | error e rest => exact trivial

theorem Yields.followedBy {p : Parsed n α}
    {next : α → (rest : List Lexeme) → rest.length < n → Parsed (rest.length + 1) β}
    (h : p.Yields P)
    (hnext : ∀ value rest shorter, P value → (next value rest shorter).Yields Q) :
    (p.followedBy next).Yields Q := by
  cases p with
  | error e rest => exact trivial
  | ok value rest shorter =>
    have hyields := hnext value rest shorter h
    unfold Parsed.followedBy
    dsimp only
    generalize next value rest shorter = q at hyields
    cases q with
    | ok value' left noLonger => exact hyields
    | error e left => exact trivial

theorem Yields.andThen {p : Parsed n α}
    {next : α → (rest : List Lexeme) → rest.length < n → Parsed rest.length β}
    (h : p.Yields P)
    (hnext : ∀ value rest shorter, P value → (next value rest shorter).Yields Q) :
    (p.andThen next).Yields Q :=
  h.followedBy fun value rest shorter hv => (hnext value rest shorter hv).relax

end Parsed

namespace Parse

open Parsed

variable {α : Type} {P : α → Prop} (stop : Stop)

theorem yields_refuse {n : Nat} (expected : Expected) :
    (refuse stop expected : Parsed n α).Yields P := by
  cases stop with
  | error e => exact trivial
  | ok last => exact trivial

theorem yields_atEnd {n : Nat} {next : Parsed n α} (h : next.Yields P) :
    (atEnd stop next).Yields P := by
  cases stop with
  | error e => exact trivial
  | ok last => exact h

theorem yields_ifNext (k : TokenKind) (ts : List Lexeme)
    {yes : (rest : List Lexeme) → rest.length < ts.length → Parsed (rest.length + 1) α}
    {no : Unit → Parsed ts.length α} (hyes : ∀ rest shorter, (yes rest shorter).Yields P)
    (hno : (no ()).Yields P) : (ifNext stop k ts yes no).Yields P := by
  cases ts with
  | nil =>
    cases stop with
    | error e => exact trivial
    | ok last => exact hno
  | cons l rest =>
    unfold ifNext
    dsimp only
    split
    · exact hyes rest _
    · exact hno

/-! ## Statements -/

theorem yields_valueType (ts : List Lexeme) :
    (valueType stop ts).Yields fun type => type ≠ .void ∧ type ≠ .array := by
  unfold valueType
  cases ts with
  | nil => exact yields_refuse stop _
  | cons l rest =>
    dsimp only
    split
    · next type htype =>
      split
      · exact trivial
      · next hvoid =>
        refine ⟨hvoid, ?_⟩
        rintro rfl
        unfold TypeName.ofKind? at htype
        split at htype <;> cases htype
    · exact trivial

theorem yields_declaration (ts : List Lexeme) :
    (declaration stop ts).Yields Declaration.Valued := by
  refine (yields_valueType stop ts).andThen fun _ _ _ htype => ?_
  refine (yields_true _).followedBy fun _ _ _ _ => ?_
  exact (yields_true _).map fun _ _ => htype

theorem yields_simpleStatement (ts : List Lexeme) :
    (simpleStatement stop ts).Yields SimpleStatement.Valued := by
  unfold simpleStatement
  cases ts with
  | nil => exact yields_refuse stop _
  | cons l rest =>
    dsimp only
    split
    · split
      · exact trivial
      · split
        · exact (yields_true _).map fun _ _ => Statement.valued_simple (by simp)
        · refine (yields_true _).andThen fun _ _ _ _ => ?_
          refine (yields_true _).andThen fun _ _ _ _ => ?_
          exact (yields_true _).map fun _ _ => Statement.valued_simple (by simp)
    · split
      · exact (yields_declaration stop _).map fun _ hd => Statement.valued_simple_declaration hd
      · exact trivial

theorem yields_optionalSimple (closing : Symbol) (ts : List Lexeme) :
    (optionalSimple stop closing ts).Yields fun s => ∀ t ∈ s, t.Valued := by
  refine yields_ifNext stop _ ts (fun rest _ => ?_) ?_
  · exact yields_leaving (by simp) rest
  · refine (yields_simpleStatement stop ts).andThen fun s _ _ hs => ?_
    refine (yields_true _).map fun _ _ => ?_
    rintro _ ⟨⟩
    exact hs

theorem yields_returnValue (ts : List Lexeme) :
    (returnValue stop ts).Yields Statement.Valued := by
  have hvalued : ∀ value l, (Statement.returnValue value l).Valued := by
    intro value l d hd
    cases hd
  refine (yields_true _).andThen fun l rest _ _ => ?_
  refine yields_ifNext stop _ rest (fun rest' _ => ?_) ?_
  · exact yields_leaving (hvalued _ l) rest'
  · refine (yields_true _).andThen fun _ _ _ _ => ?_
    exact (yields_true _).map fun _ _ => hvalued _ l

mutual

theorem yields_statement (ts : List Lexeme) : (statement stop ts).Yields Statement.Valued := by
  unfold statement
  cases ts with
  | nil => exact yields_refuse stop _
  | cons l rest =>
    dsimp only
    split
    · exact (yields_block (l :: rest)).map fun _ h => Statement.valued_block h
    · exact yields_ifElse (l :: rest)
    · exact yields_forLoop (l :: rest)
    · exact yields_whileLoop (l :: rest)
    · exact yields_doWhile (l :: rest)
    · exact (yields_true _).map fun l _ d hd => by cases hd
    · exact (yields_true _).map fun l _ d hd => by cases hd
    · exact yields_returnValue stop (l :: rest)
    · exact yields_leaving (fun d hd => by cases hd) rest
    · exact (yields_simpleStatement stop _).andThen fun s _ _ hs =>
        (yields_true _).map fun _ _ => hs
termination_by 4 * ts.length + 1
decreasing_by all_goals simp only [List.length_cons]; omega

theorem yields_block (ts : List Lexeme) :
    (block stop ts).Yields fun b => ∀ s ∈ b.1, s.Valued := by
  unfold block
  exact (yields_true _).andThen fun _ rest _ _ => (yields_statements rest).map fun _ h => h
termination_by 4 * ts.length
decreasing_by all_goals omega

theorem yields_statements (ts : List Lexeme) :
    (statements stop ts).Yields fun body => ∀ s ∈ body, s.Valued := by
  unfold statements
  cases ts with
  | nil => exact yields_refuse stop _
  | cons l rest =>
    dsimp only
    split
    · exact yields_leaving (by simp) rest
    · exact (yields_statement (l :: rest)).andThen fun s rest' _ hs =>
        (yields_statements rest').map fun _ h => List.forall_mem_cons.2 ⟨hs, h⟩
termination_by 4 * ts.length + 2
decreasing_by all_goals simp only [List.length_cons] at *; omega

theorem yields_branch (ts : List Lexeme) : (branch stop ts).Yields fun b => b.2.Valued := by
  unfold branch
  exact (yields_true _).andThen fun _ rest _ _ => (yields_statement rest).map fun _ h => h
termination_by 4 * ts.length + 2
decreasing_by all_goals omega

theorem yields_ifElse (ts : List Lexeme) : (ifElse stop ts).Yields Statement.Valued := by
  unfold ifElse
  refine (yields_true _).andThen fun _ rest _ _ => ?_
  refine (yields_branch rest).followedBy fun b rest' _ hb => ?_
  refine (yields_elseChain rest').map fun _ h => ?_
  exact Statement.valued_ifElse (List.forall_mem_cons.2 ⟨hb, h.1⟩) h.2
termination_by 4 * ts.length
decreasing_by all_goals omega

theorem yields_elseChain (ts : List Lexeme) :
    (elseChain stop ts).Yields fun chain =>
      (∀ b ∈ chain.1, b.2.Valued) ∧ ∀ s ∈ chain.2, s.Valued := by
  unfold elseChain
  cases ts with
  | nil => exact yields_atEnd stop (yields_leaving (by simp) [])
  | cons l rest =>
    dsimp only
    split
    · refine (yields_ifNext stop _ rest (fun rest' _ => ?_) ?_).relax.relax
      · refine Yields.relax ((yields_branch rest').followedBy fun b rest'' _ hb => ?_)
        refine (yields_elseChain rest'').map fun _ h => ?_
        exact ⟨List.forall_mem_cons.2 ⟨hb, h.1⟩, h.2⟩
      · exact (yields_statement rest).map fun s hs => ⟨by simp, by simpa using hs⟩
    · exact yields_leaving (by simp) _
termination_by 4 * ts.length + 3
decreasing_by all_goals simp only [List.length_cons]; omega

theorem yields_forLoop (ts : List Lexeme) : (forLoop stop ts).Yields Statement.Valued := by
  unfold forLoop
  refine (yields_true _).andThen fun _ _ _ _ => ?_
  refine (yields_true _).andThen fun _ rest _ _ => ?_
  refine (yields_optionalSimple stop _ rest).andThen fun _ _ _ hfirst => ?_
  refine (yields_true _).andThen fun _ _ _ _ => ?_
  refine (yields_true _).andThen fun _ rest _ _ => ?_
  refine (yields_optionalSimple stop _ rest).andThen fun _ rest _ hstep => ?_
  refine (yields_statement rest).map fun _ hbody => ?_
  exact Statement.valued_forLoop hfirst hstep hbody
termination_by 4 * ts.length
decreasing_by all_goals omega

theorem yields_whileLoop (ts : List Lexeme) : (whileLoop stop ts).Yields Statement.Valued := by
  unfold whileLoop
  refine (yields_true _).andThen fun _ rest _ _ => ?_
  exact (yields_branch rest).map fun _ h => Statement.valued_whileLoop h
termination_by 4 * ts.length
decreasing_by all_goals omega

theorem yields_doWhile (ts : List Lexeme) : (doWhile stop ts).Yields Statement.Valued := by
  unfold doWhile
  refine (yields_true _).andThen fun _ rest _ _ => ?_
  refine (yields_statement rest).andThen fun _ _ _ hbody => ?_
  refine (yields_true _).andThen fun _ _ _ _ => ?_
  refine (yields_true _).andThen fun _ _ _ _ => ?_
  exact (yields_true _).map fun _ _ => Statement.valued_doWhile hbody
termination_by 4 * ts.length
decreasing_by all_goals omega

end

/-! ## Programs -/

theorem yields_function (ts : List Lexeme) :
    (function stop ts).Yields fun f => ∀ s, f.Contains s → s.Valued := by
  refine (yields_true _).andThen fun _ _ _ _ => ?_
  refine (yields_true _).andThen fun _ _ _ _ => ?_
  refine (yields_true _).andThen fun _ _ _ _ => ?_
  refine (yields_true _).andThen fun _ rest _ _ => ?_
  refine (yields_block stop rest).map fun b hb s hs d hd => ?_
  obtain ⟨body, l, hbody, t, ht, hst⟩ := hs
  cases hbody
  exact hb t ht d (hd.trans hst)

theorem yields_item (ts : List Lexeme) : (item stop ts).Yields Item.Valued := by
  unfold item
  split
  · exact trivial
  · split
    · exact (yields_function stop ts).map fun _ h => h
    · refine Yields.map ?_ fun d (hd : d.Valued) => hd
      exact (yields_declaration stop ts).andThen fun _ _ _ hd => (yields_true _).map fun _ _ => hd

theorem yields_items (ts : List Lexeme) :
    (items stop ts).Yields fun is => ∀ i ∈ is, i.Valued := by
  unfold items
  cases ts with
  | nil => exact yields_atEnd stop (yields_leaving (by simp) [])
  | cons l rest =>
    refine Yields.relax ((yields_item stop (l :: rest)).followedBy fun i rest' _ hi => ?_)
    exact (yields_items rest').map fun _ h => List.forall_mem_cons.2 ⟨hi, h⟩
termination_by ts.length
decreasing_by assumption

end Parse

theorem Program.items_valued {source : String} {p : Program} (h : Program.ofSource source = .ok p) :
    ∀ i ∈ p.items, i.Valued := by
  have hitems := Parse.yields_items (Stream.ofSource source).stop (Stream.ofSource source).readable
  unfold Program.ofSource Program.parse Stream.parse at h
  dsimp only at h
  generalize Parse.items _ _ = parsed at h hitems
  cases parsed with
  | error e rest => cases h
  | ok is rest shorter =>
    cases h
    exact hitems

/-- A program that was parsed declares variables of scalar types only, at any depth. -/
theorem Program.declares_valueType {source : String} {p : Program} {d : Declaration}
    (h : Program.ofSource source = .ok p) (hd : p.Declares d) : d.Valued := by
  have hitems := Program.items_valued h
  rcases hd with hd | ⟨f, hf, hs⟩
  · exact hitems _ hd
  · exact hitems _ hf _ hs d (.refl _)

end MiniC
