import Mathlib.Data.List.Forall2
import MiniC.Proofs.Lexeme.Spelled

/-!
# What is written can be derived

The grammar derives a tree without its places from the lexemes that it is written as, and these are
spelled.  It holds of every tree that is derived from spelled lexemes.  An expression is derived at
whatever tier it is written at: parentheses stand where the tier does not admit the operator, and
without them an operation of one level is an operation of every looser one.  Main statement:
`written_items`.
-/

namespace MiniC

open Grammar

/-- Spelled lexemes that the grammar derives a value from. -/
def IsWritten {α : Type} (Is : List Lexeme → α → Prop) (ls : List Lexeme) (x : α) : Prop :=
  Is ls x ∧ AllSpelled ls

/-! ## Groups -/

theorem separatedBy_cons {between : Lexeme} {ls : List Lexeme} {groups : List (List Lexeme)} :
    separatedBy between (ls :: groups) = ls ++ groups.flatMap (between :: ·) := by
  unfold separatedBy
  induction groups generalizing ls with
  | nil => rw [List.intercalate_singleton, List.flatMap_nil, List.append_nil]
  | cons ls' groups ih =>
    rw [List.intercalate_cons_cons, ih, List.append_assoc, List.flatMap_cons]
    rfl

theorem written_itemsFrom {α : Type} {Is : List Lexeme → α → Prop} {ls : List Lexeme} {x : α}
    {groups : List (List Lexeme)} {xs : List α} (hx : IsWritten Is ls x)
    (hxs : List.Forall₂ (IsWritten Is) groups xs) :
    IsWritten (IsItemsFrom Is) (separated (ls :: groups)) (x :: xs) := by
  induction hxs generalizing ls x with
  | nil =>
    rw [separated, separatedBy_cons, List.flatMap_nil, List.append_nil]
    exact ⟨.one hx.1, hx.2⟩
  | @cons ls' x' groups xs hx' hxs ih =>
    obtain ⟨hmore, hspelled⟩ := ih hx'
    rw [separated, separatedBy_cons] at hmore hspelled ⊢
    rw [List.flatMap_cons, List.cons_append]
    exact ⟨.more hx.1 rfl hmore, by simp [hx.2, hspelled]⟩

theorem written_separated {α : Type} {Is : List Lexeme → α → Prop} {groups : List (List Lexeme)}
    {xs : List α} (h : List.Forall₂ (IsWritten Is) groups xs) :
    IsWritten (IsSeparated Is) (separated groups) xs := by
  cases h with
  | nil => exact ⟨.none, allSpelled_nil⟩
  | cons hx hxs =>
    obtain ⟨hfrom, hspelled⟩ := written_itemsFrom hx hxs
    exact ⟨.some hfrom, hspelled⟩

/-! ## Types and operators -/

theorem BinaryOp.kind_of_ofKind? {k : TokenKind} {op : BinaryOp} (h : ofKind? k = some op) :
    k = .symbol op.symbol := by
  cases k with
  | symbol s =>
    have hfound := List.find?_some h
    exact congrArg _ (of_decide_eq_true hfound).symm
  | floatLiteral | intLiteral | stringLiteral | identifier | keyword | endOfInput => cases h

theorem UnaryOp.kind_of_ofKind? {k : TokenKind} {op : UnaryOp} (h : ofKind? k = some op) :
    k = .symbol op.symbol := by
  unfold ofKind? at h
  split at h
  all_goals cases h
  all_goals rfl

/-- A type that can be read is written as one reserved word. -/
theorem TypeName.write_of_ofKind? {k : TokenKind} {t : TypeName} (h : ofKind? k = some t) :
    ∃ w, k = .keyword w ∧ t.write = [.ofKeyword w] := by
  unfold ofKind? at h
  split at h
  all_goals cases h
  all_goals exact ⟨_, rfl, rfl⟩

/-- An assignment operator that can be read is written as one symbol. -/
theorem AssignOp.write_of_ofKind? {k : TokenKind} {op : AssignOp} (h : ofKind? k = some op) :
    ∃ s, k = .symbol s ∧ op.write = [.ofSymbol s] := by
  unfold ofKind? at h
  split at h
  all_goals cases h
  all_goals exact ⟨_, rfl, rfl⟩

/-! ## Expressions at looser tiers -/

namespace Grammar

variable {ls ls' : List Lexeme} {e x y : Expr} {l : Lexeme} {op : BinaryOp} {level level' : Level}

theorem IsExpr.of_operand (h : IsExpr (.operand level) ls e) : IsExpr (.binary level) ls e := by
  have hlevel : IsExpr (.binary level) (ls ++ []) e := .level h .none
  rwa [List.append_nil] at hlevel

theorem IsExpr.of_level (h : IsExpr (.binary level) ls e)
    (hle : level.looseness ≤ level'.looseness) : IsExpr (.binary level') ls e := by
  have hadditive (h : IsExpr (.operand .additive) ls e) : IsExpr (.binary .additive) ls e :=
    h.of_operand
  have hrelational (h : IsExpr (.operand .relational) ls e) : IsExpr (.binary .relational) ls e :=
    h.of_operand
  have hbitwise (h : IsExpr (.operand .bitwise) ls e) : IsExpr (.binary .bitwise) ls e :=
    h.of_operand
  have hlogical (h : IsExpr (.operand .logical) ls e) : IsExpr (.binary .logical) ls e :=
    h.of_operand
  simp only [Tier.operand] at hadditive hrelational hbitwise hlogical
  cases level <;> cases level' <;>
    first
      | exact absurd hle (by decide)
      | simp_all

theorem IsExpr.of_unary (h : IsExpr .unary ls e) : IsExpr (.binary level) ls e := by
  have hoperand : IsExpr (.operand .multiplicative) ls e := h
  have hmultiplicative : IsExpr (.binary .multiplicative) ls e := hoperand.of_operand
  exact hmultiplicative.of_level (Nat.zero_le _)

theorem IsExpr.of_primary (h : IsExpr .primary ls e) (tier : Tier) : IsExpr tier ls e := by
  cases tier with
  | binary level => exact of_unary (.primary h)
  | unary => exact .primary h
  | primary => exact h

/-- One more operator at the end. -/
theorem operators_snoc {level : Level} {left right e : Expr} {ls ls' : List Lexeme} :
    IsOperators level left ls e → BinaryOp.ofKind? l.kind = some op → op.level = level →
      IsExpr (.operand level) ls' right →
        IsOperators level left (ls ++ l :: ls') (.binary op e right l)
  | .none, hop, hlevel, hright => by
    have hone : IsOperators level left (l :: (ls' ++ [])) (.binary op left right l) :=
      .some hop hlevel hright .none
    rwa [List.append_nil] at hone
  | .some hop' hlevel' hright' he, hop, hlevel, hright => by
    rw [List.cons_append, List.append_assoc]
    exact .some hop' hlevel' hright' (operators_snoc he hop hlevel hright)

theorem IsExpr.binary (hx : IsExpr (.binary op.level) ls x)
    (hop : BinaryOp.ofKind? l.kind = some op) (hy : IsExpr (.operand op.level) ls' y) :
    IsExpr (.binary op.level) (ls ++ l :: ls') (.binary op x y l) := by
  cases hx with
  | level hleft he =>
    rw [List.append_assoc]
    exact .level hleft (operators_snoc he hop rfl hy)

end Grammar

/-! ## Expressions -/

/-- Whatever the tier, the grammar derives the expression from what it is written as. -/
def Expr.Writable (e : Expr) : Prop :=
  ∀ tier, tier ≠ .primary → IsWritten (IsExpr tier) (e.write tier) e.unplaced

section expressions

variable {l : Lexeme} {x y : Expr} {xs : List Expr} {is : List (Option Expr)} {name : String}

theorem Expr.Writable.expression (h : x.Writable) :
    IsWritten (IsExpr .expression) (x.write .expression) x.unplaced :=
  h .expression (by rintro ⟨⟩)

theorem Expr.Writable.unary (h : x.Writable) :
    IsWritten (IsExpr .unary) (x.write .unary) x.unplaced :=
  h .unary (by rintro ⟨⟩)

/-- What is written alike at all tiers. -/
theorem writable_of_primary {ls : List Lexeme} (hwrite : ∀ tier, x.write tier = ls)
    (h : IsWritten (IsExpr .primary) ls x.unplaced) : x.Writable := by
  intro tier _
  rw [hwrite]
  exact ⟨h.1.of_primary tier, h.2⟩

theorem writable_literal {v : Literal} (hv : Parse.literal? l.token = some v)
    (hl : l.IsSpelled) : (Expr.literal v l).Writable := by
  have hunplaced : IsExpr .primary [l.unplaced] (.literal v l.unplaced) := .literal hv
  exact writable_of_primary (fun _ => rfl) ⟨hunplaced, by simp [hl.unplaced]⟩

theorem writable_unary {op : UnaryOp} (hop : UnaryOp.ofKind? l.kind = some op)
    (hl : l.IsSpelled) (hx : x.Writable) : (Expr.unary op x l).Writable := by
  obtain ⟨gx, hspelled⟩ := hx.unary
  have hsymbol := hl.unplaced_symbol (UnaryOp.kind_of_ofKind? hop)
  have hunary : IsExpr .unary (.ofSymbol op.symbol :: x.write .unary)
      (.unary op x.unplaced l.unplaced) := by
    rw [← hsymbol]
    exact .operator hop gx
  intro tier htier
  refine ⟨?_, by simp [Expr.write, hspelled]⟩
  cases tier with
  | binary level => exact hunary.of_unary
  | unary => exact hunary
  | primary => exact absurd rfl htier

theorem writable_binary {op : BinaryOp} (hop : BinaryOp.ofKind? l.kind = some op)
    (hl : l.IsSpelled) (hx : x.Writable) (hy : y.Writable) :
    (Expr.binary op x y l).Writable := by
  obtain ⟨gx, hsx⟩ := hx (.binary op.level) (by rintro ⟨⟩)
  obtain ⟨gy, hsy⟩ := hy (.operand op.level) (by cases op.level <;> rintro ⟨⟩)
  have hsymbol := hl.unplaced_symbol (BinaryOp.kind_of_ofKind? hop)
  have hoperation : IsExpr (.binary op.level)
      (x.write (.binary op.level) ++ l.unplaced :: y.write (.operand op.level))
      (.binary op x.unplaced y.unplaced l.unplaced) := gx.binary hop gy
  rw [hsymbol] at hoperation
  intro tier htier
  refine ⟨?_, ?_⟩
  · rw [Expr.write, Expr.unplaced, hsymbol]
    split
    · next hadmits =>
      cases tier with
      | binary level => exact hoperation.of_level (of_decide_eq_true hadmits)
      | unary | primary => cases hadmits
    · have hloosest : op.level.looseness ≤ Level.logical.looseness := by
        cases op.level <;> decide
      have hexpression := hoperation.of_level hloosest
      exact (IsExpr.parenthesized rfl hexpression rfl).of_primary tier
  · rw [Expr.write]
    split <;> simp [hsx, hsy]

theorem writable_cast {t : Lexeme} {type : TypeName} (hl : l.kind = .symbol .leftParen)
    (hls : l.IsSpelled) (ht : TypeName.ofKind? t.kind = some type) (hvoid : type ≠ .void)
    (hx : x.Writable) : (Expr.cast type x l).Writable := by
  obtain ⟨gx, hspelled⟩ := hx.unary
  obtain ⟨w, hw, hwrite⟩ := TypeName.write_of_ofKind? ht
  have htype : TypeName.ofKind? (Lexeme.ofKeyword w).kind = some type := by
    rw [← ht, hw]
    rfl
  refine writable_of_primary (fun _ => rfl) ⟨?_, by simp [hwrite, hspelled]⟩
  rw [hwrite, Expr.unplaced, hls.unplaced_symbol hl]
  exact .cast rfl htype hvoid rfl gx

theorem written_all (hxs : ∀ x ∈ xs, x.Writable) :
    List.Forall₂ (IsWritten (IsExpr .expression)) (Expr.writeAll xs) (Expr.unplacedAll xs) := by
  induction xs with
  | nil => exact .nil
  | cons x xs ih =>
    exact .cons (hxs x List.mem_cons_self).expression
      (ih fun y hy => hxs y (List.mem_cons_of_mem _ hy))

theorem writable_list (hl : l.kind = .symbol .leftBrace) (hls : l.IsSpelled)
    (hxs : ∀ x ∈ xs, x.Writable) : (Expr.list xs l).Writable := by
  obtain ⟨gxs, hspelled⟩ := written_separated (written_all hxs)
  refine writable_of_primary (fun _ => rfl) ⟨?_, by simp [hspelled]⟩
  rw [Expr.unplaced, hls.unplaced_symbol hl]
  exact .list rfl gxs rfl

theorem writable_call (hl : l.token = .identifier name) (hls : l.IsSpelled)
    (hxs : ∀ x ∈ xs, x.Writable) : (Expr.call name xs l).Writable := by
  obtain ⟨gxs, hspelled⟩ := written_separated (written_all hxs)
  have hname := hls.unplaced_name hl
  refine writable_of_primary (fun _ => rfl) ⟨?_, by simp [← hname, hls.unplaced, hspelled]⟩
  rw [Expr.unplaced, hname]
  exact .call rfl rfl gxs rfl

theorem written_indices (his : ∀ i, some i ∈ is → i.Writable) :
    IsWritten IsIndices (Expr.writeIndices is) (Expr.unplacedIndices is) := by
  induction is with
  | nil => exact ⟨.none, allSpelled_nil⟩
  | cons i is ih =>
    obtain ⟨gis, hspelled⟩ := ih fun j hj => his j (List.mem_cons_of_mem _ hj)
    cases i with
    | none => exact ⟨.empty rfl rfl gis, by simp [Expr.writeIndices, hspelled]⟩
    | some i =>
      obtain ⟨gi, hi⟩ := (his i List.mem_cons_self).expression
      refine ⟨?_, by simp [Expr.writeIndices, hi, hspelled]⟩
      rw [Expr.writeIndices, Expr.unplacedIndices, enclosed, List.cons_append, List.append_assoc]
      exact .index rfl gi rfl gis

theorem writable_variable (hl : l.token = .identifier name) (hls : l.IsSpelled)
    (his : ∀ i, some i ∈ is → i.Writable) : (Expr.variable name is l).Writable := by
  obtain ⟨gis, hspelled⟩ := written_indices his
  have hname := hls.unplaced_name hl
  refine writable_of_primary (fun _ => rfl) ⟨?_, by simp [← hname, hls.unplaced, hspelled]⟩
  rw [Expr.unplaced, hname]
  exact .variable rfl gis

end expressions

mutual

theorem writable_expr {tier : Tier} {ls : List Lexeme} {e : Expr} :
    IsExpr tier ls e → AllSpelled ls → e.Writable
  | .level hleft he, h => by
    obtain ⟨hls, hls'⟩ := allSpelled_append.1 h
    exact writable_operators he (writable_expr hleft hls) hls'
  | .operator hop hx, h => by
    obtain ⟨hl, hls⟩ := allSpelled_cons.1 h
    exact writable_unary hop hl (writable_expr hx hls)
  | .primary he, h => writable_expr he h
  | .literal hv, h => writable_literal hv (allSpelled_cons.1 h).1
  | .parenthesized _ he _, h => by
    obtain ⟨-, hls⟩ := allSpelled_cons.1 h
    exact writable_expr he (allSpelled_append.1 hls).1
  | .cast hl ht hvoid _ hx, h => by
    obtain ⟨hspelled, -, -, hls⟩ : _ ∧ _ ∧ _ ∧ _ := by simpa using h
    exact writable_cast hl hspelled ht hvoid (writable_expr hx hls)
  | .list hl hxs _, h => by
    obtain ⟨hspelled, hls⟩ := allSpelled_cons.1 h
    exact writable_list hl hspelled (writable_items hxs (allSpelled_append.1 hls).1)
  | .call hl _ hxs _, h => by
    obtain ⟨hspelled, hls⟩ := allSpelled_cons.1 h
    obtain ⟨-, hls⟩ := allSpelled_cons.1 hls
    exact writable_call hl hspelled (writable_items hxs (allSpelled_append.1 hls).1)
  | .variable hl his, h => by
    obtain ⟨hspelled, hls⟩ := allSpelled_cons.1 h
    exact writable_variable hl hspelled (writable_indices his hls)

theorem writable_operators {level : Level} {left e : Expr} {ls : List Lexeme} :
    IsOperators level left ls e → left.Writable → AllSpelled ls → e.Writable
  | .none, hleft, _ => hleft
  | .some hop _ hright he, hleft, h => by
    obtain ⟨hl, hls⟩ := allSpelled_cons.1 h
    obtain ⟨hls, hls'⟩ := allSpelled_append.1 hls
    exact writable_operators he (writable_binary hop hl hleft (writable_expr hright hls)) hls'

theorem writable_indices {ls : List Lexeme} {is : List (Option Expr)} :
    IsIndices ls is → AllSpelled ls → ∀ i, some i ∈ is → i.Writable
  | .none, _ => fun _ h => by cases h
  | .empty _ _ his, h => by
    obtain ⟨-, hls⟩ := allSpelled_cons.1 h
    intro i hi
    rcases List.mem_cons.1 hi with hi | hi
    · cases hi
    · exact writable_indices his (allSpelled_cons.1 hls).2 i hi
  | .index _ hi _ his, h => by
    obtain ⟨-, hls⟩ := allSpelled_cons.1 h
    obtain ⟨hls, hls'⟩ := allSpelled_append.1 hls
    intro i hmem
    rcases List.mem_cons.1 hmem with hmem | hmem
    · rw [Option.some.inj hmem]
      exact writable_expr hi hls
    · exact writable_indices his (allSpelled_cons.1 hls').2 i hmem

theorem writable_items {ls : List Lexeme} {xs : List Expr} :
    IsSeparated (IsExpr .expression) ls xs → AllSpelled ls → ∀ x ∈ xs, x.Writable
  | .none, _ => fun _ h => by cases h
  | .some hxs, h => writable_itemsFrom hxs h

theorem writable_itemsFrom {ls : List Lexeme} {xs : List Expr} :
    IsItemsFrom (IsExpr .expression) ls xs → AllSpelled ls → ∀ x ∈ xs, x.Writable
  | .one hx, h => by
    intro y hy
    rw [List.mem_singleton.1 hy]
    exact writable_expr hx h
  | .more hx _ hxs, h => by
    obtain ⟨hls, hls'⟩ := allSpelled_append.1 h
    intro y hy
    rcases List.mem_cons.1 hy with hy | hy
    · rw [hy]
      exact writable_expr hx hls
    · exact writable_itemsFrom hxs (allSpelled_cons.1 hls').2 y hy

end

/-! ## Simple statements -/

section statements

variable {ls ls' : List Lexeme} {l : Lexeme} {x c : Expr}

theorem written_expression (hx : IsExpr .expression ls x) (h : AllSpelled ls) :
    IsWritten (IsExpr .expression) (x.write .expression) x.unplaced :=
  (writable_expr hx h).expression

theorem written_place {p : Place} (hp : IsPlace ls p) (h : AllSpelled ls) :
    IsWritten IsPlace p.write p.unplaced := by
  cases hp with
  | mk hl his =>
    obtain ⟨hspelled, hls⟩ := allSpelled_cons.1 h
    obtain ⟨gis, hindices⟩ := written_indices (writable_indices his hls)
    have hname := hspelled.unplaced_name hl
    refine ⟨?_, by simp [Place.write, ← hname, hspelled.unplaced, hindices]⟩
    rw [Place.unplaced, hname]
    exact .mk rfl gis

theorem written_call {c : Call} (hc : IsCall ls c) (h : AllSpelled ls) :
    IsWritten IsCall c.write c.unplaced := by
  cases hc with
  | mk hl _ hxs =>
    obtain ⟨hspelled, hls⟩ := allSpelled_cons.1 h
    obtain ⟨-, hls⟩ := allSpelled_cons.1 hls
    obtain ⟨gxs, harguments⟩ :=
      written_separated (written_all (writable_items hxs (allSpelled_append.1 hls).1))
    have hname := hspelled.unplaced_name hl
    refine ⟨?_, by simp [Call.write, ← hname, hspelled.unplaced, harguments]⟩
    rw [Call.unplaced, hname]
    exact .mk rfl rfl gxs rfl

/-- A type that has been read is written as one lexeme that reads back. -/
theorem written_type {t : Lexeme} {type : TypeName} (ht : TypeName.ofKind? t.kind = some type) :
    ∃ l, type.write = [l] ∧ TypeName.ofKind? l.kind = some type ∧ l.IsSpelled := by
  obtain ⟨w, hw, hwrite⟩ := TypeName.write_of_ofKind? ht
  rw [hw] at ht
  exact ⟨.ofKeyword w, hwrite, ht, by simp⟩

theorem written_declaration {d : Declaration} (hd : IsDeclaration ls d) (h : AllSpelled ls) :
    IsWritten IsDeclaration d.write d.unplaced := by
  cases hd with
  | plain ht hvoid hp =>
    obtain ⟨l, hwrite, hl, hspelled⟩ := written_type ht
    obtain ⟨gp, hplace⟩ := written_place hp (allSpelled_cons.1 h).2
    rw [Declaration.write, hwrite]
    simp only [writeOptional, List.append_nil]
    exact ⟨.plain hl hvoid gp, by simp [hspelled, hplace]⟩
  | initialized ht hvoid hp _ hx =>
    obtain ⟨l, hwrite, hl, hspelled⟩ := written_type ht
    obtain ⟨hls, hls'⟩ := allSpelled_append.1 (allSpelled_cons.1 h).2
    obtain ⟨gp, hplace⟩ := written_place hp hls
    obtain ⟨gx, hvalue⟩ := written_expression hx (allSpelled_cons.1 hls').2
    have gd := IsDeclaration.initialized (l := .ofSymbol .assign) hl hvoid gp rfl gx
    rw [Declaration.write, hwrite]
    exact ⟨gd, by simp [writeOptional, hspelled, hplace, hvalue]⟩

theorem written_simple {s : SimpleStatement} (hs : IsSimple ls s) (h : AllSpelled ls) :
    IsWritten IsSimple s.write s.unplaced := by
  cases hs with
  | declaration hd =>
    obtain ⟨gd, hspelled⟩ := written_declaration hd h
    exact ⟨.declaration gd, hspelled⟩
  | assignment htarget hop hx =>
    obtain ⟨hls, hls'⟩ := allSpelled_append.1 h
    obtain ⟨hl, hls'⟩ := allSpelled_cons.1 hls'
    obtain ⟨gtarget, hplace⟩ := written_place htarget hls
    obtain ⟨gx, hvalue⟩ := written_expression hx hls'
    obtain ⟨symbol, hkind, hwrite⟩ := AssignOp.write_of_ofKind? hop
    rw [SimpleStatement.write, SimpleStatement.unplaced, hwrite, hl.unplaced_symbol hkind]
    rw [hkind] at hop
    exact ⟨.assignment gtarget hop gx, by simp [hplace, hvalue]⟩
  | call hc =>
    obtain ⟨gc, hspelled⟩ := written_call hc h
    exact ⟨.call gc, hspelled⟩

theorem written_optional {α : Type} {Is : List Lexeme → α → Prop} {write : α → List Lexeme}
    {unplaced : α → α} {o : Option α} (ho : IsOptional Is ls o) (h : AllSpelled ls)
    (hwritten : ∀ x, Is ls x → IsWritten Is (write x) (unplaced x)) :
    IsWritten (IsOptional Is) (writeOptional write o) (o.map unplaced) := by
  cases ho with
  | none => exact ⟨.none, h⟩
  | some hx =>
    obtain ⟨gx, hspelled⟩ := hwritten _ hx
    exact ⟨.some gx, hspelled⟩

theorem written_condition (hc : IsCondition ls c) (h : AllSpelled ls) :
    IsWritten IsCondition c.writeCondition c.unplaced := by
  cases hc with
  | mk _ hc =>
    obtain ⟨-, hls⟩ := allSpelled_cons.1 h
    obtain ⟨gc, hspelled⟩ := written_expression hc (allSpelled_append.1 hls).1
    exact ⟨.mk rfl gc rfl, by simp [Expr.writeCondition, hspelled]⟩

end statements

/-! ## Statements -/

theorem Statement.isIf_unplaced (s : Statement) : s.unplaced.isIf = s.isIf := by
  cases s <;> rfl

theorem Statement.isOpen_unplaced : (s : Statement) → s.unplaced.isOpen = s.isOpen
  | .ifElse _ none _ => rfl
  | .ifElse _ (some s) _ => Statement.isOpen_unplaced s
  | .forLoop _ _ _ body _ | .whileLoop _ body _ => Statement.isOpen_unplaced body
  | .empty | .simple _ | .block _ _ | .doWhile _ _ _ | .breakLoop _ | .continueLoop _
  | .returnValue _ _ => rfl

/-- What is written after the first branch of an `if`. -/
def writeElse (more : List (Expr × Statement)) (otherwise : Option Statement) : List Lexeme :=
  (Statement.writeBranches more ++ Statement.writeOtherwise otherwise).flatMap
    (.ofKeyword .else :: ·)

theorem write_ifElse (c : Expr) (s : Statement) (more : List (Expr × Statement))
    (otherwise : Option Statement) (l : Lexeme) :
    (Statement.ifElse ((c, s) :: more) otherwise l).write =
      .ofKeyword .if :: (c.writeCondition ++ (s.write ++ writeElse more otherwise)) := by
  rw [Statement.write, Statement.writeBranches, List.cons_append, separatedBy_cons,
    List.cons_append, List.append_assoc]
  rfl

theorem writeElse_cons (c : Expr) (s : Statement) (more : List (Expr × Statement))
    (otherwise : Option Statement) :
    writeElse ((c, s) :: more) otherwise =
      .ofKeyword .else :: .ofKeyword .if ::
        (c.writeCondition ++ (s.write ++ writeElse more otherwise)) := by
  unfold writeElse
  rw [Statement.writeBranches, List.cons_append, List.flatMap_cons, List.cons_append,
    List.cons_append, List.append_assoc]

theorem writeElse_otherwise (s : Statement) :
    writeElse [] (some s) = .ofKeyword .else :: s.write := by
  unfold writeElse
  rw [Statement.writeBranches, Statement.writeOtherwise, List.nil_append, List.flatMap_singleton]

/-- An `else` that is not written belongs to no statement. -/
theorem writeElse_nearest {ls : List Lexeme} {more : List (Expr × Statement)}
    {otherwise : Option Statement} {s : Statement} (h : IsElseChain ls more otherwise)
    (hnearest : ls = [] ∨ s.isOpen = false) :
    writeElse more otherwise = [] ∨ s.unplaced.isOpen = false := by
  rw [Statement.isOpen_unplaced]
  refine hnearest.imp_left fun hls => ?_
  cases h with
  | none => rfl
  | elseIf | last => cases hls

mutual

theorem written_statement {ls : List Lexeme} {s : Statement} :
    IsStatement ls s → AllSpelled ls → IsWritten IsStatement s.write s.unplaced
  | .empty _, _ => ⟨.empty rfl, by simp [Statement.write]⟩
  | .simple hs _, h => by
    obtain ⟨gs, hspelled⟩ := written_simple hs (allSpelled_append.1 h).1
    exact ⟨.simple gs rfl, by simp [Statement.write, hspelled]⟩
  | .block hl hbody _, h => by
    obtain ⟨hlexeme, hls⟩ := allSpelled_cons.1 h
    obtain ⟨gbody, hspelled⟩ := written_statements hbody (allSpelled_append.1 hls).1
    rw [Statement.write, Statement.unplaced, hlexeme.unplaced_symbol hl]
    exact ⟨.block rfl gbody rfl, by simp [hspelled]⟩
  | .ifElse hl hc hs hmore hnearest, h => by
    obtain ⟨hlexeme, hls⟩ := allSpelled_cons.1 h
    obtain ⟨hcs, hls⟩ := allSpelled_append.1 hls
    obtain ⟨hls, hls'⟩ := allSpelled_append.1 hls
    obtain ⟨gc, hcondition⟩ := written_condition hc hcs
    obtain ⟨gs, hbody⟩ := written_statement hs hls
    obtain ⟨gmore, hchain⟩ := written_elseChain hmore hls'
    rw [write_ifElse, Statement.unplaced, hlexeme.unplaced_keyword hl]
    exact ⟨.ifElse rfl gc gs gmore (writeElse_nearest hmore hnearest),
      by simp [hcondition, hbody, hchain]⟩
  | .forLoop hl _ hfirst _ hc _ hstep _ hbody, h => by
    obtain ⟨hlexeme, hls⟩ := allSpelled_cons.1 h
    obtain ⟨hfs, hls⟩ := allSpelled_append.1 (allSpelled_cons.1 hls).2
    obtain ⟨hcs, hls⟩ := allSpelled_append.1 (allSpelled_cons.1 hls).2
    obtain ⟨hss, hls⟩ := allSpelled_append.1 (allSpelled_cons.1 hls).2
    obtain ⟨gfirst, hwfirst⟩ := written_optional hfirst hfs fun _ hs => written_simple hs hfs
    obtain ⟨gc, hwc⟩ := written_expression hc hcs
    obtain ⟨gstep, hwstep⟩ := written_optional hstep hss fun _ hs => written_simple hs hss
    obtain ⟨gbody, hwbody⟩ := written_statement hbody (allSpelled_cons.1 hls).2
    rw [Statement.write, Statement.unplaced, hlexeme.unplaced_keyword hl]
    refine ⟨?_, by simp [hwfirst, hwc, hwstep, hwbody]⟩
    rw [inParens, enclosed, List.cons_append, List.append_assoc, List.append_assoc,
      List.cons_append, List.append_assoc, List.cons_append]
    exact .forLoop rfl rfl gfirst rfl gc rfl gstep rfl gbody
  | .whileLoop hl hc hbody, h => by
    obtain ⟨hlexeme, hls⟩ := allSpelled_cons.1 h
    obtain ⟨hcs, hls⟩ := allSpelled_append.1 hls
    obtain ⟨gc, hcondition⟩ := written_condition hc hcs
    obtain ⟨gbody, hspelled⟩ := written_statement hbody hls
    rw [Statement.write, Statement.unplaced, hlexeme.unplaced_keyword hl]
    exact ⟨.whileLoop rfl gc gbody, by simp [hcondition, hspelled]⟩
  | .doWhile hl hbody _ hc _, h => by
    obtain ⟨hlexeme, hls⟩ := allSpelled_cons.1 h
    obtain ⟨hls, hcs⟩ := allSpelled_append.1 hls
    obtain ⟨hcs, -⟩ := allSpelled_append.1 (allSpelled_cons.1 hcs).2
    obtain ⟨gc, hcondition⟩ := written_condition hc hcs
    obtain ⟨gbody, hspelled⟩ := written_statement hbody hls
    rw [Statement.write, Statement.unplaced, hlexeme.unplaced_keyword hl]
    exact ⟨.doWhile rfl gbody rfl gc rfl, by simp [hcondition, hspelled]⟩
  | .breakLoop hl _, h => by
    obtain ⟨hlexeme, -⟩ := allSpelled_cons.1 h
    rw [Statement.write, Statement.unplaced, hlexeme.unplaced_keyword hl]
    exact ⟨.breakLoop rfl rfl, by simp⟩
  | .continueLoop hl _, h => by
    obtain ⟨hlexeme, -⟩ := allSpelled_cons.1 h
    rw [Statement.write, Statement.unplaced, hlexeme.unplaced_keyword hl]
    exact ⟨.continueLoop rfl rfl, by simp⟩
  | .returnValue hl hx _, h => by
    obtain ⟨hlexeme, hls⟩ := allSpelled_cons.1 h
    obtain ⟨hls, -⟩ := allSpelled_append.1 hls
    obtain ⟨gx, hspelled⟩ := written_optional hx hls fun _ hx => written_expression hx hls
    rw [Statement.write, Statement.unplaced, hlexeme.unplaced_keyword hl]
    exact ⟨.returnValue rfl gx rfl, by simp [hspelled]⟩

theorem written_statements {ls : List Lexeme} {body : List Statement} :
    IsStatements ls body → AllSpelled ls →
      IsWritten IsStatements (Statement.writeAll body) (Statement.unplacedAll body)
  | .none, _ => ⟨.none, allSpelled_nil⟩
  | .more hs hbody, h => by
    obtain ⟨hls, hls'⟩ := allSpelled_append.1 h
    obtain ⟨gs, hspelled⟩ := written_statement hs hls
    obtain ⟨gbody, hspelled'⟩ := written_statements hbody hls'
    exact ⟨.more gs gbody, by simp [Statement.writeAll, hspelled, hspelled']⟩

theorem written_elseChain {ls : List Lexeme} {more : List (Expr × Statement)}
    {otherwise : Option Statement} :
    IsElseChain ls more otherwise → AllSpelled ls →
      IsElseChain (writeElse more otherwise) (Statement.unplacedBranches more)
        (Statement.unplacedOtherwise otherwise) ∧ AllSpelled (writeElse more otherwise)
  | .none, _ => ⟨.none, allSpelled_nil⟩
  | .elseIf _ _ hc hs hmore hnearest, h => by
    obtain ⟨-, hls⟩ := allSpelled_cons.1 h
    obtain ⟨hcs, hls⟩ := allSpelled_append.1 (allSpelled_cons.1 hls).2
    obtain ⟨hls, hls'⟩ := allSpelled_append.1 hls
    obtain ⟨gc, hcondition⟩ := written_condition hc hcs
    obtain ⟨gs, hbody⟩ := written_statement hs hls
    obtain ⟨gmore, hchain⟩ := written_elseChain hmore hls'
    rw [writeElse_cons]
    exact ⟨.elseIf rfl rfl gc gs gmore (writeElse_nearest hmore hnearest),
      by simp [hcondition, hbody, hchain]⟩
  | .last _ hs hif, h => by
    obtain ⟨gs, hspelled⟩ := written_statement hs (allSpelled_cons.1 h).2
    rw [writeElse_otherwise]
    exact ⟨.last rfl gs (by rw [Statement.isIf_unplaced, hif]), by simp [hspelled]⟩

end

/-! ## Programs -/

theorem written_dims (n : Nat) : IsWritten IsIndices (writeDims n) (List.replicate n none) := by
  induction n with
  | zero => exact ⟨.none, allSpelled_nil⟩
  | succ n ih => exact ⟨.empty rfl rfl ih.1, by simp [writeDims, ih.2]⟩

section programs

variable {ls : List Lexeme}

/-- The name of a place with as many empty brackets as the place has indices. -/
theorem written_name {p : Place} (hp : IsPlace ls p) (h : AllSpelled ls) :
    IsWritten IsPlace (.ofName p.name :: writeDims p.indices.length)
        ⟨p.name, List.replicate p.indices.length none, .ofName p.name⟩ ∧
      p.lexeme.unplaced = .ofName p.name := by
  cases hp with
  | mk hl his =>
    obtain ⟨hspelled, -⟩ := allSpelled_cons.1 h
    have hname := hspelled.unplaced_name hl
    obtain ⟨gdims, hdims⟩ := written_dims _
    exact ⟨⟨.mk rfl gdims, by simp [← hname, hspelled.unplaced, hdims]⟩, hname⟩

theorem written_parameter {x : Parameter} (hx : IsParameter ls x) (h : AllSpelled ls) :
    IsWritten IsParameter x.write x.unplaced := by
  cases hx with
  | mk ht hvoid hp =>
    obtain ⟨l, hwrite, hl, hspelled⟩ := written_type ht
    obtain ⟨⟨gp, hplace⟩, hname⟩ := written_name hp (allSpelled_cons.1 h).2
    have gx := IsParameter.mk hl hvoid gp
    rw [List.length_replicate] at gx
    rw [Parameter.write, hwrite, Parameter.unplaced, hname]
    exact ⟨gx, by simpa [hspelled] using hplace⟩

theorem written_parameters {xs : List Parameter} (hxs : IsSeparated IsParameter ls xs)
    (h : AllSpelled ls) :
    List.Forall₂ (IsWritten IsParameter) (xs.map Parameter.write) (xs.map Parameter.unplaced) := by
  cases hxs with
  | none => exact .nil
  | some hxs =>
    induction hxs with
    | one hx => exact .cons (written_parameter hx h) .nil
    | more hx _ _ ih =>
      obtain ⟨hls, hls'⟩ := allSpelled_append.1 h
      exact .cons (written_parameter hx hls) (ih (allSpelled_cons.1 hls').2)

theorem written_function {f : FunctionDecl} (hf : IsFunction ls f) (h : AllSpelled ls) :
    IsWritten IsFunction f.write f.unplaced := by
  cases hf with
  | mk ht hp _ hparameters _ hb hbody _ =>
    obtain ⟨l, hwrite, hl, hspelled⟩ := written_type ht
    obtain ⟨hls, hps⟩ := allSpelled_append.1 (allSpelled_cons.1 h).2
    obtain ⟨hps, hbs⟩ := allSpelled_append.1 (allSpelled_cons.1 hps).2
    obtain ⟨hbrace, hbs⟩ := allSpelled_cons.1 (allSpelled_cons.1 hbs).2
    obtain ⟨⟨gp, hplace⟩, hname⟩ := written_name hp hls
    obtain ⟨gparameters, hwparameters⟩ := written_separated (written_parameters hparameters hps)
    obtain ⟨gbody, hwbody⟩ := written_statements hbody (allSpelled_append.1 hbs).1
    have gf := IsFunction.mk (l := .ofSymbol .leftParen) (r := .ofSymbol .rightParen)
      (b := .ofSymbol .leftBrace) (e := .ofSymbol .rightBrace) hl gp rfl gparameters rfl rfl gbody
      rfl
    rw [List.length_replicate] at gf
    rw [FunctionDecl.write, hwrite, FunctionDecl.unplaced, hname, FunctionBody.unplaced,
      hbrace.unplaced_symbol hb]
    refine ⟨?_, ?_⟩
    · simpa [FunctionBody.write, enclosed] using gf
    · simp_all [FunctionBody.write]

theorem written_item {i : Item} (hi : IsItem ls i) (h : AllSpelled ls) :
    IsWritten IsItem i.write i.unplaced := by
  cases hi with
  | function hf =>
    obtain ⟨gf, hspelled⟩ := written_function hf h
    exact ⟨.function gf, hspelled⟩
  | global hd =>
    cases hd with
    | mk hd _ =>
      obtain ⟨gd, hspelled⟩ := written_declaration hd (allSpelled_append.1 h).1
      exact ⟨.global (.mk gd rfl), by simp [Item.write, hspelled]⟩

/-- The grammar derives items without their places from what they are written as. -/
theorem written_items {items : List Item} (hitems : IsItems ls items) (h : AllSpelled ls) :
    IsWritten IsItems (items.flatMap Item.write) (items.map Item.unplaced) := by
  induction hitems with
  | none => exact ⟨.none, allSpelled_nil⟩
  | more hi _ ih =>
    obtain ⟨hls, hls'⟩ := allSpelled_append.1 h
    obtain ⟨gi, hspelled⟩ := written_item hi hls
    obtain ⟨gitems, hspelled'⟩ := ih hls'
    rw [List.flatMap_cons, List.map_cons]
    exact ⟨.more gi gitems, by simp [hspelled, hspelled']⟩

end programs

end MiniC
