import MiniC.Proofs.Parse.Completed
import MiniC.Proofs.Parse.Sound
import MiniC.Proofs.Parse.Written

/-!
# Syntax errors stand behind a viable prefix

Whatever a parser has read when it meets an unexpected lexeme can be completed to what the grammar
derives.  Where something has to be written, a name, an empty statement or the closing symbols of
what is open are enough.  The parsers are followed in their own recursion.  Main statement:
`viable_items`.
-/

namespace MiniC

open Grammar

/-- The name that expressions are completed with. -/
def Lexeme.someName : Lexeme := .ofName "x"

@[simp] theorem Lexeme.isSpelled_someName : someName.IsSpelled := ⟨'x', [], rfl, rfl⟩

namespace Grammar

theorem isExpr_someName (tier : Tier) :
    IsExpr tier [.someName] (.variable "x" [] .someName) :=
  IsExpr.of_primary (.variable rfl .none) tier

theorem isPlace_someName : IsPlace [.someName] ⟨"x", [], .someName⟩ := .mk rfl .none

theorem isSimple_someName :
    IsSimple ([.someName] ++ .ofSymbol .assign :: [.someName])
      (.assignment ⟨"x", [], .someName⟩ .plain (.variable "x" [] .someName)
        (.ofSymbol .assign)) :=
  .assignment isPlace_someName rfl (isExpr_someName _)

theorem isCondition_someName :
    IsCondition (.ofSymbol .leftParen :: ([.someName] ++ [.ofSymbol .rightParen]))
      (.variable "x" [] .someName) :=
  .mk rfl (isExpr_someName _) rfl

theorem kind_ofSymbol (s : Symbol) : (Lexeme.ofSymbol s).kind = .symbol s := rfl

theorem completes_expr (tier : Tier) : Completes (IsExpr tier) [] :=
  ⟨[.someName], _, by simp, isExpr_someName tier⟩

/-- What a rule says, with a closing symbol behind it. -/
def Through {α : Type} (closing : Symbol) (Is : List Lexeme → α → Prop) (ls : List Lexeme) (x : α) :
    Prop :=
  ∃ ls' r, ls = ls' ++ [r] ∧ Is ls' x ∧ r.kind = .symbol closing

theorem through_ofSymbol {α : Type} {closing : Symbol} {Is : List Lexeme → α → Prop}
    {ls : List Lexeme} {x : α} (h : Is ls x) :
    Through closing Is (ls ++ [.ofSymbol closing]) x :=
  ⟨ls, _, rfl, h, rfl⟩

end Grammar

namespace Parse

open Parsed

variable {α : Type} {stop : Stop}

/-! ## Lists of items -/

theorem viable_itemsFrom {Is : List Lexeme → α → Prop} {closing : Symbol} {ts : List Lexeme}
    {item : (us : List Lexeme) → us.length ≤ ts.length → Parsed us.length α}
    (hitem : ∀ us h, (item us h).FailsAfter stop us (Completes Is))
    (hreads : ∀ us h, (item us h).Reads Is us) :
    (itemsFrom stop closing ts item).FailsAfter stop ts
      (Completes (Through closing (IsItemsFrom Is))) := by
  rw [itemsFrom]
  have hclosing : AllSpelled [.ofSymbol closing] := by simp
  refine FailsAfter.andThen ?_ fun x left hleft hx => ?_
  · exact (hitem ts _).completing [] rfl hclosing fun ls x hx => ⟨_, through_ofSymbol (.one hx)⟩
  · obtain ⟨ls, hts, hls⟩ := hreads _ _ hx
    have hend : Completes (Through closing (IsItemsFrom Is)) ls :=
      ⟨_, _, hclosing, through_ofSymbol (.one hls)⟩
    cases left with
    | nil => exact (fails_refuse _).after ls hts hend
    | cons l us =>
      have hshorter : us.length < ts.length := Nat.lt_of_succ_lt hleft
      have hrest : ts = (ls ++ [l]) ++ us := by simp [hts]
      dsimp only
      split
      · next hcomma =>
        refine FailsAfter.relax (FailsAfter.map ?_)
        refine (viable_itemsFrom (fun us h => hitem us _) fun us h => hreads us _).joined _ hrest ?_
        rintro _ xs ⟨ls', r, rfl, hls', hr⟩
        exact ⟨_, ls ++ l :: ls', r, by simp, .more hls hcomma hls', hr⟩
      · split
        · exact failsAfter_leaving
        · exact failsAtOnce_unexpected.after ls hts hend
termination_by ts.length
decreasing_by exact hshorter

theorem viable_commaSeparated {Is : List Lexeme → α → Prop} {closing : Symbol} {ts : List Lexeme}
    {item : (us : List Lexeme) → us.length ≤ ts.length → Parsed us.length α}
    (hitem : ∀ us h, (item us h).FailsAfter stop us (Completes Is))
    (hreads : ∀ us h, (item us h).Reads Is us) :
    (commaSeparated stop closing ts item).FailsAfter stop ts
      (Completes (Through closing (IsSeparated Is))) := by
  refine fails_ifNext _ (fun l rest _ _ _ => failsAfter_leaving) fun _ => ?_
  refine (viable_itemsFrom hitem hreads).imp ?_
  rintro _ xs ⟨ls, r, rfl, hls, hr⟩
  exact ⟨xs, ls, r, rfl, .some hls, hr⟩

/-! ## Expressions -/

mutual

theorem viable_binary (level : Level) (ts : List Lexeme) :
    (binary stop level ts).FailsAfter stop ts (Completes (IsExpr (.binary level))) := by
  unfold binary
  refine FailsAfter.followedBy ?_ fun left rest hrest hleft => ?_
  · exact (viable_operand level ts).imp fun ls e he => ⟨e, he.of_operand⟩
  · obtain ⟨ls, hts, hls⟩ := reads_operand level ts hleft
    exact (viable_operators level left rest).joined ls hts fun ls' e he => ⟨e, .level hls he⟩
termination_by 16 * ts.length + (2 * level.looseness + 4)
decreasing_by all_goals omega

theorem viable_operand (level : Level) (ts : List Lexeme) :
    (operand stop level ts).FailsAfter stop ts (Completes (IsExpr (.operand level))) := by
  unfold operand
  cases level with
  | multiplicative => exact viable_unary ts
  | additive => exact viable_binary .multiplicative ts
  | relational => exact viable_binary .additive ts
  | bitwise => exact viable_binary .relational ts
  | logical => exact viable_binary .bitwise ts
termination_by 16 * ts.length + (2 * level.looseness + 3)
decreasing_by all_goals (try simp only [Level.looseness]); omega

theorem viable_operators (level : Level) (left : Expr) (ts : List Lexeme) :
    (operators stop level left ts).FailsAfter stop ts (Completes (IsOperators level left)) := by
  unfold operators
  cases ts with
  | nil => exact fails_atEnd failsAfter_leaving
  | cons l us =>
    dsimp only
    split
    · exact failsAfter_leaving
    · next op hop =>
      split
      · next hlevel =>
        refine FailsAfter.relax (FailsAfter.relax (FailsAfter.followedBy ?_ ?_))
        · refine (viable_operand level us).joined [l] rfl fun ls right hright => ?_
          refine ⟨.binary op left right l, ?_⟩
          have hone : IsOperators level left (l :: (ls ++ [])) (.binary op left right l) :=
            .some hop hlevel hright .none
          rwa [List.append_nil] at hone
        · intro right us' hus' hright
          obtain ⟨ls, rfl, hls⟩ := reads_operand level us hright
          exact (viable_operators level _ us').joined (l :: ls) rfl fun ls' e he =>
            ⟨e, .some hop hlevel hls he⟩
      · exact failsAfter_leaving
termination_by 16 * ts.length + 13
decreasing_by
  all_goals (try simp only [List.length_cons] at *)
  · cases level <;> simp only [Level.looseness] <;> omega
  · omega

theorem viable_unary (ts : List Lexeme) :
    (unary stop ts).FailsAfter stop ts (Completes (IsExpr .unary)) := by
  unfold unary
  cases ts with
  | nil => exact (fails_refuse _).first (completes_expr _)
  | cons l us =>
    dsimp only
    split
    · next op hop =>
      refine FailsAfter.relax (FailsAfter.map ?_)
      exact (viable_unary us).joined [l] rfl fun ls x hx => ⟨_, .operator hop hx⟩
    · exact (viable_primary (l :: us)).imp fun ls e he => ⟨e, .primary he⟩
termination_by 16 * ts.length + 2
decreasing_by all_goals simp only [List.length_cons]; omega

theorem viable_primary (ts : List Lexeme) :
    (primary stop ts).FailsAfter stop ts (Completes (IsExpr .primary)) := by
  unfold primary
  cases ts with
  | nil => exact (fails_refuse _).first (completes_expr _)
  | cons l us =>
    dsimp only
    split
    · exact failsAfter_leaving
    · split
      · split
        · exact failsAfter_lexical
        · split
          · exact viable_cast (l :: us)
          · refine (viable_condition (l :: us)).imp fun ls e he => ?_
            obtain ⟨hl, he, hr⟩ := he
            exact ⟨_, .parenthesized hl he hr⟩
      · exact viable_list (l :: us)
      · split
        · exact failsAfter_lexical
        · split
          · refine FailsAfter.map ((viable_call (l :: us)).imp fun ls c hc => ?_)
            obtain ⟨hl, hp, hxs, hr⟩ := hc
            exact ⟨_, .call hl hp hxs hr⟩
          · refine FailsAfter.map ((viable_place (l :: us)).imp fun ls p hp => ?_)
            obtain ⟨hl, his⟩ := hp
            exact ⟨_, .variable hl his⟩
      · exact failsAtOnce_unexpected.first (completes_expr _)
termination_by 16 * ts.length + 1
decreasing_by all_goals simp only [List.length_cons]; omega

theorem viable_cast (ts : List Lexeme) :
    (cast stop ts).FailsAfter stop ts (Completes (IsExpr .primary)) := by
  unfold cast
  refine ((fails_eat _ ts).first (completes_expr _)).andThen fun l us hus gl => ?_
  obtain ⟨rfl, hl⟩ := gives_eat.1 gl
  have hopen : Completes (IsExpr .primary) [l] :=
    ⟨[.someName, .ofSymbol .rightParen], _, by simp, .parenthesized hl (isExpr_someName _) rfl⟩
  refine ((fails_valueType us).after [l] rfl hopen).andThen fun type us' hus' gtype => ?_
  obtain ⟨t, rfl, ht, hvoid⟩ := gives_valueType.1 gtype
  have htype : Completes (IsExpr .primary) [l, t] :=
    ⟨[.ofSymbol .rightParen, .someName], _, by simp, .cast hl ht hvoid rfl (isExpr_someName _)⟩
  refine ((fails_eat _ us').after [l, t] rfl htype).andThen fun r us'' hus'' gr => ?_
  obtain ⟨rfl, hr⟩ := gives_eat.1 gr
  refine FailsAfter.map ?_
  exact (viable_unary us'').joined [l, t, r] rfl fun ls x hx => ⟨_, .cast hl ht hvoid hr hx⟩
termination_by 16 * ts.length
decreasing_by all_goals (try simp only [List.length_cons] at *); omega

theorem viable_condition (ts : List Lexeme) :
    (parenthesized stop ts).FailsAfter stop ts (Completes IsCondition) := by
  unfold parenthesized
  have hnone : Completes IsCondition [] :=
    ⟨[.ofSymbol .leftParen, .someName, .ofSymbol .rightParen], _, by simp, isCondition_someName⟩
  refine ((fails_eat _ ts).first hnone).andThen fun l us hus gl => ?_
  obtain ⟨rfl, hl⟩ := gives_eat.1 gl
  have hclosing : AllSpelled [.ofSymbol .rightParen] := by simp
  refine FailsAfter.andThen ?_ fun c us' hus' gc => ?_
  · exact (viable_binary .logical us).completing [l] rfl hclosing fun ls c hc => ⟨c, .mk hl hc rfl⟩
  · obtain ⟨ls, rfl, hls⟩ := reads_binary .logical us gc
    exact FailsAfter.map ((fails_eat _ us').after (l :: ls) rfl ⟨_, c, hclosing, .mk hl hls rfl⟩)
termination_by 16 * ts.length
decreasing_by all_goals (try simp only [Level.looseness, List.length_cons] at *); omega

theorem viable_list (ts : List Lexeme) :
    (list stop ts).FailsAfter stop ts (Completes (IsExpr .primary)) := by
  unfold list
  refine ((fails_eat _ ts).first (completes_expr _)).andThen fun l us hus gl => ?_
  obtain ⟨rfl, hl⟩ := gives_eat.1 gl
  refine FailsAfter.map ?_
  refine (viable_commaSeparated (fun us' _ => viable_binary .logical us')
    fun us' _ => reads_binary .logical us').joined [l] rfl ?_
  rintro _ xs ⟨ls, r, rfl, hls, hr⟩
  exact ⟨_, .list hl hls hr⟩
termination_by 16 * ts.length
decreasing_by all_goals (try simp only [Level.looseness, List.length_cons] at *); omega

theorem viable_call (ts : List Lexeme) :
    (call stop ts).FailsAfter stop ts (Completes IsCall) := by
  unfold call
  have hcall : ∀ l name, l.token = .identifier name →
      IsCall [l, .ofSymbol .leftParen, .ofSymbol .rightParen] ⟨name, [], l⟩ :=
    fun l name hl => .mk hl rfl .none rfl
  refine FailsAfter.andThen ?_ fun name us hus gl => ?_
  · refine (fails_identifier ts).first ?_
    exact ⟨[.someName, .ofSymbol .leftParen, .ofSymbol .rightParen], _, by simp, hcall _ _ rfl⟩
  obtain ⟨name, l⟩ := name
  obtain ⟨rfl, hl⟩ := gives_identifier.1 gl
  refine FailsAfter.andThen ?_ fun p us' hus' gp => ?_
  · refine (fails_eat _ us).after [l] rfl ?_
    exact ⟨[.ofSymbol .leftParen, .ofSymbol .rightParen], _, by simp, hcall l name hl⟩
  obtain ⟨rfl, hp⟩ := gives_eat.1 gp
  refine FailsAfter.map ?_
  refine (viable_commaSeparated (fun us'' _ => viable_binary .logical us'')
    fun us'' _ => reads_binary .logical us'').joined [l, p] rfl ?_
  rintro _ xs ⟨ls, r, rfl, hls, hr⟩
  exact ⟨_, .mk hl hp hls hr⟩
termination_by 16 * ts.length
decreasing_by all_goals (try simp only [Level.looseness, List.length_cons] at *); omega

theorem viable_place (ts : List Lexeme) :
    (place stop ts).FailsAfter stop ts (Completes IsPlace) := by
  unfold place
  have hnone : Completes IsPlace [] := ⟨[.someName], _, by simp, isPlace_someName⟩
  refine ((fails_identifier ts).first hnone).followedBy fun name us hus gl => ?_
  obtain ⟨name, l⟩ := name
  obtain ⟨rfl, hl⟩ := gives_identifier.1 gl
  exact FailsAfter.map ((viable_indices us).joined [l] rfl fun ls is his => ⟨_, .mk hl his⟩)
termination_by 16 * ts.length
decreasing_by all_goals (try simp only [List.length_cons] at *); omega

theorem viable_indices (ts : List Lexeme) :
    (indices stop ts).FailsAfter stop ts (Completes IsIndices) := by
  unfold indices
  cases ts with
  | nil => exact fails_atEnd failsAfter_leaving
  | cons l us =>
    dsimp only
    split
    · next hl =>
      refine FailsAfter.relax (FailsAfter.relax (FailsAfter.followedBy ?_ ?_))
      · refine (viable_index us).joined [l] rfl ?_
        rintro _ i ⟨ls, r, rfl, hi, hr⟩
        cases hi with
        | none => exact ⟨_, .empty hl hr .none⟩
        | some hi => exact ⟨_, .index hl hi hr .none⟩
      · intro i us' hus' gi
        rcases reads_index us gi with ⟨r, rfl, hr, rfl⟩ | ⟨x, ls, r, rfl, hls, hr, rfl⟩
        · exact FailsAfter.map ((viable_indices us').joined [l, r] rfl fun ls' is his =>
            ⟨_, .empty hl hr his⟩)
        · refine FailsAfter.map ((viable_indices us').joined (l :: (ls ++ [r])) (by simp)
            fun ls' is his => ?_)
          have hmore := IsIndices.index hl hls hr his
          exact ⟨_, by simpa using hmore⟩
    · exact failsAfter_leaving
termination_by 16 * ts.length + 13
decreasing_by all_goals (try simp only [List.length_cons] at *); omega

theorem viable_index (ts : List Lexeme) :
    (index stop ts).FailsAfter stop ts
      (Completes (Through .rightBracket (IsOptional (IsExpr .expression)))) := by
  unfold index
  have hclosing : AllSpelled [.ofSymbol .rightBracket] := by simp
  refine fails_ifNext _ (fun l rest _ _ _ => failsAfter_leaving) fun _ => ?_
  refine FailsAfter.andThen ?_ fun i us hus gi => ?_
  · exact (viable_binary .logical ts).completing [] rfl hclosing fun ls i hi =>
      ⟨_, through_ofSymbol (.some hi)⟩
  · obtain ⟨ls, rfl, hls⟩ := reads_binary .logical ts gi
    exact FailsAfter.map ((fails_eat _ us).after ls rfl
      ⟨_, _, hclosing, through_ofSymbol (.some hls)⟩)
termination_by 16 * ts.length + 13
decreasing_by all_goals (try simp only [Level.looseness]); omega

end

theorem viable_expression (ts : List Lexeme) :
    (expression stop ts).FailsAfter stop ts (Completes (IsExpr .expression)) :=
  viable_binary .logical ts

/-! ## Simple statements -/

theorem viable_declaration (ts : List Lexeme) :
    (declaration stop ts).FailsAfter stop ts (Completes IsDeclaration) := by
  have hnone : Completes IsDeclaration [] :=
    ⟨[.ofKeyword .int, .someName], _, by simp, .plain rfl (by decide) isPlace_someName⟩
  refine ((fails_valueType ts).first hnone).andThen fun type us hus gtype => ?_
  obtain ⟨t, rfl, ht, hvoid⟩ := gives_valueType.1 gtype
  refine FailsAfter.followedBy ?_ fun p us' hus' gp => ?_
  · exact (viable_place us).joined [t] rfl fun ls p hp => ⟨_, .plain ht hvoid hp⟩
  · obtain ⟨ls, rfl, hls⟩ := reads_place us gp
    refine FailsAfter.map (fails_optionalAfter _ ?_)
    rintro l left rfl hl
    refine (viable_expression left).joined (t :: (ls ++ [l])) (by simp) fun ls' x hx => ?_
    exact ⟨_, by simpa using IsDeclaration.initialized ht hvoid hls hl hx⟩

theorem viable_assignment (ts : List Lexeme) :
    (assignment stop ts).FailsAfter stop ts (Completes IsSimple) := by
  have hvalue : AllSpelled [.ofSymbol .assign, .someName] := by simp
  refine FailsAfter.andThen ?_ fun target us hus gtarget => ?_
  · exact (viable_place ts).completing [] rfl hvalue fun ls p hp =>
      ⟨_, .assignment hp rfl (isExpr_someName _)⟩
  obtain ⟨ls, rfl, hls⟩ := reads_place ts gtarget
  refine FailsAfter.andThen ?_ fun op us' hus' gop => ?_
  · exact (fails_assignOp us).after ls rfl
      ⟨_, _, hvalue, .assignment hls rfl (isExpr_someName _)⟩
  obtain ⟨op, l⟩ := op
  obtain ⟨rfl, hop⟩ := gives_assignOp.1 gop
  refine FailsAfter.map ((viable_expression us').joined (ls ++ [l]) (by simp) fun ls' x hx => ?_)
  exact ⟨_, by simpa using IsSimple.assignment hls hop hx⟩

theorem viable_simpleStatement (ts : List Lexeme) :
    (simpleStatement stop ts).FailsAfter stop ts (Completes IsSimple) := by
  have hnone : Completes IsSimple [] :=
    ⟨[.someName, .ofSymbol .assign, .someName], _, by simp, isSimple_someName⟩
  unfold simpleStatement
  cases ts with
  | nil => exact (fails_refuse _).first hnone
  | cons l us =>
    dsimp only
    split
    · split
      · exact failsAfter_lexical
      · split
        · exact FailsAfter.map ((viable_call (l :: us)).imp fun ls c hc => ⟨_, .call hc⟩)
        · exact viable_assignment (l :: us)
    · split
      · exact FailsAfter.map ((viable_declaration (l :: us)).imp fun ls d hd =>
          ⟨_, .declaration hd⟩)
      · exact failsAtOnce_unexpected.first hnone

theorem viable_optionalSimple (closing : Symbol) (ts : List Lexeme) :
    (optionalSimple stop closing ts).FailsAfter stop ts
      (Completes (Through closing (IsOptional IsSimple))) := by
  have hclosing : AllSpelled [.ofSymbol closing] := by simp
  refine fails_ifNext _ (fun l rest _ _ _ => failsAfter_leaving) fun _ => ?_
  refine FailsAfter.andThen ?_ fun s us hus gs => ?_
  · exact (viable_simpleStatement ts).completing [] rfl hclosing fun ls s hs =>
      ⟨_, through_ofSymbol (.some hs)⟩
  · obtain ⟨ls, rfl, hls⟩ := reads_simpleStatement ts gs
    exact FailsAfter.map ((fails_eat _ us).after ls rfl
      ⟨_, _, hclosing, through_ofSymbol (.some hls)⟩)

/-! ## Statements -/

theorem completes_statement : Completes IsStatement [] :=
  ⟨[.ofSymbol .semicolon], _, by simp, .empty rfl⟩

/-- A keyword and a semicolon. -/
def IsJump (k : Keyword) (ls : List Lexeme) (l : Lexeme) : Prop :=
  ∃ semi, ls = [l, semi] ∧ l.kind = .keyword k ∧ semi.kind = .symbol .semicolon

theorem viable_jump (k : Keyword) (ts : List Lexeme) :
    (jump stop k ts).FailsAfter stop ts (Completes (IsJump k)) := by
  have hnone : Completes (IsJump k) [] :=
    ⟨[.ofKeyword k, .ofSymbol .semicolon], _, by simp, _, rfl, rfl, rfl⟩
  refine ((fails_eat _ ts).first hnone).andThen fun l us hus gl => ?_
  obtain ⟨rfl, hl⟩ := gives_eat.1 gl
  exact FailsAfter.map ((fails_eat _ us).after [l] rfl
    ⟨[.ofSymbol .semicolon], l, by simp, _, rfl, hl, rfl⟩)

theorem viable_returnValue (ts : List Lexeme) :
    (returnValue stop ts).FailsAfter stop ts (Completes IsStatement) := by
  have hsemi : AllSpelled [.ofSymbol .semicolon] := by simp
  refine ((fails_eat _ ts).first completes_statement).andThen fun l us hus gl => ?_
  obtain ⟨rfl, hl⟩ := gives_eat.1 gl
  refine fails_ifNext _ (fun l rest _ _ _ => failsAfter_leaving) fun _ => ?_
  refine FailsAfter.andThen ?_ fun x us' hus' gx => ?_
  · exact (viable_expression us).completing [l] rfl hsemi fun ls x hx =>
      ⟨_, .returnValue hl (.some hx) rfl⟩
  · obtain ⟨ls, rfl, hls⟩ := reads_expression us gx
    exact FailsAfter.map ((fails_eat _ us').after (l :: ls) rfl
      ⟨_, _, hsemi, .returnValue hl (.some hls) rfl⟩)

/-- A block, with its opening brace. -/
def IsBlock (ls : List Lexeme) (b : List Statement × Lexeme) : Prop :=
  ∃ ls', ls = b.2 :: ls' ∧ b.2.kind = .symbol .leftBrace ∧ Through .rightBrace IsStatements ls' b.1

/-- A condition and the statement it guards. -/
def IsBranch (ls : List Lexeme) (b : Expr × Statement) : Prop :=
  ∃ cs ss, ls = cs ++ ss ∧ IsCondition cs b.1 ∧ IsStatement ss b.2

/-- The branches after the first one. -/
def IsChain (ls : List Lexeme) (chain : List (Expr × Statement) × Option Statement) : Prop :=
  IsElseChain ls chain.1 chain.2

/-- What an `else` follows is closed. -/
theorem closed_of_else {s : Statement} {ts : List Lexeme} (hopen : s.isOpen = true → NoElse ts)
    (h : ∃ e us, ts = e :: us ∧ e.kind = .keyword .else) : s.isOpen = false := by
  obtain ⟨e, us, hts, he⟩ := h
  cases hs : s.isOpen with
  | false => rfl
  | true => exact absurd he (hopen hs e us hts)

mutual

theorem viable_statement (ts : List Lexeme) :
    (statement stop ts).FailsAfter stop ts (Completes IsStatement) := by
  unfold statement
  cases ts with
  | nil => exact (fails_refuse _).first completes_statement
  | cons l us =>
    dsimp only
    split
    · refine FailsAfter.map ((viable_block (l :: us)).imp ?_)
      rintro _ ⟨body, b⟩ ⟨_, rfl, hb, ls, r, rfl, hls, hr⟩
      exact ⟨_, .block hb hls hr⟩
    · exact viable_ifElse (l :: us)
    · exact viable_forLoop (l :: us)
    · exact viable_whileLoop (l :: us)
    · exact viable_doWhile (l :: us)
    · refine FailsAfter.map ((viable_jump .break (l :: us)).imp ?_)
      rintro _ b ⟨semi, rfl, hb, hsemi⟩
      exact ⟨_, .breakLoop hb hsemi⟩
    · refine FailsAfter.map ((viable_jump .continue (l :: us)).imp ?_)
      rintro _ b ⟨semi, rfl, hb, hsemi⟩
      exact ⟨_, .continueLoop hb hsemi⟩
    · exact viable_returnValue (l :: us)
    · exact failsAfter_leaving
    · have hsemi : AllSpelled [.ofSymbol .semicolon] := by simp
      refine FailsAfter.andThen ?_ fun s us' hus' gs => ?_
      · exact (viable_simpleStatement (l :: us)).completing [] rfl hsemi fun ls s hs =>
          ⟨_, .simple hs rfl⟩
      · obtain ⟨ls, hts, hls⟩ := reads_simpleStatement (l :: us) gs
        exact FailsAfter.map ((fails_eat _ us').after ls hts ⟨_, _, hsemi, .simple hls rfl⟩)
termination_by 4 * ts.length + 1
decreasing_by all_goals simp only [List.length_cons]; omega

theorem viable_block (ts : List Lexeme) :
    (block stop ts).FailsAfter stop ts (Completes IsBlock) := by
  unfold block
  have hnone : Completes IsBlock [] :=
    ⟨[.ofSymbol .leftBrace, .ofSymbol .rightBrace], ([], .ofSymbol .leftBrace), by simp,
      _, rfl, rfl, through_ofSymbol IsStatements.none⟩
  refine ((fails_eat _ ts).first hnone).andThen fun l us hus gl => ?_
  obtain ⟨rfl, hl⟩ := gives_eat.1 gl
  exact FailsAfter.map ((viable_statements us).joined [l] rfl fun ls body hbody =>
    ⟨(body, l), ls, rfl, hl, hbody⟩)
termination_by 4 * ts.length
decreasing_by all_goals (try simp only [List.length_cons] at *); omega

theorem viable_statements (ts : List Lexeme) :
    (statements stop ts).FailsAfter stop ts (Completes (Through .rightBrace IsStatements)) := by
  unfold statements
  have hclosing : AllSpelled [.ofSymbol .rightBrace] := by simp
  cases ts with
  | nil => exact (fails_refuse _).first ⟨_, _, hclosing, through_ofSymbol .none⟩
  | cons l us =>
    dsimp only
    split
    · exact failsAfter_leaving
    · refine FailsAfter.andThen ?_ fun s us' hus' gs => ?_
      · refine (viable_statement (l :: us)).completing [] rfl hclosing fun ls s hs => ?_
        have hone := IsStatements.more hs .none
        rw [List.append_nil] at hone
        exact ⟨_, through_ofSymbol hone⟩
      · obtain ⟨ls, hts, hls, -⟩ := reads_statement (l :: us) gs
        refine FailsAfter.map ((viable_statements us').joined ls hts ?_)
        rintro _ body ⟨ls', r, rfl, hbody, hr⟩
        exact ⟨s :: body, ls ++ ls', r, by simp, .more hls hbody, hr⟩
termination_by 4 * ts.length + 2
decreasing_by all_goals simp only [List.length_cons] at *; omega

theorem viable_branch (ts : List Lexeme) :
    (branch stop ts).FailsAfter stop ts (Completes IsBranch) := by
  unfold branch
  have hempty : AllSpelled [.ofSymbol .semicolon] := by simp
  refine FailsAfter.andThen ?_ fun c us hus gc => ?_
  · exact (viable_condition ts).completing [] rfl hempty fun cs c hc =>
      ⟨(c, .empty), cs, _, rfl, hc, .empty rfl⟩
  · obtain ⟨cs, rfl, hcs⟩ := reads_condition ts gc
    exact FailsAfter.map ((viable_statement us).joined cs rfl fun ss s hs =>
      ⟨(c, s), cs, ss, rfl, hcs, hs⟩)
termination_by 4 * ts.length + 2
decreasing_by all_goals (try simp only [List.length_append] at *); omega

theorem viable_ifElse (ts : List Lexeme) :
    (ifElse stop ts).FailsAfter stop ts (Completes IsStatement) := by
  unfold ifElse
  refine ((fails_eat _ ts).first completes_statement).andThen fun l us hus gl => ?_
  obtain ⟨rfl, hl⟩ := gives_eat.1 gl
  refine FailsAfter.followedBy ?_ fun first us' hus' gs => ?_
  · refine (viable_branch us).joined [l] rfl ?_
    rintro _ ⟨c, s⟩ ⟨cs, ss, rfl, hcs, hs⟩
    have hone := IsStatement.ifElse hl hcs hs .none (.inl rfl)
    rw [List.append_nil] at hone
    exact ⟨_, hone⟩
  · obtain ⟨c, s⟩ := first
    obtain ⟨cs, ls, rfl, hcs, hls, hopen⟩ := reads_branch us gs
    have hts : l :: (cs ++ (ls ++ us')) = (l :: (cs ++ ls)) ++ us' := by simp
    refine FailsAfter.map (FailsAfter.behind hts ((viable_elseChain us').mono ?_))
    rintro before - ⟨helse, hchain⟩
    refine hchain.within allSpelled_nil fun ls' chain hmore => ?_
    have hall := IsStatement.ifElse hl hcs hls hmore (.inr (closed_of_else hopen helse))
    exact ⟨_, by simpa using hall⟩
termination_by 4 * ts.length
decreasing_by all_goals (try simp only [List.length_cons, List.length_append] at *); omega

/-- A chain that fails begins with `else`, so what it follows is closed. -/
theorem viable_elseChain (ts : List Lexeme) :
    (elseChain stop ts).FailsAfter stop ts fun before =>
      (∃ e us, ts = e :: us ∧ e.kind = .keyword .else) ∧ Completes IsChain before := by
  unfold elseChain
  cases ts with
  | nil => exact fails_atEnd failsAfter_leaving
  | cons e us =>
    dsimp only
    split
    · next he =>
      refine FailsAfter.relax (FailsAfter.relax ?_)
      refine FailsAfter.and ⟨e, us, rfl, he⟩ (fails_ifNext _ ?_ fun hif => ?_)
      · rintro i us' hus' rfl hi
        refine FailsAfter.relax (FailsAfter.followedBy ?_ fun b us'' hus'' gs => ?_)
        · refine (viable_branch us').joined [e, i] rfl ?_
          rintro _ ⟨c, s⟩ ⟨cs, ss, rfl, hcs, hs⟩
          have hone := IsElseChain.elseIf he hi hcs hs .none (.inl rfl)
          rw [List.append_nil] at hone
          exact ⟨(_, _), hone⟩
        · obtain ⟨c, s⟩ := b
          obtain ⟨cs, ls, rfl, hcs, hls, hopen⟩ := reads_branch us' gs
          have hts : e :: i :: (cs ++ (ls ++ us'')) = (e :: i :: (cs ++ ls)) ++ us'' := by simp
          refine FailsAfter.map (FailsAfter.behind hts ((viable_elseChain us'').mono ?_))
          rintro before - ⟨helse, hchain⟩
          refine hchain.within allSpelled_nil fun ls' chain hmore => ?_
          have hall := IsElseChain.elseIf he hi hcs hls hmore (.inr (closed_of_else hopen helse))
          exact ⟨(_, _), by simpa [IsChain] using hall⟩
      · refine FailsAfter.map (FailsAfter.behind (show e :: us = [e] ++ us from rfl) ?_)
        refine (viable_statement us).mono fun before hprefix hbefore => ?_
        cases before with
        | nil =>
          exact ⟨[.ofSymbol .semicolon], ([], some .empty), by simp, .last he (.empty rfl) rfl⟩
        | cons l before =>
          -- what was read after `else` does not begin with `if`
          obtain ⟨more, s, hmore, hs⟩ := hbefore
          have hl : l.kind ≠ .keyword .if := by
            obtain ⟨after, rfl⟩ := hprefix
            exact hif l _ rfl
          have hisIf : s.isIf = false := by
            refine isIf_of_kind_ne hs (List.append_nil _).symm ?_
            rintro l' left ⟨⟩
            exact hl
          exact ⟨more, ([], some s), hmore, .last he hs hisIf⟩
    · exact failsAfter_leaving
termination_by 4 * ts.length + 3
decreasing_by all_goals (try simp only [List.length_cons, List.length_append] at *); omega

theorem viable_forLoop (ts : List Lexeme) :
    (forLoop stop ts).FailsAfter stop ts (Completes IsStatement) := by
  unfold forLoop
  have hx := isExpr_someName .expression
  have hnone : IsOptional IsSimple [] none := .none
  have hempty : IsStatement [.ofSymbol .semicolon] .empty := .empty rfl
  refine ((fails_eat _ ts).first completes_statement).andThen fun l us hus gl => ?_
  obtain ⟨rfl, hl⟩ := gives_eat.1 gl
  have hfor : Completes IsStatement [l] :=
    ⟨[.ofSymbol .leftParen, .ofSymbol .semicolon, .someName, .ofSymbol .semicolon,
      .ofSymbol .rightParen, .ofSymbol .semicolon], _, by simp,
      .forLoop hl (kind_ofSymbol .leftParen) hnone (kind_ofSymbol .semicolon) hx
        (kind_ofSymbol .semicolon) hnone (kind_ofSymbol .rightParen) hempty⟩
  refine ((fails_eat _ us).after [l] rfl hfor).andThen fun p us₁ hus₁ gp => ?_
  obtain ⟨rfl, hp⟩ := gives_eat.1 gp
  refine FailsAfter.andThen ?_ fun first us₂ hus₂ gfirst => ?_
  · have hback : AllSpelled [.someName, .ofSymbol .semicolon, .ofSymbol .rightParen,
        .ofSymbol .semicolon] := by simp
    refine (viable_optionalSimple .semicolon us₁).completing [l, p] rfl hback ?_
    rintro _ first ⟨fs, semi, rfl, hfirst, hsemi⟩
    have hall := IsStatement.forLoop hl hp hfirst hsemi hx (kind_ofSymbol .semicolon) hnone
      (kind_ofSymbol .rightParen) hempty
    exact ⟨_, by simpa using hall⟩
  obtain ⟨fs, semi, rfl, hfirst, hsemi⟩ := reads_optionalSimple gfirst
  have hback : AllSpelled [.ofSymbol .semicolon, .ofSymbol .rightParen, .ofSymbol .semicolon] := by
    simp
  refine FailsAfter.andThen ?_ fun c us₃ hus₃ gc => ?_
  · refine (viable_expression us₂).completing (l :: p :: (fs ++ [semi])) (by simp) hback ?_
    intro cs c hc
    have hall := IsStatement.forLoop hl hp hfirst hsemi hc (kind_ofSymbol .semicolon) hnone
      (kind_ofSymbol .rightParen) hempty
    exact ⟨_, by simpa using hall⟩
  obtain ⟨cs, rfl, hc⟩ := reads_expression us₂ gc
  refine FailsAfter.andThen ?_ fun semi' us₄ hus₄ gsemi' => ?_
  · have hall := IsStatement.forLoop hl hp hfirst hsemi hc (kind_ofSymbol .semicolon) hnone
      (kind_ofSymbol .rightParen) hempty
    exact (fails_eat _ us₃).after (l :: p :: (fs ++ semi :: cs)) (by simp)
      ⟨_, _, hback, by simpa using hall⟩
  obtain ⟨rfl, hsemi'⟩ := gives_eat.1 gsemi'
  refine FailsAfter.andThen ?_ fun step us₅ hus₅ gstep => ?_
  · have hback : AllSpelled [.ofSymbol .semicolon] := by simp
    refine (viable_optionalSimple .rightParen us₄).completing
      (l :: p :: (fs ++ semi :: (cs ++ [semi']))) (by simp) hback ?_
    rintro _ step ⟨ss, r, rfl, hstep, hr⟩
    have hall := IsStatement.forLoop hl hp hfirst hsemi hc hsemi' hstep hr hempty
    exact ⟨_, by simpa using hall⟩
  obtain ⟨ss, r, rfl, hstep, hr⟩ := reads_optionalSimple gstep
  refine FailsAfter.map ((viable_statement us₅).joined
    (l :: p :: (fs ++ semi :: (cs ++ semi' :: (ss ++ [r])))) (by simp) fun ls body hbody => ?_)
  have hall := IsStatement.forLoop hl hp hfirst hsemi hc hsemi' hstep hr hbody
  exact ⟨_, by simpa using hall⟩
termination_by 4 * ts.length
decreasing_by all_goals simp only [List.length_cons, List.length_append] at *; omega

theorem viable_whileLoop (ts : List Lexeme) :
    (whileLoop stop ts).FailsAfter stop ts (Completes IsStatement) := by
  unfold whileLoop
  refine ((fails_eat _ ts).first completes_statement).andThen fun l us hus gl => ?_
  obtain ⟨rfl, hl⟩ := gives_eat.1 gl
  refine FailsAfter.map ((viable_branch us).joined [l] rfl ?_)
  rintro _ ⟨c, s⟩ ⟨cs, ss, rfl, hcs, hs⟩
  have hloop := IsStatement.whileLoop hl hcs hs
  exact ⟨_, hloop⟩
termination_by 4 * ts.length
decreasing_by all_goals (try simp only [List.length_cons] at *); omega

theorem viable_doWhile (ts : List Lexeme) :
    (doWhile stop ts).FailsAfter stop ts (Completes IsStatement) := by
  unfold doWhile
  have hx := isCondition_someName
  refine ((fails_eat _ ts).first completes_statement).andThen fun l us hus gl => ?_
  obtain ⟨rfl, hl⟩ := gives_eat.1 gl
  have hback : AllSpelled [.ofKeyword .while, .ofSymbol .leftParen, .someName,
      .ofSymbol .rightParen, .ofSymbol .semicolon] := by
    simp
  refine FailsAfter.andThen ?_ fun body us₁ hus₁ gbody => ?_
  · exact (viable_statement us).completing [l] rfl hback fun ls body hbody =>
      ⟨_, .doWhile hl hbody rfl hx (kind_ofSymbol .semicolon)⟩
  obtain ⟨ls, rfl, hls, -⟩ := reads_statement us gbody
  refine FailsAfter.andThen ?_ fun w us₂ hus₂ gw => ?_
  · exact (fails_eat _ us₁).after (l :: ls) rfl
      ⟨_, _, hback, .doWhile hl hls rfl hx (kind_ofSymbol .semicolon)⟩
  obtain ⟨rfl, hw⟩ := gives_eat.1 gw
  have hsemi : AllSpelled [.ofSymbol .semicolon] := by simp
  refine FailsAfter.andThen ?_ fun c us₃ hus₃ gc => ?_
  · refine (viable_condition us₂).completing (l :: (ls ++ [w])) (by simp) hsemi fun cs c hc => ?_
    have hall := IsStatement.doWhile hl hls hw hc (kind_ofSymbol .semicolon)
    exact ⟨_, by simpa using hall⟩
  obtain ⟨cs, rfl, hcs⟩ := reads_condition us₂ gc
  refine FailsAfter.map ((fails_eat _ us₃).after (l :: (ls ++ w :: cs)) (by simp) ?_)
  have hall := IsStatement.doWhile hl hls hw hcs (kind_ofSymbol .semicolon)
  exact ⟨_, _, hsemi, by simpa using hall⟩
termination_by 4 * ts.length
decreasing_by all_goals simp only [List.length_cons] at *; omega

end

/-! ## Programs -/

theorem viable_parameter (ts : List Lexeme) :
    (parameter stop ts).FailsAfter stop ts (Completes IsParameter) := by
  have hnone : Completes IsParameter [] :=
    ⟨[.ofKeyword .int, .someName], _, by simp, .mk rfl (by decide) isPlace_someName⟩
  refine ((fails_valueType ts).first hnone).andThen fun type us hus gtype => ?_
  obtain ⟨t, rfl, ht, hvoid⟩ := gives_valueType.1 gtype
  exact FailsAfter.map ((viable_place us).joined [t] rfl fun ls p hp => ⟨_, .mk ht hvoid hp⟩)

theorem viable_function (ts : List Lexeme) :
    (function stop ts).FailsAfter stop ts (Completes IsFunction) := by
  have hparen := kind_ofSymbol .leftParen
  have hnone : IsSeparated IsParameter [] [] := .none
  have hblock : AllSpelled [.ofSymbol .leftBrace, .ofSymbol .rightBrace] := by simp
  have hback : AllSpelled [.ofSymbol .leftParen, .ofSymbol .rightParen, .ofSymbol .leftBrace,
      .ofSymbol .rightBrace] := by
    simp
  -- a type and a place, completed by an empty list of parameters and an empty block
  have hempty : ∀ t returns ls p, TypeName.ofKind? t.kind = some returns → IsPlace ls p →
      ∃ f, IsFunction (t :: (ls ++ [.ofSymbol .leftParen, .ofSymbol .rightParen,
        .ofSymbol .leftBrace, .ofSymbol .rightBrace])) f :=
    fun t returns ls p ht hp => ⟨_, .mk ht hp hparen hnone rfl rfl .none rfl⟩
  refine FailsAfter.andThen ?_ fun returns us hus greturns => ?_
  · obtain ⟨f, hf⟩ := hempty (.ofKeyword .int) .int _ _ rfl isPlace_someName
    exact (fails_returnType ts).first ⟨_, f, by simp, hf⟩
  obtain ⟨t, rfl, ht⟩ := gives_returnType.1 greturns
  refine FailsAfter.andThen ?_ fun p us₁ hus₁ gp => ?_
  · exact (viable_place us).completing [t] rfl hback fun ls p hp => hempty t returns ls p ht hp
  obtain ⟨ls, rfl, hls⟩ := reads_place us gp
  refine FailsAfter.andThen ?_ fun l us₂ hus₂ gl => ?_
  · obtain ⟨f, hf⟩ := hempty t returns ls p ht hls
    exact (fails_eat _ us₁).after (t :: ls) rfl ⟨_, f, hback, hf⟩
  obtain ⟨rfl, hl⟩ := gives_eat.1 gl
  refine FailsAfter.andThen ?_ fun parameters us₃ hus₃ gparameters => ?_
  · refine (viable_commaSeparated (fun us _ => viable_parameter us)
      fun us _ => reads_parameter us).completing (t :: (ls ++ [l])) (by simp) hblock ?_
    rintro _ parameters ⟨ps, r, rfl, hps, hr⟩
    have hall := IsFunction.mk ht hls hl hps hr (kind_ofSymbol .leftBrace) .none
      (kind_ofSymbol .rightBrace)
    exact ⟨_, by simpa using hall⟩
  obtain ⟨ps, r, rfl, hps, hr⟩ := reads_commaSeparated (fun us _ => reads_parameter us) gparameters
  refine FailsAfter.map ((viable_block us₃).joined (t :: (ls ++ l :: (ps ++ [r]))) (by simp) ?_)
  rintro _ ⟨body, b⟩ ⟨_, rfl, hb, bs, e, rfl, hbs, he⟩
  have hall := IsFunction.mk ht hls hl hps hr hb hbs he
  exact ⟨_, by simpa using hall⟩

theorem viable_global (ts : List Lexeme) :
    (global stop ts).FailsAfter stop ts (Completes IsGlobal) := by
  have hsemi : AllSpelled [.ofSymbol .semicolon] := by simp
  refine FailsAfter.andThen ?_ fun d us hus gd => ?_
  · exact (viable_declaration ts).completing [] rfl hsemi fun ls d hd => ⟨d, .mk hd rfl⟩
  · obtain ⟨ls, rfl, hls⟩ := reads_declaration ts gd
    exact FailsAfter.map ((fails_eat _ us).after ls rfl ⟨_, d, hsemi, .mk hls rfl⟩)

theorem viable_item (ts : List Lexeme) :
    (item stop ts).FailsAfter stop ts (Completes IsItem) := by
  unfold item
  split
  · exact failsAfter_lexical
  · split
    · exact FailsAfter.map ((viable_function ts).imp fun ls f hf => ⟨_, .function hf⟩)
    · exact FailsAfter.map ((viable_global ts).imp fun ls d hd => ⟨_, .global hd⟩)

/-- Whatever was read before an unexpected lexeme can be completed to a program. -/
theorem viable_items (ts : List Lexeme) :
    (items stop ts).FailsAfter stop ts (Completes IsItems) := by
  unfold items
  cases ts with
  | nil => exact fails_atEnd failsAfter_leaving
  | cons l us =>
    refine FailsAfter.relax (FailsAfter.followedBy ?_ fun i us' hus' gi => ?_)
    · refine (viable_item (l :: us)).imp fun ls i hi => ?_
      have hone := IsItems.more hi .none
      rw [List.append_nil] at hone
      exact ⟨_, hone⟩
    · obtain ⟨ls, hts, hls⟩ := reads_item (l :: us) gi
      exact FailsAfter.map ((viable_items us').joined ls hts fun ls' is his =>
        ⟨_, .more hls his⟩)
termination_by ts.length
decreasing_by assumption

end Parse

end MiniC
