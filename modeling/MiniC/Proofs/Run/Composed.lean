import MiniC.Proofs.Run.Simulated
import MiniC.Proofs.Value.Resolved

/-!
# Runs put together from primitive activities

`r.Composed I F V` says that `r` is made of a few primitive activities by sequences, by attributing
failures to lexemes and by changes of the scope at the end, and how: started in a scope with the
invariant `I` it keeps that, it fails only as `F` allows, and its value satisfies `V`.  What is to
be shown of every run is shown by induction on how a run is composed, with one case for each
primitive activity and no look at the syntax that is run.

Main statement: `Run.Composed.meets`.
-/

namespace MiniC

/-! ## Failures and their lexemes -/

namespace Failure

/-- The failure is attributed to one of some lexemes, if to any. -/
def Within (src : Lexeme → Prop) (f : Failure) : Prop := ∀ l ∈ f.lexeme, src l

/-- The failure is one of some failures, and attributed. -/
def Located (F : Failure → Prop) (f : Failure) : Prop := F f ∧ ∃ l, f.lexeme = some l

variable {src : Lexeme → Prop} {f : Failure} {l : Lexeme}

theorem within_unlocated (fault : Fault) : (unlocated fault).Within src := fun _ hl => by cases hl

theorem lexeme_locate (f : Failure) (l : Lexeme) : ∃ l', (f.locate l).lexeme = some l' := by
  obtain ⟨fault, lexeme⟩ := f
  cases lexeme with
  | none => exact ⟨l, rfl⟩
  | some l' => exact ⟨l', rfl⟩

theorem Within.locate (h : f.Within src) (hl : src l) : (f.locate l).Within src := by
  obtain ⟨fault, lexeme⟩ := f
  cases lexeme with
  | none =>
    rintro _ ⟨⟩
    exact hl
  | some l' => exact h

end Failure

/-- The scope that an outcome leaves satisfies `I`, a failure `F`, and a value `V`. -/
def Outcome.Meets {α : Type} (I : Scope → Prop) (F : Failure → Prop) (V : α → Prop) :
    Outcome α → Prop
  | .done value m => V value ∧ I m.scope
  | .failed f m => F f ∧ I m.scope
  | .unfinished => True

namespace Run

variable {α β : Type}

/-- Fails. -/
def failWith (f : Failure) : Run α := fun m => .failed f m

/-- What can be seen of the scope. -/
def inspect (look : Scope → α) : Run α := fun m => .done (look m.scope) m

/-- No condition on a value. -/
abbrev anything (_ : α) : Prop := True

/-- The runs that are put together from primitive activities. -/
inductive Composed (I : Scope → Prop) : {α : Type} → (Failure → Prop) → (α → Prop) → Run α → Prop
  | pure {α : Type} {F : Failure → Prop} {V : α → Prop} {value : α} (hV : V value) :
      Composed I F V (pure value)
  | unfinished {α : Type} {F : Failure → Prop} {V : α → Prop} : Composed I F V unfinished
  | failWith {α : Type} {F : Failure → Prop} {V : α → Prop} {f : Failure} (hF : F f) :
      Composed I F V (failWith f)
  | inspect {α : Type} {F : Failure → Prop} {V : α → Prop} {look : Scope → α}
      (hV : ∀ s, I s → V (look s)) : Composed I F V (inspect look)
  | modifyScope {F : Failure → Prop} {V : Unit → Prop} {change : Scope → Scope}
      (hI : ∀ s, I s → I (change s)) (hV : V ()) : Composed I F V (modifyScope change)
  | read {α : Type} {F : Failure → Prop} {V : α → Prop}
      {reader : Source → Except Fault α × Source}
      (hF : ∀ input fault, (reader input).1 = .error fault → F (.unlocated fault))
      (hV : ∀ value, V value) : Composed I F V (read reader)
  | writeLine {F : Failure → Prop} {V : Unit → Prop} {text : String}
      (hF : ∀ sink : Sink, ∀ fault, (sink.writeLine text).1 = .error fault → F (.unlocated fault))
      (hV : V ()) : Composed I F V (writeLine text)
  | bind {α β : Type} {F : Failure → Prop} {V : α → Prop} {W : β → Prop} {r : Run α}
      {next : α → Run β} (hr : Composed I F V r)
      (hnext : ∀ value, V value → Composed I F W (next value)) : Composed I F W (r >>= next)
  | locate {α : Type} {F G : Failure → Prop} {V : α → Prop} {r : Run α} {l : Lexeme}
      (hr : Composed I F V r) (hF : ∀ f, F f → G (f.locate l)) : Composed I G V (locate l r)
  | afterwards {α : Type} {F : Failure → Prop} {V : α → Prop} {r : Run α} {change : Scope → Scope}
      (hr : Composed I F V r) (hI : ∀ s, I s → I (change s)) :
      Composed I F V (afterwards r change)

variable {I : Scope → Prop} {F G : Failure → Prop} {V W : α → Prop}

theorem Composed.mono {r : Run α} (h : r.Composed I F V) (hF : ∀ f, F f → G f)
    (hV : ∀ value, V value → W value) : r.Composed I G W := by
  induction h generalizing G with
  | pure h => exact .pure (hV _ h)
  | unfinished => exact .unfinished
  | failWith h => exact .failWith (hF _ h)
  | inspect h => exact .inspect fun s hs => hV _ (h s hs)
  | modifyScope hI h => exact .modifyScope hI (hV _ h)
  | read hF' h =>
    exact .read (fun input fault he => hF _ (hF' input fault he)) fun value => hV _ (h value)
  | writeLine hF' h => exact .writeLine (fun sink fault he => hF _ (hF' sink fault he)) (hV _ h)
  | bind _ _ ihr ihnext => exact .bind (ihr hF fun _ => id) fun value h => ihnext value h hF hV
  | locate _ h ih => exact .locate (ih (fun _ => id) hV) fun f hf => hF _ (h f hf)
  | afterwards _ hI ih => exact .afterwards (ih hF hV) hI

/-- How a run is composed is what it does. -/
theorem Composed.meets {r : Run α} (h : r.Composed I F V) {m : Machine} (hm : I m.scope) :
    (r m).Meets I F V := by
  induction h generalizing m with
  | pure hV => exact ⟨hV, hm⟩
  | unfinished => exact trivial
  | failWith hF => exact ⟨hF, hm⟩
  | inspect hV => exact ⟨hV m.scope hm, hm⟩
  | modifyScope hI hV => exact ⟨hV, hI m.scope hm⟩
  | @read _ _ _ reader hF hV =>
    unfold Run.read lift
    dsimp only
    split
    · exact ⟨hV _, hm⟩
    · next fault he => exact ⟨hF _ fault he, hm⟩
  | @writeLine _ _ text hF hV =>
    unfold Run.writeLine lift
    dsimp only
    split
    · exact ⟨hV, hm⟩
    · next fault he => exact ⟨hF _ fault he, hm⟩
  | @bind _ _ _ _ _ r next _ _ ihr ihnext =>
    have hr := ihr hm
    show (Run.bind r next m).Meets I _ _
    unfold Run.bind
    generalize r m = o at hr
    cases o with
    | done value n => exact ihnext value hr.1 hr.2
    | failed f n => exact hr
    | unfinished => exact trivial
  | @locate _ _ _ _ r _ _ hF ih =>
    have hr := ih hm
    unfold Run.locate
    generalize r m = o at hr
    cases o with
    | done value n => exact hr
    | failed f n => exact ⟨hF f hr.1, hr.2⟩
    | unfinished => exact trivial
  | @afterwards _ _ _ r _ _ hI ih =>
    have hr := ih hm
    unfold Run.afterwards
    generalize r m = o at hr
    cases o with
    | done value n => exact ⟨hr.1, hI n.scope hr.2⟩
    | failed f n => exact ⟨hr.1, hI n.scope hr.2⟩
    | unfinished => exact trivial

/-- The invariant holds of the machine that a run leaves. -/
theorem Composed.keeps {r : Run α} {m n : Machine} (hr : r.Composed I F V) (hm : I m.scope)
    (hn : (r m).machine? = some n) : I n.scope := by
  have hmeets := hr.meets hm
  cases hrun : r m with
  | done value k | failed f k =>
    rw [hrun] at hn hmeets
    cases hn
    exact hmeets.2
  | unfinished =>
    rw [hrun] at hn
    cases hn

/-! ## Combinators -/

theorem composed_lift {e : Except Fault α} (hF : ∀ fault, e = .error fault → F (.unlocated fault)) :
    (lift e).Composed I F (e = .ok ·) := by
  cases e with
  | ok value => exact .pure rfl
  | error fault => exact .failWith (hF fault rfl)

theorem composed_lookup (name : String) (hF : F (.unlocated (.undeclared name))) :
    (lookup name).Composed I F fun v => ∃ s, I s ∧ s.find? name = some v := by
  have hlook : (inspect (·.lookup name)).Composed I F fun e =>
      (∃ v, e = .ok v ∧ ∃ s, I s ∧ s.find? name = some v) ∨ e = .error (.undeclared name) := by
    refine .inspect fun s hs => ?_
    unfold Scope.lookup
    cases hfind : s.find? name with
    | none => exact Or.inr rfl
    | some v => exact Or.inl ⟨v, rfl, s, hs, hfind⟩
  have heq : lookup name = inspect (·.lookup name) >>= fun e => lift e := rfl
  rw [heq]
  refine hlook.bind fun e he => ?_
  rcases he with ⟨v, rfl, hv⟩ | rfl
  · exact .pure hv
  · exact .failWith hF

theorem composed_changeScope {change : Scope → Except Fault Scope}
    (hI : ∀ s t, I s → change s = .ok t → I t)
    (hF : ∀ s fault, change s = .error fault → F (.unlocated fault)) :
    (changeScope change).Composed I F anything := by
  have hchange : changeScope change =
      inspect change >>= fun e => lift e >>= fun s => modifyScope fun _ => s := by
    funext m
    show changeScope change m = Run.bind (inspect change) _ m
    unfold changeScope Run.bind inspect
    cases change m.scope <;> rfl
  have hlook : (inspect change).Composed I F fun e => ∃ s, I s ∧ change s = e :=
    .inspect fun s hs => ⟨s, hs, rfl⟩
  rw [hchange]
  refine hlook.bind fun e ⟨s, hs, he⟩ => ?_
  refine (composed_lift fun fault hfault => hF s fault (he.trans hfault)).bind fun t ht => ?_
  exact .modifyScope (fun _ _ => hI s t hs (he.trans ht)) trivial

end Run

end MiniC
