import MiniC.Proofs.Eval.Pure
import MiniC.Proofs.Eval.Steps

/-!
# Compound assignment

What it takes for an expression or an assignment to succeed, said without the steps that are granted
(`gives_binary`, `gives_place`, `gives_assignment`).  A compound assignment has the same parts as the
plain assignment that it abbreviates, in another order; without calls the order does not matter.
Main statement: `compound_assignment`.
-/

namespace MiniC

open Run

variable {m n : Machine}

/-! ## Storing -/

/-- A compound assignment computes with the slot first, and then stores what it computed. -/
theorem Value.assigned_compound {current new updated : Value} {op : BinaryOp} :
    current.assigned (.compound op) new = .ok updated ↔
      ∃ w, Value.binary op current new = .ok w ∧ current.assigned .plain w = .ok updated := by
  unfold assigned
  cases current.typeName? with
  | none => simp
  | some type =>
    by_cases hscalar : current.isScalar = true
    · simp only [hscalar, if_true]
      cases binary op current new with
      | error fault => simp [Except.bind]
      | ok w => simp [Except.bind]
    · simp [hscalar]

theorem Run.assign_done {l : Lexeme} {name : String} {path : List Int64} {op : AssignOp}
    {new : Value} :
    Run.assign l name path op new m = .done () n ↔
      ∃ v current updated, m.scope.find? name = some v ∧ v.atPath path = .ok current ∧
        current.assigned op new = .ok updated ∧ m.store name path updated = n := by
  rw [Run.assign_eq]
  cases m.scope.find? name with
  | none => simp
  | some v =>
    cases hcurrent : v.atPath path with
    | error fault => simp [hcurrent]
    | ok current =>
      cases hupdated : current.assigned op new with
      | error fault => simp [hcurrent, hupdated]
      | ok updated => simp [hcurrent, hupdated]

/-! ## Success of expressions and assignments -/

theorem gives_binary {op : BinaryOp} {left right : Expr} {l : Lexeme} {w : Value} :
    Gives (eval · (.binary op left right l)) m w n ↔
      ∃ u k v, Gives (eval · left) m u k ∧ Gives (eval · right) k v n ∧
        Value.binary op u v = .ok w := by
  have hsucc : ∀ steps, eval (steps + 1) (.binary op left right l) =
      locate l (eval steps left >>= fun u => eval steps right >>= fun v =>
        lift (Value.binary op u v)) := fun _ => rfl
  have hright : ∀ u : Value, Grows fun steps => eval steps right >>= fun v =>
      lift (Value.binary op u v) := fun u =>
    (grows_eval right).bind fun v => grows_const (lift (Value.binary op u v))
  rw [gives_succ rfl hsucc, gives_locate, gives_bind (grows_eval left) hright]
  simp only [gives_bind_const]
  constructor
  · rintro ⟨u, k, hu, v, k', hv, hlift⟩
    obtain ⟨hw, rfl⟩ := lift_done hlift
    exact ⟨u, k, v, hu, hv, hw⟩
  · rintro ⟨u, k, v, hu, hv, hw⟩
    refine ⟨u, k, hu, v, n, hv, ?_⟩
    rw [hw]
    rfl

theorem gives_place {t : Place} {w : Value} :
    Gives (eval · t.read) m w n ↔
      ∃ path v, Gives (fun steps => each (evalIndex (eval steps)) t.indices) m path n ∧
        n.scope.find? t.name = some v ∧ v.atPath path = .ok w := by
  have hsucc : ∀ steps, eval (steps + 1) t.read =
      locate t.lexeme (each (evalIndex (eval steps)) t.indices >>= fun path =>
        lookup t.name >>= fun v => lift (v.atPath path)) := fun _ => rfl
  rw [gives_succ rfl hsucc, gives_locate, gives_bind_const]
  constructor
  · rintro ⟨path, k, hpath, hread⟩
    obtain ⟨v, k', hlookup, hlift⟩ := bind_done hread
    obtain ⟨hv, rfl⟩ := lookup_done hlookup
    obtain ⟨hw, rfl⟩ := lift_done hlift
    exact ⟨path, v, hpath, hv, hw⟩
  · rintro ⟨path, v, hpath, hv, hw⟩
    refine ⟨path, n, hpath, ?_⟩
    rw [bind_of_done (lookup_of_find? hv), hw]
    rfl

theorem gives_assignment {t : Place} {op : AssignOp} {e : Expr} {l : Lexeme} :
    Gives (exec · (.simple (.assignment t op e l))) m .normal n ↔
      ∃ new k path k', Gives (eval · e) m new k ∧
        Gives (fun steps => each (evalIndex (eval steps)) t.indices) k path k' ∧
        Run.assign t.lexeme t.name path op new k' = .done () n := by
  have hsucc : ∀ steps, exec (steps + 1) (.simple (.assignment t op e l)) =
      locate l (eval steps e >>= fun new => each (evalIndex (eval steps)) t.indices >>= fun path =>
        Run.assign t.lexeme t.name path op new) >>= fun _ => pure .normal := by
    intro steps
    rw [← execAssignment_eq]
    rfl
  have hindices : ∀ new : Value, Grows fun steps => each (evalIndex (eval steps)) t.indices >>=
      fun path => Run.assign t.lexeme t.name path op new := fun new =>
    (grows_each_index t.indices).bind fun path => grows_const _
  rw [gives_succ rfl hsucc, gives_bind_const]
  simp only [gives_locate, gives_bind (grows_eval e) hindices, gives_bind_const]
  constructor
  · rintro ⟨⟨⟩, k'', ⟨new, k, hnew, path, k', hpath, hassign⟩, hpure⟩
    obtain ⟨-, rfl⟩ := pure_done hpure
    exact ⟨new, k, path, k', hnew, hpath, hassign⟩
  · rintro ⟨new, k, path, k', hnew, hpath, hassign⟩
    exact ⟨(), n, ⟨new, k, hnew, path, k', hpath, hassign⟩, rfl⟩

/-! ## Without calls -/

theorem Run.Gives.of_pure {α : Type} {r : Nat → Run α} {value : α} (h : Gives r m value n)
    (hr : ∀ steps, (r steps).Pure) : n = m := by
  obtain ⟨steps, hsteps⟩ := h
  exact (hr steps).of_done hsteps

/-- Without calls all operands of an assignment are evaluated in the machine that it begins with. -/
theorem gives_assignment_of_callFree {t : Place} {e : Expr} (ht : t.read.CallFree)
    (he : e.CallFree) {op : AssignOp} {l : Lexeme} :
    Gives (exec · (.simple (.assignment t op e l))) m .normal n ↔
      ∃ new path v current updated, Gives (eval · e) m new m ∧
        Gives (fun steps => each (evalIndex (eval steps)) t.indices) m path m ∧
        m.scope.find? t.name = some v ∧ v.atPath path = .ok current ∧
        current.assigned op new = .ok updated ∧ m.store t.name path updated = n := by
  rw [gives_assignment]
  constructor
  · rintro ⟨new, k, path, k', hnew, hpath, hassign⟩
    obtain rfl : k = m := hnew.of_pure fun steps => eval_pure steps he
    obtain rfl : k' = k := hpath.of_pure fun steps =>
      each_index_pure fun i hi => eval_pure steps (ht.index hi)
    obtain ⟨v, current, updated, hstore⟩ := assign_done.1 hassign
    exact ⟨new, path, v, current, updated, hnew, hpath, hstore⟩
  · rintro ⟨new, path, v, current, updated, hnew, hpath, hstore⟩
    exact ⟨new, m, path, m, hnew, hpath, assign_done.2 ⟨v, current, updated, hstore⟩⟩

/-- Compound assignment means what it abbreviates.  If neither the indices of a place nor an
expression contains a call, then in every state the assignment with an operator succeeds if and only
if the plain one succeeds that applies the operator to the place and the expression, and then both
leave the same machine. -/
theorem compound_assignment {t : Place} {e : Expr} (ht : t.read.CallFree) (he : e.CallFree)
    (op : BinaryOp) (l l' l'' : Lexeme) (m n : Machine) :
    (∃ steps, exec steps (.simple (.assignment t (.compound op) e l)) m = .done .normal n) ↔
      ∃ steps, exec steps (.simple (.assignment t .plain (.binary op t.read e l') l'')) m =
        .done .normal n := by
  show Gives (exec · _) m .normal n ↔ Gives (exec · _) m .normal n
  rw [gives_assignment_of_callFree ht he, gives_assignment_of_callFree ht (ht.binary he)]
  constructor
  · rintro ⟨new, path, v, current, updated, hnew, hpath, hv, hcurrent, hupdated, hstore⟩
    obtain ⟨w, hw, hplain⟩ := Value.assigned_compound.1 hupdated
    have hread : Gives (eval · t.read) m current m := gives_place.2 ⟨path, v, hpath, hv, hcurrent⟩
    have hvalue : Gives (eval · (.binary op t.read e l')) m w m :=
      gives_binary.2 ⟨current, m, new, hread, hnew, hw⟩
    exact ⟨w, path, v, current, updated, hvalue, hpath, hv, hcurrent, hplain, hstore⟩
  · rintro ⟨w, path, v, current, updated, hvalue, hpath, hv, hcurrent, hplain, hstore⟩
    obtain ⟨current', k, new, hread, hnew, hw⟩ := gives_binary.1 hvalue
    obtain rfl : k = m := hread.of_pure fun steps => eval_pure steps ht
    -- both sides read the same slot
    obtain ⟨path', v', hpath', hv', hcurrent'⟩ := gives_place.1 hread
    obtain ⟨rfl, -⟩ := hpath.unique (grows_each_index t.indices) hpath'
    rw [hv] at hv'
    cases hv'
    rw [hcurrent] at hcurrent'
    cases hcurrent'
    have hupdated := Value.assigned_compound.2 ⟨w, hw, hplain⟩
    exact ⟨new, path, v, current, updated, hnew, hpath, hv, hcurrent, hupdated, hstore⟩

/-- An element of a float array, selected by a variable: the element is added to an int. -/
theorem element_compound_assignment :
    let l := Lexeme.absent
    let t : Place := ⟨"a", [some (.variable "i" [] l)], l⟩
    let e : Expr := .variable "i" [] l
    let frame : Frame := ⟨[("i", .int 1), ("a", .array #[.float 0.5, .float 2.5])]⟩
    let m : Machine := ⟨⟨frame, [], []⟩, ⟨⟨[]⟩, .unlimited⟩⟩
    t.read.CallFree ∧ e.CallFree ∧
      ∃ n, (∃ steps, exec steps (.simple (.assignment t (.compound .add) e l)) m =
          .done .normal n) ∧
        ∃ steps, exec steps (.simple (.assignment t .plain (.binary .add t.read e l) l)) m =
          .done .normal n := by
  intro l t e frame m
  have ht : t.read.CallFree := by decide
  have he : e.CallFree := by decide
  obtain ⟨n, hn⟩ : ∃ n, exec 4 (.simple (.assignment t (.compound .add) e l)) m =
      .done .normal n := ⟨_, rfl⟩
  exact ⟨ht, he, n, ⟨4, hn⟩, (compound_assignment ht he .add l l l m n).1 ⟨4, hn⟩⟩

end MiniC
