import DecafStatics.Proofs.Scoping
import DecafStatics.Proofs.Transcript

/-!
# The current scope

A check knows no scopes, only levels: a name is taken if something in sight of the current level has
it. `Context.Scoped` says that these are the names that the declarations of the current scope have
taken so far.

## Main definitions

* `Context.Scoped` — what the current scope declares so far

## Main results

* `Declaration.succeeds_iff` — which declaration of a scope has success
* `VarDecl.scoped_next`, `Method.scoped_next` — the scope behind a declaration
* `Program.scoped_afterFields` — the global scope behind the fields
-/

namespace DecafStatics

/-- A declaration behind the others has success if it is one, and none before it had. -/
theorem successful_append (scope : List Declaration) (d : Declaration) (name : String) :
    successful (scope ++ [d]) name =
      (successful scope name).or (if d.valid ∧ d.name = name then some d else none) := by
  unfold successful
  rw [List.find?_append]
  by_cases h : d.valid ∧ d.name = name
  · rw [List.find?_cons_of_pos (by simpa using h), if_pos h]
  · rw [List.find?_cons_of_neg (by simpa using h), if_neg h]
    rfl

/-- A declaration has success if it is one, and none before it had. -/
theorem Declaration.succeeds_iff {before after : List Declaration} {d : Declaration}
    (h : ((before ++ d :: after).map Declaration.id).Nodup) :
    d.Succeeds (before ++ d :: after) ↔ d.valid ∧ successful before d.name = none := by
  have split : before ++ d :: after = before ++ [d] ++ after := by simp
  have whole : successful (before ++ d :: after) d.name =
      (successful (before ++ [d]) d.name).or (successful after d.name) := by
    rw [split]
    exact List.find?_append
  rw [Succeeds, whole, successful_append]
  cases hbefore : successful before d.name with
  | none =>
    cases hd : d.valid with
    | true => simp
    | false =>
      have later : successful after d.name ≠ some d := by
        intro h
        have valid := List.find?_some h
        simp [hd] at valid
      simpa using later
  | some first =>
    have ne : first ≠ d := by
      rintro rfl
      rw [List.map_append, List.nodup_append] at h
      exact h.2.2 first.id (List.mem_map_of_mem (List.mem_of_find?_eq_some hbefore)) first.id
        (List.mem_cons_self ..) rfl
    simpa using ne

namespace Context

/-- The names that are taken are those that the declarations `current` took. -/
structure Scoped (c : Context) (current : List Declaration) : Prop where
  taken : ∀ name, c.Taken name ↔ (successful current name).isSome
  opened : c.Opened

/-- In a new scope nothing is declared so far. -/
theorem Opened.inner {c : Context} (h : c.Opened) : c.inner.Scoped [] where
  taken := by
    intro name
    refine iff_of_false ?_ (by simp [successful])
    rintro ⟨b, hb, hlevel, -⟩
    exact absurd (h b hb) (by rw [hlevel]; exact Nat.not_succ_le_self c.level)
  opened := fun b hb => Nat.le_succ_of_le (h b hb)

theorem opened_declare {c : Context} (h : c.Opened) {node : NodeId} {symbol : Symbol}
    (hlevel : symbol.level = c.level) (formals : List Ty) :
    (c.declare node symbol formals).Opened := by
  rw [declare]
  split
  · exact h
  · exact List.forall_mem_cons.2 ⟨Nat.le_of_eq hlevel, h⟩

namespace Scoped

variable {c c' : Context} {current : List Declaration} {node : NodeId} {symbol : Symbol}

theorem not_taken_iff (h : c.Scoped current) {name : String} :
    ¬ c.Taken name ↔ successful current name = none := by
  rw [h.taken, Option.not_isSome_iff_eq_none]

/-- Whether the next declaration has success shows in what is taken. -/
theorem succeeds_iff (h : c.Scoped current) {scope after : List Declaration} {d : Declaration}
    (hscope : scope = current ++ d :: after) (hnodup : (scope.map Declaration.id).Nodup) :
    d.Succeeds scope ↔ d.valid ∧ ¬ c.Taken d.name := by
  subst hscope
  rw [h.not_taken_iff]
  exact Declaration.succeeds_iff hnodup

/-- Only the level and what is in sight matter. -/
theorem congr (h : c.Scoped current) (hb : c'.bindings = c.bindings) (hl : c'.level = c.level) :
    c'.Scoped current where
  taken := by
    unfold Taken
    rw [hb, hl]
    exact h.taken
  opened := by
    rw [Opened]
    rw [hb, hl]
    exact h.opened

theorem start : Context.start.Scoped [] where
  taken := by simp [Taken, Context.start, successful]
  opened := opened_start

/-- A declaration that is none, or comes too late, has no success. -/
theorem successful_append_eq (h : c.Scoped current) {d : Declaration}
    (hd : d.valid → c.Taken d.name) (name : String) :
    successful (current ++ [d]) name = successful current name := by
  rw [successful_append]
  split
  · rename_i hname
    obtain ⟨first, hfirst⟩ := Option.isSome_iff_exists.1 ((h.taken name).1 (hname.2 ▸ hd hname.1))
    rw [hfirst, Option.some_or]
  · exact Option.or_none

theorem append (h : c.Scoped current) {d : Declaration} (hd : d.valid → c.Taken d.name) :
    c.Scoped (current ++ [d]) where
  taken := by simpa only [h.successful_append_eq hd] using h.taken
  opened := h.opened

/-- Behind the declaration of a symbol, whether its name was free or not. -/
theorem declare (h : c.Scoped current) (hlevel : symbol.level = c.level) (formals : List Ty) :
    (c.declare node symbol formals).Scoped (current ++ [⟨node, symbol.name, true⟩]) := by
  by_cases htaken : c.Taken symbol.name
  · rw [declare_of_taken htaken]
    exact h.append fun _ => htaken
  · rw [declare_of_not_taken htaken]
    have free := h.not_taken_iff.1 htaken
    constructor
    · intro name
      have old := h.taken name
      rw [successful_append]
      by_cases hname : symbol.name = name
      · subst hname
        simp [free, Taken, hlevel]
      · simpa [hname, Taken] using old
    · exact List.forall_mem_cons.2 ⟨Nat.le_of_eq hlevel, h.opened⟩

theorem store (h : c.Scoped current) (name : String) (ty : Ty) (kind : SymbolKind) (size : Nat) :
    (c.store node name ty kind size).Scoped (current ++ [⟨node, name, true⟩]) := by
  have declared : (c.declare node (c.stored name ty kind size) []).Scoped
      (current ++ [⟨node, name, true⟩]) := h.declare rfl []
  rw [Context.store]
  split
  · rename_i htaken
    exact h.append fun _ => htaken
  · exact declared.congr rfl rfl

/-- Behind declarations one after the other. -/
theorem along {α : Type} {next : Context → α → Context} {declaration : α → Declaration}
    (step : ∀ (c : Context) (a : α) (current : List Declaration), c.Scoped current →
      (next c a).Scoped (current ++ [declaration a]))
    (h : c.Scoped current) (l : List α) :
    (l.foldl next c).Scoped (current ++ l.map declaration) := by
  induction l generalizing c current with
  | nil => simpa using h
  | cons a rest ih => simpa using ih (step c a current h)

end Scoped

end Context

/-! ### Declarations -/

section Declarations

variable {c : Context} {current : List Declaration}

/-- The declaration of a variable is one if the variable has a shape. -/
theorem VarDecl.isOk_variableShape (d : VarDecl) :
    (Check.variableShape d.name d.shape.length).isOk = d.declaration.valid := by
  rw [declaration]
  cases d.shape with
  | scalar => rfl
  | array id length =>
    by_cases h : length < 1
    · simp [Shape.length, Check.variableShape, h, Except.isOk, Except.toBool, Int32.not_le.2 h]
    · simp [Shape.length, Check.variableShape, h, Except.isOk, Except.toBool, Int32.not_lt.1 h]
  | initialized value => rfl

theorem VarDecl.not_valid_of_error {d : VarDecl} {problem : Problem}
    (h : Check.variableShape d.name d.shape.length = .error problem) :
    d.declaration.valid = false := by
  rw [← d.isOk_variableShape, h]
  rfl

theorem VarDecl.declaration_of_ok {d : VarDecl} {shape : SymbolKind × Nat}
    (h : Check.variableShape d.name d.shape.length = .ok shape) :
    d.declaration = ⟨d.id, d.name, true⟩ := by
  have valid := d.isOk_variableShape
  rw [h] at valid
  exact congrArg (Declaration.mk d.id d.name) valid.symm

theorem VarDecl.scoped_next (h : c.Scoped current) (d : VarDecl) :
    (d.next c).Scoped (current ++ [d.declaration]) := by
  rw [next]
  split
  · rename_i problem hshape
    exact h.append fun valid => absurd valid (by simp [not_valid_of_error hshape])
  · rename_i kind size hshape
    rw [declaration_of_ok hshape]
    exact h.store ..

theorem Param.scoped_next (h : c.Scoped current) (param : Param) :
    (param.next c).Scoped (current ++ [param.declaration]) := h.store ..

theorem Extern.scoped_next (h : c.Scoped current) (e : Extern) :
    (e.next c).Scoped (current ++ [e.declaration]) := h.declare rfl _

/-- In the scope of a method nothing is declared so far, wherever the method stands. -/
theorem Method.scoped_scope (h : c.Opened) (m : Method) : (m.scope c).Scoped [] := by
  have named : (c.declare m.id (m.symbol c frameHeaderWords) m.formals).Opened :=
    Context.opened_declare h rfl m.formals
  refine named.inner.congr rfl ?_
  show c.level + 1 = _ + 1
  rw [Context.level_declare]

theorem Method.scoped_next (h : c.Scoped current) (m : Method) :
    (m.next c).Scoped (current ++ [m.declaration]) := by
  have named : (c.declare m.id (m.symbol c (m.words c)) m.formals).Scoped
      (current ++ [m.declaration]) := h.declare rfl m.formals
  exact named.congr rfl rfl

namespace Program

theorem scoped_afterName (p : Program) : p.afterName.Scoped
    (p.externs.map Extern.declaration ++ [⟨p.package, p.name, true⟩]) := by
  have externs : p.afterExterns.Scoped (p.externs.map Extern.declaration) :=
    Context.Scoped.start.along (fun c e current h => e.scoped_next h) p.externs
  exact externs.declare rfl []

theorem scoped_afterFields (p : Program) : p.afterFields.Scoped p.declarations := by
  have fields : p.afterFields.Scoped _ :=
    p.scoped_afterName.along (fun c d current h => d.scoped_next h) p.fields
  simpa [declarations] using fields

end Program

end Declarations

end DecafStatics
