import DecafStatics.Proofs.Transcript

/-!
# What typing and declaring can find

Typing an expression leaves types and links on nodes, and complains about names, sorts of things,
types and arguments, and about nothing else. It takes up no storage and enters no symbol, and what
can be wrong with a declaration, a jump or a return is none of its business. Declaring a variable
enters a symbol or complains about its name or its length, and it types the initial value.

A question about other events than these need not look into expressions or declarations, then: they
answer it with nothing.

## Main definitions

* `Event.OfTyping`, `Event.OfDeclaring` — the events that typing and declaring can leave behind
* `Event.complaintsOf` — the complaints about problems of some sort

## Main results

* `Expr.ofTyping_events`, `VarDecl.ofDeclaring_events` — the events of an expression and of a
  variable are of this sort
-/

namespace DecafStatics

/-- The event can be left behind by typing an expression. -/
inductive Event.OfTyping : Event → Prop where
  | type (id : NodeId) (ty : Ty) : OfTyping (.type id ty)
  | link (id : NodeId) (symbol : SymbolId) : OfTyping (.link id symbol)
  | undeclared (name : String) (id : NodeId) : OfTyping (.complain (.undeclaredIdentifier name) id)
  | mismatch (wanted received : Ty) (id : NodeId) :
      OfTyping (.complain (.typeMismatch wanted received) id)
  | misuse (name : String) (used found : SymbolKind) (id : NodeId) :
      OfTyping (.complain (.kindMismatch name used found) id)
  | misfit (name : String) (expected received : Nat) (id : NodeId) :
      OfTyping (.complain (.parameterMismatch name expected received) id)

/-- The event can be left behind by a declaration. -/
inductive Event.OfDeclaring : Event → Prop where
  | typing {ev : Event} : ev.OfTyping → OfDeclaring ev
  | size (id : NodeId) (words : Nat) : OfDeclaring (.size id words)
  | declare (id : NodeId) (number : SymbolId) (symbol : Symbol) :
      OfDeclaring (.declare id number symbol)
  | duplicate (name : String) (level : Nat) (id : NodeId) :
      OfDeclaring (.complain (.duplicateDeclaration name level) id)
  | hollow (name : String) (length : Int32) (id : NodeId) :
      OfDeclaring (.complain (.invalidArraySize name length) id)

section Typing

variable {Γ : Env} {id : NodeId}

theorem ofTyping_mismatch (wanted : Ty) (received : Option Ty) :
    ∀ ev ∈ mismatch wanted received id, ev.OfTyping := by
  unfold mismatch
  split
  · exact List.forall_mem_nil _
  · split
    · exact List.forall_mem_nil _
    · exact List.forall_mem_singleton.2 (.mismatch ..)

theorem ofTyping_typing (ty : Option Ty) : ∀ ev ∈ typing id ty, ev.OfTyping := by
  cases ty with
  | none => exact List.forall_mem_nil _
  | some ty => exact List.forall_mem_singleton.2 (.type id ty)

theorem ofTyping_reference {name : String} {judge : Binding → List Event}
    (h : ∀ b, ∀ ev ∈ judge b, ev.OfTyping) : ∀ ev ∈ reference Γ id name judge, ev.OfTyping := by
  rw [reference]
  split
  · exact List.forall_mem_singleton.2 (.undeclared ..)
  · exact List.forall_mem_cons.2 ⟨.link .., h _⟩

theorem ofTyping_elim {ty : Option Ty} {judge : Ty → List Event}
    (h : ∀ ty, ∀ ev ∈ judge ty, ev.OfTyping) : ∀ ev ∈ ty.elim [] judge, ev.OfTyping := by
  cases ty with
  | none => exact List.forall_mem_nil _
  | some ty => exact h ty

theorem ofTyping_misuse (name : String) (b : Binding) (used : SymbolKind) :
    ∀ ev ∈ misuse name b used id, ev.OfTyping := by
  rw [misuse]
  split
  · exact List.forall_mem_nil _
  · exact List.forall_mem_singleton.2 (.misuse ..)

theorem ofTyping_misfit (name : String) (b : Binding) (types : List (Option Ty)) :
    ∀ ev ∈ misfit name b types id, ev.OfTyping := by
  rw [misfit]
  split
  · exact List.forall_mem_singleton.2 (.misfit ..)
  · exact List.forall_mem_nil _

namespace Expr

theorem ofTyping_findings (e : Expr) : ∀ ev ∈ e.findings Γ, ev.OfTyping := by
  induction e with
  | literal l => exact List.forall_mem_nil _
  | plain id access name => exact ofTyping_reference fun b => ofTyping_misuse _ _ _
  | element id access name index ih =>
    rw [findings, List.forall_mem_append, List.forall_mem_append]
    refine ⟨⟨ih, ofTyping_typing _⟩, ofTyping_reference fun b => ?_⟩
    exact List.forall_mem_append.2 ⟨ofTyping_misuse _ _ _, ofTyping_mismatch _ _⟩
  | unary id op arity operand ih =>
    rw [findings, List.forall_mem_append, List.forall_mem_append]
    exact ⟨⟨ih, ofTyping_typing _⟩, ofTyping_elim fun ty => ofTyping_mismatch _ _⟩
  | binary id op arity left right ihl ihr =>
    simp only [findings, List.forall_mem_append]
    refine ⟨⟨⟨ihl, ofTyping_typing _⟩, ihr, ofTyping_typing _⟩, ofTyping_elim fun ty => ?_⟩
    exact List.forall_mem_append.2 ⟨ofTyping_mismatch _ _, ofTyping_mismatch _ _⟩
  | call id name arguments ih =>
    have rest : ∀ ev ∈ argumentEvents Γ arguments, ev.OfTyping := by
      rw [argumentEvents_eq]
      refine List.forall_mem_flatMap.2 fun a ha => ?_
      rw [events, List.append_assoc, List.forall_mem_append, List.forall_mem_append]
      exact ⟨ih a ha, ofTyping_typing _, ofTyping_typing _⟩
    rw [findings, List.forall_mem_append]
    refine ⟨rest, ofTyping_reference fun b => ?_⟩
    split
    · exact ofTyping_misfit _ _ _
    · exact List.forall_mem_singleton.2 (.misuse ..)

/-- The events of an expression are of the sort that typing leaves behind. -/
theorem ofTyping_events (e : Expr) : ∀ ev ∈ e.events Γ, ev.OfTyping :=
  List.forall_mem_append.2 ⟨e.ofTyping_findings, ofTyping_typing _⟩

end Expr

theorem ofTyping_conditionEvents (e : Expr) : ∀ ev ∈ conditionEvents Γ e, ev.OfTyping :=
  List.forall_mem_append.2 ⟨e.ofTyping_events, ofTyping_mismatch _ _⟩

theorem ofTyping_assignment (c : Context) (target : Target) (value : Expr) :
    ∀ ev ∈ (Stmt.assignment id target value).events c, ev.OfTyping := by
  simp only [Stmt.events, List.forall_mem_append]
  exact ⟨⟨target.expr.ofTyping_events, value.ofTyping_events⟩,
    ofTyping_elim fun ty => ofTyping_mismatch _ _⟩

theorem ofTyping_shape (ty : Ty) (shape : Shape) : ∀ ev ∈ shape.events ty, ev.OfTyping := by
  cases shape with
  | scalar | array => exact List.forall_mem_nil _
  | initialized value => exact List.forall_mem_cons.2 ⟨.type .., ofTyping_mismatch _ _⟩

/-- A return leaves what typing its value does, and the complaint that there should be a value or
should be none. -/
theorem ofTyping_returnEvents (c : Context) (value : Option Expr) :
    ∀ ev ∈ returnEvents c id value,
      ev.OfTyping ∨ ∃ name, ev = .complain (.invalidReturn name) id := by
  refine List.forall_mem_append.2 ⟨?_, ?_⟩
  · cases value with
    | none => exact List.forall_mem_nil _
    | some e => exact fun ev hev => .inl (e.ofTyping_events ev hev)
  · cases c.method with
    | none => exact List.forall_mem_nil _
    | some enclosing =>
      obtain ⟨name, ty⟩ := enclosing
      have invalid : ∀ ev ∈ [Event.complain (.invalidReturn name) id],
          ev.OfTyping ∨ ∃ name, ev = .complain (.invalidReturn name) id :=
        List.forall_mem_singleton.2 (.inr ⟨name, rfl⟩)
      cases value with
      | none =>
        cases ty with
        | void => exact List.forall_mem_nil _
        | int | bool | string => exact invalid
      | some e =>
        cases ty with
        | void => exact invalid
        | int | bool | string => exact fun ev hev => .inl (ofTyping_mismatch _ _ ev hev)

end Typing

/-! ### Declarations -/

/-- What each of some constructs leaves behind, all of them do. -/
theorem Context.forall_mem_along {α : Type} {events : Context → α → List Event}
    {next : Context → α → Context} {P : Event → Prop}
    (h : ∀ (c : Context) (a : α), ∀ ev ∈ events c a, P ev) (c : Context) (l : List α) :
    ∀ ev ∈ c.along events next l, P ev := by
  induction l generalizing c with
  | nil => exact List.forall_mem_nil _
  | cons a rest ih => exact List.forall_mem_append.2 ⟨h c a, ih (next c a)⟩

theorem Context.ofDeclaring_declaring (c : Context) (node : NodeId) (symbol : Symbol) :
    ∀ ev ∈ c.declaring node symbol, ev.OfDeclaring := by
  rw [declaring]
  split
  · exact List.forall_mem_singleton.2 (.duplicate ..)
  · exact List.forall_mem_singleton.2 (.declare ..)

theorem Context.ofDeclaring_storing (c : Context) (node : NodeId) (name : String) (ty : Ty)
    (kind : SymbolKind) (size : Nat) : ∀ ev ∈ c.storing node name ty kind size, ev.OfDeclaring :=
  List.forall_mem_cons.2 ⟨.size .., c.ofDeclaring_declaring _ _⟩

/-- What is wrong with a variable that cannot be declared at all. -/
theorem problem_of_error {name : String} {length : Option Int32} {problem : Problem}
    (h : Check.variableShape name length = .error problem) :
    ∃ size, problem = .invalidArraySize name size := by
  unfold Check.variableShape at h
  split at h
  · cases h
  · split at h
    · cases h
      exact ⟨_, rfl⟩
    · cases h

theorem VarDecl.ofDeclaring_events (c : Context) (d : VarDecl) :
    ∀ ev ∈ d.events c, ev.OfDeclaring := by
  rw [events]
  split
  · rename_i problem hshape
    obtain ⟨size, rfl⟩ := problem_of_error hshape
    exact List.forall_mem_singleton.2 (.hollow ..)
  · exact List.forall_mem_append.2 ⟨c.ofDeclaring_storing _ _ _ _ _, fun ev hev =>
      .typing (ofTyping_shape d.ty d.shape ev hev)⟩

theorem VarDecl.ofDeclaring_along (c : Context) (ds : List VarDecl) :
    ∀ ev ∈ c.along events next ds, ev.OfDeclaring :=
  Context.forall_mem_along ofDeclaring_events c ds

theorem Param.ofDeclaring_along (c : Context) (params : List Param) :
    ∀ ev ∈ c.along events next params, ev.OfDeclaring :=
  Context.forall_mem_along (fun c _ => c.ofDeclaring_storing _ _ _ _ _) c params

/-! ### Complaints of one sort -/

namespace Event

/-- The complaints about the problems that `choose` picks, in their order. -/
def complaintsOf (choose : Problem → Bool) (es : List Event) : List (Problem × NodeId) :=
  (complaints es).filter fun x => choose x.1

variable {choose : Problem → Bool} {es fs : List Event}

theorem complaintsOf_eq_filterMap (choose : Problem → Bool) (es : List Event) :
    complaintsOf choose es = es.filterMap fun ev => ev.complaint?.filter fun x => choose x.1 :=
  List.filter_filterMap

@[simp] theorem complaintsOf_append :
    complaintsOf choose (es ++ fs) = complaintsOf choose es ++ complaintsOf choose fs := by
  simp [complaintsOf]

theorem complaintsOf_eq_nil (h : ∀ problem id, .complain problem id ∈ es → choose problem = false) :
    complaintsOf choose es = [] := by
  refine List.filter_eq_nil_iff.2 fun x hx => ?_
  obtain ⟨ev, hev, hx⟩ := List.mem_filterMap.1 hx
  cases ev with
  | complain problem id =>
    cases hx
    simp [h problem id hev]
  | type | link | size | declare => cases hx

end Event

section Sorts

variable {choose : Problem → Bool} {Γ : Env} {id : NodeId}

@[simp] theorem complaints_typing (ty : Option Ty) : Event.complaints (typing id ty) = [] := by
  cases ty <;> rfl

@[simp] theorem complaintsOf_typing (ty : Option Ty) :
    Event.complaintsOf choose (typing id ty) = [] := by
  rw [Event.complaintsOf, complaints_typing, List.filter_nil]

theorem complaintsOf_mismatch
    (h : ∀ wanted received, choose (.typeMismatch wanted received) = false) (wanted : Ty)
    (received : Option Ty) : Event.complaintsOf choose (mismatch wanted received id) = [] := by
  unfold mismatch
  split
  · rfl
  · split
    · rfl
    · simp [Event.complaintsOf, Event.complaint?, h]

theorem complaintsOf_elim {ty : Option Ty} {judge : Ty → List Event} :
    Event.complaintsOf choose (ty.elim [] judge) =
      ty.elim [] fun ty => Event.complaintsOf choose (judge ty) := by
  cases ty <;> rfl

theorem complaintsOf_misuse {name : String} {used : SymbolKind}
    (h : ∀ found, choose (.kindMismatch name used found) = false) (b : Binding) :
    Event.complaintsOf choose (misuse name b used id) = [] := by
  rw [misuse]
  split
  · rfl
  · simp [Event.complaintsOf, Event.complaint?, h]

theorem complaintsOf_reference {name : String} (h : choose (.undeclaredIdentifier name) = false)
    {judge : Binding → List Event} : Event.complaintsOf choose (reference Γ id name judge) =
      (Γ name).elim [] fun b => Event.complaintsOf choose (judge b) := by
  rw [reference]
  cases Γ name with
  | none => simp [Event.complaintsOf, Event.complaint?, h]
  | some b => simp [Event.complaintsOf, Event.complaint?]

end Sorts

end DecafStatics
