import DecafStatics.Proofs.Rechecking
import DecafStatics.Proofs.Renaming

/-!
# Two checks side by side

A construct is checked twice, the second time with its nodes renamed and among other symbols of the
same names. The two transcripts tell the same story then: event by event, the second one is about
the renamed node, and says the same of it. Only the numbers of symbols may differ, since these go by
how many symbols there were before.

## Implementation notes

The two contexts have to agree on all that a check may look at, which is everything but the numbers
of the symbols in sight and their sizes. The sizes are compared nevertheless, for the sake of what
is in sight in the end, except for those of some nodes that are set apart.

## Main definitions

* `Event.Parallels`, `Parallel` — events about renamed nodes
* `Binding.Parallels`, `Context.Parallels` — symbols and contexts that differ in numbers only
* `Node.Alike` — nodes at the same place with the same type and size

## Main results

* `Stmt.parallel_events`, `Method.parallel`, `Program.parallel` — the transcripts of two checks
* `Parallel.complaints_eq`, `Parallel.alike_marked` — what is reported, and the marks on a node
-/

namespace DecafStatics

def Symbol.rename (ρ : NodeId → NodeId) (e : Symbol) : Symbol := { e with params := e.params.map ρ }

/-- The second event is the first one about the renamed node, but for numbers of symbols. -/
inductive Event.Parallels (ρ : NodeId → NodeId) : Event → Event → Prop
  | type (id : NodeId) (ty : Ty) : Parallels ρ (.type id ty) (.type (ρ id) ty)
  | link (id : NodeId) (number number' : SymbolId) :
      Parallels ρ (.link id number) (.link (ρ id) number')
  | size (id : NodeId) (words : Nat) : Parallels ρ (.size id words) (.size (ρ id) words)
  | declare (id : NodeId) (number number' : SymbolId) (symbol : Symbol) :
      Parallels ρ (.declare id number symbol) (.declare (ρ id) number' (symbol.rename ρ))
  | complain (problem : Problem) (id : NodeId) :
      Parallels ρ (.complain problem id) (.complain problem (ρ id))

/-- Event by event, the second list parallels the first. -/
def Parallel (ρ : NodeId → NodeId) : List Event → List Event → Prop :=
  List.Forall₂ (Event.Parallels ρ)

/-- The second binding is the first one with its nodes renamed, but for its number. The size is
the same unless the node is one of those that are set apart. -/
structure Binding.Parallels (ρ : NodeId → NodeId) (apart : NodeId → Prop) (b b' : Binding) :
    Prop where
  node : b'.node = ρ b.node
  symbol : b'.symbol = { b.symbol.rename ρ with size := b'.symbol.size }
  size : ¬ apart b.node → b'.symbol.size = b.symbol.size
  formals : b'.formals = b.formals

/-- Each name denotes the same in both environments, or nothing in either. -/
def Env.Parallels (ρ : NodeId → NodeId) (apart : NodeId → Prop) (Γ Γ' : Env) : Prop :=
  ∀ name, Option.Rel (Binding.Parallels ρ apart) (Γ name) (Γ' name)

/-- The two contexts are the same place, but for the numbers of symbols. -/
structure Context.Parallels (ρ : NodeId → NodeId) (apart : NodeId → Prop) (c c' : Context) :
    Prop where
  bindings : List.Forall₂ (Binding.Parallels ρ apart) c.bindings c'.bindings
  level : c'.level = c.level
  frame : c'.frame = c.frame
  loops : c'.loops = c.loops
  method : c'.method = c.method

/-- The two nodes stand at the same place, with the same type and the same words of storage. -/
structure Node.Alike (n n' : Node) : Prop where
  position : n'.position = n.position
  ty : n'.ty = n.ty
  size : n'.size = n.size

variable {ρ : NodeId → NodeId} {apart : NodeId → Prop}

/-! ### Parallel events -/

namespace Event.Parallels

variable {e e' : Event} (h : e.Parallels ρ e')

include h

theorem node_eq : e'.node = ρ e.node := by cases h <;> rfl

/-- The marks of two events keep two nodes alike. -/
theorem alike_mark {n n' : Node} (hn : n.Alike n') : (e.mark n).Alike (e'.mark n') := by
  cases h with
  | type id ty => exact ⟨hn.position, rfl, hn.size⟩
  | link id number number' => exact ⟨hn.position, hn.ty, hn.size⟩
  | size id words => exact ⟨hn.position, hn.ty, rfl⟩
  | declare id number number' symbol => exact ⟨hn.position, hn.ty, hn.size⟩
  | complain problem id => exact hn

end Event.Parallels

namespace Parallel

variable {es es' fs fs' : List Event}

theorem nil : Parallel ρ [] [] := List.Forall₂.nil

theorem append (h : Parallel ρ es es') (h' : Parallel ρ fs fs') :
    Parallel ρ (es ++ fs) (es' ++ fs') :=
  List.rel_append h h'

theorem singleton {e e' : Event} (h : e.Parallels ρ e') : Parallel ρ [e] [e'] := .cons h .nil

/-- The same is reported, about the renamed nodes. -/
theorem complaints_eq (h : Parallel ρ es es') :
    Event.complaints es' = (Event.complaints es).map fun x => (x.1, ρ x.2) := by
  induction h with
  | nil => rfl
  | cons he _ ih =>
    rw [Event.complaints_cons, Event.complaints_cons, List.map_append, ih]
    cases he <;> rfl

/-- The same symbols are entered. -/
theorem declared_eq (h : Parallel ρ es es') :
    Event.declared es' = (Event.declared es).map (Symbol.rename ρ) := by
  induction h with
  | nil => rfl
  | cons he _ ih =>
    rw [Event.declared_cons, Event.declared_cons, List.map_append, ih]
    cases he <;> rfl

/-- The symbols reach equally far. -/
theorem extent_eq (h : Parallel ρ es es') :
    extent (Event.declared es') = extent (Event.declared es) := by
  rw [h.declared_eq]
  induction Event.declared es with
  | nil => rfl
  | cons e rest ih =>
    rw [List.map_cons, extent_cons, extent_cons, ih]
    rfl

/-- Nodes that are alike still are, if the other one is the only node of that name. -/
theorem alike_marked (h : Parallel ρ es es') {id : NodeId} {n n' : Node} (hn : n.Alike n')
    (hρ : ∀ e ∈ es, ρ e.node = ρ id → e.node = id) :
    (n.marked id es).Alike (n'.marked (ρ id) es') := by
  induction h generalizing n n' with
  | nil => exact hn
  | @cons e e' es es' he _ ih =>
    obtain ⟨hid, hρ⟩ := List.forall_mem_cons.1 hρ
    rw [← List.singleton_append, ← List.singleton_append (l := es'), Node.marked_append,
      Node.marked_append]
    refine ih ?_ hρ
    by_cases heq : e.node = id
    · rw [← heq, Node.marked_self, ← he.node_eq, Node.marked_self]
      exact he.alike_mark hn
    · have other : e'.node ≠ ρ id := fun h => heq (hid (he.node_eq ▸ h))
      rwa [Node.marked_of_not_mem (by simpa using heq),
        Node.marked_of_not_mem (by simpa using other)]

end Parallel

/-! ### Expressions -/

section Judgements

variable {id : NodeId}

theorem parallel_mismatch (wanted : Ty) (received : Option Ty) :
    Parallel ρ (mismatch wanted received id) (mismatch wanted received (ρ id)) := by
  unfold mismatch
  split
  · exact .nil
  · split
    · exact .nil
    · exact .singleton (.complain ..)

theorem parallel_typing (ty : Option Ty) : Parallel ρ (typing id ty) (typing (ρ id) ty) := by
  cases ty with
  | none => exact .nil
  | some ty => exact .singleton (.type ..)

theorem parallel_elim {ty : Option Ty} {judge judge' : Ty → List Event}
    (h : ∀ ty, Parallel ρ (judge ty) (judge' ty)) :
    Parallel ρ (ty.elim [] judge) (ty.elim [] judge') := by
  cases ty with
  | none => exact .nil
  | some ty => exact h ty

end Judgements

namespace Binding.Parallels

variable {b b' : Binding} (h : b.Parallels ρ apart b')

include h

theorem name : b'.symbol.name = b.symbol.name := (congrArg Symbol.name h.symbol :)

theorem ty : b'.symbol.ty = b.symbol.ty := (congrArg Symbol.ty h.symbol :)

theorem kind : b'.symbol.kind = b.symbol.kind := (congrArg Symbol.kind h.symbol :)

theorem level : b'.symbol.level = b.symbol.level := (congrArg Symbol.level h.symbol :)

theorem misuse {id : NodeId} (name : String) (used : SymbolKind) :
    Parallel ρ (DecafStatics.misuse name b used id) (DecafStatics.misuse name b' used (ρ id)) := by
  rw [DecafStatics.misuse, DecafStatics.misuse, h.kind]
  split
  · exact .nil
  · exact .singleton (.complain ..)

theorem misfit {id : NodeId} (name : String) (types : List (Option Ty)) :
    Parallel ρ (DecafStatics.misfit name b types id)
      (DecafStatics.misfit name b' types (ρ id)) := by
  rw [DecafStatics.misfit, DecafStatics.misfit, h.formals]
  split
  · exact .singleton (.complain ..)
  · exact .nil

end Binding.Parallels

namespace Expr

variable {Γ Γ' : Env} (hΓ : Γ.Parallels ρ apart Γ')

include hΓ

theorem parallel_reference {id : NodeId} (name : String) {judge judge' : Binding → List Event}
    (h : ∀ b b', b.Parallels ρ apart b' → Parallel ρ (judge b) (judge' b')) :
    Parallel ρ (reference Γ id name judge) (reference Γ' (ρ id) name judge') := by
  have found := hΓ name
  rw [reference, reference]
  generalize Γ name = o, Γ' name = o' at found
  cases found with
  | none => exact .singleton (.complain ..)
  | some hb => exact .cons (.link ..) (h _ _ hb)

theorem type_rename (e : Expr) : (e.rename ρ).type Γ' = e.type Γ := by
  have named : ∀ name,
      ((Γ' name).map fun b => b.symbol.ty) = (Γ name).map fun b => b.symbol.ty := by
    intro name
    have found := hΓ name
    generalize Γ name = o, Γ' name = o' at found
    cases found with
    | none => rfl
    | some hb => exact congrArg some hb.ty
  cases e with
  | literal l => exact congrArg some l.ty_rename
  | plain id access name => exact named name
  | element id access name index => exact named name
  | unary | binary => rfl
  | call id name arguments =>
    have found := hΓ name
    rw [rename, type, type]
    generalize Γ name = o, Γ' name = o' at found
    cases found with
    | none => rfl
    | some hb => simp [hb.kind, hb.ty]

theorem parallel_findings (e : Expr) :
    Parallel ρ (e.findings Γ) ((e.rename ρ).findings Γ') := by
  induction e with
  | literal l => exact .nil
  | plain id access name => exact parallel_reference hΓ name fun b b' hb => hb.misuse name .scalar
  | element id access name index ih =>
    rw [rename, findings, findings, type_rename hΓ, id_rename]
    exact (ih.append (parallel_typing _)).append (parallel_reference hΓ name fun b b' hb =>
      (hb.misuse name .array).append (parallel_mismatch ..))
  | unary id op arity operand ih =>
    rw [rename, findings, findings, type_rename hΓ, id_rename]
    exact (ih.append (parallel_typing _)).append (parallel_elim fun wanted => parallel_mismatch ..)
  | binary id op arity left right ihl ihr =>
    rw [rename, findings, findings, type_rename hΓ, type_rename hΓ, id_rename, id_rename]
    exact ((ihl.append (parallel_typing _)).append (ihr.append (parallel_typing _))).append
      (parallel_elim fun wanted => (parallel_mismatch ..).append (parallel_mismatch ..))
  | call id name arguments ih =>
    have types : (renameArguments ρ arguments).map (fun a => a.2.type Γ') =
        arguments.map fun a => a.2.type Γ := by
      rw [renameArguments_eq, List.map_map]
      exact List.map_congr_left fun a _ => type_rename hΓ a.2
    have rest : Parallel ρ (argumentEvents Γ arguments)
        (argumentEvents Γ' (renameArguments ρ arguments)) := by
      clear types
      induction arguments with
      | nil => exact .nil
      | cons a rest ihr =>
        obtain ⟨ha, hrest⟩ := List.forall_mem_cons.1 ih
        rw [renameArguments, argumentEvents, argumentEvents, type_rename hΓ, id_rename]
        exact ((ha.append (parallel_typing _)).append (parallel_typing _)).append (ihr hrest)
    rw [rename, findings, findings, types]
    refine rest.append (parallel_reference hΓ name fun b b' hb => ?_)
    rw [hb.kind]
    split
    · exact hb.misfit name _
    · exact .singleton (.complain ..)

theorem parallel_events (e : Expr) : Parallel ρ (e.events Γ) ((e.rename ρ).events Γ') := by
  rw [events, events, type_rename hΓ, id_rename]
  exact (parallel_findings hΓ e).append (parallel_typing _)

end Expr

/-! ### Contexts -/

namespace Context.Parallels

variable {c c' : Context} (h : c.Parallels ρ apart c')

include h

theorem find? : Env.Parallels ρ apart c.find? c'.find? := by
  intro name
  have bindings := h.bindings
  rw [Context.find?, Context.find?]
  generalize c.bindings = l, c'.bindings = l' at bindings
  induction bindings with
  | nil => exact .none
  | cons hb _ ih =>
    rw [List.find?_cons, List.find?_cons, hb.name]
    split
    · exact .some hb
    · exact ih

theorem taken_iff (name : String) : c'.Taken name ↔ c.Taken name := by
  have bindings := h.bindings
  rw [Taken, Taken, h.level]
  generalize c.bindings = l, c'.bindings = l' at bindings
  induction bindings with
  | nil => rfl
  | cons hb _ ih => simp only [List.mem_cons, exists_eq_or_imp, hb.level, hb.name, ih]

theorem after {es es' : List Event} (hes : Parallel ρ es es') :
    (c.after es).Parallels ρ apart (c'.after es') where
  bindings := h.bindings
  level := h.level
  frame := by
    show Frame.mk _ _ = Frame.mk _ _
    rw [h.frame, hes.extent_eq]
  loops := h.loops
  method := h.method

/-- A scope inside of each of them. -/
theorem inner : c.inner.Parallels ρ apart c'.inner where
  bindings := h.bindings
  level := congrArg Nat.succ h.level
  frame := h.frame
  loops := h.loops
  method := h.method

theorem declaring (node : NodeId) (symbol : Symbol) :
    Parallel ρ (c.declaring node symbol) (c'.declaring (ρ node) (symbol.rename ρ)) := by
  have name : (symbol.rename ρ).name = symbol.name := rfl
  by_cases taken : c.Taken symbol.name
  · rw [declaring_of_taken taken, declaring_of_taken (by rwa [name, h.taken_iff])]
    exact .singleton (.complain ..)
  · rw [declaring_of_not_taken taken, declaring_of_not_taken (by rwa [name, h.taken_iff])]
    exact .singleton (.declare ..)

/-- Behind declarations of the same symbol, whose size may differ if the node is set apart. -/
theorem declare {node : NodeId} {symbol symbol' : Symbol} (formals : List Ty)
    (hsymbol : symbol' = { symbol.rename ρ with size := symbol'.size })
    (hsize : ¬ apart node → symbol'.size = symbol.size) :
    (c.declare node symbol formals).Parallels ρ apart (c'.declare (ρ node) symbol' formals) := by
  have name : symbol'.name = symbol.name := (congrArg Symbol.name hsymbol :)
  by_cases taken : c.Taken symbol.name
  · rwa [declare_of_taken taken, declare_of_taken (by rwa [name, h.taken_iff])]
  · rw [declare_of_not_taken taken, declare_of_not_taken (by rwa [name, h.taken_iff])]
    exact ⟨.cons ⟨rfl, hsymbol, hsize, rfl⟩ h.bindings, h.level, h.frame, h.loops, h.method⟩

section Store

variable (node : NodeId) (name : String) (ty : Ty) (kind : SymbolKind) (size : Nat)

theorem stored_eq : c'.stored name ty kind size = (c.stored name ty kind size).rename ρ := by
  rw [stored, h.level, h.frame]
  rfl

theorem storing :
    Parallel ρ (c.storing node name ty kind size) (c'.storing (ρ node) name ty kind size) := by
  rw [Context.storing, Context.storing, h.stored_eq]
  exact .cons (.size ..) (h.declaring ..)

theorem store : (c.store node name ty kind size).Parallels ρ apart
    (c'.store (ρ node) name ty kind size) := by
  have declared : (c.declare node (c.stored name ty kind size) []).Parallels ρ apart
      (c'.declare (ρ node) (c'.stored name ty kind size) []) := by
    rw [h.stored_eq]
    exact h.declare [] rfl fun _ => rfl
  by_cases taken : c.Taken name
  · rwa [store_of_taken taken, store_of_taken ((h.taken_iff name).2 taken)]
  · rw [Context.store, Context.store, if_neg taken, if_neg (mt (h.taken_iff name).1 taken)]
    exact ⟨declared.bindings, declared.level, congrArg (fun f => Frame.allocate f size) h.frame,
      declared.loops, declared.method⟩

end Store

/-- Constructs of which each leaves contexts for the next that are parallel. -/
theorem along {α : Type} {events : Context → α → List Event} {next : Context → α → Context}
    {f : α → α} {l : List α}
    (step : ∀ a ∈ l, ∀ c c' : Context, c.Parallels ρ apart c' →
      Parallel ρ (events c a) (events c' (f a)) ∧ (next c a).Parallels ρ apart (next c' (f a))) :
    Parallel ρ (c.along events next l) (c'.along events next (l.map f)) ∧
      (l.foldl next c).Parallels ρ apart ((l.map f).foldl next c') := by
  induction l generalizing c c' with
  | nil => exact ⟨.nil, h⟩
  | cons a rest ih =>
    obtain ⟨ha, hrest⟩ := List.forall_mem_cons.1 step
    obtain ⟨first, behind⟩ := ha c c' h
    obtain ⟨others, last⟩ := ih behind hrest
    exact ⟨first.append others, last⟩

end Context.Parallels

/-! ### Declarations -/

section Declarations

variable {c c' : Context} (h : c.Parallels ρ apart c')

include h

theorem VarDecl.parallel (d : VarDecl) : Parallel ρ (d.events c) ((d.rename ρ).events c') ∧
    (d.next c).Parallels ρ apart ((d.rename ρ).next c') := by
  have initial : Parallel ρ (d.shape.events d.ty) ((d.shape.rename ρ).events d.ty) := by
    cases d.shape with
    | scalar | array => exact .nil
    | initialized value =>
      rw [Shape.rename, Shape.events, Shape.events, Literal.id_rename, Literal.ty_rename]
      exact .cons (.type ..) (parallel_mismatch ..)
  rw [events, events, next, next, rename]
  dsimp only
  rw [Shape.length_rename]
  cases Check.variableShape d.name d.shape.length with
  | error problem => exact ⟨.singleton (.complain ..), h⟩
  | ok shape => exact ⟨(h.storing ..).append initial, h.store ..⟩

theorem Param.parallel (param : Param) :
    Parallel ρ (param.events c) ((param.rename ρ).events c') ∧
      (param.next c).Parallels ρ apart ((param.rename ρ).next c') :=
  ⟨h.storing .., h.store ..⟩

theorem Extern.parallel (e : Extern) : Parallel ρ (e.events c) ((e.rename ρ).events c') ∧
    (e.next c).Parallels ρ apart ((e.rename ρ).next c') := by
  have symbol : (e.rename ρ).symbol c' = (e.symbol c).rename ρ := by
    simp [Extern.symbol, Symbol.rename, rename, h.level, Function.comp_def]
  have formals : (e.rename ρ).params.map Prod.snd = e.params.map Prod.snd := by simp [rename]
  rw [events, events, next, next, symbol, formals]
  exact ⟨h.declaring .., h.declare _ rfl fun _ => rfl⟩

end Declarations

/-! ### Statements -/

theorem parallel_conditionEvents {Γ Γ' : Env} (hΓ : Γ.Parallels ρ apart Γ') (e : Expr) :
    Parallel ρ (conditionEvents Γ e) (conditionEvents Γ' (e.rename ρ)) := by
  rw [conditionEvents, conditionEvents, Expr.type_rename hΓ, Expr.id_rename]
  exact (Expr.parallel_events hΓ e).append (parallel_mismatch ..)

theorem parallel_returnEvents {c c' : Context} (h : c.Parallels ρ apart c') (id : NodeId)
    (value : Option Expr) : Parallel ρ (returnEvents c id value)
      (returnEvents c' (ρ id) (value.map (Expr.rename ρ))) := by
  have expression : Parallel ρ (value.elim [] fun e => e.events c.find?)
      ((value.map (Expr.rename ρ)).elim [] fun e => e.events c'.find?) := by
    cases value with
    | none => exact .nil
    | some e => exact Expr.parallel_events h.find? e
  rw [returnEvents, returnEvents, h.method]
  refine expression.append ?_
  cases c.method with
  | none => exact .nil
  | some enclosing =>
    obtain ⟨name, ty⟩ := enclosing
    cases value with
    | none =>
      cases ty with
      | void => exact .nil
      | int | bool | string => exact .singleton (.complain ..)
    | some e =>
      have judged : ∀ wanted, Parallel ρ (mismatch wanted (e.type c.find?) id)
          (mismatch wanted ((e.rename ρ).type c'.find?) (ρ id)) := by
        intro wanted
        rw [Expr.type_rename h.find?]
        exact parallel_mismatch ..
      cases ty with
      | void => exact .singleton (.complain ..)
      | int | bool | string => exact judged _

namespace Stmt

theorem parallel_bodyEvents {c c' : Context} (h : c.Parallels ρ apart c') {body : List Stmt}
    (each : ∀ st ∈ body, ∀ c c' : Context, c.Parallels ρ apart c' →
      Parallel ρ (st.events c) ((st.rename ρ).events c')) :
    Parallel ρ (bodyEvents c body) (bodyEvents c' (renameBody ρ body)) := by
  rw [renameBody_eq, bodyEvents_eq, bodyEvents_eq]
  exact (h.along fun st hst c c' h =>
    ⟨each st hst c c' h, h.after (each st hst c c' h)⟩).1

/-- The transcripts of a statement in two contexts. -/
theorem parallel_events {c c' : Context} (h : c.Parallels ρ apart c') (st : Stmt) :
    Parallel ρ (st.events c) ((st.rename ρ).events c') := by
  induction st generalizing c c' with
  | assignment id target value =>
    rw [rename, events, events, Target.expr_rename, Expr.type_rename h.find?,
      Expr.type_rename h.find?]
    exact ((Expr.parallel_events h.find? _).append (Expr.parallel_events h.find? _)).append
      (parallel_elim fun wanted => parallel_mismatch ..)
  | call call =>
    rw [rename, events, events, Call.expr_rename]
    exact Expr.parallel_events h.find? _
  | ifThen id branch condition yes ih =>
    exact (parallel_conditionEvents h.find? condition).append (ih h)
  | ifElse id branch condition yes other no ihy ihn =>
    exact ((parallel_conditionEvents h.find? condition).append (ihy h)).append
      (ihn (h.after (ihy h)))
  | loop id condition body ih =>
    have looping : Context.Parallels ρ apart { c with loops := c.loops + 1 }
        { c' with loops := c'.loops + 1 } :=
      ⟨h.bindings, h.level, h.frame, congrArg Nat.succ h.loops, h.method⟩
    exact (parallel_conditionEvents h.find? condition).append (ih looping)
  | returnValue id value => exact parallel_returnEvents h id value
  | jump id j =>
    rw [rename, events, events, h.loops]
    split
    · exact .singleton (.complain ..)
    · exact .nil
  | block id locals body ih =>
    have entered : Parallel ρ (c.inner.along VarDecl.events VarDecl.next locals)
        (c'.inner.along VarDecl.events VarDecl.next (locals.map (VarDecl.rename ρ))) ∧
          (c.locals locals).Parallels ρ apart (c'.locals (locals.map (VarDecl.rename ρ))) :=
      h.inner.along fun d _ c c' h => d.parallel h
    obtain ⟨declared, inside⟩ := entered
    rw [rename, events, events]
    exact declared.append (parallel_bodyEvents inside fun st hst c c' h => ih st hst h)

end Stmt

/-! ### Methods -/

/-- The second method is the first one with its nodes renamed, but for its body. -/
structure Method.Resembles (ρ : NodeId → NodeId) (m m' : Method) : Prop where
  id : m'.id = ρ m.id
  name : m'.name = m.name
  ty : m'.ty = m.ty
  params : m'.params = m.params.map (Param.rename ρ)

theorem Method.resembles_rename (m : Method) : m.Resembles ρ (m.rename ρ) := ⟨rfl, rfl, rfl, rfl⟩

namespace Method.Resembles

variable {m m' : Method} {c c' : Context}

theorem formals (hm : m.Resembles ρ m') : m'.formals = m.formals := by
  rw [Method.formals, Method.formals, hm.params, List.map_map]
  rfl

theorem declaration (hm : m.Resembles ρ m') : m'.declaration = m.declaration.rename ρ := by
  rw [Method.declaration, hm.id, hm.name]
  rfl

section Parallels

variable (hm : m.Resembles ρ m') (h : c.Parallels ρ apart c')

include hm h

theorem symbol (words words' : Nat) :
    m'.symbol c' words' = { (m.symbol c words).rename ρ with size := words' } := by
  rw [Method.symbol, hm.name, hm.ty, hm.params, h.level]
  simp [Method.symbol, Symbol.rename, Function.comp_def, Param.rename]

/-- Entering the name of the method. -/
theorem declaring (words : Nat) : Parallel ρ (c.declaring m.id (m.symbol c words))
    (c'.declaring m'.id (m'.symbol c' words)) := by
  rw [hm.symbol h words, hm.id]
  exact h.declaring m.id (m.symbol c words)

theorem declare {words words' : Nat} (hwords : ¬ apart m.id → words' = words) :
    (c.declare m.id (m.symbol c words) m.formals).Parallels ρ apart
      (c'.declare m'.id (m'.symbol c' words') m'.formals) := by
  rw [hm.symbol h words, hm.id, hm.formals]
  exact h.declare m.formals rfl hwords

theorem scope : (m.scope c).Parallels ρ apart (m'.scope c') := by
  have named : (c.declare m.id (m.symbol c frameHeaderWords) m.formals).Parallels ρ apart
      (c'.declare m'.id (m'.symbol c' frameHeaderWords) m'.formals) := hm.declare h fun _ => rfl
  exact ⟨named.bindings, congrArg Nat.succ h.level, rfl, named.loops, named.method⟩

theorem parameters :
    Parallel ρ ((m.scope c).along Param.events Param.next m.params)
        ((m'.scope c').along Param.events Param.next m'.params) ∧
      (m.within c).Parallels ρ apart (m'.within c') := by
  have along : Parallel ρ ((m.scope c).along Param.events Param.next m.params)
      ((m'.scope c').along Param.events Param.next (m.params.map (Param.rename ρ))) ∧
        (m.params.foldl Param.next (m.scope c)).Parallels ρ apart
          ((m.params.map (Param.rename ρ)).foldl Param.next (m'.scope c')) :=
    (hm.scope h).along fun param _ c c' h => param.parallel h
  rw [← hm.params] at along
  refine ⟨along.1, along.2.bindings, along.2.level, along.2.frame, along.2.loops, ?_⟩
  rw [Method.within, Method.within, hm.name, hm.ty]

/-- Behind the two methods, whose frames may differ if the node is set apart. -/
theorem next (hwords : ¬ apart m.id → m'.words c' = m.words c) :
    (m.next c).Parallels ρ apart (m'.next c') := by
  have named := hm.declare h hwords
  exact ⟨named.bindings, named.level, named.frame, named.loops, rfl⟩

end Parallels

end Method.Resembles

theorem Method.parallel {c c' : Context} (h : c.Parallels ρ apart c') (m : Method) :
    Parallel ρ (m.events c) ((m.rename ρ).events c') ∧
      (m.next c).Parallels ρ apart ((m.rename ρ).next c') := by
  have resembles : m.Resembles ρ (m.rename ρ) := m.resembles_rename
  obtain ⟨params, within⟩ := resembles.parameters h
  have body : Parallel ρ (m.block.events (m.within c))
      ((m.rename ρ).block.events ((m.rename ρ).within c')) := by
    rw [block_rename]
    exact m.block.parallel_events within
  have words : (m.rename ρ).words c' = m.words c := congrArg Frame.peak (within.after body).frame
  refine ⟨?_, resembles.next h fun _ => words⟩
  rw [events, events, words]
  exact ((resembles.declaring h _).append (params.append body)).append (.singleton (.size ..))

/-! ### Programs -/

namespace Program

variable {c c' : Context} (h : c.Parallels ρ apart c')

include h

theorem parallel_externs (externs : List Extern) :
    Parallel ρ (c.along Extern.events Extern.next externs)
        (c'.along Extern.events Extern.next (externs.map (Extern.rename ρ))) ∧
      (externs.foldl Extern.next c).Parallels ρ apart
        ((externs.map (Extern.rename ρ)).foldl Extern.next c') :=
  h.along fun e _ _ _ h => e.parallel h

theorem parallel_fields (fields : List VarDecl) :
    Parallel ρ (c.along VarDecl.events VarDecl.next fields)
        (c'.along VarDecl.events VarDecl.next (fields.map (VarDecl.rename ρ))) ∧
      (fields.foldl VarDecl.next c).Parallels ρ apart
        ((fields.map (VarDecl.rename ρ)).foldl VarDecl.next c') :=
  h.along fun d _ _ _ h => d.parallel h

theorem parallel_methods (methods : List Method) :
    Parallel ρ (c.along Method.events Method.next methods)
        (c'.along Method.events Method.next (methods.map (Method.rename ρ))) ∧
      (methods.foldl Method.next c).Parallels ρ apart
        ((methods.map (Method.rename ρ)).foldl Method.next c') :=
  h.along fun m _ _ _ h => m.parallel h

/-- Entering the name of a package. -/
theorem parallel_named (p : Program) :
    Parallel ρ (c.declaring p.package (p.symbol c))
        (c'.declaring (ρ p.package) ((p.rename ρ).symbol c')) ∧
      (p.named c).Parallels ρ apart ((p.rename ρ).named c') := by
  have symbol : (p.rename ρ).symbol c' = (p.symbol c).rename ρ := by
    rw [Program.symbol, h.level]
    rfl
  rw [named, named, symbol]
  exact ⟨h.declaring .., h.declare [] rfl fun _ => rfl⟩

/-- **Two checks of a program tell the same story.** -/
theorem parallel (p : Program) : Parallel ρ (p.eventsFrom c) ((p.rename ρ).eventsFrom c') ∧
    (p.behindFrom c).Parallels ρ apart ((p.rename ρ).behindFrom c') := by
  obtain ⟨externs, afterExterns⟩ := parallel_externs h p.externs
  obtain ⟨name, afterName⟩ := parallel_named afterExterns p
  obtain ⟨fields, afterFields⟩ := parallel_fields afterName p.fields
  obtain ⟨methods, afterMethods⟩ := parallel_methods afterFields p.methods
  exact ⟨externs.append (name.append (fields.append methods)), afterMethods⟩

end Program

end DecafStatics
