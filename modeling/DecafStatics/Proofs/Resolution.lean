import DecafStatics.Proofs.Numbering
import DecafStatics.Proofs.Scopes
import Mathlib.Data.List.Forall2

/-!
# Names are resolved lexically

The check of a program leaves on each name in use the symbol of the declaration that the name
belongs to, and reports exactly the names that belong to none, also where other things are wrong
with the program.

## Implementation notes

A check knows no scopes, only levels: a name is looked up among all that is in sight, and what is in
sight depends on which scopes were closed by then. `Context.Mirrors` ties what is in sight to the
scopes around. Of the current scope it says what is declared so far, of the others which declaration
each name belongs to.

Declarations are tied to symbols by the whole transcript: each binding in sight has its event there.

## Main definitions

* `Context.Mirrors` — what is in sight is what the scopes around declare
* `Reference.Settled` — what becomes of a name in use

## Main results

* `Stmt.settled`, `Program.settled` — names in statements and programs
* `CompilationUnit.resolve_of_check` — the check
-/

namespace DecafStatics

/-! ### Scopes -/

theorem lookup_cons (scope : List Declaration) (outer : List (List Declaration)) (name : String) :
    lookup (scope :: outer) name = (successful scope name).or (lookup outer name) := by
  rw [lookup, List.findSome?_cons]
  cases successful scope name <;> rfl

namespace Context

/-- What is in sight is what the scopes around declare, `current` the innermost of them as far as it
goes. All of it is declared in `all`. -/
structure Mirrors (all : List Event) (c : Context) (current : List Declaration)
    (outer : List (List Declaration)) : Prop extends c.Scoped current where
  find : ∀ name, (c.find? name).map Binding.node =
    (lookup (current :: outer) name).map Declaration.id
  recorded : ∀ b ∈ c.bindings, ∃ e, .declare b.node b.id e ∈ all ∧ e.name = b.symbol.name

namespace Mirrors

variable {all : List Event} {c c' : Context} {current : List Declaration}
  {outer : List (List Declaration)} {node : NodeId} {symbol : Symbol}

/-- Only the level and what is in sight matter. -/
theorem congr (h : c.Mirrors all current outer) (hb : c'.bindings = c.bindings)
    (hl : c'.level = c.level) : c'.Mirrors all current outer where
  toScoped := h.toScoped.congr hb hl
  find := by
    unfold find?
    rw [hb]
    exact h.find
  recorded := hb ▸ h.recorded

theorem start (all : List Event) : Context.start.Mirrors all [] [] where
  toScoped := .start
  find := fun _ => rfl
  recorded := by simp [Context.start]

/-- In a new scope nothing is declared so far. -/
theorem inner (h : c.Mirrors all current outer) : c.inner.Mirrors all [] (current :: outer) where
  toScoped := h.opened.inner
  find := h.find
  recorded := h.recorded

/-- Behind a declaration that is none, or comes too late. -/
theorem append (h : c.Mirrors all current outer) {d : Declaration}
    (hd : d.valid → c.Taken d.name) : c.Mirrors all (current ++ [d]) outer where
  toScoped := h.toScoped.append hd
  find := by simpa only [lookup_cons, h.successful_append_eq hd] using h.find
  recorded := h.recorded

/-- Behind the declaration of a symbol, whether its name was free or not. -/
theorem declare (h : c.Mirrors all current outer) (hlevel : symbol.level = c.level)
    (formals : List Ty)
    (hall : ¬ c.Taken symbol.name → ∃ e, .declare node ⟨c.count⟩ e ∈ all ∧ e.name = symbol.name) :
    (c.declare node symbol formals).Mirrors all
      (current ++ [⟨node, symbol.name, true⟩]) outer := by
  have behind : (c.declare node symbol formals).Scoped _ := h.toScoped.declare hlevel formals
  by_cases htaken : c.Taken symbol.name
  · rw [declare_of_taken htaken]
    exact h.append fun _ => htaken
  · rw [declare_of_not_taken htaken] at behind ⊢
    have free := h.not_taken_iff.1 htaken
    refine ⟨behind, fun name => ?_, List.forall_mem_cons.2 ⟨hall htaken, h.recorded⟩⟩
    have old := h.find name
    rw [lookup_cons] at old ⊢
    rw [successful_append, find?, List.find?_cons]
    by_cases hname : symbol.name = name
    · subst hname
      simp [free]
    · simpa [hname, find?] using old

/-- Behind declarations one after the other. -/
theorem along {α : Type} {events : Context → α → List Event} {next : Context → α → Context}
    {declaration : α → Declaration}
    (step : ∀ (c : Context) (a : α) (current : List Declaration), c.Mirrors all current outer →
      (∀ ev ∈ events c a, ev ∈ all) → (next c a).Mirrors all (current ++ [declaration a]) outer)
    (h : c.Mirrors all current outer) {l : List α}
    (hall : ∀ ev ∈ c.along events next l, ev ∈ all) :
    (l.foldl next c).Mirrors all (current ++ l.map declaration) outer := by
  induction l generalizing c current with
  | nil => simpa using h
  | cons a rest ih =>
    obtain ⟨ha, hrest⟩ := List.forall_mem_append.1 hall
    simpa using ih (step c a current h ha) hrest

end Mirrors

theorem declare_mem_declaring {c : Context} {node : NodeId} {symbol : Symbol}
    (h : ¬ c.Taken symbol.name) :
    .declare node ⟨c.count⟩ symbol ∈ c.declaring node symbol := by
  rw [declaring_of_not_taken h]
  exact List.mem_singleton_self _

end Context

section Declarations

variable {all : List Event} {c : Context} {current : List Declaration}
  {outer : List (List Declaration)}

theorem Context.Mirrors.store (h : c.Mirrors all current outer) {node : NodeId} {name : String}
    {ty : Ty} {kind : SymbolKind} {size : Nat}
    (hall : ∀ ev ∈ c.storing node name ty kind size, ev ∈ all) :
    (c.store node name ty kind size).Mirrors all (current ++ [⟨node, name, true⟩]) outer := by
  have declared : (c.declare node (c.stored name ty kind size) []).Mirrors all
      (current ++ [⟨node, name, true⟩]) outer :=
    h.declare rfl [] fun hfree =>
      ⟨_, hall _ (List.mem_cons_of_mem _ (declare_mem_declaring hfree)), rfl⟩
  rw [Context.store]
  split
  · rename_i htaken
    exact h.append fun _ => htaken
  · exact declared.congr rfl rfl

theorem VarDecl.mirrors (h : c.Mirrors all current outer) (d : VarDecl)
    (hall : ∀ ev ∈ d.events c, ev ∈ all) :
    (d.next c).Mirrors all (current ++ [d.declaration]) outer := by
  rw [events] at hall
  rw [next]
  split at hall
  · rename_i problem hshape
    exact h.append fun valid => absurd valid (by simp [not_valid_of_error hshape])
  · rename_i kind size hshape
    rw [declaration_of_ok hshape]
    exact h.store fun ev hev => hall ev (List.mem_append_left _ hev)

theorem Param.mirrors (h : c.Mirrors all current outer) (param : Param)
    (hall : ∀ ev ∈ param.events c, ev ∈ all) :
    (param.next c).Mirrors all (current ++ [param.declaration]) outer := h.store hall

theorem Extern.mirrors (h : c.Mirrors all current outer) (e : Extern)
    (hall : ∀ ev ∈ e.events c, ev ∈ all) :
    (e.next c).Mirrors all (current ++ [e.declaration]) outer :=
  h.declare rfl _ fun hfree => ⟨e.symbol c, hall _ (Context.declare_mem_declaring hfree), rfl⟩

end Declarations

/-! ### Declarations use no names -/

section Quiet

@[simp] theorem uses_declaring (c : Context) (node : NodeId) (symbol : Symbol) :
    Event.uses (c.declaring node symbol) = [] := by
  rw [Context.declaring]
  split <;> rfl

theorem uses_along {α : Type} (events : Context → α → List Event) (next : Context → α → Context)
    (h : ∀ c a, Event.uses (events c a) = []) (c : Context) (l : List α) :
    Event.uses (c.along events next l) = [] := by
  induction l generalizing c with
  | nil => rfl
  | cons a rest ih => rw [Context.along, Event.uses_append, h, ih, List.nil_append]

@[simp] theorem VarDecl.uses_events (c : Context) (d : VarDecl) :
    Event.uses (d.events c) = [] := by
  rw [events]
  split
  · rename_i problem h
    unfold Check.variableShape at h
    split at h
    · cases h
    · split at h
      · cases h
        rfl
      · cases h
  · cases d.shape <;> simp [Context.storing, Shape.events, Event.use?]

@[simp] theorem Param.uses_events (c : Context) (param : Param) :
    Event.uses (param.events c) = [] := by
  simp [events, Context.storing, Event.use?]

end Quiet

/-! ### Names in use -/

/-- What became of a name in use is right: it has the symbol of the declaration that it belongs to,
or it is reported if there is none. -/
structure Reference.Settled (all : List Event) (r : Reference)
    (use : NodeId × Except String SymbolId) : Prop where
  node : use.1 = r.id
  undeclared : r.resolve = none → use.2 = .error r.name
  declared : ∀ d, r.resolve = some d →
    ∃ number e, use.2 = .ok number ∧ .declare d.id number e ∈ all ∧ e.name = r.name

section Settled

variable {all : List Event} {c : Context} {current : List Declaration}
  {outer : List (List Declaration)}

theorem Context.Mirrors.settled (h : c.Mirrors all current outer) (id : NodeId) (name : String) :
    Reference.Settled all ⟨id, name, current :: outer⟩ (id, c.find?.outcome name) := by
  have hfind := h.find name
  refine ⟨rfl, fun hnone => ?_, fun d hsome => ?_⟩
  · rw [show lookup (current :: outer) name = none from hnone, Option.map_none,
      Option.map_eq_none_iff] at hfind
    simp [Env.outcome, hfind]
  · rw [show lookup (current :: outer) name = some d from hsome, Option.map_some,
      Option.map_eq_some_iff] at hfind
    obtain ⟨b, hb, hnode⟩ := hfind
    obtain ⟨e, hall, hname⟩ := h.recorded b (List.mem_of_find?_eq_some hb)
    refine ⟨b.id, e, by simp [Env.outcome, hb], hnode ▸ hall, hname.trans ?_⟩
    simpa using List.find?_some hb

theorem Expr.settled (h : c.Mirrors all current outer) (e : Expr) :
    List.Forall₂ (Reference.Settled all) (e.references (current :: outer))
      (Event.uses (e.events c.find?)) := by
  rw [references, uses_events, List.forall₂_map_left_iff, List.forall₂_map_right_iff,
    List.forall₂_same]
  exact fun use _ => h.settled use.1 use.2

namespace Stmt

/-- The names in the statements of a block, if those of each statement are. -/
theorem settled_body (h : c.Mirrors all current outer) {body : List Stmt}
    (hbody : ∀ st ∈ body, ∀ c : Context, c.Mirrors all current outer →
      (∀ ev ∈ st.events c, ev ∈ all) → List.Forall₂ (Reference.Settled all)
        (st.references (current :: outer)) (Event.uses (st.events c)))
    (hall : ∀ ev ∈ bodyEvents c body, ev ∈ all) :
    List.Forall₂ (Reference.Settled all) (bodyReferences (current :: outer) body)
      (Event.uses (bodyEvents c body)) := by
  induction body generalizing c with
  | nil => exact .nil
  | cons st rest ih =>
    obtain ⟨hst, hrest⟩ := List.forall_mem_cons.1 hbody
    obtain ⟨hfirst, hothers⟩ := List.forall_mem_append.1 hall
    rw [bodyReferences, bodyEvents, Event.uses_append]
    exact List.rel_append (hst c h hfirst) (ih (h.congr rfl rfl) hrest hothers)

/-- **Names in statements.** -/
theorem settled (h : c.Mirrors all current outer) (st : Stmt)
    (hall : ∀ ev ∈ st.events c, ev ∈ all) :
    List.Forall₂ (Reference.Settled all) (st.references (current :: outer))
      (Event.uses (st.events c)) := by
  induction st generalizing c current outer with
  | assignment id target value =>
    have judged : Event.uses ((target.expr.type c.find?).elim [] fun wanted =>
        mismatch wanted (value.type c.find?) id) = [] := uses_elim fun ty => by simp
    rw [references, events, Event.uses_append, Event.uses_append, judged, List.append_nil]
    exact List.rel_append (target.expr.settled h) (value.settled h)
  | call call => exact call.expr.settled h
  | ifThen id branch condition yes ih =>
    rw [references, events, Event.uses_append, uses_conditionEvents]
    exact List.rel_append (condition.settled h) (ih h (List.forall_mem_append.1 hall).2)
  | ifElse id branch condition yes other no ihy ihn =>
    obtain ⟨hfirst, hno⟩ := List.forall_mem_append.1 hall
    have hyes := (List.forall_mem_append.1 hfirst).2
    rw [references, events, Event.uses_append, Event.uses_append, uses_conditionEvents]
    exact List.rel_append (List.rel_append (condition.settled h) (ihy h hyes))
      (ihn (h.congr rfl rfl) hno)
  | loop id condition body ih =>
    rw [references, events, Event.uses_append, uses_conditionEvents]
    exact List.rel_append (condition.settled h)
      (ih (h.congr rfl rfl) (List.forall_mem_append.1 hall).2)
  | returnValue id value =>
    rw [references, events, uses_returnEvents]
    cases value with
    | none => exact .nil
    | some e => simpa using e.settled h
  | jump id j =>
    rw [references, events]
    split <;> exact .nil
  | block id locals body ih =>
    obtain ⟨hlocals, hbody⟩ := List.forall_mem_append.1 hall
    have inside := h.inner.along (fun c d current h hall => VarDecl.mirrors h d hall) hlocals
    have quiet : Event.uses (c.inner.along VarDecl.events VarDecl.next locals) = [] :=
      uses_along VarDecl.events VarDecl.next VarDecl.uses_events c.inner locals
    rw [references, events, Event.uses_append, quiet, List.nil_append]
    exact settled_body inside (fun st hst c h hall => ih st hst h hall) hbody

end Stmt

/-- The scope of a method is inside of the global one, which has the method already. -/
theorem Method.mirrors_scope (h : c.Mirrors all current outer) (m : Method)
    (hall : ∀ ev ∈ m.events c, ev ∈ all) :
    (m.scope c).Mirrors all [] ((current ++ [m.declaration]) :: outer) := by
  have hname := (List.forall_mem_append.1 (List.forall_mem_append.1 hall).1).1
  have named : (c.declare m.id (m.symbol c frameHeaderWords) m.formals).Mirrors all
      (current ++ [m.declaration]) outer :=
    h.declare rfl m.formals fun hfree => ⟨m.symbol c (m.words c), hname _ (by
      exact Context.declare_mem_declaring (show ¬ c.Taken m.name from hfree)), rfl⟩
  refine named.inner.congr rfl ?_
  show c.level + 1 = _ + 1
  rw [Context.level_declare]

theorem Method.mirrors (h : c.Mirrors all current outer) (m : Method)
    (hname : ∀ ev ∈ c.declaring m.id (m.symbol c (m.words c)), ev ∈ all) :
    (m.next c).Mirrors all (current ++ [m.declaration]) outer := by
  have named : (c.declare m.id (m.symbol c (m.words c)) m.formals).Mirrors all
      (current ++ [m.declaration]) outer :=
    h.declare rfl m.formals fun hfree => ⟨m.symbol c (m.words c), hname _ (by
      exact Context.declare_mem_declaring hfree), rfl⟩
  exact named.congr rfl rfl

/-- Entering its name is the first thing that is found out about a method. -/
theorem Method.mem_events_of_mem_declaring {m : Method} {ev : Event}
    (h : ev ∈ c.declaring m.id (m.symbol c (m.words c))) : ev ∈ m.events c :=
  List.mem_append_left _ (List.mem_append_left _ h)

theorem Method.mirrors_along (h : c.Mirrors all current outer) {methods : List Method}
    (hall : ∀ ev ∈ c.along Method.events Method.next methods, ev ∈ all) :
    (methods.foldl Method.next c).Mirrors all (current ++ methods.map Method.declaration) outer :=
  h.along (fun _ m _ h hall =>
    m.mirrors h fun ev hev => hall ev (mem_events_of_mem_declaring hev)) hall

theorem Method.settled (h : c.Mirrors all current []) (m : Method)
    (hall : ∀ ev ∈ m.events c, ev ∈ all) :
    List.Forall₂ (Reference.Settled all) (m.references (current ++ [m.declaration]))
      (Event.uses (m.events c)) := by
  obtain ⟨hparams, hbody⟩ :=
    List.forall_mem_append.1 (List.forall_mem_append.1 (List.forall_mem_append.1 hall).1).2
  have inside := (mirrors_scope h m hall).along
    (fun c param current h hall => Param.mirrors h param hall) hparams
  have quiet : Event.uses ((m.scope c).along Param.events Param.next m.params) = [] :=
    uses_along Param.events Param.next Param.uses_events (m.scope c) m.params
  have same : Event.uses (m.events c) = Event.uses (m.block.events (m.within c)) := by
    simp [events, Method.inside, quiet, Event.use?]
  rw [same]
  have within : (m.within c).Mirrors all _ _ := inside.congr rfl rfl
  exact m.block.settled within hbody

/-- Names in methods, each of which sees the methods before it. -/
theorem Method.settled_along (h : c.Mirrors all current []) {methods : List Method}
    (hall : ∀ ev ∈ c.along Method.events Method.next methods, ev ∈ all) :
    List.Forall₂ (Reference.Settled all) (Program.methodReferences current methods)
      (Event.uses (c.along Method.events Method.next methods)) := by
  induction methods generalizing c current with
  | nil => exact .nil
  | cons m rest ih =>
    obtain ⟨hfirst, hothers⟩ := List.forall_mem_append.1 hall
    rw [Program.methodReferences, Context.along, Event.uses_append]
    have behind := m.mirrors h fun ev hev => hfirst ev (Method.mem_events_of_mem_declaring hev)
    exact List.rel_append (m.settled h hfirst) (ih behind hothers)

/-- Behind the fields of a program its global names are in sight, but for its methods. -/
theorem Program.mirrors_afterFields {p : Program} (hall : ∀ ev ∈ p.preamble, ev ∈ all) :
    p.afterFields.Mirrors all p.declarations [] := by
  obtain ⟨hexterns, hall⟩ := List.forall_mem_append.1 hall
  obtain ⟨hname, hfields⟩ := List.forall_mem_append.1 hall
  have externs : p.afterExterns.Mirrors all (p.externs.map Extern.declaration) [] :=
    (Context.Mirrors.start all).along (fun c e current h hall => e.mirrors h hall) hexterns
  have named : p.afterName.Mirrors all
      (p.externs.map Extern.declaration ++ [⟨p.package, p.name, true⟩]) [] :=
    externs.declare rfl [] fun hfree =>
      ⟨p.symbol p.afterExterns, hname _ (Context.declare_mem_declaring hfree), rfl⟩
  have fields : p.afterFields.Mirrors all _ [] :=
    named.along (fun c d current h hall => d.mirrors h hall) hfields
  simpa [declarations] using fields

/-- All that is found out in a program is found out before its methods or in these. -/
theorem Program.mem_events (p : Program) : (∀ ev ∈ p.preamble, ev ∈ p.events) ∧
    ∀ ev ∈ p.afterFields.along Method.events Method.next p.methods, ev ∈ p.events := by
  rw [events_eq_preamble]
  exact List.forall_mem_append.1 fun ev hev => hev

/-- Behind a program all its global names are in sight. -/
theorem Program.mirrors_afterMethods (p : Program) : p.afterMethods.Mirrors p.events
    (p.declarations ++ p.methods.map Method.declaration) [] :=
  Method.mirrors_along (mirrors_afterFields p.mem_events.1) p.mem_events.2

/-- No names are in use before the methods of a program. -/
theorem Program.uses_preamble (p : Program) : Event.uses p.preamble = [] := by
  have externs := uses_along Extern.events Extern.next (fun c e => uses_declaring c e.id _) .start
    p.externs
  have fields := uses_along VarDecl.events VarDecl.next VarDecl.uses_events p.afterName p.fields
  simp [preamble, externs, fields]

/-- **Names in programs.** -/
theorem Program.settled (p : Program) :
    List.Forall₂ (Reference.Settled p.events) p.references (Event.uses p.events) := by
  have settled := Method.settled_along (mirrors_afterFields p.mem_events.1) p.mem_events.2
  rw [events_eq_preamble] at settled ⊢
  rwa [Event.uses_append, uses_preamble, List.nil_append]

end Settled

/-! ### All names in use -/

/-- Nodes of these kinds use a name. -/
def NodeKind.usesName : NodeKind → Bool
  | target | reference | call => true
  | _ => false

namespace Tree

/-- What a node is to be, and that it uses a name. -/
theorem Has.and {t : Tree} {id : NodeId} {p q : Node → Prop} (hp : t.Has id p) (hq : t.Has id q) :
    t.Has id fun n => p n ∧ q n := by
  obtain ⟨n, hn, hpn⟩ := hp
  obtain ⟨m, hm, hqm⟩ := hq
  rw [hn] at hm
  cases hm
  exact ⟨n, hn, hpn, hqm⟩

/-- A node uses no name if its kind says so. -/
theorem Has.not_usesName {t : Tree} {id : NodeId} {kind : NodeKind} {p : Node → Prop}
    (hp : t.Has id fun n => n.kind = kind ∧ p n) (hkind : kind.usesName = false) :
    ¬ t.Has id fun n => n.kind.usesName = true := by
  intro huses
  obtain ⟨n, -, hn, huse⟩ := hp.and huses
  rw [hn.1, hkind] at huse
  cases huse

theorem HasLiteral.not_usesName {t : Tree} {l : Literal} (h : t.HasLiteral l) :
    ¬ t.Has l.id fun n => n.kind.usesName = true := by
  cases l <;> exact Has.not_usesName h rfl

end Tree

section Names

variable {t : Tree} {id : NodeId}

/-- Each of these nodes that uses a name is one of these names in use. -/
def Covers (t : Tree) (ids : List NodeId) (refs : List Reference) : Prop :=
  ∀ id ∈ ids, (t.Has id fun n => n.kind.usesName = true) →
    ∃ r ∈ refs, r.id = id ∧ t.Has id fun n => n.text = r.name

namespace Covers

variable {ids ids' : List NodeId} {refs refs' : List Reference}

/-- Nodes that use no names. -/
theorem quiet (h : ∀ id ∈ ids, ¬ t.Has id fun n => n.kind.usesName = true) : Covers t ids [] :=
  fun id hid huses => absurd huses (h id hid)

theorem skip (hid : ¬ t.Has id fun n => n.kind.usesName = true) (h : Covers t ids refs) :
    Covers t (id :: ids) refs := by
  intro other hmem huses
  rcases List.mem_cons.1 hmem with rfl | hmem
  · exact absurd huses hid
  · exact h other hmem huses

theorem use {name : String} {scopes : List (List Declaration)}
    (hid : t.Has id fun n => n.text = name) (h : Covers t ids refs) :
    Covers t (id :: ids) (refs ++ [⟨id, name, scopes⟩]) := by
  intro other hmem huses
  rcases List.mem_cons.1 hmem with rfl | hmem
  · exact ⟨_, List.mem_concat_self .., rfl, hid⟩
  · obtain ⟨r, hr, hrest⟩ := h other hmem huses
    exact ⟨r, List.mem_append_left _ hr, hrest⟩

theorem append (h : Covers t ids refs) (h' : Covers t ids' refs') :
    Covers t (ids ++ ids') (refs ++ refs') := by
  intro id hid huses
  rcases List.mem_append.1 hid with hid | hid
  · obtain ⟨r, hr, hrest⟩ := h id hid huses
    exact ⟨r, List.mem_append_left _ hr, hrest⟩
  · obtain ⟨r, hr, hrest⟩ := h' id hid huses
    exact ⟨r, List.mem_append_right _ hr, hrest⟩

theorem flatMap {α : Type} {l : List α} {f : α → List NodeId} {g : α → List Reference}
    (h : ∀ a ∈ l, Covers t (f a) (g a)) : Covers t (l.flatMap f) (l.flatMap g) := by
  intro id hid huses
  obtain ⟨a, ha, hid⟩ := List.mem_flatMap.1 hid
  obtain ⟨r, hr, hrest⟩ := h a ha id hid huses
  exact ⟨r, List.mem_flatMap.2 ⟨a, ha, hr⟩, hrest⟩

/-- Constructs that use no names. -/
theorem flatMap_nil {α : Type} {l : List α} {f : α → List NodeId}
    (h : ∀ a ∈ l, Covers t (f a) []) : Covers t (l.flatMap f) [] := by
  intro id hid huses
  obtain ⟨a, ha, hid⟩ := List.mem_flatMap.1 hid
  exact h a ha id hid huses

end Covers

namespace Expr

theorem argumentNames_eq (arguments : List (NodeId × Expr)) :
    argumentNames arguments = arguments.flatMap fun a => a.2.names := by
  induction arguments with
  | nil => rfl
  | cons a rest ih => rw [argumentNames, ih, List.flatMap_cons]

theorem covers {e : Expr} (he : t.HasExpr e) (scopes : List (List Declaration)) :
    Covers t e.ids (e.references scopes) := by
  induction e with
  | literal l =>
    cases he with
    | literal hl => exact .skip hl.not_usesName (.quiet (by simp))
  | plain id access name =>
    cases he with
    | plain hn =>
      have nothing : Covers t [] [] := .quiet (by simp)
      exact nothing.use (hn.imp fun n hn => hn.2.1)
  | element id access name index ih =>
    cases he with
    | element hn hi =>
      rw [references, names, List.map_append]
      exact .use (hn.imp fun n hn => hn.2.1) (ih hi)
  | unary id op arity operand ih =>
    cases he with
    | unary hn ho => exact .skip (hn.not_usesName rfl) (ih ho)
  | binary id op arity left right ihl ihr =>
    cases he with
    | binary hn hl hr =>
      rw [references, names, List.map_append]
      exact .skip (hn.not_usesName rfl) ((ihl hl).append (ihr hr))
  | call id name arguments ih =>
    cases he with
    | call hn hw ha =>
      rw [references, names, List.map_append, argumentNames_eq, List.map_flatMap, ids,
        argumentIds_eq]
      refine .use (hn.imp fun n hn => hn.2.1) (.flatMap fun a hmem => ?_)
      exact .skip (Tree.Has.not_usesName (hw a hmem) rfl) (ih a hmem (ha a hmem))

end Expr

/-- The declaration of a variable uses no names. -/
theorem VarDecl.covers {d : VarDecl} (hd : t.HasVarDecl d) : Covers t d.ids [] := by
  obtain ⟨hn, hshape⟩ := hd
  refine .skip (hn.not_usesName rfl) (.quiet fun id hid => ?_)
  cases h : d.shape with
  | scalar => simp [h, Shape.first, Shape.second] at hid
  | array id' length =>
    rw [h] at hshape hid
    obtain rfl : id = id' := by simpa [Shape.first, Shape.second] using hid
    exact Tree.Has.not_usesName hshape rfl
  | initialized value =>
    rw [h] at hshape hid
    obtain rfl : id = value.id := by simpa [Shape.first, Shape.second] using hid
    exact Tree.HasLiteral.not_usesName hshape

namespace Stmt

theorem bodyReferences_eq (scopes : List (List Declaration)) (body : List Stmt) :
    bodyReferences scopes body = body.flatMap (references scopes) := by
  induction body with
  | nil => rfl
  | cons st rest ih => rw [bodyReferences, ih, List.flatMap_cons]

theorem covers {st : Stmt} (hst : t.HasStmt st) (scopes : List (List Declaration)) :
    Covers t st.ids (st.references scopes) := by
  induction st generalizing scopes with
  | assignment id target value =>
    cases hst with
    | assignment hn ht hv =>
      exact .skip (hn.not_usesName rfl)
        ((target.expr.covers ht scopes).append (value.covers hv scopes))
  | call call =>
    cases hst with
    | call hc => exact call.expr.covers hc scopes
  | ifThen id branch condition yes ih =>
    cases hst with
    | ifThen hn hbranch hc hy =>
      refine .skip (hn.not_usesName rfl) (.skip (hbranch.not_usesName rfl) ?_)
      exact (condition.covers hc scopes).append (ih hy scopes)
  | ifElse id branch condition yes other no ihy ihn =>
    cases hst with
    | ifElse hn hbranch ho hc hy hno =>
      refine .skip (hn.not_usesName rfl) (.skip (hbranch.not_usesName rfl)
        (.skip (ho.not_usesName rfl) ?_))
      exact ((condition.covers hc scopes).append (ihy hy scopes)).append (ihn hno scopes)
  | loop id condition body ih =>
    cases hst with
    | loop hn hc hb =>
      exact .skip (hn.not_usesName rfl) ((condition.covers hc scopes).append (ih hb scopes))
  | returnValue id value =>
    cases hst with
    | returnValue hn hv =>
      refine .skip (hn.not_usesName rfl) (.flatMap fun e he => ?_)
      exact e.covers (hv e (Option.mem_toList.1 he)) scopes
  | jump id j =>
    cases hst with
    | jump hn =>
      have jumps := hn.imp fun n hn => And.intro hn trivial
      exact .skip (jumps.not_usesName (by cases j <;> rfl)) (.quiet (by simp))
  | block id locals body ih =>
    cases hst with
    | block hn hvars hstmts =>
      rw [references, bodyReferences_eq, ids, bodyIds_eq]
      have declared := Covers.flatMap_nil fun d hd => VarDecl.covers (hvars d hd)
      exact .skip (hn.not_usesName rfl)
        (declared.append (.flatMap fun st hst => ih st hst (hstmts st hst) _))

end Stmt

theorem Method.covers {m : Method} (hm : t.HasMethod m) (globals : List Declaration) :
    Covers t m.ids (m.references globals) := by
  have params : Covers t (m.params.map Param.id) [] := by
    refine .quiet fun id hid => ?_
    obtain ⟨param, hparam, rfl⟩ := List.mem_map.1 hid
    exact Tree.Has.not_usesName (hm.params param hparam) rfl
  exact .skip (hm.node.not_usesName rfl) (params.append (m.block.covers hm.block _))

theorem Extern.covers {e : Extern} (he : t.HasExtern e) : Covers t e.ids [] := by
  refine .skip (he.node.not_usesName rfl) (.quiet fun id hid => ?_)
  obtain ⟨param, hparam, rfl⟩ := List.mem_map.1 hid
  exact Tree.Has.not_usesName (he.params param hparam) rfl

namespace Program

theorem covers_methods {methods : List Method} (h : ∀ m ∈ methods, t.HasMethod m)
    (globals : List Declaration) :
    Covers t (methods.flatMap Method.ids) (methodReferences globals methods) := by
  induction methods generalizing globals with
  | nil => exact .quiet (by simp)
  | cons m rest ih =>
    obtain ⟨hm, hrest⟩ := List.forall_mem_cons.1 h
    rw [List.flatMap_cons, methodReferences]
    exact (m.covers hm _).append (ih hrest _)

/-- **All names in use are references.** Each node of a program that uses a name is one of its names
in use. -/
theorem covers {p : Program} (hp : t.HasProgram p) : Covers t p.ids p.references := by
  have externs := Covers.flatMap_nil fun e he => Extern.covers (hp.externs e he)
  have fields := Covers.flatMap_nil fun d hd => VarDecl.covers (hp.fields d hd)
  have methods := covers_methods hp.methods p.declarations
  exact .skip (hp.root.not_usesName rfl) (externs.append
    (.skip (hp.package.not_usesName rfl) (fields.append methods)))

end Program

end Names

/-! ### The check -/

/-- The problem is a name that is not declared. -/
def Problem.isUndeclared : Problem → Bool
  | undeclaredIdentifier _ => true
  | _ => false

/-- The name in use, if it was found not to be declared. -/
def Event.undeclared? (use : NodeId × Except String SymbolId) : Option (Problem × NodeId) :=
  match use.2 with
  | .error name => some (.undeclaredIdentifier name, use.1)
  | .ok _ => none

/-- The complaints about names that are not declared are those of the names in use. -/
theorem Event.filter_complaints (es : List Event) :
    (complaints es).filter (fun c => c.1.isUndeclared) = (uses es).filterMap undeclared? := by
  induction es with
  | nil => rfl
  | cons e es ih =>
    rw [complaints_cons, uses_cons, List.filter_append, List.filterMap_append, ih]
    cases e with
    | complain problem id => cases problem <;> rfl
    | type | link | size | declare => rfl

theorem Reference.filterMap_undeclared {all : List Event} {refs : List Reference}
    {uses : List (NodeId × Except String SymbolId)}
    (h : List.Forall₂ (Reference.Settled all) refs uses) :
    uses.filterMap Event.undeclared? = (refs.filter fun r => r.resolve.isNone).map fun r =>
      (.undeclaredIdentifier r.name, r.id) := by
  induction h with
  | nil => rfl
  | @cons r use refs uses hsettled _ ih =>
    rw [List.filterMap_cons, List.filter_cons]
    cases hresolve : r.resolve with
    | none => simp [Event.undeclared?, hsettled.undeclared hresolve, hsettled.node, ih]
    | some d =>
      obtain ⟨number, e, huse, -⟩ := hsettled.declared d hresolve
      simp [Event.undeclared?, huse, ih]

theorem exists_of_mem_left {α β : Type} {R : α → β → Prop} {as : List α} {bs : List β}
    (h : List.Forall₂ R as bs) {a : α} (ha : a ∈ as) : ∃ b ∈ bs, R a b := by
  induction h with
  | nil => cases ha
  | cons hab _ ih =>
    rcases List.mem_cons.1 ha with rfl | ha
    · exact ⟨_, List.mem_cons_self .., hab⟩
    · obtain ⟨b, hb, hR⟩ := ih ha
      exact ⟨b, List.mem_cons_of_mem _ hb, hR⟩

namespace CompilationUnit

variable {u : CompilationUnit} {p : Program}

/-- A name that belongs to a declaration is left with the symbol of it, which is among the events
that its name is settled by. -/
theorem Holds.symbol_of_settled (h : u.Holds p) {all : List Event} {r : Reference}
    {use : NodeId × Except String SymbolId} (hsettled : r.Settled all use)
    (huse : use ∈ Event.uses p.events) {d : Declaration} (hd : r.resolve = some d) :
    ∃ number e, (u.tree.annotate p.events).Has r.id (fun n => n.symbol = some number) ∧
      .declare d.id number e ∈ all ∧ e.name = r.name := by
  obtain ⟨number, e, houtcome, hmem, hname⟩ := hsettled.declared d hd
  refine ⟨number, e, ?_, hmem, hname⟩
  obtain ⟨id, outcome⟩ := use
  obtain ⟨ev, hev, huse⟩ := List.mem_filterMap.1 huse
  have link : ev.link? = some (r.id, number) := by
    rw [← hsettled.node]
    cases ev with
    | link => simp_all [Event.use?, Event.link?]
    | complain problem => cases problem <;> simp_all [Event.use?]
    | type | size | declare => simp [Event.use?] at huse
  exact h.symbol_of_link hev link

/-- A name that belongs to a declaration is left with the symbol of it. -/
theorem Holds.symbol_of_resolve (h : u.Holds p) {r : Reference} (hr : r ∈ p.references)
    {d : Declaration} (hd : r.resolve = some d) :
    ∃ number e, (u.tree.annotate p.events).Has r.id (fun n => n.symbol = some number) ∧
      (u.tree.annotate p.events).Has d.id (fun n => n.symbol = some number) ∧
        (Event.declared p.events)[number.index]? = some e ∧ e.name = r.name := by
  obtain ⟨use, huse, hsettled⟩ := exists_of_mem_left p.settled hr
  obtain ⟨number, e, hsymbol, hmem, hname⟩ := h.symbol_of_settled hsettled huse hd
  obtain ⟨hdeclared, hentry⟩ := h.entry_of_declare hmem
  exact ⟨number, e, hsymbol, hdeclared, hentry, hname⟩

/-- A name that belongs to no declaration is left without a symbol, as it was. -/
theorem Holds.symbol_of_unresolved (h : u.Holds p)
    (hunlinked : ∀ id ∈ p.ids, u.tree.Has id fun n => n.symbol = none) {r : Reference}
    (hr : r ∈ p.references) (hnone : r.resolve = none) :
    (u.tree.annotate p.events).Has r.id fun n => n.symbol = none := by
  obtain ⟨⟨id, outcome⟩, huse, hsettled⟩ := exists_of_mem_left p.settled hr
  have houtcome := hsettled.undeclared hnone
  obtain ⟨ev, hev, huse⟩ := List.mem_filterMap.1 huse
  have complaint : ev.site? = some r.id ∧ ev.link? = none := by
    rw [← hsettled.node]
    cases ev with
    | complain problem => cases problem <;> simp_all [Event.use?, Event.site?, Event.link?]
    | link => simp_all [Event.use?]
    | type | size | declare => simp [Event.use?] at huse
  obtain ⟨n, hn, hsymbol⟩ := h.symbol_of_site hev complaint.1
  have site : r.id ∈ Event.sites p.events := List.mem_filterMap.2 ⟨ev, hev, complaint.1⟩
  obtain ⟨n', hn', hunlinked⟩ := hunlinked r.id (Program.mem_ids_of_mem_sites site)
  rw [hn] at hn'
  cases hn'
  rwa [complaint.2, hunlinked] at hsymbol

/-- **Names are resolved lexically.** The check of a program without links comes to an end, whatever
else is wrong with the program. All nodes that use a name are among its names in use. A name in use
has the symbol of the declaration that it belongs to then, or none if there is no such declaration,
and the names of the second kind are reported one by one. -/
theorem resolve_of_check (h : u.Holds p)
    (hunlinked : ∀ id ∈ p.ids, u.tree.Has id fun n => n.symbol = none) :
    ∃ diagnostics checked, u.check = .ok (diagnostics, checked) ∧
      (∀ id ∈ p.ids, u.tree.Has id (fun n => n.kind.usesName = true) →
        ∃ r ∈ p.references, r.id = id ∧ u.tree.Has id fun n => n.text = r.name) ∧
      (∀ r ∈ p.references,
        (∀ d, r.resolve = some d → ∃ number e,
          checked.tree.Has r.id (fun n => n.symbol = some number) ∧
            checked.tree.Has d.id (fun n => n.symbol = some number) ∧
              checked.table.store[number.index]? = some e ∧ e.name = r.name) ∧
        (r.resolve = none → checked.tree.Has r.id fun n => n.symbol = none)) ∧
      diagnostics.filter (fun d => d.problem.isUndeclared) =
        (p.references.filter fun r => r.resolve.isNone).map fun r =>
          ⟨.undeclaredIdentifier r.name, u.tree.position r.id⟩ := by
  refine ⟨_, _, check_eq h, p.covers h.held,
    fun r hr => ⟨fun d hd => ?_, h.symbol_of_unresolved hunlinked hr⟩, ?_⟩
  · simpa using h.symbol_of_resolve hr hd
  · rw [List.filter_map]
    have undeclared := Event.filter_complaints p.events
    rw [Reference.filterMap_undeclared p.settled] at undeclared
    refine (congrArg (List.map _) undeclared).trans ?_
    rw [List.map_map]
    rfl

theorem resolve_of_check_shadowing :
    shadowingUnit.Holds shadowing ∧
      (∀ id ∈ shadowing.ids, shadowingUnit.tree.Has id fun n => n.symbol = none) ∧
      ∃ diagnostics checked, shadowingUnit.check = .ok (diagnostics, checked) ∧
        diagnostics.filter (fun d => d.problem.isUndeclared) =
          [⟨.undeclaredIdentifier "z", .null⟩] := by
  have unlinked : ∀ id ∈ shadowing.ids, shadowingUnit.tree.Has id fun n => n.symbol = none := by
    intro id hid
    obtain ⟨n, hn⟩ := Tree.node_ok_of_lt (holds_shadowing.held.lt_size id hid)
    have blank : ∀ n ∈ shadowingUnit.tree.nodes, n.symbol = none := by decide
    exact ⟨n, hn, blank n (Array.mem_of_getElem? (Tree.node_eq_ok_iff.1 hn))⟩
  obtain ⟨diagnostics, checked, hcheck, -, -, hundeclared⟩ :=
    resolve_of_check holds_shadowing unlinked
  exact ⟨holds_shadowing, unlinked, diagnostics, checked, hcheck, hundeclared⟩

end CompilationUnit

end DecafStatics
