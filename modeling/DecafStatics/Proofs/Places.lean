import DecafStatics.Proofs.Kinds
import DecafStatics.Proofs.MethodBody
import DecafStatics.Proofs.Resolution
import DecafStatics.Proofs.Storage
import Mathlib.Data.List.Nodup

/-!
# Expressions in their places

A program has expressions in many places, and each is typed in an environment of its own. Which
names it sees there is a matter of the scopes around it, and what they denote can be looked up when
the check is over: a symbol stays linked to the node that declares it, and the parameters of a
method stay where they are. So typing in the midst of a check comes to the same as typing behind it,
in an environment that is read off the checked unit.

The transcript of a program then consists of the events of its expressions, each typed behind the
check, and of events about other constructs.

## Implementation notes

In the midst of a check the symbol of a method does not have its size yet. Typing does not look at
sizes, which is what `Binding.Alike` says.

Behind the events of a condition or of an initial value may come the complaint that its type is not
the one that is wanted there. It is about the same node, but it is no part of typing it.

## Main definitions

* `Place` — an expression and the scopes around it
* `Binding.Alike`, `Env.Alike` — what typing cannot tell apart
* `Binding.Entered` — a symbol in sight that the transcript enters
* `CompilationUnit.env` — what names denote behind a check
* `Consists` — events that are those of expressions, and others

## Main results

* `Expr.events_congr` — typing in environments that are alike
* `Program.consists` — the transcript of a program, taken apart
-/

namespace DecafStatics

/-! ### What typing cannot tell apart -/

/-- Two bindings that typing cannot tell apart. -/
structure Binding.Alike (b b' : Binding) : Prop where
  id : b.id = b'.id
  kind : b.symbol.kind = b'.symbol.kind
  ty : b.symbol.ty = b'.symbol.ty
  formals : b.symbol.kind.isCallable = true → b.formals = b'.formals

/-- Each name denotes what typing cannot tell apart, or nothing in both environments. -/
def Env.Alike (Γ Γ' : Env) : Prop := ∀ name, (Γ name = none ∧ Γ' name = none) ∨
  ∃ b b', Γ name = some b ∧ Γ' name = some b' ∧ b.Alike b'

section Congruence

variable {Γ Γ' : Env} (h : Γ.Alike Γ')

include h

theorem Expr.type_congr (e : Expr) : e.type Γ = e.type Γ' := by
  have named : ∀ name, ((Γ name).map fun b => b.symbol.ty) =
      (Γ' name).map fun b => b.symbol.ty := by
    intro name
    rcases h name with ⟨hb, hb'⟩ | ⟨b, b', hb, hb', halike⟩
    · rw [hb, hb']
    · rw [hb, hb', Option.map_some, Option.map_some, halike.ty]
  cases e with
  | literal | unary | binary => rfl
  | plain id access name => exact named name
  | element id access name index => exact named name
  | call id name arguments =>
    rw [type, type]
    rcases h name with ⟨hb, hb'⟩ | ⟨b, b', hb, hb', halike⟩
    · rw [hb, hb']
    · simp only [hb, hb', Option.bind_some, halike.kind, halike.ty]

theorem reference_congr (id : NodeId) (name : String) {judge judge' : Binding → List Event}
    (hjudge : ∀ b b', b.Alike b' → judge b = judge' b') :
    reference Γ id name judge = reference Γ' id name judge' := by
  rw [reference, reference]
  rcases h name with ⟨hb, hb'⟩ | ⟨b, b', hb, hb', halike⟩
  · rw [hb, hb']
  · simp only [hb, hb', halike.id, hjudge b b' halike]

omit h in
theorem misuse_congr (name : String) {b b' : Binding} (hb : b.Alike b') (used : SymbolKind)
    (id : NodeId) : misuse name b used id = misuse name b' used id := by
  rw [misuse, misuse, hb.kind]

theorem Expr.findings_congr (e : Expr) : e.findings Γ = e.findings Γ' := by
  induction e with
  | literal => rfl
  | plain id access name =>
    exact reference_congr h id name fun b b' hb => misuse_congr name hb .scalar id
  | element id access name index ih =>
    rw [findings, findings, ih, index.type_congr h]
    refine congrArg _ (reference_congr h id name fun b b' hb => ?_)
    rw [misuse_congr name hb]
  | unary id op arity operand ih => rw [findings, findings, ih, operand.type_congr h]
  | binary id op arity left right ihl ihr =>
    rw [findings, findings, ihl, ihr, left.type_congr h, right.type_congr h]
  | call id name arguments ih =>
    have inside : argumentEvents Γ arguments = argumentEvents Γ' arguments := by
      rw [argumentEvents_eq, argumentEvents_eq]
      refine List.flatMap_congr fun a ha => ?_
      rw [events, events, ih a ha, a.2.type_congr h]
    have types : (arguments.map fun a => a.2.type Γ) = arguments.map fun a => a.2.type Γ' :=
      List.map_congr_left fun a _ => a.2.type_congr h
    rw [findings, findings, inside, types]
    refine congrArg _ (reference_congr h id name fun b b' hb => ?_)
    rw [hb.kind]
    split
    · rename_i callable
      rw [misfit, misfit, hb.formals (hb.kind ▸ callable)]
    · rfl

/-- Typing leaves the same behind in environments that are alike. -/
theorem Expr.events_congr (e : Expr) : e.events Γ = e.events Γ' := by
  rw [events, events, e.findings_congr h, e.type_congr h]

end Congruence

/-! ### Places -/

/-- An expression and the scopes around it, from the inside out. -/
structure Place where
  expr : Expr
  scopes : List (List Declaration)

/-- The initial value of a variable, which uses no names. -/
def VarDecl.places (d : VarDecl) : List Place :=
  match d.shape with
  | .initialized value => [⟨.literal value, []⟩]
  | .scalar | .array .. => []

namespace Stmt

mutual

/-- The expressions of a statement. -/
def places (scopes : List (List Declaration)) : Stmt → List Place
  | assignment _ target value => [⟨target.expr, scopes⟩, ⟨value, scopes⟩]
  | call c => [⟨c.expr, scopes⟩]
  | ifThen _ _ condition yes => ⟨condition, scopes⟩ :: yes.places scopes
  | ifElse _ _ condition yes _ no => ⟨condition, scopes⟩ :: (yes.places scopes ++ no.places scopes)
  | loop _ condition body => ⟨condition, scopes⟩ :: body.places scopes
  | returnValue _ value => value.toList.map fun e => ⟨e, scopes⟩
  | jump _ _ => []
  | block _ locals body =>
    locals.flatMap VarDecl.places ++ bodyPlaces (locals.map VarDecl.declaration :: scopes) body

/-- The expressions of the statements of a block. -/
def bodyPlaces (scopes : List (List Declaration)) : List Stmt → List Place
  | [] => []
  | st :: rest => st.places scopes ++ bodyPlaces scopes rest

end

theorem bodyPlaces_eq (scopes : List (List Declaration)) (body : List Stmt) :
    bodyPlaces scopes body = body.flatMap fun st => st.places scopes := by
  induction body with
  | nil => rfl
  | cons st rest ih => rw [bodyPlaces, ih, List.flatMap_cons]

end Stmt

/-- The expressions of a method, where these are the global names up to its own. -/
def Method.places (globals : List Declaration) (m : Method) : List Place :=
  m.block.places [m.params.map Param.declaration, globals]

namespace Program

/-- The expressions of methods, behind some global names. -/
def methodPlaces (globals : List Declaration) : List Method → List Place
  | [] => []
  | m :: rest =>
    m.places (globals ++ [m.declaration]) ++ methodPlaces (globals ++ [m.declaration]) rest

/-- The expressions of a program, in the order of the text. -/
def places (p : Program) : List Place :=
  p.fields.flatMap VarDecl.places ++ methodPlaces p.declarations p.methods

end Program

/-! ### The nodes of expressions -/

section Nodes

theorem VarDecl.sublist_kinds (d : VarDecl) :
    (d.places.flatMap fun q => q.expr.kinds).Sublist d.kinds := by
  rw [places, kinds]
  cases d.shape with
  | scalar | array => exact List.nil_sublist _
  | initialized value => simp [Shape.kinds, Expr.kinds]

/-- The nodes of the expressions of a statement are nodes of the statement. -/
theorem Stmt.sublist_kinds (scopes : List (List Declaration)) (st : Stmt) :
    ((st.places scopes).flatMap fun q => q.expr.kinds).Sublist st.kinds := by
  induction st generalizing scopes with
  | assignment id target value => simp [places, kinds]
  | call c => simp [places, kinds]
  | ifThen id branch condition yes ih =>
    rw [places, kinds, List.flatMap_cons]
    exact (((List.Sublist.refl _).append (ih scopes)).cons _).cons _
  | ifElse id branch condition yes other no ihy ihn =>
    rw [places, kinds, List.flatMap_cons, List.flatMap_append, List.append_assoc]
    exact ((((List.Sublist.refl _).append ((ihy scopes).append (ihn scopes))).cons _).cons _).cons _
  | loop id condition body ih =>
    rw [places, kinds, List.flatMap_cons]
    exact ((List.Sublist.refl _).append (ih scopes)).cons _
  | returnValue id value =>
    rw [places, kinds, List.flatMap_map]
    exact (List.Sublist.refl _).cons _
  | jump id j => exact List.nil_sublist _
  | block id locals body ih =>
    rw [places, kinds, bodyPlaces_eq, bodyKinds_eq, List.flatMap_append, List.flatMap_assoc,
      List.flatMap_assoc]
    exact ((List.Sublist.flatMap_right _ fun d _ => d.sublist_kinds).append
      (List.Sublist.flatMap_right _ fun st hst => ih st hst _)).cons _

theorem Method.sublist_kinds (globals : List Declaration) (m : Method) :
    ((m.places globals).flatMap fun q => q.expr.kinds).Sublist m.kinds :=
  ((m.block.sublist_kinds _).trans (List.sublist_append_right ..)).cons _

theorem Program.sublist_methodKinds (globals : List Declaration) (methods : List Method) :
    ((methodPlaces globals methods).flatMap fun q => q.expr.kinds).Sublist
      (methods.flatMap Method.kinds) := by
  induction methods generalizing globals with
  | nil => exact List.nil_sublist _
  | cons m rest ih =>
    rw [methodPlaces, List.flatMap_append, List.flatMap_cons]
    exact (m.sublist_kinds _).append (ih _)

/-- The nodes of the expressions of a program are nodes of the program. -/
theorem Program.sublist_kinds (p : Program) :
    (p.places.flatMap fun q => q.expr.kinds).Sublist p.kinds := by
  rw [places, kinds, List.flatMap_append, List.flatMap_assoc]
  refine List.Sublist.cons _ (.trans ?_ (List.sublist_append_right ..))
  exact ((List.Sublist.flatMap_right _ fun d _ => d.sublist_kinds).append
    (sublist_methodKinds _ _)).cons _

/-- Each node of a program is of one kind. -/
theorem Program.kind_unique {p : Program} (h : p.ids.Nodup) {x y : NodeId × NodeKind}
    (hx : x ∈ p.kinds) (hy : y ∈ p.kinds) (hid : x.1 = y.1) : x = y :=
  List.inj_on_of_nodup_map (p.map_fst_kinds ▸ h) hx hy hid

end Nodes

/-! ### Symbols in sight -/

/-- The symbol is entered in `all`, where it may have another size, and what can be called has its
parameters in the tree. -/
structure Binding.Entered (t : Tree) (all : List Event) (b : Binding) : Prop where
  symbol : ∃ e, .declare b.node b.id e ∈ all ∧ b.symbol = { e with size := b.symbol.size }
  formals : b.symbol.kind.isCallable = true → t.HasFormals b.symbol.params b.formals

/-- All that is in sight is entered in `all`. -/
def Context.Enters (t : Tree) (all : List Event) (c : Context) : Prop :=
  ∀ b ∈ c.bindings, b.Entered t all

section Entered

variable {t : Tree} {all : List Event} {c : Context} {node : NodeId} {symbol : Symbol}
  {formals : List Ty}

namespace Context.Enters

theorem start : Context.start.Enters t all := List.forall_mem_nil _

theorem declare (h : c.Enters t all)
    (hall : ¬ c.Taken symbol.name →
      ∃ e, .declare node ⟨c.count⟩ e ∈ all ∧ symbol = { e with size := symbol.size })
    (hformals : symbol.kind.isCallable = true → t.HasFormals symbol.params formals) :
    (c.declare node symbol formals).Enters t all := by
  by_cases taken : c.Taken symbol.name
  · rwa [declare_of_taken taken]
  · rw [declare_of_not_taken taken]
    exact List.forall_mem_cons.2 ⟨⟨hall taken, hformals⟩, h⟩

theorem store (h : c.Enters t all) {name : String} {ty : Ty} {kind : SymbolKind} {size : Nat}
    (hkind : kind.isCallable = false)
    (hall : ∀ ev ∈ c.storing node name ty kind size, ev ∈ all) :
    (c.store node name ty kind size).Enters t all := by
  by_cases taken : c.Taken name
  · rwa [store_of_taken taken]
  · rw [store_of_not_taken taken]
    have entered := hall _ (List.mem_cons_of_mem _ (declare_mem_declaring
      (show ¬ c.Taken (c.stored name ty kind size).name from taken)))
    refine List.forall_mem_cons.2 ⟨⟨⟨_, entered, rfl⟩, fun callable => ?_⟩, h⟩
    simp [stored, hkind] at callable

/-- Behind declarations one after the other. -/
theorem along {α : Type} {events : Context → α → List Event} {next : Context → α → Context}
    {l : List α}
    (step : ∀ a ∈ l, ∀ c : Context, c.Enters t all → (∀ ev ∈ events c a, ev ∈ all) →
      (next c a).Enters t all)
    (h : c.Enters t all) (hall : ∀ ev ∈ c.along events next l, ev ∈ all) :
    (l.foldl next c).Enters t all := by
  induction l generalizing c with
  | nil => exact h
  | cons a rest ih =>
    obtain ⟨ha, hrest⟩ := List.forall_mem_cons.1 step
    obtain ⟨hfirst, hothers⟩ := List.forall_mem_append.1 hall
    exact ih hrest (ha c h hfirst) hothers

end Context.Enters

theorem VarDecl.enters (h : c.Enters t all) (d : VarDecl) (hall : ∀ ev ∈ d.events c, ev ∈ all) :
    (d.next c).Enters t all := by
  rw [events] at hall
  rw [next]
  split at hall
  · exact h
  · rename_i kind size hshape
    refine h.store ?_ fun ev hev => hall ev (List.mem_append_left _ hev)
    unfold Check.variableShape at hshape
    split at hshape
    · cases hshape
      rfl
    · split at hshape <;> cases hshape
      rfl

theorem Param.enters (h : c.Enters t all) (param : Param)
    (hall : ∀ ev ∈ param.events c, ev ∈ all) : (param.next c).Enters t all :=
  h.store rfl hall

theorem Extern.enters (h : c.Enters t all) {e : Extern} (he : t.HasExtern e)
    (hall : ∀ ev ∈ e.events c, ev ∈ all) : (e.next c).Enters t all :=
  h.declare (fun free => ⟨_, hall _ (Context.declare_mem_declaring free), rfl⟩)
    fun _ => Check.hasFormals_of_hasExtern he

theorem Method.enters_scope (h : c.Enters t all) {m : Method} (hm : t.HasMethod m)
    (hall : ∀ ev ∈ m.events c, ev ∈ all) : (m.scope c).Enters t all := by
  have named : (c.declare m.id (m.symbol c frameHeaderWords) m.formals).Enters t all :=
    h.declare (fun free => ⟨m.symbol c (m.words c), hall _ (mem_events_of_mem_declaring
      (Context.declare_mem_declaring (show ¬ c.Taken m.name from free))), rfl⟩)
      fun _ => Check.hasFormals_of_hasMethod hm
  exact named

theorem Method.enters (h : c.Enters t all) {m : Method} (hm : t.HasMethod m)
    (hall : ∀ ev ∈ m.events c, ev ∈ all) : (m.next c).Enters t all := by
  have named : (c.declare m.id (m.symbol c (m.words c)) m.formals).Enters t all :=
    h.declare (fun free => ⟨_, hall _ (mem_events_of_mem_declaring
      (Context.declare_mem_declaring free)), rfl⟩) fun _ => Check.hasFormals_of_hasMethod hm
  exact named

end Entered

/-! ### Environments behind a check -/

namespace CompilationUnit

/-- Problems with nodes, as diagnostics about the places of these nodes. -/
def located (u : CompilationUnit) (reports : List (Problem × NodeId)) : List Diagnostic :=
  reports.map fun x => ⟨x.1, u.tree.position x.2⟩

/-- The type of the node `id`. -/
def typeAt (u : CompilationUnit) (id : NodeId) : Option Ty := u.tree.nodes[id.index]?.bind Node.ty

/-- The types of the parameters from `head` on. -/
def formals (u : CompilationUnit) (head : Option NodeId) : List Ty :=
  match u.tree.siblings head with
  | .ok params => params.filterMap u.typeAt
  | .error _ => []

/-- The symbol that a declaration entered, with its number and the types of its parameters. -/
def binding? (u : CompilationUnit) (declaration : NodeId) : Option Binding := do
  let n ← u.tree.nodes[declaration.index]?
  let number ← n.symbol
  let e ← u.table.store[number.index]?
  return ⟨number, declaration, e, u.formals e.params⟩

/-- What names denote inside of some scopes: what the declaration that the name belongs to
entered. -/
def env (u : CompilationUnit) (scopes : List (List Declaration)) : Env := fun name =>
  (lookup scopes name).bind fun d => u.binding? d.id

variable {u : CompilationUnit} {p : Program}

theorem typeAt_of_has {id : NodeId} {ty : Option Ty} (h : u.tree.Has id fun n => n.ty = ty) :
    u.typeAt id = ty := by
  obtain ⟨n, hn, rfl⟩ := h
  rw [typeAt, Tree.node_eq_ok_iff.1 hn, Option.bind_some]

/-- The types of the parameters are those that the tree has there. -/
theorem formals_of_hasFormals {head : Option NodeId} {formals : List Ty}
    (h : u.tree.HasFormals head formals) : u.formals head = formals := by
  obtain ⟨params, rfl, hlinked, hhas⟩ := h
  have typed : ∀ param ∈ params, u.typeAt param.1 = some param.2 := fun param hparam =>
    typeAt_of_has ((hhas param hparam).imp fun n hn => hn.2)
  have entered : (params.map Prod.fst).filterMap u.typeAt = params.map Prod.snd := by
    rw [List.filterMap_map]
    exact List.filterMap_eq_map_iff_forall_eq_some.2 typed
  rw [CompilationUnit.formals, Tree.siblings_eq_ok_iff.2 hlinked]
  exact entered

namespace Holds

/-- Checking leaves the text of the tree as it was. -/
theorem text_checked (h : u.Holds p) : (u.checked p).tree.bare = u.tree.bare := h.plays.stands.text

/-- A symbol that was in sight is found behind the check. -/
theorem binding?_eq (h : u.Holds p) {b : Binding} (hb : b.Entered u.tree p.events) :
    ∃ b', (u.checked p).binding? b.node = some b' ∧ b.Alike b' := by
  obtain ⟨e, hmem, hsymbol⟩ := hb.symbol
  obtain ⟨⟨n, hn, hlink⟩, hentry⟩ := h.entry_of_declare hmem
  have found : (u.checked p).tree.nodes[b.node.index]? = some n := Tree.node_eq_ok_iff.1 hn
  have stored : (u.checked p).table.store[b.id.index]? = some e := by
    simpa [checked] using hentry
  refine ⟨⟨b.id, b.node, e, (u.checked p).formals e.params⟩, ?_, rfl, ?_, ?_, fun callable => ?_⟩
  · simp [binding?, found, hlink, stored]
  · rw [hsymbol]
  · rw [hsymbol]
  · have formals := (hb.formals callable).of_bare_eq h.text_checked
    rw [hsymbol] at formals
    exact (formals_of_hasFormals formals).symm

/-- What names denote in the midst of a check, they denote behind it. -/
theorem alike_env (h : u.Holds p) {c : Context} {current : List Declaration}
    {outer : List (List Declaration)} (hc : c.Mirrors p.events current outer)
    (he : c.Enters u.tree p.events) : c.find?.Alike ((u.checked p).env (current :: outer)) := by
  intro name
  have hfind := hc.find name
  rw [env]
  cases hlookup : lookup (current :: outer) name with
  | none =>
    rw [hlookup, Option.map_none, Option.map_eq_none_iff] at hfind
    exact .inl ⟨hfind, rfl⟩
  | some d =>
    rw [hlookup, Option.map_some, Option.map_eq_some_iff] at hfind
    obtain ⟨b, hb, hnode⟩ := hfind
    obtain ⟨b', hb', alike⟩ := h.binding?_eq (he b (List.mem_of_find?_eq_some hb))
    rw [hnode] at hb'
    exact .inr ⟨b, b', hb, hb', alike⟩

end Holds

end CompilationUnit

/-! ### Transcripts taken apart -/

/-- The event is one that only expressions leave behind: a type, what a name denotes, or what is
wrong with that. -/
def Event.ofExpression : Event → Bool
  | type .. | link .. => true
  | complain (.undeclaredIdentifier _) _ | complain (.kindMismatch ..) _
  | complain (.parameterMismatch ..) _ => true
  | size .. | declare .. | complain .. => false

/-- The event is one that only declarations leave behind. -/
def Event.ofDeclaration : Event → Bool
  | size .. | declare .. => true
  | complain (.duplicateDeclaration ..) _ | complain (.invalidArraySize ..) _ => true
  | type .. | link .. | complain .. => false

/-- Nodes of these kinds declare a name. -/
def NodeKind.isDeclaration : NodeKind → Bool
  | externDecl | package | methodDecl | parameter | variableDecl => true
  | _ => false

theorem NodeKind.isExpression_of_isDeclaration {kind : NodeKind} (h : kind.isDeclaration = true) :
    kind.isExpression = false := by
  cases kind <;> first | rfl | cases h

/-- The event is about a construct that is no expression, and it is one of those that only
declarations leave behind if the construct is a declaration. -/
structure Event.Aside (kinds : List (NodeId × NodeKind)) (ev : Event) : Prop where
  ofExpression : ev.ofExpression = false
  kind : ∃ kind, (ev.node, kind) ∈ kinds ∧ kind.isExpression = false ∧
    kind.isDeclaration = ev.ofDeclaration

/-- A declaration leaves the event behind. -/
theorem Event.Aside.declaration {kinds : List (NodeId × NodeKind)} {ev : Event} {kind : NodeKind}
    (hkind : (ev.node, kind) ∈ kinds) (hdecl : kind.isDeclaration = true)
    (hexpr : ev.ofExpression = false) (hev : ev.ofDeclaration = true) : ev.Aside kinds :=
  ⟨hexpr, kind, hkind, kind.isExpression_of_isDeclaration hdecl, hdecl.trans hev.symm⟩

/-- The events are those of the expressions in these places, typed in the environments that `Γ`
gives their scopes, with others around them. Behind those of an expression there may be the
complaint that it should have another type. -/
inductive Consists (kinds : List (NodeId × NodeKind)) (Γ : List (List Declaration) → Env) :
    List Event → List Place → Prop where
  | nil : Consists kinds Γ [] []
  | aside {ev : Event} {es : List Event} {qs : List Place} :
      ev.Aside kinds → Consists kinds Γ es qs → Consists kinds Γ (ev :: es) qs
  | place {q : Place} {ty : Option Ty} {es : List Event} {qs : List Place} (wanted : Ty) :
      Consists kinds Γ es qs →
      Consists kinds Γ (q.expr.events (Γ q.scopes) ++ mismatch wanted ty q.expr.id ++ es) (q :: qs)

namespace Consists

variable {kinds : List (NodeId × NodeKind)} {Γ : List (List Declaration) → Env}
  {es es' : List Event} {qs qs' : List Place}

theorem append (h : Consists kinds Γ es qs) (h' : Consists kinds Γ es' qs') :
    Consists kinds Γ (es ++ es') (qs ++ qs') := by
  induction h with
  | nil => exact h'
  | aside hev _ ih => exact .aside hev ih
  | place wanted _ ih =>
    rw [List.append_assoc]
    exact .place wanted ih

theorem asides (h : ∀ ev ∈ es, ev.Aside kinds) : Consists kinds Γ es [] := by
  induction es with
  | nil => exact .nil
  | cons ev es ih =>
    obtain ⟨hev, hes⟩ := List.forall_mem_cons.1 h
    exact .aside hev (ih hes)

/-- One expression, typed in an environment that is like the one of its scopes. -/
theorem expr {Γ' : Env} {scopes : List (List Declaration)} (h : Γ'.Alike (Γ scopes)) (e : Expr) :
    Consists kinds Γ (e.events Γ') [⟨e, scopes⟩] := by
  have place : Consists kinds Γ (e.events (Γ scopes) ++ mismatch .int none e.id ++ []) _ :=
    .place (q := ⟨e, scopes⟩) .int .nil
  rw [e.events_congr h]
  simpa [mismatch] using place

/-- A condition. -/
theorem condition {Γ' : Env} {scopes : List (List Declaration)} (h : Γ'.Alike (Γ scopes))
    (e : Expr) : Consists kinds Γ (conditionEvents Γ' e) [⟨e, scopes⟩] := by
  have place : Consists kinds Γ
      (e.events (Γ scopes) ++ mismatch .bool (e.type Γ') e.id ++ []) _ :=
    .place (q := ⟨e, scopes⟩) .bool .nil
  rw [conditionEvents, e.events_congr h]
  simpa using place

end Consists

section Parts

variable {kinds : List (NodeId × NodeKind)} {Γ : List (List Declaration) → Env} {c : Context}

/-- What declaring leaves behind is about the node that declares. -/
theorem Context.aside_declaring {node : NodeId} {kind : NodeKind} (hkind : (node, kind) ∈ kinds)
    (hdecl : kind.isDeclaration = true) (symbol : Symbol) :
    ∀ ev ∈ c.declaring node symbol, ev.Aside kinds := by
  rw [declaring]
  split
  · exact List.forall_mem_singleton.2 (.declaration hkind hdecl rfl rfl)
  · exact List.forall_mem_singleton.2 (.declaration hkind hdecl rfl rfl)

theorem Context.aside_storing {node : NodeId} {kind : NodeKind} (hkind : (node, kind) ∈ kinds)
    (hdecl : kind.isDeclaration = true) (name : String) (ty : Ty) (sort : SymbolKind) (size : Nat) :
    ∀ ev ∈ c.storing node name ty sort size, ev.Aside kinds :=
  List.forall_mem_cons.2 ⟨.declaration hkind hdecl rfl rfl, aside_declaring hkind hdecl _⟩

theorem aside_mismatch {id : NodeId} {kind : NodeKind} (hkind : (id, kind) ∈ kinds)
    (hexpr : kind.isExpression = false) (hdecl : kind.isDeclaration = false) (wanted : Ty)
    (received : Option Ty) : ∀ ev ∈ mismatch wanted received id, ev.Aside kinds := by
  unfold mismatch
  split
  · exact List.forall_mem_nil _
  · split
    · exact List.forall_mem_nil _
    · exact List.forall_mem_singleton.2 ⟨rfl, kind, hkind, hexpr, hdecl⟩

/-- Constructs along which the events of each can be taken apart. -/
theorem Consists.along {α : Type} {events : Context → α → List Event}
    {next : Context → α → Context} {places : α → List Place} {l : List α}
    (h : ∀ a ∈ l, ∀ c : Context, Consists kinds Γ (events c a) (places a)) (c : Context) :
    Consists kinds Γ (c.along events next l) (l.flatMap places) := by
  induction l generalizing c with
  | nil => exact .nil
  | cons a rest ih =>
    obtain ⟨ha, hrest⟩ := List.forall_mem_cons.1 h
    exact (ha c).append (ih hrest (next c a))

/-- Constructs without expressions. -/
theorem Consists.asides_along {α : Type} {events : Context → α → List Event}
    {next : Context → α → Context} {l : List α}
    (h : ∀ a ∈ l, ∀ c : Context, ∀ ev ∈ events c a, ev.Aside kinds) (c : Context) :
    Consists kinds Γ (c.along events next l) [] := by
  have apart : Consists kinds Γ (c.along events next l) (l.flatMap fun _ => []) :=
    .along (fun a ha c => .asides (h a ha c)) c
  rwa [List.flatMap_eq_nil_iff.2 fun _ _ => rfl] at apart

theorem VarDecl.consists {d : VarDecl} (hkinds : d.kinds ⊆ kinds) (c : Context) :
    Consists kinds Γ (d.events c) d.places := by
  have own : (d.id, NodeKind.variableDecl) ∈ kinds := hkinds (List.mem_cons_self ..)
  rw [events]
  split
  · rename_i problem hshape
    obtain ⟨size, rfl⟩ := problem_of_error hshape
    have none : d.places = [] := by
      cases h : d.shape <;> simp [h, Shape.length, Check.variableShape, places] at hshape ⊢
    rw [none]
    exact .asides (List.forall_mem_singleton.2 (.declaration own rfl rfl rfl))
  · rename_i kind size _
    have declared : Consists kinds Γ (c.storing d.id d.name d.ty kind size) [] :=
      .asides (Context.aside_storing own rfl _ _ _ _)
    refine declared.append ?_
    cases d.shape with
    | scalar | array => exact .nil
    | initialized value =>
      have initial : Consists kinds Γ ((Expr.literal value).events (Γ []) ++
          mismatch d.ty (some value.ty) value.id ++ []) _ :=
        .place (q := ⟨.literal value, []⟩) d.ty .nil
      rwa [List.append_nil] at initial

theorem Param.consists {params : List Param}
    (hkinds : params.map (fun param => (param.id, NodeKind.parameter)) ⊆ kinds) (c : Context) :
    Consists kinds Γ (c.along events next params) [] :=
  .asides_along (fun _ hparam _ => Context.aside_storing (hkinds (List.mem_map_of_mem hparam)) rfl
    _ _ _ _) c

/-! ### Statements -/

variable {t : Tree} {all : List Event} {current : List Declaration}
  {outer : List (List Declaration)}

/-- Whatever the check has come to, `Γ` gives the environment there, by the scopes around. -/
def Env.Foresees (t : Tree) (all : List Event) (Γ : List (List Declaration) → Env) : Prop :=
  ∀ {c : Context} {current : List Declaration} {outer : List (List Declaration)},
    c.Mirrors all current outer → c.Enters t all → c.find?.Alike (Γ (current :: outer))

variable (hΓ : Env.Foresees t all Γ)

include hΓ

namespace Stmt

omit hΓ in
theorem consists_body (h : c.Mirrors all current outer) (he : c.Enters t all) {body : List Stmt}
    (hbody : ∀ st ∈ body, ∀ c : Context, c.Mirrors all current outer → c.Enters t all →
      (∀ ev ∈ st.events c, ev ∈ all) →
        Consists kinds Γ (st.events c) (st.places (current :: outer)))
    (hall : ∀ ev ∈ bodyEvents c body, ev ∈ all) :
    Consists kinds Γ (bodyEvents c body) (bodyPlaces (current :: outer) body) := by
  induction body generalizing c with
  | nil => exact .nil
  | cons st rest ih =>
    obtain ⟨hst, hrest⟩ := List.forall_mem_cons.1 hbody
    obtain ⟨hfirst, hothers⟩ := List.forall_mem_append.1 hall
    exact (hst c h he hfirst).append (ih (h.congr rfl rfl) he hrest hothers)

theorem consists_returnEvents (h : c.Mirrors all current outer) (he : c.Enters t all) {id : NodeId}
    (own : (id, NodeKind.returnValue) ∈ kinds) (value : Option Expr) :
    Consists kinds Γ (returnEvents c id value) ((returnValue id value).places (current :: outer)) := by
  have typed : Consists kinds Γ (value.elim [] fun e => e.events c.find?)
      (value.toList.map fun e => ⟨e, current :: outer⟩) := by
    cases value with
    | none => exact .nil
    | some e => exact .expr (hΓ h he) e
  have invalid : ∀ name, ∀ ev ∈ [Event.complain (.invalidReturn name) id], ev.Aside kinds :=
    fun name => List.forall_mem_singleton.2 ⟨rfl, _, own, rfl, rfl⟩
  rw [places, returnEvents, ← List.append_nil (value.toList.map _)]
  refine typed.append (.asides ?_)
  split
  · exact List.forall_mem_nil _
  · split
    · exact List.forall_mem_nil _
    · exact invalid _
    · exact invalid _
    · exact aside_mismatch own rfl rfl _ _

/-- **The events of a statement, taken apart.** -/
theorem consists (h : c.Mirrors all current outer) (he : c.Enters t all) (st : Stmt)
    (hall : ∀ ev ∈ st.events c, ev ∈ all) (hkinds : st.kinds ⊆ kinds) :
    Consists kinds Γ (st.events c) (st.places (current :: outer)) := by
  induction st generalizing c current outer with
  | assignment id target value =>
    have own : (id, NodeKind.assignment) ∈ kinds := hkinds (List.mem_cons_self ..)
    have both : Consists kinds Γ (target.expr.events c.find? ++ value.events c.find?) _ :=
      (Consists.expr (hΓ h he) target.expr).append (.expr (hΓ h he) value)
    have judged : Consists kinds Γ ((target.expr.type c.find?).elim [] fun wanted =>
        mismatch wanted (value.type c.find?) id) [] := by
      refine .asides ?_
      cases target.expr.type c.find? with
      | none => exact List.forall_mem_nil _
      | some wanted => exact aside_mismatch own rfl rfl _ _
    exact both.append judged
  | call call => exact .expr (hΓ h he) call.expr
  | ifThen id branch condition yes ih =>
    have inside := List.append_subset.1 (List.cons_subset.1 (List.cons_subset.1 hkinds).2).2
    exact (Consists.condition (hΓ h he) condition).append
      (ih h he (List.forall_mem_append.1 hall).2 inside.2)
  | ifElse id branch condition yes other no ihy ihn =>
    have inside := List.append_subset.1 (List.cons_subset.1 (List.cons_subset.1
      (List.cons_subset.1 hkinds).2).2).2
    obtain ⟨hfirst, hno⟩ := List.forall_mem_append.1 hall
    have both := (ihy h he (List.forall_mem_append.1 hfirst).2
      (List.append_subset.1 inside.1).2).append (ihn
        (c := c.after (yes.events c)) (h.congr rfl rfl) he hno inside.2)
    rw [events, List.append_assoc]
    exact (Consists.condition (hΓ h he) condition).append both
  | loop id condition body ih =>
    have inside := List.append_subset.1 (List.cons_subset.1 hkinds).2
    exact (Consists.condition (hΓ h he) condition).append
      (ih (h.congr rfl rfl) he (List.forall_mem_append.1 hall).2 inside.2)
  | returnValue id value =>
    exact consists_returnEvents hΓ h he (hkinds (List.mem_cons_self ..)) value
  | jump id j =>
    have own : (id, j.kind) ∈ kinds := hkinds (List.mem_cons_self ..)
    refine .asides ?_
    rw [events]
    split
    · exact List.forall_mem_singleton.2 ⟨rfl, _, own, by cases j <;> rfl, by cases j <;> rfl⟩
    · exact List.forall_mem_nil _
  | block id locals body ih =>
    obtain ⟨hlocals, hbody⟩ := List.forall_mem_append.1 hall
    rw [Stmt.kinds, bodyKinds_eq] at hkinds
    have inside := List.append_subset.1 (List.cons_subset.1 hkinds).2
    have declared : Consists kinds Γ (c.inner.along VarDecl.events VarDecl.next locals)
        (locals.flatMap VarDecl.places) :=
      .along (fun d hd c => d.consists
        (fun x hx => inside.1 (List.mem_flatMap.2 ⟨d, hd, hx⟩)) c) c.inner
    have mirrors : (c.locals locals).Mirrors all _ _ :=
      h.inner.along (fun c d current h hall => VarDecl.mirrors h d hall) hlocals
    have enters : (c.locals locals).Enters t all :=
      Context.Enters.along (c := c.inner) (fun d _ c h hall => d.enters h hall) he hlocals
    exact declared.append (consists_body mirrors enters
      (fun st hst c h he hall => ih st hst h he hall
        fun x hx => inside.2 (List.mem_flatMap.2 ⟨st, hst, hx⟩)) hbody)

end Stmt

theorem Method.consists (h : c.Mirrors all current []) (he : c.Enters t all) {m : Method}
    (hm : t.HasMethod m) (hall : ∀ ev ∈ m.events c, ev ∈ all) (hkinds : m.kinds ⊆ kinds) :
    Consists kinds Γ (m.events c) (m.places (current ++ [m.declaration])) := by
  have own : (m.id, NodeKind.methodDecl) ∈ kinds := hkinds (List.mem_cons_self ..)
  have parts := List.append_subset.1 (List.cons_subset.1 hkinds).2
  obtain ⟨hparams, hbody⟩ :=
    List.forall_mem_append.1 (List.forall_mem_append.1 (List.forall_mem_append.1 hall).1).2
  have mirrors : (m.within c).Mirrors all _ _ := ((mirrors_scope h m hall).along
    (fun c param current h hall => Param.mirrors h param hall) hparams).congr rfl rfl
  have enters : (m.within c).Enters t all := Context.Enters.along
    (fun param _ c h hall => param.enters h hall) (m.enters_scope he hm hall) hparams
  have named : Consists kinds Γ (c.declaring m.id (m.symbol c (m.words c))) [] :=
    .asides (Context.aside_declaring own rfl _)
  have sized : Consists kinds Γ [.size m.id (m.words c)] [] :=
    .asides (List.forall_mem_singleton.2 (.declaration own rfl rfl rfl))
  have params := Param.consists (Γ := Γ) parts.1 (m.scope c)
  have body := m.block.consists hΓ mirrors enters hbody parts.2
  have whole := (named.append (params.append body)).append sized
  rwa [List.nil_append, List.nil_append, List.append_nil] at whole

theorem Method.consists_along (h : c.Mirrors all current []) (he : c.Enters t all)
    {methods : List Method} (hm : ∀ m ∈ methods, t.HasMethod m)
    (hall : ∀ ev ∈ c.along Method.events Method.next methods, ev ∈ all)
    (hkinds : methods.flatMap Method.kinds ⊆ kinds) :
    Consists kinds Γ (c.along Method.events Method.next methods)
      (Program.methodPlaces current methods) := by
  induction methods generalizing c current with
  | nil => exact .nil
  | cons m rest ih =>
    obtain ⟨hfirst, hothers⟩ := List.forall_mem_append.1 hall
    obtain ⟨hm, hrest⟩ := List.forall_mem_cons.1 hm
    rw [List.flatMap_cons] at hkinds
    have parts := List.append_subset.1 hkinds
    have behind := m.mirrors h fun ev hev => hfirst ev (Method.mem_events_of_mem_declaring hev)
    exact (m.consists hΓ h he hm hfirst parts.1).append
      (ih behind (m.enters he hm hfirst) hrest hothers parts.2)

end Parts

/-! ### Programs -/

section Programs

variable {t : Tree} {p : Program}

/-- All that is in sight behind the fields of a program is entered. -/
theorem Program.enters_afterFields {all : List Event} (hp : t.HasProgram p)
    (hall : ∀ ev ∈ p.preamble, ev ∈ all) : p.afterFields.Enters t all := by
  obtain ⟨hexterns, hall⟩ := List.forall_mem_append.1 hall
  obtain ⟨hname, hfields⟩ := List.forall_mem_append.1 hall
  have externs : p.afterExterns.Enters t all := Context.Enters.along
    (fun e he c h hall => e.enters h (hp.externs e he) hall) .start hexterns
  have named : p.afterName.Enters t all := externs.declare
    (fun free => ⟨_, hname _ (Context.declare_mem_declaring free), rfl⟩) (by simp [symbol,
      SymbolKind.isCallable])
  exact Context.Enters.along (fun d _ c h hall => d.enters h hall) named hfields

/-- **The transcript of a program, taken apart.** -/
theorem Program.consists (hp : t.HasProgram p) {Γ : List (List Declaration) → Env}
    (hΓ : Env.Foresees t p.events Γ) : Consists p.kinds Γ p.events p.places := by
  obtain ⟨hpreamble, hmethods⟩ := p.mem_events
  have parts := List.append_subset.1 (List.cons_subset.1 (List.Subset.refl p.kinds)).2
  have inside := List.append_subset.1 (List.cons_subset.1 parts.2).2
  have externs : Consists p.kinds Γ (Context.start.along Extern.events Extern.next p.externs) [] :=
    .asides_along (fun e he c => Context.aside_declaring
      (parts.1 (List.mem_flatMap.2 ⟨e, he, List.mem_cons_self ..⟩)) rfl _) .start
  have named : Consists p.kinds Γ (p.afterExterns.declaring p.package (p.symbol p.afterExterns))
      [] := .asides (Context.aside_declaring (List.cons_subset.1 parts.2).1 rfl _)
  have fields : Consists p.kinds Γ (p.afterName.along VarDecl.events VarDecl.next p.fields)
      (p.fields.flatMap VarDecl.places) :=
    .along (fun d hd c => d.consists
      (fun x hx => inside.1 (List.mem_flatMap.2 ⟨d, hd, hx⟩)) c) p.afterName
  have methods := Method.consists_along hΓ (mirrors_afterFields hpreamble)
    (enters_afterFields hp hpreamble) hp.methods hmethods inside.2
  rw [events_eq_preamble, preamble]
  exact (externs.append (named.append fields)).append methods

/-- The transcript of a checked program, where names denote what they do behind the check. -/
theorem CompilationUnit.Holds.consists {u : CompilationUnit} (h : u.Holds p) :
    Consists p.kinds (u.checked p).env p.events p.places :=
  p.consists h.held h.alike_env

end Programs

/-! ### Events about some nodes -/

/-- The events about some nodes. -/
def Event.about (ids : List NodeId) (es : List Event) : List Event :=
  es.filter fun ev => ev.node ∈ ids

section About

variable {ids : List NodeId} {es fs : List Event}

@[simp] theorem about_append :
    Event.about ids (es ++ fs) = Event.about ids es ++ Event.about ids fs := List.filter_append ..

theorem about_eq_nil (h : ∀ ev ∈ es, ev.node ∉ ids) : Event.about ids es = [] :=
  List.filter_eq_nil_iff.2 fun ev hev => by simpa using h ev hev

theorem about_eq_self (h : ∀ ev ∈ es, ev.node ∈ ids) : Event.about ids es = es :=
  List.filter_eq_self.2 fun ev hev => decide_eq_true (h ev hev)

theorem about_typing_eq_nil {id : NodeId} (h : id ∉ ids) (ty : Option Ty) :
    Event.about ids (typing id ty) = [] :=
  about_eq_nil fun _ hev => node_of_mem_typing hev ▸ h

theorem about_mismatch_eq_nil {id : NodeId} (h : id ∉ ids) (wanted : Ty) (received : Option Ty) :
    Event.about ids (mismatch wanted received id) = [] :=
  about_eq_nil fun _ hev => node_of_mem_mismatch hev ▸ h

end About

/-! ### What expressions contribute -/

namespace Consists

variable {kinds : List (NodeId × NodeKind)} {Γ : List (List Declaration) → Env} {es : List Event}
  {qs : List Place}

theorem ofExpression_of_mem_mismatch {wanted : Ty} {received : Option Ty} {id : NodeId} {ev : Event}
    (h : ev ∈ mismatch wanted received id) : ev.ofExpression = false := by
  unfold mismatch at h
  split at h
  · cases h
  · split at h
    · cases h
    · rw [List.mem_singleton.1 h]
      rfl

/-- What is asked of events that only expressions leave behind is asked of expressions. -/
theorem filterMap {β : Type} {f : Event → Option β}
    (hf : ∀ ev : Event, ev.ofExpression = false → f ev = none) (h : Consists kinds Γ es qs) :
    es.filterMap f = qs.flatMap fun q => (q.expr.events (Γ q.scopes)).filterMap f := by
  induction h with
  | nil => rfl
  | aside hev _ ih => rw [List.filterMap_cons_none (hf _ hev.ofExpression), ih]
  | @place q ty _ _ wanted _ ih =>
    have quiet : (mismatch wanted ty q.expr.id).filterMap f = [] :=
      List.filterMap_eq_nil_iff.2 fun ev hev => hf ev (ofExpression_of_mem_mismatch hev)
    rw [List.filterMap_append, List.filterMap_append, quiet, List.append_nil, ih,
      List.flatMap_cons]

/-- What is found out about a declaration, and nothing else, is what only declarations leave
behind. -/
theorem exists_kind (h : Consists kinds Γ es qs) (hqs : ∀ q ∈ qs, q.expr.kinds ⊆ kinds) {ev : Event}
    (hmem : ev ∈ es) : ∃ kind, (ev.node, kind) ∈ kinds ∧ kind.isDeclaration = ev.ofDeclaration := by
  have typing : ∀ e : Expr, e.kinds ⊆ kinds → ∀ ev : Event, ev.node ∈ e.ids → ev.OfTyping →
      ∃ kind, (ev.node, kind) ∈ kinds ∧ kind.isDeclaration = ev.ofDeclaration := by
    intro e he ev hnode htyping
    obtain ⟨⟨id, kind⟩, hkind, rfl⟩ := List.mem_map.1 (e.map_fst_kinds ▸ hnode)
    have plain : ev.ofDeclaration = false := by cases htyping <;> rfl
    refine ⟨kind, he hkind, ?_⟩
    rw [plain, Bool.eq_false_iff]
    intro hdecl
    have hexpr := e.isExpression_of_mem_kinds _ hkind
    rw [kind.isExpression_of_isDeclaration hdecl] at hexpr
    cases hexpr
  induction h with
  | nil => cases hmem
  | aside haside _ ih =>
    rcases List.mem_cons.1 hmem with rfl | hmem
    · obtain ⟨kind, hkind, -, hdecl⟩ := haside.kind
      exact ⟨kind, hkind, hdecl⟩
    · exact ih hqs hmem
  | @place q _ _ _ wanted _ ih =>
    obtain ⟨hq, hrest⟩ := List.forall_mem_cons.1 hqs
    rcases List.mem_append.1 hmem with hmem | hmem
    · rcases List.mem_append.1 hmem with hmem | hmem
      · exact typing q.expr hq ev (q.expr.node_mem_ids ev hmem) (q.expr.ofTyping_events ev hmem)
      · exact typing q.expr hq ev (node_of_mem_mismatch hmem ▸ q.expr.id_mem_ids)
          (ofTyping_mismatch _ _ ev hmem)
    · exact ih hrest hmem

/-- What is found out about nodes inside of expressions, typing these expressions finds out. -/
theorem about_eq {ids : List NodeId} (h : Consists kinds Γ es qs)
    (hkinds : ∀ x ∈ kinds, x.1 ∈ ids → x.2.isExpression = true)
    (hqs : ∀ q ∈ qs, q.expr.id ∉ ids) :
    Event.about ids es = qs.flatMap fun q => Event.about ids (q.expr.events (Γ q.scopes)) := by
  induction h with
  | nil => rfl
  | @aside ev _ _ haside _ ih =>
    obtain ⟨kind, hkind, hother, -⟩ := haside.kind
    have elsewhere : ev.node ∉ ids := fun inside => by simp [hkinds _ hkind inside] at hother
    rw [← List.singleton_append, about_append, about_eq_nil (List.forall_mem_singleton.2 elsewhere),
      ih hqs, List.nil_append]
  | @place q ty _ _ wanted _ ih =>
    obtain ⟨hq, hrest⟩ := List.forall_mem_cons.1 hqs
    rw [about_append, about_append, about_mismatch_eq_nil hq, List.append_nil, ih hrest,
      List.flatMap_cons]

end Consists

end DecafStatics
