import DecafStatics.Proofs.ControlFlow
import DecafStatics.Proofs.Places
import Mathlib.Data.List.Perm.Basic

/-!
# Declarations

Each declaration of a program is accepted or rejected. It is accepted if there is something to
declare and its name is free in its scope, and then it is linked to a symbol of its own. Otherwise
it has no link, and there is one report about it. What is declared in other scopes makes no
difference, and neither does what was rejected.

## Implementation notes

A region is a scope with the declarations in it, in the order of the text. Methods are declared one
by one with what they declare inside, so the global region is not met in one piece. `Ruled` does not
ask for that: it only says that the rulings on a region are somewhere in the transcript. That there
are no others is a matter of counting, as each declaration has a node of its own.

## Main definitions

* `Declarer`, `Region` — what declares a name, and the declarations of one scope
* `Declarer.Accepted` — there is something to declare, and the name is free
* `Event.rulings` — what became of declarations
* `CompilationUnit.Treats` — what a check does with a declaration

## Main results

* `Stmt.ruled`, `Program.ruled` — the rulings on each region
* `Program.map_fst_rulings` — there are no others
* `CompilationUnit.declarations_of_check` — declarations are treated exactly
-/

namespace DecafStatics

/-! ### Regions -/

/-- The problem is one that a declaration is rejected for. -/
def Problem.isRejection : Problem → Bool
  | duplicateDeclaration .. | invalidArraySize .. => true
  | _ => false

/-- What declares a name. -/
structure Declarer where
  id : NodeId
  name : String
  ty : Ty
  kind : SymbolKind
  /-- The nodes of the parameters, for what can be called. -/
  params : List NodeId
  /-- How many elements there are to be, for an array. -/
  length : Option Int32

namespace Declarer

/-- There are to be elements, and there would be none. -/
def Hollow (d : Declarer) : Prop := ∃ length ∈ d.length, length < 1

instance (d : Declarer) : Decidable d.Hollow :=
  inferInstanceAs (Decidable (∃ length ∈ d.length, length < 1))

/-- There is something to declare, and none of these others has taken the name. -/
def Accepted (earlier : List Declarer) (d : Declarer) : Prop :=
  ¬ d.Hollow ∧ ∀ other ∈ earlier, other.name = d.name → other.Hollow

/-- What is wrong with a declaration that is rejected at a level. -/
def rejection (level : Nat) (d : Declarer) : Problem :=
  match d.length with
  | none => .duplicateDeclaration d.name level
  | some length =>
    if length < 1 then .invalidArraySize d.name length else .duplicateDeclaration d.name level

/-- The symbol is that of the declaration, at a level. -/
structure Entered (level : Nat) (d : Declarer) (e : Symbol) : Prop where
  name : e.name = d.name
  ty : e.ty = d.ty
  kind : e.kind = d.kind
  level : e.level = level
  params : e.params = d.params.head?

/-- What can become of a declaration at a level, behind these others. -/
def Judged (level : Nat) (earlier : List Declarer) (d : Declarer) : Except Problem Symbol → Prop
  | .ok e => d.Accepted earlier ∧ d.Entered level e
  | .error problem => ¬ d.Accepted earlier ∧ problem = d.rejection level

def declaration (d : Declarer) : Declaration := ⟨d.id, d.name, ¬ d.Hollow⟩

variable {d : Declarer} {level : Nat}

theorem isRejection_rejection (level : Nat) (d : Declarer) :
    (d.rejection level).isRejection = true := by
  rw [rejection]
  split
  · rfl
  · split <;> rfl

theorem not_hollow_of_none (h : d.length = none) : ¬ d.Hollow := by
  simp [Hollow, h]

theorem rejection_of_not_hollow (h : ¬ d.Hollow) :
    d.rejection level = .duplicateDeclaration d.name level := by
  rw [rejection]
  split
  · rfl
  · rename_i length hlength
    exact if_neg fun small => h ⟨length, hlength, small⟩

/-- Whether a declaration is accepted shows in what is taken. -/
theorem accepted_iff {c : Context} {earlier : List Declarer}
    (h : c.Scoped (earlier.map declaration)) :
    d.Accepted earlier ↔ ¬ d.Hollow ∧ ¬ c.Taken d.name := by
  have free : ¬ c.Taken d.name ↔ ∀ other ∈ earlier, other.name = d.name → other.Hollow := by
    rw [h.not_taken_iff, successful, List.find?_eq_none, List.forall_mem_map]
    refine forall₂_congr fun other _ => ?_
    simp only [declaration, Bool.and_eq_true, decide_eq_true_eq, beq_iff_eq, not_and, not_imp_not]
  rw [Accepted, free]

end Declarer

/-- A scope, with what declares names in it, in the order of the text. -/
structure Region where
  level : Nat
  declarers : List Declarer

def Region.ids (r : Region) : List NodeId := r.declarers.map Declarer.id

/-- An array, or a single value. -/
def Shape.sort : Shape → SymbolKind
  | array .. => .array
  | scalar | initialized _ => .scalar

def VarDecl.declarer (d : VarDecl) : Declarer :=
  ⟨d.id, d.name, d.ty, d.shape.sort, [], d.shape.length⟩

def Param.declarer (param : Param) : Declarer :=
  ⟨param.id, param.name, param.ty, .scalar, [], none⟩

def Method.declarer (m : Method) : Declarer :=
  ⟨m.id, m.name, m.ty, .method, m.params.map Param.id, none⟩

def Extern.declarer (e : Extern) : Declarer :=
  ⟨e.id, e.name, e.ty, .externMethod, e.params.map Prod.fst, none⟩

/-- The package declares its own name. -/
def Program.declarer (p : Program) : Declarer :=
  ⟨p.package, p.name, .void, .package, [], none⟩

namespace Stmt

mutual

/-- The regions of a statement, where those of its blocks are at a level. -/
def regions (level : Nat) : Stmt → List Region
  | assignment .. | call _ | returnValue .. | jump .. => []
  | ifThen _ _ _ yes => yes.regions level
  | ifElse _ _ _ yes _ no => yes.regions level ++ no.regions level
  | loop _ _ body => body.regions level
  | block _ locals body =>
    ⟨level, locals.map VarDecl.declarer⟩ :: bodyRegions (level + 1) body

/-- The regions of the statements of a block. -/
def bodyRegions (level : Nat) : List Stmt → List Region
  | [] => []
  | st :: rest => st.regions level ++ bodyRegions level rest

end

theorem bodyRegions_eq (level : Nat) (body : List Stmt) :
    bodyRegions level body = body.flatMap (regions level) := by
  induction body with
  | nil => rfl
  | cons st rest ih => rw [bodyRegions, ih, List.flatMap_cons]

end Stmt

/-- The parameters of a method, and the regions of its body. -/
def Method.regions (m : Method) : List Region :=
  ⟨1, m.params.map Param.declarer⟩ :: m.block.regions 2

namespace Program

/-- What declares the global names of a program, but for its methods. -/
def declarers (p : Program) : List Declarer :=
  p.externs.map Extern.declarer ++ p.declarer :: p.fields.map VarDecl.declarer

/-- The regions of a program. -/
def regions (p : Program) : List Region :=
  ⟨0, p.declarers ++ p.methods.map Method.declarer⟩ :: p.methods.flatMap Method.regions

end Program

/-! ### Rulings -/

namespace Event

/-- What the event says that became of a declaration. -/
def ruling? : Event → Option (NodeId × Except Problem Symbol)
  | declare id _ symbol => some (id, .ok symbol)
  | complain problem id => if problem.isRejection then some (id, .error problem) else none
  | type .. | link .. | size .. => none

/-- What became of declarations, in the order in which they were met. -/
def rulings (es : List Event) : List (NodeId × Except Problem Symbol) := es.filterMap ruling?

variable {es fs : List Event}

@[simp] theorem rulings_append : rulings (es ++ fs) = rulings es ++ rulings fs :=
  List.filterMap_append

theorem mem_rulings_of_subset {x : NodeId × Except Problem Symbol} (hx : x ∈ rulings es)
    (h : ∀ ev ∈ es, ev ∈ fs) : x ∈ rulings fs := by
  obtain ⟨ev, hev, hx⟩ := List.mem_filterMap.1 hx
  exact List.mem_filterMap.2 ⟨ev, h ev hev, hx⟩

theorem rulings_eq_nil (h : ∀ ev ∈ es, ev.OfTyping) : rulings es = [] := by
  refine List.filterMap_eq_nil_iff.2 fun ev hev => ?_
  cases h ev hev <;> rfl

end Event

/-- Some declarations of a scope, behind others of it, are ruled on in the transcript. -/
inductive Ruled (all : List Event) (level : Nat) : List Declarer → List Declarer → Prop where
  | nil {earlier : List Declarer} : Ruled all level earlier []
  | cons {earlier rest : List Declarer} {d : Declarer} {r : Except Problem Symbol} :
      (d.id, r) ∈ Event.rulings all → d.Judged level earlier r →
      Ruled all level (earlier ++ [d]) rest → Ruled all level earlier (d :: rest)

namespace Ruled

variable {all : List Event} {level : Nat} {earlier ds ds' : List Declarer}

theorem append (h : Ruled all level earlier ds) (h' : Ruled all level (earlier ++ ds) ds') :
    Ruled all level earlier (ds ++ ds') := by
  induction h with
  | nil => simpa using h'
  | cons hmem hr _ ih => exact .cons hmem hr (ih (by simpa using h'))

/-- Each of the declarations is ruled on behind those before it. -/
theorem split (h : Ruled all level earlier ds) {before after : List Declarer} {d : Declarer}
    (hsplit : ds = before ++ d :: after) :
    ∃ r, (d.id, r) ∈ Event.rulings all ∧ d.Judged level (earlier ++ before) r := by
  induction h generalizing before with
  | nil => simp at hsplit
  | @cons earlier rest first r hmem hr _ ih =>
    cases before with
    | nil =>
      cases hsplit
      exact ⟨r, hmem, by simpa using hr⟩
    | cons _ before =>
      obtain ⟨rfl, hrest⟩ := List.cons.inj hsplit
      simpa using ih hrest

end Ruled

/-- The declarations of a region are ruled on in the transcript. -/
def Region.Ruled (all : List Event) (r : Region) : Prop :=
  DecafStatics.Ruled all r.level [] r.declarers

section Rulings

variable {all : List Event} {c : Context} {earlier : List Declarer}

/-- Declaring what there is to declare is a ruling. -/
theorem Context.ruled_declaring {d : Declarer} (h : c.Scoped (earlier.map Declarer.declaration))
    {symbol : Symbol} (hsymbol : d.Entered c.level symbol) (hd : ¬ d.Hollow) :
    ∃ r, (d.id, r) ∈ Event.rulings (c.declaring d.id symbol) ∧ d.Judged c.level earlier r := by
  by_cases taken : c.Taken symbol.name
  · rw [declaring_of_taken taken]
    refine ⟨.error _, List.mem_singleton_self _, fun accepted => ?_, ?_⟩
    · exact ((Declarer.accepted_iff h).1 accepted).2 (hsymbol.name ▸ taken)
    · rw [Declarer.rejection_of_not_hollow hd, hsymbol.name, hsymbol.level]
  · rw [declaring_of_not_taken taken]
    exact ⟨.ok symbol, List.mem_singleton_self _,
      (Declarer.accepted_iff h).2 ⟨hd, hsymbol.name ▸ taken⟩, hsymbol⟩

theorem VarDecl.declaration_declarer (d : VarDecl) : d.declarer.declaration = d.declaration := by
  rw [declaration, Declarer.declaration, declarer]
  cases d.shape with
  | scalar | initialized => simp [Declarer.Hollow, Shape.length]
  | array id length => simp [Declarer.Hollow, Shape.length, Int32.not_lt]

/-- What is wrong with the length of a variable, or else what the variable is. -/
theorem VarDecl.variableShape_eq (d : VarDecl) (level : Nat) :
    Check.variableShape d.name d.shape.length =
      if d.declarer.Hollow then .error (d.declarer.rejection level)
      else .ok (d.declarer.kind, d.words) := by
  rw [declarer, words]
  unfold Check.variableShape
  cases d.shape with
  | scalar | initialized => simp [Declarer.Hollow, Shape.length, Shape.sort]
  | array id length =>
    simp only [Declarer.Hollow, Shape.length, Shape.sort, Declarer.rejection]
    by_cases small : length < 1
    · simp [small]
    · simp [small]

/-- A construct declares a name: there is a ruling on it among what it leaves behind, and the scope
has the name then, if that was accepted. -/
structure Declares (c : Context) (earlier : List Declarer) (d : Declarer) (es : List Event)
    (c' : Context) : Prop where
  ruled : ∃ r, (d.id, r) ∈ Event.rulings es ∧ d.Judged c.level earlier r
  behind : c'.Scoped (earlier.map Declarer.declaration ++ [d.declaration])
  level : c'.level = c.level

/-- Constructs that declare a name each. -/
theorem Context.ruled_along (earlier : List Declarer) {α : Type}
    {events : Context → α → List Event} {next : Context → α → Context} {declarer : α → Declarer}
    {l : List α}
    (step : ∀ a ∈ l, ∀ (c : Context) (earlier : List Declarer),
      c.Scoped (earlier.map Declarer.declaration) →
        Declares c earlier (declarer a) (events c a) (next c a))
    (h : c.Scoped (earlier.map Declarer.declaration))
    (hall : ∀ ev ∈ c.along events next l, ev ∈ all) :
    Ruled all c.level earlier (l.map declarer) ∧
      (l.foldl next c).Scoped ((earlier ++ l.map declarer).map Declarer.declaration) ∧
      (l.foldl next c).level = c.level := by
  induction l generalizing c earlier with
  | nil => exact ⟨.nil, by simpa using h, rfl⟩
  | cons a rest ih =>
    obtain ⟨ha, hrest⟩ := List.forall_mem_cons.1 step
    obtain ⟨hfirst, hothers⟩ := List.forall_mem_append.1 hall
    obtain ⟨⟨r, hmem, judged⟩, hnext, level⟩ := ha c earlier h
    have behind : (next c a).Scoped ((earlier ++ [declarer a]).map Declarer.declaration) := by
      simpa using hnext
    obtain ⟨ruled, hlast, levels⟩ := ih (earlier ++ [declarer a]) hrest behind hothers
    rw [level] at ruled levels
    exact ⟨.cons (Event.mem_rulings_of_subset hmem hfirst) judged ruled, by simpa using hlast,
      levels⟩

theorem VarDecl.declares_next (h : c.Scoped (earlier.map Declarer.declaration)) (d : VarDecl) :
    Declares c earlier d.declarer (d.events c) (d.next c) where
  ruled := by
    rw [events, d.variableShape_eq c.level]
    by_cases hollow : d.declarer.Hollow
    · rw [if_pos hollow]
      refine ⟨.error (d.declarer.rejection c.level), ?_, fun accepted => accepted.1 hollow, rfl⟩
      simp [Event.rulings, Event.ruling?, Declarer.isRejection_rejection, declarer]
    · rw [if_neg hollow]
      have entered : d.declarer.Entered c.level
          (c.stored d.name d.ty d.declarer.kind d.words) := ⟨rfl, rfl, rfl, rfl, rfl⟩
      obtain ⟨r, hr, judged⟩ := Context.ruled_declaring h entered hollow
      exact ⟨r, Event.mem_rulings_of_subset hr fun ev hev =>
        List.mem_append_left _ (List.mem_cons_of_mem _ hev), judged⟩
  behind := d.declaration_declarer ▸ d.scoped_next h
  level := (d.grows c).level_eq

theorem Param.declares_next (h : c.Scoped (earlier.map Declarer.declaration)) (param : Param) :
    Declares c earlier param.declarer (param.events c) (param.next c) where
  ruled := Context.ruled_declaring (d := param.declarer) h ⟨rfl, rfl, rfl, rfl, rfl⟩
    (Declarer.not_hollow_of_none rfl)
  behind := param.scoped_next h
  level := (param.grows c).level_eq

theorem Extern.declares_next (h : c.Scoped (earlier.map Declarer.declaration)) (e : Extern) :
    Declares c earlier e.declarer (e.events c) (e.next c) where
  ruled := Context.ruled_declaring (d := e.declarer) h ⟨rfl, rfl, rfl, rfl, rfl⟩
    (Declarer.not_hollow_of_none rfl)
  behind := e.scoped_next h
  level := Context.level_declare

theorem Method.declares_next (h : c.Scoped (earlier.map Declarer.declaration)) (m : Method) :
    Declares c earlier m.declarer (m.events c) (m.next c) where
  ruled := by
    have entered : m.declarer.Entered c.level (m.symbol c (m.words c)) :=
      ⟨rfl, rfl, rfl, rfl, rfl⟩
    obtain ⟨r, hr, judged⟩ := Context.ruled_declaring h entered (Declarer.not_hollow_of_none rfl)
    exact ⟨r, Event.mem_rulings_of_subset hr fun ev hev => mem_events_of_mem_declaring hev, judged⟩
  behind := m.scoped_next h
  level := Context.level_declare

theorem Program.declares_package (p : Program)
    (h : p.afterExterns.Scoped (earlier.map Declarer.declaration)) :
    Declares p.afterExterns earlier p.declarer
      (p.afterExterns.declaring p.package (p.symbol p.afterExterns)) p.afterName where
  ruled := Context.ruled_declaring (d := p.declarer) h ⟨rfl, rfl, rfl, rfl, rfl⟩
    (Declarer.not_hollow_of_none rfl)
  behind := h.declare rfl []
  level := Context.level_declare

/-! ### Rulings on regions -/

namespace Stmt

theorem ruled_body (h : c.Opened) {body : List Stmt}
    (hbody : ∀ st ∈ body, ∀ c : Context, c.Opened → (∀ ev ∈ st.events c, ev ∈ all) →
      ∀ r ∈ st.regions (c.level + 1), r.Ruled all)
    (hall : ∀ ev ∈ bodyEvents c body, ev ∈ all) :
    ∀ r ∈ bodyRegions (c.level + 1) body, r.Ruled all := by
  induction body generalizing c with
  | nil => exact List.forall_mem_nil _
  | cons st rest ih =>
    obtain ⟨hst, hrest⟩ := List.forall_mem_cons.1 hbody
    obtain ⟨hfirst, hothers⟩ := List.forall_mem_append.1 hall
    exact List.forall_mem_append.2 ⟨hst c h hfirst,
      ih (c := c.after (st.events c)) h hrest hothers⟩

/-- **Each region of a statement is ruled on.** -/
theorem ruled (h : c.Opened) (st : Stmt) (hall : ∀ ev ∈ st.events c, ev ∈ all) :
    ∀ r ∈ st.regions (c.level + 1), r.Ruled all := by
  induction st generalizing c with
  | assignment | call | returnValue | jump => exact List.forall_mem_nil _
  | ifThen id branch condition yes ih => exact ih h (List.forall_mem_append.1 hall).2
  | ifElse id branch condition yes other no ihy ihn =>
    obtain ⟨hfirst, hno⟩ := List.forall_mem_append.1 hall
    exact List.forall_mem_append.2 ⟨ihy h (List.forall_mem_append.1 hfirst).2,
      ihn (c := c.after (yes.events c)) h hno⟩
  | loop id condition body ih =>
    exact ih (c := { c with loops := c.loops + 1 }) h (List.forall_mem_append.1 hall).2
  | block id locals body ih =>
    obtain ⟨hlocals, hbody⟩ := List.forall_mem_append.1 hall
    obtain ⟨ruled, behind, level⟩ := Context.ruled_along []
      (fun d _ c earlier h => VarDecl.declares_next h d) h.inner hlocals
    have inside := ruled_body (c := c.locals locals) behind.opened
      (fun st hst c h hall => ih st hst h hall) hbody
    rw [show (c.locals locals).level = c.level + 1 from level] at inside
    exact List.forall_mem_cons.2 ⟨ruled, inside⟩

end Stmt

theorem Method.ruled (h : c.Opened) (hlevel : c.level = 0) (m : Method)
    (hall : ∀ ev ∈ m.events c, ev ∈ all) : ∀ r ∈ m.regions, r.Ruled all := by
  obtain ⟨hparams, hbody⟩ :=
    List.forall_mem_append.1 (List.forall_mem_append.1 (List.forall_mem_append.1 hall).1).2
  have start : (m.scope c).level = 1 := congrArg (· + 1) hlevel
  obtain ⟨ruled, behind, level⟩ := Context.ruled_along []
    (fun param _ c earlier h => Param.declares_next h param) (m.scoped_scope h) hparams
  rw [start] at ruled level
  have inside := m.block.ruled (c := m.within c) behind.opened hbody
  rw [show (m.within c).level = 1 from level] at inside
  exact List.forall_mem_cons.2 ⟨ruled, inside⟩

theorem Method.ruled_along (h : c.Opened) (hlevel : c.level = 0) {methods : List Method}
    (hall : ∀ ev ∈ c.along Method.events Method.next methods, ev ∈ all) :
    ∀ r ∈ methods.flatMap Method.regions, r.Ruled all := by
  induction methods generalizing c with
  | nil => exact List.forall_mem_nil _
  | cons m rest ih =>
    obtain ⟨hfirst, hothers⟩ := List.forall_mem_append.1 hall
    have opened : (m.next c).Opened := Context.opened_declare h rfl m.formals
    have level : (m.next c).level = 0 := Context.level_declare.trans hlevel
    rw [List.flatMap_cons]
    exact List.forall_mem_append.2 ⟨m.ruled h hlevel hfirst, ih opened level hothers⟩

/-- **Each region of a program is ruled on.** -/
theorem Program.ruled (p : Program) : ∀ r ∈ p.regions, r.Ruled p.events := by
  obtain ⟨hpreamble, hmethods⟩ := p.mem_events
  obtain ⟨hexterns, hpackage⟩ := List.forall_mem_append.1 hpreamble
  obtain ⟨hname, hfields⟩ := List.forall_mem_append.1 hpackage
  obtain ⟨externs, behindExterns, start⟩ := Context.ruled_along []
    (fun e _ c earlier h => Extern.declares_next h e) .start hexterns
  obtain ⟨⟨r, hr, judged⟩, behindName, level⟩ := p.declares_package behindExterns
  have nameLevel : p.afterName.level = 0 := level.trans start
  rw [← List.map_singleton, ← List.map_append] at behindName
  obtain ⟨fields, behindFields, fieldsLevel⟩ := Context.ruled_along _
    (fun d _ c earlier h => VarDecl.declares_next h d) behindName hfields
  have global := fieldsLevel.trans nameLevel
  obtain ⟨methods, -, -⟩ := Context.ruled_along _
    (fun m _ c earlier h => Method.declares_next h m) behindFields hmethods
  rw [show p.afterExterns.level = 0 from start] at judged
  rw [nameLevel] at fields
  rw [global] at methods
  have preamble : Ruled p.events 0 [] p.declarers :=
    externs.append (.cons (Event.mem_rulings_of_subset hr hname) judged fields)
  refine List.forall_mem_cons.2 ⟨preamble.append ?_,
    Method.ruled_along behindFields.opened global hmethods⟩
  simpa [declarers] using methods

end Rulings

/-! ### No other rulings -/

section Counting

variable {c : Context} {kinds kinds' : List (NodeId × NodeKind)}

theorem Expr.declaring_kinds (e : Expr) : nodesOf NodeKind.isDeclaration e.kinds = [] := by
  refine nodesOf_eq_nil fun x hx => Bool.eq_false_iff.2 fun declaration => ?_
  have expression := e.isExpression_of_mem_kinds x hx
  rw [x.2.isExpression_of_isDeclaration declaration] at expression
  cases expression

theorem Extern.declaring_kinds (e : Extern) : nodesOf NodeKind.isDeclaration e.kinds = [e.id] := by
  rw [kinds, nodesOf_cons rfl, nodesOf_eq_nil (List.forall_mem_map.2 fun _ _ => rfl)]

theorem VarDecl.declaring_kinds (d : VarDecl) :
    nodesOf NodeKind.isDeclaration d.kinds = [d.id] := by
  have shape : nodesOf NodeKind.isDeclaration d.shape.kinds = [] := by
    cases d.shape with
    | scalar | array => rfl
    | initialized value => exact (Expr.literal value).declaring_kinds
  exact congrArg (d.id :: ·) shape

theorem Context.map_fst_rulings_declaring (c : Context) (node : NodeId) (symbol : Symbol) :
    (Event.rulings (c.declaring node symbol)).map Prod.fst = [node] := by
  rw [Context.declaring]
  split <;> rfl

theorem Context.map_fst_rulings_along {α : Type} {events : Context → α → List Event}
    (next : Context → α → Context) {ids : α → List NodeId} {l : List α}
    (h : ∀ a ∈ l, ∀ c, (Event.rulings (events c a)).map Prod.fst = ids a) (c : Context) :
    (Event.rulings (c.along events next l)).map Prod.fst = l.flatMap ids := by
  induction l generalizing c with
  | nil => rfl
  | cons a rest ih =>
    obtain ⟨ha, hrest⟩ := List.forall_mem_cons.1 h
    rw [along, Event.rulings_append, List.map_append, ha, ih hrest, List.flatMap_cons]

theorem VarDecl.map_fst_rulings (c : Context) (d : VarDecl) :
    (Event.rulings (d.events c)).map Prod.fst = nodesOf NodeKind.isDeclaration d.kinds := by
  rw [declaring_kinds, events]
  split
  · rename_i problem hshape
    obtain ⟨size, rfl⟩ := problem_of_error hshape
    rfl
  · rw [Event.rulings_append, Event.rulings_eq_nil (ofTyping_shape d.ty d.shape), List.append_nil]
    exact c.map_fst_rulings_declaring d.id _

/-- A statement is met with one ruling on each node that declares a name. -/
theorem Stmt.map_fst_rulings (c : Context) (st : Stmt) :
    (Event.rulings (st.events c)).map Prod.fst = nodesOf NodeKind.isDeclaration st.kinds := by
  have condition : ∀ (c : Context) (e : Expr), Event.rulings (conditionEvents c.find? e) = [] :=
    fun c e => Event.rulings_eq_nil (ofTyping_conditionEvents e)
  induction st generalizing c with
  | assignment id target value =>
    rw [Event.rulings_eq_nil (ofTyping_assignment c target value), kinds,
      nodesOf_cons_of_not rfl, nodesOf_append, Expr.declaring_kinds, Expr.declaring_kinds]
    rfl
  | call call =>
    rw [events, Event.rulings_eq_nil call.expr.ofTyping_events, kinds, Expr.declaring_kinds]
    rfl
  | ifThen id branch e yes ih =>
    rw [events, Event.rulings_append, condition, List.nil_append, ih, kinds,
      nodesOf_cons_of_not rfl, nodesOf_cons_of_not rfl, nodesOf_append, Expr.declaring_kinds,
      List.nil_append]
  | ifElse id branch e yes other no ihy ihn =>
    rw [events, Event.rulings_append, Event.rulings_append, condition, List.nil_append,
      List.map_append, ihy, ihn, kinds, nodesOf_cons_of_not rfl, nodesOf_cons_of_not rfl,
      nodesOf_cons_of_not rfl, nodesOf_append, nodesOf_append, Expr.declaring_kinds,
      List.nil_append]
  | loop id e body ih =>
    rw [events, Event.rulings_append, condition, List.nil_append, ih, kinds,
      nodesOf_cons_of_not rfl, nodesOf_append, Expr.declaring_kinds, List.nil_append]
  | returnValue id value =>
    have none : Event.rulings (returnEvents c id value) = [] := by
      refine List.filterMap_eq_nil_iff.2 fun ev hev => ?_
      rcases ofTyping_returnEvents c value ev hev with h | ⟨name, rfl⟩
      · cases h <;> rfl
      · rfl
    have values : nodesOf NodeKind.isDeclaration (value.toList.flatMap Expr.kinds) = [] := by
      cases value with
      | none => rfl
      | some e => simpa using e.declaring_kinds
    rw [events, none, kinds, nodesOf_cons_of_not rfl, values]
    rfl
  | jump id j =>
    rw [events, kinds, nodesOf_cons_of_not (by cases j <;> rfl)]
    split <;> rfl
  | block id locals body ih =>
    have declared := Context.map_fst_rulings_along VarDecl.next
      (fun d (_ : d ∈ locals) c => VarDecl.map_fst_rulings c d) c.inner
    have statements := Context.map_fst_rulings_along (fun c st => c.after (events c st))
      (fun st hst c => ih st hst c) (c.locals locals)
    rw [← bodyEvents_eq] at statements
    rw [events, Event.rulings_append, List.map_append, declared, statements, kinds, bodyKinds_eq,
      nodesOf_cons_of_not rfl, nodesOf_append, nodesOf_flatMap fun _ _ => rfl,
      nodesOf_flatMap fun _ _ => rfl]

theorem Param.map_fst_rulings (c : Context) (param : Param) :
    (Event.rulings (param.events c)).map Prod.fst =
      nodesOf NodeKind.isDeclaration [(param.id, .parameter)] :=
  c.map_fst_rulings_declaring param.id _

theorem Method.map_fst_rulings (c : Context) (m : Method) :
    (Event.rulings (m.events c)).map Prod.fst = nodesOf NodeKind.isDeclaration m.kinds := by
  have params := Context.map_fst_rulings_along Param.next
    (fun param (_ : param ∈ m.params) c => param.map_fst_rulings c) (m.scope c)
  have sized : Event.rulings [.size m.id (m.words c)] = [] := rfl
  rw [← nodesOf_flatMap fun _ _ => rfl, ← List.map_eq_flatMap] at params
  rw [events, inside, Event.rulings_append, Event.rulings_append, Event.rulings_append, sized,
    List.append_nil, List.map_append, List.map_append, c.map_fst_rulings_declaring, params,
    m.block.map_fst_rulings, ← nodesOf_append]
  rfl

theorem Extern.map_fst_rulings (c : Context) (e : Extern) :
    (Event.rulings (e.events c)).map Prod.fst = nodesOf NodeKind.isDeclaration e.kinds := by
  rw [declaring_kinds]
  exact c.map_fst_rulings_declaring e.id _

/-- **No other rulings.** There is one ruling in a program on each node that declares a name. -/
theorem Program.map_fst_rulings (p : Program) :
    (Event.rulings p.events).map Prod.fst = nodesOf NodeKind.isDeclaration p.kinds := by
  have externs := Context.map_fst_rulings_along Extern.next
    (fun e (_ : e ∈ p.externs) c => e.map_fst_rulings c) .start
  have fields := Context.map_fst_rulings_along VarDecl.next
    (fun d (_ : d ∈ p.fields) c => d.map_fst_rulings c) p.afterName
  have methods := Context.map_fst_rulings_along Method.next
    (fun m (_ : m ∈ p.methods) c => m.map_fst_rulings c) p.afterFields
  rw [← nodesOf_flatMap fun _ _ => rfl] at externs fields methods
  rw [events_eq_preamble, preamble, kinds, nodesOf_cons_of_not rfl, nodesOf_append,
    nodesOf_cons rfl, nodesOf_append]
  simp only [Event.rulings_append, List.map_append, externs, fields, methods,
    Context.map_fst_rulings_declaring, List.append_assoc]
  rfl

/-! ### Which nodes declare names -/

/-- The nodes of a statement that declare names are those of its regions. -/
theorem Stmt.declaring_kinds (level : Nat) (st : Stmt) :
    nodesOf NodeKind.isDeclaration st.kinds = (st.regions level).flatMap Region.ids := by
  induction st generalizing level with
  | assignment id target value =>
    rw [kinds, nodesOf_cons_of_not rfl, nodesOf_append, Expr.declaring_kinds,
      Expr.declaring_kinds]
    rfl
  | call call => exact call.expr.declaring_kinds
  | ifThen id branch e yes ih =>
    rw [kinds, nodesOf_cons_of_not rfl, nodesOf_cons_of_not rfl, nodesOf_append,
      Expr.declaring_kinds, List.nil_append, ih level, regions]
  | ifElse id branch e yes other no ihy ihn =>
    rw [kinds, nodesOf_cons_of_not rfl, nodesOf_cons_of_not rfl, nodesOf_cons_of_not rfl,
      nodesOf_append, nodesOf_append, Expr.declaring_kinds, List.nil_append, ihy level,
      ihn level, regions, List.flatMap_append]
  | loop id e body ih =>
    rw [kinds, nodesOf_cons_of_not rfl, nodesOf_append, Expr.declaring_kinds, List.nil_append,
      ih level, regions]
  | returnValue id value =>
    rw [kinds, nodesOf_cons_of_not rfl, nodesOf_flatMap fun e _ => e.declaring_kinds]
    exact List.flatMap_eq_nil_iff.2 fun _ _ => rfl
  | jump id j =>
    rw [kinds, nodesOf_cons_of_not (by cases j <;> rfl)]
    rfl
  | block id locals body ih =>
    rw [kinds, bodyKinds_eq, nodesOf_cons_of_not rfl, nodesOf_append,
      nodesOf_flatMap fun d _ => d.declaring_kinds,
      nodesOf_flatMap fun st hst => ih st hst (level + 1), regions, bodyRegions_eq,
      List.flatMap_cons, List.flatMap_assoc, Region.ids, List.map_map, ← List.map_eq_flatMap]
    rfl

theorem Method.declaring_kinds (m : Method) :
    nodesOf NodeKind.isDeclaration m.kinds = m.id :: m.regions.flatMap Region.ids := by
  have params : nodesOf NodeKind.isDeclaration
      (m.params.map fun param => (param.id, NodeKind.parameter)) = m.params.map Param.id := by
    rw [List.map_eq_flatMap, nodesOf_flatMap fun _ _ => rfl, List.map_eq_flatMap]
    rfl
  rw [kinds, nodesOf_cons rfl, nodesOf_append, params, m.block.declaring_kinds 2, regions,
    List.flatMap_cons, Region.ids, List.map_map]
  rfl

/-- The nodes of a program that declare names are those of its regions. -/
theorem Program.declaring_kinds (p : Program) :
    (p.regions.flatMap Region.ids).Perm (nodesOf NodeKind.isDeclaration p.kinds) := by
  have methods : nodesOf NodeKind.isDeclaration (p.methods.flatMap Method.kinds) =
      p.methods.flatMap fun m => m.id :: m.regions.flatMap Region.ids :=
    nodesOf_flatMap fun m _ => m.declaring_kinds
  rw [kinds, nodesOf_cons_of_not rfl, nodesOf_append, nodesOf_cons rfl, nodesOf_append,
    nodesOf_flatMap fun e _ => e.declaring_kinds, nodesOf_flatMap fun d _ => d.declaring_kinds,
    methods, ← List.map_eq_flatMap, ← List.map_eq_flatMap]
  rw [regions, List.flatMap_cons, List.flatMap_assoc, Region.ids, declarers]
  simp only [List.map_append, List.map_cons, List.map_map, List.append_assoc, List.cons_append]
  exact (((List.map_append_flatMap_perm p.methods Method.id _).append_left _).cons _).append_left _

end Counting

/-! ### What becomes of a declaration -/

/-- There is no more than one ruling on a node. -/
theorem Program.nodup_rulings {p : Program} (h : p.ids.Nodup) :
    ((Event.rulings p.events).map Prod.fst).Nodup := by
  rw [p.map_fst_rulings]
  exact nodesOf_sublist.nodup (p.map_fst_kinds ▸ h)

theorem Program.ruling_unique {p : Program} (h : p.ids.Nodup) {id : NodeId}
    {r r' : Except Problem Symbol} (hr : (id, r) ∈ Event.rulings p.events)
    (hr' : (id, r') ∈ Event.rulings p.events) : r = r' :=
  congrArg Prod.snd (List.inj_on_of_nodup_map (nodup_rulings h) hr hr' rfl)

theorem Program.mem_declaring {p : Program} {id : NodeId} {r : Except Problem Symbol}
    (hr : (id, r) ∈ Event.rulings p.events) : id ∈ nodesOf NodeKind.isDeclaration p.kinds := by
  rw [← p.map_fst_rulings]
  exact List.mem_map_of_mem hr

/-- The ruling as a complaint, if the declaration was rejected. -/
def Event.rejected? (x : NodeId × Except Problem Symbol) : Option (Problem × NodeId) :=
  match x.2 with
  | .ok _ => none
  | .error problem => some (problem, x.1)

theorem Event.complaintsOf_isRejection (es : List Event) :
    complaintsOf Problem.isRejection es = (rulings es).filterMap rejected? := by
  rw [complaintsOf, complaints, rulings, List.filter_filterMap, List.filterMap_filterMap]
  refine List.filterMap_congr fun ev _ => ?_
  cases ev with
  | complain problem id =>
    cases hproblem : problem.isRejection <;>
      simp [complaint?, ruling?, rejected?, hproblem, Option.filter]
  | type | link | size | declare => rfl

/-- That no earlier declaration of the name was a real one is the same as that none was accepted. -/
theorem Declarer.accepted_iff_forall {earlier : List Declarer} {d : Declarer} {P : Declarer → Prop}
    (h : ∀ before other after, earlier = before ++ other :: after →
      (P other ↔ other.Accepted before)) :
    d.Accepted earlier ↔ ¬ d.Hollow ∧ ∀ other ∈ earlier, other.name = d.name → ¬ P other := by
  refine and_congr_right fun _ => ⟨fun free other hother hname hP => ?_, fun free => ?_⟩
  · obtain ⟨before, after, hsplit⟩ := List.append_of_mem hother
    exact ((h before other after hsplit).1 hP).1 (free other hother hname)
  · by_contra taken
    -- the first real declaration of the name is an accepted one
    have found : (earlier.find? fun other => other.name = d.name ∧ ¬ other.Hollow).isSome := by
      push Not at taken
      simpa [List.find?_isSome] using taken
    obtain ⟨first, hfirst⟩ := Option.isSome_iff_exists.1 found
    obtain ⟨hreal, before, after, hsplit, hbefore⟩ := List.find?_eq_some_iff_append.1 hfirst
    obtain ⟨hname, solid⟩ := of_decide_eq_true hreal
    have accepted : first.Accepted before := by
      refine ⟨solid, fun other hother hother' => ?_⟩
      by_contra hollow
      simpa [hother', hname, hollow] using hbefore other hother
    exact free first (by simp [hsplit]) hname ((h before first after hsplit).2 accepted)

namespace CompilationUnit

variable {u : CompilationUnit} {p : Program} {id : NodeId} {problem : Problem} {e : Symbol}

namespace Holds

/-- What is found out about a node that declares a name is what declarations leave behind. -/
theorem ofDeclaration (h : u.Holds p) {ev : Event} (hmem : ev ∈ p.events)
    (hnode : ev.node ∈ nodesOf NodeKind.isDeclaration p.kinds) : ev.ofDeclaration = true := by
  have inside : ∀ q ∈ p.places, q.expr.kinds ⊆ p.kinds := fun q hq =>
    ((sublist_flatMap_of_mem (f := fun q : Place => q.expr.kinds) hq).trans p.sublist_kinds).subset
  obtain ⟨kind, hkind, hdecl⟩ := h.consists.exists_kind inside hmem
  obtain ⟨x, hx, hid⟩ := List.mem_map.1 hnode
  obtain ⟨hx, declares⟩ := List.mem_filter.1 hx
  cases Program.kind_unique h.alone hx hkind hid
  rw [← hdecl, declares]

/-- What is said about a declaration is why it is rejected. -/
theorem ruling_of_complaint (h : u.Holds p) (hid : id ∈ nodesOf NodeKind.isDeclaration p.kinds)
    (hmem : (problem, id) ∈ Event.complaints p.events) :
    (id, .error problem) ∈ Event.rulings p.events := by
  obtain ⟨ev, hev, hcomplaint⟩ := List.mem_filterMap.1 hmem
  cases ev with
  | complain problem' id' =>
    cases hcomplaint
    have rejection : problem.isRejection = true := by
      have declares := h.ofDeclaration hev hid
      cases problem <;> first | rfl | cases declares
    exact List.mem_filterMap.2 ⟨_, hev, if_pos rejection⟩
  | type | link | size | declare => cases hcomplaint

/-- Nothing is said about a declaration that is accepted. -/
theorem complaints_of_accepted (h : u.Holds p) (hr : (id, .ok e) ∈ Event.rulings p.events) :
    (Event.complaints p.events).filter (fun x => x.2 = id) = [] := by
  refine List.filter_eq_nil_iff.2 fun x hx hid => ?_
  obtain rfl := of_decide_eq_true hid
  cases Program.ruling_unique h.alone hr (h.ruling_of_complaint (Program.mem_declaring hr) hx)

/-- One thing is said about a declaration that is rejected. -/
theorem complaints_of_rejected (h : u.Holds p)
    (hr : (id, .error problem) ∈ Event.rulings p.events) :
    (Event.complaints p.events).filter (fun x => x.2 = id) = [(problem, id)] := by
  have same : (Event.complaints p.events).filter (fun x => x.2 = id) =
      (Event.complaints p.events).filter (· = (problem, id)) := by
    refine List.filter_congr fun x hx => decide_eq_decide.2 ⟨fun hid => ?_, fun hx => hx ▸ rfl⟩
    subst hid
    cases Program.ruling_unique h.alone hr (h.ruling_of_complaint (Program.mem_declaring hr) hx)
    rfl
  have alone : (Event.complaintsOf Problem.isRejection p.events).Nodup := by
    rw [Event.complaintsOf_isRejection]
    refine (List.Nodup.of_map _ (Program.nodup_rulings h.alone)).filterMap ?_
    rintro ⟨id, r⟩ ⟨id', r'⟩ x hx hx'
    cases r <;> cases hx
    cases r' <;> cases hx'
    rfl
  have once : (problem, id) ∈ Event.complaintsOf Problem.isRejection p.events := by
    rw [Event.complaintsOf_isRejection]
    exact List.mem_filterMap.2 ⟨_, hr, rfl⟩
  have count : (Event.complaints p.events).count (problem, id) = 1 :=
    (List.count_filter (p := fun x : Problem × NodeId => x.1.isRejection)
      (List.mem_filter.1 once).2).symm.trans (List.count_eq_one_of_mem alone once)
  rw [same, List.filter_eq, count]
  rfl

/-- A declaration that is rejected is left without a symbol, as it was. -/
theorem unlinked_of_rejected (h : u.Holds p)
    (hunlinked : ∀ id ∈ p.ids, u.tree.Has id fun n => n.symbol = none)
    (hr : (id, .error problem) ∈ Event.rulings p.events) :
    (u.checked p).tree.Has id fun n => n.symbol = none := by
  have hid := Program.mem_declaring hr
  have elsewhere : id ∉ Event.sites p.events := by
    intro hsite
    obtain ⟨ev, hev, hsite⟩ := List.mem_filterMap.1 hsite
    cases ev with
    | declare id' number symbol =>
      cases hsite
      have ruling : (id, .ok symbol) ∈ Event.rulings p.events := List.mem_filterMap.2 ⟨_, hev, rfl⟩
      cases Program.ruling_unique h.alone hr ruling
    | link id' number =>
      cases hsite
      cases h.ofDeclaration hev hid
    | complain problem' id' =>
      cases problem' <;> cases hsite
      cases h.ofDeclaration hev hid
    | type | size => cases hsite
  have mem : id ∈ p.ids := by
    rw [← p.map_fst_kinds]
    exact nodesOf_sublist.subset hid
  obtain ⟨n, hn, hnone⟩ := hunlinked id mem
  exact ⟨_, Tree.node_annotate p.events hn, (Node.symbol_marked_of_not_mem elsewhere).trans hnone⟩

/-- A declaration is linked to the symbol that it was accepted with, or to none. -/
theorem linked?_of_ruling (h : u.Holds p)
    (hunlinked : ∀ id ∈ p.ids, u.tree.Has id fun n => n.symbol = none) {r : Except Problem Symbol}
    (hr : (id, r) ∈ Event.rulings p.events) : (u.checked p).linked? id = r.toOption := by
  cases r with
  | ok e =>
    refine h.linked?_eq rfl rfl (id, e) ?_
    obtain ⟨ev, hev, hruling⟩ := List.mem_filterMap.1 hr
    refine List.mem_filterMap.2 ⟨ev, hev, ?_⟩
    cases ev with
    | declare =>
      cases hruling
      rfl
    | complain problem =>
      rw [Event.ruling?] at hruling
      split at hruling <;> cases hruling
    | type | link | size => cases hruling
  | error problem =>
    obtain ⟨n, hn, hnone⟩ := h.unlinked_of_rejected hunlinked hr
    simp [linked?, Tree.node_eq_ok_iff.1 hn, hnone, Except.toOption]

end Holds

/-! ### The check -/

/-- What a check does with a declaration at a level, behind others of its region. -/
structure Treats (checked : CompilationUnit) (reports : List (Problem × NodeId)) (level : Nat)
    (earlier : List Declarer) (d : Declarer) : Prop where
  linked_iff : (checked.linked? d.id).isSome ↔
    ¬ d.Hollow ∧ ∀ other ∈ earlier, other.name = d.name → checked.linked? other.id = none
  entered : ∀ e, checked.linked? d.id = some e →
    d.Entered level e ∧ reports.filter (fun x => x.2 = d.id) = []
  rejected : checked.linked? d.id = none → (checked.tree.Has d.id fun n => n.symbol = none) ∧
    reports.filter (fun x => x.2 = d.id) = [(d.rejection level, d.id)]

theorem Holds.treats (h : u.Holds p)
    (hunlinked : ∀ id ∈ p.ids, u.tree.Has id fun n => n.symbol = none) {r : Region}
    (hr : r ∈ p.regions) {earlier later : List Declarer} {d : Declarer}
    (hsplit : r.declarers = earlier ++ d :: later) :
    (u.checked p).Treats (Event.complaints p.events) r.level earlier d := by
  have ruled : Ruled p.events r.level [] r.declarers := p.ruled r hr
  have each : ∀ before other after, r.declarers = before ++ other :: after →
      (((u.checked p).linked? other.id).isSome ↔ other.Accepted before) := by
    intro before other after hsplit
    obtain ⟨ruling, hmem, judged⟩ := ruled.split hsplit
    rw [h.linked?_of_ruling hunlinked hmem]
    cases ruling with
    | ok e => exact iff_of_true rfl judged.1
    | error problem => exact iff_of_false Bool.false_ne_true judged.1
  obtain ⟨ruling, hmem, judged⟩ := ruled.split hsplit
  have linked := h.linked?_of_ruling hunlinked hmem
  constructor
  · rw [each earlier d later hsplit, Declarer.accepted_iff_forall fun before other after hother =>
      each before other (after ++ d :: later) (by simp [hsplit, hother])]
    simp
  · intro e he
    rw [linked] at he
    cases ruling with
    | ok e' =>
      cases he
      exact ⟨judged.2, h.complaints_of_accepted hmem⟩
    | error problem => cases he
  · intro hnone
    rw [linked] at hnone
    cases ruling with
    | ok e => cases hnone
    | error problem =>
      obtain ⟨-, rfl⟩ := judged
      exact ⟨h.unlinked_of_rejected hunlinked hmem, h.complaints_of_rejected hmem⟩

/-- **Declarations are treated exactly.** The check of a program without links comes to an end,
whatever is wrong with the program. The regions of the program have all nodes that declare names. A
declaration is linked to a symbol of its own then if there is something to declare and no
declaration of the name before it in its region was linked. Otherwise it has no link, and this is
the one thing that is said about it. Nothing else is said to be declared twice, or to be an array
without elements. -/
theorem declarations_of_check (h : u.Holds p)
    (hunlinked : ∀ id ∈ p.ids, u.tree.Has id fun n => n.symbol = none) :
    ∃ reports checked, u.check = .ok (u.located reports, checked) ∧
      (p.regions.flatMap Region.ids).Perm
        (p.ids.filter (u.tree.ofKind NodeKind.isDeclaration)) ∧
      (∀ r ∈ p.regions, ∀ earlier d later, r.declarers = earlier ++ d :: later →
        checked.Treats reports r.level earlier d) ∧
      ∀ x ∈ reports, x.1.isRejection = true → ∃ r ∈ p.regions, x.2 ∈ r.ids := by
  refine ⟨_, _, h.check_eq, ?_, fun r hr earlier d later hsplit => h.treats hunlinked hr hsplit,
    fun x hx rejection => ?_⟩
  · rw [h.held.filter_ids]
    exact p.declaring_kinds
  · obtain ⟨problem, id⟩ := x
    have blamed : (problem, id) ∈ Event.complaintsOf Problem.isRejection p.events :=
      List.mem_filter.2 ⟨hx, rejection⟩
    rw [Event.complaintsOf_isRejection] at blamed
    obtain ⟨⟨id', r⟩, hruling, hrejected⟩ := List.mem_filterMap.1 blamed
    cases r <;> cases hrejected
    exact List.mem_flatMap.1 (p.declaring_kinds.mem_iff.2 (Program.mem_declaring hruling))

theorem declarations_of_check_faulty : faultyUnit.Holds faulty ∧
    (∀ id ∈ faulty.ids, faultyUnit.tree.Has id fun n => n.symbol = none) ∧
    ∃ reports checked, faultyUnit.check = .ok (faultyUnit.located reports, checked) ∧
      reports.filter (fun x => x.2 = ⟨5⟩) = [(.invalidArraySize "a" 0, ⟨5⟩)] ∧
      reports.filter (fun x => x.2 = ⟨10⟩) = [(.duplicateDeclaration "y" 1, ⟨10⟩)] ∧
      ∃ e, checked.linked? ⟨9⟩ = some e ∧ e.name = "y" ∧ e.ty = .int ∧ e.level = 1 := by
  have unlinked : ∀ id ∈ faulty.ids, faultyUnit.tree.Has id fun n => n.symbol = none :=
    holds_faulty.has_of_forall (by decide)
  obtain ⟨reports, checked, hcheck, -, treats, -⟩ := declarations_of_check holds_faulty unlinked
  have global := treats _ (List.mem_cons_self ..)
  have params := treats _ (List.mem_cons_of_mem _ (List.mem_cons_self ..))
  have array := global [_, _, _] _ _ rfl
  have first := params [] _ _ rfl
  have second := params [_] _ _ rfl
  have hollow : checked.linked? ⟨5⟩ = none := by
    refine Option.not_isSome_iff_eq_none.1 fun linked => ?_
    exact absurd (array.linked_iff.1 linked).1 (by decide)
  have linked : (checked.linked? ⟨9⟩).isSome := first.linked_iff.2 ⟨by decide, by simp⟩
  have twice : checked.linked? ⟨10⟩ = none := by
    refine Option.not_isSome_iff_eq_none.1 fun again => ?_
    have free : checked.linked? ⟨9⟩ = none :=
      (second.linked_iff.1 again).2 _ (List.mem_singleton_self _) rfl
    simp [free] at linked
  obtain ⟨e, he⟩ := Option.isSome_iff_exists.1 linked
  obtain ⟨entered, -⟩ := first.entered e he
  exact ⟨holds_faulty, unlinked, reports, checked, hcheck, (array.rejected hollow).2,
    (second.rejected twice).2, e, he, entered.name, entered.ty, entered.level⟩

end CompilationUnit

end DecafStatics
