import DecafStatics.Proofs.Programs
import DecafStatics.Proofs.Statics

/-!
# Soundness and completeness

The check of a program finds nothing exactly if the program is well formed.

## Implementation notes

Both directions are about the transcript: `Event.Silent es` says that no problem is among the
events. For each construct, being silent is its judgement in the scope that the context stands for,
`Context.scope`. Behind declarations that are silent the scope is the one with their entries; where
one of them complains nothing is claimed of what follows, and nothing needs to be.

An expression that leads to a complaint may have a type all the same, for the benefit of the
constructs around it. An expression without a type has always led to one.

## Main definitions

* `Event.Silent` — leaving no problem behind
* `Context.scope`, `Context.names` — what the names in sight denote, and those of the current scope

## Main results

* `Expr.hasType_iff` — typing
* `Stmt.wellFormed_iff`, `Program.wellFormed_iff` — statements and programs
* `CompilationUnit.check_eq_nil_iff_wellFormed` — the check
-/

namespace DecafStatics

/-- No problem is among the events. -/
def Event.Silent (es : List Event) : Prop := complaints es = []

namespace Event

@[simp] theorem silent_nil : Silent [] := rfl

@[simp] theorem silent_append {es fs : List Event} : Silent (es ++ fs) ↔ Silent es ∧ Silent fs := by
  simp [Silent]

@[simp] theorem silent_cons {e : Event} {es : List Event} :
    Silent (e :: es) ↔ e.complaint? = none ∧ Silent es := by
  simp [Silent]

end Event

open Event (Silent)

/-! ### Expressions -/

section Judgements

variable {Γ : Env} {id : NodeId} {name : String} {b : Binding}

@[simp] theorem silent_mismatch {wanted : Ty} {received : Option Ty} :
    Silent (mismatch wanted received id) ↔ ∀ ty ∈ received, ty = wanted := by
  unfold mismatch
  split
  · simp
  · split <;> simp_all [Event.complaint?]

@[simp] theorem silent_typing {ty : Option Ty} : Silent (typing id ty) := by
  cases ty <;> simp [typing, Event.complaint?]

@[simp] theorem silent_misuse {used : SymbolKind} :
    Silent (misuse name b used id) ↔ b.symbol.kind = used := by
  rw [misuse]
  split <;> simp_all [Event.complaint?]

theorem silent_misfit {types : List (Option Ty)} : Silent (misfit name b types id) ↔
    (types.all Option.isSome → b.formals.map some = types) := by
  rw [misfit]
  split <;> simp_all [Event.complaint?]

theorem silent_reference {judge : Binding → List Event} :
    Silent (reference Γ id name judge) ↔ ∃ b, Γ name = some b ∧ Silent (judge b) := by
  rw [reference]
  cases Γ name <;> simp [Event.complaint?]

end Judgements

/-- What a binding stands for. -/
def Binding.meaning (b : Binding) : Meaning :=
  match b.symbol.kind with
  | .scalar => .scalar b.symbol.ty
  | .array => .array b.symbol.ty
  | .method | .externMethod => .callable b.symbol.ty b.formals
  | .package => .package

namespace Binding

variable {b : Binding} {ty : Ty}

theorem meaning_eq_scalar_iff :
    b.meaning = .scalar ty ↔ b.symbol.kind = .scalar ∧ b.symbol.ty = ty := by
  rw [meaning]
  cases b.symbol.kind <;> simp

theorem meaning_eq_array_iff :
    b.meaning = .array ty ↔ b.symbol.kind = .array ∧ b.symbol.ty = ty := by
  rw [meaning]
  cases b.symbol.kind <;> simp

theorem meaning_eq_callable_iff {formals : List Ty} : b.meaning = .callable ty formals ↔
    b.symbol.kind.isCallable ∧ b.symbol.ty = ty ∧ b.formals = formals := by
  rw [meaning]
  cases b.symbol.kind <;> simp [SymbolKind.isCallable]

end Binding

/-- The scope says of each name what it denotes. -/
def Scope.Describes (S : Scope) (Γ : Env) : Prop :=
  ∀ name, S.lookup name = (Γ name).map Binding.meaning

/-- A type is one that an operator takes if it is what is wanted of the left operand. -/
theorem Operator.signature_iff {op : Operator} {ty result : Ty} :
    op.Signature ty result ↔
      op.cls.operand.wanted (some ty) = some ty ∧ op.cls.result = result := by
  constructor
  · rintro (h | h | h | h | _ | _)
    all_goals first
      | exact ⟨rfl, rfl⟩
      | simp only [List.mem_cons, List.not_mem_nil, or_false] at h
        rcases h with rfl | rfl | rfl | rfl | rfl | rfl | rfl <;> exact ⟨rfl, rfl⟩
  · rintro ⟨hty, rfl⟩
    cases op with
    | plus | minus | times | divide | mod | leftShift | rightShift =>
      obtain rfl : Ty.int = ty := Option.some.inj hty
      exact .arithmetic (by decide)
    | leq | geq | gt | lt =>
      obtain rfl : Ty.int = ty := Option.some.inj hty
      exact .relational (by decide)
    | eq | neq => exact .equality (by decide)
    | and | or =>
      obtain rfl : Ty.bool = ty := Option.some.inj hty
      exact .logical (by decide)
    | unaryMinus =>
      obtain rfl : Ty.int = ty := Option.some.inj hty
      exact .negation
    | not =>
      obtain rfl : Ty.bool = ty := Option.some.inj hty
      exact .complement

namespace Expr

variable {Γ : Env} {S : Scope}

@[simp] theorem silent_events {e : Expr} : Silent (e.events Γ) ↔ Silent (e.findings Γ) := by
  simp [events]

theorem silent_argumentEvents {arguments : List (NodeId × Expr)} :
    Silent (argumentEvents Γ arguments) ↔ ∀ a ∈ arguments, Silent (a.2.findings Γ) := by
  induction arguments with
  | nil => simp [argumentEvents]
  | cons a rest ih => simp [argumentEvents, ih]

/-- An expression has a type exactly if it is given that type and leads to no complaint. -/
def Adequate (S : Scope) (Γ : Env) (e : Expr) : Prop :=
  ∀ ty, HasType S e ty ↔ Silent (e.findings Γ) ∧ e.type Γ = some ty

/-- Arguments that can be typed one by one have the types that they are given. -/
theorem haveTypes_iff {arguments : List (NodeId × Expr)} {types : List Ty}
    (h : ∀ a ∈ arguments, a.2.Adequate S Γ) :
    HaveTypes S arguments types ↔ (∀ a ∈ arguments, Silent (a.2.findings Γ)) ∧
      types.map some = arguments.map fun a => a.2.type Γ := by
  induction arguments generalizing types with
  | nil =>
    constructor
    · rintro ⟨⟩
      simp
    · rintro ⟨-, htypes⟩
      obtain rfl := List.map_eq_nil_iff.1 htypes
      exact .nil
  | cons a rest ih =>
    obtain ⟨wrapper, e⟩ := a
    obtain ⟨he, hrest⟩ := List.forall_mem_cons.1 h
    constructor
    · rintro (_ | ⟨hty, hrest'⟩)
      obtain ⟨hsilent, htypes⟩ := (ih hrest).1 hrest'
      obtain ⟨hs, hty⟩ := (he _).1 hty
      exact ⟨List.forall_mem_cons.2 ⟨hs, hsilent⟩, by simp [hty, htypes]⟩
    · rintro ⟨hsilent, htypes⟩
      obtain ⟨hs, hsilent⟩ := List.forall_mem_cons.1 hsilent
      cases types with
      | nil => simp at htypes
      | cons ty types =>
        simp only [List.map_cons, List.cons.injEq] at htypes
        exact .cons ((he ty).2 ⟨hs, htypes.1.symm⟩) ((ih hrest).2 ⟨hsilent, htypes.2⟩)

/-- An expression that leads to no complaint has a type. -/
theorem type_isSome (e : Expr) (h : Silent (e.findings Γ)) : ∃ ty, e.type Γ = some ty := by
  cases e with
  | literal l => exact ⟨l.ty, rfl⟩
  | plain id access name =>
    obtain ⟨b, hb, -⟩ := silent_reference.1 h
    exact ⟨b.symbol.ty, by simp [hb]⟩
  | element id access name index =>
    obtain ⟨b, hb, -⟩ := silent_reference.1 (Event.silent_append.1 h).2
    exact ⟨b.symbol.ty, by simp [hb]⟩
  | unary id op arity operand => exact ⟨op.cls.result, rfl⟩
  | binary id op arity left right => exact ⟨op.cls.result, rfl⟩
  | call id name arguments =>
    obtain ⟨b, hb, hjudge⟩ := silent_reference.1 (Event.silent_append.1 h).2
    split at hjudge
    · rename_i hcallable
      exact ⟨b.symbol.ty, by simp [type, hb, hcallable]⟩
    · simp [Event.complaint?] at hjudge

/-- What an operator wants of its operands is silent if the left one is of a type that it takes. -/
theorem silent_wanted {op : Operator} {left : Ty} {judge : Ty → List Event}
    (h : ∀ wanted, Silent (judge wanted) → left = wanted) :
    Silent ((op.cls.operand.wanted (some left)).elim [] judge) ↔
      op.cls.operand.wanted (some left) = some left ∧ Silent (judge left) := by
  have asked : ∀ operand : Operand, ∃ wanted, operand.wanted (some left) = some wanted
    | .exactly ty => ⟨ty, rfl⟩
    | .sameAsLeft => ⟨left, rfl⟩
  obtain ⟨wanted, hwanted⟩ := asked op.cls.operand
  rw [hwanted]
  constructor
  · intro hsilent
    obtain rfl := h wanted hsilent
    exact ⟨rfl, hsilent⟩
  · rintro ⟨hsome, hsilent⟩
    obtain rfl := Option.some.inj hsome
    exact hsilent

theorem adequate_literal {l : Literal} : (literal l).Adequate S Γ := by
  intro ty
  constructor
  · rintro ⟨⟩
    exact ⟨rfl, rfl⟩
  · rintro ⟨-, hty⟩
    obtain rfl := Option.some.inj hty
    exact .literal

section Constructs

variable {id : NodeId} {access : Access} {name : String} {op : Operator}

theorem adequate_plain (hS : S.Describes Γ) : (plain id access name).Adequate S Γ := by
  intro ty
  rw [findings_plain, silent_reference, type_plain]
  constructor
  · rintro (_ | h)
    rw [hS name, Option.map_eq_some_iff] at h
    obtain ⟨b, hb, hmeaning⟩ := h
    obtain ⟨hkind, hty⟩ := Binding.meaning_eq_scalar_iff.1 hmeaning
    exact ⟨⟨b, hb, silent_misuse.2 hkind⟩, by simp [hb, hty]⟩
  · rintro ⟨⟨b, hb, hsilent⟩, hty⟩
    rw [hb] at hty
    refine .plain ?_
    rw [hS name, hb]
    exact congrArg some (Binding.meaning_eq_scalar_iff.2
      ⟨silent_misuse.1 hsilent, Option.some.inj hty⟩)

theorem adequate_element (hS : S.Describes Γ) {index : Expr} (ih : index.Adequate S Γ) :
    (element id access name index).Adequate S Γ := by
  intro ty
  rw [findings_element, Event.silent_append, silent_reference, type_element, silent_events]
  constructor
  · rintro (_ | _ | ⟨h, hindex⟩)
    obtain ⟨hsilent, htype⟩ := (ih .int).1 hindex
    rw [hS name, Option.map_eq_some_iff] at h
    obtain ⟨b, hb, hmeaning⟩ := h
    obtain ⟨hkind, hty⟩ := Binding.meaning_eq_array_iff.1 hmeaning
    refine ⟨⟨hsilent, b, hb, ?_⟩, by simp [hb, hty]⟩
    simp [hkind, htype]
  · rintro ⟨⟨hsilent, b, hb, hjudge⟩, hty⟩
    obtain ⟨hmisuse, hmismatch⟩ := Event.silent_append.1 hjudge
    obtain ⟨found, hfound⟩ := type_isSome index hsilent
    obtain rfl : found = .int := silent_mismatch.1 hmismatch found hfound
    rw [hb] at hty
    refine .element ?_ ((ih .int).2 ⟨hsilent, hfound⟩)
    rw [hS name, hb]
    exact congrArg some (Binding.meaning_eq_array_iff.2
      ⟨silent_misuse.1 hmisuse, Option.some.inj hty⟩)

theorem adequate_unary {arity : op.cls.arity = 1} {operand : Expr} (ih : operand.Adequate S Γ) :
    (unary id op arity operand).Adequate S Γ := by
  intro ty
  rw [findings_unary, Event.silent_append, type_unary, silent_events]
  constructor
  · rintro (_ | _ | _ | ⟨hsignature, hoperand⟩)
    obtain ⟨hsilent, htype⟩ := (ih _).1 hoperand
    obtain ⟨hwanted, rfl⟩ := Operator.signature_iff.1 hsignature
    refine ⟨⟨hsilent, ?_⟩, rfl⟩
    simp [htype, hwanted]
  · rintro ⟨⟨hsilent, hjudge⟩, hresult⟩
    obtain ⟨found, hfound⟩ := type_isSome operand hsilent
    rw [hfound, silent_wanted fun wanted h => silent_mismatch.1 h found rfl] at hjudge
    exact .unary (Operator.signature_iff.2 ⟨hjudge.1, Option.some.inj hresult⟩)
      ((ih found).2 ⟨hsilent, hfound⟩)

theorem adequate_binary {arity : op.cls.arity = 2} {left right : Expr}
    (ihl : left.Adequate S Γ) (ihr : right.Adequate S Γ) :
    (binary id op arity left right).Adequate S Γ := by
  intro ty
  rw [findings_binary, Event.silent_append, Event.silent_append, type_binary, silent_events,
    silent_events]
  constructor
  · rintro (_ | _ | _ | _ | ⟨hsignature, hleft, hright⟩)
    obtain ⟨hsl, htl⟩ := (ihl _).1 hleft
    obtain ⟨hsr, htr⟩ := (ihr _).1 hright
    obtain ⟨hwanted, rfl⟩ := Operator.signature_iff.1 hsignature
    refine ⟨⟨⟨hsl, hsr⟩, ?_⟩, rfl⟩
    simp [htl, htr, hwanted]
  · rintro ⟨⟨⟨hsl, hsr⟩, hjudge⟩, hresult⟩
    obtain ⟨tl, htl⟩ := type_isSome left hsl
    obtain ⟨tr, htr⟩ := type_isSome right hsr
    rw [htl, htr, silent_wanted fun wanted h =>
      silent_mismatch.1 (Event.silent_append.1 h).1 tl rfl] at hjudge
    obtain ⟨hwanted, hsilent⟩ := hjudge
    obtain rfl : tr = tl := silent_mismatch.1 (Event.silent_append.1 hsilent).2 tr rfl
    exact .binary (Operator.signature_iff.2 ⟨hwanted, Option.some.inj hresult⟩)
      ((ihl tr).2 ⟨hsl, htl⟩) ((ihr tr).2 ⟨hsr, htr⟩)

theorem adequate_call (hS : S.Describes Γ) {arguments : List (NodeId × Expr)}
    (ih : ∀ a ∈ arguments, a.2.Adequate S Γ) : (call id name arguments).Adequate S Γ := by
  intro ty
  rw [findings, Event.silent_append, silent_reference, silent_argumentEvents, type]
  constructor
  · rintro (_ | _ | _ | _ | _ | ⟨h, harguments⟩)
    obtain ⟨hsilent, htypes⟩ := (haveTypes_iff ih).1 harguments
    rw [hS name, Option.map_eq_some_iff] at h
    obtain ⟨b, hb, hmeaning⟩ := h
    obtain ⟨hcallable, hty, hformals⟩ := Binding.meaning_eq_callable_iff.1 hmeaning
    refine ⟨⟨hsilent, b, hb, ?_⟩, by simp [hb, hcallable, hty]⟩
    rw [if_pos hcallable, silent_misfit, hformals]
    exact fun _ => htypes
  · rintro ⟨⟨hsilent, b, hb, hjudge⟩, hty⟩
    rw [hb] at hty
    split at hjudge
    · rename_i hcallable
      have typed : (arguments.map fun a => a.2.type Γ).all Option.isSome := by
        simp only [List.all_map, List.all_eq_true]
        intro a ha
        obtain ⟨found, hfound⟩ := type_isSome a.2 (hsilent a ha)
        simp [hfound]
      have hformals := silent_misfit.1 hjudge typed
      have harguments := (haveTypes_iff ih).2 ⟨hsilent, hformals⟩
      refine .call ?_ harguments
      rw [hS name, hb]
      refine congrArg some (Binding.meaning_eq_callable_iff.2 ⟨hcallable, ?_, rfl⟩)
      simpa [hcallable] using hty
    · simp [Event.complaint?] at hjudge

end Constructs

/-- **Typing.** An expression has a type exactly if it is given that type and leads to no
complaint. -/
theorem hasType_iff (hS : S.Describes Γ) {e : Expr} {ty : Ty} :
    HasType S e ty ↔ Silent (e.findings Γ) ∧ e.type Γ = some ty := by
  suffices e.Adequate S Γ from this ty
  induction e with
  | literal l => exact adequate_literal
  | plain id access name => exact adequate_plain hS
  | element id access name index ih => exact adequate_element hS ih
  | unary id op arity operand ih => exact adequate_unary ih
  | binary id op arity left right ihl ihr => exact adequate_binary ihl ihr
  | call id name arguments ih => exact adequate_call hS ih

end Expr

/-! ### Scopes of contexts -/

namespace Context

/-- What the names in sight stand for. -/
def scope (c : Context) : Scope := c.bindings.map fun b => (b.symbol.name, b.meaning)

/-- The names that the current scope declares. -/
def names (c : Context) : List String :=
  (c.bindings.filter fun b => b.symbol.level = c.level).map fun b => b.symbol.name

/-- The current scope can declare all of this. -/
def Admits (c : Context) (entries : List (String × Meaning)) : Prop :=
  Distinct entries ∧ ∀ name ∈ entries.map Prod.fst, name ∉ c.names

/-- The context `c'` is behind declarations in the current scope of `c`. -/
structure Brings (c : Context) (entries : List (String × Meaning)) (c' : Context) : Prop where
  scope : c'.scope = c.scope.extend entries
  names : c'.names = (entries.map Prod.fst).reverse ++ c.names
  opened : c.Opened → c'.Opened
  loops : c'.loops = c.loops

variable {c c₁ c₂ : Context} {name : String} {node : NodeId} {symbol : Symbol} {formals : List Ty}
  {es fs : List (String × Meaning)}

theorem taken_iff : c.Taken name ↔ name ∈ c.names := by
  simp [Taken, names, and_assoc]

theorem scope_describes (c : Context) : c.scope.Describes c.find? := by
  intro name
  rw [scope, find?]
  induction c.bindings with
  | nil => rfl
  | cons b rest ih =>
    by_cases h : b.symbol.name = name
    · simp [h]
    · have h' : ¬ name = b.symbol.name := fun heq => h heq.symm
      rw [List.map_cons, List.lookup_cons, beq_false_of_ne h',
        List.find?_cons_of_neg (by simpa using h)]
      exact ih

/-- A scope that was just opened declares nothing. -/
theorem Opened.names_inner (h : c.Opened) : c.inner.names = [] := by
  have none : c.bindings.filter (fun b => b.symbol.level = c.level + 1) = [] := by
    refine List.filter_eq_nil_iff.2 fun b hb => ?_
    have hle := h b hb
    have hne : b.symbol.level ≠ c.level + 1 := by omega
    simpa using hne
  rw [names, Context.inner, none]
  rfl

theorem admits_iff_distinct (h : c.names = []) : c.Admits es ↔ Distinct es := by
  simp [Admits, h]

theorem admits_singleton {e : String × Meaning} : c.Admits [e] ↔ e.1 ∉ c.names := by
  simp [Admits, Distinct]

theorem Brings.refl (c : Context) : c.Brings [] c := ⟨rfl, rfl, id, rfl⟩

theorem Brings.trans (h₁ : c.Brings es c₁) (h₂ : c₁.Brings fs c₂) : c.Brings (es ++ fs) c₂ where
  scope := by simp [h₂.scope, h₁.scope, Scope.extend]
  names := by simp [h₂.names, h₁.names]
  opened := fun h => h₂.opened (h₁.opened h)
  loops := h₂.loops.trans h₁.loops

/-- Declarations can be made one after the other if they can be made together. -/
theorem Brings.admits_append (h : c.Brings es c₁) :
    c.Admits (es ++ fs) ↔ c.Admits es ∧ c₁.Admits fs := by
  simp only [Admits, Distinct, h.names, List.map_append, List.nodup_append, List.mem_append,
    List.mem_reverse]
  constructor
  · rintro ⟨⟨hes, hfs, hne⟩, hnew⟩
    refine ⟨⟨hes, fun name hname => hnew name (.inl hname)⟩, hfs, ?_⟩
    rintro name hname (hold | hold)
    · exact hne name hold name hname rfl
    · exact hnew name (.inr hname) hold
  · rintro ⟨⟨hes, hes'⟩, hfs, hfs'⟩
    refine ⟨⟨hes, hfs, fun a ha b hb heq => hfs' b hb (.inl (heq ▸ ha))⟩, ?_⟩
    rintro name (hname | hname)
    · exact hes' name hname
    · exact fun hold => hfs' name hname (.inr hold)

theorem Admits.left (h : c.Admits (es ++ fs)) : c.Admits es := by
  obtain ⟨hdistinct, hnew⟩ := h
  rw [Distinct, List.map_append] at hdistinct
  rw [List.map_append] at hnew
  refine ⟨(List.nodup_append.1 hdistinct).1, fun name hname => ?_⟩
  exact hnew name (List.mem_append_left _ hname)

/-- Two groups of declarations, one behind the other, are judged as one group. -/
theorem admits_both {P Q A B : Prop} (hP : P ↔ c.Admits es ∧ A) (hbrings : P → c.Brings es c₁)
    (hQ : P → (Q ↔ c₁.Admits fs ∧ B)) : P ∧ Q ↔ c.Admits (es ++ fs) ∧ A ∧ B := by
  constructor
  · rintro ⟨p, q⟩
    obtain ⟨hes, a⟩ := hP.1 p
    obtain ⟨hfs, b⟩ := (hQ p).1 q
    exact ⟨(hbrings p).admits_append.2 ⟨hes, hfs⟩, a, b⟩
  · rintro ⟨hadmits, a, b⟩
    have p := hP.2 ⟨hadmits.left, a⟩
    exact ⟨p, (hQ p).2 ⟨((hbrings p).admits_append.1 hadmits).2, b⟩⟩

theorem brings_declare (h : symbol.name ∉ c.names) (hlevel : symbol.level = c.level)
    (node : NodeId) (formals : List Ty) :
    c.Brings [(symbol.name, Binding.meaning ⟨⟨c.count⟩, node, symbol, formals⟩)]
      (c.declare node symbol formals) := by
  rw [declare_of_not_taken (fun htaken => h (taken_iff.1 htaken))]
  refine ⟨rfl, ?_, fun hc => List.forall_mem_cons.2 ⟨Nat.le_of_eq hlevel, hc⟩, rfl⟩
  simp [names, hlevel]

theorem brings_store (h : name ∉ c.names) (node : NodeId) (ty : Ty) (kind : SymbolKind)
    (size : Nat) :
    c.Brings [(name, Binding.meaning ⟨⟨c.count⟩, node, c.stored name ty kind size, []⟩)]
      (c.store node name ty kind size) := by
  have declared : c.Brings _ (c.declare node (c.stored name ty kind size) []) :=
    brings_declare h rfl node []
  obtain ⟨hscope, hnames, hopened, hloops⟩ := declared
  rw [store, if_neg fun htaken => h (taken_iff.1 htaken)]
  exact ⟨hscope, hnames, hopened, hloops⟩

theorem silent_declaring :
    Silent (c.declaring node symbol) ↔ symbol.name ∉ c.names := by
  rw [← taken_iff]
  rw [declaring]
  split <;> simp_all [Event.complaint?]

theorem silent_storing {ty : Ty} {kind : SymbolKind} {size : Nat} :
    Silent (c.storing node name ty kind size) ↔ name ∉ c.names := by
  rw [storing, Event.silent_cons, silent_declaring]
  simp [Event.complaint?, stored]

end Context

/-! ### Lists of declarations -/

section Along

variable {α : Type} {events : Context → α → List Event} {next : Context → α → Context}

/-- Of each element of a list, what is before it and the element itself. -/
theorem forall_splits_cons {p : List α → α → Prop} {a : α} {l : List α} :
    (∀ before x after, a :: l = before ++ x :: after → p before x) ↔
      p [] a ∧ ∀ before x after, l = before ++ x :: after → p (a :: before) x := by
  constructor
  · intro h
    exact ⟨h [] a l rfl, fun before x after hl => h (a :: before) x after (by rw [hl]; rfl)⟩
  · rintro ⟨ha, hl⟩ before x after heq
    cases before with
    | nil =>
      obtain ⟨rfl, -⟩ := List.cons.inj heq
      exact ha
    | cons b before =>
      obtain ⟨rfl, hrest⟩ := List.cons.inj heq
      exact hl before x after hrest

theorem forall_splits_iff {p : α → Prop} {l : List α} :
    (∀ before x after, l = before ++ x :: after → p x) ↔ ∀ x ∈ l, p x := by
  constructor
  · intro h x hx
    obtain ⟨before, after, hl⟩ := List.append_of_mem hx
    exact h before x after hl
  · rintro h before x after rfl
    exact h x (by simp)

/-- Declarations one after the other, each of which is judged in the scope that it brings about:
they are silent if the names are free and all of them are fine, and then they bring all of their
entries. -/
theorem silent_along (entry : α → String × Meaning) (ok : Scope → α → Prop) (I : Context → Prop)
    (step : ∀ (c : Context) (a : α), I c → (Silent (events c a) ↔
      (entry a).1 ∉ c.names ∧ ok (c.scope.extend [entry a]) a))
    (brings : ∀ (c : Context) (a : α), I c → Silent (events c a) → c.Brings [entry a] (next c a))
    (hI : ∀ (c : Context) (a : α), I c → Silent (events c a) → I (next c a)) {c : Context}
    (hc : I c) {l : List α} :
    (Silent (c.along events next l) ↔ c.Admits (l.map entry) ∧
      ∀ before a after, l = before ++ a :: after →
        ok (c.scope.extend ((before ++ [a]).map entry)) a) ∧
    (Silent (c.along events next l) → c.Brings (l.map entry) (l.foldl next c)) := by
  induction l generalizing c with
  | nil =>
    refine ⟨?_, fun _ => .refl c⟩
    simp [Context.along, Context.Admits, Distinct]
  | cons a rest ih =>
    rw [Context.along, Event.silent_append, List.foldl_cons]
    have hstep := step c a hc
    by_cases hsilent : Silent (events c a)
    · have hbrings := brings c a hc hsilent
      obtain ⟨hrest, hfold⟩ := ih (hI c a hc hsilent)
      refine ⟨?_, fun h => hbrings.trans (hfold h.2)⟩
      obtain ⟨hfree, hok⟩ := hstep.1 hsilent
      have scopes : ∀ before : List α, (next c a).scope.extend (before.map entry) =
          c.scope.extend ((a :: before).map entry) := by
        intro before
        simp [hbrings.scope, Scope.extend]
      have admits : c.Admits ((a :: rest).map entry) ↔ (next c a).Admits (rest.map entry) := by
        rw [List.map_cons, ← List.singleton_append, hbrings.admits_append,
          Context.admits_singleton]
        exact and_iff_right hfree
      rw [hrest, admits, forall_splits_cons, and_iff_right hsilent, and_congr_right_iff]
      intro _
      simp only [scopes]
      exact (and_iff_right hok).symm
    · refine ⟨?_, fun h => absurd h.1 hsilent⟩
      rw [forall_splits_cons]
      constructor
      · exact fun h => absurd h.1 hsilent
      · rintro ⟨hadmits, hok, -⟩
        exact absurd (hstep.2 ⟨hadmits.2 _ (by simp), hok⟩) hsilent

end Along

namespace VarDecl

theorem silent_events {c : Context} {d : VarDecl} :
    Silent (d.events c) ↔ d.name ∉ c.names ∧ d.WellFormed := by
  rw [events, WellFormed]
  cases d.shape with
  | scalar => simp [Shape.length, Check.variableShape, Context.silent_storing, Shape.events]
  | array id length =>
    by_cases hlength : length < 1
    · simp [Shape.length, Check.variableShape, hlength, Event.complaint?]
    · simp [Shape.length, Check.variableShape, hlength, Context.silent_storing, Shape.events,
        Int32.not_lt.1 hlength]
  | initialized value =>
    simp [Shape.length, Check.variableShape, Context.silent_storing, Shape.events,
      Event.complaint?]

theorem brings {c : Context} {d : VarDecl} (h : Silent (d.events c)) :
    c.Brings [d.entry] (d.next c) := by
  obtain ⟨hfree, hfine⟩ := silent_events.1 h
  rw [next, entry]
  rw [WellFormed] at hfine
  cases hshape : d.shape with
  | scalar => exact Context.brings_store hfree d.id d.ty .scalar 1
  | array id length =>
    rw [hshape] at hfine
    simp only [Shape.length, Check.variableShape, if_neg (Int32.not_lt.2 hfine)]
    exact Context.brings_store hfree d.id d.ty .array length.toInt.toNat
  | initialized value => exact Context.brings_store hfree d.id d.ty .scalar 1

theorem silent_along {c : Context} {l : List VarDecl} :
    (Silent (c.along events next l) ↔ c.Admits (l.map entry) ∧ ∀ d ∈ l, d.WellFormed) ∧
    (Silent (c.along events next l) → c.Brings (l.map entry) (l.foldl next c)) := by
  have names : ∀ d : VarDecl, d.entry.1 = d.name := by
    intro d
    rw [entry]
    split <;> rfl
  have lists := DecafStatics.silent_along entry (fun _ d => d.WellFormed) (fun _ => True)
    (fun c d _ => by rw [silent_events, names]) (fun c d _ h => brings h) (fun _ _ _ _ => trivial)
    (c := c) trivial (l := l)
  rwa [forall_splits_iff] at lists

end VarDecl

namespace Param

theorem silent_events {c : Context} {param : Param} :
    Silent (param.events c) ↔ param.name ∉ c.names := Context.silent_storing

theorem brings {c : Context} {param : Param} (h : Silent (param.events c)) :
    c.Brings [param.entry] (param.next c) :=
  Context.brings_store (silent_events.1 h) param.id param.ty .scalar 1

theorem silent_along {c : Context} {l : List Param} :
    (Silent (c.along events next l) ↔ c.Admits (l.map entry)) ∧
    (Silent (c.along events next l) → c.Brings (l.map entry) (l.foldl next c)) := by
  have lists := DecafStatics.silent_along entry (fun _ _ => True) (fun _ => True)
    (fun c param _ => silent_events.trans (and_true _).symm.to_iff) (fun c param _ h => brings h)
    (fun _ _ _ _ => trivial) (c := c) trivial (l := l)
  simpa using lists

end Param

namespace Extern

theorem silent_events {c : Context} {e : Extern} : Silent (e.events c) ↔ e.name ∉ c.names :=
  Context.silent_declaring

theorem brings {c : Context} {e : Extern} (h : Silent (e.events c)) :
    c.Brings [e.entry] (e.next c) :=
  Context.brings_declare (show (e.symbol c).name ∉ c.names from silent_events.1 h) rfl e.id
    (e.params.map Prod.snd)

theorem silent_along {c : Context} {l : List Extern} :
    (Silent (c.along events next l) ↔ c.Admits (l.map entry)) ∧
    (Silent (c.along events next l) → c.Brings (l.map entry) (l.foldl next c)) := by
  have lists := DecafStatics.silent_along entry (fun _ _ => True) (fun _ => True)
    (fun c e _ => silent_events.trans (and_true _).symm.to_iff) (fun c e _ h => brings h)
    (fun _ _ _ _ => trivial) (c := c) trivial (l := l)
  simpa using lists

end Extern

/-! ### Statements -/

/-- A condition is silent if it is a truth value. -/
theorem silent_conditionEvents {S : Scope} {Γ : Env} (hS : S.Describes Γ) {e : Expr} :
    Silent (conditionEvents Γ e) ↔ HasType S e .bool := by
  rw [conditionEvents, Event.silent_append, Expr.silent_events, Expr.hasType_iff hS,
    silent_mismatch, and_congr_right_iff]
  intro hsilent
  obtain ⟨ty, hty⟩ := e.type_isSome hsilent
  simp [hty]

theorem silent_returnEvents {c : Context} {id : NodeId} {value : Option Expr} {name : String}
    {result : Ty} (hmethod : c.method = some ⟨name, result⟩) {looping : Bool} :
    Silent (returnEvents c id value) ↔
      (Stmt.returnValue id value).WellFormed result looping c.scope := by
  rw [returnEvents, hmethod]
  cases value with
  | none =>
    constructor
    · intro h
      refine .returnNothing ?_
      cases result <;> simp_all [Event.complaint?]
    · rintro (_ | _ | _ | _ | _ | hresult)
      simp [hresult]
  | some e =>
    have typed : HasType c.scope e result ↔ Silent (e.findings c.find?) ∧
        e.type c.find? = some result := Expr.hasType_iff c.scope_describes
    constructor
    · intro h
      obtain ⟨hsilent, hjudge⟩ := Event.silent_append.1 h
      rw [Option.elim, Expr.silent_events] at hsilent
      obtain ⟨ty, hty⟩ := e.type_isSome hsilent
      have agree : result ≠ .void ∧ ty = result := by
        cases result <;> simp_all [Event.complaint?]
      obtain ⟨hvoid, rfl⟩ := agree
      exact .returnValue hvoid (typed.2 ⟨hsilent, hty⟩)
    · rintro (_ | _ | _ | _ | _ | _ | ⟨hvoid, he⟩)
      obtain ⟨hsilent, hty⟩ := typed.1 he
      refine Event.silent_append.2 ⟨Expr.silent_events.2 hsilent, ?_⟩
      cases result <;> simp_all

/-- The context stands in a method with that result, inside of a loop or not. -/
structure Context.Inside (c : Context) (result : Ty) (looping : Bool) : Prop where
  opened : c.Opened
  method : ∃ name, c.method = some ⟨name, result⟩
  loops : looping = true ↔ c.loops ≠ 0

theorem Context.Inside.after {c : Context} {result : Ty} {looping : Bool}
    (h : c.Inside result looping) (es : List Event) : (c.after es).Inside result looping :=
  ⟨h.opened, h.method, h.loops⟩

namespace Stmt

/-- Wherever it may stand, a statement is well formed exactly if nothing is wrong with it. -/
def Adequate (result : Ty) (st : Stmt) : Prop :=
  ∀ (c : Context) (looping : Bool), c.Inside result looping →
    (Silent (st.events c) ↔ st.WellFormed result looping c.scope)

/-- The statements of a block are silent if each of them is, wherever it stands in the method. -/
theorem silent_bodyEvents {c : Context} {body : List Stmt} {result : Ty} {looping : Bool}
    (hc : c.Inside result looping) (h : ∀ st ∈ body, st.Adequate result) :
    Silent (bodyEvents c body) ↔ ∀ st ∈ body, st.WellFormed result looping c.scope := by
  induction body generalizing c with
  | nil => simp [bodyEvents]
  | cons st rest ih =>
    obtain ⟨hst, hrest⟩ := List.forall_mem_cons.1 h
    have behind : Silent (bodyEvents (c.after (st.events c)) rest) ↔
        ∀ st ∈ rest, st.WellFormed result looping c.scope := ih (hc.after _) hrest
    rw [bodyEvents, Event.silent_append, hst c looping hc, behind, List.forall_mem_cons]

section Constructs

variable {c : Context} {id branch : NodeId} {condition : Expr} {result : Ty} {looping : Bool}

theorem adequate_assignment {target : Target} {value : Expr} :
    (assignment id target value).Adequate result := by
  intro c looping hc
  have hS := c.scope_describes
  rw [events, Event.silent_append, Event.silent_append, Expr.silent_events, Expr.silent_events]
  constructor
  · rintro ⟨⟨htarget, hvalue⟩, hjudge⟩
    obtain ⟨ty, hty⟩ := target.expr.type_isSome htarget
    obtain ⟨ty', hty'⟩ := value.type_isSome hvalue
    rw [hty, hty', Option.elim, silent_mismatch] at hjudge
    obtain rfl : ty' = ty := hjudge ty' rfl
    exact .assignment ((Expr.hasType_iff hS).2 ⟨htarget, hty⟩)
      ((Expr.hasType_iff hS).2 ⟨hvalue, hty'⟩)
  · rintro (⟨htarget, hvalue⟩)
    obtain ⟨hst, hty⟩ := (Expr.hasType_iff hS).1 htarget
    obtain ⟨hsv, hty'⟩ := (Expr.hasType_iff hS).1 hvalue
    refine ⟨⟨hst, hsv⟩, ?_⟩
    simp [hty, hty']

theorem adequate_call {invocation : Call} : (call invocation).Adequate result := by
  intro c looping hc
  have hS := c.scope_describes
  rw [events, Expr.silent_events]
  constructor
  · intro h
    obtain ⟨ty, hty⟩ := invocation.expr.type_isSome h
    exact .call ((Expr.hasType_iff hS).2 ⟨h, hty⟩)
  · rintro (_ | h)
    exact ((Expr.hasType_iff hS).1 h).1

theorem adequate_ifThen {yes : Stmt} (ih : yes.Adequate result) :
    (ifThen id branch condition yes).Adequate result := by
  intro c looping hc
  rw [events, Event.silent_append, silent_conditionEvents c.scope_describes, ih c looping hc]
  constructor
  · rintro ⟨hcondition, hyes⟩
    exact .ifThen hcondition hyes
  · rintro (_ | _ | ⟨hcondition, hyes⟩)
    exact ⟨hcondition, hyes⟩

theorem adequate_ifElse {other : NodeId} {yes no : Stmt} (ihy : yes.Adequate result)
    (ihn : no.Adequate result) :
    (ifElse id branch condition yes other no).Adequate result := by
  intro c looping hc
  have hno : Silent (no.events (c.after (yes.events c))) ↔
      no.WellFormed result looping c.scope := ihn _ looping (hc.after _)
  rw [events, Event.silent_append, Event.silent_append,
    silent_conditionEvents c.scope_describes, ihy c looping hc, hno]
  constructor
  · rintro ⟨⟨hcondition, hyes⟩, hno⟩
    exact .ifElse hcondition hyes hno
  · rintro (_ | _ | _ | ⟨hcondition, hyes, hno⟩)
    exact ⟨⟨hcondition, hyes⟩, hno⟩

theorem adequate_loop {body : Stmt} (ih : body.Adequate result) :
    (loop id condition body).Adequate result := by
  intro c looping hc
  have hbody : Silent (body.events { c with loops := c.loops + 1 }) ↔
      body.WellFormed result true c.scope := ih _ true ⟨hc.opened, hc.method, by simp⟩
  rw [events, Event.silent_append, silent_conditionEvents c.scope_describes, hbody]
  constructor
  · rintro ⟨hcondition, hbody⟩
    exact .loop hcondition hbody
  · rintro (_ | _ | _ | _ | ⟨hcondition, hbody⟩)
    exact ⟨hcondition, hbody⟩

theorem adequate_jump {j : Jump} : (jump id j).Adequate result := by
  intro c looping hc
  rw [events]
  constructor
  · intro h
    split at h
    · simp [Event.complaint?] at h
    · rename_i hne
      obtain rfl := hc.loops.2 hne
      exact .jump
  · rintro ⟨⟩
    rw [if_neg (hc.loops.1 rfl)]
    exact Event.silent_nil

/-- Behind its declarations a block is still in the method, and in the loop, around it. -/
theorem inside_locals {locals : List VarDecl} (hc : c.Inside result looping)
    (hsilent : Silent (c.inner.along VarDecl.events VarDecl.next locals)) :
    (c.locals locals).Inside result looping ∧
      (c.locals locals).scope = c.scope.extend (locals.map VarDecl.entry) := by
  obtain ⟨hscope, -, hopened, hloops⟩ :=
    (VarDecl.silent_along (c := c.inner) (l := locals)).2 hsilent
  have hinner : c.inner.Opened := fun b hb => Nat.le_succ_of_le (hc.opened b hb)
  have hmethod : (c.locals locals).method = c.method := by
    obtain ⟨new, -, hgrown⟩ := Context.grows_along VarDecl.grows c.inner locals
    rw [Context.locals, hgrown]
    rfl
  refine ⟨⟨hopened hinner, hmethod ▸ hc.method, ?_⟩, hscope⟩
  rw [hc.loops, show (c.locals locals).loops = c.loops from hloops]

theorem adequate_block {locals : List VarDecl} {body : List Stmt}
    (ih : ∀ st ∈ body, st.Adequate result) : (block id locals body).Adequate result := by
  intro c looping hc
  have inside : Silent (c.inner.along VarDecl.events VarDecl.next locals) →
      (Silent (bodyEvents (c.locals locals) body) ↔ ∀ st ∈ body,
        st.WellFormed result looping (c.scope.extend (locals.map VarDecl.entry))) := by
    intro hsilent
    obtain ⟨hinside, hscope⟩ := inside_locals hc hsilent
    rw [silent_bodyEvents hinside ih, hscope]
  rw [events, Event.silent_append, and_congr_right_iff.2 inside, VarDecl.silent_along.1,
    Context.admits_iff_distinct hc.opened.names_inner]
  constructor
  · rintro ⟨⟨hdistinct, hfine⟩, hbody⟩
    exact .block hdistinct hfine hbody
  · rintro (_ | _ | _ | _ | _ | _ | _ | _ | ⟨hdistinct, hfine, hbody⟩)
    exact ⟨⟨hdistinct, hfine⟩, hbody⟩

end Constructs

/-- **Statements.** A statement is well formed exactly if nothing is wrong with it. -/
theorem wellFormed_iff {c : Context} {st : Stmt} {result : Ty} {looping : Bool}
    (hc : c.Inside result looping) :
    Silent (st.events c) ↔ st.WellFormed result looping c.scope := by
  suffices st.Adequate result from this c looping hc
  clear hc
  induction st with
  | assignment id target value => exact adequate_assignment
  | call invocation => exact adequate_call
  | ifThen id branch condition yes ih => exact adequate_ifThen ih
  | ifElse id branch condition yes other no ihy ihn => exact adequate_ifElse ihy ihn
  | loop id condition body ih => exact adequate_loop ih
  | returnValue id value =>
    intro c looping hc
    obtain ⟨name, hmethod⟩ := hc.method
    exact silent_returnEvents hmethod
  | jump id j => exact adequate_jump
  | block id locals body ih => exact adequate_block ih

end Stmt

/-! ### Programs -/

namespace Method

variable {c : Context} {m : Method}

/-- The scope of a method, before its parameters, is a new one among the global names. -/
theorem scope_eq (hopened : c.Opened) (h : m.name ∉ c.names) :
    (m.scope c).scope = c.scope.extend [m.entry] ∧ (m.scope c).names = [] ∧
      (m.scope c).Opened := by
  have declared := Context.brings_declare (show (m.symbol c frameHeaderWords).name ∉ c.names from h)
    rfl m.id m.formals
  have level : (m.scope c).level = (c.declare m.id (m.symbol c frameHeaderWords) m.formals).level +
      1 := by rw [Context.level_declare]; rfl
  have inner := (declared.opened hopened).names_inner
  refine ⟨declared.scope, ?_, fun b hb => ?_⟩
  · rw [← inner, Context.names, Context.names, level]
    rfl
  · rw [level]
    exact Nat.le_succ_of_le (declared.opened hopened b hb)

/-- **Methods.** A method is silent if its name is free and it is well formed. -/
theorem silent_events (hopened : c.Opened) (hloops : c.loops = 0) :
    Silent (m.events c) ↔ m.name ∉ c.names ∧ m.WellFormed (c.scope.extend [m.entry]) := by
  rw [events, Event.silent_append, Event.silent_append, Context.silent_declaring, and_assoc,
    show (m.symbol c (m.words c)).name = m.name from rfl, and_congr_right_iff]
  intro hfree
  obtain ⟨hscope, hnames, hopened⟩ := scope_eq hopened hfree
  obtain ⟨hparams, hbrings⟩ := Param.silent_along (c := m.scope c) (l := m.params)
  have body : Silent ((m.scope c).along Param.events Param.next m.params) →
      (Silent (m.block.events (m.within c)) ↔ m.block.WellFormed m.ty false
        ((c.scope.extend [m.entry]).extend (m.params.map Param.entry))) := by
    intro hsilent
    obtain ⟨hscope', -, hopened', hloops'⟩ := hbrings hsilent
    have hlooping : false = true ↔ (m.within c).loops ≠ 0 := by
      have : (m.within c).loops = 0 := by
        rw [← hloops, ← Context.loops_declare (c := c)]
        exact hloops'
      simp [this]
    rw [← hscope, ← hscope']
    exact Stmt.wellFormed_iff ⟨hopened' hopened, ⟨m.name, rfl⟩, hlooping⟩
  rw [inside, Event.silent_append, and_congr_right_iff.2 body, hparams,
    Context.admits_iff_distinct hnames]
  constructor
  · rintro ⟨⟨hdistinct, hbody⟩, -⟩
    exact ⟨hdistinct, hbody⟩
  · rintro ⟨hdistinct, hbody⟩
    exact ⟨⟨hdistinct, hbody⟩, rfl⟩

theorem brings (h : m.name ∉ c.names) : c.Brings [m.entry] (m.next c) := by
  obtain ⟨hscope, hnames, hopened, hloops⟩ := Context.brings_declare
    (show (m.symbol c (m.words c)).name ∉ c.names from h) rfl m.id m.formals
  exact ⟨hscope, hnames, hopened, hloops⟩

theorem silent_along (hopened : c.Opened) (hloops : c.loops = 0) {l : List Method} :
    (Silent (c.along events next l) ↔ c.Admits (l.map entry) ∧
      ∀ before m after, l = before ++ m :: after →
        m.WellFormed (c.scope.extend ((before ++ [m]).map entry))) ∧
    (Silent (c.along events next l) → c.Brings (l.map entry) (l.foldl next c)) := by
  refine DecafStatics.silent_along entry (fun S m => m.WellFormed S)
    (fun c => c.Opened ∧ c.loops = 0) (fun c m hc => silent_events hc.1 hc.2)
    (fun c m hc h => brings ((silent_events hc.1 hc.2).1 h).1) (fun c m hc h => ?_)
    ⟨hopened, hloops⟩
  have := brings ((silent_events hc.1 hc.2).1 h).1
  exact ⟨this.opened hc.1, this.loops.trans hc.2⟩

end Method

namespace Program

/-- What is left behind before the methods of a program. -/
def eventsBefore (p : Program) : List Event :=
  Context.start.along Extern.events Extern.next p.externs ++
    p.afterExterns.declaring p.package (p.symbol p.afterExterns) ++
    p.afterName.along VarDecl.events VarDecl.next p.fields

theorem globals_eq (p : Program) (methods : List Method) :
    p.globals methods = p.globals [] ++ methods.map Method.entry := by
  simp [globals]

/-- Before the methods nothing is wrong if no name is declared twice and the fields are well
formed. -/
theorem silent_eventsBefore (p : Program) :
    (Silent p.eventsBefore ↔
      Context.start.Admits (p.globals []) ∧ ∀ d ∈ p.fields, d.WellFormed) ∧
    (Silent p.eventsBefore → Context.start.Brings (p.globals []) p.afterFields) := by
  obtain ⟨hexterns, bexterns⟩ := Extern.silent_along (c := .start) (l := p.externs)
  obtain ⟨hfields, bfields⟩ := VarDecl.silent_along (c := p.afterName) (l := p.fields)
  have hname : Silent (p.afterExterns.declaring p.package (p.symbol p.afterExterns)) ↔
      p.afterExterns.Admits [(p.name, .package)] ∧ True := by
    rw [Context.silent_declaring, Context.admits_singleton, and_true]
    rfl
  have bname : Silent (p.afterExterns.declaring p.package (p.symbol p.afterExterns)) →
      p.afterExterns.Brings [(p.name, .package)] p.afterName := fun h =>
    Context.brings_declare (Context.silent_declaring.1 h) rfl p.package []
  have named := Context.admits_both (hexterns.trans (and_true _).symm.to_iff) bexterns
    fun _ => hname
  have bnamed := fun h : _ ∧ _ => (bexterns h.1).trans (bname h.2)
  have fielded := Context.admits_both named bnamed fun _ => hfields
  have entries : p.globals [] = p.externs.map Extern.entry ++ [(p.name, .package)] ++
      p.fields.map VarDecl.entry := by
    simp [globals]
  rw [eventsBefore, Event.silent_append, Event.silent_append, entries]
  refine ⟨?_, fun h => (bnamed h.1).trans (bfields h.2)⟩
  simpa using fielded

/-- Behind the fields nothing is wrong if each method is well formed among the global names up to
its own. -/
theorem silent_methods (p : Program) (h : Context.start.Brings (p.globals []) p.afterFields) :
    Silent (p.afterFields.along Method.events Method.next p.methods) ↔
      p.afterFields.Admits (p.methods.map Method.entry) ∧
        ∀ before m after, p.methods = before ++ m :: after →
          m.WellFormed (Scope.extend [] (p.globals (before ++ [m]))) := by
  have scopes : ∀ methods : List Method, p.afterFields.scope.extend (methods.map Method.entry) =
      Scope.extend [] (p.globals methods) := by
    intro methods
    rw [h.scope, globals_eq p methods]
    simp [Scope.extend, Context.scope, Context.start]
  rw [(Method.silent_along (h.opened Context.opened_start) h.loops).1]
  simp only [scopes]

/-- **Programs.** Nothing is wrong with a program exactly if it is well formed. -/
theorem wellFormed_iff (p : Program) : Silent p.events ↔ p.WellFormed := by
  obtain ⟨hbefore, hbrings⟩ := p.silent_eventsBefore
  have all := Context.admits_both hbefore hbrings fun h => p.silent_methods (hbrings h)
  rw [← globals_eq, Context.admits_iff_distinct rfl] at all
  refine Event.silent_append.trans (all.trans ?_)
  exact ⟨fun h => ⟨h.1, h.2.1, h.2.2⟩, fun h => ⟨h.distinct, h.fields, h.methods⟩⟩

end Program

/-- **The check of a program is sound and complete.** It comes to an end, and it finds nothing
exactly if the program is well formed. -/
theorem CompilationUnit.check_eq_nil_iff_wellFormed {u : CompilationUnit} {p : Program}
    (h : u.Holds p) :
    ∃ diagnostics checked, u.check = .ok (diagnostics, checked) ∧
      (diagnostics = [] ↔ p.WellFormed) := by
  refine ⟨_, _, check_eq h, ?_⟩
  rw [List.map_eq_nil_iff, ← p.wellFormed_iff]
  exact Iff.rfl

theorem CompilationUnit.check_eq_nil_iff_wellFormed_shadowing :
    shadowingUnit.Holds shadowing ∧ ¬ shadowing.WellFormed ∧ ∃ diagnostics checked,
      shadowingUnit.check = .ok (diagnostics, checked) ∧ diagnostics ≠ [] := by
  have undeclared : ¬ shadowing.WellFormed := by
    intro h
    cases (h.methods [] _ [] rfl).body with
    | block _ _ hbody =>
      have leave := hbody _ (List.mem_cons_of_mem _ (List.mem_singleton_self _))
      cases leave with
      | returnValue _ hvalue =>
        cases hvalue with
        | plain hlookup => exact absurd hlookup (by decide)
  obtain ⟨diagnostics, checked, hcheck, hiff⟩ := check_eq_nil_iff_wellFormed holds_shadowing
  exact ⟨holds_shadowing, undeclared, diagnostics, checked, hcheck, mt hiff.1 undeclared⟩

end DecafStatics
