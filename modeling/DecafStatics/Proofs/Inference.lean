import DecafStatics.Proofs.Subexpressions
import DecafStatics.Proofs.Typing
import Mathlib.Data.List.Nodup

/-!
# Typing in any state

What typing an expression comes to, from whatever state. The state need not be one that a check gets
into: names may be in sight from deeper scopes than the current one, nodes may have types and links
already, and the parameters of a symbol may be nodes of any sort. An expression has no type exactly
if it is a use of a name that denotes nothing, or a call of something that cannot be called, and
then this has been reported. Everywhere else the type is known, whatever is wrong with the operands,
and it is left on the node.

## Implementation notes

What names denote is a function from names to symbols here, since nothing else about a state matters
to types. The transcripts of typing ask for bindings, which `Checker.outlook` makes up.

Whether the arguments of a call fit is not said. The types of parameters may be overwritten by the
very types that are left on the expression.

## Main definitions

* `Checker.denoted`, `Checker.Legible` — what a name denotes in a state, and states that can be used
* `Expr.infer`, `Expr.Unknown` — the type of an expression, and what has none
* `Expr.mismatches` — the operands that are not of the type that is wanted
* `Tree.Wraps` — wrappers around an expression
* `Expr.Inferred` — what typing comes to

## Main results

* `Expr.complaintsOf_isTypeMismatch_judgement` — which operands are complained about
* `Check.inferred_of_expression` — typing an expression in any legible state
-/

namespace DecafStatics

/-! ### What names denote -/

namespace Checker

/-- The symbol that a name denotes where the check is at. -/
def denoted (s : Checker) (name : String) : Option Symbol :=
  (s.table.lookup name s.level).bind fun id => s.table.store[id.index]?

/-- Whatever is in sight is in the table, and has a chain of parameters that ends. -/
structure Legible (s : Checker) : Prop where
  coherent : s.table.Coherent
  params : ∀ e ∈ s.table.entries, ∃ ids, s.tree.Linked e.2.params ids

/-- What names denote, as bindings. Typing asks neither for the node of a declaration nor, where it
is left open whether arguments fit, for the types of parameters. -/
def outlook (s : Checker) : Env := fun name =>
  (s.table.lookup name s.level).bind fun id =>
    s.table.store[id.index]?.map fun e => ⟨id, ⟨0⟩, e, []⟩

variable {s : Checker} {name : String}

theorem denoted_eq (s : Checker) (name : String) :
    s.denoted name = (s.outlook name).map Binding.symbol := by
  rw [denoted, outlook]
  cases s.table.lookup name s.level with
  | none => rfl
  | some id =>
    rw [Option.bind_some, Option.bind_some]
    cases s.table.store[id.index]? <;> rfl

theorem outlook_eq_some {b : Binding} (h : s.outlook name = some b) :
    s.table.lookup name s.level = some b.id ∧ s.table.store[b.id.index]? = some b.symbol := by
  obtain ⟨id, hid, hb⟩ := Option.bind_eq_some_iff.1 h
  obtain ⟨e, he, rfl⟩ := Option.map_eq_some_iff.1 hb
  exact ⟨hid, he⟩

/-- In a legible state names can be used. -/
theorem Legible.sees (hs : s.Legible) : s.Sees false s.tree s.outlook where
  text := rfl
  lookup := by
    intro name
    rw [outlook]
    cases h : s.table.lookup name s.level with
    | none => rfl
    | some id =>
      obtain ⟨l, -, hid, -⟩ := SymbolTable.lookup_eq_some_iff.1 h
      obtain ⟨e, hmem, -⟩ := SymbolTable.lookupAt_mem hid
      rw [Option.bind_some, (SymbolTable.mem_entries.1 hmem).2]
      rfl
  stored := fun hb => (outlook_eq_some hb).2
  params := fun hb _ => by
    obtain ⟨hid, he⟩ := outlook_eq_some hb
    obtain ⟨l, -, hid, -⟩ := SymbolTable.lookup_eq_some_iff.1 hid
    obtain ⟨e', hmem, -⟩ := SymbolTable.lookupAt_mem hid
    obtain ⟨hlive, -⟩ := SymbolTable.mem_entries.1 hmem
    exact hs.params _ (SymbolTable.mem_entries.2 ⟨hlive, he⟩)
  formals := nofun

end Checker

/-! ### Types and mismatches -/

namespace Expr

variable (look : String → Option Symbol)

/-- The type of an expression where names denote what `look` finds. -/
def infer : Expr → Option Ty
  | literal l => some l.ty
  | plain _ _ name | element _ _ name _ => (look name).map Symbol.ty
  | unary _ op _ _ | binary _ op _ _ _ => some op.cls.result
  | call _ name _ => ((look name).filter fun e => e.kind.isCallable).map Symbol.ty

/-- The expression is a variable or a call whose name denotes nothing, or a call of something that
cannot be called. -/
inductive Unknown : Expr → Prop where
  | plain {id : NodeId} {access : Access} {name : String} :
      look name = none → Unknown (.plain id access name)
  | element {id : NodeId} {access : Access} {name : String} {index : Expr} :
      look name = none → Unknown (.element id access name index)
  | undeclared {id : NodeId} {name : String} {arguments : List (NodeId × Expr)} :
      look name = none → Unknown (.call id name arguments)
  | uncallable {id : NodeId} {name : String} {arguments : List (NodeId × Expr)} {e : Symbol} :
      look name = some e → e.kind.isCallable = false → Unknown (.call id name arguments)

/-- What an expression wants its operands to be. Of the operands of an equality nothing is wanted
if the left one has no type, and of an index if the name denotes nothing. -/
def demands : Expr → List (Ty × Expr)
  | literal _ | plain .. | call .. => []
  | element _ _ name index => (look name).toList.map fun _ => (.int, index)
  | unary _ op _ operand =>
    (op.cls.operand.wanted (operand.infer look)).toList.map fun wanted => (wanted, operand)
  | binary _ op _ left right =>
    (op.cls.operand.wanted (left.infer look)).toList.flatMap fun wanted =>
      [(wanted, left), (wanted, right)]

/-- The operands that have a type, but not the one that is wanted. -/
def mismatches (e : Expr) : List (Problem × NodeId) :=
  (e.demands look).filterMap fun x => (x.2.infer look).bind fun ty =>
    if ty = x.1 then none else some (.typeMismatch x.1 ty, x.2.id)

variable {look}

theorem infer_eq_none_iff {e : Expr} : e.infer look = none ↔ e.Unknown look := by
  constructor
  · intro h
    cases e with
    | literal | unary | binary => cases h
    | plain => exact .plain (Option.map_eq_none_iff.1 h)
    | element => exact .element (Option.map_eq_none_iff.1 h)
    | call id name arguments =>
      cases hname : look name with
      | none => exact .undeclared hname
      | some e =>
        refine .uncallable hname (Bool.eq_false_iff.2 fun hcallable => ?_)
        simp [infer, hname, hcallable] at h
  · rintro (h | h | h | ⟨h, hcallable⟩)
    all_goals simp_all [infer]

end Expr

/-- The problem is that of a part that is of a type which is not wanted. -/
def Problem.isTypeMismatch : Problem → Bool
  | typeMismatch .. => true
  | _ => false

section Transcripts

variable {Γ : Env} {look : String → Option Symbol}

theorem complaintsOf_isTypeMismatch_mismatch (wanted : Ty) (received : Option Ty) (id : NodeId) :
    Event.complaintsOf Problem.isTypeMismatch (mismatch wanted received id) =
      (received.bind fun ty =>
        if ty = wanted then none else some (.typeMismatch wanted ty, id)).toList := by
  cases received with
  | none => rfl
  | some ty =>
    rw [mismatch, Option.bind_some]
    split <;> rfl

theorem complaintsOf_isTypeMismatch_misuse (name : String) (b : Binding) (used : SymbolKind)
    (id : NodeId) : Event.complaintsOf Problem.isTypeMismatch (misuse name b used id) = [] :=
  complaintsOf_misuse (fun _ => rfl) b

namespace Expr

theorem type_eq_infer (hlook : ∀ name, look name = (Γ name).map Binding.symbol) (e : Expr) :
    e.type Γ = e.infer look := by
  cases e with
  | literal | unary | binary => rfl
  | plain id access name | element id access name index =>
    rw [infer, hlook, Option.map_map]
    rfl
  | call id name arguments =>
    rw [infer, hlook, type]
    cases Γ name with
    | none => rfl
    | some b => by_cases h : b.symbol.kind.isCallable = true <;> simp [Option.filter, h]

/-- What is said about the types of its operands when an expression is typed. -/
theorem complaintsOf_isTypeMismatch_judgement
    (hlook : ∀ name, look name = (Γ name).map Binding.symbol) (d : Expr) :
    Event.complaintsOf Problem.isTypeMismatch (d.judgement Γ) = d.mismatches look := by
  cases d with
  | literal l => rfl
  | plain id access name =>
    rw [judgement, complaintsOf_reference rfl]
    simp only [complaintsOf_isTypeMismatch_misuse]
    cases Γ name <;> rfl
  | element id access name index =>
    rw [judgement, complaintsOf_reference rfl, mismatches, demands, hlook,
      List.filterMap_eq_flatMap_toList]
    simp only [Event.complaintsOf_append, complaintsOf_isTypeMismatch_misuse,
      complaintsOf_isTypeMismatch_mismatch, type_eq_infer hlook]
    cases Γ name <;> simp
  | unary id op arity operand =>
    rw [judgement, complaintsOf_elim, mismatches, demands, List.filterMap_eq_flatMap_toList]
    simp only [complaintsOf_isTypeMismatch_mismatch, type_eq_infer hlook]
    cases op.cls.operand.wanted (operand.infer look) <;> simp
  | binary id op arity left right =>
    rw [judgement, complaintsOf_elim, mismatches, demands, List.filterMap_eq_flatMap_toList]
    simp only [Event.complaintsOf_append, complaintsOf_isTypeMismatch_mismatch,
      type_eq_infer hlook]
    cases op.cls.operand.wanted (left.infer look) <;> simp
  | call id name arguments =>
    rw [judgement, complaintsOf_reference rfl]
    cases Γ name with
    | none => rfl
    | some b =>
      rw [Option.elim_some]
      split
      · refine Event.complaintsOf_eq_nil fun problem id hmem => ?_
        cases problem <;> first | rfl | cases isMisfit_of_mem_misfit _ hmem
      · rfl

/-- Where an expression has no type, something is said about it. -/
theorem exists_complain_mem_events {e : Expr} (h : e.type Γ = none) :
    ∃ problem, .complain problem e.id ∈ e.events Γ ∧
      (Event.complain problem e.id).isMisfit = false := by
  have mem : ∀ ev ∈ e.judgement Γ, ev ∈ e.events Γ := fun _ hev => e.judgement_subset_events Γ hev
  cases e with
  | literal | unary | binary => cases h
  | plain id access name | element id access name index =>
    have unknown : Γ name = none := Option.map_eq_none_iff.1 h
    refine ⟨.undeclaredIdentifier name, mem _ ?_, rfl⟩
    simp [judgement, reference, unknown, Expr.id]
  | call id name arguments =>
    cases hname : Γ name with
    | none =>
      refine ⟨.undeclaredIdentifier name, mem _ ?_, rfl⟩
      simp [judgement, reference, hname, Expr.id]
    | some b =>
      have uncallable : b.symbol.kind.isCallable = false := by
        refine Bool.eq_false_iff.2 fun hcallable => ?_
        simp [type, hname, hcallable] at h
      refine ⟨.kindMismatch name .method b.symbol.kind, mem _ ?_, rfl⟩
      simp [judgement, reference, hname, uncallable, Expr.id]

end Expr

end Transcripts

/-! ### Wrappers -/

/-- The nodes `wrappers` are wrappers around an expression, the outermost first, and `id` is the
node of the whole. -/
inductive Tree.Wraps (t : Tree) (e : Expr) : List NodeId → NodeId → Prop where
  | itself : Wraps t e [] e.id
  | wrapper {wrappers : List NodeId} {inner id : NodeId} :
      Wraps t e wrappers inner → t.HasArgument id inner → Wraps t e (id :: wrappers) id

namespace Expr

/-- What typing an expression with wrappers around it leaves behind. The wrappers get its type, the
innermost first. -/
def wrappedEvents (Γ : Env) (e : Expr) (wrappers : List NodeId) : List Event :=
  e.events Γ ++ wrappers.reverse.flatMap fun wrapper => typing wrapper (e.type Γ)

/-- The nodes of an expression with wrappers around it, with the expressions that they stand for. -/
def wrappedParts (e : Expr) (wrappers : List NodeId) : List (NodeId × Expr) :=
  wrappers.map (fun wrapper => (wrapper, e)) ++ e.parts

theorem map_fst_wrappedParts (e : Expr) (wrappers : List NodeId) :
    (e.wrappedParts wrappers).map Prod.fst = wrappers ++ e.ids := by
  simp [wrappedParts, Function.comp_def, e.map_fst_parts]

end Expr

section Wrapped

variable {Γ : Env} {e : Expr} {wrappers : List NodeId} {id : NodeId}

theorem Check.finds_wrapped {strict : Bool} {t : Tree} {s : Checker} {depth : Nat}
    (hs : s.Sees strict t Γ) (he : t.HasExpr e) (alone : e.ids.Nodup)
    (hid : t.Wraps e wrappers id) (hdepth : wrappers.length + e.ids.length ≤ depth) :
    Finds strict t Γ s (typeWithin depth id) (e.type Γ) (e.wrappedEvents Γ wrappers) := by
  rw [Expr.wrappedEvents]
  induction hid generalizing depth with
  | itself => simpa using finds_typeWithin hs he alone (by simpa using hdepth)
  | @wrapper wrappers inner id _ hwrapper ih =>
    rw [List.length_cons] at hdepth
    obtain ⟨depth, rfl⟩ : ∃ d, depth = d + 1 := ⟨depth - 1, by omega⟩
    have hshort : wrappers.length + e.ids.length ≤ depth := by omega
    simpa using finds_argument hs hwrapper (ih hshort)

theorem Tree.Wraps.lt_size {t : Tree} (h : t.Wraps e wrappers id) :
    ∀ wrapper ∈ wrappers, wrapper.index < t.size := by
  induction h with
  | itself => exact List.forall_mem_nil _
  | wrapper _ hwrapper ih => exact List.forall_mem_cons.2 ⟨Has.lt_size hwrapper, ih⟩

/-- The node of the whole stands for the expression. -/
theorem Tree.Wraps.mem_wrappedParts {t : Tree} (h : t.Wraps e wrappers id) :
    (id, e) ∈ e.wrappedParts wrappers := by
  cases h with
  | itself => exact List.mem_append_right _ e.self_mem_parts
  | wrapper => exact List.mem_append_left _ (List.mem_cons_self ..)

theorem Expr.mem_types_wrapped {x : NodeId × Ty} : x ∈ Event.types (e.wrappedEvents Γ wrappers) ↔
    ∃ part ∈ e.wrappedParts wrappers, part.1 = x.1 ∧ part.2.type Γ = some x.2 := by
  have marks : x ∈ Event.types (wrappers.reverse.flatMap fun wrapper =>
      typing wrapper (e.type Γ)) ↔ ∃ wrapper ∈ wrappers, wrapper = x.1 ∧ e.type Γ = some x.2 := by
    rw [Event.types, List.filterMap_flatMap, List.mem_flatMap]
    simp only [List.mem_reverse]
    exact exists_congr fun wrapper => and_congr_right fun _ => mem_types_typing
  rw [wrappedEvents, Event.types_append, List.mem_append, e.mem_types_events, marks, or_comm]
  simp [wrappedParts, or_and_right, exists_or]

/-- **A type that is left is found in the end**, if no node stands in two places. -/
theorem Expr.has_type_of_wrapped {t : Tree} (he : t.HasExpr e) (hid : t.Wraps e wrappers id)
    (alone : (wrappers ++ e.ids).Nodup) {part : NodeId × Expr}
    (hpart : part ∈ e.wrappedParts wrappers) {ty : Ty} (hty : part.2.type Γ = some ty) :
    (t.annotate (e.wrappedEvents Γ wrappers)).Has part.1 fun n => n.ty = some ty := by
  rw [← e.map_fst_wrappedParts] at alone
  have inside : part.1 ∈ wrappers ++ e.ids :=
    e.map_fst_wrappedParts wrappers ▸ List.mem_map_of_mem hpart
  obtain ⟨n, hn⟩ := Tree.node_ok_of_lt
    (List.forall_mem_append.2 ⟨hid.lt_size, he.lt_size⟩ part.1 inside)
  have left : ∀ found, (part.1, found) ∈ Event.types (e.wrappedEvents Γ wrappers) ↔
      part.2.type Γ = some found := by
    intro found
    rw [mem_types_wrapped]
    constructor
    · rintro ⟨part', hpart', hsame, hfound⟩
      rwa [List.inj_on_of_nodup_map alone hpart hpart' hsame.symm]
    · exact fun hfound => ⟨part, hpart, rfl, hfound⟩
  refine ⟨_, Tree.node_annotate _ hn, ?_⟩
  show (n.marked part.1 _).ty = some ty
  rw [Node.ty_marked_eq n left, hty]
  rfl

/-- **The mismatches in an expression**, whether or not it is left open which arguments fit. -/
theorem Expr.complaintsOf_isTypeMismatch_wrapped {strict : Bool} {look : String → Option Symbol}
    (hlook : ∀ name, look name = (Γ name).map Binding.symbol) {es : List Event}
    (h : Event.Agree strict es (e.wrappedEvents Γ wrappers)) :
    Event.complaintsOf Problem.isTypeMismatch es = e.within.flatMap (mismatches look) := by
  have same : Event.complaintsOf Problem.isTypeMismatch es =
      Event.complaintsOf Problem.isTypeMismatch (e.wrappedEvents Γ wrappers) := by
    rw [Event.complaintsOf_eq_filterMap, Event.complaintsOf_eq_filterMap]
    refine h.filterMap fun ev hev => ?_
    cases ev with
    | complain problem id => cases problem <;> first | rfl | cases hev
    | type | link | size | declare => rfl
  have marks : Event.complaintsOf Problem.isTypeMismatch
      (wrappers.reverse.flatMap fun wrapper => typing wrapper (e.type Γ)) = [] := by
    rw [Event.complaintsOf_eq_filterMap, List.filterMap_flatMap, List.flatMap_eq_nil_iff]
    intro wrapper _
    rw [← Event.complaintsOf_eq_filterMap, complaintsOf_typing]
  rw [same, wrappedEvents, Event.complaintsOf_append, marks, List.append_nil, complaintsOf_events]
  exact List.flatMap_congr fun d _ => d.complaintsOf_isTypeMismatch_judgement hlook

end Wrapped

/-! ### Typing in any state -/

/-- What typing an expression from `s` comes to, if `id` is its node or the outermost of the
wrappers around it. It ends in `s'` with a type or without one, and with some reports. -/
structure Expr.Inferred (e : Expr) (id : NodeId) (s s' : Checker) (ty : Option Ty)
    (reports : List (Problem × NodeId)) : Prop where
  /-- The type is that of the constant, of the operator, or of what the name denotes. -/
  inferred : ty = e.infer s.denoted
  /-- There is none exactly for names that denote nothing and calls of what cannot be called. -/
  unknown : ty = none ↔ e.Unknown s.denoted
  /-- Why there is none is among the reports. -/
  explained : ty = none → ∃ problem, (problem, e.id) ∈ reports
  /-- A type is left on the node. -/
  recorded : ∀ found, ty = some found → s'.tree.Has id fun n => n.ty = some found
  /-- So are the types of the expressions inside on their nodes, and on their wrappers. -/
  inside : ∀ part ∈ e.parts, ∀ found, part.2.infer s.denoted = some found →
    s'.tree.Has part.1 fun n => n.ty = some found
  /-- The reports are added to those that were there. -/
  collected : s'.diagnostics =
    s.diagnostics ++ (reports.map fun x => ⟨x.1, s.tree.position x.2⟩).toArray
  /-- Types are complained about where an operand is known to be of another type than is wanted,
  expression by expression, and nowhere else. -/
  mismatched : reports.filter (fun x => x.1.isTypeMismatch) =
    e.within.flatMap fun d => d.mismatches s.denoted

/-- **Typing in any state.** From a legible state, whatever the state is otherwise, typing an
expression without a node in two places comes to an end, and to what it should. -/
theorem Check.inferred_of_expression {s : Checker} {e : Expr} {wrappers : List NodeId}
    {id : NodeId} (hs : s.Legible) (he : s.tree.HasExpr e) (hid : s.tree.Wraps e wrappers id)
    (alone : (wrappers ++ e.ids).Nodup) :
    ∃ ty s' reports, (expression id).run s = .ok (ty, s') ∧ e.Inferred id s s' ty reports := by
  have short : wrappers.length + e.ids.length ≤ s.tree.size + 1 := by
    rw [← List.length_append]
    exact Nat.le_succ_of_le (Tree.length_le_of_nodup_handles alone
      (List.forall_mem_append.2 ⟨hid.lt_size, he.lt_size⟩))
  obtain ⟨fs, hfs, hrun⟩ :=
    (finds_wrapped hs.sees he (List.nodup_append.1 alone).2.1 hid short).run
  have typed := fun d : Expr => d.type_eq_infer s.denoted_eq
  have recorded : ∀ part ∈ e.wrappedParts wrappers, ∀ found,
      part.2.infer s.denoted = some found →
      (s.tree.annotate fs).Has part.1 fun n => n.ty = some found := by
    intro part hpart found hfound
    rw [hfs.annotate]
    exact Expr.has_type_of_wrapped he hid alone hpart ((typed part.2).trans hfound)
  refine ⟨_, _, Event.complaints fs, hrun, {
    inferred := typed e
    unknown := by rw [typed, Expr.infer_eq_none_iff]
    explained := fun hnone => ?_
    recorded := fun found hfound =>
      recorded (id, e) hid.mem_wrappedParts found ((typed e).symm.trans hfound)
    inside := fun part hpart => recorded part (List.mem_append_right _ hpart)
    collected := rfl
    mismatched := Expr.complaintsOf_isTypeMismatch_wrapped s.denoted_eq hfs }⟩
  obtain ⟨problem, hmem, hcertain⟩ := Expr.exists_complain_mem_events hnone
  exact ⟨problem, List.mem_filterMap.2
    ⟨_, hfs.mem hcertain (List.mem_append_left _ hmem), rfl⟩⟩

/-- A state that no check gets into. A symbol is in sight from two levels below, a node has the
wrong type already, and the parameter of `f` has none. -/
def unruly : Checker where
  tree := ⟨#[
    { Node.blank .argument with first := some ⟨1⟩ },
    { Node.blank .operation with operator := some .eq, first := some ⟨2⟩, second := some ⟨7⟩ },
    { Node.blank .call with name := some "f", first := some ⟨3⟩ },
    { Node.blank .argument with first := some ⟨4⟩ },
    { Node.blank .operation with operator := some .plus, first := some ⟨5⟩, second := some ⟨6⟩ },
    { Node.blank .reference with name := some "x", ty := some .bool },
    { Node.blank .boolConstant with value := 1 },
    { Node.blank .reference with name := some "z" },
    Node.blank .parameter]⟩
  table := {
    store := #[⟨"x", .int, .scalar, 0, 1, 0, none⟩, ⟨"f", .int, .method, 0, 2, 0, some ⟨8⟩⟩,
      ⟨"f", .bool, .scalar, 3, 1, 0, none⟩]
    live := [⟨2⟩, ⟨0⟩, ⟨1⟩]
    temporaries := 0 }
  diagnostics := #[]
  level := 1
  frame := .starting 0
  loopDepth := 0
  method := none

/-- The argument `f(x + true) == z`. -/
def unrulyExpr : Expr :=
  .binary ⟨1⟩ .eq rfl
    (.call ⟨2⟩ "f" [(⟨3⟩, .binary ⟨4⟩ .plus rfl (.plain ⟨5⟩ .read "x") (.literal (.bool ⟨6⟩ 1)))])
    (.plain ⟨7⟩ .read "z")

theorem legible_unruly : unruly.Legible where
  coherent := show ∀ id ∈ unruly.table.live, id.index < unruly.table.store.size by decide
  params := List.forall_mem_cons.2 ⟨⟨[], .nil⟩, List.forall_mem_cons.2 ⟨⟨[], .nil⟩,
    List.forall_mem_singleton.2 ⟨[⟨8⟩], .cons rfl .nil⟩⟩⟩

theorem hasExpr_unruly : unruly.tree.HasExpr unrulyExpr := by
  have sum : unruly.tree.HasExpr
      (.binary ⟨4⟩ .plus rfl (.plain ⟨5⟩ .read "x") (.literal (.bool ⟨6⟩ 1))) :=
    .binary ⟨_, rfl, rfl, rfl, rfl, rfl⟩ (.plain ⟨_, rfl, rfl, rfl, rfl⟩)
      (.literal ⟨_, rfl, rfl, rfl⟩)
  refine .binary ⟨_, rfl, rfl, rfl, rfl, rfl⟩ (.call ⟨_, rfl, rfl, rfl, .cons rfl .nil⟩ ?_ ?_)
    (.plain ⟨_, rfl, rfl, rfl, rfl⟩)
  · exact List.forall_mem_singleton.2 ⟨_, rfl, rfl, rfl⟩
  · exact List.forall_mem_singleton.2 sum

theorem Check.inferred_of_expression_unruly : unruly.Legible ∧ unruly.tree.HasExpr unrulyExpr ∧
    unruly.tree.Wraps unrulyExpr [⟨0⟩] ⟨0⟩ ∧ (⟨0⟩ :: unrulyExpr.ids).Nodup ∧
    ∃ (s' : Checker) (reports : List (Problem × NodeId)),
      (expression ⟨0⟩).run unruly = .ok (some .bool, s') ∧
      reports.filter (fun x => x.1.isTypeMismatch) = [(.typeMismatch .int .bool, ⟨6⟩)] ∧
      s'.diagnostics = (reports.map fun x => ⟨x.1, unruly.tree.position x.2⟩).toArray ∧
      (s'.tree.Has ⟨0⟩ fun n => n.ty = some .bool) ∧
      s'.tree.Has ⟨5⟩ fun n => n.ty = some .int := by
  have wraps : unruly.tree.Wraps unrulyExpr [⟨0⟩] ⟨0⟩ := .wrapper .itself ⟨_, rfl, rfl, rfl⟩
  have alone : (⟨0⟩ :: unrulyExpr.ids).Nodup := by decide
  obtain ⟨ty, s', reports, hrun, h⟩ :=
    inferred_of_expression legible_unruly hasExpr_unruly wraps alone
  obtain rfl : ty = some .bool := h.inferred
  have found : (Expr.plain ⟨5⟩ .read "x").infer unruly.denoted = some .int := by decide +kernel
  have mismatched : (unrulyExpr.within.flatMap fun d => d.mismatches unruly.denoted) =
      [(.typeMismatch .int .bool, ⟨6⟩)] := by decide +kernel
  refine ⟨legible_unruly, hasExpr_unruly, wraps, alone, s', reports, hrun,
    h.mismatched.trans mismatched, ?_, h.recorded _ rfl, h.inside (_, _) ?_ _ found⟩
  · simpa [unruly] using h.collected
  · simp [unrulyExpr, Expr.parts, Expr.argumentParts]

end DecafStatics
