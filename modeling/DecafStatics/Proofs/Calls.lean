import DecafStatics.Proofs.ControlFlow
import DecafStatics.Proofs.Places
import DecafStatics.Proofs.Subexpressions
import Mathlib.Data.List.Perm.Basic

/-!
# Calls

Whether a call is right is decided in three steps: its arguments are typed, the name is looked up,
and then the types are compared with those of the parameters. In between other calls are typed, and
the parameters are elsewhere in the tree. What comes of it can be said in terms of the checked unit
alone, by the types that it has on the arguments and by what the name of the call denotes in it.

## Implementation notes

A call is judged behind its arguments, so `Expr.calls` lists inner calls before the calls that they
are in.

## Main definitions

* `Expr.calls`, `Program.calls` — the calls in an expression, in a program
* `Call.verdict` — what is wrong with a call

## Main results

* `Expr.complaintsOf_isMiscall` — the verdicts on the calls in an expression
* `CompilationUnit.Holds.typeAt_of_part` — the type that is left on a node
* `Expr.about_argument` — what is found out about an argument
* `CompilationUnit.calls_of_check` — each call is checked exactly
-/

namespace DecafStatics

/-! ### The calls in an expression -/

namespace Expr

/-- The expression as a call. -/
def call? : Expr → Option Call
  | call id name arguments => some ⟨id, name, arguments⟩
  | literal _ | plain .. | element .. | unary .. | binary .. => none

/-- The calls in an expression, in the order in which they are judged. -/
def calls (e : Expr) : List Call := e.within.filterMap call?

theorem mem_calls {c : Call} {e : Expr} : c ∈ e.calls ↔ c.expr ∈ e.within := by
  rw [calls, List.mem_filterMap]
  constructor
  · rintro ⟨d, hd, hc⟩
    cases d with
    | call => cases hc; exact hd
    | literal | plain | element | unary | binary => cases hc
  · exact fun h => ⟨c.expr, h, rfl⟩

theorem calls_element {id : NodeId} {access : Access} {name : String} {index : Expr} :
    (element id access name index).calls = index.calls := by
  simp [calls, within, call?]

theorem calls_unary {id : NodeId} {op : Operator} {arity : op.cls.arity = 1} {operand : Expr} :
    (unary id op arity operand).calls = operand.calls := by
  simp [calls, within, call?]

theorem calls_binary {id : NodeId} {op : Operator} {arity : op.cls.arity = 2}
    {left right : Expr} : (binary id op arity left right).calls = left.calls ++ right.calls := by
  simp [calls, within, call?]

theorem calls_call {id : NodeId} {name : String} {arguments : List (NodeId × Expr)} :
    (call id name arguments).calls =
      (arguments.flatMap fun a => a.2.calls) ++ [⟨id, name, arguments⟩] := by
  simp [calls, within, call?, argumentsWithin_eq, List.filterMap_flatMap]

end Expr

/-- What is wrong with a call whose name denotes `callee` and whose arguments have these types. -/
def Call.verdict (c : Call) (callee : Option Binding) (types : List (Option Ty)) :
    Option (Problem × NodeId) :=
  callee.bind fun b =>
    if b.symbol.kind.isCallable then
      if types.all Option.isSome ∧ types ≠ b.formals.map some then
        some (.parameterMismatch c.name b.formals.length c.arguments.length, c.id)
      else none
    else some (.kindMismatch c.name .method b.symbol.kind, c.id)

/-- The problem is one that a call can have. -/
def Problem.isMiscall : Problem → Bool
  | parameterMismatch .. | kindMismatch _ .method _ => true
  | _ => false

section Verdicts

variable {Γ : Env} {id : NodeId}

/-- What is said about the name of a call is the verdict on it. -/
theorem complaintsOf_isMiscall_call (name : String) (arguments : List (NodeId × Expr)) :
    Event.complaintsOf Problem.isMiscall (reference Γ id name fun b =>
      if b.symbol.kind.isCallable then misfit name b (arguments.map fun a => a.2.type Γ) id
      else [.complain (.kindMismatch name .method b.symbol.kind) id]) =
    (Call.verdict ⟨id, name, arguments⟩ (Γ name) (arguments.map fun a => a.2.type Γ)).toList := by
  rw [reference, Call.verdict]
  cases Γ name with
  | none => rfl
  | some b =>
    rw [Option.bind_some]
    by_cases callable : b.symbol.kind.isCallable = true
    · rw [if_pos callable]
      simp only [callable, if_true, misfit, List.length_map, ne_comm (b := List.map some b.formals)]
      split <;> rfl
    · simp only [callable]
      rfl

namespace Expr

/-- Nothing but calls is judged as one. -/
theorem complaintsOf_isMiscall_judgement (Γ : Env) (d : Expr) :
    Event.complaintsOf Problem.isMiscall (d.judgement Γ) = (d.call?.bind fun c =>
      c.verdict (Γ c.name) (c.arguments.map fun a => a.2.type Γ)).toList := by
  have mismatched : ∀ id wanted received,
      Event.complaintsOf Problem.isMiscall (mismatch wanted received id) = [] :=
    fun _ => complaintsOf_mismatch fun _ _ => rfl
  have misused : ∀ id name b used, used ≠ .method →
      Event.complaintsOf Problem.isMiscall (misuse name b used id) = [] :=
    fun _ _ b used hused =>
      complaintsOf_misuse (fun _ => by cases used <;> first | rfl | exact absurd rfl hused) b
  cases d with
  | literal l => rfl
  | plain id access name =>
    rw [judgement, complaintsOf_reference rfl]
    simp only [misused _ _ _ .scalar (by simp)]
    cases Γ name <;> rfl
  | element id access name index =>
    rw [judgement, complaintsOf_reference rfl]
    simp only [Event.complaintsOf_append, misused _ _ _ .array (by simp), mismatched]
    cases Γ name <;> rfl
  | unary id op arity operand =>
    rw [judgement, complaintsOf_elim]
    simp only [mismatched]
    cases op.cls.operand.wanted (operand.type Γ) <;> rfl
  | binary id op arity left right =>
    rw [judgement, complaintsOf_elim]
    simp only [Event.complaintsOf_append, mismatched]
    cases op.cls.operand.wanted (left.type Γ) <;> rfl
  | call id name arguments => exact complaintsOf_isMiscall_call name arguments

/-- **The verdicts on the calls in an expression.** -/
theorem complaintsOf_isMiscall (Γ : Env) (e : Expr) :
    Event.complaintsOf Problem.isMiscall (e.events Γ) =
      e.calls.filterMap fun c => c.verdict (Γ c.name) (c.arguments.map fun a => a.2.type Γ) := by
  simp only [complaintsOf_events, complaintsOf_isMiscall_judgement]
  rw [calls, List.filterMap_filterMap, List.filterMap_eq_flatMap_toList]

end Expr

end Verdicts

/-! ### The types that are left -/

namespace Program

variable {p : Program}

/-- The expressions of a program have no node in common. -/
theorem nodup_places (h : p.ids.Nodup) : (p.places.flatMap fun q => q.expr.ids).Nodup := by
  have nodes : (p.places.flatMap fun q => q.expr.ids) =
      (p.places.flatMap fun q => q.expr.kinds).map Prod.fst :=
    (map_fst_flatMap fun q _ => q.expr.map_fst_kinds).symm
  rw [nodes]
  exact (p.sublist_kinds.map Prod.fst).nodup (p.map_fst_kinds ▸ h)

/-- Each node of an expression stands for one expression, in one place. -/
theorem part_unique (h : p.ids.Nodup) {q q' : Place} (hq : q ∈ p.places) (hq' : q' ∈ p.places)
    {part part' : NodeId × Expr} (hpart : part ∈ q.expr.parts) (hpart' : part' ∈ q'.expr.parts)
    (hid : part.1 = part'.1) : q = q' ∧ part = part' := by
  let all : List (Place × (NodeId × Expr)) :=
    p.places.flatMap fun q => q.expr.parts.map fun part => (q, part)
  have nodes : all.map (fun x => x.2.1) = p.places.flatMap fun q => q.expr.ids := by
    rw [List.map_flatMap]
    refine List.flatMap_congr fun q _ => ?_
    rw [List.map_map, ← q.expr.map_fst_parts]
    rfl
  have mem : ∀ {q part}, q ∈ p.places → part ∈ q.expr.parts → (q, part) ∈ all :=
    fun {q _} hq hpart => List.mem_flatMap.2 ⟨q, hq, List.mem_map_of_mem hpart⟩
  exact Prod.ext_iff.1 (List.inj_on_of_nodup_map (nodes ▸ nodup_places h) (mem hq hpart)
    (mem hq' hpart') hid)

end Program

namespace CompilationUnit

variable {u : CompilationUnit} {p : Program}

/-- The type that is left on a node of an expression is that of the expression that it stands
for. -/
theorem Holds.typeAt_of_part (h : u.Holds p)
    (huntyped : ∀ id ∈ p.ids, u.tree.Has id fun n => n.kind.isExpression = true → n.ty = none)
    {q : Place} (hq : q ∈ p.places) {part : NodeId × Expr} (hpart : part ∈ q.expr.parts) :
    (u.checked p).typeAt part.1 = part.2.type ((u.checked p).env q.scopes) := by
  have hid : part.1 ∈ q.expr.ids := q.expr.map_fst_parts ▸ List.mem_map_of_mem hpart
  obtain ⟨x, hx, hnode⟩ := List.mem_map.1 (q.expr.map_fst_kinds ▸ hid)
  have hkind : x ∈ p.kinds := p.sublist_kinds.subset (List.mem_flatMap.2 ⟨q, hq, hx⟩)
  have mem : part.1 ∈ p.ids := p.map_fst_kinds ▸ List.mem_map.2 ⟨x, hkind, hnode⟩
  obtain ⟨n, hn, hkinds⟩ := h.held.kinds x hkind
  obtain ⟨m, hm, hblank⟩ := huntyped part.1 mem
  rw [hnode, hm] at hn
  cases hn
  have untyped : n.ty = none := hblank (hkinds ▸ q.expr.isExpression_of_mem_kinds x hx)
  have types : Event.types p.events =
      p.places.flatMap fun q => Event.types (q.expr.events ((u.checked p).env q.scopes)) :=
    h.consists.filterMap fun ev hev => by cases ev <;> first | rfl | cases hev
  have left : ∀ found, (part.1, found) ∈ Event.types p.events ↔
      part.2.type ((u.checked p).env q.scopes) = some found := by
    intro found
    rw [types, List.mem_flatMap]
    constructor
    · rintro ⟨q', hq', hfound⟩
      obtain ⟨part', hpart', hsame, hty⟩ := (q'.expr.mem_types_events).1 hfound
      obtain ⟨rfl, rfl⟩ := Program.part_unique h.alone hq hq' hpart hpart' hsame.symm
      exact hty
    · exact fun hty => ⟨q, hq, (q.expr.mem_types_events).2 ⟨part, hpart, rfl, hty⟩⟩
  refine typeAt_of_has ⟨_, Tree.node_annotate p.events hm, ?_⟩
  show (n.marked part.1 p.events).ty = _
  rw [Node.ty_marked_eq n left, untyped, Option.or_none]

end CompilationUnit

/-! ### The nodes of calls -/

/-- Nodes of this kind call something. -/
def NodeKind.isCall (kind : NodeKind) : Bool := kind = .call

/-- The calls in an expression are the nodes of this kind in it. -/
theorem Expr.nodesOf_isCall (e : Expr) :
    (e.calls.map Call.id).Perm (nodesOf NodeKind.isCall e.kinds) := by
  induction e with
  | literal l => cases l <;> exact .refl _
  | plain id access name => cases access <;> exact .refl _
  | element id access name index ih =>
    rw [calls_element, kinds, nodesOf_cons_of_not (by cases access <;> rfl)]
    exact ih
  | unary id op arity operand ih =>
    rw [calls_unary, kinds, nodesOf_cons_of_not rfl]
    exact ih
  | binary id op arity left right ihl ihr =>
    rw [calls_binary, kinds, nodesOf_cons_of_not rfl, nodesOf_append, List.map_append]
    exact ihl.append ihr
  | call id name arguments ih =>
    have inside : ((arguments.flatMap fun a => a.2.calls).map Call.id).Perm
        (nodesOf NodeKind.isCall (argumentKinds arguments)) := by
      rw [List.map_flatMap, argumentKinds_eq, nodesOf_flatMap fun a _ => nodesOf_cons_of_not rfl]
      exact List.Perm.flatMap_left _ ih
    rw [calls_call, kinds, nodesOf_cons rfl, List.map_append]
    exact (List.perm_append_singleton ..).trans (inside.cons id)

theorem VarDecl.nodesOf_isCall (d : VarDecl) : nodesOf NodeKind.isCall d.kinds =
    d.places.flatMap fun q => nodesOf NodeKind.isCall q.expr.kinds := by
  rw [kinds, places, nodesOf_cons_of_not rfl]
  cases d.shape with
  | scalar | array => rfl
  | initialized value => cases value <;> rfl

/-- All calls are in expressions. -/
theorem Stmt.nodesOf_isCall (scopes : List (List Declaration)) (st : Stmt) :
    nodesOf NodeKind.isCall st.kinds =
      (st.places scopes).flatMap fun q => nodesOf NodeKind.isCall q.expr.kinds := by
  induction st generalizing scopes with
  | assignment id target value =>
    rw [kinds, nodesOf_cons_of_not rfl, nodesOf_append]
    simp [places]
  | call call => simp [kinds, places]
  | ifThen id branch e yes ih =>
    rw [kinds, nodesOf_cons_of_not rfl, nodesOf_cons_of_not rfl, nodesOf_append, ih scopes, places,
      List.flatMap_cons]
  | ifElse id branch e yes other no ihy ihn =>
    rw [kinds, nodesOf_cons_of_not rfl, nodesOf_cons_of_not rfl, nodesOf_cons_of_not rfl,
      nodesOf_append, nodesOf_append, ihy scopes, ihn scopes, places, List.flatMap_cons,
      List.flatMap_append, List.append_assoc]
  | loop id e body ih =>
    rw [kinds, nodesOf_cons_of_not rfl, nodesOf_append, ih scopes, places, List.flatMap_cons]
  | returnValue id value =>
    rw [kinds, nodesOf_cons_of_not rfl, nodesOf_flatMap fun _ _ => rfl, places, List.flatMap_map]
  | jump id j =>
    rw [kinds, nodesOf_cons_of_not (by cases j <;> rfl)]
    rfl
  | block id locals body ih =>
    rw [kinds, bodyKinds_eq, nodesOf_cons_of_not rfl, nodesOf_append,
      nodesOf_flatMap fun d _ => d.nodesOf_isCall, nodesOf_flatMap fun st hst => ih st hst _,
      places, bodyPlaces_eq, List.flatMap_append, List.flatMap_assoc, List.flatMap_assoc]

theorem Program.nodesOf_isCall_methods (globals : List Declaration) (methods : List Method) :
    nodesOf NodeKind.isCall (methods.flatMap Method.kinds) =
      (methodPlaces globals methods).flatMap fun q => nodesOf NodeKind.isCall q.expr.kinds := by
  induction methods generalizing globals with
  | nil => rfl
  | cons m rest ih =>
    have params : nodesOf NodeKind.isCall
        (m.params.map fun param => (param.id, NodeKind.parameter)) = [] :=
      nodesOf_eq_nil (List.forall_mem_map.2 fun _ _ => rfl)
    rw [List.flatMap_cons, nodesOf_append, ih, methodPlaces, List.flatMap_append, Method.kinds,
      nodesOf_cons_of_not rfl, nodesOf_append, params, List.nil_append, Method.places,
      m.block.nodesOf_isCall]

theorem Program.nodesOf_isCall (p : Program) : nodesOf NodeKind.isCall p.kinds =
    p.places.flatMap fun q => nodesOf NodeKind.isCall q.expr.kinds := by
  have externs : nodesOf NodeKind.isCall (p.externs.flatMap Extern.kinds) = [] :=
    nodesOf_eq_nil (List.forall_mem_flatMap.2 fun e _ =>
      List.forall_mem_cons.2 ⟨rfl, List.forall_mem_map.2 fun _ _ => rfl⟩)
  rw [kinds, nodesOf_cons_of_not rfl, nodesOf_append, externs, List.nil_append,
    nodesOf_cons_of_not rfl, nodesOf_append, nodesOf_flatMap fun d _ => d.nodesOf_isCall,
    nodesOf_isCall_methods p.declarations, places, List.flatMap_append, List.flatMap_assoc]

/-- A call, and the scopes around it. -/
structure CallSite where
  call : Call
  scopes : List (List Declaration)

/-- The calls in a program, in the order in which they are judged. -/
def Program.calls (p : Program) : List CallSite :=
  p.places.flatMap fun q => q.expr.calls.map fun c => ⟨c, q.scopes⟩

/-- The calls in a program are the nodes of this kind in it. -/
theorem Program.calls_perm (p : Program) :
    (p.calls.map fun s => s.call.id).Perm (nodesOf NodeKind.isCall p.kinds) := by
  rw [p.nodesOf_isCall, calls, List.map_flatMap]
  refine List.Perm.flatMap_left _ fun q _ => ?_
  rw [List.map_map]
  exact q.expr.nodesOf_isCall

/-! ### What is found out about arguments -/

/-- The nodes of an argument, its wrapper first. -/
def Argument.ids (a : NodeId × Expr) : List NodeId := a.1 :: a.2.ids

namespace Expr

variable {c : Call} {a : NodeId × Expr}

/-- An argument of a call in an expression is below the expression. -/
theorem argument_subset_tail {e : Expr} (hc : c ∈ e.calls) (ha : a ∈ c.arguments) :
    Argument.ids a ⊆ e.ids.tail := by
  have below : Argument.ids a ⊆ c.expr.ids.tail := (ids_sublist_argumentIds ha).subset
  exact List.Subset.trans below (tail_ids_subset (mem_calls.1 hc))

theorem argument_subset {e : Expr} (hc : c ∈ e.calls) (ha : a ∈ c.arguments) :
    Argument.ids a ⊆ e.ids :=
  fun _ hx => List.mem_of_mem_tail (argument_subset_tail hc ha hx)

theorem id_not_mem_argument {e : Expr} (h : e.ids.Nodup) (hc : c ∈ e.calls)
    (ha : a ∈ c.arguments) : e.id ∉ Argument.ids a := by
  rw [e.ids_eq_cons] at h
  exact fun hid => (List.nodup_cons.1 h).1 (argument_subset_tail hc ha hid)

end Expr

section About

variable {Γ : Env} {ids : List NodeId} {es fs : List Event}

theorem about_reference_eq_nil {id : NodeId} {name : String} {judge : Binding → List Event}
    (h : id ∉ ids) (hjudge : ∀ b, Event.about ids (judge b) = []) :
    Event.about ids (reference Γ id name judge) = [] := by
  rw [reference]
  split
  · exact about_eq_nil (List.forall_mem_singleton.2 h)
  · rw [← List.singleton_append, about_append, hjudge, List.append_nil]
    exact about_eq_nil (List.forall_mem_singleton.2 h)

theorem about_elim_eq_nil {ty : Option Ty} {judge : Ty → List Event}
    (h : ∀ ty, Event.about ids (judge ty) = []) : Event.about ids (ty.elim [] judge) = [] := by
  cases ty with
  | none => rfl
  | some ty => exact h ty

/-- Of constructs that have no node in common, those events are about the nodes of one of them that
it leaves behind itself. -/
theorem about_flatMap {α : Type} {l : List α} {events : α → List Event} {nodes : α → List NodeId}
    (hnodes : ∀ x ∈ l, ∀ ev ∈ events x, ev.node ∈ nodes x) (h : (l.flatMap nodes).Nodup) {x : α}
    (hx : x ∈ l) (hids : ids ⊆ nodes x) :
    Event.about ids (l.flatMap events) = Event.about ids (events x) := by
  obtain ⟨before, after, rfl⟩ := List.append_of_mem hx
  rw [List.flatMap_append, List.flatMap_cons, List.nodup_append, List.nodup_append] at h
  obtain ⟨-, ⟨-, -, behind⟩, ahead⟩ := h
  have first : Event.about ids (before.flatMap events) = [] := by
    refine about_eq_nil fun ev hev hid => ?_
    obtain ⟨y, hy, hev⟩ := List.mem_flatMap.1 hev
    exact ahead ev.node (List.mem_flatMap.2 ⟨y, hy, hnodes y (by simp [hy]) ev hev⟩) ev.node
      (List.mem_append_left _ (hids hid)) rfl
  have last : Event.about ids (after.flatMap events) = [] := by
    refine about_eq_nil fun ev hev hid => ?_
    obtain ⟨y, hy, hev⟩ := List.mem_flatMap.1 hev
    exact behind ev.node (hids hid) ev.node
      (List.mem_flatMap.2 ⟨y, hy, hnodes y (by simp [hy]) ev hev⟩) rfl
  rw [List.flatMap_append, List.flatMap_cons, about_append, about_append, first, last,
    List.nil_append, List.append_nil]

/-- What typing an argument leaves behind, and the wrapper around it. -/
theorem node_mem_argument (a : NodeId × Expr) :
    ∀ ev ∈ a.2.events Γ ++ typing a.1 (a.2.type Γ), ev.node ∈ Argument.ids a := by
  intro ev hev
  rcases List.mem_append.1 hev with hev | hev
  · exact List.mem_cons_of_mem _ (a.2.node_mem_ids ev hev)
  · rw [node_of_mem_typing hev]
    exact List.mem_cons_self ..

/-- What is said about an expression is about its own node or about those of its operands, and of a
call about its own only. -/
theorem Expr.about_judgement {e : Expr} (h : e.id ∉ ids)
    (hoperands : e.call? = none → ∀ o ∈ e.operands, o.id ∉ ids) :
    Event.about ids (e.judgement Γ) = [] := by
  cases e with
  | literal l => rfl
  | plain id access name =>
    exact about_reference_eq_nil h fun b => about_eq_nil fun ev hev => node_of_mem_misuse hev ▸ h
  | element id access name index =>
    have apart := List.forall_mem_singleton.1 (hoperands rfl)
    refine about_reference_eq_nil h fun b => ?_
    rw [about_append, about_mismatch_eq_nil apart, List.append_nil]
    exact about_eq_nil fun ev hev => node_of_mem_misuse hev ▸ h
  | unary id op arity operand =>
    have apart := List.forall_mem_singleton.1 (hoperands rfl)
    exact about_elim_eq_nil fun ty => about_mismatch_eq_nil apart _ _
  | binary id op arity left right =>
    obtain ⟨hleft, hright⟩ := List.forall_mem_cons.1 (hoperands rfl)
    have hright : right.id ∉ ids := hright right (List.mem_singleton_self _)
    refine about_elim_eq_nil fun ty => ?_
    rw [about_append, about_mismatch_eq_nil hleft, about_mismatch_eq_nil hright, List.append_nil]
  | call id name arguments =>
    refine about_reference_eq_nil h fun b => ?_
    split
    · exact about_eq_nil fun ev hev => node_of_mem_misfit hev ▸ h
    · exact about_eq_nil (List.forall_mem_singleton.2 h)

/-- About nodes further inside nothing is found out but what the operands leave behind. -/
theorem Expr.about_own {e : Expr} (es : List Event) (hes : e.findings Γ = es ++ e.judgement Γ)
    (h : e.id ∉ ids) (hoperands : e.call? = none → ∀ o ∈ e.operands, o.id ∉ ids) :
    Event.about ids (e.events Γ) = Event.about ids es := by
  rw [events, hes, about_append, about_append, about_judgement h hoperands,
    about_typing_eq_nil h, List.append_nil, List.append_nil]

/-- An expression beside some nodes has nothing found out about them. -/
theorem Expr.about_events_eq_nil {e : Expr} (h : ∀ id ∈ e.ids, id ∉ ids) :
    Event.about ids (e.events Γ) = [] :=
  about_eq_nil fun ev hev => h _ (e.node_mem_ids ev hev)

/-- Of all the arguments of a call it is one that has something found out about its nodes. -/
theorem Expr.about_argumentEvents {arguments : List (NodeId × Expr)}
    (h : (argumentIds arguments).Nodup) {a : NodeId × Expr} (ha : a ∈ arguments)
    (hids : ids ⊆ Argument.ids a) :
    Event.about ids (argumentEvents Γ arguments) =
      Event.about ids (a.2.events Γ ++ typing a.1 (a.2.type Γ)) := by
  rw [argumentIds_eq] at h
  rw [argumentEvents_eq]
  exact about_flatMap (fun b _ => node_mem_argument b) h ha hids

/-- **What is found out about an argument** of a call in an expression is what typing it leaves
behind. -/
theorem Expr.about_argument {e : Expr} (h : e.ids.Nodup) {c : Call} (hc : c ∈ e.calls)
    {a : NodeId × Expr} (ha : a ∈ c.arguments) :
    Event.about (Argument.ids a) (e.events Γ) = a.2.events Γ ++ typing a.1 (a.2.type Γ) := by
  have outside := id_not_mem_argument h hc ha
  induction e with
  | literal | plain => cases hc
  | element id access name index ih =>
    rw [calls_element] at hc
    obtain ⟨-, inside⟩ := List.nodup_cons.1 h
    have apart := id_not_mem_argument inside hc ha
    rw [about_own (index.events Γ) rfl outside fun _ => List.forall_mem_singleton.2 apart,
      ih inside hc apart]
  | unary id op arity operand ih =>
    rw [calls_unary] at hc
    obtain ⟨-, inside⟩ := List.nodup_cons.1 h
    have apart := id_not_mem_argument inside hc ha
    rw [about_own (operand.events Γ) rfl outside fun _ => List.forall_mem_singleton.2 apart,
      ih inside hc apart]
  | binary id op arity left right ihl ihr =>
    rw [calls_binary] at hc
    obtain ⟨-, both⟩ := List.nodup_cons.1 h
    obtain ⟨hl, hr, disjoint⟩ := List.nodup_append.1 both
    rcases List.mem_append.1 hc with hc | hc
    · have apart := id_not_mem_argument hl hc ha
      have beside : ∀ id ∈ right.ids, id ∉ Argument.ids a := fun id hid hmem =>
        disjoint id (argument_subset hc ha hmem) id hid rfl
      rw [about_own (left.events Γ ++ right.events Γ) rfl outside fun _ =>
          List.forall_mem_cons.2 ⟨apart, List.forall_mem_singleton.2 (beside _ right.id_mem_ids)⟩,
        about_append, ihl hl hc apart, about_events_eq_nil beside, List.append_nil]
    · have apart := id_not_mem_argument hr hc ha
      have beside : ∀ id ∈ left.ids, id ∉ Argument.ids a := fun id hid hmem =>
        disjoint id hid id (argument_subset hc ha hmem) rfl
      rw [about_own (left.events Γ ++ right.events Γ) rfl outside fun _ =>
          List.forall_mem_cons.2 ⟨beside _ left.id_mem_ids, List.forall_mem_singleton.2 apart⟩,
        about_append, ihr hr hc apart, about_events_eq_nil beside, List.nil_append]
  | call id name arguments ih =>
    rw [calls_call] at hc
    obtain ⟨-, inside⟩ := List.nodup_cons.1 h
    rw [about_own (argumentEvents Γ arguments) rfl outside nofun]
    rcases List.mem_append.1 hc with hc | hc
    · obtain ⟨b, hb, hc⟩ := List.mem_flatMap.1 hc
      have alone : (Argument.ids b).Nodup :=
        (List.nodup_flatMap.1 (argumentIds_eq arguments ▸ inside)).1 b hb
      obtain ⟨wrapper, value⟩ := List.nodup_cons.1 alone
      have apart := id_not_mem_argument value hc ha
      have below : b.1 ∉ Argument.ids a := fun hmem => wrapper (argument_subset hc ha hmem)
      rw [about_argumentEvents inside hb
        (fun x hx => List.mem_cons_of_mem _ (argument_subset hc ha hx)), about_append,
        about_typing_eq_nil below, ih b hb value hc apart, List.append_nil]
    · obtain rfl := List.mem_singleton.1 hc
      rw [about_argumentEvents inside ha (fun _ hx => hx), about_eq_self (node_mem_argument a)]

end About

/-! ### The check -/

theorem complaints_about (ids : List NodeId) (es : List Event) :
    Event.complaints (Event.about ids es) = (Event.complaints es).filter fun x => x.2 ∈ ids := by
  rw [Event.complaints, Event.complaints, Event.about, List.filterMap_filter,
    List.filter_filterMap]
  refine List.filterMap_congr fun ev _ => ?_
  cases ev with
  | complain problem id =>
    by_cases hid : id ∈ ids <;> simp [Event.complaint?, Event.node, Option.filter, hid]
  | type | link | size | declare => simp [Event.complaint?]

namespace CompilationUnit

variable {u : CompilationUnit} {p : Program}

/-- What is found out about an argument of a call in a program is what typing it leaves behind. -/
theorem Holds.about_argument (h : u.Holds p) {s : CallSite} (hs : s ∈ p.calls)
    {a : NodeId × Expr} (ha : a ∈ s.call.arguments) :
    Event.about (Argument.ids a) p.events = a.2.events ((u.checked p).env s.scopes) ++
      typing a.1 (a.2.type ((u.checked p).env s.scopes)) := by
  obtain ⟨q, hq, hs⟩ := List.mem_flatMap.1 hs
  obtain ⟨c, hc, rfl⟩ := List.mem_map.1 hs
  have alone : q.expr.ids.Nodup := (List.nodup_flatMap.1 (Program.nodup_places h.alone)).1 q hq
  have inside : Argument.ids a ⊆ q.expr.ids := Expr.argument_subset hc ha
  have expressions : ∀ x ∈ p.kinds, x.1 ∈ Argument.ids a → x.2.isExpression = true := by
    intro x hx hid
    obtain ⟨y, hy, hnode⟩ := List.mem_map.1 (q.expr.map_fst_kinds ▸ inside hid)
    have hy' : y ∈ p.kinds := p.sublist_kinds.subset (List.mem_flatMap.2 ⟨q, hq, hy⟩)
    rw [Program.kind_unique h.alone hx hy' hnode.symm]
    exact q.expr.isExpression_of_mem_kinds y hy
  have below : ∀ q' ∈ p.places, q'.expr.id ∉ Argument.ids a := by
    intro q' hq' hid
    obtain ⟨part, hpart, hnode⟩ := List.mem_map.1 (q.expr.map_fst_parts ▸ inside hid)
    obtain ⟨rfl, -⟩ := Program.part_unique h.alone hq hq' hpart q'.expr.self_mem_parts hnode
    exact Expr.id_not_mem_argument alone hc ha hid
  rw [h.consists.about_eq expressions below, ← Expr.about_argument alone hc ha]
  refine List.filter_flatMap.symm.trans ?_
  exact about_flatMap (fun q _ => q.expr.node_mem_ids) (Program.nodup_places h.alone) hq inside

/-- The problems that calls can have are not reported about anything else. -/
theorem Holds.complaintsOf_isMiscall (h : u.Holds p) :
    Event.complaintsOf Problem.isMiscall p.events = p.places.flatMap fun q =>
      Event.complaintsOf Problem.isMiscall (q.expr.events ((u.checked p).env q.scopes)) := by
  simp only [Event.complaintsOf_eq_filterMap]
  refine h.consists.filterMap fun ev hev => ?_
  cases ev with
  | complain problem id =>
    cases problem with
    | undeclaredIdentifier | parameterMismatch | kindMismatch => cases hev
    | _ => rfl
  | type | link | size | declare => rfl

end CompilationUnit

namespace CallSite

variable (checked : CompilationUnit) (s : CallSite)

/-- What the name of the call denotes behind a check. -/
def callee : Option Binding := checked.env s.scopes s.call.name

/-- The types that are left on the arguments of the call. -/
def types : List (Option Ty) := s.call.arguments.map fun a => checked.typeAt a.2.id

/-- What is wrong with the call, by what is found behind a check. -/
def verdict : Option (Problem × NodeId) := s.call.verdict (s.callee checked) (s.types checked)

end CallSite

namespace CompilationUnit

variable {u : CompilationUnit} {p : Program}

/-- **Calls are checked exactly.** The check of a program without types on its expressions comes to
an end, whatever is wrong with the program. All nodes that call something are among its calls. A
call is reported if its name denotes something that cannot be called, or if all its arguments have a
type and these types are not those of the parameters, and otherwise not. It has the type of what is
called if that can be called, also if the arguments do not fit, and no type otherwise. About an
argument nothing is said but what typing it has to say. -/
theorem calls_of_check (h : u.Holds p)
    (huntyped : ∀ id ∈ p.ids, u.tree.Has id fun n => n.kind.isExpression = true → n.ty = none) :
    ∃ reports checked, u.check = .ok (u.located reports, checked) ∧
      (p.calls.map fun s => s.call.id).Perm (p.ids.filter (u.tree.ofKind NodeKind.isCall)) ∧
      reports.filter (fun x => x.1.isMiscall) = p.calls.filterMap (CallSite.verdict checked) ∧
      ∀ s ∈ p.calls,
        (checked.typeAt s.call.id = (s.callee checked).bind fun b =>
          if b.symbol.kind.isCallable then some b.symbol.ty else none) ∧
        ∀ a ∈ s.call.arguments, reports.filter (fun x => x.2 ∈ Argument.ids a) =
          Event.complaints (a.2.events (checked.env s.scopes)) := by
  refine ⟨_, _, h.check_eq, ?_, ?_, fun s hs => ⟨?_, fun a ha => ?_⟩⟩
  · rw [h.held.filter_ids]
    exact p.calls_perm
  · refine h.complaintsOf_isMiscall.trans ?_
    rw [Program.calls, List.filterMap_flatMap]
    refine List.flatMap_congr fun q hq => ?_
    rw [Expr.complaintsOf_isMiscall, List.filterMap_map]
    refine List.filterMap_congr fun c hc => ?_
    have types : (c.arguments.map fun a => a.2.type ((u.checked p).env q.scopes)) =
        CallSite.types (u.checked p) ⟨c, q.scopes⟩ :=
      List.map_congr_left fun a ha => (h.typeAt_of_part huntyped hq
        (Expr.parts_subset_of_mem_within (Expr.mem_calls.1 hc) (Expr.argument_mem_parts ha))).symm
    rw [types]
    rfl
  · obtain ⟨q, hq, hs⟩ := List.mem_flatMap.1 hs
    obtain ⟨c, hc, rfl⟩ := List.mem_map.1 hs
    have own := Expr.self_mem_parts (.call c.id c.name c.arguments)
    exact h.typeAt_of_part huntyped hq
      (Expr.parts_subset_of_mem_within (Expr.mem_calls.1 hc) own)
  · rw [← complaints_about, h.about_argument hs ha, Event.complaints_append,
      complaints_typing, List.append_nil]

theorem calls_of_check_faulty : faultyUnit.Holds faulty ∧
    (∀ id ∈ faulty.ids, faultyUnit.tree.Has id fun n =>
      n.kind.isExpression = true → n.ty = none) ∧
    ∃ reports checked, faultyUnit.check = .ok (faultyUnit.located reports, checked) ∧
      reports.filter (fun x => x.1.isMiscall) =
        [(.parameterMismatch "f" 2 1, ⟨25⟩), (.kindMismatch "x" .method .scalar, ⟨35⟩)] ∧
      reports.filter (fun x => x.2 ∈ [⟨31⟩, ⟨32⟩]) = [(.undeclaredIdentifier "z", ⟨32⟩)] ∧
      checked.typeAt ⟨25⟩ = some .int ∧ checked.typeAt ⟨35⟩ = none := by
  have untyped : ∀ id ∈ faulty.ids, faultyUnit.tree.Has id fun n =>
      n.kind.isExpression = true → n.ty = none := holds_faulty.has_of_forall (by decide)
  obtain ⟨reports, checked, hcheck, -, verdicts, sites⟩ := calls_of_check holds_faulty untyped
  obtain ⟨-, rfl⟩ := Prod.ext_iff.1 (Except.ok.inj (hcheck.symm.trans holds_faulty.check_eq))
  have inner := sites _ (List.mem_cons_self ..)
  have ghost := sites _ (List.mem_cons_of_mem _ (List.mem_cons_of_mem _ (List.mem_cons_self ..)))
  have field := sites _ (List.mem_cons_of_mem _ (List.mem_cons_of_mem _
    (List.mem_cons_of_mem _ (List.mem_cons_self ..))))
  have verdict : faulty.calls.filterMap (CallSite.verdict (faultyUnit.checked faulty)) =
      [(.parameterMismatch "f" 2 1, ⟨25⟩), (.kindMismatch "x" .method .scalar, ⟨35⟩)] := by
    decide +kernel
  exact ⟨holds_faulty, untyped, reports, _, hcheck, verdicts.trans verdict,
    ghost.2 _ (List.mem_cons_self ..), inner.1, field.1⟩

end CompilationUnit

end DecafStatics
