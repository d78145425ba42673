import DecafStatics.Proofs.Findings
import Mathlib.Data.List.Basic
import Mathlib.Data.List.Flatten

/-!
# What is found out about the parts of an expression

Typing goes over the parts of an expression, and what it leaves behind is put together from what it
finds out about each of them. A question about the whole is answered part by part, then: what is
complained about is a matter of the expressions inside, in the order in which they are typed, and
the types that are left are a matter of the nodes.

## Implementation notes

An argument has a wrapper around it, which gets the type of the expression. A part of an expression
is therefore a node together with the expression that it stands for, and a wrapper stands for the
same expression as the node inside of it.

## Main definitions

* `Expr.operands`, `Expr.within` — the expressions in an expression, right below it or anywhere
* `Expr.judgement` — what is said about an expression apart from its operands
* `Expr.parts` — the nodes of an expression with the expressions that they stand for
* `Event.types` — the types that are left on nodes

## Main results

* `Expr.complaintsOf_events` — what is complained about in an expression
* `Expr.mem_types_events` — the types that typing an expression leaves
* `Node.ty_marked_eq` — the type of a node after a check
-/

namespace DecafStatics

namespace Expr

/-! ### The expressions inside -/

/-- The expressions right below an expression. -/
def operands : Expr → List Expr
  | literal _ | plain .. => []
  | element _ _ _ index => [index]
  | unary _ _ _ operand => [operand]
  | binary _ _ _ left right => [left, right]
  | call _ _ arguments => arguments.map Prod.snd

/-- Induction over expressions where it does not matter what they are. -/
theorem induct_operands {motive : Expr → Prop}
    (h : ∀ e : Expr, (∀ o ∈ e.operands, motive o) → motive e) (e : Expr) : motive e := by
  induction e with
  | literal | plain => exact h _ (List.forall_mem_nil _)
  | element id access name index ih => exact h _ (List.forall_mem_singleton.2 ih)
  | unary id op arity operand ih => exact h _ (List.forall_mem_singleton.2 ih)
  | binary id op arity left right ihl ihr =>
    exact h _ (List.forall_mem_cons.2 ⟨ihl, List.forall_mem_singleton.2 ihr⟩)
  | call id name arguments ih => exact h _ (List.forall_mem_map.2 ih)

mutual

/-- The expressions in an expression, in the order in which they are typed. The last one is the
expression itself. -/
def within : Expr → List Expr
  | literal l => [literal l]
  | plain id access name => [plain id access name]
  | element id access name index => index.within ++ [element id access name index]
  | unary id op arity operand => operand.within ++ [unary id op arity operand]
  | binary id op arity left right =>
    left.within ++ right.within ++ [binary id op arity left right]
  | call id name arguments => argumentsWithin arguments ++ [call id name arguments]

/-- The expressions in the arguments of a call. -/
def argumentsWithin : List (NodeId × Expr) → List Expr
  | [] => []
  | (_, e) :: rest => e.within ++ argumentsWithin rest

end

theorem argumentsWithin_eq (arguments : List (NodeId × Expr)) :
    argumentsWithin arguments = arguments.flatMap fun a => a.2.within := by
  induction arguments with
  | nil => rfl
  | cons a rest ih => rw [argumentsWithin, ih, List.flatMap_cons]

theorem within_eq (e : Expr) : e.within = e.operands.flatMap within ++ [e] := by
  cases e with
  | call id name arguments => rw [within, argumentsWithin_eq, operands, List.flatMap_map]
  | _ => simp [within, operands]

/-- What operands inherit from the expression that they are in, all expressions inside inherit. -/
theorem forall_mem_within {P : Expr → Prop} (h : ∀ e, P e → ∀ o ∈ e.operands, P o) {e : Expr}
    (he : P e) : ∀ d ∈ e.within, P d := by
  induction e using induct_operands with
  | h e ih =>
    rw [within_eq]
    refine List.forall_mem_append.2 ⟨fun d hd => ?_, List.forall_mem_singleton.2 he⟩
    obtain ⟨o, ho, hd⟩ := List.mem_flatMap.1 hd
    exact ih o ho (h e he o ho) d hd

theorem ids_eq_cons (e : Expr) : e.ids = e.id :: e.ids.tail := by
  cases e <;> rfl

theorem ids_subset_of_mem_operands {e o : Expr} (h : o ∈ e.operands) : o.ids ⊆ e.ids.tail := by
  cases e with
  | literal | plain => cases h
  | element | unary =>
    rw [List.mem_singleton.1 h]
    exact List.Subset.refl _
  | binary id op arity left right =>
    rcases List.mem_cons.1 h with rfl | h
    · exact List.subset_append_left ..
    · rw [List.mem_singleton.1 h]
      exact List.subset_append_right ..
  | call id name arguments =>
    obtain ⟨a, ha, rfl⟩ := List.mem_map.1 h
    exact fun x hx => (ids_sublist_argumentIds ha).subset (List.mem_cons_of_mem _ hx)

/-- What is below an expression inside is below the whole. -/
theorem tail_ids_subset {d e : Expr} (h : d ∈ e.within) : d.ids.tail ⊆ e.ids.tail :=
  forall_mem_within (P := fun d => d.ids.tail ⊆ e.ids.tail)
    (fun _ hd _ ho _ hx => hd (ids_subset_of_mem_operands ho (List.mem_of_mem_tail hx)))
    (List.Subset.refl _) d h

/-! ### What is complained about -/

/-- What is said about an expression when its operands are typed. -/
def judgement (Γ : Env) : Expr → List Event
  | literal _ => []
  | plain id _ name => reference Γ id name fun b => misuse name b .scalar id
  | element id _ name index => reference Γ id name fun b =>
    misuse name b .array id ++ mismatch .int (index.type Γ) index.id
  | unary _ op _ operand => (op.cls.operand.wanted (operand.type Γ)).elim [] fun wanted =>
    mismatch wanted (operand.type Γ) operand.id
  | binary _ op _ left right => (op.cls.operand.wanted (left.type Γ)).elim [] fun wanted =>
    mismatch wanted (left.type Γ) left.id ++ mismatch wanted (right.type Γ) right.id
  | call id name arguments => reference Γ id name fun b =>
    if b.symbol.kind.isCallable then misfit name b (arguments.map fun a => a.2.type Γ) id
    else [.complain (.kindMismatch name .method b.symbol.kind) id]

theorem judgement_subset_events (Γ : Env) (e : Expr) : e.judgement Γ ⊆ e.events Γ := by
  refine List.Subset.trans ?_ (List.subset_append_left ..)
  cases e with
  | literal | plain => exact List.Subset.refl _
  | element | unary | binary | call => exact List.subset_append_right ..

/-- **What is complained about in an expression** is what is said about the expressions inside. -/
theorem complaintsOf_events (choose : Problem → Bool) (Γ : Env) (e : Expr) :
    Event.complaintsOf choose (e.events Γ) =
      e.within.flatMap fun d => Event.complaintsOf choose (d.judgement Γ) := by
  induction e using induct_operands with
  | h e ih =>
    have findings : Event.complaintsOf choose (e.findings Γ) =
        (e.operands.flatMap fun o => Event.complaintsOf choose (o.events Γ)) ++
          Event.complaintsOf choose (e.judgement Γ) := by
      cases e with
      | literal | plain => rfl
      | element | unary => simp [findings_element, findings_unary, operands, judgement]
      | binary => simp [findings_binary, operands, judgement]
      | call id name arguments =>
        rw [findings, Event.complaintsOf_append, operands, List.flatMap_map]
        refine congrArg (· ++ _) ?_
        clear ih
        induction arguments with
        | nil => rfl
        | cons a rest ih => simp [argumentEvents, events, ih]
    rw [events, Event.complaintsOf_append, complaintsOf_typing, List.append_nil, findings,
      within_eq, List.flatMap_append, List.flatMap_assoc, List.flatMap_singleton]
    exact congrArg (· ++ _) (List.flatMap_congr ih)

/-! ### The types that are left -/

mutual

/-- The nodes of an expression with the expressions that they stand for. -/
def parts : Expr → List (NodeId × Expr)
  | literal l => [(l.id, literal l)]
  | plain id access name => [(id, plain id access name)]
  | element id access name index => (id, element id access name index) :: index.parts
  | unary id op arity operand => (id, unary id op arity operand) :: operand.parts
  | binary id op arity left right =>
    (id, binary id op arity left right) :: (left.parts ++ right.parts)
  | call id name arguments => (id, call id name arguments) :: argumentParts arguments

/-- The nodes of the arguments of a call. -/
def argumentParts : List (NodeId × Expr) → List (NodeId × Expr)
  | [] => []
  | (wrapper, e) :: rest => (wrapper, e) :: (e.parts ++ argumentParts rest)

end

theorem argumentParts_eq (arguments : List (NodeId × Expr)) :
    argumentParts arguments = arguments.flatMap fun a => a :: a.2.parts := by
  induction arguments with
  | nil => rfl
  | cons a rest ih => rw [argumentParts, ih, List.flatMap_cons, List.cons_append]

theorem map_fst_parts (e : Expr) : e.parts.map Prod.fst = e.ids := by
  induction e with
  | literal | plain => rfl
  | element id access name index ih => rw [parts, List.map_cons, ih, ids]
  | unary id op arity operand ih => rw [parts, List.map_cons, ih, ids]
  | binary id op arity left right ihl ihr =>
    rw [parts, List.map_cons, List.map_append, ihl, ihr, ids]
  | call id name arguments ih =>
    rw [parts, List.map_cons, argumentParts_eq, ids, argumentIds_eq, List.map_flatMap]
    refine congrArg (id :: ·) (List.flatMap_congr fun a ha => ?_)
    rw [List.map_cons, ih a ha]

theorem self_mem_parts (e : Expr) : (e.id, e) ∈ e.parts := by
  cases e <;> exact List.mem_cons_self ..

theorem argument_mem_parts {id : NodeId} {name : String} {arguments : List (NodeId × Expr)}
    {a : NodeId × Expr} (ha : a ∈ arguments) : (a.2.id, a.2) ∈ (call id name arguments).parts := by
  rw [parts, argumentParts_eq]
  exact List.mem_cons_of_mem _
    (List.mem_flatMap.2 ⟨a, ha, List.mem_cons_of_mem _ a.2.self_mem_parts⟩)

theorem parts_subset_of_mem_operands {e o : Expr} (h : o ∈ e.operands) : o.parts ⊆ e.parts := by
  refine List.Subset.trans ?_ (List.tail_sublist e.parts).subset
  cases e with
  | literal | plain => cases h
  | element | unary =>
    rw [List.mem_singleton.1 h]
    exact List.Subset.refl _
  | binary id op arity left right =>
    rcases List.mem_cons.1 h with rfl | h
    · exact List.subset_append_left ..
    · rw [List.mem_singleton.1 h]
      exact List.subset_append_right ..
  | call id name arguments =>
    obtain ⟨a, ha, rfl⟩ := List.mem_map.1 h
    rw [parts, argumentParts_eq]
    exact fun x hx => List.mem_flatMap.2 ⟨a, ha, List.mem_cons_of_mem _ hx⟩

/-- The nodes of an expression inside are nodes of the whole. -/
theorem parts_subset_of_mem_within {d e : Expr} (h : d ∈ e.within) : d.parts ⊆ e.parts :=
  forall_mem_within (P := fun d => d.parts ⊆ e.parts)
    (fun _ hd _ ho => List.Subset.trans (parts_subset_of_mem_operands ho) hd) (List.Subset.refl _) d h

end Expr

namespace Event

/-- The type that the event leaves on its node. -/
def typed? : Event → Option (NodeId × Ty)
  | type id ty => some (id, ty)
  | link .. | size .. | declare .. | complain .. => none

/-- The types that are left on nodes. -/
def types (es : List Event) : List (NodeId × Ty) := es.filterMap typed?

@[simp] theorem types_append (es fs : List Event) : types (es ++ fs) = types es ++ types fs :=
  List.filterMap_append

end Event

section Types

variable {Γ : Env} {id : NodeId}

theorem types_mismatch (wanted : Ty) (received : Option Ty) :
    Event.types (mismatch wanted received id) = [] := by
  unfold mismatch
  split
  · rfl
  · split <;> rfl

theorem mem_types_typing {ty : Option Ty} {x : NodeId × Ty} :
    x ∈ Event.types (typing id ty) ↔ id = x.1 ∧ ty = some x.2 := by
  cases ty with
  | none => simp [typing, Event.types]
  | some ty => simp [typing, Event.types, Event.typed?, Prod.ext_iff, eq_comm]

theorem types_reference {name : String} {judge : Binding → List Event}
    (h : ∀ b, Event.types (judge b) = []) : Event.types (reference Γ id name judge) = [] := by
  rw [reference]
  split
  · rfl
  · exact h _

theorem types_misuse (name : String) (b : Binding) (used : SymbolKind) :
    Event.types (misuse name b used id) = [] := by
  rw [misuse]
  split <;> rfl

theorem types_misfit (name : String) (b : Binding) (types : List (Option Ty)) :
    Event.types (misfit name b types id) = [] := by
  rw [misfit]
  split <;> rfl

theorem types_elim {ty : Option Ty} {judge : Ty → List Event}
    (h : ∀ ty, Event.types (judge ty) = []) : Event.types (ty.elim [] judge) = [] := by
  cases ty with
  | none => rfl
  | some ty => exact h ty

namespace Expr

/-- Apart from its own type, an expression leaves no types but those of its operands. -/
theorem types_judgement (e : Expr) : Event.types (e.judgement Γ) = [] := by
  cases e with
  | literal l => rfl
  | plain id access name => exact types_reference fun b => types_misuse name b .scalar
  | element id access name index =>
    refine types_reference fun b => ?_
    rw [Event.types_append, types_misuse, types_mismatch, List.append_nil]
  | unary id op arity operand => exact types_elim fun ty => types_mismatch _ _
  | binary id op arity left right =>
    refine types_elim fun ty => ?_
    rw [Event.types_append, types_mismatch, types_mismatch, List.append_nil]
  | call id name arguments =>
    refine types_reference fun b => ?_
    split
    · exact types_misfit _ _ _
    · rfl

/-- The types that are left are those of the operands, and the type of the expression itself. -/
theorem mem_types_own {x : NodeId × Ty} {e : Expr} (es : List Event)
    (h : e.findings Γ = es ++ e.judgement Γ) : x ∈ Event.types (e.events Γ) ↔
      (e.id = x.1 ∧ e.type Γ = some x.2) ∨ x ∈ Event.types es := by
  rw [events, h, Event.types_append, Event.types_append, types_judgement, List.append_nil,
    List.mem_append, mem_types_typing, or_comm]

/-- **The types that typing leaves on nodes** are those of the expressions that the nodes stand
for. -/
theorem mem_types_events {x : NodeId × Ty} (e : Expr) : x ∈ Event.types (e.events Γ) ↔
    ∃ part ∈ e.parts, part.1 = x.1 ∧ part.2.type Γ = some x.2 := by
  induction e with
  | literal | plain =>
    rw [mem_types_own [] rfl]
    simp [parts, Expr.id, Event.types]
  | element id access name index ih =>
    rw [mem_types_own (index.events Γ) rfl, ih]
    simp only [parts, List.mem_cons, or_and_right, exists_or, exists_eq_left]
    rfl
  | unary id op arity operand ih =>
    rw [mem_types_own (operand.events Γ) rfl, ih]
    simp only [parts, List.mem_cons, or_and_right, exists_or, exists_eq_left]
    rfl
  | binary id op arity left right ihl ihr =>
    rw [mem_types_own (left.events Γ ++ right.events Γ) rfl, Event.types_append,
      List.mem_append, ihl, ihr]
    simp only [parts, List.mem_cons, List.mem_append, or_and_right, exists_or, exists_eq_left]
    rfl
  | call id name arguments ih =>
    have inside : x ∈ Event.types (argumentEvents Γ arguments) ↔
        ∃ part ∈ argumentParts arguments, part.1 = x.1 ∧ part.2.type Γ = some x.2 := by
      clear id name
      rw [argumentEvents_eq, argumentParts_eq]
      induction arguments with
      | nil => simp [Event.types]
      | cons a rest ihr =>
        obtain ⟨ha, hrest⟩ := List.forall_mem_cons.1 ih
        rw [List.flatMap_cons, List.flatMap_cons, Event.types_append, Event.types_append,
          List.mem_append, List.mem_append, mem_types_typing, ihr hrest, ha]
        simp only [List.mem_append, List.mem_cons, or_and_right, exists_or, exists_eq_left]
        rw [or_comm (b := a.1 = x.1 ∧ _)]
    rw [mem_types_own (argumentEvents Γ arguments) rfl, inside]
    simp only [parts, List.mem_cons, or_and_right, exists_or, exists_eq_left]
    rfl

end Expr

end Types

/-- The type that is left on a node, if all the types that it gets are the same. Where it gets none
it has the one that it had. -/
theorem Node.ty_marked_eq (n : Node) {id : NodeId} {es : List Event} {ty : Option Ty}
    (h : ∀ found, (id, found) ∈ Event.types es ↔ ty = some found) :
    (n.marked id es).ty = ty.or n.ty := by
  let write? : Event → Option (NodeId × Option Ty) :=
    fun ev => ev.typed?.map fun x => (x.1, some x.2)
  have last : (n.marked id es).ty =
      (((es.filterMap write?).filter fun x => x.1 = id).getLast?.map Prod.snd).getD n.ty := by
    refine read_marked ?_ ?_ n id es
    · intro ev x hx
      cases ev <;> cases hx
      rfl
    · intro ev n
      cases ev <;> rfl
  have written : ∀ x, x ∈ (es.filterMap write?).filter (fun x => x.1 = id) ↔
      x.1 = id ∧ ∃ found, x.2 = some found ∧ ty = some found := by
    intro x
    have typed : es.filterMap write? = (Event.types es).map fun x => (x.1, some x.2) :=
      List.map_filterMap.symm
    rw [List.mem_filter, typed, List.mem_map]
    constructor
    · rintro ⟨⟨y, hy, rfl⟩, hid⟩
      obtain rfl := of_decide_eq_true hid
      exact ⟨rfl, y.2, rfl, (h y.2).1 hy⟩
    · rintro ⟨rfl, found, hx, hty⟩
      exact ⟨⟨(x.1, found), (h found).2 hty, Prod.ext rfl hx.symm⟩, decide_eq_true rfl⟩
  rw [last]
  cases hlast : ((es.filterMap write?).filter fun x => x.1 = id).getLast? with
  | none =>
    rw [List.getLast?_eq_none_iff] at hlast
    cases hty : ty with
    | none => rfl
    | some found =>
      have mem := (written (id, some found)).2 ⟨rfl, found, rfl, hty⟩
      rw [hlast] at mem
      cases mem
  | some x =>
    obtain ⟨-, found, hx, hty⟩ := (written x).1 (List.mem_of_getLast? hlast)
    rw [hty]
    exact hx

end DecafStatics
