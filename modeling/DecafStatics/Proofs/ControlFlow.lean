import DecafStatics.Proofs.Findings
import DecafStatics.Proofs.Kinds
import DecafStatics.Proofs.MethodBody
import Mathlib.Data.List.Nodup
import Mathlib.Data.List.Pairwise

/-!
# Jumps and returns

Which jumps stand outside of every loop, and which returns do not fit their method, is a matter of
where they stand. Checking knows it by a counter of the loops around and by the method around, and
both are what they should be at every statement: the complaints about jumps and returns are those
that the text of the program asks for, in the order of the text, whatever else is wrong with it.

## Implementation notes

Which loops are around a jump is said by nodes: a jump stands in a loop if it is among the nodes of
the body of one. `Stmt.strays`, which does not look into loops, lists the same jumps as long as no
node stands in two places.

A return may be wrong in a third way, by a value of another type. That is a complaint about types,
and none of those here.

## Main definitions

* `Stmt.parts` — a statement and all statements in it
* `Program.jumps`, `Program.loops`, `Program.returns` — the statements of a sort in a program
* `Program.InLoop`, `Return.Unfit` — what is wrong with jumps and returns, by the grammar alone

## Main results

* `Stmt.strays_eq_filter` — the jumps that are met outside of loops are those in the body of none
* `Stmt.complaintsOf_outsideLoop`, `Stmt.complaintsOf_invalidReturn` — what a statement leaves
  behind
* `CompilationUnit.controlFlow_of_check` — jumps and returns are tracked exactly
-/

namespace DecafStatics

/-! ### Statements in statements -/

/-- A return, with the method that it stands in. -/
structure Return where
  method : Method
  id : NodeId
  value : Option Expr

/-- There is a value where there should be none, or none where there should be one. -/
def Return.Unfit (r : Return) : Prop :=
  r.value.isSome ∧ r.method.ty = .void ∨ r.value.isNone ∧ r.method.ty ≠ .void

instance (r : Return) : Decidable r.Unfit := inferInstanceAs (Decidable (_ ∨ _))

namespace Stmt

mutual

/-- A statement and all statements in it, in the order of the text. -/
def parts : Stmt → List Stmt
  | assignment id target value => [assignment id target value]
  | call c => [call c]
  | ifThen id branch condition yes => ifThen id branch condition yes :: yes.parts
  | ifElse id branch condition yes other no =>
    ifElse id branch condition yes other no :: (yes.parts ++ no.parts)
  | loop id condition body => loop id condition body :: body.parts
  | returnValue id value => [returnValue id value]
  | jump id j => [jump id j]
  | block id locals body => block id locals body :: bodyParts body

/-- The statements of a block and all statements in them. -/
def bodyParts : List Stmt → List Stmt
  | [] => []
  | st :: rest => st.parts ++ bodyParts rest

end

theorem bodyParts_eq (body : List Stmt) : bodyParts body = body.flatMap parts := by
  induction body with
  | nil => rfl
  | cons st rest ih => rw [bodyParts, ih, List.flatMap_cons]

/-- The kind of the node that stands for the statement. -/
def kind : Stmt → NodeKind
  | assignment .. => .assignment
  | call _ => .call
  | ifThen .. | ifElse .. => .conditional
  | loop .. => .loop
  | returnValue .. => .returnValue
  | jump _ j => j.kind
  | block .. => .block

def jump? : Stmt → Option (NodeId × Jump)
  | jump id j => some (id, j)
  | _ => none

/-- A loop, as its node and its body. -/
def loop? : Stmt → Option (NodeId × Stmt)
  | loop id _ body => some (id, body)
  | _ => none

/-- A return in the method `m`. -/
def return? (m : Method) : Stmt → Option Return
  | returnValue id value => some ⟨m, id, value⟩
  | _ => none

/-- The jumps in a statement. -/
def jumps (st : Stmt) : List (NodeId × Jump) := st.parts.filterMap jump?

/-- The loops in a statement. -/
def loops (st : Stmt) : List (NodeId × Stmt) := st.parts.filterMap loop?

/-- The returns in a statement of the method `m`. -/
def returns (m : Method) (st : Stmt) : List Return := st.parts.filterMap (return? m)

/-- The node stands in the body of a loop. -/
def InLoop (st : Stmt) (id : NodeId) : Prop := ∃ l ∈ st.loops, id ∈ l.2.ids

instance (st : Stmt) (id : NodeId) : Decidable (st.InLoop id) :=
  inferInstanceAs (Decidable (∃ l ∈ st.loops, id ∈ l.2.ids))

mutual

/-- The jumps that are met in a statement without going into loops. -/
def strays : Stmt → List (NodeId × Jump)
  | jump id j => [(id, j)]
  | assignment .. | call _ | returnValue .. | loop .. => []
  | ifThen _ _ _ yes => yes.strays
  | ifElse _ _ _ yes _ no => yes.strays ++ no.strays
  | block _ _ body => bodyStrays body

/-- The jumps that are met in the statements of a block without going into loops. -/
def bodyStrays : List Stmt → List (NodeId × Jump)
  | [] => []
  | st :: rest => st.strays ++ bodyStrays rest

end

theorem bodyStrays_eq (body : List Stmt) : bodyStrays body = body.flatMap strays := by
  induction body with
  | nil => rfl
  | cons st rest ih => rw [bodyStrays, ih, List.flatMap_cons]

/-- The statements of a sort in a block. -/
theorem filterMap_bodyParts {α : Type} (f : Stmt → Option α) (body : List Stmt) :
    (bodyParts body).filterMap f = body.flatMap fun st => st.parts.filterMap f := by
  rw [bodyParts_eq, List.filterMap_flatMap]

/-- What stands in a statement has its nodes there. -/
theorem ids_subset_of_mem_parts {st part : Stmt} (h : part ∈ st.parts) : part.ids ⊆ st.ids := by
  induction st with
  | assignment | call | returnValue | jump => rw [List.mem_singleton.1 h]; exact fun _ hid => hid
  | ifThen id branch condition yes ih =>
    rcases List.mem_cons.1 h with rfl | h
    · exact fun _ hid => hid
    · exact fun id hid => by simp [ids, ih h hid]
  | ifElse id branch condition yes other no ihy ihn =>
    rcases List.mem_cons.1 h with rfl | h
    · exact fun _ hid => hid
    · rcases List.mem_append.1 h with h | h
      · exact fun id hid => by simp [ids, ihy h hid]
      · exact fun id hid => by simp [ids, ihn h hid]
  | loop id condition body ih =>
    rcases List.mem_cons.1 h with rfl | h
    · exact fun _ hid => hid
    · exact fun id hid => by simp [ids, ih h hid]
  | block id locals body ih =>
    rcases List.mem_cons.1 h with rfl | h
    · exact fun _ hid => hid
    · rw [bodyParts_eq] at h
      obtain ⟨st, hst, h⟩ := List.mem_flatMap.1 h
      intro id hid
      rw [ids, bodyIds_eq]
      exact List.mem_cons_of_mem _ (List.mem_append_right _
        (List.mem_flatMap.2 ⟨st, hst, ih st hst h hid⟩))

theorem id_mem_ids_of_mem_jumps {st : Stmt} {x : NodeId × Jump} (h : x ∈ st.jumps) :
    x.1 ∈ st.ids := by
  obtain ⟨part, hpart, hx⟩ := List.mem_filterMap.1 h
  cases part with
  | jump id j =>
    cases hx
    exact ids_subset_of_mem_parts hpart (List.mem_singleton_self id)
  | _ => cases hx

/-- What stands in a loop stands in the statement around it. -/
theorem InLoop.mem_ids {st : Stmt} {id : NodeId} (h : st.InLoop id) : id ∈ st.ids := by
  obtain ⟨l, hl, hid⟩ := h
  obtain ⟨part, hpart, hl⟩ := List.mem_filterMap.1 hl
  cases part with
  | loop node condition body =>
    cases hl
    exact ids_subset_of_mem_parts hpart (by simp [ids, hid])
  | _ => cases hl

/-! ### Jumps outside of loops -/

/-- Among statements that share no nodes, each jump is in the loops of its own statement only. -/
theorem filter_flatMap_jumps {l : List Stmt} (h : (l.flatMap ids).Nodup) :
    ((l.flatMap jumps).filter fun x => ¬ ∃ st ∈ l, st.InLoop x.1) =
      l.flatMap fun st => st.jumps.filter fun x => ¬ st.InLoop x.1 := by
  have apart := (List.nodup_flatMap.1 h).2
  have symm : Std.Symm (Function.onFun List.Disjoint ids) := ⟨fun _ _ h _ ha hb => h hb ha⟩
  rw [List.filter_flatMap]
  refine List.flatMap_congr fun st hst => List.filter_congr fun x hx => ?_
  have own : (∃ other ∈ l, other.InLoop x.1) ↔ st.InLoop x.1 := by
    refine ⟨fun ⟨other, hother, hloop⟩ => ?_, fun hloop => ⟨st, hst, hloop⟩⟩
    by_cases heq : st = other
    · rwa [heq]
    · exact absurd hloop.mem_ids (apart.forall hst hother heq (id_mem_ids_of_mem_jumps hx))
  simp only [own]

theorem inLoop_ifElse {id branch other node : NodeId} {condition : Expr} {yes no : Stmt} :
    (ifElse id branch condition yes other no).InLoop node ↔
      ∃ st ∈ [yes, no], st.InLoop node := by
  have parts : (ifElse id branch condition yes other no).loops = yes.loops ++ no.loops :=
    List.filterMap_append
  simp [InLoop, parts, or_and_right, exists_or]

theorem inLoop_block {id node : NodeId} {locals : List VarDecl} {body : List Stmt} :
    (block id locals body).InLoop node ↔ ∃ st ∈ body, st.InLoop node := by
  have parts : (block id locals body).loops = body.flatMap loops := filterMap_bodyParts loop? body
  rw [InLoop, parts]
  constructor
  · rintro ⟨l, hl, hid⟩
    obtain ⟨st, hst, hl⟩ := List.mem_flatMap.1 hl
    exact ⟨st, hst, l, hl, hid⟩
  · rintro ⟨st, hst, l, hl, hid⟩
    exact ⟨l, List.mem_flatMap.2 ⟨st, hst, hl⟩, hid⟩

/-- What is met outside of the loops of each of some statements is met outside of the loops of
all. -/
theorem flatMap_strays {l : List Stmt} (h : (l.flatMap ids).Nodup)
    (each : ∀ st ∈ l, st.ids.Nodup → st.strays = st.jumps.filter fun x => ¬ st.InLoop x.1) :
    l.flatMap strays = (l.flatMap jumps).filter fun x => ¬ ∃ st ∈ l, st.InLoop x.1 := by
  rw [filter_flatMap_jumps h]
  exact List.flatMap_congr fun st hst => each st hst ((List.nodup_flatMap.1 h).1 st hst)

/-- **The jumps that are met outside of loops are those that stand in the body of none.** -/
theorem strays_eq_filter {st : Stmt} (h : st.ids.Nodup) :
    st.strays = st.jumps.filter fun x => ¬ st.InLoop x.1 := by
  induction st with
  | assignment | call | returnValue => rfl
  | jump id j => simp [strays, jumps, parts, jump?, InLoop, loops, loop?]
  | ifThen id branch condition yes ih =>
    exact ih (List.nodup_append.1 (List.nodup_cons.1 (List.nodup_cons.1 h).2).2).2.1
  | ifElse id branch condition yes other no ihy ihn =>
    have parts : (ifElse id branch condition yes other no).jumps = yes.jumps ++ no.jumps :=
      List.filterMap_append
    simp only [ids, List.nodup_cons, List.append_assoc] at h
    have both := flatMap_strays (l := [yes, no]) (by simpa using (List.nodup_append.1 h.2.2.2).2.1)
      (List.forall_mem_cons.2 ⟨ihy, List.forall_mem_singleton.2 ihn⟩)
    simpa [strays, parts, inLoop_ifElse] using both
  | loop id condition body ih =>
    refine (List.filter_eq_nil_iff.2 fun x hx => ?_).symm
    have inside : (loop id condition body).InLoop x.1 :=
      ⟨(id, body), List.mem_cons_self .., id_mem_ids_of_mem_jumps (show x ∈ body.jumps from hx)⟩
    simpa using inside
  | block id locals body ih =>
    have parts : (block id locals body).jumps = body.flatMap jumps :=
      filterMap_bodyParts jump? body
    rw [ids, bodyIds_eq] at h
    simp only [strays, bodyStrays_eq, parts, inLoop_block]
    exact flatMap_strays (List.nodup_append.1 (List.nodup_cons.1 h).2).2.1 ih

/-! ### What statements leave behind -/

end Stmt

def Problem.isOutsideLoop : Problem → Bool
  | outsideLoop _ => true
  | _ => false

def Problem.isInvalidReturn : Problem → Bool
  | invalidReturn _ => true
  | _ => false

theorem complaintsOf_outsideLoop_eq_nil {es : List Event} (h : ∀ ev ∈ es, ev.OfDeclaring) :
    Event.complaintsOf Problem.isOutsideLoop es = [] := by
  refine Event.complaintsOf_eq_nil fun problem id hmem => ?_
  cases h _ hmem with
  | typing h => cases h <;> rfl
  | duplicate | hollow => rfl

theorem complaintsOf_invalidReturn_eq_nil {es : List Event} (h : ∀ ev ∈ es, ev.OfDeclaring) :
    Event.complaintsOf Problem.isInvalidReturn es = [] := by
  refine Event.complaintsOf_eq_nil fun problem id hmem => ?_
  cases h _ hmem with
  | typing h => cases h <;> rfl
  | duplicate | hollow => rfl

/-- The complaints of one sort about constructs that do not depend on what the constructs change. -/
theorem Context.complaintsOf_along {α : Type} {events : Context → α → List Event}
    {next : Context → α → Context} {choose : Problem → Bool} {f : α → List (Problem × NodeId)}
    {P : Context → Prop} {l : List α}
    (step : ∀ a ∈ l, ∀ c, P c → Event.complaintsOf choose (events c a) = f a ∧ P (next c a))
    {c : Context} (h : P c) :
    Event.complaintsOf choose (c.along events next l) = l.flatMap f := by
  induction l generalizing c with
  | nil => rfl
  | cons a rest ih =>
    obtain ⟨ha, hrest⟩ := List.forall_mem_cons.1 step
    obtain ⟨first, behind⟩ := ha c h
    rw [along, Event.complaintsOf_append, first, ih hrest behind, List.flatMap_cons]

/-- The complaints of one sort about the statements of a block, where they depend on nothing that a
statement changes for the next. -/
theorem Stmt.complaintsOf_bodyEvents {choose : Problem → Bool} {P : Context → Prop}
    {f : Stmt → List (Problem × NodeId)} {body : List Stmt}
    (each : ∀ st ∈ body, ∀ c, P c → Event.complaintsOf choose (st.events c) = f st)
    (keeps : ∀ c es, P c → P (c.after es)) {c : Context} (h : P c) :
    Event.complaintsOf choose (bodyEvents c body) = body.flatMap f := by
  rw [bodyEvents_eq]
  refine Context.complaintsOf_along ?_ h
  exact fun st hst c hc => ⟨each st hst c hc, keeps c _ hc⟩

/-- Behind the declarations of a block there are the same loops and the same method around. -/
theorem Context.locals_around (c : Context) (ds : List VarDecl) :
    (c.locals ds).loops = c.loops ∧ (c.locals ds).method = c.method :=
  have grown := Context.grows_along VarDecl.grows c.inner ds
  ⟨grown.loops_eq, grown.method_eq⟩

namespace Stmt

/-- **The complaints about jumps** in a statement are about those that are met outside of its loops,
unless there is a loop around it. -/
theorem complaintsOf_outsideLoop (c : Context) (st : Stmt) :
    Event.complaintsOf Problem.isOutsideLoop (st.events c) =
      if c.loops = 0 then st.strays.map fun x => (.outsideLoop x.2.word, x.1) else [] := by
  have condition : ∀ (c : Context) (e : Expr),
      Event.complaintsOf Problem.isOutsideLoop (conditionEvents c.find? e) = [] := fun c e =>
    complaintsOf_outsideLoop_eq_nil fun ev hev => .typing (ofTyping_conditionEvents e ev hev)
  induction st generalizing c with
  | assignment id target value =>
    rw [complaintsOf_outsideLoop_eq_nil fun ev hev =>
      .typing (ofTyping_assignment c target value ev hev)]
    simp [strays]
  | call call =>
    rw [events, complaintsOf_outsideLoop_eq_nil fun ev hev =>
      .typing (call.expr.ofTyping_events ev hev)]
    simp [strays]
  | ifThen id branch e yes ih => simp [events, condition, ih, strays]
  | ifElse id branch e yes other no ihy ihn =>
    have behind : (c.after (yes.events c)).loops = c.loops := rfl
    simp only [events, Event.complaintsOf_append, condition, ihy, ihn, behind, strays]
    split <;> simp
  | loop id e body ih => simp [events, condition, ih, strays]
  | returnValue id value =>
    rw [events, Event.complaintsOf_eq_nil fun problem node hmem => ?_]
    · simp [strays]
    · rcases ofTyping_returnEvents c value _ hmem with h | ⟨name, h⟩ <;> cases h <;> rfl
  | jump id j =>
    rw [events]
    split <;> rfl
  | block id locals body ih =>
    obtain ⟨loops, -⟩ := c.locals_around locals
    have declarations := complaintsOf_outsideLoop_eq_nil (VarDecl.ofDeclaring_along c.inner locals)
    have statements : Event.complaintsOf Problem.isOutsideLoop (bodyEvents (c.locals locals) body) =
        body.flatMap fun st =>
          if c.loops = 0 then st.strays.map fun x => (.outsideLoop x.2.word, x.1) else [] :=
      complaintsOf_bodyEvents (P := fun c' => c'.loops = c.loops)
        (fun st hst c' h => by rw [ih st hst c', h]) (fun _ _ h => h) loops
    rw [events, Event.complaintsOf_append, declarations, statements, strays, bodyStrays_eq]
    split
    · rw [List.map_flatMap, List.nil_append]
    · simp

/-- A return is complained about if it does not fit its method, whatever its value leaves behind. -/
theorem complaintsOf_invalidReturn_returnEvents {c : Context} {m : Method}
    (h : c.method = some ⟨m.name, m.ty⟩) (id : NodeId) (value : Option Expr) :
    Event.complaintsOf Problem.isInvalidReturn (returnEvents c id value) =
      ([(⟨m, id, value⟩ : Return)].filter fun r => r.Unfit).map fun r =>
        (.invalidReturn r.method.name, r.id) := by
  have inside : Event.complaintsOf Problem.isInvalidReturn
      (value.elim [] fun e => e.events c.find?) = [] := by
    refine complaintsOf_invalidReturn_eq_nil ?_
    cases value with
    | none => exact List.forall_mem_nil _
    | some e => exact fun ev hev => .typing (e.ofTyping_events ev hev)
  rw [returnEvents, Event.complaintsOf_append, inside, h]
  cases value with
  | none => cases hty : m.ty <;> simp [Return.Unfit, hty] <;> rfl
  | some e =>
    cases hty : m.ty with
    | void =>
      simp [Return.Unfit, hty]
      rfl
    | int | bool | string =>
      have quiet : ∀ wanted, Event.complaintsOf Problem.isInvalidReturn
          (mismatch wanted (e.type c.find?) id) = [] := fun wanted =>
        complaintsOf_invalidReturn_eq_nil fun ev hev => .typing (ofTyping_mismatch _ _ ev hev)
      simp [Return.Unfit, hty, quiet]

/-- **The complaints about returns** in a statement are about those that do not fit its method. -/
theorem complaintsOf_invalidReturn {c : Context} {m : Method}
    (h : c.method = some ⟨m.name, m.ty⟩) (st : Stmt) :
    Event.complaintsOf Problem.isInvalidReturn (st.events c) =
      ((st.returns m).filter fun r => r.Unfit).map fun r =>
        (.invalidReturn r.method.name, r.id) := by
  have condition : ∀ (c : Context) (e : Expr),
      Event.complaintsOf Problem.isInvalidReturn (conditionEvents c.find? e) = [] := fun c e =>
    complaintsOf_invalidReturn_eq_nil fun ev hev => .typing (ofTyping_conditionEvents e ev hev)
  induction st generalizing c with
  | assignment id target value =>
    exact complaintsOf_invalidReturn_eq_nil fun ev hev =>
      .typing (ofTyping_assignment c target value ev hev)
  | call call =>
    exact complaintsOf_invalidReturn_eq_nil fun ev hev =>
      .typing (call.expr.ofTyping_events ev hev)
  | ifThen id branch e yes ih =>
    rw [events, Event.complaintsOf_append, condition, ih h]
    rfl
  | ifElse id branch e yes other no ihy ihn =>
    have parts : (ifElse id branch e yes other no).returns m = yes.returns m ++ no.returns m :=
      List.filterMap_append
    have behind : (c.after (yes.events c)).method = some ⟨m.name, m.ty⟩ := h
    simp [events, condition, ihy h, ihn behind, parts]
  | loop id e body ih =>
    rw [events, Event.complaintsOf_append, condition, ih (c := { c with loops := c.loops + 1 }) h]
    rfl
  | returnValue id value =>
    have own : (returnValue id value).returns m = [⟨m, id, value⟩] := rfl
    rw [events, complaintsOf_invalidReturn_returnEvents h, own]
  | jump id j =>
    rw [events]
    split <;> rfl
  | block id locals body ih =>
    obtain ⟨-, method⟩ := c.locals_around locals
    have declarations :=
      complaintsOf_invalidReturn_eq_nil (VarDecl.ofDeclaring_along c.inner locals)
    have parts : (block id locals body).returns m = body.flatMap (returns m) :=
      filterMap_bodyParts (return? m) body
    have statements : Event.complaintsOf Problem.isInvalidReturn
        (bodyEvents (c.locals locals) body) = body.flatMap fun st =>
          ((st.returns m).filter fun r => r.Unfit).map fun r =>
            (.invalidReturn r.method.name, r.id) :=
      complaintsOf_bodyEvents (P := fun c' => c'.method = some ⟨m.name, m.ty⟩)
        (fun st hst c' h => ih st hst h) (fun _ _ h => h) (method.trans h)
    rw [events, Event.complaintsOf_append, declarations, statements, parts, List.filter_flatMap,
      List.map_flatMap, List.nil_append]

end Stmt

/-! ### Programs -/

namespace Method

variable {c : Context}

/-- The complaints of one sort about a method are those about its body, if no declaration brings
any. -/
theorem complaintsOf_events {choose : Problem → Bool}
    (quiet : ∀ es : List Event, (∀ ev ∈ es, ev.OfDeclaring) → Event.complaintsOf choose es = [])
    (m : Method) : Event.complaintsOf choose (m.events c) =
      Event.complaintsOf choose (m.block.events (m.within c)) := by
  have name := quiet _ (c.ofDeclaring_declaring m.id (m.symbol c (m.words c)))
  have params := quiet _ (Param.ofDeclaring_along (m.scope c) m.params)
  have size := quiet [.size m.id (m.words c)] (List.forall_mem_singleton.2 (.size ..))
  simp [events, inside, name, params, size]

theorem loops_within (m : Method) : (m.within c).loops = c.loops :=
  (Context.grows_along Param.grows (m.scope c) m.params).loops_eq.trans Context.loops_declare

theorem loops_next (m : Method) : (m.next c).loops = c.loops := Context.loops_declare

end Method

namespace Program

/-- All statements of a program. -/
def parts (p : Program) : List Stmt := p.methods.flatMap fun m => m.block.parts

/-- The jumps in a program. -/
def jumps (p : Program) : List (NodeId × Jump) := p.parts.filterMap Stmt.jump?

/-- The loops in a program, as their nodes and their bodies. -/
def loops (p : Program) : List (NodeId × Stmt) := p.parts.filterMap Stmt.loop?

/-- The returns in a program. -/
def returns (p : Program) : List Return := p.methods.flatMap fun m => m.block.returns m

/-- The node stands in the body of a loop. -/
def InLoop (p : Program) (id : NodeId) : Prop := ∃ l ∈ p.loops, id ∈ l.2.ids

instance (p : Program) (id : NodeId) : Decidable (p.InLoop id) :=
  inferInstanceAs (Decidable (∃ l ∈ p.loops, id ∈ l.2.ids))

theorem inLoop_iff {p : Program} {id : NodeId} :
    p.InLoop id ↔ ∃ st ∈ p.methods.map Method.block, st.InLoop id := by
  have loops : p.loops = p.methods.flatMap fun m => m.block.loops := List.filterMap_flatMap
  rw [InLoop, loops]
  constructor
  · rintro ⟨l, hl, hid⟩
    obtain ⟨m, hm, hl⟩ := List.mem_flatMap.1 hl
    exact ⟨m.block, List.mem_map_of_mem hm, l, hl, hid⟩
  · rintro ⟨st, hst, l, hl, hid⟩
    obtain ⟨m, hm, rfl⟩ := List.mem_map.1 hst
    exact ⟨l, List.mem_flatMap.2 ⟨m, hm, hl⟩, hid⟩

/-- The complaints of one sort about a program are those about its methods, if no declaration brings
any. -/
theorem complaintsOf_events {choose : Problem → Bool}
    (quiet : ∀ es : List Event, (∀ ev ∈ es, ev.OfDeclaring) → Event.complaintsOf choose es = [])
    (p : Program) : Event.complaintsOf choose p.events =
      Event.complaintsOf choose (p.afterFields.along Method.events Method.next p.methods) := by
  have externs := quiet (Context.start.along Extern.events Extern.next p.externs)
    (Context.forall_mem_along (fun c _ => c.ofDeclaring_declaring _ _) _ _)
  have name := quiet _ (p.afterExterns.ofDeclaring_declaring p.package (p.symbol p.afterExterns))
  have fields := quiet _ (VarDecl.ofDeclaring_along p.afterName p.fields)
  simp [events, externs, name, fields]

theorem loops_afterFields (p : Program) : p.afterFields.loops = 0 := by
  have externs : p.afterExterns.loops = Context.start.loops :=
    Context.foldl_keeps Context.loops (fun _ _ => Context.loops_declare) .start p.externs
  have fields := (Context.grows_along VarDecl.grows p.afterName p.fields).loops_eq
  exact fields.trans (Context.loops_declare.trans externs)

/-- The complaints about jumps in a program are about those in the body of no loop. -/
theorem complaintsOf_outsideLoop {p : Program} (h : p.ids.Nodup) :
    Event.complaintsOf Problem.isOutsideLoop p.events =
      (p.jumps.filter fun x => ¬ p.InLoop x.1).map fun x => (.outsideLoop x.2.word, x.1) := by
  have each : Event.complaintsOf Problem.isOutsideLoop
      (p.afterFields.along Method.events Method.next p.methods) = p.methods.flatMap fun m =>
        m.block.strays.map fun x => (.outsideLoop x.2.word, x.1) :=
    Context.complaintsOf_along (P := fun c => c.loops = 0) (fun m _ c hc => ⟨by
      rw [m.complaintsOf_events fun _ => complaintsOf_outsideLoop_eq_nil,
        Stmt.complaintsOf_outsideLoop, m.loops_within, if_pos hc], m.loops_next.trans hc⟩)
      p.loops_afterFields
  have blocks : ((p.methods.map Method.block).flatMap Stmt.ids).Nodup := by
    rw [List.flatMap_map]
    refine (List.Sublist.flatMap_right p.methods fun m _ => ?_).nodup (nodup_methods h)
    exact (List.sublist_append_right ..).cons m.id
  have jumps : p.jumps = (p.methods.map Method.block).flatMap Stmt.jumps := by
    rw [List.flatMap_map]
    exact List.filterMap_flatMap
  have strays := Stmt.flatMap_strays blocks fun st _ => Stmt.strays_eq_filter
  rw [p.complaintsOf_events fun _ => complaintsOf_outsideLoop_eq_nil, each, ← List.map_flatMap,
    jumps]
  simp only [inLoop_iff]
  rw [← strays, List.flatMap_map]

/-- The complaints about returns in a program are about those that do not fit their methods. -/
theorem complaintsOf_invalidReturn (p : Program) :
    Event.complaintsOf Problem.isInvalidReturn p.events =
      (p.returns.filter fun r => r.Unfit).map fun r => (.invalidReturn r.method.name, r.id) := by
  have each : Event.complaintsOf Problem.isInvalidReturn
      (p.afterFields.along Method.events Method.next p.methods) = p.methods.flatMap fun m =>
        ((m.block.returns m).filter fun r => r.Unfit).map fun r =>
          (.invalidReturn r.method.name, r.id) :=
    Context.complaintsOf_along (P := fun _ => True) (fun m _ c _ => ⟨by
      rw [m.complaintsOf_events fun _ => complaintsOf_invalidReturn_eq_nil,
        Stmt.complaintsOf_invalidReturn (m := m) rfl], trivial⟩) trivial
  rw [p.complaintsOf_events fun _ => complaintsOf_invalidReturn_eq_nil, each, returns,
    List.filter_flatMap, List.map_flatMap]

end Program

/-! ### The nodes of jumps, loops and returns -/

/-- Nodes of these kinds stand for statements that are no expressions. -/
def NodeKind.isStatement : NodeKind → Bool
  | block | assignment | conditional | loop | returnValue | breakLoop | continueLoop => true
  | _ => false

def NodeKind.isJump : NodeKind → Bool
  | breakLoop | continueLoop => true
  | _ => false

section Nodes

variable {choose : NodeKind → Bool} (h : ∀ kind, choose kind = true → kind.isStatement = true)

include h

/-- Nodes that stand for no statements are none of those. -/
theorem filter_kinds_eq_nil {kinds : List (NodeId × NodeKind)}
    (hkinds : ∀ x ∈ kinds, x.2.isStatement = false) : kinds.filter (fun x => choose x.2) = [] := by
  refine List.filter_eq_nil_iff.2 fun x hx hchoose => ?_
  have statement := h x.2 hchoose
  rw [hkinds x hx] at statement
  cases statement

theorem Expr.filter_kinds (e : Expr) : e.kinds.filter (fun x => choose x.2) = [] := by
  refine filter_kinds_eq_nil h fun x hx => ?_
  have expression := e.isExpression_of_mem_kinds x hx
  cases hkind : x.2 <;> simp_all [NodeKind.isExpression, NodeKind.isStatement]

theorem VarDecl.filter_kinds (d : VarDecl) : d.kinds.filter (fun x => choose x.2) = [] := by
  refine filter_kinds_eq_nil h (List.forall_mem_cons.2 ⟨rfl, ?_⟩)
  cases d.shape with
  | scalar => exact List.forall_mem_nil _
  | array => exact List.forall_mem_singleton.2 rfl
  | initialized value => cases value <;> exact List.forall_mem_singleton.2 rfl

/-- The nodes of some kinds in a statement are those of its statements of these kinds. -/
theorem Stmt.filter_kinds (st : Stmt) : st.kinds.filter (fun x => choose x.2) =
    (st.parts.filter fun part => choose part.kind).map fun part => (part.id, part.kind) := by
  have not_chosen : ∀ kind : NodeKind, kind.isStatement = false → choose kind = false :=
    fun kind hkind => Bool.eq_false_iff.2 fun hc => by simp [h kind hc] at hkind
  have thenBranch := not_chosen .thenBranch rfl
  have elseBranch := not_chosen .elseBranch rfl
  induction st with
  | assignment id target value =>
    simp [kinds, parts, kind, Expr.filter_kinds h, List.filter_cons, Stmt.id, apply_ite]
  | call c =>
    simp [kinds, parts, kind, Expr.filter_kinds h, not_chosen .call rfl]
  | ifThen id branch condition yes ih =>
    simp only [kinds, parts, List.filter_cons, List.filter_append, Expr.filter_kinds h, ih]
    cases hc : choose .conditional <;> simp [kind, hc, thenBranch, Stmt.id]
  | ifElse id branch condition yes other no ihy ihn =>
    simp only [kinds, parts, List.filter_cons, List.filter_append, Expr.filter_kinds h, ihy, ihn]
    cases hc : choose .conditional <;> simp [kind, hc, thenBranch, elseBranch, Stmt.id]
  | loop id condition body ih =>
    simp only [kinds, parts, List.filter_cons, List.filter_append, Expr.filter_kinds h, ih]
    cases hc : choose .loop <;> simp [kind, hc, Stmt.id]
  | returnValue id value =>
    have inside : (value.toList.flatMap Expr.kinds).filter (fun x => choose x.2) = [] := by
      cases value with
      | none => rfl
      | some e => simpa using e.filter_kinds h
    simp only [kinds, parts, List.filter_cons, inside]
    cases hc : choose .returnValue <;> simp [kind, hc, Stmt.id]
  | jump id j => cases hc : choose j.kind <;> simp [kinds, parts, kind, hc, Stmt.id]
  | block id locals body ih =>
    have declarations : (locals.flatMap VarDecl.kinds).filter (fun x => choose x.2) = [] := by
      rw [List.filter_flatMap]
      exact List.flatMap_eq_nil_iff.2 fun d _ => d.filter_kinds h
    have statements : (body.flatMap kinds).filter (fun x => choose x.2) =
        ((body.flatMap parts).filter fun part => choose part.kind).map
          fun part => (part.id, part.kind) := by
      rw [List.filter_flatMap, List.filter_flatMap, List.map_flatMap]
      exact List.flatMap_congr ih
    simp only [kinds, parts, bodyKinds_eq, bodyParts_eq, List.filter_cons, List.filter_append,
      declarations, statements]
    cases hc : choose .block <;> simp [kind, hc, Stmt.id]

/-- The nodes of some kinds in a program are those of its statements of these kinds. -/
theorem Program.filter_kinds (p : Program) : nodesOf choose p.kinds =
    (p.parts.filter fun part => choose part.kind).map Stmt.id := by
  have externs : (p.externs.flatMap Extern.kinds).filter (fun x => choose x.2) = [] :=
    filter_kinds_eq_nil h (List.forall_mem_flatMap.2 fun e _ =>
      List.forall_mem_cons.2 ⟨rfl, List.forall_mem_map.2 fun _ _ => rfl⟩)
  have fields : (p.fields.flatMap VarDecl.kinds).filter (fun x => choose x.2) = [] := by
    rw [List.filter_flatMap]
    exact List.flatMap_eq_nil_iff.2 fun d _ => d.filter_kinds h
  have method : ∀ m : Method, m.kinds.filter (fun x => choose x.2) =
      (m.block.parts.filter fun part => choose part.kind).map fun part => (part.id, part.kind) := by
    intro m
    have declarations : ((m.id, NodeKind.methodDecl) ::
        m.params.map fun param => (param.id, NodeKind.parameter)).filter
          (fun x => choose x.2) = [] :=
      filter_kinds_eq_nil h (List.forall_mem_cons.2 ⟨rfl, List.forall_mem_map.2 fun _ _ => rfl⟩)
    rw [Method.kinds, ← List.cons_append, List.filter_append, declarations, List.nil_append,
      m.block.filter_kinds h]
  have methods : (p.methods.flatMap Method.kinds).filter (fun x => choose x.2) =
      (p.parts.filter fun part => choose part.kind).map fun part => (part.id, part.kind) := by
    rw [parts, List.filter_flatMap, List.filter_flatMap, List.map_flatMap]
    exact List.flatMap_congr fun m _ => method m
  have program : [(p.id, NodeKind.program)].filter (fun x => choose x.2) = [] :=
    filter_kinds_eq_nil h (List.forall_mem_singleton.2 rfl)
  have package : [(p.package, NodeKind.package)].filter (fun x => choose x.2) = [] :=
    filter_kinds_eq_nil h (List.forall_mem_singleton.2 rfl)
  have split : p.kinds = [(p.id, .program)] ++ (p.externs.flatMap Extern.kinds ++
      ([(p.package, .package)] ++ (p.fields.flatMap VarDecl.kinds ++
        p.methods.flatMap Method.kinds))) := rfl
  simp only [nodesOf, split, List.filter_append, program, externs, package, fields, methods,
    List.nil_append, List.map_map]
  rfl

end Nodes

/-- What a list has of one sort, by its names. -/
theorem map_filterMap_eq {α β γ : Type} {l : List α} {sort? : α → Option β} {name : β → γ}
    {choose : α → Bool} {name' : α → γ}
    (h : ∀ a ∈ l, (sort? a).map name = if choose a then some (name' a) else none) :
    (l.filterMap sort?).map name = (l.filter choose).map name' := by
  rw [List.map_filterMap, ← List.filterMap_eq_map, List.filterMap_filter]
  exact List.filterMap_congr h

namespace Tree

variable {t : Tree}

theorem HasStmt.of_mem_parts {st part : Stmt} (hs : t.HasStmt st) (h : part ∈ st.parts) :
    t.HasStmt part := by
  induction st with
  | assignment | call | returnValue | jump => rwa [List.mem_singleton.1 h]
  | ifThen id branch condition yes ih =>
    rcases List.mem_cons.1 h with rfl | h
    · exact hs
    · cases hs with
      | ifThen _ _ _ hy => exact ih hy h
  | ifElse id branch condition yes other no ihy ihn =>
    rcases List.mem_cons.1 h with rfl | h
    · exact hs
    · cases hs with
      | ifElse _ _ _ _ hy hno =>
        rcases List.mem_append.1 h with h | h
        · exact ihy hy h
        · exact ihn hno h
  | loop id condition body ih =>
    rcases List.mem_cons.1 h with rfl | h
    · exact hs
    · cases hs with
      | loop _ _ hb => exact ih hb h
  | block id locals body ih =>
    rcases List.mem_cons.1 h with rfl | h
    · exact hs
    · cases hs with
      | block _ _ hb =>
        rw [Stmt.bodyParts_eq] at h
        obtain ⟨st, hst, h⟩ := List.mem_flatMap.1 h
        exact ih st hst (hb st hst) h

/-- The jumps, the loops and the returns of a program are the nodes of these kinds that the tree has
in it, and what they are in the program they are in the tree. -/
structure HasControlFlow (t : Tree) (p : Program) : Prop where
  jumps : p.jumps.map Prod.fst = p.ids.filter (t.ofKind NodeKind.isJump)
  jump : ∀ x ∈ p.jumps, t.Has x.1 fun n => n.kind = x.2.kind
  loops : p.loops.map Prod.fst = p.ids.filter (t.ofKind (· = .loop))
  loop : ∀ l ∈ p.loops, t.HasStmt l.2 ∧ t.Has l.1 fun n => n.second = some l.2.id
  returns : p.returns.map Return.id = p.ids.filter (t.ofKind (· = .returnValue))
  value : ∀ r ∈ p.returns, r.method ∈ p.methods ∧ r.id ∈ r.method.block.ids ∧
    t.Has r.id fun n => n.first = r.value.map Expr.id

theorem HasProgram.of_mem_parts {p : Program} (h : t.HasProgram p) :
    ∀ part ∈ p.parts, t.HasStmt part := by
  intro part hpart
  obtain ⟨m, hm, hpart⟩ := List.mem_flatMap.1 hpart
  exact (h.methods m hm).block.of_mem_parts hpart

/-- The nodes of one kind of statement are those of the statements of that kind. -/
theorem HasProgram.filter_ids_parts {p : Program} (h : t.HasProgram p) {choose : NodeKind → Bool}
    (hchoose : ∀ kind, choose kind = true → kind.isStatement = true) :
    p.ids.filter (t.ofKind choose) = (p.parts.filter fun part => choose part.kind).map Stmt.id := by
  rw [h.filter_ids, p.filter_kinds hchoose]

/-- A tree that holds a program has its jumps, its loops and its returns. -/
theorem HasProgram.controlFlow {p : Program} (h : t.HasProgram p) : t.HasControlFlow p where
  jumps := by
    rw [h.filter_ids_parts fun kind => by cases kind <;> simp [NodeKind.isJump, NodeKind.isStatement]]
    refine map_filterMap_eq fun part _ => ?_
    cases part with
    | jump id j => cases j <;> rfl
    | _ => rfl
  jump := by
    intro x hx
    obtain ⟨part, hpart, hx⟩ := List.mem_filterMap.1 hx
    cases part with
    | jump id j =>
      cases hx
      cases h.of_mem_parts _ hpart with
      | jump hn => exact hn
    | _ => cases hx
  loops := by
    rw [h.filter_ids_parts fun kind => by cases kind <;> simp [NodeKind.isStatement]]
    refine map_filterMap_eq fun part _ => ?_
    cases part with
    | jump id j => cases j <;> rfl
    | _ => rfl
  loop := by
    intro l hl
    obtain ⟨part, hpart, hl⟩ := List.mem_filterMap.1 hl
    cases part with
    | loop id condition body =>
      cases hl
      cases h.of_mem_parts _ hpart with
      | loop hn _ hb => exact ⟨hb, hn.imp fun n hn => hn.2.2⟩
    | _ => cases hl
  returns := by
    rw [h.filter_ids_parts fun kind => by cases kind <;> simp [NodeKind.isStatement],
      Program.returns, Program.parts, List.map_flatMap, List.filter_flatMap, List.map_flatMap]
    refine List.flatMap_congr fun m _ => map_filterMap_eq fun part _ => ?_
    cases part with
    | jump id j => cases j <;> rfl
    | _ => rfl
  value := by
    intro r hr
    obtain ⟨m, hm, hr⟩ := List.mem_flatMap.1 hr
    obtain ⟨part, hpart, hr⟩ := List.mem_filterMap.1 hr
    cases part with
    | returnValue id value =>
      cases hr
      have own : id ∈ m.block.ids := Stmt.ids_subset_of_mem_parts hpart (List.mem_cons_self ..)
      cases (h.methods m hm).block.of_mem_parts hpart with
      | returnValue hn _ => exact ⟨hm, own, hn.imp fun n hn => hn.2⟩
    | _ => cases hr

end Tree

/-! ### Compilation units -/

namespace CompilationUnit

variable {u : CompilationUnit} {p : Program}

/-- The diagnostics of one sort are the complaints of that sort, at their places. -/
theorem filter_reports (u : CompilationUnit) (choose : Problem → Bool) (es : List Event) :
    (u.reports es).filter (fun d => choose d.problem) =
      (Event.complaintsOf choose es).map fun x => ⟨x.1, u.tree.position x.2⟩ :=
  List.filter_map

/-- **Jumps and returns are tracked exactly.** A program is checked without a fault. Of the
diagnostics about jumps there is one for each jump that stands in the body of no loop, and of those
about returns one for each return that does not fit its method, both in the order of the text. -/
theorem controlFlow_of_check (h : u.Holds p) : u.tree.HasControlFlow p ∧
    ∃ found checked, u.check = .ok (found, checked) ∧
      found.filter (fun d => d.problem.isOutsideLoop) =
        (p.jumps.filter fun x => ¬ p.InLoop x.1).map
          (fun x => ⟨.outsideLoop x.2.word, u.tree.position x.1⟩) ∧
      found.filter (fun d => d.problem.isInvalidReturn) =
        (p.returns.filter fun r => r.Unfit).map
          (fun r => ⟨.invalidReturn r.method.name, u.tree.position r.id⟩) := by
  refine ⟨h.held.controlFlow, _, _, h.check_eq, ?_, ?_⟩
  · rw [filter_reports, Program.complaintsOf_outsideLoop h.alone, List.map_map]
    rfl
  · rw [filter_reports, Program.complaintsOf_invalidReturn, List.map_map]
    rfl

/-! ### A program -/

/-- A method with a jump inside of a loop and one outside, and a return without a value. -/
def faultyJumps : Method where
  id := ⟨8⟩
  name := "f"
  ty := .int
  params := [⟨⟨9⟩, "y", .int⟩, ⟨⟨10⟩, "y", .bool⟩]
  body := ⟨11⟩
  locals := []
  statements := [
    .loop ⟨12⟩ (.literal (.bool ⟨13⟩ 1)) (.block ⟨14⟩ [] [.jump ⟨15⟩ .breakLoop]),
    .jump ⟨16⟩ .continueLoop,
    .returnValue ⟨17⟩ none]

/-- A method with calls that do not fit, and a return of a value. -/
def faultyCalls : Method where
  id := ⟨18⟩
  name := "print"
  ty := .void
  params := [⟨⟨19⟩, "s", .string⟩]
  body := ⟨20⟩
  locals := []
  statements := [
    .assignment ⟨21⟩ ⟨⟨22⟩, "x", none⟩ (.call ⟨23⟩ "f"
      [(⟨24⟩, .call ⟨25⟩ "f" [(⟨26⟩, .literal (.int ⟨27⟩ 1))]),
        (⟨28⟩, .literal (.bool ⟨29⟩ 1))]),
    .call ⟨⟨30⟩, "f", [(⟨31⟩, .plain ⟨32⟩ .read "z"), (⟨33⟩, .literal (.int ⟨34⟩ 1))]⟩,
    .call ⟨⟨35⟩, "x", [(⟨36⟩, .literal (.int ⟨37⟩ 2))]⟩,
    .returnValue ⟨38⟩ (some (.literal (.int ⟨39⟩ 1)))]

/-- A program with faults of many sorts. A field is declared twice, an array has no elements, two
parameters share a name, and a method has the name of an extern method. -/
def faulty : Program where
  id := ⟨0⟩
  externs := [⟨⟨1⟩, "print", .void, [(⟨2⟩, .string)]⟩]
  package := ⟨3⟩
  name := "P"
  fields := [⟨⟨4⟩, "x", .int, .scalar⟩, ⟨⟨5⟩, "a", .int, .array ⟨6⟩ 0⟩, ⟨⟨7⟩, "x", .bool, .scalar⟩]
  methods := [faultyJumps, faultyCalls]

/-- The line of the text that a node stands in. -/
def faultyPlace (line : Nat) : Position := ⟨line, "faulty.decaf"⟩

/-- A unit that holds this program. -/
def faultyUnit : CompilationUnit where
  tree := ⟨#[
    { Node.blank .program with first := some ⟨1⟩, second := some ⟨3⟩ },
    { Node.blank .externDecl with name := some "print", ty := some .void, first := some ⟨2⟩ },
    { Node.blank .externType with ty := some .string },
    { Node.blank .package with name := some "P", first := some ⟨4⟩, second := some ⟨8⟩ },
    { Node.blank .variableDecl with name := some "x", ty := some .int, next := some ⟨5⟩ },
    { Node.blank .variableDecl with
      name := some "a", ty := some .int, first := some ⟨6⟩, next := some ⟨7⟩,
      position := faultyPlace 4 },
    { Node.blank .intConstant with value := 0 },
    { Node.blank .variableDecl with
      name := some "x", ty := some .bool, position := faultyPlace 5 },
    { Node.blank .methodDecl with
      name := some "f", ty := some .int, first := some ⟨9⟩, second := some ⟨11⟩,
      next := some ⟨18⟩ },
    { Node.blank .parameter with name := some "y", ty := some .int, next := some ⟨10⟩ },
    { Node.blank .parameter with
      name := some "y", ty := some .bool, position := faultyPlace 6 },
    { Node.blank .block with second := some ⟨12⟩ },
    { Node.blank .loop with first := some ⟨13⟩, second := some ⟨14⟩, next := some ⟨16⟩ },
    { Node.blank .boolConstant with value := 1 },
    { Node.blank .block with second := some ⟨15⟩ },
    { Node.blank .breakLoop with position := faultyPlace 7 },
    { Node.blank .continueLoop with next := some ⟨17⟩, position := faultyPlace 8 },
    { Node.blank .returnValue with position := faultyPlace 9 },
    { Node.blank .methodDecl with
      name := some "print", ty := some .void, first := some ⟨19⟩, second := some ⟨20⟩,
      position := faultyPlace 11 },
    { Node.blank .parameter with name := some "s", ty := some .string },
    { Node.blank .block with second := some ⟨21⟩ },
    { Node.blank .assignment with first := some ⟨22⟩, second := some ⟨23⟩, next := some ⟨30⟩ },
    { Node.blank .target with name := some "x" },
    { Node.blank .call with name := some "f", first := some ⟨24⟩ },
    { Node.blank .argument with first := some ⟨25⟩, next := some ⟨28⟩ },
    { Node.blank .call with name := some "f", first := some ⟨26⟩, position := faultyPlace 12 },
    { Node.blank .argument with first := some ⟨27⟩ },
    { Node.blank .intConstant with value := 1 },
    { Node.blank .argument with first := some ⟨29⟩ },
    { Node.blank .boolConstant with value := 1 },
    { Node.blank .call with name := some "f", first := some ⟨31⟩, next := some ⟨35⟩ },
    { Node.blank .argument with first := some ⟨32⟩, next := some ⟨33⟩ },
    { Node.blank .reference with name := some "z", position := faultyPlace 13 },
    { Node.blank .argument with first := some ⟨34⟩ },
    { Node.blank .intConstant with value := 1 },
    { Node.blank .call with
      name := some "x", first := some ⟨36⟩, next := some ⟨38⟩, position := faultyPlace 14 },
    { Node.blank .argument with first := some ⟨37⟩ },
    { Node.blank .intConstant with value := 2 },
    { Node.blank .returnValue with first := some ⟨39⟩, position := faultyPlace 15 },
    { Node.blank .intConstant with value := 1 }]⟩
  table := .empty
  root := some ⟨0⟩

theorem holds_faulty : faultyUnit.Holds faulty where
  fresh := rfl
  root := rfl
  held := {
    root := ⟨_, rfl, rfl, rfl, .cons rfl .nil, rfl⟩
    package := ⟨_, rfl, rfl, rfl, rfl, .cons rfl (.cons rfl (.cons rfl .nil)),
      .cons rfl (.cons rfl .nil)⟩
    externs := List.forall_mem_singleton.2
      ⟨⟨_, rfl, rfl, rfl, rfl, .cons rfl .nil⟩, List.forall_mem_singleton.2 ⟨_, rfl, rfl, rfl⟩⟩
    fields := by
      refine List.forall_mem_cons.2 ⟨⟨⟨_, rfl, rfl, rfl, rfl, rfl, rfl⟩, trivial⟩,
        List.forall_mem_cons.2 ⟨⟨⟨_, rfl, rfl, rfl, rfl, rfl, rfl⟩, ⟨_, rfl, rfl, rfl⟩⟩,
          List.forall_mem_singleton.2 ⟨⟨_, rfl, rfl, rfl, rfl, rfl, rfl⟩, trivial⟩⟩⟩
    methods := by
      have int : ∀ id value, (faultyUnit.tree.Has id fun n =>
          n.kind = .intConstant ∧ n.value = value) →
            faultyUnit.tree.HasExpr (.literal (.int id value)) := fun _ _ h => .literal h
      have loop : faultyUnit.tree.HasStmt (.loop ⟨12⟩ (.literal (.bool ⟨13⟩ 1))
          (.block ⟨14⟩ [] [.jump ⟨15⟩ .breakLoop])) :=
        .loop ⟨_, rfl, rfl, rfl, rfl⟩ (.literal ⟨_, rfl, rfl, rfl⟩)
          (.block ⟨_, rfl, rfl, .nil, .cons rfl .nil⟩ (List.forall_mem_nil _)
            (List.forall_mem_singleton.2 (.jump ⟨_, rfl, rfl⟩)))
      have jumps : faultyUnit.tree.HasMethod faultyJumps := {
        node := ⟨_, rfl, rfl, rfl, rfl, .cons rfl (.cons rfl .nil), rfl⟩
        params := List.forall_mem_cons.2 ⟨⟨_, rfl, rfl, rfl, rfl⟩,
          List.forall_mem_singleton.2 ⟨_, rfl, rfl, rfl, rfl⟩⟩
        block := .block ⟨_, rfl, rfl, .nil, .cons rfl (.cons rfl (.cons rfl .nil))⟩
          (List.forall_mem_nil _)
          (List.forall_mem_cons.2 ⟨loop, List.forall_mem_cons.2 ⟨.jump ⟨_, rfl, rfl⟩,
            List.forall_mem_singleton.2 (.returnValue ⟨_, rfl, rfl, rfl⟩ (by simp))⟩⟩) }
      have inner : faultyUnit.tree.HasExpr
          (.call ⟨25⟩ "f" [(⟨26⟩, .literal (.int ⟨27⟩ 1))]) :=
        .call ⟨_, rfl, rfl, rfl, .cons rfl .nil⟩ (List.forall_mem_singleton.2 ⟨_, rfl, rfl, rfl⟩)
          (List.forall_mem_singleton.2 (int _ _ ⟨_, rfl, rfl, rfl⟩))
      have outer : faultyUnit.tree.HasExpr (.call ⟨23⟩ "f"
          [(⟨24⟩, .call ⟨25⟩ "f" [(⟨26⟩, .literal (.int ⟨27⟩ 1))]),
            (⟨28⟩, .literal (.bool ⟨29⟩ 1))]) :=
        .call ⟨_, rfl, rfl, rfl, .cons rfl (.cons rfl .nil)⟩
          (List.forall_mem_cons.2 ⟨⟨_, rfl, rfl, rfl⟩,
            List.forall_mem_singleton.2 ⟨_, rfl, rfl, rfl⟩⟩)
          (List.forall_mem_cons.2 ⟨inner,
            List.forall_mem_singleton.2 (.literal ⟨_, rfl, rfl, rfl⟩)⟩)
      have ghost : faultyUnit.tree.HasExpr (.call ⟨30⟩ "f"
          [(⟨31⟩, .plain ⟨32⟩ .read "z"), (⟨33⟩, .literal (.int ⟨34⟩ 1))]) :=
        .call ⟨_, rfl, rfl, rfl, .cons rfl (.cons rfl .nil)⟩
          (List.forall_mem_cons.2 ⟨⟨_, rfl, rfl, rfl⟩,
            List.forall_mem_singleton.2 ⟨_, rfl, rfl, rfl⟩⟩)
          (List.forall_mem_cons.2 ⟨.plain ⟨_, rfl, rfl, rfl, rfl⟩,
            List.forall_mem_singleton.2 (int _ _ ⟨_, rfl, rfl, rfl⟩)⟩)
      have field : faultyUnit.tree.HasExpr
          (.call ⟨35⟩ "x" [(⟨36⟩, .literal (.int ⟨37⟩ 2))]) :=
        .call ⟨_, rfl, rfl, rfl, .cons rfl .nil⟩ (List.forall_mem_singleton.2 ⟨_, rfl, rfl, rfl⟩)
          (List.forall_mem_singleton.2 (int _ _ ⟨_, rfl, rfl, rfl⟩))
      have leave : faultyUnit.tree.HasStmt
          (.returnValue ⟨38⟩ (some (.literal (.int ⟨39⟩ 1)))) := by
        refine .returnValue ⟨_, rfl, rfl, rfl⟩ fun e he => ?_
        cases he
        exact int _ _ ⟨_, rfl, rfl, rfl⟩
      have calls : faultyUnit.tree.HasMethod faultyCalls := {
        node := ⟨_, rfl, rfl, rfl, rfl, .cons rfl .nil, rfl⟩
        params := List.forall_mem_singleton.2 ⟨_, rfl, rfl, rfl, rfl⟩
        block := .block
          ⟨_, rfl, rfl, .nil, .cons rfl (.cons rfl (.cons rfl (.cons rfl .nil)))⟩
          (List.forall_mem_nil _)
          (List.forall_mem_cons.2
            ⟨.assignment ⟨_, rfl, rfl, rfl, rfl⟩ (.plain ⟨_, rfl, rfl, rfl, rfl⟩) outer,
              List.forall_mem_cons.2 ⟨.call ghost, List.forall_mem_cons.2 ⟨.call field,
                List.forall_mem_singleton.2 leave⟩⟩⟩) }
      exact List.forall_mem_cons.2 ⟨jumps, List.forall_mem_singleton.2 calls⟩ }
  alone := by decide
  addressable := by decide

theorem controlFlow_of_check_faulty : faultyUnit.Holds faulty ∧
    faultyUnit.tree.HasControlFlow faulty ∧
    ∃ found checked, faultyUnit.check = .ok (found, checked) ∧
      found.filter (fun d => d.problem.isOutsideLoop) =
        [⟨.outsideLoop "continue", faultyPlace 8⟩] ∧
      found.filter (fun d => d.problem.isInvalidReturn) =
        [⟨.invalidReturn "f", faultyPlace 9⟩, ⟨.invalidReturn "print", faultyPlace 15⟩] := by
  obtain ⟨tracked, found, checked, hcheck, jumps, returns⟩ := controlFlow_of_check holds_faulty
  exact ⟨holds_faulty, tracked, found, checked, hcheck, jumps, returns⟩

end CompilationUnit

end DecafStatics
