import DecafStatics.Proofs.Programs

/-!
# The order of reports

Reports come in the order in which a check finds things out, and `Program.order` lists the nodes in
that order, each as often as there are things that can be wrong with it. From one statement or
declaration to the next this is the order of the source. Inside of an expression it is not: a check
goes to the leaves first, so an operand is blamed before the operation it is part of, an argument
before the call, and an assignment or a return last of all.

Where an expression is spread over several lines, reports can therefore be out of the order of the
lines. Where each of them stands on one line they never are.

## Implementation notes

The order of the source is that of a walk over the tree which goes to a node, then below it on the
first and on the second side, and then to its sibling. A tree may have more nodes than the program
that it holds, and the walk goes to these as well. So the nodes of the program are met in their
order, but not only they, and some of them are blamed more than once: `Trails` is the relation
between what is blamed and what is met.

## Main definitions

* `Tree.Walk` — the nodes in the order of the source
* `Program.order` — the nodes in the order in which they can be blamed
* `Program.lumps` — the nodes of each expression, together with the statement that it belongs to
* `Trails` — passing through a list, with places left out and places returned from more than once

## Main results

* `Program.blamed_sublist` — the reports follow the order of the check
* `CompilationUnit.unordered_spread` — reports that are not in the order of the lines
* `CompilationUnit.pairwise_line_of_check` — reports are in the order of the lines if expressions
  are not spread over several of them
-/

namespace DecafStatics

/-- The nodes from a head on in the order of the source: a node, then those below it on the first
side, then those on the second side, and then its siblings. -/
inductive Tree.Walk (t : Tree) : Option NodeId → List NodeId → Prop where
  | nil : Walk t none []
  | node {id : NodeId} {n : Node} {first second next : List NodeId} : t.node id = .ok n →
      Walk t n.first first → Walk t n.second second → Walk t n.next next →
      Walk t (some id) (id :: (first ++ second ++ next))

/-- The walk, if it is no deeper than `depth` and runs into no missing node. -/
def Tree.walkWithin (t : Tree) : Nat → Option NodeId → Option (List NodeId)
  | _, none => some []
  | 0, some _ => none
  | depth + 1, some id => do
    let n ← (t.node id).toOption
    let first ← t.walkWithin depth n.first
    let second ← t.walkWithin depth n.second
    let next ← t.walkWithin depth n.next
    return id :: (first ++ second ++ next)

theorem Tree.walk_of_walkWithin {t : Tree} {depth : Nat} {head : Option NodeId}
    {ids : List NodeId} (h : t.walkWithin depth head = some ids) : t.Walk head ids := by
  induction depth generalizing head ids with
  | zero =>
    cases head with
    | none =>
      cases h
      exact .nil
    | some id => cases h
  | succ depth ih =>
    cases head with
    | none =>
      cases h
      exact .nil
    | some id =>
      rw [walkWithin, Option.bind_eq_bind, Option.bind_eq_some_iff] at h
      obtain ⟨n, hn, h⟩ := h
      obtain ⟨first, hfirst, h⟩ := Option.bind_eq_some_iff.1 h
      obtain ⟨second, hsecond, h⟩ := Option.bind_eq_some_iff.1 h
      obtain ⟨next, hnext, h⟩ := Option.bind_eq_some_iff.1 h
      cases h
      have hn : t.node id = .ok n := by
        cases hnode : t.node id with
        | error => simp [hnode, Except.toOption] at hn
        | ok m => simpa [hnode, Except.toOption] using hn
      exact .node hn (ih hfirst) (ih hsecond) (ih hnext)

/-! ### Who is blamed, and when -/

namespace Expr

mutual

/-- The nodes of an expression in the order in which they can be blamed. -/
def order : Expr → List NodeId
  | literal _ => []
  | plain id _ _ => [id]
  | element id _ _ index => index.order ++ [id, index.id]
  | unary _ _ _ operand => operand.order ++ [operand.id]
  | binary _ _ _ left right => left.order ++ right.order ++ [left.id, right.id]
  | call id _ arguments => argumentOrder arguments ++ [id]

/-- The nodes of the arguments of a call in the order in which they can be blamed. -/
def argumentOrder : List (NodeId × Expr) → List NodeId
  | [] => []
  | (_, e) :: rest => e.order ++ argumentOrder rest

end

end Expr

def VarDecl.order (d : VarDecl) : List NodeId := d.id :: d.shape.second.toList

namespace Stmt

mutual

/-- The nodes of a statement in the order in which they can be blamed. -/
def order : Stmt → List NodeId
  | assignment id target value => target.expr.order ++ value.order ++ [id]
  | call c => c.expr.order
  | ifThen _ _ condition yes => condition.order ++ [condition.id] ++ yes.order
  | ifElse _ _ condition yes _ no => condition.order ++ [condition.id] ++ yes.order ++ no.order
  | loop _ condition body => condition.order ++ [condition.id] ++ body.order
  | returnValue id value => value.toList.flatMap Expr.order ++ [id]
  | jump id _ => [id]
  | block _ locals body => locals.flatMap VarDecl.order ++ bodyOrder body

/-- The nodes of the statements of a block in the order in which they can be blamed. -/
def bodyOrder : List Stmt → List NodeId
  | [] => []
  | st :: rest => st.order ++ bodyOrder rest

end

theorem bodyOrder_eq (body : List Stmt) : bodyOrder body = body.flatMap order := by
  induction body with
  | nil => rfl
  | cons st rest ih => rw [bodyOrder, ih, List.flatMap_cons]

mutual

/-- The nodes of each of the expressions of a statement, together with what they are checked
against. -/
def lumps : Stmt → List (List NodeId)
  | assignment id target value => [id :: (target.expr.ids ++ value.ids)]
  | call c => [c.expr.ids]
  | ifThen _ _ condition yes => condition.ids :: yes.lumps
  | ifElse _ _ condition yes _ no => condition.ids :: (yes.lumps ++ no.lumps)
  | loop _ condition body => condition.ids :: body.lumps
  | returnValue id value => [id :: value.toList.flatMap Expr.ids]
  | jump .. => []
  | block _ _ body => bodyLumps body

/-- The nodes of each of the expressions of the statements of a block. -/
def bodyLumps : List Stmt → List (List NodeId)
  | [] => []
  | st :: rest => st.lumps ++ bodyLumps rest

end

theorem bodyLumps_eq (body : List Stmt) : bodyLumps body = body.flatMap lumps := by
  induction body with
  | nil => rfl
  | cons st rest ih => rw [bodyLumps, ih, List.flatMap_cons]

end Stmt

def Method.order (m : Method) : List NodeId := m.id :: (m.params.map Param.id ++ m.block.order)

/-- The nodes of a program in the order in which they can be blamed. -/
def Program.order (p : Program) : List NodeId :=
  p.externs.map Extern.id ++ p.package ::
    (p.fields.flatMap VarDecl.order ++ p.methods.flatMap Method.order)

/-- The nodes of each of the expressions of a program, together with the statement that it belongs
to. -/
def Program.lumps (p : Program) : List (List NodeId) := p.methods.flatMap fun m => m.block.lumps

/-- The nodes that the complaints are about, in their order. -/
def Event.blamed (es : List Event) : List NodeId := (complaints es).map Prod.snd

@[simp] theorem Event.blamed_append (es fs : List Event) :
    blamed (es ++ fs) = blamed es ++ blamed fs := by
  simp [blamed]

section Blamed

variable {Γ : Env} {id : NodeId}

@[simp] theorem blamed_typing (ty : Option Ty) : Event.blamed (typing id ty) = [] := by
  cases ty <;> rfl

theorem blamed_mismatch_sublist (wanted : Ty) (received : Option Ty) :
    (Event.blamed (mismatch wanted received id)).Sublist [id] := by
  unfold mismatch
  split
  · exact List.nil_sublist _
  · split
    · exact List.nil_sublist _
    · exact .refl _

theorem blamed_misuse_sublist (name : String) (b : Binding) (used : SymbolKind) :
    (Event.blamed (misuse name b used id)).Sublist [id] := by
  rw [misuse]
  split
  · exact List.nil_sublist _
  · exact .refl _

theorem blamed_misfit_sublist (name : String) (b : Binding) (types : List (Option Ty)) :
    (Event.blamed (misfit name b types id)).Sublist [id] := by
  rw [misfit]
  split
  · exact .refl _
  · exact List.nil_sublist _

theorem blamed_elim_sublist {ty : Option Ty} {judge : Ty → List Event} {l : List NodeId}
    (h : ∀ ty, (Event.blamed (judge ty)).Sublist l) :
    (Event.blamed (ty.elim [] judge)).Sublist l := by
  cases ty with
  | none => exact List.nil_sublist _
  | some ty => exact h ty

theorem blamed_reference_sublist {name : String} {judge : Binding → List Event} {l : List NodeId}
    (h : ∀ b, (Event.blamed (judge b)).Sublist (id :: l)) :
    (Event.blamed (reference Γ id name judge)).Sublist (id :: l) := by
  rw [reference]
  split
  · exact List.singleton_sublist.2 (List.mem_cons_self ..)
  · exact h _

namespace Expr

theorem blamed_findings_sublist (e : Expr) : (Event.blamed (e.findings Γ)).Sublist e.order := by
  induction e with
  | literal l => exact .refl _
  | plain id access name => exact blamed_reference_sublist fun b => blamed_misuse_sublist ..
  | element id access name index ih =>
    simp only [findings, order, Event.blamed_append, blamed_typing, List.append_nil]
    refine ih.append (blamed_reference_sublist fun b => ?_)
    rw [Event.blamed_append]
    exact (blamed_misuse_sublist ..).append (blamed_mismatch_sublist ..)
  | unary id op arity operand ih =>
    simp only [findings, order, Event.blamed_append, blamed_typing, List.append_nil]
    exact ih.append (blamed_elim_sublist fun ty => blamed_mismatch_sublist ..)
  | binary id op arity left right ihl ihr =>
    simp only [findings, order, Event.blamed_append, blamed_typing, List.append_nil]
    refine (ihl.append ihr).append (blamed_elim_sublist fun ty => ?_)
    rw [Event.blamed_append]
    exact (blamed_mismatch_sublist ..).append (blamed_mismatch_sublist ..)
  | call id name arguments ih =>
    have rest : (Event.blamed (argumentEvents Γ arguments)).Sublist (argumentOrder arguments) := by
      induction arguments with
      | nil => exact .refl _
      | cons a rest ihr =>
        obtain ⟨ha, hrest⟩ := List.forall_mem_cons.1 ih
        simp only [argumentEvents, argumentOrder, Event.blamed_append, blamed_typing,
          List.append_nil]
        exact ha.append (ihr hrest)
    rw [findings, order, Event.blamed_append]
    refine rest.append (blamed_reference_sublist fun b => ?_)
    split
    · exact blamed_misfit_sublist ..
    · exact .refl _

theorem blamed_events_sublist (e : Expr) : (Event.blamed (e.events Γ)).Sublist e.order := by
  rw [events, Event.blamed_append, blamed_typing, List.append_nil]
  exact e.blamed_findings_sublist

end Expr

theorem blamed_conditionEvents_sublist (e : Expr) :
    (Event.blamed (conditionEvents Γ e)).Sublist (e.order ++ [e.id]) := by
  rw [conditionEvents, Event.blamed_append]
  exact e.blamed_events_sublist.append (blamed_mismatch_sublist ..)

theorem blamed_returnEvents_sublist (c : Context) (value : Option Expr) :
    (Event.blamed (returnEvents c id value)).Sublist
      (value.toList.flatMap Expr.order ++ [id]) := by
  rw [returnEvents, Event.blamed_append]
  refine List.Sublist.append ?_ ?_
  · cases value with
    | none => exact .refl _
    | some e => simpa using e.blamed_events_sublist
  · cases c.method with
    | none => exact List.nil_sublist _
    | some enclosing =>
      obtain ⟨name, ty⟩ := enclosing
      cases value with
      | none =>
        cases ty with
        | void => exact List.nil_sublist _
        | int | bool | string => exact .refl _
      | some e =>
        cases ty with
        | void => exact .refl _
        | int | bool | string => exact blamed_mismatch_sublist ..

theorem Context.blamed_declaring_sublist (c : Context) (node : NodeId) (symbol : Symbol) :
    (Event.blamed (c.declaring node symbol)).Sublist [node] := by
  rw [declaring]
  split
  · exact .refl _
  · exact List.nil_sublist _

theorem Context.blamed_along_sublist {α : Type} {events : Context → α → List Event}
    {next : Context → α → Context} {order : α → List NodeId} {l : List α}
    (h : ∀ a ∈ l, ∀ c, (Event.blamed (events c a)).Sublist (order a)) (c : Context) :
    (Event.blamed (c.along events next l)).Sublist (l.flatMap order) := by
  induction l generalizing c with
  | nil => exact .refl _
  | cons a rest ih =>
    obtain ⟨ha, hrest⟩ := List.forall_mem_cons.1 h
    rw [along, Event.blamed_append, List.flatMap_cons]
    exact (ha c).append (ih hrest _)

theorem VarDecl.blamed_sublist (c : Context) (d : VarDecl) :
    (Event.blamed (d.events c)).Sublist d.order := by
  rw [events, order, ← List.singleton_append]
  split
  · exact List.sublist_append_left ..
  · rw [Event.blamed_append]
    refine List.Sublist.append (c.blamed_declaring_sublist d.id _) ?_
    cases d.shape with
    | scalar | array => exact List.nil_sublist _
    | initialized value => exact blamed_mismatch_sublist ..

theorem Stmt.blamed_sublist (c : Context) (st : Stmt) :
    (Event.blamed (st.events c)).Sublist st.order := by
  induction st generalizing c with
  | assignment id target value =>
    simp only [events, order, Event.blamed_append]
    exact (target.expr.blamed_events_sublist.append value.blamed_events_sublist).append
      (blamed_elim_sublist fun ty => blamed_mismatch_sublist ..)
  | call call => exact call.expr.blamed_events_sublist
  | ifThen id branch condition yes ih =>
    simp only [events, order, Event.blamed_append]
    exact (blamed_conditionEvents_sublist condition).append (ih c)
  | ifElse id branch condition yes other no ihy ihn =>
    simp only [events, order, Event.blamed_append]
    exact ((blamed_conditionEvents_sublist condition).append (ihy c)).append (ihn _)
  | loop id condition body ih =>
    simp only [events, order, Event.blamed_append]
    exact (blamed_conditionEvents_sublist condition).append (ih _)
  | returnValue id value => exact blamed_returnEvents_sublist c value
  | jump id j =>
    rw [events]
    split
    · exact .refl _
    · exact List.nil_sublist _
  | block id locals body ih =>
    rw [events, order, bodyEvents_eq, bodyOrder_eq, Event.blamed_append]
    exact (Context.blamed_along_sublist (fun d _ c => d.blamed_sublist c) _).append
      (Context.blamed_along_sublist (fun st hst c => ih st hst c) _)

theorem Method.blamed_sublist (c : Context) (m : Method) :
    (Event.blamed (m.events c)).Sublist m.order := by
  have params : (Event.blamed ((m.scope c).along Param.events Param.next m.params)).Sublist
      (m.params.map Param.id) := by
    rw [List.map_eq_flatMap]
    exact Context.blamed_along_sublist (fun param _ c => c.blamed_declaring_sublist param.id _) _
  have size : Event.blamed [.size m.id (m.words c)] = [] := rfl
  rw [events, inside, order, ← List.singleton_append]
  simp only [Event.blamed_append, size, List.append_nil]
  exact (c.blamed_declaring_sublist m.id _).append (params.append (m.block.blamed_sublist _))

/-- **The reports follow the order of the check.** -/
theorem Program.blamed_sublist (p : Program) : (Event.blamed p.events).Sublist p.order := by
  have externs : (Event.blamed (Context.start.along Extern.events Extern.next p.externs)).Sublist
      (p.externs.map Extern.id) := by
    rw [List.map_eq_flatMap]
    exact Context.blamed_along_sublist (fun e _ c => c.blamed_declaring_sublist e.id _) _
  rw [events_eq, packageEvents, order, ← List.singleton_append]
  simp only [Event.blamed_append]
  exact externs.append ((Context.blamed_declaring_sublist _ p.package _).append
    ((Context.blamed_along_sublist (fun d _ c => d.blamed_sublist c) _).append
      (Context.blamed_along_sublist (fun m _ c => m.blamed_sublist c) _)))

end Blamed

/-! ### Trails -/

/-- The first list passes through the second one. Places may be left out, and nodes may be named
more than once before the trail goes on from their place. -/
inductive Trails {α : Type} : List α → List α → Prop where
  | nil (l : List α) : Trails [] l
  | stay {x : α} {a l : List α} : Trails a (x :: l) → Trails (x :: a) (x :: l)
  | pass {x : α} {a l : List α} : Trails a l → Trails a (x :: l)

namespace Trails

variable {α : Type} {a b l m : List α}

/-- A trail through the first of two lists and then through the second one. -/
theorem append (h : Trails a l) (h' : Trails b m) : Trails (a ++ b) (l ++ m) := by
  induction h with
  | nil l =>
    induction l with
    | nil => exact h'
    | cons x l ih => exact .pass ih
  | stay _ ih => exact .stay ih
  | pass _ ih => exact .pass ih

theorem append_right (h : Trails a l) (m : List α) : Trails a (l ++ m) := by
  simpa using h.append (.nil m)

theorem trans {c : List α} (h : Trails a b) (h' : Trails b c) : Trails a c := by
  induction h' generalizing a with
  | nil l =>
    cases h
    exact .nil l
  | @stay x b c hb ih =>
    -- the trail may stop at the same place any number of times
    generalize hl : x :: b = l at h
    induction h with
    | nil => exact .nil _
    | stay _ ihs =>
      obtain rfl := (List.cons.inj hl).1
      exact .stay (ihs hl)
    | pass h _ =>
      obtain ⟨-, rfl⟩ := List.cons.inj hl
      exact ih h
  | pass _ ih => exact .pass (ih h)

/-- A trail meets only what there is. -/
theorem subset (h : Trails a l) : ∀ x ∈ a, x ∈ l := by
  induction h with
  | nil => simp
  | stay _ ih => exact List.forall_mem_cons.2 ⟨List.mem_cons_self .., ih⟩
  | pass _ ih => exact fun x hx => List.mem_cons_of_mem _ (ih x hx)

/-- Along a trail things are in order if they are along the list. -/
theorem pairwise {R : α → α → Prop} (hR : ∀ x, R x x) (h : Trails a l) (hl : l.Pairwise R) :
    a.Pairwise R := by
  induction h with
  | nil => exact .nil
  | stay h ih =>
    refine List.pairwise_cons.2 ⟨fun y hy => ?_, ih hl⟩
    rcases List.mem_cons.1 (h.subset y hy) with rfl | hy
    · exact hR y
    · exact (List.pairwise_cons.1 hl).1 y hy
  | pass _ ih => exact ih (List.pairwise_cons.1 hl).2

/-- Among places that are all the same, any list is a trail. -/
theorem of_subset {line : NodeId → α} {nodes : List NodeId}
    (flat : ∀ x ∈ nodes, ∀ y ∈ nodes, line x = line y) {named : List NodeId}
    (h : ∀ x ∈ named, x ∈ nodes) : Trails (named.map line) (nodes.map line) := by
  cases nodes with
  | nil =>
    rw [List.eq_nil_iff_forall_not_mem.2 fun x hx => List.not_mem_nil (h x hx)]
    exact .nil _
  | cons y nodes =>
    induction named with
    | nil => exact .nil _
    | cons x named ih =>
      obtain ⟨hx, hnamed⟩ := List.forall_mem_cons.1 h
      rw [List.map_cons, List.map_cons, flat x hx y (List.mem_cons_self ..)]
      exact .stay (ih hnamed)

end Trails

/-- All of the nodes are on the same line. -/
def Flat (line : NodeId → Nat) (nodes : List NodeId) : Prop :=
  ∀ a ∈ nodes, ∀ b ∈ nodes, line a = line b

instance (line : NodeId → Nat) (nodes : List NodeId) : Decidable (Flat line nodes) :=
  inferInstanceAs (Decidable (∀ a ∈ nodes, ∀ b ∈ nodes, line a = line b))

/-! ### The walk over a program -/

namespace Tree

variable {t : Tree} {line : NodeId → Nat}

/-- The walk from a node on, without its siblings, meets the lines of `nodes` in their order. -/
def Leads (t : Tree) (line : NodeId → Nat) (id : NodeId) (nodes : List NodeId) : Prop :=
  ∀ n first second, t.node id = .ok n → t.Walk n.first first → t.Walk n.second second →
    Trails (nodes.map line) ((id :: (first ++ second)).map line)

/-- What the walk meets from a node on, with its siblings. -/
theorem Leads.walk {id : NodeId} {nodes ids : List NodeId} (h : t.Leads line id nodes)
    (hw : t.Walk (some id) ids) : Trails (nodes.map line) (ids.map line) := by
  cases hw with
  | @node _ _ _ _ next hn hfirst hsecond hnext =>
    have own := (h _ _ _ hn hfirst hsecond).append_right (next.map line)
    simpa using own

/-- What the walk meets along a chain. -/
theorem Linked.walk {α : Type} {f : α → NodeId} {nodes : α → List NodeId} {l : List α}
    {head : Option NodeId} {ids : List NodeId} (hl : t.Linked head (l.map f))
    (h : ∀ a ∈ l, t.Leads line (f a) (nodes a)) (hw : t.Walk head ids) :
    Trails ((l.flatMap nodes).map line) (ids.map line) := by
  induction l generalizing head ids with
  | nil => exact .nil _
  | cons a rest ih =>
    obtain ⟨ha, hrest⟩ := List.forall_mem_cons.1 h
    cases hl with
    | cons hn hl =>
      cases hw with
      | node hn' hfirst hsecond hnext =>
        obtain rfl := Except.ok.inj (hn.symm.trans hn')
        have own := (ha _ _ _ hn hfirst hsecond).append (ih hl hrest hnext)
        simpa using own

/-- Among nodes on one line the order does not matter. -/
theorem Leads.flat {id : NodeId} {nodes named : List NodeId} (h : t.Leads line id nodes)
    (hflat : Flat line nodes) (hnamed : ∀ x ∈ named, x ∈ nodes) : t.Leads line id named :=
  fun n first second hn hfirst hsecond =>
    (Trails.of_subset hflat hnamed).trans (h n first second hn hfirst hsecond)

/-- A node is met before all that is below it. -/
theorem Leads.self {id : NodeId} {nodes : List NodeId} (h : t.Leads line id nodes) :
    t.Leads line id (id :: nodes) :=
  fun n first second hn hfirst hsecond => .stay (h n first second hn hfirst hsecond)

/-- What is below a node on either side. -/
theorem leads_sides {id : NodeId} {before after : List NodeId}
    (h : t.Has id fun n => ∀ first second, t.Walk n.first first → t.Walk n.second second →
      Trails (before.map line) (first.map line) ∧ Trails (after.map line) (second.map line)) :
    t.Leads line id (before ++ after) := by
  intro n first second hn hfirst hsecond
  obtain ⟨n', hn', hsides⟩ := h
  obtain rfl := Except.ok.inj (hn.symm.trans hn')
  obtain ⟨hbefore, hafter⟩ := hsides first second hfirst hsecond
  simpa using (hbefore.append hafter).pass

/-- What is below a node on the first side. -/
theorem leads_first {id : NodeId} {below : List NodeId}
    (h : t.Has id fun n => ∀ first, t.Walk n.first first →
      Trails (below.map line) (first.map line)) : t.Leads line id below := by
  have sides : t.Leads line id (below ++ []) := leads_sides (h.imp fun n hn first second hfirst _ =>
    ⟨hn first hfirst, .nil (second.map line)⟩)
  simpa using sides

theorem leads_nil (id : NodeId) : t.Leads line id [] := fun _ _ _ _ _ _ => .nil _

/-- The walk meets the nodes of an expression. -/
theorem HasExpr.leads {e : Expr} (he : t.HasExpr e) : t.Leads line e.id e.ids := by
  induction e with
  | literal l => exact (leads_nil l.id).self
  | plain id access name => exact (leads_nil id).self
  | element id access name index ih =>
    cases he with
    | element hn hi =>
      exact (leads_first (hn.imp fun n hn first hfirst => (ih hi).walk (hn.2.2 ▸ hfirst))).self
  | unary id op arity operand ih =>
    cases he with
    | unary hn ho =>
      exact (leads_first (hn.imp fun n hn first hfirst => (ih ho).walk (hn.2.2.1 ▸ hfirst))).self
  | binary id op arity left right ihl ihr =>
    cases he with
    | binary hn hl hr =>
      exact (leads_sides (hn.imp fun n hn first second hfirst hsecond =>
        ⟨(ihl hl).walk (hn.2.2.1 ▸ hfirst), (ihr hr).walk (hn.2.2.2 ▸ hsecond)⟩)).self
  | call id name arguments ih =>
    cases he with
    | call hn hw ha =>
      have wrapped : ∀ a ∈ arguments, t.Leads line a.1 (a.1 :: a.2.ids) := fun a hmem =>
        (leads_first ((hw a hmem).imp fun n hn first hfirst =>
          (ih a hmem (ha a hmem)).walk (hn.2 ▸ hfirst))).self
      rw [Expr.ids, Expr.argumentIds_eq]
      exact (leads_first (hn.imp fun n hn first hfirst => hn.2.2.walk wrapped hfirst)).self

end Tree

/-! ### Expressions on one line -/

namespace Expr

/-- Only nodes of an expression are blamed for it. -/
theorem mem_ids_of_mem_order (e : Expr) : ∀ x ∈ e.order, x ∈ e.ids := by
  induction e with
  | literal l => simp [order]
  | plain id access name => simp [order, ids]
  | element id access name index ih =>
    simp only [order, ids, List.forall_mem_append, List.forall_mem_cons]
    exact ⟨fun x hx => List.mem_cons_of_mem _ (ih x hx), List.mem_cons_self ..,
      List.mem_cons_of_mem _ index.id_mem_ids, by simp⟩
  | unary id op arity operand ih =>
    simp only [order, ids, List.forall_mem_append, List.forall_mem_singleton]
    exact ⟨fun x hx => List.mem_cons_of_mem _ (ih x hx), List.mem_cons_of_mem _ operand.id_mem_ids⟩
  | binary id op arity left right ihl ihr =>
    simp only [order, ids, List.forall_mem_append, List.forall_mem_cons]
    exact ⟨⟨fun x hx => by simp [ihl x hx], fun x hx => by simp [ihr x hx]⟩,
      by simp [left.id_mem_ids], by simp [right.id_mem_ids], by simp⟩
  | call id name arguments ih =>
    have rest : ∀ x ∈ argumentOrder arguments, x ∈ argumentIds arguments := by
      induction arguments with
      | nil => simp [argumentOrder]
      | cons a rest ihr =>
        obtain ⟨ha, hrest⟩ := List.forall_mem_cons.1 ih
        simp only [argumentOrder, argumentIds, List.forall_mem_append]
        exact ⟨fun x hx => by simp [ha x hx], fun x hx => by simp [ihr hrest x hx]⟩
    simp only [order, ids, List.forall_mem_append, List.forall_mem_singleton]
    exact ⟨fun x hx => List.mem_cons_of_mem _ (rest x hx), List.mem_cons_self ..⟩

end Expr

section OneLine

variable {t : Tree} {line : NodeId → Nat}

/-- What is blamed for a condition on one line is met in its order. -/
theorem Tree.HasExpr.trails_condition {e : Expr} (he : t.HasExpr e) (hflat : Flat line e.ids)
    {ids : List NodeId} (hw : t.Walk (some e.id) ids) :
    Trails ((e.order ++ [e.id]).map line) (ids.map line) := by
  have named : ∀ x ∈ e.order ++ [e.id], x ∈ e.ids :=
    List.forall_mem_append.2 ⟨e.mem_ids_of_mem_order, List.forall_mem_singleton.2 e.id_mem_ids⟩
  exact (Trails.of_subset hflat named).trans (he.leads.walk hw)

theorem VarDecl.leads {d : VarDecl} (hd : t.HasVarDecl d) : t.Leads line d.id d.order := by
  have initial : t.Leads line d.id ([] ++ d.shape.second.toList) := by
    refine Tree.leads_sides (hd.1.imp fun n hn first second _ hsecond => ⟨.nil _, ?_⟩)
    rw [hn.2.2.2.2] at hsecond
    cases hshape : d.shape with
    | scalar | array => exact .nil _
    | initialized value =>
      rw [hshape] at hsecond
      exact (Tree.leads_nil value.id).self.walk hsecond
  exact initial.self

/-- The branch of a conditional with the condition. -/
theorem Tree.HasExpr.leads_branch {branch yes : NodeId} {condition : Expr} {below : List NodeId}
    (hbranch : t.Has branch fun n => n.kind = .thenBranch ∧ n.first = some condition.id ∧
      n.second = some yes)
    (hc : t.HasExpr condition) (hflat : Flat line condition.ids) (hyes : t.Leads line yes below) :
    t.Leads line branch (condition.order ++ [condition.id] ++ below) :=
  Tree.leads_sides (hbranch.imp fun _ hn _ _ hfirst hsecond =>
    ⟨hc.trails_condition hflat (hn.2.1 ▸ hfirst), hyes.walk (hn.2.2 ▸ hsecond)⟩)

/-- What is blamed for a statement is met in its order, if none of its expressions is spread over
several lines. -/
theorem Stmt.leads {st : Stmt} (hs : t.HasStmt st) (hflat : ∀ lump ∈ st.lumps, Flat line lump) :
    t.Leads line st.id st.order := by
  induction st with
  | assignment id target value =>
    cases hs with
    | assignment hn ht hv =>
      have lump : t.Leads line id (id :: (target.expr.ids ++ value.ids)) :=
        (Tree.leads_sides (hn.imp fun n hn first second hfirst hsecond =>
          ⟨ht.leads.walk (by rwa [target.expr_id, ← hn.2.1]),
            hv.leads.walk (hn.2.2 ▸ hsecond)⟩)).self
      have named : ∀ x ∈ target.expr.order ++ value.order ++ [id],
          x ∈ id :: (target.expr.ids ++ value.ids) := by
        simp only [List.forall_mem_append, List.forall_mem_singleton]
        exact ⟨⟨fun x hx => by simp [target.expr.mem_ids_of_mem_order x hx],
          fun x hx => by simp [value.mem_ids_of_mem_order x hx]⟩, List.mem_cons_self ..⟩
      exact lump.flat (hflat _ (List.mem_singleton_self _)) named
  | call c =>
    cases hs with
    | call hc =>
      exact hc.leads.flat (hflat _ (List.mem_singleton_self _)) c.expr.mem_ids_of_mem_order
  | ifThen id branch condition yes ih =>
    cases hs with
    | ifThen hn hbranch hc hy =>
      obtain ⟨flat, hflat⟩ := List.forall_mem_cons.1 hflat
      have inside := hc.leads_branch hbranch flat (ih hy hflat)
      exact Tree.leads_first (hn.imp fun n hn first hfirst => inside.walk (hn.2.1 ▸ hfirst))
  | ifElse id branch condition yes other no ihy ihn =>
    cases hs with
    | ifElse hn hbranch ho hc hy hno =>
      obtain ⟨flat, hflat⟩ := List.forall_mem_cons.1 hflat
      obtain ⟨flatYes, flatNo⟩ := List.forall_mem_append.1 hflat
      have inside := hc.leads_branch hbranch flat (ihy hy flatYes)
      have otherwise : t.Leads line other no.order :=
        Tree.leads_first (ho.imp fun n hn first hfirst =>
          (ihn hno flatNo).walk (hn.2 ▸ hfirst))
      exact Tree.leads_sides (hn.imp fun n hn first second hfirst hsecond =>
        ⟨inside.walk (hn.2.1 ▸ hfirst), otherwise.walk (hn.2.2 ▸ hsecond)⟩)
  | loop id condition body ih =>
    cases hs with
    | loop hn hc hbody =>
      obtain ⟨flat, hflat⟩ := List.forall_mem_cons.1 hflat
      exact Tree.leads_sides (hn.imp fun n hn first second hfirst hsecond =>
        ⟨hc.trails_condition flat (hn.2.1 ▸ hfirst), (ih hbody hflat).walk (hn.2.2 ▸ hsecond)⟩)
  | returnValue id value =>
    cases hs with
    | returnValue hn hv =>
      have lump : t.Leads line id (id :: value.toList.flatMap Expr.ids) := by
        refine (Tree.leads_first (hn.imp fun n hn first hfirst => ?_)).self
        rw [hn.2] at hfirst
        cases value with
        | none => exact .nil _
        | some e => simpa using (hv e rfl).leads.walk hfirst
      have named : ∀ x ∈ value.toList.flatMap Expr.order ++ [id],
          x ∈ id :: value.toList.flatMap Expr.ids := by
        cases value with
        | none => simp
        | some e =>
          simp only [Option.toList_some, List.flatMap_singleton, List.forall_mem_append,
            List.forall_mem_singleton]
          exact ⟨fun x hx => List.mem_cons_of_mem _ (e.mem_ids_of_mem_order x hx),
            List.mem_cons_self ..⟩
      exact lump.flat (hflat _ (List.mem_singleton_self _)) named
  | jump id j => exact (Tree.leads_nil id).self
  | block id locals body ih =>
    cases hs with
    | block hn hl hbody =>
      rw [lumps, bodyLumps_eq, List.forall_mem_flatMap] at hflat
      rw [order, bodyOrder_eq]
      exact Tree.leads_sides (hn.imp fun n hn first second hfirst hsecond =>
        ⟨hn.2.1.walk (fun d hd => VarDecl.leads (hl d hd)) hfirst,
          hn.2.2.walk (fun st hst => ih st hst (hbody st hst) (hflat st hst)) hsecond⟩)

theorem Method.leads {m : Method} (hm : t.HasMethod m)
    (hflat : ∀ lump ∈ m.block.lumps, Flat line lump) : t.Leads line m.id m.order := by
  have params : ∀ param ∈ m.params, t.Leads line param.id [param.id] :=
    fun param _ => (Tree.leads_nil param.id).self
  have inside : t.Leads line m.id (m.params.map Param.id ++ m.block.order) := by
    rw [List.map_eq_flatMap]
    exact Tree.leads_sides (hm.node.imp fun n hn first second hfirst hsecond =>
      ⟨hn.2.2.2.1.walk params hfirst, (Stmt.leads hm.block hflat).walk (hn.2.2.2.2 ▸ hsecond)⟩)
  exact inside.self

/-- What is blamed in a program is met in its order, if none of its expressions is spread over
several lines. -/
theorem Program.leads {p : Program} (hp : t.HasProgram p)
    (hflat : ∀ lump ∈ p.lumps, Flat line lump) : t.Leads line p.id p.order := by
  rw [lumps, List.forall_mem_flatMap] at hflat
  have package : t.Leads line p.package
      (p.fields.flatMap VarDecl.order ++ p.methods.flatMap Method.order) :=
    Tree.leads_sides (hp.package.imp fun n hn first second hfirst hsecond =>
      ⟨hn.2.2.2.1.walk (fun d hd => VarDecl.leads (hp.fields d hd)) hfirst,
        hn.2.2.2.2.walk (fun m hm => Method.leads (hp.methods m hm) (hflat m hm)) hsecond⟩)
  have externs : ∀ e ∈ p.externs, t.Leads line e.id [e.id] :=
    fun e _ => (Tree.leads_nil e.id).self
  rw [order, List.map_eq_flatMap]
  exact Tree.leads_sides (hp.root.imp fun n hn first second hfirst hsecond =>
    ⟨hn.2.2.1.walk externs hfirst, package.self.walk (hn.2.2.2 ▸ hsecond)⟩)

end OneLine

/-! ### The check -/

namespace CompilationUnit

variable {u : CompilationUnit} {p : Program}

/-- The line of a node. -/
def line (u : CompilationUnit) (id : NodeId) : Nat := (u.tree.position id).line

/-- **Reports are in the order of the lines** if the nodes are, and if none of the expressions of
the program is spread over several lines, nor the statement that it belongs to. -/
theorem pairwise_line_of_check (h : u.Holds p) {ids : List NodeId} (hwalk : u.tree.Walk u.root ids)
    (hlines : (ids.map u.line).Pairwise (· ≤ ·)) (hflat : ∀ lump ∈ p.lumps, Flat u.line lump) :
    ∃ found checked, u.check = .ok (found, checked) ∧
      (found.map fun d => d.position.line).Pairwise (· ≤ ·) := by
  refine ⟨_, _, check_eq h, ?_⟩
  rw [h.root] at hwalk
  have ordered : (p.order.map u.line).Pairwise (· ≤ ·) :=
    ((p.leads h.held hflat).walk hwalk).pairwise Nat.le_refl hlines
  have blamed := ordered.sublist (p.blamed_sublist.map u.line)
  rw [Event.blamed, List.map_map] at blamed
  rw [List.map_map]
  exact blamed

/-! ### A program -/

/-- A program in which a name is called that is not declared, with an argument that is not
declared. -/
def undeclared : Program where
  id := ⟨0⟩
  externs := []
  package := ⟨1⟩
  name := "P"
  fields := []
  methods := [{
    id := ⟨2⟩
    name := "main"
    ty := .void
    params := []
    body := ⟨3⟩
    locals := []
    statements := [.call ⟨⟨4⟩, "missing", [(⟨5⟩, .plain ⟨6⟩ .read "ghost")]⟩] }]

/-- A unit that holds this program, with the call on the third line and its argument on any. -/
def undeclaredUnit (line : Nat) : CompilationUnit where
  tree := ⟨#[
    { Node.blank .program with second := some ⟨1⟩, position := ⟨1, "p.decaf"⟩ },
    { Node.blank .package with name := some "P", second := some ⟨2⟩, position := ⟨1, "p.decaf"⟩ },
    { Node.blank .methodDecl with
      name := some "main", ty := some .void, second := some ⟨3⟩, position := ⟨2, "p.decaf"⟩ },
    { Node.blank .block with second := some ⟨4⟩, position := ⟨2, "p.decaf"⟩ },
    { Node.blank .call with
      name := some "missing", first := some ⟨5⟩, position := ⟨3, "p.decaf"⟩ },
    { Node.blank .argument with first := some ⟨6⟩, position := ⟨line, "p.decaf"⟩ },
    { Node.blank .reference with name := some "ghost", position := ⟨line, "p.decaf"⟩ }]⟩
  table := .empty
  root := some ⟨0⟩

theorem holds_undeclared (line : Nat) : (undeclaredUnit line).Holds undeclared where
  fresh := rfl
  root := rfl
  held := {
    root := ⟨_, rfl, rfl, rfl, .nil, rfl⟩
    package := ⟨_, rfl, rfl, rfl, rfl, .nil, .cons rfl .nil⟩
    externs := by simp [undeclared]
    fields := by simp [undeclared]
    methods := by
      have call : (undeclaredUnit line).tree.HasStmt
          (.call ⟨⟨4⟩, "missing", [(⟨5⟩, .plain ⟨6⟩ .read "ghost")]⟩) :=
        .call (.call ⟨_, rfl, rfl, rfl, .cons rfl .nil⟩
          (List.forall_mem_singleton.2 ⟨_, rfl, rfl, rfl⟩)
          (List.forall_mem_singleton.2 (.plain ⟨_, rfl, rfl, rfl, rfl⟩)))
      exact List.forall_mem_singleton.2 {
        node := ⟨_, rfl, rfl, rfl, rfl, .nil, rfl⟩
        params := by simp
        block := .block ⟨_, rfl, rfl, .nil, .cons rfl .nil⟩ (by simp)
          (List.forall_mem_singleton.2 call) } }
  alone := by decide
  addressable := by decide

theorem walk_undeclared (line : Nat) : (undeclaredUnit line).tree.Walk (undeclaredUnit line).root
    [⟨0⟩, ⟨1⟩, ⟨2⟩, ⟨3⟩, ⟨4⟩, ⟨5⟩, ⟨6⟩] := by
  have computed : (undeclaredUnit line).tree.walkWithin 7 (undeclaredUnit line).root =
      some [⟨0⟩, ⟨1⟩, ⟨2⟩, ⟨3⟩, ⟨4⟩, ⟨5⟩, ⟨6⟩] := rfl
  exact Tree.walk_of_walkWithin computed

theorem pairwise_line_of_check_undeclared :
    ∃ found checked, (undeclaredUnit 3).check = .ok (found, checked) ∧
      (found.map fun d => d.position.line).Pairwise (· ≤ ·) :=
  pairwise_line_of_check (holds_undeclared 3) (walk_undeclared 3) (by decide) (by decide)

/-- **Reports can be out of the order of the lines.** The lines of the nodes never decrease along
the source, and still the argument on the fourth line is reported before the call on the third. -/
theorem unordered_spread : (undeclaredUnit 4).Holds undeclared ∧
    (undeclaredUnit 4).tree.Walk (undeclaredUnit 4).root
      [⟨0⟩, ⟨1⟩, ⟨2⟩, ⟨3⟩, ⟨4⟩, ⟨5⟩, ⟨6⟩] ∧
    ([⟨0⟩, ⟨1⟩, ⟨2⟩, ⟨3⟩, ⟨4⟩, ⟨5⟩, ⟨6⟩].map (undeclaredUnit 4).line).Pairwise (· ≤ ·) ∧
    ∃ checked, (undeclaredUnit 4).check = .ok ([
        ⟨.undeclaredIdentifier "ghost", ⟨4, "p.decaf"⟩⟩,
        ⟨.undeclaredIdentifier "missing", ⟨3, "p.decaf"⟩⟩], checked) :=
  ⟨holds_undeclared 4, walk_undeclared 4, by decide, _, check_eq (holds_undeclared 4)⟩

end CompilationUnit

end DecafStatics
