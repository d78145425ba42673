import DecafStatics.Proofs.Findings
import DecafStatics.Proofs.Layout
import DecafStatics.Proofs.Rechecking

/-!
# Sizes do not depend on what is around

Which words of storage a check leaves on the nodes of a program can be read off the program. A
variable is given its size whether or not its name is taken, and a method needs what its parameters
and the variables of its blocks need, wherever it stands.

## Implementation notes

The names that are taken in the global scope are not taken in any scope of a method, since those are
deeper. So the same variables of a method are entered at the same offsets, whatever is in sight
around it, and this is all that the frame of the method depends on.

## Main definitions

* `Event.sizes` — the sizes that events leave on nodes
* `Event.Finding` — the events of expressions, jumps and returns, which are not about storage
* `Stmt.sizes`, `Program.sizes` — the sizes that a check leaves, by the grammar alone

## Main results

* `Method.words_eq_of_opened` — a method needs the same words wherever it stands
* `Program.sizes_eventsFrom` — the sizes that a check leaves do not depend on where it starts
* `Node.size_marked_eq` — the size that is left on a node
-/

namespace DecafStatics

/-! ### Sizes in a transcript -/

namespace Event

/-- The size that the event leaves on a node. -/
def size? : Event → Option (NodeId × Nat)
  | size id words => some (id, words)
  | type .. | link .. | declare .. | complain .. => none

/-- The sizes that are left on nodes, in their order. -/
def sizes (es : List Event) : List (NodeId × Nat) := es.filterMap size?

@[simp] theorem sizes_nil : sizes [] = [] := rfl

@[simp] theorem sizes_cons (e : Event) (es : List Event) :
    sizes (e :: es) = e.size?.toList ++ sizes es := by
  cases h : e.size? <;> simp [sizes, h]

@[simp] theorem sizes_append (es fs : List Event) : sizes (es ++ fs) = sizes es ++ sizes fs :=
  List.filterMap_append

end Event

namespace Node

end Node

/-! ### Findings -/

/-- The event takes up no storage, enters no symbol, and does not complain that a name is taken. Not
only typing leaves events of this sort, but also jumps and returns. -/
def Event.Finding : Event → Prop
  | type .. | link .. => True
  | complain (.duplicateDeclaration ..) _ => False
  | complain .. => True
  | size .. | declare .. => False

theorem Event.sizes_eq_nil {es : List Event} (h : ∀ ev ∈ es, ev.Finding) : sizes es = [] := by
  refine List.filterMap_eq_nil_iff.2 fun ev hev => ?_
  have finding := h ev hev
  cases ev with
  | size => exact finding.elim
  | type | link | declare | complain => rfl

section Findings

variable {Γ : Env} {id : NodeId}

theorem Event.OfTyping.finding {ev : Event} (h : ev.OfTyping) : ev.Finding := by
  cases h <;> trivial

theorem Expr.finding_events (e : Expr) : ∀ ev ∈ e.events Γ, ev.Finding :=
  fun ev hev => (e.ofTyping_events ev hev).finding

theorem finding_conditionEvents (e : Expr) : ∀ ev ∈ conditionEvents Γ e, ev.Finding :=
  fun ev hev => (ofTyping_conditionEvents e ev hev).finding

theorem finding_returnEvents (c : Context) (value : Option Expr) :
    ∀ ev ∈ returnEvents c id value, ev.Finding := by
  intro ev hev
  rcases ofTyping_returnEvents c value ev hev with h | ⟨name, rfl⟩
  · exact h.finding
  · trivial

/-- The findings of a statement that declares nothing itself. -/
theorem finding_assignment (c : Context) (target : Target) (value : Expr) :
    ∀ ev ∈ (Stmt.assignment id target value).events c, ev.Finding :=
  fun ev hev => (ofTyping_assignment c target value ev hev).finding

theorem finding_jump (c : Context) (j : Jump) :
    ∀ ev ∈ (Stmt.jump id j).events c, ev.Finding := by
  rw [Stmt.events]
  split <;> simp [Event.Finding]

theorem finding_shape (ty : Ty) (shape : Shape) : ∀ ev ∈ shape.events ty, ev.Finding :=
  fun ev hev => (ofTyping_shape ty shape ev hev).finding

end Findings

@[simp] theorem Context.sizes_declaring (c : Context) (node : NodeId) (symbol : Symbol) :
    Event.sizes (c.declaring node symbol) = [] := by
  rw [declaring]
  split <;> rfl

/-! ### Sizes by the grammar -/

/-- The size that a variable is given, if it can be declared at all. -/
def VarDecl.sizes (d : VarDecl) : List (NodeId × Nat) :=
  if d.declaration.valid then [(d.id, d.words)] else []

namespace Stmt

mutual

/-- The sizes that the variables of a statement are given. -/
def sizes : Stmt → List (NodeId × Nat)
  | assignment .. | call _ | returnValue .. | jump .. => []
  | ifThen _ _ _ yes => yes.sizes
  | ifElse _ _ _ yes _ no => yes.sizes ++ no.sizes
  | loop _ _ body => body.sizes
  | block _ locals body => locals.flatMap VarDecl.sizes ++ bodySizes body

/-- The sizes that the variables of the statements of a block are given. -/
def bodySizes : List Stmt → List (NodeId × Nat)
  | [] => []
  | st :: rest => st.sizes ++ bodySizes rest

end

theorem bodySizes_eq (body : List Stmt) : bodySizes body = body.flatMap sizes := by
  induction body with
  | nil => rfl
  | cons st rest ih => rw [bodySizes, ih, List.flatMap_cons]

end Stmt

/-- The sizes that a method and all in it are given, where the method needs `words` words. -/
def Method.sizes (words : Nat) (m : Method) : List (NodeId × Nat) :=
  (m.params.map fun param => (param.id, 1)) ++ m.block.sizes ++ [(m.id, words)]

/-- What a method needs where nothing is around it. -/
def Method.need (m : Method) : Nat := m.words .start

/-- The sizes that the nodes of a program are given. -/
def Program.sizes (p : Program) : List (NodeId × Nat) :=
  p.fields.flatMap VarDecl.sizes ++ p.methods.flatMap fun m => m.sizes m.need

theorem Context.sizes_along {α : Type} {events : Context → α → List Event}
    {next : Context → α → Context} {sizes : α → List (NodeId × Nat)} {l : List α}
    (h : ∀ a ∈ l, ∀ c, Event.sizes (events c a) = sizes a) (c : Context) :
    Event.sizes (c.along events next l) = l.flatMap sizes := by
  induction l generalizing c with
  | nil => rfl
  | cons a rest ih =>
    obtain ⟨ha, hrest⟩ := List.forall_mem_cons.1 h
    rw [along, Event.sizes_append, ha, ih hrest, List.flatMap_cons]

/-- A variable that can be declared is as large as its shape says. -/
theorem VarDecl.words_of_ok {d : VarDecl} {kind : SymbolKind} {size : Nat}
    (h : Check.variableShape d.name d.shape.length = .ok (kind, size)) : size = d.words := by
  unfold Check.variableShape at h
  rw [words]
  cases hshape : d.shape with
  | scalar | initialized => simp_all [Shape.length]
  | array id length =>
    simp only [hshape, Shape.length] at h
    split at h
    · cases h
    · cases h
      rfl

theorem VarDecl.sizes_events (c : Context) (d : VarDecl) :
    Event.sizes (d.events c) = d.sizes := by
  rw [events, sizes]
  split
  · rename_i problem hshape
    simp [not_valid_of_error hshape, Event.size?]
  · rename_i kind size hshape
    rw [Event.sizes_append, Event.sizes_eq_nil (finding_shape d.ty d.shape),
      declaration_of_ok hshape, words_of_ok hshape]
    simp [Context.storing, Event.size?]

theorem Param.sizes_events (c : Context) (param : Param) :
    Event.sizes (param.events c) = [(param.id, 1)] := by
  simp [events, Context.storing, Event.size?]

/-- The sizes of the variables of a statement do not depend on where it stands. -/
theorem Stmt.sizes_events (c : Context) (st : Stmt) : Event.sizes (st.events c) = st.sizes := by
  induction st generalizing c with
  | assignment id target value => exact Event.sizes_eq_nil (finding_assignment c target value)
  | call call => exact Event.sizes_eq_nil call.expr.finding_events
  | ifThen id branch condition yes ih =>
    rw [events, Event.sizes_append, Event.sizes_eq_nil (finding_conditionEvents condition), ih]
    rfl
  | ifElse id branch condition yes other no ihy ihn =>
    rw [events, Event.sizes_append, Event.sizes_append,
      Event.sizes_eq_nil (finding_conditionEvents condition), ihy, ihn]
    rfl
  | loop id condition body ih =>
    rw [events, Event.sizes_append, Event.sizes_eq_nil (finding_conditionEvents condition), ih]
    rfl
  | returnValue id value => exact Event.sizes_eq_nil (finding_returnEvents c value)
  | jump id j => exact Event.sizes_eq_nil (finding_jump c j)
  | block id locals body ih =>
    rw [events, bodyEvents_eq, sizes, bodySizes_eq, Event.sizes_append,
      Context.sizes_along (fun d _ c => d.sizes_events c),
      Context.sizes_along (fun st hst c => ih st hst c)]

theorem Method.sizes_events (c : Context) (m : Method) :
    Event.sizes (m.events c) = m.sizes (m.words c) := by
  have params : Event.sizes ((m.scope c).along Param.events Param.next m.params) =
      m.params.map fun param => (param.id, 1) := by
    rw [Context.sizes_along (fun param _ c => param.sizes_events c), List.map_eq_flatMap]
  simp [events, inside, sizes, params, Stmt.sizes_events, Event.size?]

/-! ### Frames -/

/-- Nothing in sight is deeper than either of the two places, and the same words are taken up. -/
structure Context.Level (c c' : Context) : Prop where
  opened : c.Opened
  opened' : c'.Opened
  offset : c.frame.offset = c'.frame.offset

/-- The variables of one scope reach equally far from wherever they start, as long as the same names
are taken and the same words. -/
theorem VarDecl.extent_along {c c' : Context} {current : List Declaration} (h : c.Scoped current)
    (h' : c'.Scoped current) (hoffset : c.frame.offset = c'.frame.offset) (ds : List VarDecl) :
    extent (Event.declared (c.along events next ds)) =
        extent (Event.declared (c'.along events next ds)) ∧
      (ds.foldl next c).Level (ds.foldl next c') := by
  induction ds generalizing c c' current with
  | nil => exact ⟨rfl, h.opened, h'.opened, hoffset⟩
  | cons d rest ih =>
    have same : c.Taken d.name ↔ c'.Taken d.name := by rw [h.taken, h'.taken]
    have first : extent (Event.declared (d.events c)) = extent (Event.declared (d.events c')) ∧
        (d.next c).frame.offset = (d.next c').frame.offset := by
      rw [Event.declared_eq_map_entries, Event.declared_eq_map_entries]
      rcases d.declares c with ⟨hd, e, he, hstart, hsize, hnext⟩ | ⟨hd, he, hnext⟩ <;>
        rcases d.declares c' with ⟨hd', e', he', hstart', hsize', hnext'⟩ | ⟨hd', he', hnext'⟩
      · rw [he, he', hnext, hnext']
        simp [hstart, hstart', hsize, hsize', hoffset]
      · exact absurd ⟨hd.1, mt same.2 hd.2⟩ hd'
      · exact absurd ⟨hd'.1, mt same.1 hd'.2⟩ hd
      · rw [he, he', hnext, hnext']
        exact ⟨rfl, hoffset⟩
    obtain ⟨others, level⟩ := ih (d.scoped_next h) (d.scoped_next h') first.2
    refine ⟨?_, level⟩
    rw [Context.along, Context.along, Event.declared_append, Event.declared_append, extent_append,
      extent_append, first.1, others]

namespace Stmt

theorem extent_bodyEvents {c c' : Context} (h : c.Level c') {body : List Stmt}
    (hbody : ∀ st ∈ body, ∀ c c' : Context, c.Level c' →
      extent (Event.declared (st.events c)) = extent (Event.declared (st.events c'))) :
    extent (Event.declared (bodyEvents c body)) = extent (Event.declared (bodyEvents c' body)) := by
  induction body generalizing c c' with
  | nil => rfl
  | cons st rest ih =>
    obtain ⟨hst, hrest⟩ := List.forall_mem_cons.1 hbody
    have behind : (c.after (st.events c)).Level (c'.after (st.events c')) :=
      ⟨h.opened, h.opened', h.offset⟩
    rw [bodyEvents, bodyEvents, Event.declared_append, Event.declared_append, extent_append,
      extent_append, hst c c' h, ih behind hrest]

/-- The variables of a statement reach equally far wherever it stands. -/
theorem extent_events {c c' : Context} (h : c.Level c') (st : Stmt) :
    extent (Event.declared (st.events c)) = extent (Event.declared (st.events c')) := by
  induction st generalizing c c' with
  | assignment id target value =>
    have quiet : ∀ c : Context, Event.declared ((assignment id target value).events c) = [] := by
      intro c
      rw [events, Event.declared_append, declared_elim fun ty => by simp]
      simp
    rw [quiet, quiet]
  | call call => simp [events]
  | ifThen id branch condition yes ih => simpa [events] using ih h
  | ifElse id branch condition yes other no ihy ihn =>
    have behind : (c.after (yes.events c)).Level (c'.after (yes.events c')) :=
      ⟨h.opened, h.opened', h.offset⟩
    simp [events, extent_append, ihy h, ihn behind]
  | loop id condition body ih =>
    have looping : Context.Level { c with loops := c.loops + 1 }
        { c' with loops := c'.loops + 1 } := ⟨h.opened, h.opened', h.offset⟩
    simpa [events] using ih looping
  | returnValue id value => simp [events]
  | jump id j =>
    have quiet : ∀ c : Context, Event.declared ((jump id j).events c) = [] := by
      intro c
      rw [events]
      split <;> rfl
    rw [quiet, quiet]
  | block id locals body ih =>
    obtain ⟨declared, level⟩ :=
      VarDecl.extent_along h.opened.inner h.opened'.inner h.offset locals
    have rest : extent (Event.declared (bodyEvents (c.locals locals) body)) =
        extent (Event.declared (bodyEvents (c'.locals locals) body)) :=
      extent_bodyEvents level fun st hst c c' h => ih st hst h
    rw [events, events, Event.declared_append, Event.declared_append, extent_append,
      extent_append, declared, rest]

end Stmt

namespace Method

variable {c c' : Context}

theorem extent_inside (h : c.Opened) (h' : c'.Opened) (m : Method) :
    extent (Event.declared (m.inside c)) = extent (Event.declared (m.inside c')) := by
  obtain ⟨params, level⟩ := VarDecl.extent_along (scoped_scope h m) (scoped_scope h' m) rfl
    (m.params.map Param.varDecl)
  rw [← Param.along_eq, ← Param.along_eq] at params
  rw [← Param.foldl_eq, ← Param.foldl_eq] at level
  have within : (m.within c).Level (m.within c') := ⟨level.opened, level.opened', level.offset⟩
  rw [inside, inside, Event.declared_append, Event.declared_append, extent_append, extent_append,
    params, m.block.extent_events within]

/-- **A method needs the same words wherever it stands.** -/
theorem words_eq_of_opened (h : c.Opened) (m : Method) : m.words c = m.need := by
  rw [need, words_eq, words_eq, m.extent_inside h Context.opened_start]

end Method

/-! ### Programs -/

theorem Context.opened_foldl {α : Type} {next : Context → α → Context}
    (step : ∀ (c : Context) (a : α), c.Opened → (next c a).Opened) {c : Context} (h : c.Opened)
    (l : List α) : (l.foldl next c).Opened := by
  induction l generalizing c with
  | nil => exact h
  | cons a rest ih => exact ih (step c a h)

theorem VarDecl.opened_next {c : Context} (h : c.Opened) (d : VarDecl) : (d.next c).Opened := by
  obtain ⟨new, hnew, hnext⟩ := d.grows c
  rw [hnext]
  exact List.forall_mem_append.2 ⟨fun b hb => Nat.le_of_eq (hnew b hb), h⟩

theorem Method.opened_next {c : Context} (h : c.Opened) (m : Method) : (m.next c).Opened :=
  Context.opened_declare h rfl m.formals

theorem Method.sizes_along {c : Context} (h : c.Opened) (methods : List Method) :
    Event.sizes (c.along events next methods) = methods.flatMap fun m => m.sizes m.need := by
  induction methods generalizing c with
  | nil => rfl
  | cons m rest ih =>
    rw [Context.along, Event.sizes_append, sizes_events, words_eq_of_opened h,
      ih (m.opened_next h), List.flatMap_cons]

theorem Program.opened_named {c : Context} (h : c.Opened) (p : Program) : (p.named c).Opened :=
  Context.opened_declare h rfl []

theorem Program.sizes_packageEvents {c : Context} (h : c.Opened) (p : Program) :
    Event.sizes (p.packageEvents c) = p.sizes := by
  have fields := Context.opened_foldl (fun c d h => VarDecl.opened_next h d) (p.opened_named h)
    p.fields
  rw [packageEvents, Event.sizes_append, Event.sizes_append, Context.sizes_declaring,
    Context.sizes_along (fun d _ c => d.sizes_events c), Method.sizes_along fields, List.nil_append,
    sizes]

/-- **The sizes that a check leaves do not depend on where it starts.** -/
theorem Program.sizes_eventsFrom {c : Context} (h : c.Opened) (p : Program) :
    Event.sizes (p.eventsFrom c) = p.sizes := by
  have externs : (p.externs.foldl Extern.next c).Opened :=
    Context.opened_foldl (fun c e h => Context.opened_declare h rfl _) h p.externs
  have quiet : Event.sizes (c.along Extern.events Extern.next p.externs) = [] := by
    have each : ∀ e ∈ p.externs, ∀ c, Event.sizes (Extern.events c e) = [] :=
      fun e _ c => Context.sizes_declaring ..
    rw [Context.sizes_along each]
    exact List.flatMap_eq_nil_iff.2 fun _ _ => rfl
  rw [eventsFrom, Event.sizes_append, quiet, sizes_packageEvents externs, List.nil_append]

/-! ### All sizes are positive -/

theorem VarDecl.words_ne_zero {d : VarDecl} (h : d.declaration.valid = true) : d.words ≠ 0 := by
  rw [declaration] at h
  rw [words]
  cases hshape : d.shape with
  | scalar | initialized => exact Nat.one_ne_zero
  | array id length =>
    rw [hshape] at h
    have positive : (1 : Int32).toInt ≤ length.toInt :=
      Int32.le_iff_toInt_le.1 (of_decide_eq_true h)
    have one : (1 : Int32).toInt = 1 := rfl
    simp only [ne_eq]
    omega

theorem VarDecl.ne_zero_of_mem_sizes (d : VarDecl) : ∀ x ∈ d.sizes, x.2 ≠ 0 := by
  rw [sizes]
  split
  · rename_i valid
    exact List.forall_mem_singleton.2 (words_ne_zero valid)
  · simp

theorem Stmt.ne_zero_of_mem_sizes (st : Stmt) : ∀ x ∈ st.sizes, x.2 ≠ 0 := by
  induction st with
  | assignment | call | returnValue | jump => simp [sizes]
  | ifThen id branch condition yes ih => exact ih
  | ifElse id branch condition yes other no ihy ihn => exact List.forall_mem_append.2 ⟨ihy, ihn⟩
  | loop id condition body ih => exact ih
  | block id locals body ih =>
    rw [sizes, bodySizes_eq]
    exact List.forall_mem_append.2 ⟨List.forall_mem_flatMap.2 fun d _ => d.ne_zero_of_mem_sizes,
      List.forall_mem_flatMap.2 ih⟩

/-- A method needs its header at least. -/
theorem Method.need_ne_zero (m : Method) : m.need ≠ 0 := by
  have header : frameHeaderWords ≤ m.need := by
    rw [need, words_eq]
    exact Nat.le_max_left ..
  rw [frameHeaderWords] at header
  omega

theorem Method.ne_zero_of_mem_sizes (m : Method) : ∀ x ∈ m.sizes m.need, x.2 ≠ 0 := by
  refine List.forall_mem_append.2 ⟨List.forall_mem_append.2 ⟨?_, m.block.ne_zero_of_mem_sizes⟩,
    List.forall_mem_singleton.2 m.need_ne_zero⟩
  exact List.forall_mem_map.2 fun _ _ => Nat.one_ne_zero

/-- Each size that a check leaves on a node is one word at least. -/
theorem Program.ne_zero_of_mem_sizes (p : Program) : ∀ x ∈ p.sizes, x.2 ≠ 0 :=
  List.forall_mem_append.2 ⟨List.forall_mem_flatMap.2 fun d _ => d.ne_zero_of_mem_sizes,
    List.forall_mem_flatMap.2 fun m _ => m.ne_zero_of_mem_sizes⟩

theorem Program.ne_zero_of_mem_sizes_eventsFrom {c : Context} (h : c.Opened) (p : Program) :
    ∀ x ∈ Event.sizes (p.eventsFrom c), x.2 ≠ 0 := by
  rw [sizes_eventsFrom h]
  exact p.ne_zero_of_mem_sizes

end DecafStatics
