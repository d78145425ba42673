import DecafStatics.Proofs.Layout

/-!
# The body of a method in the check of a program

The check of a program comes to the body of each of its methods once. `Check.untilBody` is the part
of the check before, made of the rules that it follows, and `Check.behindBody` the part after. One
after the other, with the visit of the body in between, they are the check of the program.

## Implementation notes

What a method does is cut in two where the body is visited: `Check.enterMethod` hands over what
`Check.leaveMethod` needs, which is the symbol of the method and the frame around it.

The transcript is cut at the same places. The symbol of the method counts as entered before the
body, where it has the size of the header only; what the method needs is recorded after the body.

## Main definitions

* `Check.untilBody`, `Check.behindBody` — the check before and after the body of a method
* `Program.ahead`, `Program.onward` — the transcript before a method and behind it
* `CompilationUnit.ReportsAround` — what is reported before, during and after the visit of a body

## Main results

* `Check.method_eq` — a method is entered, its body is visited, and it is left
* `CompilationUnit.Holds.reportsAround` — what is reported, by the transcript
-/

namespace DecafStatics

namespace Check

/-- Enters a method, as far as its body. -/
def enterMethod (id : NodeId) (n : Node) : Check (Option SymbolId × Frame) := do
  let ty ← declaredType n
  let symbol ← methodName id n ty
  let outer := (← get).frame
  modify fun s => { s with frame := .starting frameHeaderWords }
  openScope
  let parameters ← (← get).tree.siblings n.first
  parameters.forM parameter
  modify fun s => { s with method := some ⟨n.text, ty⟩ }
  return (symbol, outer)

/-- Leaves a method behind its body, given its symbol and the frame around it. -/
def leaveMethod (id : NodeId) (entered : Option SymbolId × Frame) : Check Unit := do
  modify fun s => { s with method := none }
  recordFrame id entered.1 (← get).frame.peak
  discard closeScope
  modify fun s => { s with frame := entered.2 }

/-- A method is entered, its body is visited, and it is left. -/
theorem method_eq (visit : NodeId → Check Unit) (id : NodeId) (n : Node) :
    method visit id n = (do
      let entered ← enterMethod id n
      visitPart visit n.second
      leaveMethod id entered) := by
  simp only [method, methodWith, methodInsideWith, enterMethod, leaveMethod, bind_assoc, pure_bind]

/-- The check of a program up to its methods, and then of some of them. -/
def untilMethod (p : Program) (before : List Method) : Check Unit := do
  eachSibling (← node p.id).first statement
  let n ← node p.package
  packageName p.package n
  eachSibling n.first statement
  (before.map Method.id).forM statement

/-- The check of a program up to the body of the method `m`, which stands behind others. -/
def untilBody (p : Program) (before : List Method) (m : Method) :
    Check (Option SymbolId × Frame) := do
  untilMethod p before
  enterMethod m.id (← node m.id)

/-- The check of a program behind the body of the method `m`, which stands in front of others. -/
def behindBody (m : Method) (after : List Method) (entered : Option SymbolId × Frame) :
    Check Unit := do
  leaveMethod m.id entered
  (after.map Method.id).forM statement

end Check

/-! ### The transcript around a method -/

namespace Method

/-- What is found out about a method before its body is visited. -/
def entering (c : Context) (m : Method) : List Event :=
  c.declaring m.id (m.symbol c frameHeaderWords) ++
    (m.scope c).along Param.events Param.next m.params

/-- What is reported about a method is reported before its body is visited or meanwhile. -/
theorem complaints_events (c : Context) (m : Method) : Event.complaints (m.events c) =
    Event.complaints (m.entering c) ++ Event.complaints (m.block.events (m.within c)) := by
  have named : ∀ words, Event.complaints (c.declaring m.id (m.symbol c words)) =
      if c.Taken m.name then [(.duplicateDeclaration m.name c.level, m.id)] else [] := by
    intro words
    by_cases taken : c.Taken m.name
    · rw [Context.declaring_of_taken (show c.Taken (m.symbol c words).name from taken),
        if_pos taken]
      rfl
    · rw [Context.declaring_of_not_taken (show ¬ c.Taken (m.symbol c words).name from taken),
        if_neg taken]
      rfl
  have sized : Event.complaints [.size m.id (m.words c)] = [] := rfl
  simp only [events, entering, inside, Event.complaints_append, named, sized, List.append_nil,
    List.append_assoc]

end Method

namespace Program

variable {p : Program} {before after : List Method} {m : Method}

/-- What is found out in a program before the method behind these others. -/
def ahead (p : Program) (before : List Method) : List Event :=
  p.preamble ++ p.afterFields.along Method.events Method.next before

/-- The context in which the method behind these others is checked. -/
def reaching (p : Program) (before : List Method) : Context :=
  before.foldl Method.next p.afterFields

/-- What is found out in a program behind the method `m`, in front of which there are others. -/
def onward (p : Program) (before : List Method) (m : Method) (after : List Method) : List Event :=
  (m.next (p.reaching before)).along Method.events Method.next after

theorem events_around (h : p.methods = before ++ m :: after) : p.events =
    p.ahead before ++ (m.events (p.reaching before) ++ p.onward before m after) := by
  rw [events_eq_preamble, h, Context.along_append, Context.along, ahead, onward, reaching,
    List.append_assoc]

theorem afterMethods_around (h : p.methods = before ++ m :: after) :
    p.afterMethods = after.foldl Method.next (m.next (p.reaching before)) := by
  rw [afterMethods, h, List.foldl_append, List.foldl_cons, reaching]

end Program

/-! ### Playing the two parts -/

namespace Check

variable {t : Tree} {s : Checker} {c : Context} {m : Method}

/-- Entering a method. -/
theorem plays_enterMethod (hm : t.HasMethod m) (hs : s.Stands t c)
    (hroom : (m.scope c).Roomy m.params.length) :
    Plays t s (node m.id >>= enterMethod m.id)
      (if c.Taken m.name then none else some ⟨c.count⟩, c.frame) (m.entering c) (m.within c) := by
  obtain ⟨n, hn, -, htext, hty, hlinked, -⟩ := (hm.of_bare_eq hs.text).node
  have hlinked := hlinked.of_bare_eq hs.text.symm
  have scope : ({ c.declare m.id (m.symbol c frameHeaderWords) m.formals with
      level := (c.declare m.id (m.symbol c frameHeaderWords) m.formals).level + 1
      frame := .starting frameHeaderWords } : Context) = m.scope c := by
    rw [Context.level_declare]
    rfl
  refine .node hn (.lift (declaredType_eq hty) ?_)
  refine (plays_methodName hm hs htext hlinked).bind fun s₁ _ hs₁ => .get ?_
  have outer : s₁.frame = c.frame := hs₁.frame_eq.trans Context.frame_declare
  have opened := plays_openFrame hs₁ (.starting frameHeaderWords)
  rw [scope] at opened
  rw [outer, ← bind_assoc]
  refine Plays.congr (opened.bind fun s₂ _ hs₂ => .get (.lift
    (Tree.siblings_eq_ok_iff.2 (hlinked.of_bare_eq hs₂.text)) ?_)) (List.nil_append _)
  have params := plays_parameters (J := fun _ => True) (k := 0) (fun _ _ _ => trivial) hs₂ trivial
    hroom fun param hp s c hs _ hroom => plays_parameter hs (hm.params param hp) hroom
  refine Plays.congr (params.bind fun s₃ _ hs₃ => ?_) (List.append_nil _)
  have entered : Plays t s₃ (modify fun s => { s with method := some ⟨n.text, m.ty⟩ }) ⟨⟩ []
      (m.within c) := by
    rw [htext]
    refine plays_modify hs₃ ?_ (hs₃.sound.congr rfl (Nat.le_refl _)) rfl fun b hb => hb
    conv => lhs; rw [← hs₃.seated]
    rfl
  exact Plays.congr (entered.bind fun s₄ _ hs₄ => plays_pure hs₄ _) (List.append_nil [])

/-- What is left of the check of a method where its body was visited. -/
theorem run_leaveMethod (hm : t.HasMethod m) (hs : s.Stands t c) {depth : Nat}
    {entered : Option SymbolId × Frame} {s₁ s₂ s₃ : Checker}
    (henter : (node m.id >>= enterMethod m.id).run s = .ok (entered, s₁))
    (hbody : (statementWithin depth m.body).run s₁ = .ok ((), s₂))
    (hmethod : (statementWithin (depth + 1) m.id).run s = .ok ((), s₃)) :
    (leaveMethod m.id entered).run s₂ = .ok ((), s₃) := by
  obtain ⟨n, hn, hkind, -, -, -, hsecond⟩ := (hm.of_bare_eq hs.text).node
  have hnode : (node m.id).run s = .ok (n, s) := run_node_eq_ok_iff.2 ⟨hn, rfl⟩
  rw [run_bind_of_ok hnode] at henter
  have rule : visitByKind (statementWithin depth) m.id n =
      method (statementWithin depth) m.id n := by
    simp only [visitByKind, hkind]
  rw [statementWithin, run_bind_of_ok hnode, rule, method_eq, run_bind_of_ok henter, hsecond,
    visitPart, run_bind_of_ok hbody] at hmethod
  exact hmethod

/-- Visits go as deep as the tree has nodes. -/
theorem plays_statement (hs : s.Stands t c) {id : NodeId} {es : List Event} {c₁ : Context}
    (h : Plays t s (statementWithin (t.size + 1) id) () es c₁) :
    Plays t s (statement id) () es c₁ :=
  .get (by rwa [hs.size_eq])

end Check

namespace CompilationUnit

/-- What is said about a program where `es` was found out. -/
def reports (u : CompilationUnit) (es : List Event) : List Diagnostic :=
  (Event.complaints es).map fun e => ⟨e.1, u.tree.position e.2⟩

/-- The unit behind the check of a program that it holds. -/
def checked (u : CompilationUnit) (p : Program) : CompilationUnit :=
  { u with
    tree := u.tree.annotate p.events
    table := ⟨(Event.declared p.events).toArray, p.afterMethods.bindings.map Binding.id, 0⟩ }

/-- The check of a program reports `ahead` before it comes to the body of the method `m`, then
`inside` while it visits the body, and then `behind`. -/
def ReportsAround (u : CompilationUnit) (p : Program) (before : List Method) (m : Method)
    (after : List Method) (ahead inside behind : List Diagnostic) : Prop :=
  ∃ entered s₁ s₂ s₃,
    (Check.untilBody p before m).run (.start u.tree u.table) = .ok (entered, s₁) ∧
    (Check.statement m.body).run s₁ = .ok ((), s₂) ∧
    (Check.behindBody m after entered).run s₂ = .ok ((), s₃) ∧
    (Check.statements u.root).run (.start u.tree u.table) = .ok ((), s₃) ∧
    s₁.diagnostics.toList = ahead ∧ s₂.diagnostics.toList = ahead ++ inside ∧
    s₃.diagnostics.toList = ahead ++ inside ++ behind

variable {u : CompilationUnit} {p : Program} {before after : List Method} {m : Method}

@[simp] theorem reports_append (es fs : List Event) :
    u.reports (es ++ fs) = u.reports es ++ u.reports fs := by
  simp [reports]

/-- What is reported about a program, around the body of one of its methods. -/
theorem reports_events (hsplit : p.methods = before ++ m :: after) : u.reports p.events =
    u.reports (p.ahead before ++ m.entering (p.reaching before)) ++
      u.reports (m.block.events (m.within (p.reaching before))) ++
        u.reports (p.onward before m after) := by
  rw [Program.events_around hsplit]
  simp only [reports, Event.complaints_append, Method.complaints_events, List.map_append,
    List.append_assoc]

theorem diagnostics_play_start (es : List Event) (c : Context) :
    (((Checker.start u.tree u.table).play es).seat c).diagnostics.toList = u.reports es := by
  simp [Checker.play, Checker.seat, Checker.start, reports]

namespace Holds

/-- What the check of a program gives, by names. -/
theorem check_eq (h : u.Holds p) : u.check = .ok (u.reports p.events, u.checked p) :=
  CompilationUnit.check_eq h

/-- Each method has its nodes in one place each, no more than there can be. -/
theorem alone_method (h : u.Holds p) (hm : m ∈ p.methods) :
    m.ids.Nodup ∧ m.ids.length ≤ u.tree.size ∧ m.ids.length ≤ maxHandles := by
  have part : m.ids.Sublist p.ids := by
    have methods : (p.methods.flatMap Method.ids).Sublist p.ids :=
      (((List.sublist_append_right ..).cons p.package).trans (List.sublist_append_right ..)).cons
        p.id
    exact (sublist_flatMap_of_mem hm).trans methods
  exact ⟨part.nodup h.alone,
    Nat.le_trans part.length_le (Tree.length_le_of_nodup_handles h.alone h.held.lt_size),
    Nat.le_trans part.length_le (Tree.length_le_of_nodup_handles h.alone h.addressable)⟩

/-- Some of the methods, one after the other. -/
theorem plays_methods (h : u.Holds p) {methods : List Method} (hm : ∀ m ∈ methods, m ∈ p.methods)
    {s : Checker} {c : Context} (hs : s.Stands u.tree c) :
    Check.Plays u.tree s ((methods.map Method.id).forM Check.statement) ⟨⟩
      (c.along Method.events Method.next methods) (methods.foldl Method.next c) := by
  refine Check.plays_each (fun m hmem s c hs => ?_) hs
  obtain ⟨hd, hsize, hhandles⟩ := h.alone_method (hm m hmem)
  exact Check.plays_statement hs (Check.plays_method (h.held.methods m (hm m hmem)) hs hd
    (Nat.le_succ_of_le hsize) hsize (Check.roomy_scope hhandles))

/-- The fields fit into the storage of the package. -/
theorem roomy_fields (h : u.Holds p) : p.afterName.Roomy (p.fields.length + 0) := by
  have handles := Tree.length_le_of_nodup_handles h.alone h.addressable
  have fields := VarDecl.length_le_length_ids p.fields
  simp only [Program.ids, List.length_cons, List.length_append] at handles
  exact Check.roomy_named (Check.frame_externs p.externs .start) (by omega)

/-- The check up to a method. -/
theorem plays_untilMethod (h : u.Holds p) (hbefore : ∀ m ∈ before, m ∈ p.methods) :
    Check.Plays u.tree (.start u.tree u.table) (Check.untilMethod p before) () (p.ahead before)
      (p.reaching before) := by
  have parts : p.ahead before = Context.start.along Extern.events Extern.next p.externs ++
      (p.afterExterns.declaring p.package (p.symbol p.afterExterns) ++
        (p.afterName.along VarDecl.events VarDecl.next p.fields ++
          p.afterFields.along Method.events Method.next before)) := by
    simp only [Program.ahead, Program.preamble, List.append_assoc]
  rw [parts]
  obtain ⟨n, hn, -, -, hexterns, -⟩ := h.held.root
  refine .node hn ?_
  have each : Check.Plays u.tree (.start u.tree u.table)
      ((p.externs.map Extern.id).forM Check.statement) _ _ _ :=
    Check.plays_each (fun e he s c hs =>
      Check.plays_statement hs (Check.plays_externDecl hs (h.held.externs e he) _)) h.stands
  have externs := Check.plays_chain h.stands hexterns each
  refine externs.bind fun s₁ _ hs₁ => ?_
  obtain ⟨n, hn, -, htext, -, hfields, -⟩ := (h.held.of_bare_eq hs₁.text).package
  have hfields := hfields.of_bare_eq hs₁.text.symm
  have named := Check.plays_packageName (n := n) hs₁ h.held.package.lt_size
  rw [htext] at named
  refine .node hn (named.bind fun s₂ _ hs₂ => ?_)
  have fields := Check.plays_locals (I := fun _ => True) (fun _ _ _ => trivial) hs₂ trivial hfields
    h.roomy_fields fun d hd s c hs _ hroom =>
      Check.plays_statement hs (Check.plays_variableDecl hs (h.held.fields d hd) hroom _)
  exact fields.bind fun s₃ _ hs₃ => h.plays_methods hbefore hs₃

/-- **What is reported around the body of a method** is what its transcript says. -/
theorem reportsAround (h : u.Holds p) (hsplit : p.methods = before ++ m :: after) :
    u.ReportsAround p before m after
      (u.reports (p.ahead before ++ m.entering (p.reaching before)))
      (u.reports (m.block.events (m.within (p.reaching before))))
      (u.reports (p.onward before m after)) := by
  have hm : m ∈ p.methods := by simp [hsplit]
  have held := h.held.methods m hm
  obtain ⟨hd, hsize, hhandles⟩ := h.alone_method hm
  obtain ⟨-, hblock, -⟩ := List.nodup_append.1 hd.tail
  have split : m.ids.length = m.params.length + m.block.ids.length + 1 := by
    simp [Method.ids]
  have hbefore : ∀ k ∈ before, k ∈ p.methods := by simp +contextual [hsplit]
  have hafter : ∀ k ∈ after, k ∈ p.methods := by simp +contextual [hsplit]
  have reached := h.plays_untilMethod hbefore
  have entered := Check.plays_enterMethod held reached.stands (Check.roomy_scope (by omega))
  have body : ∀ {depth : Nat}, m.block.ids.length ≤ depth → _ := fun hdepth =>
    Check.plays_statementWithin entered.stands held.block hblock hdepth (by omega)
      (Check.roomy_within (Check.roomy_scope (by omega)))
  have visited := Check.plays_statement entered.stands (body (by omega))
  have whole := Check.plays_method held reached.stands hd (Nat.le_succ_of_le hsize) hsize
    (Check.roomy_scope hhandles)
  have left := Check.run_leaveMethod held reached.stands entered.run (body (by omega)).run whole.run
  have rest : Check.Plays u.tree _ _ _ (p.onward before m after) _ :=
    h.plays_methods hafter whole.stands
  refine ⟨_, _, _, _, (Check.run_bind_of_ok reached.run).trans entered.run, visited.run,
    (Check.run_bind_of_ok left).trans rest.run, ?_, ?_, ?_, ?_⟩
  · rw [h.plays.run]
    simp only [Checker.seat_play_append, List.append_assoc]
    rw [Program.events_around hsplit, Program.afterMethods_around hsplit]
  · rw [Checker.seat_play_append, diagnostics_play_start]
  · rw [Checker.seat_play_append, Checker.seat_play_append, diagnostics_play_start,
      ← List.append_assoc, reports_append]
  · rw [Checker.seat_play_append, Checker.seat_play_append, diagnostics_play_start,
      ← Program.events_around hsplit, reports_events hsplit]

end Holds

end CompilationUnit

end DecafStatics
