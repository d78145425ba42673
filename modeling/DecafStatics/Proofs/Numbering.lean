import DecafStatics.Proofs.Programs
import DecafStatics.Proofs.Scoping

/-!
# What becomes of a node

The symbol that a node is left with, and the entry that a symbol is left with, read off the
transcript of a program.

## Implementation notes

Each node of a program is the site of at most one event that settles its symbol: a declaration, a
link, or the complaint that a name is not declared. This is where it matters that no node stands in
two places. The events of an expression are not in the order of its nodes, so it is proved by
counting.

Symbols are numbered in the order of their declaration, which is their place in the table.

## Main definitions

* `Event.uses`, `Event.sites` — what became of names, and the nodes whose symbol is settled
* `Event.Numbered` — symbols have consecutive numbers

## Main results

* `Program.nodup_sites`, `Program.numbered_events` — no node is settled twice, no number given twice
* `Stmt.node_mem_ids`, `Method.node_mem_ids` — the events of a construct are about its own nodes
* `CompilationUnit.Holds.symbol_of_link`, `CompilationUnit.Holds.entry_of_declare` — what is found
  in the tree and in the table after a check
-/

namespace DecafStatics

/-! ### What becomes of names -/

/-- What becomes of a name: the symbol that it denotes, or the name itself if there is none. -/
def Env.outcome (Γ : Env) (name : String) : Except String SymbolId :=
  match Γ name with
  | none => .error name
  | some b => .ok b.id

namespace Event

/-- What the event says that became of a name in use. -/
def use? : Event → Option (NodeId × Except String SymbolId)
  | link id symbol => some (id, .ok symbol)
  | complain (.undeclaredIdentifier name) id => some (id, .error name)
  | _ => none

/-- The node whose symbol the event settles. -/
def site? : Event → Option NodeId
  | declare id _ _ => some id
  | e => e.use?.map Prod.fst

/-- What became of the names in use, in the order in which they were looked up. -/
def uses (es : List Event) : List (NodeId × Except String SymbolId) := es.filterMap use?

/-- The nodes whose symbol is settled, in the order in which that happened. -/
def sites (es : List Event) : List NodeId := es.filterMap site?

@[simp] theorem uses_nil : uses [] = [] := rfl

@[simp] theorem sites_nil : sites [] = [] := rfl

@[simp] theorem uses_cons (e : Event) (es : List Event) :
    uses (e :: es) = e.use?.toList ++ uses es := by
  cases h : e.use? <;> simp [uses, h]

@[simp] theorem sites_cons (e : Event) (es : List Event) :
    sites (e :: es) = e.site?.toList ++ sites es := by
  cases h : e.site? <;> simp [sites, h]

@[simp] theorem uses_append (es fs : List Event) : uses (es ++ fs) = uses es ++ uses fs :=
  List.filterMap_append

@[simp] theorem sites_append (es fs : List Event) : sites (es ++ fs) = sites es ++ sites fs :=
  List.filterMap_append

/-- Where nothing is declared, the sites are those of the names in use. -/
theorem sites_of_declared_eq_nil {es : List Event} (h : declared es = []) :
    sites es = (uses es).map Prod.fst := by
  induction es with
  | nil => rfl
  | cons e es ih =>
    rw [declared_cons, List.append_eq_nil_iff] at h
    rw [sites_cons, uses_cons, ih h.2]
    cases e with
    | declare => simp [symbol?] at h
    | complain problem id => cases problem <;> rfl
    | type | link | size => rfl

end Event

section Uses

variable {Γ : Env} {id : NodeId} {name : String}

@[simp] theorem uses_mismatch (wanted : Ty) (received : Option Ty) :
    Event.uses (mismatch wanted received id) = [] := by
  unfold mismatch
  split
  · rfl
  · split <;> rfl

@[simp] theorem uses_typing (ty : Option Ty) : Event.uses (typing id ty) = [] := by
  cases ty <;> rfl

@[simp] theorem uses_misuse (b : Binding) (used : SymbolKind) :
    Event.uses (misuse name b used id) = [] := by
  rw [misuse]
  split <;> rfl

@[simp] theorem uses_misfit (b : Binding) (types : List (Option Ty)) :
    Event.uses (misfit name b types id) = [] := by
  rw [misfit]
  split <;> rfl

theorem uses_reference {judge : Binding → List Event} (h : ∀ b, Event.uses (judge b) = []) :
    Event.uses (reference Γ id name judge) = [(id, Γ.outcome name)] := by
  rw [reference, Env.outcome]
  cases Γ name with
  | none => rfl
  | some b => simp [Event.use?, h]

theorem uses_elim {ty : Option Ty} {judge : Ty → List Event}
    (h : ∀ ty, Event.uses (judge ty) = []) : Event.uses (ty.elim [] judge) = [] := by
  cases ty with
  | none => rfl
  | some ty => exact h ty

/-- What becomes of the names in an expression. -/
theorem Expr.uses_findings (e : Expr) :
    Event.uses (e.findings Γ) = e.names.map fun use => (use.1, Γ.outcome use.2) := by
  induction e with
  | literal l => rfl
  | plain id access name => exact uses_reference fun b => by simp
  | element id access name index ih =>
    rw [findings_element, Event.uses_append, uses_reference fun b => by simp]
    simp [events, ih, names]
  | unary id op arity operand ih =>
    rw [findings_unary, Event.uses_append, uses_elim fun ty => by simp]
    simp [events, ih, names]
  | binary id op arity left right ihl ihr =>
    rw [findings_binary, Event.uses_append, uses_elim fun ty => by simp]
    simp [events, ihl, ihr, names]
  | call id name arguments ih =>
    have rest : Event.uses (argumentEvents Γ arguments) =
        (argumentNames arguments).map fun use => (use.1, Γ.outcome use.2) := by
      induction arguments with
      | nil => rfl
      | cons a rest ihr =>
        obtain ⟨ha, hrest⟩ := List.forall_mem_cons.1 ih
        simp [argumentEvents, argumentNames, ha, ihr hrest]
    rw [findings, Event.uses_append, uses_reference, rest]
    · simp [names]
    · intro b
      split
      · exact uses_misfit ..
      · rfl

@[simp] theorem Expr.uses_events (e : Expr) :
    Event.uses (e.events Γ) = e.names.map fun use => (use.1, Γ.outcome use.2) := by
  simp [events, uses_findings]

theorem Expr.count_sites_le (Γ : Env) (id : NodeId) (e : Expr) :
    (Event.sites (e.events Γ)).count id ≤ e.ids.count id := by
  have names := e.count_names_le id
  rw [Event.sites_of_declared_eq_nil (Expr.declared_events e), uses_events, List.map_map]
  exact names

end Uses

/-! ### No node is settled twice -/

section Sites

variable {c : Context}

@[simp] theorem sites_mismatch (wanted : Ty) (received : Option Ty) (id : NodeId) :
    Event.sites (mismatch wanted received id) = [] := by
  rw [Event.sites_of_declared_eq_nil (declared_mismatch ..), uses_mismatch]
  rfl

theorem Context.count_sites_declaring_le (id node : NodeId) (symbol : Symbol) :
    (Event.sites (c.declaring node symbol)).count id ≤ [node].count id := by
  by_cases h : c.Taken symbol.name
  · rw [declaring_of_taken h]
    exact Nat.zero_le _
  · rw [declaring_of_not_taken h]
    exact Nat.le_refl _

theorem Context.count_sites_along_le {α : Type} (events : Context → α → List Event)
    (next : Context → α → Context) (ids : α → List NodeId) (id : NodeId) {l : List α}
    (h : ∀ a ∈ l, ∀ c, (Event.sites (events c a)).count id ≤ (ids a).count id) (c : Context) :
    (Event.sites (c.along events next l)).count id ≤ (l.flatMap ids).count id := by
  induction l generalizing c with
  | nil => exact Nat.le_refl 0
  | cons a rest ih =>
    obtain ⟨ha, hrest⟩ := List.forall_mem_cons.1 h
    have first := ha c
    have others := ih hrest (next c a)
    simp only [along, Event.sites_append, List.flatMap_cons, List.count_append]
    omega

theorem VarDecl.count_sites_le (id : NodeId) (c : Context) (d : VarDecl) :
    (Event.sites (d.events c)).count id ≤ d.ids.count id := by
  have shape : Event.sites (d.shape.events d.ty) = [] := by
    cases d.shape with
    | scalar => rfl
    | array => rfl
    | initialized value => simp [Shape.events, Event.site?, Event.use?]
  have bound : [d.id].count id ≤ d.ids.count id := by simp [ids, List.count_cons]
  have invalid : ∀ {problem : Problem}, Check.variableShape d.name d.shape.length = .error problem →
      Event.site? (.complain problem d.id) = none := by
    intro problem h
    unfold Check.variableShape at h
    split at h
    · cases h
    · split at h
      · cases h
        rfl
      · cases h
  rw [events]
  split
  · rename_i h
    simp [invalid h]
  · simp only [Event.sites_append, shape, List.append_nil, Context.storing, Event.sites_cons]
    exact Nat.le_trans (Context.count_sites_declaring_le id d.id _) bound

theorem Param.count_sites_le (id : NodeId) (c : Context) (param : Param) :
    (Event.sites (param.events c)).count id ≤ [param.id].count id :=
  Context.count_sites_declaring_le id param.id _

theorem Extern.count_sites_le (id : NodeId) (c : Context) (e : Extern) :
    (Event.sites (e.events c)).count id ≤ e.ids.count id := by
  refine Nat.le_trans (Context.count_sites_declaring_le id e.id _) ?_
  simp [ids, List.count_cons]

@[simp] theorem sites_conditionEvents (Γ : Env) (e : Expr) :
    Event.sites (conditionEvents Γ e) = Event.sites (e.events Γ) := by
  simp [conditionEvents]

@[simp] theorem uses_conditionEvents (Γ : Env) (e : Expr) :
    Event.uses (conditionEvents Γ e) = Event.uses (e.events Γ) := by
  simp [conditionEvents]

/-- How the value of a return is judged says nothing of names. -/
theorem uses_returnEvents (c : Context) (id : NodeId) (value : Option Expr) :
    Event.uses (returnEvents c id value) =
      value.toList.flatMap fun e => Event.uses (e.events c.find?) := by
  rw [returnEvents]
  cases c.method with
  | none => cases value <;> simp
  | some enclosing =>
    obtain ⟨name, ty⟩ := enclosing
    cases value <;> cases ty <;> simp [Event.use?]

theorem Stmt.count_sites_le (id : NodeId) (c : Context) (st : Stmt) :
    (Event.sites (st.events c)).count id ≤ st.ids.count id := by
  induction st generalizing c with
  | assignment id' target value =>
    have judged : Event.sites ((target.expr.type c.find?).elim [] fun wanted =>
        mismatch wanted (value.type c.find?) id') = [] := by
      cases target.expr.type c.find? <;> simp
    have left := target.expr.count_sites_le c.find? id
    have right := value.count_sites_le c.find? id
    simp only [events, ids, Event.sites_append, judged, List.append_nil, List.count_append,
      List.count_cons]
    omega
  | call call => exact call.expr.count_sites_le c.find? id
  | ifThen id' branch condition yes ih =>
    have first := condition.count_sites_le c.find? id
    have second := ih c
    simp only [events, ids, Event.sites_append, sites_conditionEvents, List.count_append,
      List.count_cons]
    omega
  | ifElse id' branch condition yes other no ihy ihn =>
    have first := condition.count_sites_le c.find? id
    have second := ihy c
    have third := ihn (c.after (yes.events c))
    simp only [events, ids, Event.sites_append, sites_conditionEvents, List.count_append,
      List.count_cons]
    omega
  | loop id' condition body ih =>
    have first := condition.count_sites_le c.find? id
    have second := ih { c with loops := c.loops + 1 }
    simp only [events, ids, Event.sites_append, sites_conditionEvents, List.count_append,
      List.count_cons]
    omega
  | returnValue id' value =>
    rw [events, Event.sites_of_declared_eq_nil (declared_returnEvents ..), uses_returnEvents]
    cases value with
    | none => simp
    | some e =>
      have names := e.count_names_le id
      simp only [ids, Option.toList_some, List.flatMap_cons, List.flatMap_nil, List.append_nil,
        List.count_cons, Expr.uses_events, List.map_map]
      exact Nat.le_add_right_of_le names
  | jump id' j =>
    rw [events]
    split <;> simp [Event.site?, Event.use?]
  | block id' locals body ih =>
    have first := Context.count_sites_along_le VarDecl.events VarDecl.next VarDecl.ids id
      (fun d _ c => d.count_sites_le id c) c.inner (l := locals)
    have second := Context.count_sites_along_le (fun c st => events c st)
      (fun c st => c.after (st.events c)) ids id (fun st hst c => ih st hst c) (c.locals locals)
    rw [events, bodyEvents_eq, ids, bodyIds_eq]
    simp only [Event.sites_append, List.count_append, List.count_cons]
    omega

theorem Method.count_sites_le (id : NodeId) (c : Context) (m : Method) :
    (Event.sites (m.events c)).count id ≤ m.ids.count id := by
  have named := Context.count_sites_declaring_le (c := c) id m.id (m.symbol c (m.words c))
  have params := Context.count_sites_along_le Param.events Param.next (fun param => [param.id]) id
    (fun param _ c => param.count_sites_le id c) (m.scope c) (l := m.params)
  have body := m.block.count_sites_le id (m.within c)
  have flat : m.params.flatMap (fun param => [param.id]) = m.params.map Param.id :=
    List.map_eq_flatMap.symm
  have sized : Event.sites [.size m.id (m.words c)] = [] := rfl
  rw [flat] at params
  simp only [events, inside, ids, Event.sites_append, sized, List.append_nil, List.count_append,
    List.count_cons, List.count_nil] at *
  omega

theorem Program.count_sites_le (id : NodeId) (p : Program) :
    (Event.sites p.events).count id ≤ p.ids.count id := by
  have externs := Context.count_sites_along_le Extern.events Extern.next Extern.ids id
    (fun e _ c => e.count_sites_le id c) .start (l := p.externs)
  have named := Context.count_sites_declaring_le (c := p.afterExterns) id p.package
    (p.symbol p.afterExterns)
  have fields := Context.count_sites_along_le VarDecl.events VarDecl.next VarDecl.ids id
    (fun d _ c => d.count_sites_le id c) p.afterName (l := p.fields)
  have methods := Context.count_sites_along_le Method.events Method.next Method.ids id
    (fun m _ c => m.count_sites_le id c) p.afterFields (l := p.methods)
  simp only [events, ids, Event.sites_append, List.count_append, List.count_cons,
    List.count_nil] at *
  omega

/-- No node is settled twice. -/
theorem Program.nodup_sites {p : Program} (h : p.ids.Nodup) : (Event.sites p.events).Nodup := by
  rw [List.nodup_iff_count] at h ⊢
  exact fun id => Nat.le_trans (p.count_sites_le id) (h id)

/-- Only nodes of the program are settled. -/
theorem Program.mem_ids_of_mem_sites {p : Program} {id : NodeId} (h : id ∈ Event.sites p.events) :
    id ∈ p.ids := by
  rw [← List.count_pos_iff] at h ⊢
  exact Nat.lt_of_lt_of_le h (p.count_sites_le id)

end Sites

/-! ### Numbers of symbols -/

namespace Event

/-- The symbols that are declared have consecutive numbers from `n` on. -/
def Numbered (n : Nat) (es : List Event) : Prop :=
  ∀ before id number symbol after, es = before ++ declare id number symbol :: after →
    number.index = n + (declared before).length

theorem numbered_of_declared_eq_nil {n : Nat} {es : List Event} (h : declared es = []) :
    Numbered n es := by
  rintro before id number symbol after rfl
  simp [symbol?] at h

theorem Numbered.append {n : Nat} {es fs : List Event} (hes : Numbered n es)
    (hfs : Numbered (n + (declared es).length) fs) : Numbered n (es ++ fs) := by
  intro before id number symbol after h
  rcases List.append_eq_append_iff.1 h with ⟨more, rfl, hmore⟩ | ⟨more, rfl, hmore⟩
  · have := hfs more id number symbol after hmore
    simp only [declared_append, List.length_append]
    omega
  · cases more with
    | nil =>
      have := hfs [] id number symbol after (by simpa using hmore.symm)
      simpa using this
    | cons e more =>
      obtain ⟨rfl, -⟩ := List.cons.inj hmore
      exact hes before id number symbol more rfl

/-- The number of a symbol says where the symbol is. -/
theorem Numbered.getElem? {es : List Event} (h : Numbered 0 es) {id : NodeId} {number : SymbolId}
    {symbol : Symbol} (hmem : declare id number symbol ∈ es) :
    (declared es)[number.index]? = some symbol := by
  obtain ⟨before, after, rfl⟩ := List.append_of_mem hmem
  rw [h before id number symbol after rfl, Nat.zero_add, declared_append,
    List.getElem?_append_right (Nat.le_refl _)]
  simp [symbol?]

end Event

open Event (Numbered)

section Numbers

variable {c : Context}

theorem Context.numbered_declaring (c : Context) (node : NodeId) (symbol : Symbol) :
    Numbered c.count (c.declaring node symbol) := by
  by_cases h : c.Taken symbol.name
  · rw [declaring_of_taken h]
    exact Event.numbered_of_declared_eq_nil rfl
  · rw [declaring_of_not_taken h]
    intro before id number symbol' after heq
    cases before with
    | nil =>
      cases heq
      rfl
    | cons e before => simp at heq

theorem Context.length_declared_declaring (c : Context) (node : NodeId) (symbol : Symbol) :
    (Event.declared (c.declaring node symbol)).length = if c.Taken symbol.name then 0 else 1 := by
  rw [declaring]
  split <;> rfl

theorem Context.numbered_storing (c : Context) (node : NodeId) (name : String) (ty : Ty)
    (kind : SymbolKind) (size : Nat) : Numbered c.count (c.storing node name ty kind size) := by
  have sized : Numbered c.count [.size node size] := Event.numbered_of_declared_eq_nil rfl
  exact sized.append (c.numbered_declaring _ _)

/-- Behind the events of a construct the count goes on. -/
theorem Context.Grows.count_eq {c₁ : Context} {es : List Event} (h : c.Grows es c₁) :
    c₁.count = c.count + (Event.declared es).length := by
  obtain ⟨new, -, rfl⟩ := h
  rfl

theorem Context.numbered_along {α : Type} (events : Context → α → List Event)
    (next : Context → α → Context) {l : List α}
    (h : ∀ a ∈ l, ∀ c, Numbered c.count (events c a) ∧
      (next c a).count = c.count + (Event.declared (events c a)).length) (c : Context) :
    Numbered c.count (c.along events next l) ∧
      (l.foldl next c).count = c.count + (Event.declared (c.along events next l)).length := by
  induction l generalizing c with
  | nil => exact ⟨Event.numbered_of_declared_eq_nil rfl, rfl⟩
  | cons a rest ih =>
    obtain ⟨ha, hrest⟩ := List.forall_mem_cons.1 h
    obtain ⟨first, hnext⟩ := ha c
    obtain ⟨others, hcount⟩ := ih hrest (next c a)
    rw [hnext] at others
    refine ⟨first.append others, ?_⟩
    rw [List.foldl_cons, hcount, hnext, along, Event.declared_append, List.length_append,
      Nat.add_assoc]

theorem VarDecl.numbered (c : Context) (d : VarDecl) : Numbered c.count (d.events c) ∧
    (d.next c).count = c.count + (Event.declared (d.events c)).length := by
  refine ⟨?_, (d.grows c).count_eq⟩
  rw [events]
  split
  · exact Event.numbered_of_declared_eq_nil rfl
  · refine (c.numbered_storing _ _ _ _ _).append ?_
    exact Event.numbered_of_declared_eq_nil (declared_shape ..)

theorem Param.numbered (c : Context) (param : Param) : Numbered c.count (param.events c) ∧
    (param.next c).count = c.count + (Event.declared (param.events c)).length :=
  ⟨c.numbered_storing _ _ _ _ _, (param.grows c).count_eq⟩

theorem Extern.numbered (c : Context) (e : Extern) : Numbered c.count (e.events c) ∧
    (e.next c).count = c.count + (Event.declared (e.events c)).length :=
  ⟨c.numbered_declaring _ _, Context.count_declare⟩

theorem Stmt.numbered (c : Context) (st : Stmt) : Numbered c.count (st.events c) := by
  induction st generalizing c with
  | assignment id target value =>
    refine Event.numbered_of_declared_eq_nil ?_
    rw [events, Event.declared_append, declared_elim fun ty => by simp]
    simp
  | call call => exact Event.numbered_of_declared_eq_nil (Expr.declared_events _)
  | ifThen id branch condition yes ih =>
    refine (Event.numbered_of_declared_eq_nil (declared_conditionEvents ..)).append ?_
    rw [declared_conditionEvents]
    exact ih c
  | ifElse id branch condition yes other no ihy ihn =>
    have first : Numbered c.count (conditionEvents c.find? condition ++ yes.events c) := by
      refine (Event.numbered_of_declared_eq_nil (declared_conditionEvents ..)).append ?_
      rw [declared_conditionEvents]
      exact ihy c
    refine first.append ?_
    rw [Event.declared_append, declared_conditionEvents]
    exact ihn (c.after (yes.events c))
  | loop id condition body ih =>
    refine (Event.numbered_of_declared_eq_nil (declared_conditionEvents ..)).append ?_
    rw [declared_conditionEvents]
    exact ih { c with loops := c.loops + 1 }
  | returnValue id value => exact Event.numbered_of_declared_eq_nil (declared_returnEvents ..)
  | jump id j =>
    refine Event.numbered_of_declared_eq_nil ?_
    rw [events]
    split <;> rfl
  | block id locals body ih =>
    obtain ⟨first, hcount⟩ := Context.numbered_along VarDecl.events VarDecl.next
      (fun d _ c => d.numbered c) c.inner (l := locals)
    have second := (Context.numbered_along (fun c st => events c st)
      (fun c st => c.after (st.events c)) (fun st hst c => ⟨ih st hst c, rfl⟩) (c.locals locals)).1
    rw [show (c.locals locals).count = _ from hcount] at second
    rw [events, bodyEvents_eq]
    exact first.append second

theorem Method.numbered (c : Context) (m : Method) : Numbered c.count (m.events c) ∧
    (m.next c).count = c.count + (Event.declared (m.events c)).length := by
  obtain ⟨params, hcount⟩ := Context.numbered_along Param.events Param.next
    (fun param _ c => param.numbered c) (m.scope c) (l := m.params)
  have body := m.block.numbered (m.within c)
  have scope : (m.scope c).count = c.count +
      (Event.declared (c.declaring m.id (m.symbol c (m.words c)))).length := by
    have named : (m.scope c).count = _ := Context.count_declare
    rw [named, Context.length_declared_declaring, Context.length_declared_declaring]
    rfl
  have within : (m.within c).count = _ := hcount
  have inside : Numbered (m.scope c).count (m.inside c) := by
    refine params.append ?_
    rw [← within]
    exact body
  have sized : ∀ n, Numbered n [.size m.id (m.words c)] := fun n =>
    Event.numbered_of_declared_eq_nil rfl
  rw [scope] at inside
  refine ⟨((c.numbered_declaring _ _).append inside).append (sized _), ?_⟩
  have behind : (m.next c).count =
      (m.within c).count + (Event.declared (m.block.events (m.within c))).length := rfl
  rw [behind, within, scope, events, Method.inside]
  simp [Event.symbol?, Nat.add_assoc]

/-- No number is given twice. -/
theorem Program.numbered_events (p : Program) : Numbered 0 p.events := by
  obtain ⟨externs, hexterns⟩ := Context.numbered_along Extern.events Extern.next
    (fun e _ c => e.numbered c) .start (l := p.externs)
  obtain ⟨fields, hfields⟩ := Context.numbered_along VarDecl.events VarDecl.next
    (fun d _ c => d.numbered c) p.afterName (l := p.fields)
  have methods := (Context.numbered_along Method.events Method.next
    (fun m _ c => m.numbered c) p.afterFields (l := p.methods)).1
  have name := p.afterExterns.numbered_declaring p.package (p.symbol p.afterExterns)
  have afterExterns : p.afterExterns.count = _ := hexterns
  have afterName : p.afterName.count = _ := Context.count_declare
  have afterFields : p.afterFields.count = _ := hfields
  rw [afterFields] at methods
  rw [afterName, afterExterns] at fields methods
  rw [afterExterns] at name
  refine ((externs.append name).append ?_).append ?_
  · simpa [Nat.add_assoc] using fields
  · simpa [Nat.add_assoc] using methods

end Numbers

/-! ### Which nodes the events of a construct are about -/

section Nodes

theorem Context.node_of_mem_declaring {c : Context} {node : NodeId} {symbol : Symbol} {ev : Event}
    (h : ev ∈ c.declaring node symbol) : ev.node = node := by
  rw [declaring] at h
  split at h
  · rw [List.mem_singleton.1 h]
    rfl
  · rw [List.mem_singleton.1 h]
    rfl

theorem Context.node_of_mem_storing {c : Context} {node : NodeId} {name : String} {ty : Ty}
    {kind : SymbolKind} {size : Nat} {ev : Event} (h : ev ∈ c.storing node name ty kind size) :
    ev.node = node := by
  rcases List.mem_cons.1 h with rfl | h
  · rfl
  · exact node_of_mem_declaring h

theorem Context.node_mem_along {α : Type} {events : Context → α → List Event}
    {next : Context → α → Context} {ids : α → List NodeId} {l : List α}
    (h : ∀ a ∈ l, ∀ c, ∀ ev ∈ events c a, ev.node ∈ ids a) (c : Context) :
    ∀ ev ∈ c.along events next l, ev.node ∈ l.flatMap ids := by
  induction l generalizing c with
  | nil => simp [along]
  | cons a rest ih =>
    obtain ⟨ha, hrest⟩ := List.forall_mem_cons.1 h
    intro ev hev
    rw [List.flatMap_cons]
    rcases List.mem_append.1 hev with hev | hev
    · exact List.mem_append_left _ (ha c ev hev)
    · exact List.mem_append_right _ (ih hrest (next c a) ev hev)

theorem VarDecl.node_mem_ids (c : Context) (d : VarDecl) : ∀ ev ∈ d.events c, ev.node ∈ d.ids := by
  intro ev hev
  rw [events] at hev
  split at hev
  · rw [List.mem_singleton.1 hev]
    exact List.mem_cons_self ..
  · rcases List.mem_append.1 hev with hev | hev
    · rw [Context.node_of_mem_storing hev]
      exact List.mem_cons_self ..
    · refine List.mem_cons_of_mem _ (List.mem_append_right _ ?_)
      cases hshape : d.shape with
      | scalar | array => simp [hshape, Shape.events] at hev
      | initialized value =>
        rw [hshape] at hev
        rcases List.mem_cons.1 hev with rfl | hev
        · exact List.mem_singleton_self value.id
        · rw [node_of_mem_mismatch hev]
          exact List.mem_singleton_self value.id

theorem node_mem_of_mem_conditionEvents {Γ : Env} {e : Expr} {ev : Event}
    (h : ev ∈ conditionEvents Γ e) : ev.node ∈ e.ids := by
  rcases List.mem_append.1 h with h | h
  · exact e.node_mem_ids ev h
  · rw [node_of_mem_mismatch h]
    exact e.id_mem_ids

theorem node_mem_of_mem_returnEvents {c : Context} {id : NodeId} {value : Option Expr} {ev : Event}
    (h : ev ∈ returnEvents c id value) : ev.node ∈ id :: value.toList.flatMap Expr.ids := by
  rcases List.mem_append.1 h with h | h
  · cases value with
    | none => cases h
    | some e => simp [e.node_mem_ids ev h]
  · suffices ev.node = id by simp [this]
    split at h
    · cases h
    · split at h
      · cases h
      · rw [List.mem_singleton.1 h]
        rfl
      · rw [List.mem_singleton.1 h]
        rfl
      · exact node_of_mem_mismatch h

/-- The events of a statement are about its own nodes. -/
theorem Stmt.node_mem_ids (c : Context) (st : Stmt) : ∀ ev ∈ st.events c, ev.node ∈ st.ids := by
  induction st generalizing c with
  | assignment id target value =>
    intro ev hev
    rcases List.mem_append.1 hev with hev | hev
    · rcases List.mem_append.1 hev with hev | hev
      · simp [ids, target.expr.node_mem_ids ev hev]
      · simp [ids, value.node_mem_ids ev hev]
    · refine node_mem_of_mem_elim (fun wanted ev hev => ?_) hev
      simp [ids, node_of_mem_mismatch hev]
  | call call => exact call.expr.node_mem_ids
  | ifThen id branch condition yes ih =>
    intro ev hev
    rcases List.mem_append.1 hev with hev | hev
    · simp [ids, node_mem_of_mem_conditionEvents hev]
    · simp [ids, ih c ev hev]
  | ifElse id branch condition yes other no ihy ihn =>
    intro ev hev
    rcases List.mem_append.1 hev with hev | hev
    · rcases List.mem_append.1 hev with hev | hev
      · simp [ids, node_mem_of_mem_conditionEvents hev]
      · simp [ids, ihy c ev hev]
    · simp [ids, ihn _ ev hev]
  | loop id condition body ih =>
    intro ev hev
    rcases List.mem_append.1 hev with hev | hev
    · simp [ids, node_mem_of_mem_conditionEvents hev]
    · simp [ids, ih _ ev hev]
  | returnValue id value => exact fun ev hev => node_mem_of_mem_returnEvents hev
  | jump id j =>
    intro ev hev
    rw [events] at hev
    split at hev
    · rw [List.mem_singleton.1 hev]
      exact List.mem_singleton_self id
    · cases hev
  | block id locals body ih =>
    intro ev hev
    rw [events, bodyEvents_eq] at hev
    rw [ids, bodyIds_eq]
    refine List.mem_cons_of_mem _ (List.mem_append.2 ?_)
    rcases List.mem_append.1 hev with hev | hev
    · exact .inl (Context.node_mem_along (fun d _ c => d.node_mem_ids c) c.inner ev hev)
    · exact .inr (Context.node_mem_along (fun st hst c => ih st hst c) _ ev hev)

/-- The events of parameters are about the parameters. -/
theorem Param.node_mem_along (c : Context) (params : List Param) :
    ∀ ev ∈ c.along events next params, ev.node ∈ params.map Param.id := by
  rw [List.map_eq_flatMap]
  exact Context.node_mem_along (fun param _ c ev hev => by
    simp [Context.node_of_mem_storing (show ev ∈ c.storing .. from hev)]) c

theorem Method.node_mem_ids (c : Context) (m : Method) : ∀ ev ∈ m.events c, ev.node ∈ m.ids := by
  intro ev hev
  rcases List.mem_append.1 hev with hev | hev
  · rcases List.mem_append.1 hev with hev | hev
    · simp [ids, Context.node_of_mem_declaring hev]
    · rcases List.mem_append.1 hev with hev | hev
      · exact List.mem_cons_of_mem _ (List.mem_append_left _ (Param.node_mem_along _ _ ev hev))
      · exact List.mem_cons_of_mem _ (List.mem_append_right _ (m.block.node_mem_ids _ ev hev))
  · rw [List.mem_singleton.1 hev]
    exact List.mem_cons_self ..

end Nodes

/-! ### After a check -/

namespace Node

variable {n : Node} {id : NodeId} {es : List Event}

/-- A node that is no site keeps its symbol. -/
theorem symbol_marked_of_not_mem (h : id ∉ Event.sites es) :
    (n.marked id es).symbol = n.symbol := by
  induction es generalizing n with
  | nil => rfl
  | cons e es ih =>
    rw [Event.sites_cons, List.mem_append, not_or] at h
    rw [← List.singleton_append, marked_append, ih h.2]
    by_cases hnode : e.node = id
    · rw [← hnode, marked_self]
      cases e with
      | declare | link => simp [Event.site?, Event.use?, ← hnode, Event.node] at h
      | type | size | complain => rfl
    · rw [marked_of_not_mem (by simpa using hnode)]

/-- A node that is settled once has the symbol of that event, or none if the event gives none. -/
theorem symbol_marked_of_site {e : Event} (hnodup : (Event.sites es).Nodup) (hmem : e ∈ es)
    (he : e.site? = some id) :
    (n.marked id es).symbol = (e.link?.map Prod.snd).or n.symbol := by
  obtain ⟨before, after, rfl⟩ := List.append_of_mem hmem
  have mark : e.node = id ∧ ∀ n, (e.mark n).symbol = (e.link?.map Prod.snd).or n.symbol := by
    cases e with
    | declare | link =>
      cases he
      exact ⟨rfl, fun _ => rfl⟩
    | complain problem =>
      cases problem <;> cases he
      exact ⟨rfl, fun _ => rfl⟩
    | type | size => cases he
  obtain ⟨rfl, hmark⟩ := mark
  rw [Event.sites_append, Event.sites_cons, he, List.nodup_append] at hnodup
  have behind : e.node ∉ Event.sites after := (List.nodup_cons.1 hnodup.2.1).1
  have ahead : e.node ∉ Event.sites before := fun h =>
    hnodup.2.2 e.node h e.node (List.mem_append_left _ (List.mem_singleton_self _)) rfl
  rw [marked_append, ← List.singleton_append, marked_append, symbol_marked_of_not_mem behind,
    marked_self, hmark, symbol_marked_of_not_mem ahead]

/-- The last size that a node is given remains. -/
theorem size_marked {words : Nat} {after : List Event} (h : ∀ e ∈ after, e.node ≠ id) :
    (n.marked id (es ++ .size id words :: after)).size = words := by
  have sized : (n.marked id es).marked id [.size id words] =
      { n.marked id es with size := words } := (n.marked id es).marked_self (.size id words)
  rw [marked_append, ← List.singleton_append, marked_append, marked_of_not_mem h, sized]

end Node

namespace CompilationUnit.Holds

variable {u : CompilationUnit} {p : Program}

/-- What settles a node is found in the tree. -/
theorem symbol_of_site (h : u.Holds p) {e : Event} {id : NodeId} (hmem : e ∈ p.events)
    (he : e.site? = some id) :
    ∃ n, u.tree.node id = .ok n ∧ (u.tree.annotate p.events).Has id fun n' =>
      n'.symbol = (e.link?.map Prod.snd).or n.symbol := by
  have site : id ∈ Event.sites p.events := List.mem_filterMap.2 ⟨e, hmem, he⟩
  obtain ⟨n, hn⟩ := Tree.node_ok_of_lt (h.held.lt_size id (Program.mem_ids_of_mem_sites site))
  exact ⟨n, hn, _, Tree.node_annotate p.events hn,
    Node.symbol_marked_of_site (Program.nodup_sites h.alone) hmem he⟩

/-- A link that is left is found in the tree. -/
theorem symbol_of_link (h : u.Holds p) {e : Event} {id : NodeId} {symbol : SymbolId}
    (hmem : e ∈ p.events) (he : e.link? = some (id, symbol)) :
    (u.tree.annotate p.events).Has id fun n => n.symbol = some symbol := by
  have site : e.site? = some id := by
    cases e with
    | declare | link =>
      cases he
      rfl
    | type | size | complain => cases he
  obtain ⟨n, -, hsymbol⟩ := h.symbol_of_site hmem site
  rwa [he] at hsymbol

/-- A symbol that is declared is found in the table. -/
theorem entry_of_declare (h : u.Holds p) {id : NodeId} {number : SymbolId} {symbol : Symbol}
    (hmem : .declare id number symbol ∈ p.events) :
    (u.tree.annotate p.events).Has id (fun n => n.symbol = some number) ∧
      (Event.declared p.events)[number.index]? = some symbol :=
  ⟨h.symbol_of_link hmem rfl, p.numbered_events.getElem? hmem⟩

/-- What is true of all nodes of the tree is true of those of the program. -/
theorem has_of_forall (h : u.Holds p) {P : Node → Prop} (hall : ∀ n ∈ u.tree.nodes, P n) :
    ∀ id ∈ p.ids, u.tree.Has id P := by
  intro id hid
  obtain ⟨n, hn⟩ := Tree.node_ok_of_lt (h.held.lt_size id hid)
  exact ⟨n, hn, hall n (Array.mem_of_getElem? (Tree.node_eq_ok_iff.1 hn))⟩

end CompilationUnit.Holds

end DecafStatics
