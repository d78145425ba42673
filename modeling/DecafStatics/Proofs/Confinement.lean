import DecafStatics.Proofs.MethodBody
import DecafStatics.Proofs.Parallel
import Mathlib.Data.List.Nodup

/-!
# The body of a method is confined

What stands in the body of a method has no say in anything outside of it. Two programs that differ
in the body of one method only are checked, each in a unit of its own. Up to the body the two checks
run in parallel, and behind it they do so again: the frame around the method is back, the names of
the body are out of sight, and all that has changed is how many symbols there have been.

## Implementation notes

The second program is the first one with its nodes renamed and with another method in the place of
`m`. The two bodies may be of any shapes and sizes then, and the nodes around them stand wherever
the trees have them. The size of the method's own symbol tells how many words its body needs, so the
method is set apart when sizes are compared.

A node outside of the body is marked outside of the body, and it has no marks but these. A name that
is in use outside of the body is settled by the transcript outside of it, since the symbols of the
body are not in sight there.

## Main definitions

* `Program.substitute` — a program with another method in the place of one of its methods
* `Program.outside`, `Program.around`, `Program.outerReferences` — the nodes, the transcript and the
  names in use outside of the body of a method
* `CompilationUnit.AgreesOutside` — two checks have found out the same outside of the body

## Main results

* `Program.parallel_around` — the two checks run in parallel before the body and behind it
* `Program.settled_around` — names outside of the body are settled outside of it
* `CompilationUnit.agreesOutside_of_check` — the body of a method is confined
-/

namespace DecafStatics

/-- The second symbol is the first one with the node of its parameters renamed, but for its size. -/
def Symbol.Resembles (ρ : NodeId → NodeId) (e e' : Symbol) : Prop :=
  e' = { e.rename ρ with size := e'.size }

namespace Program

/-- The program with its nodes renamed, and with another method between these. -/
def substitute (ρ : NodeId → NodeId) (p : Program) (before : List Method) (m : Method)
    (after : List Method) : Program :=
  { p.rename ρ with
    methods := before.map (Method.rename ρ) ++ m :: after.map (Method.rename ρ) }

/-- The nodes of a program outside of the body of one of its methods. -/
def outside (p : Program) (before : List Method) (m : Method) (after : List Method) :
    List NodeId :=
  p.id :: (p.externs.flatMap Extern.ids ++
    p.package :: (p.fields.flatMap VarDecl.ids ++ (before.flatMap Method.ids ++
      (m.id :: (m.params.map Param.id ++ after.flatMap Method.ids)))))

variable {ρ : NodeId → NodeId} {p : Program} {before after : List Method} {m m' : Method}

/-! ### Nodes outside of the body -/

theorem perm_ids (hsplit : p.methods = before ++ m :: after) :
    p.ids.Perm (p.outside before m after ++ m.block.ids) := by
  refine List.perm_iff_count.2 fun id => ?_
  simp only [ids, outside, hsplit, Method.ids, List.flatMap_append, List.flatMap_cons,
    List.count_cons, List.count_append]
  omega

/-- Each node of a program is either inside of the body or outside of it. -/
theorem mem_outside_iff (hsplit : p.methods = before ++ m :: after) (h : p.ids.Nodup)
    {id : NodeId} : id ∈ p.outside before m after ↔ id ∈ p.ids ∧ id ∉ m.block.ids := by
  have hperm := perm_ids hsplit
  have hapart := (List.nodup_append.1 (hperm.nodup_iff.1 h)).2.2
  rw [hperm.mem_iff, List.mem_append]
  constructor
  · exact fun hid => ⟨.inl hid, fun hblock => hapart id hid id hblock rfl⟩
  · rintro ⟨hid | hid, hblock⟩
    · exact hid
    · exact absurd hid hblock

/-- Outside of the two bodies the nodes are the same, but renamed. -/
theorem outside_substitute (hm : m.Resembles ρ m') :
    (p.substitute ρ before m' after).outside (before.map (Method.rename ρ)) m'
      (after.map (Method.rename ρ)) = (p.outside before m after).map ρ := by
  have params : m'.params.map Param.id = (m.params.map Param.id).map ρ := by
    simp [hm.params, Param.rename, Function.comp_def]
  simp [outside, substitute, rename, params, hm.id, List.flatMap_map, List.map_flatMap]

/-- No two nodes outside of the body are renamed to the same, nor to a node of the other body. -/
theorem nodup_outside (hm : m.Resembles ρ m')
    (h : (p.substitute ρ before m' after).ids.Nodup) :
    ((p.outside before m after).map ρ ++ m'.block.ids).Nodup := by
  have hperm : (p.substitute ρ before m' after).ids.Perm _ := perm_ids rfl
  rw [outside_substitute hm] at hperm
  exact hperm.nodup_iff.1 h

/-! ### The transcript outside of the body -/

theorem node_mem_preamble (p : Program) : ∀ ev ∈ p.preamble, ev.node ∈
    p.externs.flatMap Extern.ids ++ p.package :: p.fields.flatMap VarDecl.ids := by
  have externs : ∀ ev ∈ Context.start.along Extern.events Extern.next p.externs,
      ev.node ∈ p.externs.flatMap Extern.ids :=
    Context.node_mem_along (fun e _ c ev hev => by
      simp [Extern.ids, Context.node_of_mem_declaring (show ev ∈ c.declaring .. from hev)]) _
  intro ev hev
  rcases List.mem_append.1 hev with hev | hev
  · exact List.mem_append_left _ (externs ev hev)
  · refine List.mem_append_right _ ?_
    rcases List.mem_append.1 hev with hev | hev
    · rw [Context.node_of_mem_declaring hev]
      exact List.mem_cons_self ..
    · exact List.mem_cons_of_mem _ (Context.node_mem_along (fun d _ c => d.node_mem_ids c) _ ev hev)

section Outside

variable (p) (before after) (m)

theorem node_mem_ahead : ∀ ev ∈ p.ahead before, ev.node ∈ p.outside before m after := by
  intro ev hev
  rcases List.mem_append.1 hev with hev | hev
  · have hev := p.node_mem_preamble ev hev
    simp only [List.mem_append, List.mem_cons] at hev
    rcases hev with hev | hev | hev <;> simp [outside, hev]
  · have methods := Context.node_mem_along (fun k _ c => k.node_mem_ids c) _ ev hev
    simp only [outside, List.mem_append, List.mem_cons, methods, true_or, or_true]

theorem node_mem_entering (c : Context) :
    ∀ ev ∈ m.entering c, ev.node ∈ p.outside before m after := by
  intro ev hev
  rcases List.mem_append.1 hev with hev | hev
  · simp [outside, Context.node_of_mem_declaring hev]
  · have params := Param.node_mem_along _ _ ev hev
    simp only [outside, List.mem_append, List.mem_cons, params, true_or, or_true]

theorem node_mem_onward : ∀ ev ∈ p.onward before m after, ev.node ∈ p.outside before m after := by
  intro ev hev
  have methods := Context.node_mem_along (fun k _ c => k.node_mem_ids c) _ ev hev
  simp only [outside, List.mem_append, List.mem_cons, methods, or_true]

end Outside

/-! ### Two transcripts outside of the body -/

theorem parallel_preamble (apart : NodeId → Prop) (p : Program) :
    Parallel ρ p.preamble (p.rename ρ).preamble ∧
      p.afterFields.Parallels ρ apart (p.rename ρ).afterFields := by
  have start : Context.start.Parallels ρ apart .start := ⟨.nil, rfl, rfl, rfl, rfl⟩
  obtain ⟨externs, afterExterns⟩ := parallel_externs start p.externs
  obtain ⟨name, afterName⟩ := parallel_named afterExterns p
  obtain ⟨fields, afterFields⟩ := parallel_fields afterName p.fields
  exact ⟨externs.append (name.append fields), afterFields⟩

/-- Two programs that differ in the body of a method come to it in the same way, and go on in the
same way behind it. Only the sizes of the two methods may differ. -/
theorem parallel_around (p : Program) (before after : List Method) (hm : m.Resembles ρ m') :
    Parallel ρ (p.ahead before)
        ((p.substitute ρ before m' after).ahead (before.map (Method.rename ρ))) ∧
      (p.reaching before).Parallels ρ (· = m.id)
        ((p.substitute ρ before m' after).reaching (before.map (Method.rename ρ))) ∧
      Parallel ρ (p.onward before m after)
        ((p.substitute ρ before m' after).onward (before.map (Method.rename ρ)) m'
          (after.map (Method.rename ρ))) ∧
      (after.foldl Method.next (m.next (p.reaching before))).Parallels ρ (· = m.id)
        ((after.map (Method.rename ρ)).foldl Method.next (m'.next
          ((p.substitute ρ before m' after).reaching (before.map (Method.rename ρ))))) := by
  obtain ⟨preamble, afterFields⟩ := p.parallel_preamble (ρ := ρ) (· = m.id)
  obtain ⟨methods, reached⟩ := parallel_methods afterFields before
  obtain ⟨onward, last⟩ := parallel_methods (hm.next reached fun hne => absurd rfl hne) after
  exact ⟨preamble.append methods, reached, onward, last⟩

end Program

section Symbols

variable {ρ : NodeId → NodeId} {apart : NodeId → Prop} {c c' : Context} {m m' : Method}

namespace Method.Resembles

theorem entering (hm : m.Resembles ρ m') (h : c.Parallels ρ apart c') :
    Parallel ρ (m.entering c) (m'.entering c') :=
  (hm.declaring h _).append (hm.parameters h).1

/-- The two methods are entered with symbols that resemble each other. -/
theorem exists_declare (hm : m.Resembles ρ m') (h : c.Parallels ρ apart c') {d : NodeId}
    {number : SymbolId} {e : Symbol} {words : Nat} (words' : Nat)
    (he : .declare d number e ∈ c.declaring m.id (m.symbol c words)) :
    ∃ number' e', .declare (ρ d) number' e' ∈ c'.declaring m'.id (m'.symbol c' words') ∧
      e.Resembles ρ e' := by
  by_cases taken : c.Taken m.name
  · rw [Context.declaring_of_taken (show c.Taken (m.symbol c words).name from taken)] at he
    cases List.mem_singleton.1 he
  · have taken' : ¬ c'.Taken m'.name := by rwa [hm.name, h.taken_iff]
    rw [Context.declaring_of_not_taken (show ¬ c.Taken (m.symbol c words).name from taken)] at he
    cases List.mem_singleton.1 he
    rw [Context.declaring_of_not_taken (show ¬ c'.Taken (m'.symbol c' words').name from taken'),
      ← hm.id]
    exact ⟨_, _, List.mem_singleton_self _, hm.symbol h words words'⟩

end Method.Resembles

/-- For each symbol that is entered there is one of the same kind about the renamed node. -/
theorem Parallel.exists_declare {es es' : List Event} (h : Parallel ρ es es') {d : NodeId}
    {number : SymbolId} {e : Symbol} (he : .declare d number e ∈ es) :
    ∃ number' e', .declare (ρ d) number' e' ∈ es' ∧ e.Resembles ρ e' := by
  obtain ⟨ev, hev, hparallel⟩ := exists_of_mem_left h he
  cases hparallel with
  | declare _ _ number' => exact ⟨number', _, hev, rfl⟩

end Symbols

namespace Program

variable {ρ : NodeId → NodeId} {p : Program} {before after : List Method} {m m' : Method}

/-- What is found out in a program outside of one method, but for the name of this method. -/
def around (p : Program) (before : List Method) (m : Method) (after : List Method) : List Event :=
  p.ahead before ++ ((p.reaching before).declaring m.id
      (m.symbol (p.reaching before) (m.words (p.reaching before))) ++ p.onward before m after)

theorem mem_events_of_mem_around (hsplit : p.methods = before ++ m :: after) {ev : Event}
    (h : ev ∈ p.around before m after) : ev ∈ p.events := by
  rw [events_around hsplit]
  rcases List.mem_append.1 h with h | h
  · exact List.mem_append_left _ h
  · refine List.mem_append_right _ ?_
    rcases List.mem_append.1 h with h | h
    · exact List.mem_append_left _ (Method.mem_events_of_mem_declaring h)
    · exact List.mem_append_right _ h

theorem node_mem_around {ev : Event} (h : ev ∈ p.around before m after) :
    ev.node ∈ p.outside before m after := by
  rcases List.mem_append.1 h with h | h
  · exact node_mem_ahead p before after m ev h
  · rcases List.mem_append.1 h with h | h
    · simp [outside, Context.node_of_mem_declaring h]
    · exact node_mem_onward p before after m ev h

/-- What is entered outside of the bodies is entered in both programs. -/
theorem exists_declare_around (hm : m.Resembles ρ m') {d : NodeId} {number : SymbolId} {e : Symbol}
    (he : .declare d number e ∈ p.around before m after) :
    ∃ number' e', .declare (ρ d) number' e' ∈ (p.substitute ρ before m' after).around
      (before.map (Method.rename ρ)) m' (after.map (Method.rename ρ)) ∧ e.Resembles ρ e' := by
  obtain ⟨ahead, reached, onward, -⟩ := p.parallel_around before after hm
  rcases List.mem_append.1 he with he | he
  · obtain ⟨number', e', hmem, hsame⟩ := ahead.exists_declare he
    exact ⟨number', e', List.mem_append_left _ hmem, hsame⟩
  · rcases List.mem_append.1 he with he | he
    · obtain ⟨number', e', hmem, hsame⟩ := hm.exists_declare reached _ he
      exact ⟨number', e', List.mem_append_right _ (List.mem_append_left _ hmem), hsame⟩
    · obtain ⟨number', e', hmem, hsame⟩ := onward.exists_declare he
      exact ⟨number', e', List.mem_append_right _ (List.mem_append_right _ hmem), hsame⟩

/-! ### Names in use outside of the body -/

/-- The names in use in a program outside of the body of one method. -/
def outerReferences (p : Program) (before : List Method) (m : Method) (after : List Method) :
    List Reference :=
  methodReferences p.declarations before ++ methodReferences
    (p.declarations ++ before.map Method.declaration ++ [m.declaration]) after

theorem methodReferences_append (globals : List Declaration) (l r : List Method) :
    methodReferences globals (l ++ r) = methodReferences globals l ++
      methodReferences (globals ++ l.map Method.declaration) r := by
  induction l generalizing globals with
  | nil => simp [methodReferences]
  | cons m rest ih => simp [methodReferences, ih]

theorem references_around (hsplit : p.methods = before ++ m :: after) :
    p.references = methodReferences p.declarations before ++
      (m.references (p.declarations ++ before.map Method.declaration ++ [m.declaration]) ++
        methodReferences (p.declarations ++ before.map Method.declaration ++ [m.declaration])
          after) := by
  rw [references, hsplit, methodReferences_append, methodReferences]

/-- The names in use outside of the bodies are the same, at renamed nodes. -/
theorem outerReferences_substitute (hm : m.Resembles ρ m') :
    (p.substitute ρ before m' after).outerReferences (before.map (Method.rename ρ)) m'
      (after.map (Method.rename ρ)) =
        (p.outerReferences before m after).map (Reference.rename ρ) := by
  have declarations : (p.substitute ρ before m' after).declarations =
      p.declarations.map (Declaration.rename ρ) := p.declarations_rename
  have renamed : Method.declaration ∘ Method.rename ρ =
      Declaration.rename ρ ∘ Method.declaration := funext Method.declaration_rename
  have globals : p.declarations.map (Declaration.rename ρ) ++
      (before.map (Method.rename ρ)).map Method.declaration ++ [m'.declaration] =
        (p.declarations ++ before.map Method.declaration ++ [m.declaration]).map
          (Declaration.rename ρ) := by
    simp only [List.map_map, renamed, hm.declaration, List.map_append, List.map_singleton]
  rw [outerReferences, outerReferences, declarations, globals, methodReferences_rename,
    methodReferences_rename, List.map_append]

end Program

theorem Expr.id_mem_ids_of_mem_references {scopes : List (List Declaration)} {e : Expr}
    {r : Reference} (h : r ∈ e.references scopes) : r.id ∈ e.ids := by
  obtain ⟨use, huse, rfl⟩ := List.mem_map.1 h
  have used := List.count_pos_iff.2 (List.mem_map_of_mem (f := Prod.fst) huse)
  exact List.count_pos_iff.1 (Nat.lt_of_lt_of_le used (e.count_names_le use.1))

/-- The names in use in a statement are used at its nodes. -/
theorem Stmt.id_mem_ids_of_mem_references {scopes : List (List Declaration)} {st : Stmt}
    {r : Reference} (h : r ∈ st.references scopes) : r.id ∈ st.ids := by
  induction st generalizing scopes with
  | assignment id target value =>
    rcases List.mem_append.1 h with h | h
    · simp [ids, Expr.id_mem_ids_of_mem_references h]
    · simp [ids, Expr.id_mem_ids_of_mem_references h]
  | call c => exact Expr.id_mem_ids_of_mem_references h
  | ifThen id branch condition yes ih =>
    rcases List.mem_append.1 h with h | h
    · simp [ids, Expr.id_mem_ids_of_mem_references h]
    · simp [ids, ih h]
  | ifElse id branch condition yes other no ihy ihn =>
    rcases List.mem_append.1 h with h | h
    · rcases List.mem_append.1 h with h | h
      · simp [ids, Expr.id_mem_ids_of_mem_references h]
      · simp [ids, ihy h]
    · simp [ids, ihn h]
  | loop id condition body ih =>
    rcases List.mem_append.1 h with h | h
    · simp [ids, Expr.id_mem_ids_of_mem_references h]
    · simp [ids, ih h]
  | returnValue id value =>
    obtain ⟨e, he, hr⟩ := List.mem_flatMap.1 h
    rw [ids]
    exact List.mem_cons_of_mem _
      (List.mem_flatMap.2 ⟨e, he, Expr.id_mem_ids_of_mem_references hr⟩)
  | jump id j => cases h
  | block id locals body ih =>
    rw [references, bodyReferences_eq] at h
    obtain ⟨st, hst, hr⟩ := List.mem_flatMap.1 h
    rw [ids, bodyIds_eq]
    exact List.mem_cons_of_mem _
      (List.mem_append_right _ (List.mem_flatMap.2 ⟨st, hst, ih st hst hr⟩))

namespace Program

variable {p : Program} {before after : List Method} {m : Method}

/-- A name that is not used in the body is used outside of it. -/
theorem mem_outerReferences (hsplit : p.methods = before ++ m :: after) {r : Reference}
    (hr : r ∈ p.references) (hid : r.id ∉ m.block.ids) : r ∈ p.outerReferences before m after := by
  rw [references_around hsplit] at hr
  rcases List.mem_append.1 hr with hr | hr
  · exact List.mem_append_left _ hr
  · rcases List.mem_append.1 hr with hr | hr
    · exact absurd (Stmt.id_mem_ids_of_mem_references hr) hid
    · exact List.mem_append_right _ hr

theorem mem_references_of_mem_outer (hsplit : p.methods = before ++ m :: after) {r : Reference}
    (hr : r ∈ p.outerReferences before m after) : r ∈ p.references := by
  rw [references_around hsplit]
  rcases List.mem_append.1 hr with hr | hr
  · exact List.mem_append_left _ hr
  · exact List.mem_append_right _ (List.mem_append_right _ hr)

/-- Names outside of the body are settled by what is found out outside of it. -/
theorem settled_around (hsplit : p.methods = before ++ m :: after) {r : Reference}
    (hr : r ∈ p.outerReferences before m after) :
    ∃ use ∈ Event.uses p.events, r.Settled (p.around before m after) use := by
  obtain ⟨hahead, hall⟩ := List.forall_mem_append.1
    (fun ev h => h : ∀ ev ∈ p.around before m after, ev ∈ p.around before m after)
  obtain ⟨hname, honward⟩ := List.forall_mem_append.1 hall
  obtain ⟨hpreamble, hbefore⟩ := List.forall_mem_append.1 hahead
  have globals := mirrors_afterFields hpreamble
  have reached : (p.reaching before).Mirrors (p.around before m after) _ [] :=
    Method.mirrors_along globals hbefore
  have uses : ∀ use, use ∈ Event.uses (p.afterFields.along Method.events Method.next before) ∨
      use ∈ Event.uses (p.onward before m after) → use ∈ Event.uses p.events := by
    intro use huse
    rw [events_around hsplit, ahead]
    simp only [Event.uses_append, List.mem_append]
    rcases huse with huse | huse
    · exact .inl (.inr huse)
    · exact .inr (.inr huse)
  rcases List.mem_append.1 hr with hr | hr
  · obtain ⟨use, huse, hsettled⟩ := exists_of_mem_left (Method.settled_along globals hbefore) hr
    exact ⟨use, uses use (.inl huse), hsettled⟩
  · obtain ⟨use, huse, hsettled⟩ := exists_of_mem_left
      (Method.settled_along (m.mirrors reached hname) honward) hr
    exact ⟨use, uses use (.inr huse), hsettled⟩

end Program

/-! ### Nodes after the check -/

/-- Most nodes outside of its body are marked by the parameters of a method only. -/
theorem Method.marked_events (c : Context) (m : Method) {id : NodeId} (hbody : id ∉ m.block.ids)
    (hid : id ≠ m.id) (n : Node) : n.marked id (m.events c) =
      n.marked id ((m.scope c).along Param.events Param.next m.params) := by
  have own : ∀ n : Node, n.marked id (c.declaring m.id (m.symbol c (m.words c))) = n := fun n =>
    Node.marked_of_not_mem fun ev hev heq => hid (heq ▸ Context.node_of_mem_declaring hev)
  have body : ∀ n : Node, n.marked id (m.block.events (m.within c)) = n := fun n =>
    Node.marked_of_not_mem fun ev hev heq => hbody (heq ▸ m.block.node_mem_ids _ ev hev)
  have sized : ∀ n : Node, n.marked id [.size m.id (m.words c)] = n := fun n =>
    Node.marked_of_not_mem (by simpa [Event.node] using Ne.symm hid)
  rw [events, inside, Node.marked_append, Node.marked_append, Node.marked_append, own, body, sized]

namespace CompilationUnit

/-- The node `id` has the symbol `e`, which is the one that `declaration` has. -/
def Denotes (u : CompilationUnit) (id declaration : NodeId) (e : Symbol) : Prop :=
  ∃ number, u.tree.Has id (fun n => n.symbol = some number) ∧
    u.tree.Has declaration (fun n => n.symbol = some number) ∧
      u.table.store[number.index]? = some e

/-- What two checks have found out about two programs agrees outside of the body of the method `m`
of the first. -/
structure AgreesOutside (ρ : NodeId → NodeId) (p : Program) (m : Method) (u v : CompilationUnit) :
    Prop where
  /-- The same symbols are in sight, of the same sizes, but for the size of the method itself. -/
  entries : List.Forall₂ (fun x y => x.2.Resembles ρ y.2 ∧
    (¬ u.tree.Has m.id (fun n => n.symbol = some x.1) → y.2.size = x.2.size))
      u.table.entries v.table.entries
  nodes : ∀ id ∈ p.ids, id ∉ m.block.ids → ∃ n n', u.tree.node id = .ok n ∧
    v.tree.node (ρ id) = .ok n' ∧ n'.position = n.position ∧ n'.ty = n.ty ∧
      (id ≠ m.id → n'.size = n.size)
  /-- Each name in use belongs to the same declaration, or to none. -/
  names : ∀ id ∈ p.ids, id ∉ m.block.ids → (u.tree.Has id fun n => n.kind.usesName = true) →
    ∃ r ∈ p.references, r.id = id ∧
      (r.resolve = none → (u.tree.Has id fun n => n.symbol = none) ∧
        v.tree.Has (ρ id) fun n => n.symbol = none) ∧
      ∀ d, r.resolve = some d → d.id ∈ p.ids ∧ d.id ∉ m.block.ids ∧ ∃ e e',
        u.Denotes id d.id e ∧ v.Denotes (ρ id) (ρ d.id) e' ∧ e.Resembles ρ e'

/-- What is said about parallel events at the same places is the same. -/
theorem reports_eq {ρ : NodeId → NodeId} {u v : CompilationUnit} {es es' : List Event}
    (h : Parallel ρ es es')
    (hposition : ∀ ev ∈ es, v.tree.position (ρ ev.node) = u.tree.position ev.node) :
    v.reports es' = u.reports es := by
  rw [reports, h.complaints_eq, List.map_map]
  refine List.map_congr_left fun x hx => ?_
  obtain ⟨ev, hev, hcomplaint⟩ := List.mem_filterMap.1 hx
  cases ev with
  | complain problem id =>
    cases hcomplaint
    exact congrArg (Diagnostic.mk problem) (hposition _ hev)
  | type | link | size | declare => cases hcomplaint

section Confined

variable {ρ : NodeId → NodeId} {u v : CompilationUnit} {p : Program} {before after : List Method}
  {m m' : Method}

/-- Nodes outside of the body are not renamed to the same node. -/
theorem eq_of_rename_eq (hv : v.Holds (p.substitute ρ before m' after)) (hm : m.Resembles ρ m')
    {id id' : NodeId} (hid : id ∈ p.outside before m after) (hid' : id' ∈ p.outside before m after)
    (h : ρ id = ρ id') : id = id' :=
  List.inj_on_of_nodup_map (List.nodup_append.1 (Program.nodup_outside hm hv.alone)).1 hid hid' h

/-- The nodes outside of the body are those of the other program outside of its body. -/
theorem rename_mem_outside (hm : m.Resembles ρ m') {id : NodeId}
    (hid : id ∈ p.outside before m after) :
    ρ id ∈ (p.substitute ρ before m' after).outside (before.map (Method.rename ρ)) m'
      (after.map (Method.rename ρ)) := by
  rw [Program.outside_substitute hm]
  exact List.mem_map_of_mem hid

/-- Nodes outside of the body, but for the method itself, are left alike. -/
theorem alike_of_mem_outside (hsplit : p.methods = before ++ m :: after)
    (hv : v.Holds (p.substitute ρ before m' after)) (hm : m.Resembles ρ m') {id : NodeId}
    (hid : id ∈ p.outside before m after) (hbody : id ∉ m.block.ids) (hne : id ≠ m.id)
    {n n' : Node} (hn : n.Alike n') :
    (n.marked id p.events).Alike (n'.marked (ρ id) (p.substitute ρ before m' after).events) := by
  obtain ⟨ahead, reached, onward, -⟩ := p.parallel_around before after hm
  have other := (Program.mem_outside_iff rfl hv.alone).1 (rename_mem_outside hm hid)
  have hne' : ρ id ≠ m'.id := by
    rw [hm.id]
    exact fun h => hne (eq_of_rename_eq hv hm hid (by simp [Program.outside]) h)
  have own : ∀ es : List Event, (∀ ev ∈ es, ev.node ∈ p.outside before m after) →
      ∀ ev ∈ es, ρ ev.node = ρ id → ev.node = id :=
    fun es hes ev hev h => eq_of_rename_eq hv hm (hes ev hev) hid h
  rw [Program.events_around hsplit, Program.events_around (p := p.substitute ρ before m' after) rfl,
    Node.marked_append, Node.marked_append, m.marked_events _ hbody hne, Node.marked_append,
    Node.marked_append, m'.marked_events _ other.2 hne']
  have alike := ahead.alike_marked hn (own _ (Program.node_mem_ahead p before after m))
  have alike := (hm.parameters reached).1.alike_marked alike (own _ fun ev hev =>
    Program.node_mem_entering p before after m _ ev (List.mem_append_right _ hev))
  exact onward.alike_marked alike (own _ (Program.node_mem_onward p before after m))

/-- The text of the tree is as it was before the check. -/
theorem Holds.bare_checked (h : u.Holds p) : (u.checked p).tree.bare = u.tree.bare :=
  h.plays.stands.text

/-- The symbols in sight after the check. -/
theorem Holds.entries_checked (h : u.Holds p) :
    (u.checked p).table.entries = p.afterMethods.bindings.map fun b => (b.id, b.symbol) := by
  have entries := h.plays.stands.entries_eq
  simpa [checked, Checker.play, Checker.seat, Checker.start, h.fresh, SymbolTable.empty]
    using entries

/-- A symbol in sight after the check is that of the node that declares it. -/
theorem Holds.symbol_of_binding (h : u.Holds p) {b : Binding} (hb : b ∈ p.afterMethods.bindings) :
    (u.checked p).tree.Has b.node fun n => n.symbol = some b.id := by
  obtain ⟨e, hmem, -⟩ := p.mirrors_afterMethods.recorded b hb
  exact h.symbol_of_link hmem rfl

/-- A name in use outside of the body is left with the symbol of its declaration, which is outside
of the body as well. -/
theorem Holds.denotes_of_resolve (h : u.Holds p) (hsplit : p.methods = before ++ m :: after)
    {r : Reference} (hr : r ∈ p.outerReferences before m after) {d : Declaration}
    (hd : r.resolve = some d) : ∃ number e,
      .declare d.id number e ∈ p.around before m after ∧
      (u.checked p).tree.Has r.id (fun n => n.symbol = some number) ∧
      (u.checked p).tree.Has d.id (fun n => n.symbol = some number) := by
  obtain ⟨use, huse, hsettled⟩ := Program.settled_around hsplit hr
  obtain ⟨number, e, hsymbol, hmem, -⟩ := h.symbol_of_settled hsettled huse hd
  obtain ⟨hdeclared, -⟩ := h.entry_of_declare (Program.mem_events_of_mem_around hsplit hmem)
  exact ⟨number, e, hmem, hsymbol, hdeclared⟩

/-- The node that declares a symbol has it, and so has each node that has what this node has. -/
theorem Holds.denotes_of_declare (h : u.Holds p) {id declaration : NodeId} {number own : SymbolId}
    {e : Symbol} (he : .declare declaration own e ∈ p.events)
    (hid : (u.checked p).tree.Has id fun n => n.symbol = some number)
    (hdeclaration : (u.checked p).tree.Has declaration fun n => n.symbol = some number) :
    (u.checked p).Denotes id declaration e := by
  obtain ⟨⟨n, hn, hown⟩, hentry⟩ := h.entry_of_declare he
  have ⟨n', hn', hnumber⟩ := hdeclaration
  cases hn.symm.trans hn'
  cases hown.symm.trans hnumber
  exact ⟨number, hid, hdeclaration, by simpa [checked] using hentry⟩

/-- The type on the node of a method is text. -/
theorem Holds.ty_of_method (h : u.Holds p) (hm : m ∈ p.methods) :
    (u.checked p).tree.Has m.id fun n => n.ty = some m.ty :=
  ((h.held.methods m hm).of_bare_eq h.bare_checked).node.imp fun _ hn => hn.2.2.1

section TwoChecks

variable (hu : u.Holds p) (hv : v.Holds (p.substitute ρ before m' after))
  (hsplit : p.methods = before ++ m :: after) (hm : m.Resembles ρ m')

include hu hsplit hm

/-- The symbols in sight after two checks. -/
theorem entries_of_substitute : List.Forall₂ (fun x y => x.2.Resembles ρ y.2 ∧
    (¬ (u.checked p).tree.Has m.id (fun n => n.symbol = some x.1) → y.2.size = x.2.size))
      (p.afterMethods.bindings.map fun b => (b.id, b.symbol))
      ((p.substitute ρ before m' after).afterMethods.bindings.map fun b => (b.id, b.symbol)) := by
  obtain ⟨-, -, -, behind⟩ := p.parallel_around before after hm
  rw [List.forall₂_map_left_iff, List.forall₂_map_right_iff, Program.afterMethods_around hsplit,
    Program.afterMethods_around (p := p.substitute ρ before m' after) rfl]
  have linked : ∀ b ∈ (after.foldl Method.next (m.next (p.reaching before))).bindings,
      (u.checked p).tree.Has b.node fun n => n.symbol = some b.id := fun b hb =>
    hu.symbol_of_binding (Program.afterMethods_around hsplit ▸ hb)
  refine ((List.forall₂_and_left _ _).2 ⟨linked, behind.bindings⟩).imp fun b b' hb => ?_
  exact ⟨hb.2.symbol, fun hlink => hb.2.size fun hnode => hlink (hnode ▸ hb.1)⟩

include hv

/-- Names in use outside of the bodies are left with symbols that resemble each other. -/
theorem denotes_of_substitute {r : Reference} (hr : r ∈ p.outerReferences before m after)
    {d : Declaration} (hd : r.resolve = some d) : d.id ∈ p.outside before m after ∧ ∃ e e',
      (u.checked p).Denotes r.id d.id e ∧
      (v.checked (p.substitute ρ before m' after)).Denotes (ρ r.id) (ρ d.id) e' ∧
      e.Resembles ρ e' := by
  have hr' : r.rename ρ ∈ (p.substitute ρ before m' after).outerReferences
      (before.map (Method.rename ρ)) m' (after.map (Method.rename ρ)) := by
    rw [Program.outerReferences_substitute hm]
    exact List.mem_map_of_mem hr
  have hd' : (r.rename ρ).resolve = some (d.rename ρ) := by rw [r.resolve_rename, hd]; rfl
  obtain ⟨number, e, hmem, hsymbol, hdeclared⟩ := hu.denotes_of_resolve hsplit hr hd
  obtain ⟨_, _, -, hsymbol', hdeclared'⟩ := hv.denotes_of_resolve rfl hr' hd'
  obtain ⟨number', e', hmem', hsame⟩ := Program.exists_declare_around hm hmem
  exact ⟨Program.node_mem_around hmem, e, e',
    hu.denotes_of_declare (Program.mem_events_of_mem_around hsplit hmem) hsymbol hdeclared,
    hv.denotes_of_declare (Program.mem_events_of_mem_around rfl hmem') hsymbol' hdeclared', hsame⟩

/-- Each name in use outside of the body belongs to the same declaration in both, or to none. -/
theorem names_of_substitute
    (hunlinked : ∀ id ∈ p.ids, u.tree.Has id fun n => n.symbol = none)
    (hunlinked' : ∀ id ∈ (p.substitute ρ before m' after).ids,
      v.tree.Has id fun n => n.symbol = none)
    {id : NodeId} (hid : id ∈ p.ids) (hbody : id ∉ m.block.ids)
    (huses : (u.checked p).tree.Has id fun n => n.kind.usesName = true) :
    ∃ r ∈ p.references, r.id = id ∧
      (r.resolve = none → ((u.checked p).tree.Has id fun n => n.symbol = none) ∧
        (v.checked (p.substitute ρ before m' after)).tree.Has (ρ id) fun n => n.symbol = none) ∧
      ∀ d, r.resolve = some d → d.id ∈ p.ids ∧ d.id ∉ m.block.ids ∧ ∃ e e',
        (u.checked p).Denotes id d.id e ∧
        (v.checked (p.substitute ρ before m' after)).Denotes (ρ id) (ρ d.id) e' ∧
        e.Resembles ρ e' := by
  obtain ⟨r, hr, rfl, -⟩ := p.covers (hu.held.of_bare_eq hu.bare_checked) id hid huses
  have outer := Program.mem_outerReferences hsplit hr hbody
  refine ⟨r, hr, rfl, fun hnone => ⟨hu.symbol_of_unresolved hunlinked hr hnone, ?_⟩, fun d hd => ?_⟩
  · have hr' : r.rename ρ ∈ (p.substitute ρ before m' after).references := by
      refine Program.mem_references_of_mem_outer rfl ?_
      rw [Program.outerReferences_substitute hm]
      exact List.mem_map_of_mem outer
    exact hv.symbol_of_unresolved hunlinked' hr' (by rw [r.resolve_rename, hnone]; rfl)
  · obtain ⟨hdeclaration, same⟩ := denotes_of_substitute hu hv hsplit hm outer hd
    obtain ⟨hmem, hout⟩ := (Program.mem_outside_iff hsplit hu.alone).1 hdeclaration
    exact ⟨hmem, hout, same⟩

variable (halike : ∀ id ∈ p.ids, id ∉ m.block.ids → ∀ n n', u.tree.node id = .ok n →
  v.tree.node (ρ id) = .ok n' → n.Alike n')

include halike

/-- A node outside of the body is there in both trees. -/
theorem exists_alike {id : NodeId} (hid : id ∈ p.outside before m after) :
    ∃ n n', u.tree.node id = .ok n ∧ v.tree.node (ρ id) = .ok n' ∧ n.Alike n' := by
  obtain ⟨hmem, hbody⟩ := (Program.mem_outside_iff hsplit hu.alone).1 hid
  have hmem' := ((Program.mem_outside_iff rfl hv.alone).1 (rename_mem_outside hm hid)).1
  obtain ⟨n, hn⟩ := Tree.node_ok_of_lt (hu.held.lt_size id hmem)
  obtain ⟨n', hn'⟩ := Tree.node_ok_of_lt (hv.held.lt_size (ρ id) hmem')
  exact ⟨n, n', hn, hn', halike id hmem hbody n n' hn hn'⟩

/-- What is reported before and behind the body is the same. -/
theorem reports_of_substitute :
    v.reports ((p.substitute ρ before m' after).ahead (before.map (Method.rename ρ)) ++
        m'.entering ((p.substitute ρ before m' after).reaching (before.map (Method.rename ρ)))) =
      u.reports (p.ahead before ++ m.entering (p.reaching before)) ∧
    v.reports ((p.substitute ρ before m' after).onward (before.map (Method.rename ρ)) m'
        (after.map (Method.rename ρ))) =
      u.reports (p.onward before m after) := by
  obtain ⟨ahead, reached, onward, -⟩ := p.parallel_around before after hm
  have position : ∀ id ∈ p.outside before m after,
      v.tree.position (ρ id) = u.tree.position id := by
    intro id hid
    obtain ⟨n, n', hn, hn', same⟩ := exists_alike hu hv hsplit hm halike hid
    rw [Tree.position_of_node hn, Tree.position_of_node hn', same.position]
  constructor
  · exact reports_eq (ahead.append (hm.entering reached)) fun ev hev => position _ <|
      (List.mem_append.1 hev).elim (Program.node_mem_ahead p before after m ev)
        (Program.node_mem_entering p before after m _ ev)
  · exact reports_eq onward fun ev hev =>
      position _ (Program.node_mem_onward p before after m ev hev)

/-- A node outside of the body is left with the same type and the same size, but for the size of the
method itself. -/
theorem nodes_of_substitute {id : NodeId} (hid : id ∈ p.ids) (hbody : id ∉ m.block.ids) :
    ∃ n n', (u.checked p).tree.node id = .ok n ∧
      (v.checked (p.substitute ρ before m' after)).tree.node (ρ id) = .ok n' ∧
      n'.position = n.position ∧ n'.ty = n.ty ∧ (id ≠ m.id → n'.size = n.size) := by
  have outer := (Program.mem_outside_iff hsplit hu.alone).2 ⟨hid, hbody⟩
  obtain ⟨n, n', hn, hn', same⟩ := exists_alike hu hv hsplit hm halike outer
  have checked := Tree.node_annotate p.events hn
  have checked' := Tree.node_annotate (p.substitute ρ before m' after).events hn'
  refine ⟨_, _, checked, checked', ?_⟩
  by_cases hne : id = m.id
  · subst hne
    obtain ⟨k, hk, hty⟩ := hu.ty_of_method (m := m) (by simp [hsplit])
    obtain ⟨k', hk', hty'⟩ := hv.ty_of_method (m := m') (by simp [Program.substitute])
    rw [hm.id] at hk'
    cases checked.symm.trans hk
    cases checked'.symm.trans hk'
    refine ⟨?_, by rw [hty, hty', hm.ty], fun hne => absurd rfl hne⟩
    rw [Node.position_marked, Node.position_marked, same.position]
  · have left := alike_of_mem_outside hsplit hv hm outer hbody hne same
    exact ⟨left.position, left.ty, fun _ => left.size⟩

/-- **The body of a method is confined.** Two programs that differ in the body of one method only,
where the nodes outside of it may have other names, are checked. The two lists of diagnostics are
the same but for what is reported while the body is visited, and what the checks have found out
agrees outside of the body. -/
theorem agreesOutside_of_check
    (hunlinked : ∀ id ∈ p.ids, u.tree.Has id fun n => n.symbol = none)
    (hunlinked' : ∀ id ∈ (p.substitute ρ before m' after).ids,
      v.tree.Has id fun n => n.symbol = none) :
    ∃ A X X' C u' v', u.check = .ok (A ++ X ++ C, u') ∧ v.check = .ok (A ++ X' ++ C, v') ∧
      u.ReportsAround p before m after A X C ∧
      v.ReportsAround (p.substitute ρ before m' after) (before.map (Method.rename ρ)) m'
        (after.map (Method.rename ρ)) A X' C ∧
      u'.AgreesOutside ρ p m v' := by
  obtain ⟨same, same'⟩ := reports_of_substitute hu hv hsplit hm halike
  have whole := hu.check_eq
  have whole' := hv.check_eq
  have around := hu.reportsAround hsplit
  have around' := hv.reportsAround rfl
  rw [reports_events hsplit] at whole
  rw [reports_events rfl, same, same'] at whole'
  rw [same, same'] at around'
  refine ⟨_, _, _, _, _, _, whole, whole', around, around', ?_⟩
  exact {
    entries := by
      rw [hu.entries_checked, hv.entries_checked]
      exact entries_of_substitute hu hsplit hm
    nodes := fun id hid hbody => nodes_of_substitute hu hv hsplit hm halike hid hbody
    names := fun id hid hbody huses =>
      names_of_substitute hu hv hsplit hm hunlinked hunlinked' hid hbody huses }

end TwoChecks

end Confined

/-! ### Two programs -/

/-- A method with one parameter. -/
def callee (statements : List Stmt) : Method where
  id := ⟨2⟩
  name := "f"
  ty := .void
  params := [⟨⟨3⟩, "x", .int⟩]
  body := ⟨9⟩
  locals := []
  statements

/-- A method that calls the other one with a name that is not declared there. -/
def caller : Method where
  id := ⟨4⟩
  name := "main"
  ty := .void
  params := []
  body := ⟨5⟩
  locals := []
  statements := [.call ⟨⟨6⟩, "f", [(⟨7⟩, .plain ⟨8⟩ .read "x")]⟩]

/-- A statement in which another name is used that is not declared. -/
def wandering : Stmt := .returnValue ⟨10⟩ (some (.plain ⟨11⟩ .read "ghost"))

/-- A program with the two methods, the first of which has these statements. -/
def calling (statements : List Stmt) : Program where
  id := ⟨0⟩
  externs := []
  package := ⟨1⟩
  name := "P"
  fields := []
  methods := [callee statements, caller]

/-- A unit that holds this program, where the statements of the first method start at `head`. -/
def callingUnit (head : Option NodeId) : CompilationUnit where
  tree := ⟨#[
    { Node.blank .program with second := some ⟨1⟩ },
    { Node.blank .package with name := some "P", second := some ⟨2⟩ },
    { Node.blank .methodDecl with
      name := some "f", ty := some .void, first := some ⟨3⟩, second := some ⟨9⟩, next := some ⟨4⟩ },
    { Node.blank .parameter with name := some "x", ty := some .int },
    { Node.blank .methodDecl with name := some "main", ty := some .void, second := some ⟨5⟩ },
    { Node.blank .block with second := some ⟨6⟩ },
    { Node.blank .call with name := some "f", first := some ⟨7⟩ },
    { Node.blank .argument with first := some ⟨8⟩ },
    { Node.blank .reference with name := some "x" },
    { Node.blank .block with second := head },
    { Node.blank .returnValue with first := some ⟨11⟩ },
    { Node.blank .reference with name := some "ghost" }]⟩
  table := .empty
  root := some ⟨0⟩

theorem holds_calling {head : Option NodeId} {statements : List Stmt}
    (hlinked : (callingUnit head).tree.Linked head (statements.map Stmt.id))
    (hstatements : ∀ st ∈ statements, (callingUnit head).tree.HasStmt st)
    (hd : (calling statements).ids.Nodup)
    (hhandles : ∀ id ∈ (calling statements).ids, id.index < maxHandles) :
    (callingUnit head).Holds (calling statements) where
  fresh := rfl
  root := rfl
  held := {
    root := ⟨_, rfl, rfl, rfl, .nil, rfl⟩
    package := ⟨_, rfl, rfl, rfl, rfl, .nil, .cons rfl (.cons rfl .nil)⟩
    externs := by simp [calling]
    fields := by simp [calling]
    methods := by
      have first : (callingUnit head).tree.HasMethod (callee statements) := {
        node := ⟨_, rfl, rfl, rfl, rfl, .cons rfl .nil, rfl⟩
        params := List.forall_mem_singleton.2 ⟨_, rfl, rfl, rfl, rfl⟩
        block := .block ⟨_, rfl, rfl, .nil, hlinked⟩ (by simp [callee]) hstatements }
      have call : (callingUnit head).tree.HasStmt
          (.call ⟨⟨6⟩, "f", [(⟨7⟩, .plain ⟨8⟩ .read "x")]⟩) :=
        .call (.call ⟨_, rfl, rfl, rfl, .cons rfl .nil⟩
          (List.forall_mem_singleton.2 ⟨_, rfl, rfl, rfl⟩)
          (List.forall_mem_singleton.2 (.plain ⟨_, rfl, rfl, rfl, rfl⟩)))
      have second : (callingUnit head).tree.HasMethod caller := {
        node := ⟨_, rfl, rfl, rfl, rfl, .nil, rfl⟩
        params := by simp [caller]
        block := .block ⟨_, rfl, rfl, .nil, .cons rfl .nil⟩ (by simp [caller])
          (List.forall_mem_singleton.2 call) }
      exact List.forall_mem_cons.2 ⟨first, List.forall_mem_singleton.2 second⟩ }
  alone := hd
  addressable := hhandles

theorem holds_calling_wandering : (callingUnit (some ⟨10⟩)).Holds (calling [wandering]) := by
  refine holds_calling (.cons rfl .nil) (List.forall_mem_singleton.2 ?_) (by decide) (by decide)
  exact .returnValue ⟨_, rfl, rfl, rfl⟩ fun e he => by
    cases he
    exact .plain ⟨_, rfl, rfl, rfl, rfl⟩

theorem holds_calling_nil : (callingUnit none).Holds (calling []) :=
  holds_calling .nil (by simp) (by decide) (by decide)

theorem substitute_calling (statements statements' : List Stmt) :
    (calling statements).substitute (fun id => id) [] (callee statements') [caller] =
      calling statements' := by
  simp [Program.substitute, calling]

theorem agreesOutside_of_check_calling :
    (callingUnit (some ⟨10⟩)).Holds (calling [wandering]) ∧
    (callingUnit none).Holds
      ((calling [wandering]).substitute (fun id => id) [] (callee []) [caller]) ∧
    ∃ A X X' C u' v', (callingUnit (some ⟨10⟩)).check = .ok (A ++ X ++ C, u') ∧
      (callingUnit none).check = .ok (A ++ X' ++ C, v') ∧
      u'.AgreesOutside (fun id => id) (calling [wandering]) (callee [wandering]) v' := by
  have held := holds_calling_wandering
  have held' := holds_calling_nil
  rw [← substitute_calling [wandering]] at held'
  have same : ∀ id ∈ (calling [wandering]).ids, id ∉ (callee [wandering]).block.ids →
      (callingUnit (some ⟨10⟩)).tree.node id = (callingUnit none).tree.node id := by decide
  obtain ⟨A, X, X', C, u', v', hu, hv, -, -, agrees⟩ :=
    agreesOutside_of_check held held' rfl ⟨rfl, rfl, rfl, by simp [callee, Param.rename]⟩
      (fun id hid hbody n n' hn hn' => by
        rw [same id hid hbody, hn'] at hn
        cases hn
        exact ⟨rfl, rfl, rfl⟩)
      (held.has_of_forall (by decide)) (held'.has_of_forall (by decide))
  exact ⟨held, held', A, X, X', C, u', v', hu, hv, agrees⟩

end CompilationUnit

end DecafStatics
