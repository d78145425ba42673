import DecafStatics.Proofs.Annotation
import DecafStatics.Proofs.Run

/-!
# What a check can do to its state

The rules of a check are many, but what they do to the state is little: they collect a
diagnostic, annotate a node, declare a symbol at the current level, take up words of the frame,
and enclose any of this in a loop, a block or a method. `Walk s s'` says that the state `s'` can
be reached from `s` in this way, and `walk_statement` that a check that comes to an end has done
nothing else, whatever the tree looks like.

An invariant of checking is then an induction over `Walk`, with one case for each thing that can
happen, and need not look at the rules at all.

## Scope

A walk forgets what the rules know: which diagnostic is collected, and for which node. It says
what may change, and is of no use for saying what does.

## Main definitions

* `SymbolTable.resize` — the frame size that a method leaves on its symbol
* `Walk` — the effects of checking
* `Check.Walks` — having no other effects than those

## Main results

* `Walk.bare_tree` — the text of the tree stays as it is
* `walks_typeWithin`, `walks_statementWithin` — checking has no other effects
-/

namespace DecafStatics

/-- The table with `words` as the size of the symbol, if there is one. -/
def SymbolTable.resize (table : SymbolTable) (symbol : Option SymbolId) (words : Nat) :
    Except Fault SymbolTable :=
  match symbol with
  | none => .ok table
  | some id => table.update id fun e => { e with size := words }

/-- The effects that checking can have. -/
inductive Walk : Checker → Checker → Prop where
  | refl (s : Checker) : Walk s s
  | trans {s s₁ s₂ : Checker} : Walk s s₁ → Walk s₁ s₂ → Walk s s₂
  | report {s : Checker} (d : Diagnostic) :
      Walk s { s with diagnostics := s.diagnostics.push d }
  | annotate {s : Checker} {t : Tree} : t.bare = s.tree.bare → Walk s { s with tree := t }
  | declare {s : Checker} {symbol : Symbol} {position : Position} {id : SymbolId}
      {table : SymbolTable} :
      s.table.insert symbol position = .ok (id, table) → symbol.level = s.level →
      1 ≤ symbol.size → (symbol.params.isSome → symbol.kind.isCallable) →
      Walk s { s with table := table }
  | allocate {s : Checker} (words : Nat) :
      Walk s { s with frame :=
        ⟨s.frame.offset + words, max s.frame.peak (s.frame.offset + words)⟩ }
  | enter {s : Checker} (method : Option Enclosing) : Walk s { s with method := method }
  | loop {s s₁ : Checker} :
      Walk { s with loopDepth := s.loopDepth + 1 } s₁ →
      Walk s { s₁ with loopDepth := s₁.loopDepth - 1 }
  | block {s s₁ : Checker} {reclaimed : Nat} {table : SymbolTable} :
      Walk { s with level := s.level + 1 } s₁ →
      s₁.table.closeScopes s₁.level = .ok (reclaimed, table) →
      Walk s { s₁ with
        table := table
        level := s₁.level - 1
        frame := { s₁.frame with offset := s₁.frame.offset - reclaimed } }
  /-- First the name is declared; what is declared under it is new. Then comes a frame of its
  own with the rest of the method, and at the end the frame around it is back. -/
  | method {s s₁ s₂ : Checker} {symbol : Option SymbolId} {t : Tree}
      {resized table : SymbolTable} {reclaimed : Nat} :
      Walk s s₁ → (∀ id ∈ symbol, s.table.store.size ≤ id.index) →
      Walk { s₁ with frame := .starting frameHeaderWords, level := s₁.level + 1 } s₂ →
      s₂.table.resize symbol s₂.frame.peak = .ok resized → t.bare = s₂.tree.bare →
      resized.closeScopes s₂.level = .ok (reclaimed, table) →
      Walk s { s₂ with
        tree := t, table := table, level := s₂.level - 1, frame := s₁.frame }

namespace Walk

/-- The text of the tree stays as it is. -/
theorem bare_tree {s s' : Checker} (h : Walk s s') : s'.tree.bare = s.tree.bare := by
  induction h with
  | refl => rfl
  | trans _ _ ih₁ ih₂ => exact ih₂.trans ih₁
  | report => rfl
  | annotate ht => exact ht
  | declare => rfl
  | allocate => rfl
  | enter => rfl
  | loop _ ih => exact ih
  | block _ _ ih => exact ih
  | method _ _ _ _ ht _ ih₁ ih₂ => exact ht.trans (ih₂.trans ih₁)

/-- A node is found again after a walk, with the same text. -/
theorem node {s s' : Checker} (h : Walk s s') {id : NodeId} {n : Node}
    (hn : s.tree.node id = .ok n) : ∃ m, s'.tree.node id = .ok m ∧ m.bare = n.bare :=
  Tree.node_of_bare_eq h.bare_tree hn

end Walk

namespace Check

variable {α β : Type}

/-- Whenever `m` comes to an end it has walked. -/
def Walks (m : Check α) : Prop := ∀ ⦃s s' : Checker⦄ ⦃a : α⦄, m.run s = .ok (a, s') → Walk s s'

/-! ### Computations that walk -/

theorem walks_pure (a : α) : Walks (pure a : Check α) := by
  intro s s' b h
  obtain ⟨-, rfl⟩ := run_pure_eq_ok_iff.1 h
  exact .refl s'

theorem walks_throw (fault : Fault) : Walks (throw fault : Check α) := by
  intro s s' a h
  cases h

theorem Walks.bind {m : Check α} {f : α → Check β} (hm : Walks m) (hf : ∀ a, Walks (f a)) :
    Walks (m >>= f) := by
  intro s s' b h
  obtain ⟨a, s₁, ha, hb⟩ := run_bind_eq_ok_iff.1 h
  exact (hm ha).trans (hf a hb)

theorem walks_get : Walks (get : Check Checker) := by
  intro s s' t h
  obtain ⟨-, rfl⟩ := run_get_eq_ok_iff.1 h
  exact .refl s'

theorem walks_node (id : NodeId) : Walks (node id) := by
  intro s s' n h
  obtain ⟨-, rfl⟩ := run_node_eq_ok_iff.1 h
  exact .refl s'

theorem walks_report (problem : Problem) (id : NodeId) : Walks (report problem id) := by
  intro s s' a h
  obtain ⟨n, -, rfl⟩ := run_report_eq_ok_iff.1 h
  exact .report _

/-- Annotating a node, where the text of the nodes stays as it is. -/
theorem walks_update {id : NodeId} {f : Node → Node} (hf : ∀ n : Node, (f n).bare = n.bare) :
    Walks (update id f) := by
  intro s s' a h
  obtain ⟨t, ht, rfl⟩ := run_update_eq_ok_iff.1 h
  exact .annotate (Tree.bare_update ht fun n _ => hf n)

theorem walks_allocate (words : Nat) : Walks (allocate words) := by
  intro s s' a h
  rw [run_allocate_eq_ok h]
  exact .allocate words

theorem walks_liftM (value : Except Fault α) : Walks (liftM value : Check α) := by
  intro s s' a h
  obtain ⟨-, rfl⟩ := run_liftM_eq_ok_iff.1 h
  exact .refl s'

theorem walks_forM {l : List α} {visit : α → Check PUnit} (hv : ∀ a, Walks (visit a)) :
    Walks (l.forM visit) := by
  induction l with
  | nil => exact walks_pure _
  | cons a l ih => exact (hv a).bind fun _ => ih

theorem walks_mapM {ids : List NodeId} {visit : NodeId → Check β} (hv : ∀ id, Walks (visit id)) :
    Walks (ids.mapM visit) := by
  induction ids with
  | nil =>
    rw [List.mapM_nil]
    exact walks_pure _
  | cons id ids ih =>
    rw [List.mapM_cons]
    exact (hv id).bind fun _ => ih.bind fun _ => walks_pure _

theorem walks_eachSibling {head : Option NodeId} {visit : NodeId → Check Unit}
    (hv : ∀ id, Walks (visit id)) : Walks (eachSibling head visit) :=
  walks_get.bind fun _ => (walks_forM hv).bind fun _ => walks_liftM _

/-! ### Expressions -/

theorem walks_expect (wanted : Ty) (received : Option Ty) (id : NodeId) :
    Walks (expect wanted received id) := by
  unfold expect
  split
  · exact walks_pure _
  · split
    · exact walks_pure _
    · exact walks_report _ _

theorem walks_expectPart (wanted : Ty) (received : Option Ty) (part : Option NodeId) :
    Walks (expectPart wanted received part) := by
  cases part with
  | none => exact walks_pure _
  | some id => exact walks_expect wanted received id

theorem walks_resolve (id : NodeId) (name : String) : Walks (resolve id name) := by
  refine walks_get.bind fun s => ?_
  split
  · exact (walks_report _ _).bind fun _ => walks_pure _
  · exact (walks_liftM _).bind fun _ =>
      (walks_update fun n => Node.bare_symbol n _).bind fun _ => walks_pure _

section Parts

variable {typeOf : NodeId → Check (Option Ty)} (ht : ∀ id, Walks (typeOf id))

include ht

theorem walks_typePart (part : Option NodeId) : Walks (typePart typeOf part) := by
  cases part with
  | none => exact walks_pure _
  | some id => exact ht id

theorem walks_operation (n : Node) : Walks (operation typeOf n) := by
  rw [operation]
  split
  · exact walks_throw _
  · refine (walks_typePart ht _).bind fun left => (walks_typePart ht _).bind fun right => ?_
    split
    · exact walks_pure _
    · exact (walks_expectPart _ _ _).bind fun _ =>
        (walks_expectPart _ _ _).bind fun _ => walks_pure _

theorem walks_variableUse (id : NodeId) (n : Node) : Walks (variableUse typeOf id n) := by
  refine (walks_typePart ht _).bind fun index => (walks_resolve _ _).bind fun symbol => ?_
  split
  · exact walks_pure _
  · have last : ∀ ty : Ty, Walks (do expectPart .int index n.first; return some ty) := fun ty =>
      (walks_expectPart _ _ _).bind fun _ => walks_pure _
    dsimp only
    split <;> split
    all_goals first
      | exact (walks_report _ _).bind fun _ => last _
      | exact last _

theorem walks_call (id : NodeId) (n : Node) : Walks (call typeOf id n) := by
  refine walks_get.bind fun _ => (walks_liftM _).bind fun arguments =>
    (walks_mapM ht).bind fun types => (walks_resolve _ _).bind fun symbol => ?_
  split
  · exact walks_pure _
  · split
    · split
      · refine walks_get.bind fun _ => (walks_liftM _).bind fun fit => ?_
        split
        · exact walks_pure _
        · exact (walks_liftM _).bind fun _ => (walks_report _ _).bind fun _ => walks_pure _
      · exact walks_pure _
    · exact (walks_report _ _).bind fun _ => walks_pure _

theorem walks_typeByKind (id : NodeId) (n : Node) : Walks (typeByKind typeOf id n) := by
  rw [typeByKind]
  split
  all_goals first
    | exact walks_pure _
    | exact walks_variableUse ht id n
    | exact walks_operation ht n
    | exact walks_call ht id n
    | exact walks_typePart ht _

end Parts

/-- Only an expression is given a type. -/
theorem isExpression_of_typeByKind {typeOf : NodeId → Check (Option Ty)} {id : NodeId} {n : Node}
    {s s' : Checker} {ty : Ty} (h : (typeByKind typeOf id n).run s = .ok (some ty, s')) :
    n.kind.isExpression = true := by
  rw [typeByKind] at h
  split at h
  case h_9 | h_10 | h_11 | h_12 | h_13 | h_14 | h_15 | h_16 | h_17 | h_18 | h_19 | h_20 | h_21
      | h_22 | h_23 | h_24 =>
    cases (run_pure_eq_ok_iff.1 h).1
  all_goals simp [*, NodeKind.isExpression]

theorem walks_typeWithin (depth : Nat) (id : NodeId) : Walks (typeWithin depth id) := by
  induction depth generalizing id with
  | zero => exact walks_throw _
  | succ depth ih =>
    intro s s' ty hrun
    obtain ⟨n, s₁, hnode, hrest⟩ := run_bind_eq_ok_iff.1 hrun
    obtain ⟨hn, rfl⟩ := run_node_eq_ok_iff.1 hnode
    obtain ⟨found, s₂, hkind, hmark⟩ := run_bind_eq_ok_iff.1 hrest
    have walk := walks_typeByKind ih id n hkind
    cases found with
    | none =>
      obtain ⟨-, rfl⟩ := run_pure_eq_ok_iff.1 hmark
      exact walk
    | some found =>
      obtain ⟨⟨⟩, s₃, hupdate, hreturn⟩ := run_bind_eq_ok_iff.1 hmark
      obtain ⟨-, rfl⟩ := run_pure_eq_ok_iff.1 hreturn
      obtain ⟨t, ht, rfl⟩ := run_update_eq_ok_iff.1 hupdate
      refine walk.trans (.annotate (Tree.bare_update ht fun m hm => Node.bare_ty ?_ _))
      -- the node may carry new annotations by now, but it is still an expression
      obtain ⟨m', hm', hbare⟩ := walk.node hn
      rw [hm'] at hm
      cases hm
      rw [Node.kind_of_bare_eq hbare]
      exact isExpression_of_typeByKind hkind

theorem walks_expression (id : NodeId) : Walks (expression id) :=
  walks_get.bind fun _ => walks_typeWithin _ id

/-! ### Declarations -/

/-- A declaration gives a new symbol or none. -/
theorem walk_declare {id : NodeId} {symbol : Symbol} {s s' : Checker} {declared : Option SymbolId}
    (h : (declare id symbol).run s = .ok (declared, s')) (hlevel : symbol.level = s.level)
    (hsize : 1 ≤ symbol.size) (hparams : symbol.params.isSome → symbol.kind.isCallable) :
    Walk s s' ∧ ∀ id ∈ declared, s.table.store.size ≤ id.index := by
  obtain ⟨n, s₁, hnode, hrest⟩ := run_bind_eq_ok_iff.1 h
  obtain ⟨-, rfl⟩ := run_node_eq_ok_iff.1 hnode
  obtain ⟨t, s₂, hget, hinsert⟩ := run_bind_eq_ok_iff.1 hrest
  obtain ⟨rfl, rfl⟩ := run_get_eq_ok_iff.1 hget
  split at hinsert
  · cases hinsert
    exact ⟨.report _, by simp⟩
  · rename_i symbolId table hok
    obtain ⟨⟨⟩, s₃, hmodify, hlink⟩ := run_bind_eq_ok_iff.1 hinsert
    cases hmodify
    obtain ⟨⟨⟩, s₄, hupdate, hreturn⟩ := run_bind_eq_ok_iff.1 hlink
    obtain ⟨rfl, rfl⟩ := run_pure_eq_ok_iff.1 hreturn
    obtain ⟨-, rfl, -⟩ := SymbolTable.insert_eq_ok_iff.1 hok
    refine ⟨(Walk.declare hok hlevel hsize hparams).trans ?_, by simp⟩
    exact walks_update (fun n => Node.bare_symbol n _) hupdate

theorem walks_declareStored (id : NodeId) (name : String) (ty : Ty) (kind : SymbolKind)
    {size : Nat} (hsize : 1 ≤ size) : Walks (declareStored id name ty kind size) := by
  refine (walks_update fun n => Node.bare_size n _).bind fun _ => ?_
  intro s s' a h
  obtain ⟨t, s₁, hget, hrest⟩ := run_bind_eq_ok_iff.1 h
  obtain ⟨rfl, rfl⟩ := run_get_eq_ok_iff.1 hget
  obtain ⟨symbol, s₂, hdeclare, hallocate⟩ := run_bind_eq_ok_iff.1 hrest
  refine (walk_declare hdeclare rfl hsize (by simp)).1.trans ?_
  split at hallocate
  · exact walks_allocate _ hallocate
  · exact walks_pure _ hallocate

theorem walks_externDecl (id : NodeId) (n : Node) : Walks (externDecl id n) := by
  refine (walks_liftM _).bind fun ty => ?_
  intro s s' a h
  obtain ⟨t, s₁, hget, hrest⟩ := run_bind_eq_ok_iff.1 h
  obtain ⟨rfl, rfl⟩ := run_get_eq_ok_iff.1 hget
  obtain ⟨symbol, hdeclare⟩ := run_discard_eq_ok_iff.1 hrest
  exact (walk_declare hdeclare rfl (Nat.le_refl 1) fun _ => rfl).1

theorem walks_packageName (id : NodeId) (n : Node) : Walks (packageName id n) := by
  intro s s' a h
  obtain ⟨t, s₁, hget, hrest⟩ := run_bind_eq_ok_iff.1 h
  obtain ⟨rfl, rfl⟩ := run_get_eq_ok_iff.1 hget
  obtain ⟨symbol, hdeclare⟩ := run_discard_eq_ok_iff.1 hrest
  exact (walk_declare hdeclare rfl (Nat.le_refl 1) (by simp)).1

theorem walks_parameter (id : NodeId) : Walks (parameter id) :=
  (walks_node id).bind fun _ => (walks_liftM _).bind fun _ =>
    walks_declareStored _ _ _ _ (Nat.le_refl 1)

theorem walk_methodName {id : NodeId} {n : Node} {ty : Ty} {s s' : Checker}
    {symbol : Option SymbolId} (h : (methodName id n ty).run s = .ok (symbol, s')) :
    Walk s s' ∧ ∀ id ∈ symbol, s.table.store.size ≤ id.index := by
  obtain ⟨t, s₁, hget, hdeclare⟩ := run_bind_eq_ok_iff.1 h
  obtain ⟨rfl, rfl⟩ := run_get_eq_ok_iff.1 hget
  exact walk_declare hdeclare rfl (by decide : 1 ≤ frameHeaderWords) fun _ => rfl

/-- What takes up storage takes up at least a word of it. -/
theorem one_le_of_variableShape {name : String} {length : Option Int32} {kind : SymbolKind}
    {size : Nat} (h : variableShape name length = .ok (kind, size)) : 1 ≤ size := by
  unfold variableShape at h
  split at h
  · cases h
    exact Nat.le_refl 1
  · rename_i length
    split at h
    · cases h
    · rename_i hlt
      cases h
      have : ¬ length.toInt < 1 := fun hlt' => hlt (Int32.lt_iff_toInt_lt.2 hlt')
      omega

theorem walks_variableDecl (id : NodeId) (n : Node) : Walks (variableDecl id n) := by
  refine (walks_liftM _).bind fun ty => ?_
  intro s s' a h
  obtain ⟨length, s₁, hlength, hrest⟩ := run_bind_eq_ok_iff.1 h
  have read : Walk s s₁ := by
    cases hfirst : n.first with
    | none => exact walks_pure _ (by simpa [hfirst] using hlength)
    | some first =>
      rw [hfirst] at hlength
      exact (walks_node first).bind (fun m => walks_pure (some m)) hlength
  refine read.trans ?_
  split at hrest
  · exact walks_report _ _ hrest
  · rename_i kind size hshape
    have stored := walks_declareStored id n.text ty kind (one_le_of_variableShape hshape)
    refine stored.bind (fun _ => ?_) hrest
    split
    · exact walks_pure _
    · exact (walks_expression _).bind fun _ => walks_expect _ _ _

/-! ### Statements -/

theorem walks_condition (part : Option NodeId) : Walks (condition part) := by
  cases part with
  | none => exact walks_pure _
  | some id => exact (walks_expression id).bind fun _ => walks_expect _ _ _

theorem walks_jump (word : String) (id : NodeId) : Walks (jump word id) := by
  refine walks_get.bind fun s => ?_
  split
  · exact walks_report _ _
  · exact walks_pure _

theorem walks_assignment (id : NodeId) (n : Node) : Walks (assignment id n) := by
  refine (walks_typePart walks_expression _).bind fun wanted =>
    (walks_typePart walks_expression _).bind fun received => ?_
  split
  · exact walks_pure _
  · exact walks_expect _ _ _

theorem walks_returnValue (id : NodeId) (n : Node) : Walks (returnValue id n) := by
  refine (walks_typePart walks_expression _).bind fun received => walks_get.bind fun s => ?_
  split
  · exact walks_pure _
  · split
    · exact walks_pure _
    · exact walks_report _ _
    · exact walks_report _ _
    · exact walks_expect _ _ _

/-- What a method leaves of its frame goes to its symbol and to its node, and nowhere else. -/
theorem run_recordFrame {id : NodeId} {symbol : Option SymbolId} {words : Nat} {s s' : Checker}
    (h : (recordFrame id symbol words).run s = .ok ((), s')) :
    ∃ table t, s.table.resize symbol words = .ok table ∧ t.bare = s.tree.bare ∧
      s' = { s with tree := t, table := table } := by
  cases symbol with
  | none =>
    obtain ⟨t, ht, rfl⟩ := run_update_eq_ok_iff.1 h
    exact ⟨s.table, t, rfl, Tree.bare_update ht fun n _ => Node.bare_size n _, rfl⟩
  | some symbol =>
    obtain ⟨s₁, _, hget, hrest⟩ := run_bind_eq_ok_iff.1 h
    cases hget
    obtain ⟨table, s₂, hresize, hset⟩ := run_bind_eq_ok_iff.1 hrest
    obtain ⟨hresize, rfl⟩ := run_liftM_eq_ok_iff.1 hresize
    obtain ⟨⟨⟩, s₃, hset, hupdate⟩ := run_bind_eq_ok_iff.1 hset
    cases hset
    obtain ⟨t, ht, rfl⟩ := run_update_eq_ok_iff.1 hupdate
    exact ⟨table, t, hresize, Tree.bare_update ht fun n _ => Node.bare_size n _, rfl⟩

section Parts

variable {visit : NodeId → Check Unit} (hv : ∀ id, Walks (visit id))

include hv

theorem walks_visitPart (part : Option NodeId) : Walks (visitPart visit part) := by
  cases part with
  | none => exact walks_pure _
  | some id => exact hv id

theorem walks_loop (n : Node) : Walks (loop visit n) := by
  refine (walks_condition _).bind fun _ => ?_
  intro s s' a h
  obtain ⟨⟨⟩, s₁, henter, hrest⟩ := run_bind_eq_ok_iff.1 h
  cases henter
  obtain ⟨⟨⟩, s₂, hbody, hleave⟩ := run_bind_eq_ok_iff.1 hrest
  cases hleave
  exact .loop (walks_visitPart hv _ hbody)

theorem walks_block (n : Node) : Walks (block visit n) := by
  intro s s' a h
  obtain ⟨⟨⟩, s₁, hopen, hrest⟩ := run_bind_eq_ok_iff.1 h
  cases hopen
  obtain ⟨⟨⟩, s₂, hlocals, hrest⟩ := run_bind_eq_ok_iff.1 hrest
  obtain ⟨⟨⟩, s₃, hbody, hrest⟩ := run_bind_eq_ok_iff.1 hrest
  obtain ⟨reclaimed, s₄, hclose, hback⟩ := run_bind_eq_ok_iff.1 hrest
  obtain ⟨table, htable, rfl⟩ := run_closeScope_eq_ok_iff.1 hclose
  cases hback
  exact .block ((walks_eachSibling hv hlocals).trans (walks_eachSibling hv hbody)) htable

theorem walks_methodInside (n : Node) (ty : Ty) :
    Walks (methodInsideWith parameter visit n ty) := by
  refine walks_get.bind fun _ => (walks_liftM _).bind fun parameters =>
    (walks_forM walks_parameter).bind fun _ => ?_
  intro s s' a h
  obtain ⟨⟨⟩, s₁, henter, hrest⟩ := run_bind_eq_ok_iff.1 h
  cases henter
  obtain ⟨⟨⟩, s₂, hbody, hleave⟩ := run_bind_eq_ok_iff.1 hrest
  cases hleave
  exact (Walk.enter _).trans ((walks_visitPart hv _ hbody).trans (.enter none))

theorem walks_method (id : NodeId) (n : Node) : Walks (method visit id n) := by
  refine (walks_liftM _).bind fun ty => ?_
  intro s s' a h
  obtain ⟨symbol, s₁, hname, hrest⟩ := run_bind_eq_ok_iff.1 h
  obtain ⟨outer, s₂, hget, hframe⟩ := run_bind_eq_ok_iff.1 hrest
  cases hget
  obtain ⟨⟨⟩, s₃, hset, hopen⟩ := run_bind_eq_ok_iff.1 hframe
  cases hset
  obtain ⟨⟨⟩, s₄, hopened, hinside⟩ := run_bind_eq_ok_iff.1 hopen
  cases hopened
  obtain ⟨⟨⟩, s₅, hvisited, hpeak⟩ := run_bind_eq_ok_iff.1 hinside
  obtain ⟨last, s₆, hget, hrecord⟩ := run_bind_eq_ok_iff.1 hpeak
  cases hget
  obtain ⟨⟨⟩, s₇, hrecorded, hclose⟩ := run_bind_eq_ok_iff.1 hrecord
  obtain ⟨⟨⟩, s₈, hclosed, hback⟩ := run_bind_eq_ok_iff.1 hclose
  cases hback
  obtain ⟨resized, t, hresized, ht, rfl⟩ := run_recordFrame hrecorded
  obtain ⟨reclaimed, hclosed⟩ := run_discard_eq_ok_iff.1 hclosed
  obtain ⟨table, htable, rfl⟩ := run_closeScope_eq_ok_iff.1 hclosed
  obtain ⟨named, fresh⟩ := walk_methodName hname
  exact .method named fresh (walks_methodInside hv n ty hvisited) hresized ht htable

/-- Every rule walks, provided that what it visits does. -/
theorem walks_visitByKind (id : NodeId) (n : Node) : Walks (visitByKind visit id n) := by
  have siblings : Walks (do eachSibling n.first visit; eachSibling n.second visit) :=
    (walks_eachSibling hv).bind fun _ => walks_eachSibling hv
  rw [visitByKind]
  split
  case h_1 => exact siblings
  case h_2 => exact (walks_packageName id n).bind fun _ => siblings
  case h_3 => exact walks_externDecl id n
  case h_4 => exact walks_method hv id n
  case h_5 => exact walks_variableDecl id n
  case h_6 | h_7 => exact walks_pure _
  case h_8 => exact walks_block hv n
  case h_9 => exact (walks_visitPart hv _).bind fun _ => walks_visitPart hv _
  case h_10 => exact (walks_condition _).bind fun _ => walks_visitPart hv _
  case h_11 => exact walks_visitPart hv _
  case h_12 => exact walks_loop hv n
  case h_13 => exact walks_assignment id n
  case h_14 => exact walks_returnValue id n
  case h_15 | h_16 => exact walks_jump _ id
  all_goals exact (walks_expression id).bind fun _ => walks_pure _

end Parts

theorem walks_statementWithin (depth : Nat) (id : NodeId) : Walks (statementWithin depth id) := by
  induction depth generalizing id with
  | zero => exact walks_throw _
  | succ depth ih => exact (walks_node id).bind fun n => walks_visitByKind ih id n

theorem walks_statement (id : NodeId) : Walks (statement id) :=
  walks_get.bind fun _ => walks_statementWithin _ id

theorem walks_statements (head : Option NodeId) : Walks (statements head) :=
  walks_eachSibling walks_statement

end Check

end DecafStatics
