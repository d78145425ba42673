import DecafStatics.Proofs.Steady

/-!
# The rules of checking are steady

Each rule takes no notice of links between the roots of trees, provided that what it visits does
not. Expressions come first, then declarations and statements.

## Implementation notes

A rule visits nodes above ways that are shorter than those below its own node (`Below`), so the
induction that closes the knot is on that bound. It ends at `0`, where there is no such node, and
hence before a check would give up.

## Main results

* `Check.steady_expression` — typing is steady
* `Check.steady_statement` — and so is checking
-/

namespace DecafStatics.Check

variable {t : Tree} {ids : List NodeId} {id : NodeId} {n : Node} {depth : Nat}

/-! ### Expressions -/

theorem steady_expect (wanted : Ty) (received : Option Ty) (id : NodeId) :
    Steady t ids (expect wanted received id) := by
  unfold expect
  split
  · exact steady_pure trivial
  · split
    · exact steady_pure trivial
    · exact steady_report _ _

theorem steady_expectPart (wanted : Ty) (received : Option Ty) (part : Option NodeId) :
    Steady t ids (expectPart wanted received part) := by
  cases part with
  | none => exact steady_pure trivial
  | some id => exact steady_expect wanted received id

/-- What a name denotes has none of the linked nodes as its first parameter. -/
theorem steady_resolve (id : NodeId) (name : String) :
    Steady t ids (resolve id name) fun found =>
      ∀ symbol ∈ found, ∀ p ∈ symbol.params, p ∉ ids := by
  refine steady_get fun s hs => ⟨rfl, ?_⟩
  split
  · exact (steady_report _ _).bind fun _ _ => steady_pure (by simp)
  · rename_i symbolId _
    refine (steady_liftM SymbolTable.symbol_ne_endless).bind fun symbol hsymbol =>
      (steady_updateSymbol _ _).bind fun _ _ => steady_pure ?_
    rintro _ ⟨⟩
    exact hs.params symbol (Array.mem_of_getElem? (SymbolTable.symbol_eq_ok_iff.1 hsymbol))

section Parts

variable {typeOf : NodeId → Check (Option Ty)}
  (ht : ∀ id, t.Within depth id → Steady t ids (typeOf id))

include ht

theorem steady_typePart {part : Option NodeId} (h : ∀ id ∈ part, t.Within depth id) :
    Steady t ids (typePart typeOf part) := by
  cases part with
  | none => exact steady_pure trivial
  | some id => exact ht id (h id rfl)

variable (hn : Below t ids depth n)

include hn

theorem steady_operation : Steady t ids (operation typeOf n) := by
  rw [operation]
  split
  · exact steady_throw (by simp)
  · refine (steady_typePart ht fun id hid => (hn .first id hid).1).bind fun left _ =>
      (steady_typePart ht fun id hid => (hn .second id hid).1).bind fun right _ => ?_
    split
    · exact steady_pure trivial
    · exact (steady_expectPart _ _ _).bind fun _ _ =>
        (steady_expectPart _ _ _).bind fun _ _ => steady_pure trivial

theorem steady_variableUse (id : NodeId) :
    Steady t ids (variableUse typeOf id n) := by
  refine (steady_typePart ht fun id hid => (hn .first id hid).1).bind fun index _ =>
    (steady_resolve _ _).bind fun symbol _ => ?_
  split
  · exact steady_pure trivial
  · have last : ∀ ty : Ty, Steady t ids
        (do expectPart .int index n.first; return some ty) := fun ty =>
      (steady_expectPart _ _ _).bind fun _ _ => steady_pure trivial
    dsimp only
    split <;> split
    all_goals first
      | exact (steady_report _ _).bind fun _ _ => last _
      | exact last _

/-- The comparison of arguments with parameters follows two chains that are not those of the linked
nodes. -/
theorem steady_call (id : NodeId) : Steady t ids (call typeOf id n) := by
  have hfirst : ∀ id ∈ n.first, t.Within depth id ∧ id ∉ ids := hn .first
  have apart : ∀ id ∈ n.first, id ∉ ids := fun id hid => (hfirst id hid).2
  refine steady_get fun s hs => ⟨?_, ?_⟩
  · rw [Checker.joined, Tree.siblings_joined hs.free_tree apart]
  -- the arguments are read before they are typed, in a tree that is known up to annotations
  have within : ∀ id ∈ (s.tree.chain n.first).ids, t.Within depth id := by
    have inside := hs.acyclic_tree.within_chain fun id hid =>
      (Tree.within_of_bare_eq hs.bare).2 (hfirst id hid).1
    exact fun id hid => (Tree.within_of_bare_eq hs.bare).1 (inside id hid)
  refine (steady_liftM (hs.acyclic_tree.siblings_ne_endless n.first)).bind fun arguments hargs =>
    (steady_mapM fun id hid => ht id (within id ?_)).bind fun types _ =>
      (steady_resolve _ _).bind fun symbol hsymbol => ?_
  · rwa [(Chain.toExcept_eq_ok_iff.1 hargs).2]
  split
  · exact steady_pure trivial
  · rename_i symbol
    split
    · split
      · refine steady_get fun s hs => ⟨?_, ?_⟩
        · have hparams := hsymbol symbol rfl
          simp only [Checker.joined, Tree.siblings_joined hs.free_tree hparams,
            Tree.argumentsFit_joined hs.free_tree hparams apart]
        · refine (steady_liftM (hs.acyclic_tree.argumentsFit_ne_endless _ _)).bind fun fit _ => ?_
          split
          · exact steady_pure trivial
          · exact (steady_liftM (hs.acyclic_tree.siblings_ne_endless _)).bind fun _ _ =>
              (steady_report _ _).bind fun _ _ => steady_pure trivial
      · exact steady_pure trivial
    · exact (steady_report _ _).bind fun _ _ => steady_pure trivial

theorem steady_typeByKind (id : NodeId) :
    Steady t ids (typeByKind typeOf id n) := by
  rw [typeByKind]
  split
  all_goals first
    | exact steady_pure trivial
    | exact steady_variableUse ht hn id
    | exact steady_operation ht hn
    | exact steady_call ht hn id
    | exact steady_typePart ht fun id hid => (hn .first id hid).1

end Parts

theorem steady_typeWithin (h : t.Within depth id) :
    Steady t ids (typeWithin depth id) := by
  induction depth generalizing id with
  | zero => exact h.elim
  | succ depth ih =>
    refine steady_below h (fun _ _ => rfl) fun n hn hbelow => ?_
    -- only expressions come out with a type, and only they may be annotated with one
    refine ((steady_typeByKind (fun _ => ih) hbelow id).imp
      (R := fun ty => ty.isSome → n.kind.isExpression = true) ?_).bind fun ty hty => ?_
    · intro s s' ty hrun _ hsome
      obtain ⟨ty, rfl⟩ := Option.isSome_iff_exists.1 hsome
      exact isExpression_of_typeByKind hrun
    · split
      · rename_i hsome
        exact (steady_updateTy hn (hty hsome) ty).bind fun _ _ => steady_pure trivial
      · exact steady_pure trivial

/-- **Typing is steady.** -/
theorem steady_expression (id : NodeId) : Steady t ids (expression id) := by
  refine steady_get fun s hs => ⟨?_, ?_⟩
  · rw [Checker.joined, Tree.size_joined]
  · rw [Tree.size_of_bare_eq hs.bare]
    exact steady_typeWithin (hs.acyclic.within id)

/-! ### Declarations -/

theorem declaredType_ne_endless (n : Node) : declaredType n ≠ .error .endless := by
  unfold declaredType
  split <;> simp

/-- A declaration is steady if the first parameter of what it declares is none of the linked
nodes. -/
theorem steady_declare (id : NodeId) {symbol : Symbol} (hparams : ∀ p ∈ symbol.params, p ∉ ids) :
    Steady t ids (declare id symbol) := by
  refine steady_node (fun _ _ => rfl) fun n _ => steady_get fun s hs => ⟨rfl, ?_⟩
  split
  · refine (steady_modify ?_ ?_).bind fun _ _ => steady_pure trivial
    · exact fun _ => rfl
    · exact fun _ hs => hs.congr rfl rfl
  · rename_i symbolId table hinsert
    refine (steady_modify ?_ ?_).bind fun _ _ =>
      (steady_updateSymbol _ _).bind fun _ _ => steady_pure trivial
    · exact fun _ => rfl
    · exact fun _ hs' =>
        ⟨hs'.acyclic, hs'.free, hs'.bare, (hs.insert hinsert hparams).params⟩

theorem steady_declareStored (id : NodeId) (name : String) (ty : Ty) (kind : SymbolKind)
    (size : Nat) : Steady t ids (declareStored id name ty kind size) := by
  refine (steady_updateSize _ _).bind fun _ _ => steady_get fun _ _ => ⟨rfl, ?_⟩
  refine (steady_declare id ?_).bind fun symbol _ => ?_
  · exact fun _ hp => by cases hp
  split
  · exact steady_allocate _
  · exact steady_pure trivial

theorem steady_externDecl (hn : Below t ids depth n) (id : NodeId) :
    Steady t ids (externDecl id n) := by
  refine (steady_liftM (declaredType_ne_endless n)).bind fun _ _ => steady_get fun _ _ => ⟨rfl, ?_⟩
  refine (steady_declare id ?_).bind fun _ _ => steady_pure trivial
  exact fun p hp => (hn .first p hp).2

theorem steady_packageName (id : NodeId) (n : Node) :
    Steady t ids (packageName id n) := by
  refine steady_get fun _ _ => ⟨rfl, ?_⟩
  refine (steady_declare id ?_).bind fun _ _ => steady_pure trivial
  exact fun _ hp => by cases hp

theorem steady_parameter (id : NodeId) : Steady t ids (parameter id) :=
  steady_node (fun _ _ => rfl) fun n _ =>
    (steady_liftM (declaredType_ne_endless n)).bind fun _ _ => steady_declareStored _ _ _ _ _

theorem steady_methodName (hn : Below t ids depth n) (id : NodeId) (ty : Ty) :
    Steady t ids (methodName id n ty) :=
  steady_get fun _ _ => ⟨rfl, steady_declare id fun p hp => (hn .first p hp).2⟩

theorem steady_variableDecl (id : NodeId) (n : Node) :
    Steady t ids (variableDecl id n) := by
  refine (steady_liftM (declaredType_ne_endless n)).bind fun ty _ =>
    steady_mapM_node (fun _ _ => rfl) fun length => ?_
  split
  · exact steady_report _ _
  · refine (steady_declareStored _ _ _ _ _).bind fun _ _ => ?_
    split
    · exact steady_pure trivial
    · exact (steady_expression _).bind fun _ _ => steady_expect _ _ _

/-! ### Statements -/

theorem steady_condition (part : Option NodeId) :
    Steady t ids (condition part) := by
  cases part with
  | none => exact steady_pure trivial
  | some id => exact (steady_expression id).bind fun _ _ => steady_expect _ _ _

theorem steady_jump (word : String) (id : NodeId) :
    Steady t ids (jump word id) := by
  refine steady_get fun _ _ => ⟨rfl, ?_⟩
  split
  · exact steady_report _ _
  · exact steady_pure trivial

theorem steady_typePart_expression (part : Option NodeId) :
    Steady t ids (typePart expression part) := by
  cases part with
  | none => exact steady_pure trivial
  | some id => exact steady_expression id

theorem steady_assignment (id : NodeId) (n : Node) :
    Steady t ids (assignment id n) := by
  refine (steady_typePart_expression _).bind fun wanted _ =>
    (steady_typePart_expression _).bind fun received _ => ?_
  split
  · exact steady_pure trivial
  · exact steady_expect _ _ _

theorem steady_returnValue (id : NodeId) (n : Node) :
    Steady t ids (returnValue id n) := by
  refine (steady_typePart_expression _).bind fun received _ => steady_get fun _ _ => ⟨rfl, ?_⟩
  split
  · exact steady_pure trivial
  · split
    · exact steady_pure trivial
    · exact steady_report _ _
    · exact steady_report _ _
    · exact steady_expect _ _ _

/-- Changing the size of a symbol leaves its parameters alone. -/
theorem steady_recordFrame (id : NodeId) (symbol : Option SymbolId) (words : Nat) :
    Steady t ids (recordFrame id symbol words) := by
  cases symbol with
  | none => exact steady_updateSize id words
  | some symbolId =>
    have run_eq : ∀ s, (recordFrame id (some symbolId) words).run s =
        (s.table.update symbolId fun e => { e with size := words }) >>= fun table =>
          (update id fun n => { n with size := words }).run { s with table := table } := by
      intro s
      cases h : s.table.update symbolId fun e => { e with size := words } <;>
        simp [recordFrame, h]
    intro s hs
    rw [run_eq, run_eq]
    show Agree t ids _ (s.table.update _ _ >>= _) (s.table.update _ _ >>= _)
    cases hupdate : s.table.update symbolId fun e => { e with size := words } with
    | error fault => exact .of_fault fun heq => SymbolTable.update_ne_endless (heq ▸ hupdate)
    | ok table =>
      exact steady_updateSize id words (s := { s with table := table })
        (hs.updateTable hupdate fun _ => rfl)

section Parts

variable {visit : NodeId → Check Unit}
  (hv : ∀ id, t.Within depth id → Steady t ids (visit id))

include hv

theorem steady_visitPart {part : Option NodeId} (h : ∀ id ∈ part, t.Within depth id) :
    Steady t ids (visitPart visit part) := by
  cases part with
  | none => exact steady_pure trivial
  | some id => exact hv id (h id rfl)

variable (hn : Below t ids depth n)

include hn

theorem steady_first : Steady t ids (visitPart visit n.first) :=
  steady_visitPart hv fun id hid => (hn .first id hid).1

theorem steady_second : Steady t ids (visitPart visit n.second) :=
  steady_visitPart hv fun id hid => (hn .second id hid).1

theorem steady_children :
    Steady t ids (do eachSibling n.first visit; eachSibling n.second visit) :=
  (steady_eachSibling hv (hn .first)).bind fun _ _ => steady_eachSibling hv (hn .second)

theorem steady_loop : Steady t ids (loop visit n) := by
  refine (steady_condition _).bind fun _ _ => (steady_modify ?_ ?_).bind fun _ _ =>
    (steady_second hv hn).bind fun _ _ => steady_modify ?_ ?_
  all_goals first
    | exact fun _ => rfl
    | exact fun _ hs => hs.congr rfl rfl

theorem steady_block : Steady t ids (block visit n) :=
  steady_openScope.bind fun _ _ => (steady_eachSibling hv (hn .first)).bind fun _ _ =>
    (steady_eachSibling hv (hn .second)).bind fun _ _ => steady_closeScope.bind fun _ _ =>
      steady_modify (fun _ => rfl) fun _ hs => hs.congr rfl rfl

theorem steady_methodInside (ty : Ty) :
    Steady t ids (methodInsideWith parameter visit n ty) := by
  have apart : ∀ id ∈ n.first, id ∉ ids := fun id hid => (hn .first id hid).2
  refine steady_get fun s hs => ⟨?_, ?_⟩
  · rw [Checker.joined, Tree.siblings_joined hs.free_tree apart]
  refine (steady_liftM (hs.acyclic_tree.siblings_ne_endless _)).bind fun parameters _ =>
    (steady_forM fun id _ => steady_parameter id).bind fun _ _ => (steady_modify ?_ ?_).bind
      fun _ _ => (steady_second hv hn).bind fun _ _ => steady_modify ?_ ?_
  all_goals first
    | exact fun _ => rfl
    | exact fun _ hs => hs.congr rfl rfl

theorem steady_method (id : NodeId) : Steady t ids (method visit id n) := by
  refine (steady_liftM (declaredType_ne_endless n)).bind fun ty _ =>
    (steady_methodName hn id ty).bind fun symbol _ => steady_get fun _ _ => ⟨rfl, ?_⟩
  refine (steady_modify ?_ ?_).bind fun _ _ => steady_openScope.bind fun _ _ =>
    (steady_methodInside hv hn ty).bind fun _ _ => steady_get fun _ _ => ⟨rfl, ?_⟩
  · exact fun _ => rfl
  · exact fun _ hs => hs.congr rfl rfl
  exact (steady_recordFrame _ _ _).bind fun _ _ =>
    (steady_closeScope.bind (R := fun _ => True) fun _ _ => steady_pure trivial).bind fun _ _ =>
      steady_modify (fun _ => rfl) fun _ hs => hs.congr rfl rfl

/-- Every rule is steady, provided that what it visits is. -/
theorem steady_visitByKind (id : NodeId) :
    Steady t ids (visitByKind visit id n) := by
  rw [visitByKind]
  split
  case h_1 => exact steady_children hv hn
  case h_2 => exact (steady_packageName id n).bind fun _ _ => steady_children hv hn
  case h_3 => exact steady_externDecl hn id
  case h_4 => exact steady_method hv hn id
  case h_5 => exact steady_variableDecl id n
  case h_6 | h_7 => exact steady_pure trivial
  case h_8 => exact steady_block hv hn
  case h_9 => exact (steady_first hv hn).bind fun _ _ => steady_second hv hn
  case h_10 => exact (steady_condition _).bind fun _ _ => steady_second hv hn
  case h_11 => exact steady_first hv hn
  case h_12 => exact steady_loop hv hn
  case h_13 => exact steady_assignment id n
  case h_14 => exact steady_returnValue id n
  case h_15 | h_16 => exact steady_jump _ id
  all_goals exact (steady_expression id).bind fun _ _ => steady_pure trivial

end Parts

theorem steady_statementWithin (h : t.Within depth id) :
    Steady t ids (statementWithin depth id) := by
  induction depth generalizing id with
  | zero => exact h.elim
  | succ depth ih =>
    exact steady_below h (fun _ _ => rfl) fun n _ hbelow =>
      steady_visitByKind (fun _ => ih) hbelow id

/-- **Checking is steady.** -/
theorem steady_statement (id : NodeId) : Steady t ids (statement id) := by
  refine steady_get fun s hs => ⟨?_, ?_⟩
  · rw [Checker.joined, Tree.size_joined]
  · rw [Tree.size_of_bare_eq hs.bare]
    exact steady_statementWithin (hs.acyclic.within id)

end DecafStatics.Check
