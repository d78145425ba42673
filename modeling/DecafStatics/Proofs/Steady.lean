import DecafStatics.Proofs.Depth
import DecafStatics.Proofs.Linking
import DecafStatics.Proofs.Walk

/-!
# Checking does not look at links

Linking the roots of some trees into a chain changes their siblings and nothing else. Nobody looks
at the sibling of such a root: a check of what is below it reads the siblings of the nodes there,
and the roots are not among them. `Check.Steady` says of a computation that it does the same with
the links and without them: it ends with the same fault, or with the same result in states that
again differ in the links only.

## Implementation notes

What keeps a check from coming across a root is that no edge leads there, and that no symbol has
one as its first parameter. Both are invariants (`Apart`): checking changes no edge, and the
parameters of what it declares are children of a node.

In an acyclic tree nothing goes on forever, so the fault is never that one. A computation that
descends is steady on the nodes above ways that are short enough (`Tree.Within`).

## Main definitions

* `Checker.joined` — the state with links between some nodes
* `Apart` — nothing leads to these nodes
* `Check.Steady` — taking no notice of links

## Main results

* `Check.Steady.bind` — a step after another one
* `Check.steady_node`, `Check.steady_update`, `Check.steady_eachSibling` — the operations that
  come across nodes
-/

namespace DecafStatics

/-! ### Trees after linking -/

namespace Tree

variable {t : Tree} {ids : List NodeId} {head formal actual : Option NodeId}

/-- A chain that none of the nodes begins is not one of theirs. -/
theorem chainWithin_joined (hfree : ∀ id ∈ ids, t.Free id) (hhead : ∀ id ∈ head, id ∉ ids)
    (bound : Nat) : (t.joined ids).chainWithin bound head = t.chainWithin bound head := by
  induction bound generalizing head with
  | zero => cases head <;> rfl
  | succ bound ih =>
    cases head with
    | none => rfl
    | some id =>
      have hnode : (t.joined ids).node id = t.node id :=
        node_joined_of_not_mem fun hmem => hhead id rfl (List.dropLast_subset _ hmem)
      cases hn : t.node id with
      | error fault => rw [chainWithin, chainWithin, hnode, hn]
      | ok n =>
        have rest : (t.joined ids).chainWithin bound n.next = t.chainWithin bound n.next :=
          ih fun next hmem hids => hfree next hids id .next (owns_of_node hn hmem)
        rw [chainWithin_some bound hn, chainWithin_some bound (hnode.trans hn), rest]

theorem chain_joined (hfree : ∀ id ∈ ids, t.Free id) (hhead : ∀ id ∈ head, id ∉ ids) :
    (t.joined ids).chain head = t.chain head := by
  rw [chain, chain, size_joined, chainWithin_joined hfree hhead]

theorem siblings_joined (hfree : ∀ id ∈ ids, t.Free id) (hhead : ∀ id ∈ head, id ∉ ids) :
    (t.joined ids).siblings head = t.siblings head := by
  rw [siblings, siblings, chain_joined hfree hhead]

theorem argumentType_joined (argument : Node) :
    (t.joined ids).argumentType argument = t.argumentType argument := by
  unfold argumentType
  split
  · rfl
  · rw [node_joined]
    cases t.node _ <;> rfl

theorem argumentsFitWithin_joined (hfree : ∀ id ∈ ids, t.Free id)
    (hformal : ∀ id ∈ formal, id ∉ ids) (hactual : ∀ id ∈ actual, id ∉ ids) (bound : Nat) :
    (t.joined ids).argumentsFitWithin bound formal actual =
      t.argumentsFitWithin bound formal actual := by
  have same : ∀ {id}, id ∉ ids → (t.joined ids).node id = t.node id := fun hid =>
    node_joined_of_not_mem fun hmem => hid (List.dropLast_subset _ hmem)
  induction bound generalizing formal actual with
  | zero => cases formal <;> cases actual <;> rfl
  | succ bound ih =>
    cases formal with
    | none => cases actual <;> rfl
    | some parameter =>
      cases actual with
      | none => rfl
      | some argument =>
        rw [argumentsFitWithin, argumentsFitWithin, same (hformal parameter rfl),
          same (hactual argument rfl)]
        cases hn : t.node parameter with
        | error fault => rfl
        | ok n =>
          cases hm : t.node argument with
          | error fault => rfl
          | ok m =>
            simp only [argumentType_joined]
            have rest : (t.joined ids).argumentsFitWithin bound n.next m.next =
                t.argumentsFitWithin bound n.next m.next :=
              ih (fun next hmem hids => hfree next hids parameter .next (owns_of_node hn hmem))
                fun next hmem hids => hfree next hids argument .next (owns_of_node hm hmem)
            show (t.argumentType m >>= fun given => if typesFit n.ty given = true then _ else _) =
              (t.argumentType m >>= fun given => if typesFit n.ty given = true then _ else _)
            rw [rest]

theorem argumentsFit_joined (hfree : ∀ id ∈ ids, t.Free id) (hformal : ∀ id ∈ formal, id ∉ ids)
    (hactual : ∀ id ∈ actual, id ∉ ids) :
    (t.joined ids).argumentsFit formal actual = t.argumentsFit formal actual := by
  rw [argumentsFit, argumentsFit, size_joined, argumentsFitWithin_joined hfree hformal hactual]

end Tree

/-! ### Tables

Nothing that is done to a table goes on forever. -/

namespace SymbolTable

variable {table : SymbolTable} {id : SymbolId}

theorem symbol_ne_endless : table.symbol id ≠ .error .endless := by
  unfold SymbolTable.symbol
  split <;> simp

theorem update_ne_endless {f : Symbol → Symbol} : table.update id f ≠ .error .endless := by
  unfold update
  split <;> simp

theorem closeScopes_ne_endless {level : Nat} : table.closeScopes level ≠ .error .endless := by
  simp only [closeScopes]
  split <;> simp

end SymbolTable

/-! ### States -/

/-- The state with the nodes linked. -/
def Checker.joined (s : Checker) (ids : List NodeId) : Checker :=
  { s with tree := s.tree.joined ids }

/-- The state of a check of an acyclic tree, where neither an edge nor a symbol leads to any of the
nodes. The tree is known up to annotations. -/
structure Apart (t : Tree) (ids : List NodeId) (s : Checker) : Prop where
  acyclic : t.Acyclic
  free : ∀ id ∈ ids, t.Free id
  bare : s.tree.bare = t.bare
  params : ∀ symbol ∈ s.table.store, ∀ id ∈ symbol.params, id ∉ ids

namespace Apart

variable {t : Tree} {ids : List NodeId} {s : Checker}

theorem acyclic_tree (h : Apart t ids s) : s.tree.Acyclic := h.acyclic.of_bare_eq h.bare

theorem free_tree (h : Apart t ids s) : ∀ id ∈ ids, s.tree.Free id :=
  fun id hid => (h.free id hid).of_bare_eq h.bare

/-- It is a matter of the tree and the symbols. -/
theorem congr {s' : Checker} (h : Apart t ids s) (htree : s'.tree = s.tree)
    (hstore : s'.table.store = s.table.store) : Apart t ids s' where
  acyclic := h.acyclic
  free := h.free
  bare := htree ▸ h.bare
  params := hstore ▸ h.params

theorem insert {symbol : Symbol} {position : Position} {symbolId : SymbolId} {table : SymbolTable}
    (h : Apart t ids s) (hinsert : s.table.insert symbol position = .ok (symbolId, table))
    (hparams : ∀ id ∈ symbol.params, id ∉ ids) : Apart t ids { s with table := table } := by
  obtain ⟨-, -, rfl⟩ := SymbolTable.insert_eq_ok_iff.1 hinsert
  refine ⟨h.acyclic, h.free, h.bare, fun other hother => ?_⟩
  rcases Array.mem_push.1 hother with hold | rfl
  · exact h.params other hold
  · exact hparams

theorem updateTable {symbolId : SymbolId} {f : Symbol → Symbol} {table : SymbolTable}
    (h : Apart t ids s) (hupdate : s.table.update symbolId f = .ok table)
    (hf : ∀ symbol, (f symbol).params = symbol.params) : Apart t ids { s with table := table } := by
  refine ⟨h.acyclic, h.free, h.bare, fun other hother => ?_⟩
  obtain ⟨i, hi⟩ := Array.mem_iff_getElem?.1 hother
  rw [SymbolTable.getElem?_update hupdate ⟨i⟩, Option.map_eq_some_iff] at hi
  obtain ⟨old, hold, rfl⟩ := hi
  have params := h.params old (Array.mem_of_getElem? hold)
  split
  · rwa [hf]
  · exact params

end Apart

namespace Check

variable {α β : Type} {t : Tree} {ids : List NodeId} {Q R : α → Prop} {m : Check α}

/-- The outcome of two runs, from a state and from the same one with links: a fault, though not
that of going on forever, or a result in states that differ in the links only. -/
def Agree (t : Tree) (ids : List NodeId) (Q : α → Prop)
    (x y : Except Fault (α × Checker)) : Prop :=
  (∃ fault, fault ≠ .endless ∧ x = .error fault ∧ y = .error fault) ∨
    ∃ a s, Apart t ids s ∧ Q a ∧ x = .ok (a, s) ∧ y = .ok (a, s.joined ids)

/-- The computation takes no notice of links between the nodes, and what it gives is as `Q` says. -/
def Steady (t : Tree) (ids : List NodeId) (m : Check α) (Q : α → Prop := fun _ => True) : Prop :=
  ∀ ⦃s⦄, Apart t ids s → Agree t ids Q (m.run s) (m.run (s.joined ids))

theorem Agree.of_fault {fault : Fault} (h : fault ≠ .endless) :
    Agree t ids Q (.error fault) (.error fault) := .inl ⟨fault, h, rfl, rfl⟩

theorem Agree.of_ok {a : α} {s : Checker} (hs : Apart t ids s) (ha : Q a) :
    Agree t ids Q (.ok (a, s)) (.ok (a, s.joined ids)) := .inr ⟨a, s, hs, ha, rfl, rfl⟩

theorem Steady.imp (h : Steady t ids m Q)
    (hQ : ∀ {s s' a}, m.run s = .ok (a, s') → Q a → R a) : Steady t ids m R := by
  intro s hs
  rcases h hs with hfault | ⟨a, s', hs', ha, hrun, hrun'⟩
  · exact .inl hfault
  · exact .inr ⟨a, s', hs', hQ hrun ha, hrun, hrun'⟩

theorem steady_pure {a : α} (ha : Q a) : Steady t ids (pure a) Q := fun _ hs => .of_ok hs ha

theorem steady_throw {fault : Fault} (h : fault ≠ .endless) :
    Steady t ids (throw fault) Q := fun _ _ => .of_fault h

theorem steady_liftM {value : Except Fault α} (h : value ≠ .error .endless) :
    Steady t ids (liftM value : Check α) fun a => value = .ok a := by
  cases value with
  | error fault => exact fun _ _ => .of_fault fun heq => h (heq ▸ rfl)
  | ok a => exact fun _ hs => .of_ok hs rfl

theorem Steady.bind {R : β → Prop} {f : α → Check β} (hm : Steady t ids m Q)
    (hf : ∀ a, Q a → Steady t ids (f a) R) : Steady t ids (m >>= f) R := by
  intro s hs
  rw [StateT.run_bind, StateT.run_bind]
  rcases hm hs with ⟨fault, hne, hrun, hrun'⟩ | ⟨a, s', hs', ha, hrun, hrun'⟩
  · rw [hrun, hrun']
    exact .of_fault hne
  · rw [hrun, hrun']
    exact hf a ha hs'

/-- Reading the state, where what is done next depends on more than the links. -/
theorem steady_get {f : Checker → Check α}
    (hf : ∀ s, Apart t ids s → f (s.joined ids) = f s ∧ Steady t ids (f s) Q) :
    Steady t ids (get >>= f) Q := by
  intro s hs
  obtain ⟨hsame, hsteady⟩ := hf s hs
  show Agree t ids Q ((f s).run s) ((f (s.joined ids)).run (s.joined ids))
  rw [hsame]
  exact hsteady hs

/-- Changing the state in a way that has nothing to do with links. -/
theorem steady_modify {f : Checker → Checker} (hsame : ∀ s, f (s.joined ids) = (f s).joined ids)
    (hf : ∀ s, Apart t ids s → Apart t ids (f s)) :
    Steady t ids (modify f : Check PUnit) := by
  intro s hs
  rw [run_modify, run_modify, hsame]
  exact .of_ok (hf s hs) trivial

/-! ### Operations -/

section Operations

variable {id : NodeId} {depth : Nat} {head : Option NodeId}

/-- Reading a node, where what is done next does not depend on its sibling. -/
theorem steady_node {f : Node → Check α}
    (hsame : ∀ (n : Node) next, f (n.followedBy next) = f n)
    (hf : ∀ n : Node, t.Has id (fun m => m.bare = n.bare) → Steady t ids (f n) Q) :
    Steady t ids (node id >>= f) Q := by
  intro s hs
  rw [StateT.run_bind, StateT.run_bind, run_node, run_node, Checker.joined, Tree.node_joined]
  cases hn : s.tree.node id with
  | error fault => exact .of_fault fun heq => Tree.node_ne_endless (heq ▸ hn)
  | ok n =>
    obtain ⟨m, hm, hbare⟩ := Tree.node_of_bare_eq hs.bare.symm hn
    show Agree t ids Q ((f n).run s) ((f (n.followedBy _)).run (s.joined ids))
    rw [hsame]
    exact hf n ⟨m, hm, hbare⟩ hs

/-- Reading a node that may be missing. -/
theorem steady_mapM_node {part : Option NodeId} {f : Option Node → Check α}
    (hsame : ∀ (n : Node) next, f (some (n.followedBy next)) = f (some n))
    (hf : ∀ found, Steady t ids (f found) Q) : Steady t ids (part.mapM node >>= f) Q := by
  cases part with
  | none => exact hf none
  | some id =>
    rw [Option.mapM_some, bind_map_left]
    exact steady_node hsame fun n _ => hf (some n)

/-- The edges of the node lead to nodes above ways of less than `depth` nodes, and to none of those
that are linked. -/
def Below (t : Tree) (ids : List NodeId) (depth : Nat) (n : Node) : Prop :=
  ∀ edge, ∀ child ∈ n.edge edge, t.Within depth child ∧ child ∉ ids

/-- Reading a node, with what is known of the nodes that it leads to. -/
theorem steady_below {f : Node → Check α} (hw : t.Within (depth + 1) id)
    (hsame : ∀ (n : Node) next, f (n.followedBy next) = f n)
    (hf : ∀ n : Node, t.Has id (fun m => m.bare = n.bare) → Below t ids depth n →
      Steady t ids (f n) Q) : Steady t ids (node id >>= f) Q := by
  intro s hs
  refine steady_node hsame (fun n hn => hf n hn fun edge child hchild => ?_) hs
  obtain ⟨m, hm, hbare⟩ := hn
  have howns : t.Owns id edge child := by
    refine ⟨m, hm, ?_⟩
    cases edge with
    | first => exact (Node.first_of_bare_eq hbare).trans hchild
    | second => exact (Node.second_of_bare_eq hbare).trans hchild
    | next => exact (Node.next_of_bare_eq hbare).trans hchild
  exact ⟨hw edge child howns, fun hids => hs.free child hids id edge howns⟩

/-- Annotating a node. -/
theorem steady_update {f : Node → Node}
    (hsame : ∀ (n : Node) next, f (n.followedBy next) = (f n).followedBy next)
    (hnext : ∀ n, (f n).next = n.next)
    (hbare : ∀ n, t.Has id (fun m => m.bare = n.bare) → (f n).bare = n.bare) :
    Steady t ids (update id f) := by
  intro s hs
  rw [run_update, run_update, Checker.joined, Tree.update_joined hsame hnext]
  cases hu : s.tree.update id f with
  | error fault => exact .of_fault fun heq => Tree.update_ne_endless (heq ▸ hu)
  | ok u =>
    refine .of_ok ⟨hs.acyclic, hs.free, ?_, hs.params⟩ trivial
    refine (Tree.bare_update hu fun n hn => hbare n ?_).trans hs.bare
    exact (Tree.node_of_bare_eq hs.bare.symm hn)

theorem steady_updateSymbol (id : NodeId) (symbol : Option SymbolId) :
    Steady t ids (update id fun n => { n with symbol := symbol }) :=
  steady_update (fun _ _ => rfl) (fun _ => rfl) fun n _ => Node.bare_symbol n symbol

theorem steady_updateSize (id : NodeId) (size : Nat) :
    Steady t ids (update id fun n => { n with size := size }) :=
  steady_update (fun _ _ => rfl) (fun _ => rfl) fun n _ => Node.bare_size n size

/-- Only an expression is given a type. -/
theorem steady_updateTy {n : Node} (hn : t.Has id fun m => m.bare = n.bare)
    (hkind : n.kind.isExpression = true) (ty : Option Ty) :
    Steady t ids (update id fun n => { n with ty := ty }) := by
  refine steady_update (fun _ _ => rfl) (fun _ => rfl) fun m hm => Node.bare_ty ?_ ty
  obtain ⟨k, hk, hbare⟩ := hn
  obtain ⟨k', hk', hbare'⟩ := hm
  rw [hk] at hk'
  cases hk'
  rw [Node.kind_of_bare_eq (hbare'.symm.trans hbare)]
  exact hkind

theorem steady_report (problem : Problem) (id : NodeId) :
    Steady t ids (report problem id) :=
  steady_node (fun _ _ => rfl) fun _ _ =>
    steady_modify (fun _ => rfl) fun _ hs => hs.congr rfl rfl

theorem steady_allocate (words : Nat) : Steady t ids (allocate words) := by
  intro s hs
  by_cases hlt : s.frame.offset + words < wordLimit
  · rw [run_allocate hlt, run_allocate (s := s.joined ids) hlt]
    exact .of_ok (s := { s with frame := _ }) (hs.congr rfl rfl) trivial
  · have fault : ∀ s : Checker, ¬ s.frame.offset + words < wordLimit →
        (allocate words).run s = .error .sizeOverflow := by
      intro s hlt
      simp [allocate, hlt]
      rfl
    rw [fault s hlt, fault (s.joined ids) hlt]
    exact .of_fault (by simp)

theorem steady_openScope : Steady t ids openScope :=
  steady_modify (fun _ => rfl) fun _ hs => hs.congr rfl rfl

theorem steady_closeScope : Steady t ids closeScope := by
  intro s hs
  rw [run_closeScope, run_closeScope]
  show Agree t ids _ _ ((s.table.closeScopes s.level).map _)
  cases hclose : s.table.closeScopes s.level with
  | error fault => exact .of_fault fun heq => SymbolTable.closeScopes_ne_endless (heq ▸ hclose)
  | ok r =>
    obtain ⟨reclaimed, table⟩ := r
    obtain ⟨-, -, rfl⟩ := SymbolTable.closeScopes_eq_ok_iff.1 hclose
    exact .of_ok (s := { s with table := _, level := _ }) (hs.congr rfl rfl) trivial

theorem steady_forM {l : List β} {visit : β → Check PUnit}
    (hv : ∀ b ∈ l, Steady t ids (visit b)) :
    Steady t ids (l.forM visit) := by
  induction l with
  | nil => exact steady_pure trivial
  | cons b rest ih =>
    obtain ⟨hb, hrest⟩ := List.forall_mem_cons.1 hv
    exact hb.bind fun _ _ => ih hrest

theorem steady_mapM {l : List NodeId} {visit : NodeId → Check β}
    (hv : ∀ id ∈ l, Steady t ids (visit id)) :
    Steady t ids (l.mapM visit) := by
  induction l with
  | nil =>
    rw [List.mapM_nil]
    exact steady_pure trivial
  | cons id rest ih =>
    obtain ⟨hid, hrest⟩ := List.forall_mem_cons.1 hv
    rw [List.mapM_cons]
    exact hid.bind fun _ _ => (ih hrest).bind fun _ _ => steady_pure trivial

/-- Visiting the siblings from a node on. -/
theorem steady_eachSibling {visit : NodeId → Check Unit}
    (hv : ∀ id, t.Within depth id → Steady t ids (visit id))
    (hhead : ∀ id ∈ head, t.Within depth id ∧ id ∉ ids) :
    Steady t ids (eachSibling head visit) := by
  refine steady_get fun s hs => ⟨?_, ?_⟩
  · rw [Checker.joined, Tree.chain_joined hs.free_tree fun id hid => (hhead id hid).2]
  · have hwithin := hs.acyclic_tree.within_chain fun id hid =>
      (Tree.within_of_bare_eq hs.bare).2 (hhead id hid).1
    have inside : ∀ id ∈ (s.tree.chain head).ids, t.Within depth id :=
      fun id hid => (Tree.within_of_bare_eq hs.bare).1 (hwithin id hid)
    refine (steady_forM fun id hid => hv id (inside id hid)).bind fun _ _ => ?_
    exact (steady_liftM (hs.acyclic_tree.ending_ne_endless head)).imp fun _ _ => trivial

end Operations

end Check

end DecafStatics
