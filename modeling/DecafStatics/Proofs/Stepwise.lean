import DecafStatics.CompilationUnit
import DecafStatics.Proofs.Growth
import DecafStatics.Proofs.SteadyRules

/-!
# Checking a program bit by bit

A program need not be at hand as a whole to be checked. The roots of its trees can be checked one
after the other, with one table and one list of diagnostics, before they are linked; what is found
out is the same as by one check of the chain that they form once they are linked.

A check reads a chain before it visits the nodes. That makes no difference to reading the sibling
of each node after the visit, since no visit changes a link.

## Main definitions

* `Check.linkByLink` — visiting a chain, with each sibling read after the visit of the node before it

## Main results

* `Check.run_eachSibling` — visiting a chain is visiting it link by link
* `Check.run_statements_of_linked` — checking a chain is checking its nodes in turn
* `CompilationUnit.runCheck_forM_statements` — checking before linking and after it
-/

namespace DecafStatics

namespace Check

/-! ### Link by link -/

/-- Visits the nodes from `head` on, and reads the sibling of each after its visit. -/
def linkByLink (visit : NodeId → Check Unit) : Nat → Option NodeId → Check Unit
  | _, none => pure ()
  | 0, some _ => throw .endless
  | bound + 1, some id => do
    visit id
    linkByLink visit bound (← node id).next

variable {visit : NodeId → Check Unit}

theorem run_linkByLink (hv : ∀ id, Walks (visit id))
    (hmissing : ∀ {id s fault}, s.tree.node id = .error fault → (visit id).run s = .error fault)
    (bound : Nat) (head : Option NodeId) (s : Checker) :
    (linkByLink visit bound head).run s = (do
      (s.tree.chainWithin bound head).ids.forM visit
      liftM (s.tree.chainWithin bound head).ending : Check Unit).run s := by
  induction bound generalizing head s with
  | zero => cases head <;> rfl
  | succ bound ih =>
    cases head with
    | none => rfl
    | some id =>
      rw [linkByLink, StateT.run_bind]
      cases hn : s.tree.node id with
      | error fault =>
        rw [hmissing hn, Tree.chainWithin, hn]
        rfl
      | ok n =>
        rw [Tree.chainWithin_some bound hn]
        -- the first visit, then all the others, then the end
        show _ = ((visit id >>= fun _ => (s.tree.chainWithin bound n.next).ids.forM visit) >>=
          fun _ => liftM (s.tree.chainWithin bound n.next).ending).run s
        rw [bind_assoc, StateT.run_bind]
        cases hrun : (visit id).run s with
        | error fault => rfl
        | ok r =>
          obtain ⟨⟨⟩, s'⟩ := r
          have hbare := (hv id hrun).bare_tree
          obtain ⟨m, hm, hmn⟩ := Tree.node_of_bare_eq hbare hn
          show (node id >>= fun n => linkByLink visit bound n.next).run s' = _
          rw [run_bind_of_ok (by rw [run_node, hm]; rfl), ih, Node.next_of_bare_eq hmn,
            Tree.chainWithin_of_bare_eq hbare]
          rfl

/-- **A chain is visited link by link.** Its links are where they were before, whatever the visits
have written. -/
theorem run_eachSibling (hv : ∀ id, Walks (visit id))
    (hmissing : ∀ {id s fault}, s.tree.node id = .error fault → (visit id).run s = .error fault)
    (head : Option NodeId) (s : Checker) :
    (eachSibling head visit).run s = (linkByLink visit (s.tree.size + 1) head).run s :=
  (run_linkByLink hv hmissing _ head s).symm

/-- Checking a node that is missing is the fault of reading it. -/
theorem run_statementWithin_of_missing {id : NodeId} {s : Checker} {fault : Fault}
    (h : s.tree.node id = .error fault) (depth : Nat) :
    (statementWithin (depth + 1) id).run s = .error fault := by
  rw [statementWithin, StateT.run_bind, run_node, h]
  rfl

/-- The chains inside of what is checked are checked link by link. -/
theorem run_eachSibling_statementWithin (depth : Nat) (head : Option NodeId) (s : Checker) :
    (eachSibling head (statementWithin (depth + 1))).run s =
      (linkByLink (statementWithin (depth + 1)) (s.tree.size + 1) head).run s :=
  run_eachSibling (walks_statementWithin _) (run_statementWithin_of_missing · depth) head s

/-- So is the chain that is checked. -/
theorem run_statements (head : Option NodeId) (s : Checker) :
    (statements head).run s = (linkByLink statement (s.tree.size + 1) head).run s :=
  run_eachSibling walks_statement (fun {_ s _} h => run_statementWithin_of_missing h s.tree.size)
    head s

/-! ### Node by node -/

variable {t : Tree} {ids : List NodeId} {head : Option NodeId} {s : Checker}

/-- Checking a chain is checking its nodes in turn. -/
theorem run_statements_of_linked (h : s.tree.Linked head ids) :
    (statements head).run s = (ids.forM statement).run s := by
  have hchain : s.tree.chain head = ⟨ids, none⟩ :=
    Tree.chainWithin_of_linked h (Nat.le_succ_of_le h.length_le)
  show (do (s.tree.chain head).ids.forM statement; liftM (s.tree.chain head).ending).run s = _
  rw [hchain]
  show ((ids.forM statement) >>= fun _ => pure ()).run s = _
  rw [bind_pure_unit]

/-- Nodes without siblings are chains of their own, and remain so while others are checked. -/
theorem run_forM_statements (hs : s.tree.bare = t.bare)
    (h : ∀ id ∈ ids, t.Has id fun n => n.next = none) :
    (ids.forM fun id => statements (some id)).run s = (ids.forM statement).run s := by
  induction ids generalizing s with
  | nil => rfl
  | cons id rest ih =>
    obtain ⟨hid, hrest⟩ := List.forall_mem_cons.1 h
    obtain ⟨n, hn, hnext⟩ := hid.of_bare_eq hs fun n m hb hn => (Node.next_of_bare_eq hb).trans hn
    have alone : s.tree.Linked (some id) [id] := .cons hn (hnext ▸ .nil)
    have first : (statements (some id)).run s = (statement id).run s := by
      rw [run_statements_of_linked alone]
      show (statement id >>= fun _ => pure ()).run s = _
      rw [bind_pure_unit]
    show (statements (some id) >>= fun _ => rest.forM fun id => statements (some id)).run s =
      (statement id >>= fun _ => rest.forM statement).run s
    rw [StateT.run_bind, StateT.run_bind, first]
    cases hrun : (statement id).run s with
    | error fault => rfl
    | ok r =>
      obtain ⟨⟨⟩, s'⟩ := r
      exact ih ((walks_statement id hrun).bare_tree.trans hs) hrest

end Check

namespace CompilationUnit

variable {u : CompilationUnit} {ids : List NodeId}

section RunCheck

variable {α : Type} {check : Check α} {s : Checker}

theorem runCheck_of_fault {fault : Fault} (h : check.run (.start u.tree u.table) = .error fault) :
    u.runCheck check = .error fault := by
  rw [runCheck, h]
  rfl

theorem runCheck_of_ok {a : α} (h : check.run (.start u.tree u.table) = .ok (a, s)) :
    u.runCheck check =
      .ok (a, s.diagnostics.toList, { u with tree := s.tree, table := s.table }) := by
  rw [runCheck, h]
  rfl

end RunCheck

/-- **Checking bit by bit.** Let there be different nodes in an acyclic tree that no edge leads to
and that have no siblings, nor is one of them the first parameter of a symbol. Then they can be
linked, and a check of one after the other before that ends like a check of their chain after it:
both with the same fault, or both with the same diagnostics, the same table, and trees that differ
in those links only. All of these checks follow the chains that they come to link by link, and read
the sibling of a node after the visit of the node. -/
theorem runCheck_forM_statements (hacyclic : u.tree.Acyclic) (hd : ids.Nodup)
    (hready : ∀ id ∈ ids, u.tree.Ready id)
    (hparams : ∀ symbol ∈ u.table.store, ∀ id ∈ symbol.params, id ∉ ids) :
    (∃ head linked, (Build.link ids).run u.tree = .ok (head, linked) ∧
      ((∃ fault, fault ≠ .endless ∧
          u.runCheck (ids.forM fun id => Check.statements (some id)) = .error fault ∧
          { u with tree := linked }.runCheck (Check.statements head) = .error fault) ∨
        ∃ found v w,
          u.runCheck (ids.forM fun id => Check.statements (some id)) = .ok ((), found, v) ∧
          { u with tree := linked }.runCheck (Check.statements head) = .ok ((), found, w) ∧
          v.table = w.table ∧ v.tree.link ids = .ok w.tree ∧
          ∀ id n, v.tree.node id = .ok n →
            ∃ next, w.tree.node id = .ok (n.followedBy next))) ∧
    (∀ head s, (Check.statements head).run s =
      (Check.linkByLink Check.statement (s.tree.size + 1) head).run s) ∧
    ∀ depth head s, (Check.eachSibling head (Check.statementWithin (depth + 1))).run s =
      (Check.linkByLink (Check.statementWithin (depth + 1)) (s.tree.size + 1) head).run s := by
  refine ⟨?_, Check.run_statements, Check.run_eachSibling_statementWithin⟩
  have inside : ∀ id ∈ ids, id.index < u.tree.size := fun id hid => (hready id hid).loose.1
  refine ⟨ids.head?, u.tree.joined ids, Build.run_link hd inside, ?_⟩
  have steps := Check.run_forM_statements (s := .start u.tree u.table) rfl
    fun id hid => (hready id hid).2
  have whole := Check.run_statements_of_linked (s := .start (u.tree.joined ids) u.table)
    (Tree.linked_joined hd fun id hid => (hready id hid).2)
  have apart : Apart u.tree ids (.start u.tree u.table) :=
    ⟨hacyclic, fun id hid => (hready id hid).1, rfl, hparams⟩
  rcases Check.steady_forM (fun id _ => Check.steady_statement id) apart with
    ⟨fault, hne, hrun, hrun'⟩ | ⟨⟨⟩, s, hs, -, hrun, hrun'⟩
  · exact .inl ⟨fault, hne, runCheck_of_fault (steps.trans hrun),
      runCheck_of_fault (whole.trans hrun')⟩
  · have same : s.tree.size = u.tree.size := Tree.size_of_bare_eq hs.bare
    refine .inr ⟨_, _, _, runCheck_of_ok (steps.trans hrun),
      runCheck_of_ok (s := s.joined ids) (whole.trans hrun'), rfl,
      Tree.link_eq hd fun id hid => same ▸ inside id hid, fun id n hn => ?_⟩
    exact ⟨(successor id ids).or n.next, by rw [Checker.joined, Tree.node_joined, hn]; rfl⟩

/-- A variable, an assignment to it, and a call with its value, which are not linked. What is called
is in the table already, with a parameter in the same tree. -/
def fragments : CompilationUnit where
  tree := ⟨#[
    { Node.blank .variableDecl with name := some "x", ty := some .int },
    { Node.blank .assignment with first := some ⟨2⟩, second := some ⟨3⟩ },
    { Node.blank .target with name := some "x" },
    { Node.blank .boolConstant with value := 1 },
    { Node.blank .call with name := some "f", first := some ⟨5⟩ },
    { Node.blank .argument with first := some ⟨6⟩ },
    { Node.blank .reference with name := some "x" },
    { Node.blank .externType with ty := some .bool }]⟩
  table := ⟨#[⟨"f", .void, .externMethod, 0, 1, 0, some ⟨7⟩⟩], [⟨0⟩], 0⟩
  root := none

/-- The variable, the assignment and the call. -/
def fragmentRoots : List NodeId := [⟨0⟩, ⟨1⟩, ⟨4⟩]

theorem runCheck_forM_statements_fragments :
    fragments.tree.Acyclic ∧ (∀ id ∈ fragmentRoots, fragments.tree.Ready id) ∧
      ∃ linked found v w, (Build.link fragmentRoots).run fragments.tree = .ok (some ⟨0⟩, linked) ∧
        linked ≠ fragments.tree ∧ found.length = 2 ∧ v.tree ≠ fragments.tree ∧
        fragments.runCheck (fragmentRoots.forM fun id => Check.statements (some id)) =
          .ok ((), found, v) ∧
        { fragments with tree := linked }.runCheck (Check.statements (some ⟨0⟩)) =
          .ok ((), found, w) ∧
        v.table = w.table ∧ v.tree.link fragmentRoots = .ok w.tree ∧
        (Check.statements (some ⟨0⟩)).run (.start linked fragments.table) =
          (Check.linkByLink Check.statement (linked.size + 1) (some ⟨0⟩)).run
            (.start linked fragments.table) := by
  have hacyclic : fragments.tree.Acyclic := Tree.acyclic_of_forall (by decide)
  have hready : ∀ id ∈ fragmentRoots, fragments.tree.Ready id := by
    intro id hid
    refine ⟨Tree.free_of_forall (by revert id; decide), ?_⟩
    simp only [fragmentRoots, List.mem_cons, List.not_mem_nil, or_false] at hid
    rcases hid with rfl | rfl | rfl <;> exact ⟨_, rfl, rfl⟩
  have complains : (fragments.runCheck (fragmentRoots.forM fun id =>
      Check.statements (some id))).toOption.any fun r =>
        r.2.1.length = 2 ∧ r.2.2.tree ≠ fragments.tree := by
    decide +kernel
  obtain ⟨⟨⟨⟩, found, v⟩, hrun, hfound⟩ := exists_ok_of_any complains
  obtain ⟨hlength, hannotated⟩ := of_decide_eq_true hfound
  obtain ⟨⟨head, linked, hlink, houtcome⟩, hlinks, -⟩ :=
    runCheck_forM_statements hacyclic (by decide) hready (by decide)
  have hhead : head = some ⟨0⟩ ∧ linked ≠ fragments.tree := by
    cases hlink
    decide
  obtain ⟨rfl, hlinked⟩ := hhead
  rcases houtcome with ⟨fault, -, hfault, -⟩ | ⟨found', v', w, hrun', hwhole, htable, htree, -⟩
  · rw [hrun] at hfault
    cases hfault
  · rw [hrun] at hrun'
    cases hrun'
    exact ⟨hacyclic, hready, linked, found, v, w, hlink, hlinked, hlength, hannotated, hrun,
      hwhole, htable, htree, hlinks ..⟩

end CompilationUnit

end DecafStatics
