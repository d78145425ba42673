import DecafStatics.Proofs.Indentation
import DecafStatics.Proofs.Programs
import DecafStatics.Proofs.Unaltered

/-!
# Checking and dumping to the end

A program can be checked any number of times in a row, and dumped at any time. A check after the
first one finds all names of the program declared already and reports them, but it comes to its
end as the first one does: no node or symbol is missing, no sum of sizes is too large, and nothing
that needs a type or an operator lacks it.

The invariant between two checks is `CompilationUnit.Rests`. It does not say what is in the table,
only that the table is in keeping with the text and that all in sight is global.

## Scope

There are programs without a dump. Nothing in the grammar bounds how deep an expression is nested,
but a line can be indented only so far; `Program.width` says how far it has to be. What is said of
any number of checks is said of symbols that are numbered without a bound, as elsewhere.

## Main definitions

* `CompilationUnit.checkTimes` — checking some number of times
* `CompilationUnit.Rests` — holding a program that may have been checked before
* `CompilationUnit.nested` — programs that are nested as deep as desired

## Main results

* `CompilationUnit.Rests.check` — a check comes to its end
* `CompilationUnit.exists_checkTimes_and_dumpText` — checks and dumps of a program come to their end
* `CompilationUnit.faults_nested_untyped` — a program that is nested too deep, and one without a type
-/

namespace DecafStatics

namespace Program

/-- A program is checked to the level that it was checked from. -/
theorem level_behind (c : Context) (p : Program) :
    (p.behind (p.externs.foldl Extern.next c)).level = c.level := by
  have externs : ∀ (c : Context) (e : Extern), (e.next c).level = c.level :=
    fun _ _ => Context.level_declare
  have fields : ∀ (c : Context) (d : VarDecl), (d.next c).level = c.level := by
    intro c d
    obtain ⟨new, -, hnext⟩ := VarDecl.grows c d
    rw [hnext]
    rfl
  have methods : ∀ (c : Context) (m : Method), (m.next c).level = c.level :=
    fun _ _ => Context.level_declare
  rw [behind, Context.foldl_keeps Context.level methods,
    Context.foldl_keeps Context.level fields, named, Context.level_declare,
    Context.foldl_keeps Context.level externs]

end Program

/-- What a check leaves in the global scope is where the next one can start. -/
theorem Checker.Stands.restart {s : Checker} {t : Tree} {c : Context} (hs : s.Stands t c)
    (hlevel : c.level = 0) : (Checker.start s.tree s.table).Stands t
      { c with frame := .starting 0, loops := 0, method := none } where
  text := hs.text
  seated := by
    have live := hs.live_eq
    simp only [seat, start, ← live, hlevel]
  count := hs.count
  stored := hs.stored
  sound := hs.sound.congr rfl (Nat.le_refl _)

namespace CompilationUnit

variable {u : CompilationUnit} {t : Tree} {p : Program}

/-- Checks the program some number of times in a row. -/
def checkTimes (u : CompilationUnit) : Nat → Except Fault (List (List Diagnostic) × CompilationUnit)
  | 0 => .ok ([], u)
  | k + 1 => do
    let (found, v) ← u.check
    let (rest, w) ← v.checkTimes k
    .ok (found :: rest, w)

/-- A unit with the text of `t` and with the program `p` at its root, before a check. -/
structure Rests (u : CompilationUnit) (t : Tree) (p : Program) : Prop where
  root : u.root = some p.id
  stands : ∃ c, (Checker.start u.tree u.table).Stands t c

theorem Holds.rests (h : u.Holds p) : u.Rests u.tree p := ⟨h.root, .start, h.stands⟩

namespace Rests

theorem text (h : u.Rests t p) : u.tree.bare = t.bare := by
  obtain ⟨c, hs⟩ := h.stands
  exact hs.text

/-- **A check comes to its end**, and the next one can start from there. -/
theorem check (h : u.Rests t p) (hp : t.HasProgram p) (hd : p.ids.Nodup)
    (hhandles : ∀ id ∈ p.ids, id.index < maxHandles) :
    ∃ found v, u.check = .ok (found, v) ∧ v.Rests t p := by
  obtain ⟨c, hs⟩ := h.stands
  obtain ⟨run, stands⟩ := Check.plays_statements hp hd hhandles hs hs.frame_eq.symm
  have global := (Program.level_behind c p).trans hs.level_eq.symm
  generalize ((Checker.start u.tree u.table).play _).seat _ = s' at run stands
  refine ⟨s'.diagnostics.toList, { u with tree := s'.tree, table := s'.table }, ?_, h.root, _,
    stands.restart global⟩
  rw [CompilationUnit.check, runCheck, h.root, run]
  rfl

theorem checkTimes (h : u.Rests t p) (hp : t.HasProgram p) (hd : p.ids.Nodup)
    (hhandles : ∀ id ∈ p.ids, id.index < maxHandles) (k : Nat) :
    ∃ reports v, u.checkTimes k = .ok (reports, v) ∧ reports.length = k ∧ v.Rests t p := by
  induction k generalizing u with
  | zero => exact ⟨[], u, rfl, rfl, h⟩
  | succ k ih =>
    obtain ⟨found, v, hcheck, hv⟩ := h.check hp hd hhandles
    obtain ⟨rest, w, hrest, hlength, hw⟩ := ih hv
    refine ⟨found :: rest, w, ?_, congrArg Nat.succ hlength, hw⟩
    rw [CompilationUnit.checkTimes, hcheck]
    show (v.checkTimes k >>= fun r => _) = _
    rw [hrest]
    rfl

end Rests

/-- The dump of a program comes to its end, unless one of its lines is indented by more than an
indentation can be wide. -/
theorem dumpText_outcome (h : u.Holds p) (hlone : u.tree.Lone p.lone) :
    if p.width ≤ Tree.maxIndent then ∃ text, u.dumpText = .ok text
    else u.dumpText = .error .indentTooWide := by
  rw [dumpText, Tree.dumpText, h.root]
  exact (Tree.needs_dump h.held h.alone hlone).toText

/-- A program of at most 21845 nodes is never too wide to be dumped. -/
theorem exists_dumpText (h : u.Holds p) (hlone : u.tree.Lone p.lone)
    (hfew : 3 * p.ids.length ≤ Tree.maxIndent) : ∃ text, u.dumpText = .ok text := by
  have outcome := dumpText_outcome h hlone
  rwa [if_pos (Nat.le_trans p.width_le hfew)] at outcome

/-- **Checks and dumps of a program come to their end.** The program is checked any number of
times in a row without a fault, and its dump is at all times what it was at first. If no line is
indented by more than an indentation can be wide the dump comes to its end, and otherwise it ends
with the fault that says so and with no other one. -/
theorem exists_checkTimes_and_dumpText (h : u.Holds p) (hlone : u.tree.Lone p.lone) :
    (∀ k, ∃ reports v, u.checkTimes k = .ok (reports, v) ∧ reports.length = k ∧
      v.dumpText = u.dumpText) ∧
    (p.width ≤ Tree.maxIndent → ∃ text, u.dumpText = .ok text) ∧
    (Tree.maxIndent < p.width → u.dumpText = .error .indentTooWide) := by
  have outcome := dumpText_outcome h hlone
  refine ⟨fun k => ?_, fun narrow => ?_, fun wide => ?_⟩
  · obtain ⟨reports, v, hchecks, hlength, hv⟩ :=
      h.rests.checkTimes h.held h.alone h.addressable k
    refine ⟨reports, v, hchecks, hlength, ?_⟩
    rw [dumpText, dumpText, Tree.dumpText, Tree.dumpText, hv.root, h.root,
      Tree.dump_of_bare_eq hv.text]
  · rwa [if_pos narrow] at outcome
  · rwa [if_neg (Nat.not_le_of_lt wide)] at outcome

theorem exists_checkTimes_and_dumpText_shadowing :
    (∃ reports v, shadowingUnit.checkTimes 3 = .ok (reports, v) ∧ reports.length = 3 ∧
      v.dumpText = shadowingUnit.dumpText) ∧ ∃ text, shadowingUnit.dumpText = .ok text := by
  have nodes : shadowing.lone = [⟨5⟩, ⟨11⟩, ⟨12⟩, ⟨13⟩, ⟨15⟩] := rfl
  have lone : shadowingUnit.tree.Lone shadowing.lone := by
    rw [Tree.Lone, nodes]
    simp only [List.forall_mem_cons]
    exact ⟨⟨_, rfl, rfl⟩, ⟨_, rfl, rfl⟩, ⟨_, rfl, rfl⟩, ⟨_, rfl, rfl⟩, ⟨_, rfl, rfl⟩, by simp⟩
  have narrow : shadowing.width ≤ Tree.maxIndent := by decide
  obtain ⟨checks, dumps, -⟩ := exists_checkTimes_and_dumpText holds_shadowing lone
  exact ⟨checks 3, dumps narrow⟩

end CompilationUnit

/-! ### Programs that do not come to their end -/

/-- A constant behind `k` minus signs, held by the nodes from `first` on. -/
def Expr.negated (first : Nat) : Nat → Expr
  | 0 => .literal (.int ⟨first⟩ 1)
  | k + 1 => .unary ⟨first⟩ .unaryMinus rfl (negated (first + 1) k)

/-- The nodes of a constant behind `k` minus signs. -/
def Tree.negatedNodes (first : Nat) : Nat → List Node
  | 0 => [{ Node.blank .intConstant with value := 1 }]
  | k + 1 =>
    { Node.blank .operation with operator := some .unaryMinus, first := some ⟨first + 1⟩ } ::
      negatedNodes (first + 1) k

namespace Expr

theorem id_negated (first k : Nat) : (negated first k).id = ⟨first⟩ := by
  cases k <;> rfl

theorem ids_negated (first k : Nat) :
    (negated first k).ids = (List.range' first (k + 1)).map NodeId.mk := by
  induction k generalizing first with
  | zero => rfl
  | succ k ih =>
    show ⟨first⟩ :: (negated (first + 1) k).ids = _
    rw [ih, List.range'_succ (n := k + 1), List.map_cons]

/-- All nodes stand alone. -/
theorem lone_negated (first k : Nat) : (negated first k).lone = (negated first k).ids := by
  induction k generalizing first with
  | zero => rfl
  | succ k ih => exact congrArg (⟨first⟩ :: ·) (ih (first + 1))

/-- Each minus sign makes the dump wider by one. -/
theorem width_negated (level first k : Nat) : (negated first k).width level = level + k := by
  induction k generalizing level first with
  | zero => rfl
  | succ k ih =>
    show max level ((negated (first + 1) k).width (level + 1)) = _
    rw [ih]
    omega

end Expr

namespace Tree

theorem next_negatedNodes {first k : Nat} : ∀ n ∈ negatedNodes first k, n.next = none := by
  induction k generalizing first with
  | zero => exact List.forall_mem_singleton.2 rfl
  | succ k ih => exact List.forall_mem_cons.2 ⟨rfl, ih⟩

/-- The nodes hold the expression wherever they stand. -/
theorem hasExpr_negated (before : List Node) (k : Nat) :
    HasExpr ⟨(before ++ negatedNodes before.length k).toArray⟩ (.negated before.length k) := by
  induction k generalizing before with
  | zero =>
    let n : Node := { Node.blank .intConstant with value := 1 }
    have hn : node ⟨(before ++ [n]).toArray⟩ ⟨before.length⟩ = .ok n := by simp [node]
    exact .literal ⟨n, hn, rfl, rfl⟩
  | succ k ih =>
    let n : Node :=
      { Node.blank .operation with operator := some .unaryMinus, first := some ⟨before.length + 1⟩ }
    have hn : node ⟨(before ++ n :: negatedNodes (before.length + 1) k).toArray⟩ ⟨before.length⟩ =
        .ok n := by simp [node]
    have operand := ih (before ++ [n])
    rw [List.length_append, List.append_assoc] at operand
    have first : n.first = some (Expr.negated (before.length + 1) k).id := by
      rw [Expr.id_negated]
    exact .unary ⟨n, hn, rfl, rfl, first, rfl⟩ operand

end Tree

namespace CompilationUnit

/-- A method that returns a constant behind `k` minus signs. -/
def nested (k : Nat) : Program where
  id := ⟨0⟩
  externs := []
  package := ⟨1⟩
  name := "P"
  fields := []
  methods := [{
    id := ⟨2⟩, name := "f", ty := .int, params := [], body := ⟨3⟩, locals := [],
    statements := [.returnValue ⟨4⟩ (some (.negated 5 k))] }]

/-- A unit that holds this program. -/
def nestedUnit (k : Nat) : CompilationUnit where
  tree := ⟨([
    { Node.blank .program with second := some ⟨1⟩ },
    { Node.blank .package with name := some "P", second := some ⟨2⟩ },
    { Node.blank .methodDecl with name := some "f", ty := some .int, second := some ⟨3⟩ },
    { Node.blank .block with second := some ⟨4⟩ },
    { Node.blank .returnValue with first := some ⟨5⟩ }] ++ Tree.negatedNodes 5 k).toArray⟩
  table := .empty
  root := some ⟨0⟩

theorem ids_nested (k : Nat) : (nested k).ids =
    [⟨0⟩, ⟨1⟩, ⟨2⟩, ⟨3⟩, ⟨4⟩] ++ (Expr.negated 5 k).ids := by
  simp [nested, Program.ids, Method.ids, Method.block, Stmt.ids, Stmt.bodyIds]

theorem lone_nested (k : Nat) : (nested k).lone = ⟨3⟩ :: (Expr.negated 5 k).ids := by
  have lone := Expr.lone_negated 5 k
  simp [nested, Program.lone, Method.lone, Method.block, Stmt.lone, Stmt.bodyLone, lone]

/-- The nodes are those of the tree, one after the other. -/
theorem ids_nested_eq_range' (k : Nat) :
    (nested k).ids = (List.range' 0 (k + 6)).map NodeId.mk := by
  rw [ids_nested, Expr.ids_negated]
  rfl

theorem width_nested (k : Nat) : (nested k).width = k + 3 := by
  have inside := Expr.width_negated 3 5 k
  show max 0 (max (max 2 (max (max 2 ((Expr.negated 5 k).width 3)) 0)) 0) = _
  rw [inside]
  omega

theorem holds_nested {k : Nat} (h : k + 6 ≤ maxHandles) : (nestedUnit k).Holds (nested k) where
  fresh := rfl
  root := rfl
  held := {
    root := ⟨_, rfl, rfl, rfl, .nil, rfl⟩
    package := ⟨_, rfl, rfl, rfl, rfl, .nil, .cons rfl .nil⟩
    externs := List.forall_mem_nil _
    fields := List.forall_mem_nil _
    methods := by
      have value : (nestedUnit k).tree.HasExpr (.negated 5 k) := Tree.hasExpr_negated _ k
      have leave : (nestedUnit k).tree.HasStmt (.returnValue ⟨4⟩ (some (.negated 5 k))) := by
        refine .returnValue ⟨_, rfl, rfl, ?_⟩ fun e he => ?_
        · exact congrArg some (Expr.id_negated 5 k).symm
        · cases he
          exact value
      exact List.forall_mem_singleton.2 {
        node := ⟨_, rfl, rfl, rfl, rfl, .nil, rfl⟩
        params := List.forall_mem_nil _
        block := .block ⟨_, rfl, rfl, .nil, .cons rfl .nil⟩ (List.forall_mem_nil _)
          (List.forall_mem_singleton.2 leave) } }
  alone := by
    rw [ids_nested_eq_range']
    refine List.Pairwise.map NodeId.mk (fun i j hne hid => ?_) List.nodup_range'
    exact hne (NodeId.mk.inj hid)
  addressable := by
    rw [ids_nested_eq_range']
    refine List.forall_mem_map.2 fun i hi => ?_
    have below := (List.mem_range'_1.1 hi).2
    exact Nat.lt_of_lt_of_le below (Nat.le_trans (Nat.le_of_eq (Nat.zero_add _)) h)

/-- No node has another one behind it. -/
theorem alone_nested {k : Nat} (h : k + 6 ≤ maxHandles) :
    (nestedUnit k).tree.Lone (nested k).lone := by
  have last : ∀ n ∈ (nestedUnit k).tree.nodes, n.next = none := by
    intro n hn
    rcases List.mem_append.1 (List.mem_toArray.1 hn) with hn | hn
    · simp only [List.mem_cons, List.not_mem_nil, or_false] at hn
      rcases hn with rfl | rfl | rfl | rfl | rfl <;> rfl
    · exact Tree.next_negatedNodes n hn
  have inside : (nested k).lone ⊆ (nested k).ids := by
    rw [lone_nested, ids_nested]
    exact List.cons_subset.2 ⟨by simp, List.subset_append_right _ _⟩
  intro id hid
  obtain ⟨n, hn⟩ := Tree.node_ok_of_lt ((holds_nested h).held.lt_size id (inside hid))
  exact ⟨n, hn, last n (Array.mem_of_getElem? (Tree.node_eq_ok_iff.1 hn))⟩

/-- Behind too many minus signs a constant is too wide to be shown. -/
theorem dumpText_nested {k : Nat} (h : k + 6 ≤ maxHandles) (hwide : Tree.maxIndent < k + 3) :
    (nestedUnit k).dumpText = .error .indentTooWide := by
  have outcome := dumpText_outcome (holds_nested h) (alone_nested h)
  rwa [width_nested, if_neg (Nat.not_le_of_lt hwide)] at outcome

/-- A unit with a field of no type. -/
def untypedUnit : CompilationUnit where
  tree := ⟨#[
    { Node.blank .program with second := some ⟨1⟩ },
    { Node.blank .package with name := some "P", first := some ⟨2⟩ },
    { Node.blank .variableDecl with name := some "x" }]⟩
  table := .empty
  root := some ⟨0⟩

/-- A constant may stand behind so many minus signs that a program that holds it has no dump, and
a field without a type is not even checked. -/
theorem faults_nested_untyped : (nestedUnit 65533).Holds (nested 65533) ∧
    (nestedUnit 65533).tree.Lone (nested 65533).lone ∧
    (nestedUnit 65533).dumpText = .error .indentTooWide ∧
    untypedUnit.check = .error (.untypedDeclaration "x") :=
  ⟨holds_nested (by decide), alone_nested (by decide), dumpText_nested (by decide) (by decide),
    rfl⟩

end CompilationUnit

end DecafStatics
