import DecafStatics.CompilationUnit
import DecafStatics.Proofs.Held

/-!
# How wide a dump is

A line of a dump can be indented only so far. `Program.width` is the level of the most indented
line that the dump of a program has, read off the syntax, and a program is dumped to the end if
and only if that is not too wide. Nothing else can go wrong: no node is missing, and the bounds
on depth and on the length of a chain suffice.

## Implementation notes

The dump follows `next` at every node that it comes to, also where a construct stands alone and
nothing but the dump would. `Program.lone` lists those nodes; each must be the end of its chain.

`Writer.Needs` is exact, so that the width of a writer is the greatest of those of its parts, in
whichever order they come.

## Main definitions

* `Writer.Needs` — writing lines of some width at the widest
* `Program.width` — the width of the dump of a program
* `Program.lone` — the nodes of a program that do not stand in a chain

## Main results

* `Program.width_le` — each node makes a dump wider by three at most
* `Tree.shows_stmt` — the width of a statement in a dump
* `Tree.needs_dump` — the width of a program in a dump
-/

namespace DecafStatics

/-- The greatest of some widths. -/
def widest (widths : List Nat) : Nat := widths.foldr max 0

@[simp] theorem widest_nil : widest [] = 0 := rfl

@[simp] theorem widest_cons (width : Nat) (rest : List Nat) :
    widest (width :: rest) = max width (widest rest) := rfl

theorem widest_le {widths : List Nat} {bound : Nat} (h : ∀ width ∈ widths, width ≤ bound) :
    widest widths ≤ bound := by
  induction widths with
  | nil => exact Nat.zero_le bound
  | cons width rest ih =>
    obtain ⟨hwidth, hrest⟩ := List.forall_mem_cons.1 h
    exact Nat.max_le.2 ⟨hwidth, ih hrest⟩

/-! ### Writers -/

namespace Writer

/-- The widest indentation in what is written is `width`. If that is too wide the writing ends with
that fault, and otherwise it comes to its end, unless the sink has too little room. -/
def Needs (w : Writer Unit) (width : Nat) : Prop :=
  ∀ sink : Sink, sink.room = none →
    if width ≤ Tree.maxIndent then ∃ sink', w sink = .ok () sink' ∧ sink'.room = none
    else ∃ sink', w sink = .error (.fault .indentTooWide) sink'

variable {α : Type} {w w' : Writer Unit} {a b : Nat}

theorem needs_pure : Needs (pure ()) 0 := by
  intro sink hroom
  exact ⟨sink, rfl, hroom⟩

theorem needs_write (piece : String) : Needs (write piece) 0 := by
  intro sink hroom
  exact ⟨_, write_unlimited hroom piece, hroom⟩

theorem needs_writeAt (level : Nat) (text : String) : Needs (Tree.writeAt level text) level := by
  intro sink hroom
  split
  · rename_i hle
    have written : Tree.writeAt level text =
        write (String.ofList (List.replicate level ' ') ++ text) := by
      simp only [Tree.writeAt, Tree.indent, if_pos hle, read, pure_bind]
    rw [written]
    exact ⟨_, write_unlimited hroom _, hroom⟩
  · rename_i hwide
    refine ⟨sink, ?_⟩
    simp only [Tree.writeAt, Tree.indent, if_neg hwide, read]
    rfl

theorem needs_writeLine (level : Nat) (text : String) :
    Needs (Tree.writeLine level text) level := needs_writeAt level (text ++ "\n")

namespace Needs

theorem congr (h : w.Needs a) (hab : a = b) : w.Needs b := hab ▸ h

/-- What is written first decides if it is too wide, and what comes behind it does if it is not. -/
theorem bind (h : w.Needs a) (h' : w'.Needs b) : Needs (w >>= fun _ => w') (max a b) := by
  intro sink hroom
  have first := h sink hroom
  by_cases ha : a ≤ Tree.maxIndent
  · rw [if_pos ha] at first
    obtain ⟨sink₁, hrun, hroom₁⟩ := first
    have run : (w >>= fun _ => w') sink = w' sink₁ := by
      show EStateM.bind w (fun _ => w') sink = _
      rw [EStateM.bind, hrun]
    have second := h' sink₁ hroom₁
    rw [run]
    by_cases hb : b ≤ Tree.maxIndent
    · rw [if_pos (Nat.max_le.2 ⟨ha, hb⟩)]
      rwa [if_pos hb] at second
    · rw [if_neg fun hmax => hb (Nat.max_le.1 hmax).2]
      rwa [if_neg hb] at second
  · rw [if_neg ha] at first
    rw [if_neg fun hmax => ha (Nat.max_le.1 hmax).1]
    obtain ⟨sink₁, hrun⟩ := first
    refine ⟨sink₁, ?_⟩
    show EStateM.bind w (fun _ => w') sink = _
    rw [EStateM.bind, hrun]

/-- Reading what is there writes nothing. -/
theorem read {value : Except Fault α} {x : α} {f : α → Writer Unit} (hvalue : value = .ok x)
    (h : (f x).Needs a) : Needs (Writer.read value >>= f) a := by
  rw [hvalue, Writer.read, pure_bind]
  exact h

/-- The text is there if nothing is too wide. -/
theorem toText (h : w.Needs a) :
    if a ≤ Tree.maxIndent then ∃ text, w.toText = .ok text
    else w.toText = .error .indentTooWide := by
  have run := h .unlimited rfl
  by_cases ha : a ≤ Tree.maxIndent
  · rw [if_pos ha] at run ⊢
    obtain ⟨sink, hrun, -⟩ := run
    exact ⟨sink.text, by rw [Writer.toText, EStateM.run, hrun]⟩
  · rw [if_neg ha] at run ⊢
    obtain ⟨sink, hrun⟩ := run
    rw [Writer.toText, EStateM.run, hrun]

end Needs

end Writer

/-! ### Widths -/

namespace Expr

mutual

/-- The width of the dump of an expression at a level. -/
def width (level : Nat) : Expr → Nat
  | literal _ | plain .. => level
  | element _ _ _ index => max level (index.width (level + 1))
  | unary _ _ _ operand => max level (operand.width (level + 1))
  | binary _ _ _ left right => max level (max (left.width (level + 1)) (right.width (level + 1)))
  | call _ _ arguments => max (level + 1) (argumentsWidth (level + 2) arguments)

/-- The width of the dump of the arguments of a call at a level. -/
def argumentsWidth (level : Nat) : List (NodeId × Expr) → Nat
  | [] => 0
  | (_, e) :: rest => max (max level (e.width level)) (argumentsWidth level rest)

end

theorem argumentsWidth_eq (level : Nat) (arguments : List (NodeId × Expr)) :
    argumentsWidth level arguments = widest (arguments.map fun a => max level (a.2.width level)) := by
  induction arguments with
  | nil => rfl
  | cons a rest ih => rw [argumentsWidth, ih, List.map_cons, widest_cons]

mutual

/-- The nodes of an expression that do not stand in a chain: all but the wrappers of arguments. -/
def lone : Expr → List NodeId
  | literal l => [l.id]
  | plain id _ _ => [id]
  | element id _ _ index => id :: index.lone
  | unary id _ _ operand => id :: operand.lone
  | binary id _ _ left right => id :: (left.lone ++ right.lone)
  | call id _ arguments => id :: argumentsLone arguments

/-- The nodes of the arguments of a call that do not stand in a chain. -/
def argumentsLone : List (NodeId × Expr) → List NodeId
  | [] => []
  | (_, e) :: rest => e.lone ++ argumentsLone rest

end

theorem argumentsLone_eq (arguments : List (NodeId × Expr)) :
    argumentsLone arguments = arguments.flatMap fun a => a.2.lone := by
  induction arguments with
  | nil => rfl
  | cons a rest ih => rw [argumentsLone, ih, List.flatMap_cons]

end Expr

namespace Stmt

mutual

/-- The width of the dump of a statement at a level. -/
def width (level : Nat) : Stmt → Nat
  | assignment _ target value => max level (max (target.expr.width level) (value.width (level + 2)))
  | call c => c.expr.width level
  | ifThen _ _ condition yes => max level (max (condition.width (level + 1)) (yes.width (level + 3)))
  | ifElse _ _ condition yes _ no =>
    max level (max (max (condition.width (level + 1)) (yes.width (level + 3)))
      (max (level + 2) (no.width (level + 3))))
  | loop _ condition body => max level (max (condition.width (level + 1)) (body.width (level + 2)))
  | returnValue _ value => max level (value.elim 0 (Expr.width (level + 1)))
  | jump .. => level
  | block _ _ body => max level (bodyWidth level body)

/-- The width of the dump of the statements of a block at a level. -/
def bodyWidth (level : Nat) : List Stmt → Nat
  | [] => 0
  | st :: rest => max (st.width level) (bodyWidth level rest)

end

theorem bodyWidth_eq (level : Nat) (body : List Stmt) :
    bodyWidth level body = widest (body.map (width level)) := by
  induction body with
  | nil => rfl
  | cons st rest ih => rw [bodyWidth, ih, List.map_cons, widest_cons]

mutual

/-- The nodes inside of a statement that do not stand in a chain. -/
def lone : Stmt → List NodeId
  | assignment _ target value => target.expr.lone ++ value.lone
  | call c => Expr.argumentsLone c.arguments
  | ifThen _ _ condition yes => condition.lone ++ yes.id :: yes.lone
  | ifElse _ _ condition yes _ no =>
    condition.lone ++ (yes.id :: yes.lone ++ no.id :: no.lone)
  | loop _ condition body => condition.lone ++ body.id :: body.lone
  | returnValue _ value => value.toList.flatMap Expr.lone
  | jump .. => []
  | block _ _ body => bodyLone body

/-- The nodes inside of the statements of a block that do not stand in a chain. -/
def bodyLone : List Stmt → List NodeId
  | [] => []
  | st :: rest => st.lone ++ bodyLone rest

end

theorem bodyLone_eq (body : List Stmt) : bodyLone body = body.flatMap lone := by
  induction body with
  | nil => rfl
  | cons st rest ih => rw [bodyLone, ih, List.flatMap_cons]

end Stmt

/-- The width of the dump of an extern method at a level. -/
def Extern.width (level : Nat) (e : Extern) : Nat :=
  max level (widest (e.params.map fun _ => level + 1))

/-- The width of the dump of a method at a level. Its body is indented at least as far as its
parameters are. -/
def Method.width (level : Nat) (m : Method) : Nat := m.block.width (level + 2)

/-- The nodes inside of a method that do not stand in a chain. -/
def Method.lone (m : Method) : List NodeId := m.body :: m.block.lone

/-- The width of the dump of a program. -/
def Program.width (p : Program) : Nat :=
  max (widest (p.externs.map (Extern.width 0))) (widest (p.methods.map (Method.width 0)))

/-- The nodes inside of a program that do not stand in a chain. -/
def Program.lone (p : Program) : List NodeId := p.methods.flatMap Method.lone

/-! ### How wide a program can be -/

theorem Expr.width_le (level : Nat) (e : Expr) : e.width level ≤ level + 3 * e.ids.length := by
  induction e generalizing level with
  | literal l => exact Nat.le_add_right ..
  | plain id access name => exact Nat.le_add_right ..
  | element id access name index ih =>
    have inside := ih (level + 1)
    simp only [width, ids, List.length_cons]
    omega
  | unary id op arity operand ih =>
    have inside := ih (level + 1)
    simp only [width, ids, List.length_cons]
    omega
  | binary id op arity left right ihl ihr =>
    have insideLeft := ihl (level + 1)
    have insideRight := ihr (level + 1)
    simp only [width, ids, List.length_cons, List.length_append]
    omega
  | call id name arguments ih =>
    have inside : widest (arguments.map fun a => max (level + 2) (a.2.width (level + 2))) ≤
        level + 2 + 3 * (argumentIds arguments).length := by
      refine widest_le (List.forall_mem_map.2 fun a ha => ?_)
      have argument := ih a ha (level + 2)
      have part := (ids_sublist_argumentIds ha).length_le
      rw [List.length_cons] at part
      omega
    simp only [width, argumentsWidth_eq, ids, List.length_cons]
    omega

theorem Stmt.width_le (level : Nat) (st : Stmt) : st.width level ≤ level + 3 * st.ids.length := by
  induction st generalizing level with
  | assignment id target value =>
    have left := target.expr.width_le level
    have right := value.width_le (level + 2)
    simp only [width, ids, List.length_cons, List.length_append]
    omega
  | call c => exact c.expr.width_le level
  | ifThen id branch condition yes ih =>
    have above := condition.width_le (level + 1)
    have below := ih (level + 3)
    simp only [width, ids, List.length_cons, List.length_append]
    omega
  | ifElse id branch condition yes other no ihy ihn =>
    have above := condition.width_le (level + 1)
    have below := ihy (level + 3)
    have otherwise := ihn (level + 3)
    simp only [width, ids, List.length_cons, List.length_append]
    omega
  | loop id condition body ih =>
    have above := condition.width_le (level + 1)
    have below := ih (level + 2)
    simp only [width, ids, List.length_cons, List.length_append]
    omega
  | returnValue id value =>
    cases value with
    | none => simp [width]
    | some e =>
      have below := e.width_le (level + 1)
      simp only [width, ids, Option.elim_some, Option.toList_some, List.flatMap_singleton,
        List.length_cons]
      omega
  | jump id j => exact Nat.le_add_right ..
  | block id locals body ih =>
    have inside : widest (body.map (width level)) ≤ level + 3 * (bodyIds body).length := by
      refine widest_le (List.forall_mem_map.2 fun st hst => ?_)
      have statement := ih st hst level
      have part := (sublist_flatMap_of_mem (f := ids) hst).length_le
      rw [← bodyIds_eq] at part
      omega
    simp only [width, bodyWidth_eq, ids, List.length_cons, List.length_append]
    omega

/-- Each node of a program makes its dump wider by three at most. -/
theorem Program.width_le (p : Program) : p.width ≤ 3 * p.ids.length := by
  simp only [width, ids, List.length_cons, List.length_append]
  have externs : widest (p.externs.map (Extern.width 0)) ≤ 1 := by
    refine widest_le (List.forall_mem_map.2 fun e _ => ?_)
    exact Nat.max_le.2 ⟨Nat.zero_le 1, widest_le (List.forall_mem_map.2 fun _ _ => Nat.le_refl 1)⟩
  have methods : widest (p.methods.map (Method.width 0)) ≤
      3 * (p.methods.flatMap Method.ids).length := by
    refine widest_le (List.forall_mem_map.2 fun m hm => ?_)
    have body := m.block.width_le (0 + 2)
    have part := (sublist_flatMap_of_mem (f := Method.ids) hm).length_le
    simp only [Method.ids, List.length_cons, List.length_append] at part
    rw [Method.width]
    omega
  omega

namespace Tree

open Writer

variable {t : Tree} {bound depth level width : Nat} {id : NodeId}

/-- All of the nodes are the last ones of their chains. -/
def Lone (t : Tree) (ids : List NodeId) : Prop := ∀ id ∈ ids, t.Has id fun n => n.next = none

/-- The width of the dump of a node and of what is below it, but not of what is behind it. -/
def Shows (t : Tree) (bound depth level : Nat) (id : NodeId) (width : Nat) : Prop :=
  (Writer.read (t.node id) >>= t.stanza (t.dumpWithin bound depth) level).Needs width

/-! ### Chains -/

theorem needs_dumpWithin_none : (t.dumpWithin bound (depth + 1) level none).Needs 0 := by
  rw [dumpWithin_none]
  exact needs_pure

/-- A chain is as wide as the widest of its siblings. -/
theorem needs_chain {α : Type} {l : List α} {g : α → NodeId} {f : α → Nat} {head : Option NodeId}
    (h : t.Linked head (l.map g)) (hb : t.size ≤ bound)
    (hshows : ∀ a ∈ l, t.Shows bound depth level (g a) (f a)) :
    (t.dumpWithin bound (depth + 1) level head).Needs (widest (l.map f)) := by
  rw [dumpWithin, writeChain_of_linked h _ (Nat.le_trans h.length_le hb)]
  clear h
  induction l with
  | nil => exact needs_pure
  | cons a rest ih =>
    obtain ⟨ha, hrest⟩ := List.forall_mem_cons.1 hshows
    rw [List.map_cons, List.forM_cons, List.map_cons, widest_cons]
    exact ha.bind (ih hrest)

/-- What stands alone is as wide as its one node. -/
theorem needs_alone (h : t.Has id fun n => n.next = none) (hb : t.size ≤ bound)
    (hshows : t.Shows bound depth level id width) :
    (t.dumpWithin bound (depth + 1) level (some id)).Needs width := by
  obtain ⟨n, hn, hnext⟩ := h
  have linked : t.Linked (some id) ([()].map fun _ => id) := .cons hn (hnext ▸ .nil)
  have chain := needs_chain (f := fun _ => width) linked hb fun _ _ => hshows
  exact chain.congr (Nat.max_eq_left (Nat.zero_le width))

/-! ### Stanzas

The stanza of a node is as wide as its own lines and what `children` shows at the levels that its
kind decides.
-/

section Stanza

variable {children : Nat → Option NodeId → Writer Unit} {n : Node} {first second : Option NodeId}
  {a b c : Nat}

theorem needs_access {access : Access} (hkind : n.kind = access.kind) (hfirst : n.first = none) :
    (t.stanza children level n).Needs level := by
  cases access <;>
  · simp only [stanza, hkind, Access.kind, hfirst, Option.isSome_none, Bool.false_eq_true, if_false]
    exact ((needs_writeLine level _).bind needs_pure).congr (Nat.max_eq_left (Nat.zero_le _))

theorem needs_element {access : Access} {index : NodeId} (hkind : n.kind = access.kind)
    (hfirst : n.first = some index) (inside : (children (level + 1) (some index)).Needs a) :
    (t.stanza children level n).Needs (max level a) := by
  cases access <;>
  · simp only [stanza, hkind, Access.kind, hfirst, Option.isSome_some, if_true]
    exact ((needs_writeLine level _).bind ((needs_writeLine level _).bind
      (inside.bind (needs_writeLine level _)))).congr (by omega)

theorem needs_unary {op : Operator} (hkind : n.kind = .operation) (hop : n.operator = some op)
    (arity : op.cls.arity = 1) (hfirst : n.first = first)
    (inside : (children (level + 1) first).Needs a) :
    (t.stanza children level n).Needs (max level a) := by
  have unary : (some op).any Operator.isUnary = true := op.isUnary_iff_arity.2 arity
  simp only [stanza, hkind, hop, hfirst, unary, if_true]
  exact ((needs_writeLine level _).bind (inside.bind needs_pure)).congr (by omega)

theorem needs_binary {op : Operator} (hkind : n.kind = .operation) (hop : n.operator = some op)
    (arity : op.cls.arity = 2) (hfirst : n.first = first) (hsecond : n.second = second)
    (left : (children (level + 1) first).Needs a) (right : (children (level + 1) second).Needs b) :
    (t.stanza children level n).Needs (max level (max a b)) := by
  have binary : ¬ (some op).any Operator.isUnary = true := by
    rw [Option.any_some, Operator.isUnary_eq_false arity]
    exact Bool.false_ne_true
  simp only [stanza, hkind, hop, hfirst, hsecond, if_neg binary]
  exact (needs_writeLine level _).bind (left.bind right)

theorem needs_call (hkind : n.kind = .call) (inside : (children (level + 2) n.first).Needs a) :
    (t.stanza children level n).Needs (max (level + 1) a) := by
  simp only [stanza, hkind]
  exact ((needs_writeLine level _).bind ((needs_writeLine (level + 1) _).bind
    (inside.bind (needs_writeLine (level + 1) _)))).congr (by omega)

theorem needs_argument (hkind : n.kind = .argument) (hfirst : n.first = first)
    (inside : (children level first).Needs a) :
    (t.stanza children level n).Needs (max level a) := by
  simp only [stanza, hkind, hfirst]
  exact (needs_writeLine level _).bind inside

theorem needs_assignment (hkind : n.kind = .assignment) (hfirst : n.first = first)
    (hsecond : n.second = second) (left : (children level first).Needs a)
    (right : (children (level + 2) second).Needs b) :
    (t.stanza children level n).Needs (max level (max a b)) := by
  simp only [stanza, hkind, hfirst, hsecond]
  exact (needs_writeLine level _).bind (left.bind right)

/-- The node that wraps the condition and the first branch is not shown. -/
theorem needs_ifThen {branch condition yes : NodeId} (hkind : n.kind = .conditional)
    (hfirst : n.first = some branch) (hsecond : n.second = none)
    (hbranch : t.Has branch fun n =>
      n.kind = .thenBranch ∧ n.first = some condition ∧ n.second = some yes)
    (above : (children (level + 1) (some condition)).Needs a)
    (below : (children (level + 3) (some yes)).Needs b) :
    (t.stanza children level n).Needs (max level (max a b)) := by
  obtain ⟨wrapper, hwrapper, -, hcondition, hyes⟩ := hbranch
  simp only [stanza, hkind, writeBranches, hfirst, hsecond]
  refine (needs_writeLine level _).bind (.read hwrapper ?_)
  rw [hcondition, hyes]
  exact (above.bind (below.bind needs_pure)).congr (by omega)

theorem needs_ifElse {branch other condition yes no : NodeId} (hkind : n.kind = .conditional)
    (hfirst : n.first = some branch) (hsecond : n.second = some other)
    (hbranch : t.Has branch fun n =>
      n.kind = .thenBranch ∧ n.first = some condition ∧ n.second = some yes)
    (hother : t.Has other fun n => n.kind = .elseBranch ∧ n.first = some no)
    (above : (children (level + 1) (some condition)).Needs a)
    (below : (children (level + 3) (some yes)).Needs b)
    (otherwise : (children (level + 3) (some no)).Needs c) :
    (t.stanza children level n).Needs (max level (max (max a b) (max (level + 2) c))) := by
  obtain ⟨wrapper, hwrapper, -, hcondition, hyes⟩ := hbranch
  obtain ⟨wrapper', hwrapper', -, hno⟩ := hother
  simp only [stanza, hkind, writeBranches, hfirst, hsecond]
  refine (needs_writeLine level _).bind (.read hwrapper ?_)
  rw [hcondition, hyes]
  refine (above.bind (below.bind ((needs_writeLine (level + 2) _).bind
    (.read hwrapper' ?_)))).congr (Nat.max_assoc ..).symm
  rw [hno]
  exact otherwise

theorem needs_loop (hkind : n.kind = .loop) (hfirst : n.first = first) (hsecond : n.second = second)
    (above : (children (level + 1) first).Needs a)
    (below : (children (level + 2) second).Needs b) :
    (t.stanza children level n).Needs (max level (max a b)) := by
  simp only [stanza, hkind, hfirst, hsecond]
  exact (needs_writeLine level _).bind (above.bind below)

theorem needs_returnValue (hkind : n.kind = .returnValue) (hfirst : n.first = first)
    (inside : (children (level + 1) first).Needs a) :
    (t.stanza children level n).Needs (max level a) := by
  simp only [stanza, hkind, hfirst]
  exact (needs_writeLine level _).bind inside

theorem needs_jump {j : Jump} (hkind : n.kind = j.kind) :
    (t.stanza children level n).Needs level := by
  cases j <;>
  · simp only [stanza, hkind, Jump.kind]
    exact needs_writeLine level _

theorem needs_block (hkind : n.kind = .block) (above : (children level n.first).Needs a)
    (below : (children level n.second).Needs b) :
    (t.stanza children level n).Needs (max level (max a b)) := by
  simp only [stanza, hkind]
  exact (needs_writeLine level _).bind (above.bind below)

end Stanza

/-! ### Expressions -/

theorem shows_literal {l : Literal} (hl : t.HasLiteral l) : t.Shows bound depth level l.id level := by
  cases l with
  | int id value | bool id value | string id text =>
    obtain ⟨n, hn, hkind, -⟩ := hl
    refine .read hn ?_
    simp only [stanza, hkind]
    exact needs_writeLine level _

/-- A call is dumped whole if its arguments are. -/
theorem shows_call {name : String} {arguments : List (NodeId × Expr)} (hb : t.size ≤ bound)
    (hn : t.Has id fun n => n.kind = .call ∧ n.text = name ∧
      t.Linked n.first (arguments.map Prod.fst))
    (hwrapped : ∀ a ∈ arguments, t.HasArgument a.1 a.2.id)
    (hlone : t.Lone (Expr.argumentsLone arguments))
    (hdepth : (Expr.call id name arguments).ids.length ≤ depth)
    (hargs : ∀ a ∈ arguments, ∀ d, t.Lone a.2.lone → a.2.ids.length ≤ d →
      (t.dumpWithin bound (d + 1) (level + 2) (some a.2.id)).Needs (a.2.width (level + 2))) :
    t.Shows bound depth level id ((Expr.call id name arguments).width level) := by
  obtain ⟨n, hn, hkind, -, hlinked⟩ := hn
  obtain ⟨depth, rfl⟩ := Expr.exists_depth hdepth
  simp only [Expr.ids, List.length_cons] at hdepth
  rw [Expr.argumentsLone_eq] at hlone
  have inside : (t.dumpWithin bound (depth + 1) (level + 2) n.first).Needs
      (widest (arguments.map fun a => max (level + 2) (a.2.width (level + 2)))) := by
    refine needs_chain hlinked hb fun a ha => ?_
    obtain ⟨wrapper, hwrapper, hkind, hfirst⟩ := hwrapped a ha
    have part := (Expr.ids_sublist_argumentIds ha).length_le
    simp only [List.length_cons] at part
    obtain ⟨depth, rfl⟩ := Expr.exists_depth (show a.2.ids.length ≤ depth by omega)
    have argument := hargs a ha depth (fun id hid => hlone id (List.mem_flatMap.2 ⟨a, ha, hid⟩))
      (by omega)
    exact .read hwrapper (needs_argument hkind hfirst argument)
  rw [Expr.width, Expr.argumentsWidth_eq]
  exact .read hn (needs_call hkind inside)

/-- An expression that stands alone is dumped whole. -/
theorem needs_expr {e : Expr} (he : t.HasExpr e) (hlone : t.Lone e.lone) (hb : t.size ≤ bound)
    (hdepth : e.ids.length ≤ depth) :
    (t.dumpWithin bound (depth + 1) level (some e.id)).Needs (e.width level) := by
  induction e generalizing depth level with
  | literal l =>
    cases he with
    | literal hl => exact needs_alone (hlone _ (List.mem_singleton_self _)) hb (shows_literal hl)
  | plain id access name =>
    cases he with
    | plain hn =>
      obtain ⟨n, hn, hkind, -, hfirst⟩ := hn
      exact needs_alone (hlone _ (List.mem_singleton_self _)) hb (.read hn (needs_access hkind hfirst))
  | element id access name index ih =>
    cases he with
    | element hn hi =>
      obtain ⟨n, hn, hkind, -, hfirst⟩ := hn
      obtain ⟨hown, hlone⟩ := List.forall_mem_cons.1 hlone
      obtain ⟨depth, rfl⟩ := Expr.exists_depth hdepth
      simp only [Expr.ids, List.length_cons] at hdepth
      have inside : (t.dumpWithin bound (depth + 1) (level + 1) (some index.id)).Needs
          (index.width (level + 1)) := ih hi hlone (by omega)
      exact needs_alone hown hb (.read hn (needs_element hkind hfirst inside))
  | unary id op arity operand ih =>
    cases he with
    | unary hn ho =>
      obtain ⟨n, hn, hkind, hop, hfirst, -⟩ := hn
      obtain ⟨hown, hlone⟩ := List.forall_mem_cons.1 hlone
      obtain ⟨depth, rfl⟩ := Expr.exists_depth hdepth
      simp only [Expr.ids, List.length_cons] at hdepth
      have inside : (t.dumpWithin bound (depth + 1) (level + 1) (some operand.id)).Needs
          (operand.width (level + 1)) := ih ho hlone (by omega)
      exact needs_alone hown hb (.read hn (needs_unary hkind hop arity hfirst inside))
  | binary id op arity left right ihl ihr =>
    cases he with
    | binary hn hl hr =>
      obtain ⟨n, hn, hkind, hop, hfirst, hsecond⟩ := hn
      obtain ⟨hown, hlone⟩ := List.forall_mem_cons.1 hlone
      obtain ⟨hleft, hright⟩ := List.forall_mem_append.1 hlone
      obtain ⟨depth, rfl⟩ := Expr.exists_depth hdepth
      simp only [Expr.ids, List.length_cons, List.length_append] at hdepth
      have insideLeft : (t.dumpWithin bound (depth + 1) (level + 1) (some left.id)).Needs
          (left.width (level + 1)) := ihl hl hleft (by omega)
      have insideRight : (t.dumpWithin bound (depth + 1) (level + 1) (some right.id)).Needs
          (right.width (level + 1)) := ihr hr hright (by omega)
      exact needs_alone hown hb
        (.read hn (needs_binary hkind hop arity hfirst hsecond insideLeft insideRight))
  | call id name arguments ih =>
    cases he with
    | call hn hw ha =>
      obtain ⟨hown, hlone⟩ := List.forall_mem_cons.1 hlone
      exact needs_alone hown hb (shows_call hb hn hw hlone hdepth
        fun a hmem d hl hd => ih a hmem (ha a hmem) hl hd)

/-! ### Declarations -/

theorem shows_varDecl {d : VarDecl} (hd : t.HasVarDecl d) :
    t.Shows bound depth level d.id level := by
  obtain ⟨⟨n, hn, hkind, -, -, hfirst, hsecond⟩, hshape⟩ := hd
  refine .read hn ?_
  simp only [stanza, hkind, writeVariable, hfirst, hsecond]
  cases hd : d.shape with
  | scalar =>
    exact ((needs_writeAt level _).bind ((needs_write _).bind (needs_write _))).congr
      (Nat.max_eq_left (Nat.zero_le level))
  | array id length =>
    rw [hd] at hshape
    obtain ⟨m, hm, -⟩ := hshape
    exact ((needs_writeAt level _).bind (.read hm ((needs_write _).bind
      ((needs_write _).bind (needs_write _))))).congr (Nat.max_eq_left (Nat.zero_le level))
  | initialized value =>
    rw [hd] at hshape
    obtain ⟨m, hm, -⟩ := HasLiteral.isExpression hshape
    refine ((needs_writeAt level _).bind ((needs_write _).bind (.read hm ?_))).congr
      (Nat.max_eq_left (Nat.zero_le level))
    split
    · exact (needs_write _).bind (needs_write _)
    · exact (needs_write _).bind (needs_write _)

/-! ### Statements -/

/-- A block is as wide as its statements, since its variables are no further to the right. -/
theorem shows_block {locals : List VarDecl} {body : List Stmt} (hb : t.size ≤ bound)
    (hn : t.Has id fun n => n.kind = .block ∧ t.Linked n.first (locals.map VarDecl.id) ∧
      t.Linked n.second (body.map Stmt.id))
    (hlocals : ∀ d ∈ locals, t.HasVarDecl d)
    (hbody : ∀ st ∈ body, t.Shows bound depth level st.id (st.width level)) :
    t.Shows bound (depth + 1) level id ((Stmt.block id locals body).width level) := by
  obtain ⟨n, hn, hkind, hfirst, hsecond⟩ := hn
  have above : (t.dumpWithin bound (depth + 1) level n.first).Needs
      (widest (locals.map fun _ => level)) :=
    needs_chain hfirst hb fun d hd => shows_varDecl (hlocals d hd)
  have below : (t.dumpWithin bound (depth + 1) level n.second).Needs
      (widest (body.map (Stmt.width level))) := needs_chain hsecond hb hbody
  have flat : widest (locals.map fun _ => level) ≤ level :=
    widest_le (List.forall_mem_map.2 fun _ _ => Nat.le_refl level)
  refine .read hn ((needs_block hkind above below).congr ?_)
  rw [Stmt.width, Stmt.bodyWidth_eq]
  omega

/-- A statement is dumped whole. -/
theorem shows_stmt {st : Stmt} (hs : t.HasStmt st) (hlone : t.Lone st.lone) (hb : t.size ≤ bound)
    (hdepth : st.ids.length ≤ depth) : t.Shows bound depth level st.id (st.width level) := by
  induction st generalizing depth level with
  | assignment id target value =>
    cases hs with
    | assignment hn ht hv =>
      obtain ⟨n, hn, hkind, hfirst, hsecond⟩ := hn
      obtain ⟨htarget, hvalue⟩ := List.forall_mem_append.1 hlone
      obtain ⟨depth, rfl⟩ := Stmt.exists_depth hdepth
      simp only [Stmt.ids, List.length_cons, List.length_append] at hdepth
      have left : (t.dumpWithin bound (depth + 1) level (some target.expr.id)).Needs
          (target.expr.width level) := needs_expr ht htarget hb (by omega)
      have right : (t.dumpWithin bound (depth + 1) (level + 2) (some value.id)).Needs
          (value.width (level + 2)) := needs_expr hv hvalue hb (by omega)
      rw [target.expr_id] at left
      exact .read hn (needs_assignment hkind hfirst hsecond left right)
  | call c =>
    cases hs with
    | call hc =>
      cases hc with
      | call hn hw ha =>
        exact shows_call hb hn hw hlone hdepth fun a hmem d hl hd =>
          needs_expr (ha a hmem) hl hb hd
  | ifThen id branch condition yes ih =>
    cases hs with
    | ifThen hn hbranch hc hy =>
      obtain ⟨n, hn, hkind, hfirst, hsecond⟩ := hn
      obtain ⟨hlc, hly⟩ := List.forall_mem_append.1 hlone
      obtain ⟨hown, hly⟩ := List.forall_mem_cons.1 hly
      obtain ⟨depth, rfl⟩ := Stmt.exists_depth hdepth
      simp only [Stmt.ids, List.length_cons, List.length_append] at hdepth
      have above : (t.dumpWithin bound (depth + 1) (level + 1) (some condition.id)).Needs
          (condition.width (level + 1)) := needs_expr hc hlc hb (by omega)
      have below : (t.dumpWithin bound (depth + 1) (level + 3) (some yes.id)).Needs
          (yes.width (level + 3)) := needs_alone hown hb (ih hy hly (by omega))
      exact .read hn (needs_ifThen hkind hfirst hsecond hbranch above below)
  | ifElse id branch condition yes other no ihy ihn =>
    cases hs with
    | ifElse hn hbranch ho hc hy hno =>
      obtain ⟨n, hn, hkind, hfirst, hsecond⟩ := hn
      obtain ⟨hlc, hlone⟩ := List.forall_mem_append.1 hlone
      obtain ⟨hly, hln⟩ := List.forall_mem_append.1 hlone
      obtain ⟨hownYes, hly⟩ := List.forall_mem_cons.1 hly
      obtain ⟨hownNo, hln⟩ := List.forall_mem_cons.1 hln
      obtain ⟨depth, rfl⟩ := Stmt.exists_depth hdepth
      simp only [Stmt.ids, List.length_cons, List.length_append] at hdepth
      have above : (t.dumpWithin bound (depth + 1) (level + 1) (some condition.id)).Needs
          (condition.width (level + 1)) := needs_expr hc hlc hb (by omega)
      have below : (t.dumpWithin bound (depth + 1) (level + 3) (some yes.id)).Needs
          (yes.width (level + 3)) := needs_alone hownYes hb (ihy hy hly (by omega))
      have otherwise : (t.dumpWithin bound (depth + 1) (level + 3) (some no.id)).Needs
          (no.width (level + 3)) := needs_alone hownNo hb (ihn hno hln (by omega))
      exact .read hn (needs_ifElse hkind hfirst hsecond hbranch ho above below otherwise)
  | loop id condition body ih =>
    cases hs with
    | loop hn hc hbody =>
      obtain ⟨n, hn, hkind, hfirst, hsecond⟩ := hn
      obtain ⟨hlc, hlb⟩ := List.forall_mem_append.1 hlone
      obtain ⟨hown, hlb⟩ := List.forall_mem_cons.1 hlb
      obtain ⟨depth, rfl⟩ := Stmt.exists_depth hdepth
      simp only [Stmt.ids, List.length_cons, List.length_append] at hdepth
      have above : (t.dumpWithin bound (depth + 1) (level + 1) (some condition.id)).Needs
          (condition.width (level + 1)) := needs_expr hc hlc hb (by omega)
      have below : (t.dumpWithin bound (depth + 1) (level + 2) (some body.id)).Needs
          (body.width (level + 2)) := needs_alone hown hb (ih hbody hlb (by omega))
      exact .read hn (needs_loop hkind hfirst hsecond above below)
  | returnValue id value =>
    cases hs with
    | returnValue hn hv =>
      obtain ⟨n, hn, hkind, hfirst⟩ := hn
      refine .read hn (needs_returnValue hkind hfirst ?_)
      obtain ⟨depth, rfl⟩ := Stmt.exists_depth hdepth
      simp only [Stmt.ids, List.length_cons] at hdepth
      cases value with
      | none => exact needs_dumpWithin_none
      | some e =>
        simp only [Stmt.lone, Option.toList_some, List.flatMap_singleton] at hlone hdepth
        exact needs_expr (hv e rfl) hlone hb (by omega)
  | jump id j =>
    cases hs with
    | jump hn =>
      obtain ⟨n, hn, hkind⟩ := hn
      exact .read hn (needs_jump hkind)
  | block id locals body ih =>
    cases hs with
    | block hn hl hbody =>
      rw [Stmt.lone, Stmt.bodyLone_eq] at hlone
      obtain ⟨depth, rfl⟩ := Stmt.exists_depth hdepth
      rw [Stmt.ids, Stmt.bodyIds_eq, List.length_cons, List.length_append] at hdepth
      refine shows_block hb hn hl fun st hst => ih st hst (hbody st hst) ?_ ?_
      · exact fun id hid => hlone id (List.mem_flatMap.2 ⟨st, hst, hid⟩)
      · have part := (sublist_flatMap_of_mem (f := Stmt.ids) hst).length_le
        omega

/-! ### Programs -/

theorem shows_extern {e : Extern} (he : t.HasExtern e) (hb : t.size ≤ bound) :
    t.Shows bound (depth + 1) level e.id (e.width level) := by
  obtain ⟨n, hn, hkind, -, -, hlinked⟩ := he.node
  have inside : (t.dumpWithin bound (depth + 1) (level + 1) n.first).Needs
      (widest (e.params.map fun _ => level + 1)) := by
    refine needs_chain hlinked hb fun param hparam => ?_
    obtain ⟨type, htype, hkind, -⟩ := he.params param hparam
    refine .read htype ?_
    simp only [stanza, hkind]
    exact needs_writeLine (level + 1) _
  refine .read hn ?_
  simp only [stanza, hkind]
  refine ((needs_writeLine level _).bind (inside.bind (needs_write _))).congr ?_
  rw [Extern.width]
  omega

theorem shows_method {m : Method} (hm : t.HasMethod m) (hlone : t.Lone m.lone)
    (hb : t.size ≤ bound) (hdepth : m.ids.length ≤ depth) :
    t.Shows bound depth level m.id (m.width level) := by
  obtain ⟨n, hn, hkind, -, -, hlinked, hsecond⟩ := hm.node
  obtain ⟨hown, hlone⟩ := List.forall_mem_cons.1 hlone
  simp only [Method.ids, List.length_cons, List.length_append] at hdepth
  obtain ⟨depth, rfl⟩ : ∃ d, depth = d + 1 := ⟨depth - 1, by omega⟩
  have params : (t.dumpWithin bound (depth + 1) (level + 2) n.first).Needs
      (widest (m.params.map fun _ => level + 2)) := by
    refine needs_chain hlinked hb fun param hparam => ?_
    obtain ⟨n, hn, hkind, -⟩ := hm.params param hparam
    refine .read hn ?_
    simp only [stanza, hkind]
    exact needs_writeLine (level + 2) _
  have body : (t.dumpWithin bound (depth + 1) (level + 2) (some m.body)).Needs
      (m.block.width (level + 2)) :=
    needs_alone hown hb (shows_stmt hm.block hlone hb (by omega))
  have flat : widest (m.params.map fun _ => level + 2) ≤ level + 2 :=
    widest_le (List.forall_mem_map.2 fun _ _ => Nat.le_refl (level + 2))
  have deep : level + 2 ≤ m.block.width (level + 2) := by
    rw [Method.block, Stmt.width]
    exact Nat.le_max_left ..
  refine .read hn ?_
  simp only [stanza, hkind, hsecond]
  split
  · refine ((needs_writeAt level _).bind ((needs_write _).bind body)).congr ?_
    rw [Method.width]
    omega
  · refine ((needs_writeAt level _).bind ((needs_write _).bind ((needs_writeLine (level + 2) _).bind
      (params.bind ((needs_writeLine (level + 2) _).bind body))))).congr ?_
    rw [Method.width]
    omega

theorem shows_package {p : Program} (hp : t.HasProgram p) (hlone : t.Lone p.lone)
    (hb : t.size ≤ bound) (hdepth : ∀ m ∈ p.methods, m.ids.length ≤ depth) :
    t.Shows bound (depth + 1) 0 p.package (widest (p.methods.map (Method.width 0))) := by
  obtain ⟨n, hn, hkind, -, -, hfirst, hsecond⟩ := hp.package
  have fields : (t.dumpWithin bound (depth + 1) 0 n.first).Needs
      (widest (p.fields.map fun _ => 0)) :=
    needs_chain hfirst hb fun d hd => shows_varDecl (hp.fields d hd)
  have methods : (t.dumpWithin bound (depth + 1) 0 n.second).Needs
      (widest (p.methods.map (Method.width 0))) := by
    refine needs_chain hsecond hb fun m hm => ?_
    exact shows_method (hp.methods m hm)
      (fun id hid => hlone id (List.mem_flatMap.2 ⟨m, hm, hid⟩)) hb (hdepth m hm)
  have flat : widest (p.fields.map fun _ => 0) ≤ 0 :=
    widest_le (List.forall_mem_map.2 fun _ _ => Nat.le_refl 0)
  refine .read hn ?_
  simp only [stanza, hkind]
  exact ((needs_writeLine 0 _).bind (fields.bind ((needs_write _).bind methods))).congr (by omega)

theorem shows_program {p : Program} (hp : t.HasProgram p) (hlone : t.Lone p.lone)
    (hb : t.size ≤ bound) (hdepth : p.ids.length ≤ depth) :
    t.Shows bound depth 0 p.id p.width := by
  obtain ⟨n, hn, hkind, -, hfirst, hsecond⟩ := hp.root
  simp only [Program.ids, List.length_cons, List.length_append] at hdepth
  obtain ⟨depth, rfl⟩ : ∃ d, depth = d + 2 := ⟨depth - 2, by omega⟩
  have alone : t.Has p.package fun n => n.next = none := hp.package.imp fun n hn => hn.2.2.1
  have externs : (t.dumpWithin bound (depth + 2) 0 n.first).Needs
      (widest (p.externs.map (Extern.width 0))) :=
    needs_chain hfirst hb fun e he => shows_extern (hp.externs e he) hb
  have package : (t.dumpWithin bound (depth + 2) 0 (some p.package)).Needs
      (widest (p.methods.map (Method.width 0))) := by
    refine needs_alone alone hb (shows_package hp hlone hb fun m hm => ?_)
    have part := (sublist_flatMap_of_mem (f := Method.ids) hm).length_le
    omega
  refine .read hn ?_
  simp only [stanza, hkind, hsecond]
  exact ((needs_writeAt 0 _).bind (externs.bind package)).congr (Nat.max_eq_right (Nat.zero_le _))

/-- **A program is dumped to the end, unless it is too wide.** -/
theorem needs_dump {p : Program} (hp : t.HasProgram p) (hd : p.ids.Nodup)
    (hlone : t.Lone p.lone) : (t.dump 0 (some p.id)).Needs p.width := by
  have hlength := length_le_of_nodup_handles hd hp.lt_size
  have enough : t.size + 1 ≤ t.dumpBound none := Nat.le_mul_of_pos_right _ (Nat.succ_pos _)
  obtain ⟨depth, hbound⟩ : ∃ d, t.dumpBound none = d + 1 := ⟨t.dumpBound none - 1, by omega⟩
  have alone : t.Has p.id fun n => n.next = none := hp.root.imp fun n hn => hn.2.1
  have needs : (t.dumpWithin (t.dumpBound none) (t.dumpBound none) 0 (some p.id)).Needs p.width := by
    rw [hbound]
    exact needs_alone alone (by omega) (shows_program hp hlone (by omega) (by omega))
  intro sink hroom
  have run : t.dump 0 (some p.id) sink =
      t.dumpWithin (t.dumpBound none) (t.dumpBound none) 0 (some p.id) sink := by
    rw [← hroom]
    rfl
  rw [run]
  exact needs sink hroom

end Tree

end DecafStatics
