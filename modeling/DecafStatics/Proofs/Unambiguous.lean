import DecafStatics.Proofs.Outline
import DecafStatics.Proofs.Renaming
import Mathlib

/-!
# Dumps of expressions are unambiguous

Two expressions whose dumps read the same are the same, wherever they are held. What tells one
expression from another is the indentation: the number of operands is not shown, and subtraction
and negation look the same.

## Implementation notes

The lines of an expression are followed by others, and how far they reach is seen from the level of
the line behind them. Whatever follows an expression is indented no further than the expression,
and does not open an index (`Follows`); with that in mind an expression can be read off the
beginning of a list of lines (`Expr.Decodes`).

A truth value counts as true where it is one, and a dump shows no more of it than that.

## Main definitions

* `Expr.outline` — what is left of an expression without its nodes
* `Expr.Printable` — reading variables only, with names and texts of one line
* `Expr.Decodes` — being there to be read off lines, whatever follows them

## Main results

* `Expr.decodes` — expressions can be read off their lines
* `Tree.outline_eq_of_dump` — expressions with the same dump are the same
-/

namespace DecafStatics

/-! ### What is left of an expression without its nodes -/

namespace Literal

/-- The literal without its node, where a truth value is zero or one. -/
def outline : Literal → Literal
  | int _ value => int ⟨0⟩ value
  | bool _ value => bool ⟨0⟩ (if value = 1 then 1 else 0)
  | string _ text => string ⟨0⟩ text

/-- The literal fits on one line. -/
def Printable : Literal → Prop
  | string _ text => '\n' ∉ text.toList
  | int .. | bool .. => True

/-- Literals with the same heading are the same. -/
theorem outline_eq_of_heading {l l' : Literal} (h : l.heading = l'.heading) :
    l.outline = l'.outline := by
  cases l <;> cases l' <;> simp only [heading, Heading.mk.injEq, true_and, false_and,
    reduceCtorEq] at h
  case int.int =>
    rw [outline, outline, Int32.toInt_inj.1 (Int.repr_injective h)]
  case bool.bool id value id' value' =>
    have same : value = 1 ↔ value' = 1 := by
      unfold truthLabel at h
      split at h <;> split at h <;> simp_all
    simp only [outline, same]
  case string.string => rw [outline, outline, h]

end Literal

namespace Expr

mutual

/-- The expression without its nodes, where a truth value is zero or one. -/
def outline : Expr → Expr
  | literal l => literal l.outline
  | plain _ access name => plain ⟨0⟩ access name
  | element _ access name index => element ⟨0⟩ access name index.outline
  | unary _ op arity operand => unary ⟨0⟩ op arity operand.outline
  | binary _ op arity left right => binary ⟨0⟩ op arity left.outline right.outline
  | call _ name arguments => call ⟨0⟩ name (outlineArguments arguments)

/-- The arguments of a call without their nodes. -/
def outlineArguments : List (NodeId × Expr) → List (NodeId × Expr)
  | [] => []
  | (_, e) :: rest => (⟨0⟩, e.outline) :: outlineArguments rest

end

mutual

/-- Variables are read only, and each name and each text fits on one line. -/
def Printable : Expr → Prop
  | literal l => l.Printable
  | plain _ access name => access = .read ∧ '\n' ∉ name.toList
  | element _ access name index => (access = .read ∧ '\n' ∉ name.toList) ∧ index.Printable
  | unary _ _ _ operand => operand.Printable
  | binary _ _ _ left right => left.Printable ∧ right.Printable
  | call _ name arguments => '\n' ∉ name.toList ∧ argumentsPrintable arguments

/-- The arguments of a call are printable. -/
def argumentsPrintable : List (NodeId × Expr) → Prop
  | [] => True
  | (_, e) :: rest => e.Printable ∧ argumentsPrintable rest

end

theorem argumentsPrintable_iff {arguments : List (NodeId × Expr)} :
    argumentsPrintable arguments ↔ ∀ a ∈ arguments, a.2.Printable := by
  induction arguments with
  | nil => simp [argumentsPrintable]
  | cons a rest ih => rw [argumentsPrintable, ih, List.forall_mem_cons]

/-! ### Reading an expression off its lines -/

/-- Lines that can follow an expression at a level. -/
def Follows (level : Nat) (rest : List Line) : Prop :=
  ∀ line ∈ rest.head?, line.level ≤ level ∧ line.heading.mark ≠ .openIndex

variable {e e' index operand left right : Expr} {level : Nat} {rest rest' : List Line}

theorem follows_nil (level : Nat) : Follows level [] := nofun

theorem follows_cons {line : Line} (hle : line.level ≤ level)
    (hmark : line.heading.mark ≠ .openIndex) : Follows level (line :: rest) := by
  rintro _ ⟨⟩
  exact ⟨hle, hmark⟩

theorem Follows.succ (h : Follows level rest) : Follows (level + 1) rest :=
  fun line hline => ⟨Nat.le_succ_of_le (h line hline).1, (h line hline).2⟩

/-- The first line of an expression stands at its level and does not open an index. -/
theorem exists_lines (level : Nat) (e : Expr) :
    ∃ h rest, e.lines level = ⟨level, h⟩ :: rest ∧ h.mark ≠ .openIndex := by
  cases e with
  | literal l =>
    cases l <;> exact ⟨_, _, rfl, by simp [Literal.heading]⟩
  | _ => exact ⟨_, _, rfl, by simp⟩

theorem follows_lines (level : Nat) (e : Expr) (rest : List Line) :
    Follows level (e.lines level ++ rest) := by
  obtain ⟨h, others, hlines, hmark⟩ := e.exists_lines level
  rw [hlines]
  exact follows_cons (Nat.le_refl level) hmark

/-- An operand does not follow an operation. -/
theorem not_follows_operand : ¬ Follows level (e.lines (level + 1) ++ rest) := by
  obtain ⟨h, others, hlines, -⟩ := e.exists_lines (level + 1)
  rw [hlines]
  exact fun hf => Nat.not_succ_le_self level (hf _ rfl).1

/-- The expression can be read off its lines, whatever follows them. -/
def Decodes (e : Expr) : Prop :=
  ∀ {e' : Expr} {level : Nat} {rest rest' : List Line}, e'.Printable → Follows level rest →
    Follows level rest' → e.lines level ++ rest = e'.lines level ++ rest' →
      e.outline = e'.outline ∧ rest = rest'

theorem decodes_literal (l : Literal) : (literal l).Decodes := by
  intro e' level rest rest' _ _ _ h
  cases e' with
  | literal l' =>
    simp only [lines, List.cons_append, List.nil_append, List.cons.injEq, Line.mk.injEq,
      true_and] at h
    rw [outline, outline, Literal.outline_eq_of_heading h.1]
    exact ⟨rfl, h.2⟩
  | _ => cases l <;> simp [lines, Literal.heading] at h

theorem decodes_plain (id : NodeId) (name : String) : (plain id .read name).Decodes := by
  intro e' level rest rest' he' hf hf' h
  cases e' with
  | plain id' access name' =>
    simp only [lines, List.cons_append, List.nil_append, List.cons.injEq, Line.mk.injEq,
      Heading.mk.injEq, true_and] at h
    rw [outline, outline, h.1, he'.1]
    exact ⟨rfl, h.2⟩
  | element id' access name' index =>
    -- what opens an index does not follow
    simp only [lines, List.cons_append, List.nil_append, List.cons.injEq] at h
    rw [h.2] at hf
    exact absurd rfl (hf _ rfl).2
  | literal l => cases l <;> simp [lines, Literal.heading] at h
  | _ => simp [lines] at h

theorem decodes_element (hi : index.Decodes) (id : NodeId) (name : String) :
    (element id .read name index).Decodes := by
  intro e' level rest rest' he' hf hf' h
  cases e' with
  | plain id' access name' =>
    simp only [lines, List.cons_append, List.nil_append, List.cons.injEq] at h
    rw [← h.2] at hf'
    exact absurd rfl (hf' _ rfl).2
  | element id' access name' index' =>
    simp only [lines, List.cons_append, List.append_assoc, List.nil_append, List.cons.injEq,
      Line.mk.injEq, Heading.mk.injEq, true_and] at h
    obtain ⟨hname, htail⟩ := h
    have close : ∀ rest, Follows (level + 1) (⟨level, .closeIndex, ""⟩ :: rest) :=
      fun _ => follows_cons (Nat.le_succ level) (by simp)
    obtain ⟨hindex, hrest⟩ := hi he'.2 (close rest) (close rest') htail
    rw [outline, outline, hname, hindex, he'.1.1]
    exact ⟨rfl, List.tail_eq_of_cons_eq hrest⟩
  | literal l => cases l <;> simp [lines, Literal.heading] at h
  | _ => simp [lines] at h

theorem decodes_unary (ho : operand.Decodes) (id : NodeId) (op : Operator)
    (arity : op.cls.arity = 1) : (unary id op arity operand).Decodes := by
  intro e' level rest rest' he' hf hf' h
  cases e' with
  | unary id' op' arity' operand' =>
    simp only [lines, List.cons_append, List.cons.injEq, Line.mk.injEq, Heading.mk.injEq,
      true_and] at h
    obtain ⟨hsymbol, htail⟩ := h
    have hprintable : operand'.Printable := he'
    obtain ⟨hoperand, hrest⟩ := ho hprintable hf.succ hf'.succ htail
    have hop : op = op' := Operator.eq_of_symbol_of_isUnary hsymbol
      ((op.isUnary_iff_arity.2 arity).trans (op'.isUnary_iff_arity.2 arity').symm)
    subst hop
    rw [outline, outline, hoperand]
    exact ⟨rfl, hrest⟩
  | binary id' op' arity' left right =>
    -- the second operand would follow the first one
    simp only [lines, List.cons_append, List.append_assoc, List.cons.injEq] at h
    obtain ⟨-, hrest⟩ := ho he'.1 hf.succ (follows_lines _ _ _) h.2
    exact (not_follows_operand (hrest ▸ hf)).elim
  | literal l => cases l <;> simp [lines, Literal.heading] at h
  | _ => simp [lines] at h

theorem decodes_binary (hl : left.Decodes) (hr : right.Decodes) (id : NodeId) (op : Operator)
    (arity : op.cls.arity = 2) : (binary id op arity left right).Decodes := by
  intro e' level rest rest' he' hf hf' h
  cases e' with
  | unary id' op' arity' operand =>
    simp only [lines, List.cons_append, List.append_assoc, List.cons.injEq] at h
    have hprintable : operand.Printable := he'
    obtain ⟨-, hrest⟩ := hl hprintable (follows_lines _ _ _) hf'.succ h.2
    exact (not_follows_operand (hrest ▸ hf')).elim
  | binary id' op' arity' left' right' =>
    simp only [lines, List.cons_append, List.append_assoc, List.cons.injEq, Line.mk.injEq,
      Heading.mk.injEq, true_and] at h
    obtain ⟨hsymbol, htail⟩ := h
    obtain ⟨hleft, htail⟩ := hl he'.1 (follows_lines _ _ _) (follows_lines _ _ _) htail
    obtain ⟨hright, hrest⟩ := hr he'.2 hf.succ hf'.succ htail
    have hop : op = op' := Operator.eq_of_symbol_of_isUnary hsymbol
      ((Operator.isUnary_eq_false arity).trans (Operator.isUnary_eq_false arity').symm)
    subst hop
    rw [outline, outline, hleft, hright]
    exact ⟨rfl, hrest⟩
  | literal l => cases l <;> simp [lines, Literal.heading] at h
  | _ => simp [lines] at h

/-- What comes behind an argument is another one or the closing line. -/
theorem follows_arguments (arguments : List (NodeId × Expr)) (rest : List Line) :
    Follows (level + 1)
      (argumentsLines (level + 1) arguments ++ ⟨level, .closeArguments, ""⟩ :: rest) := by
  cases arguments with
  | nil => exact follows_cons (Nat.le_succ level) (by simp)
  | cons a others => exact follows_cons (Nat.le_refl _) (by simp)

/-- The arguments of a call can be read off their lines up to where the call ends. -/
theorem decodes_arguments {arguments arguments' : List (NodeId × Expr)}
    (ha : ∀ a ∈ arguments, a.2.Decodes) (ha' : ∀ a ∈ arguments', a.2.Printable)
    (h : argumentsLines (level + 1) arguments ++ ⟨level, .closeArguments, ""⟩ :: rest =
      argumentsLines (level + 1) arguments' ++ ⟨level, .closeArguments, ""⟩ :: rest') :
    outlineArguments arguments = outlineArguments arguments' ∧ rest = rest' := by
  induction arguments generalizing arguments' with
  | nil =>
    cases arguments' with
    | nil => exact ⟨rfl, List.tail_eq_of_cons_eq h⟩
    | cons a' others' => simp [argumentsLines] at h
  | cons a others ih =>
    cases arguments' with
    | nil => simp [argumentsLines] at h
    | cons a' others' =>
      obtain ⟨hown, hothers⟩ := List.forall_mem_cons.1 ha
      obtain ⟨hown', hothers'⟩ := List.forall_mem_cons.1 ha'
      simp only [argumentsLines, List.cons_append, List.append_assoc, List.cons.injEq,
        true_and] at h
      obtain ⟨harg, htail⟩ := hown hown' (follows_arguments _ _) (follows_arguments _ _) h
      obtain ⟨hargs, hrest⟩ := ih hothers hothers' htail
      rw [outlineArguments, outlineArguments, harg, hargs]
      exact ⟨rfl, hrest⟩

theorem decodes_call {arguments : List (NodeId × Expr)} (ha : ∀ a ∈ arguments, a.2.Decodes)
    (id : NodeId) (name : String) : (call id name arguments).Decodes := by
  intro e' level rest rest' he' hf hf' h
  cases e' with
  | call id' name' arguments' =>
    simp only [lines, List.cons_append, List.append_assoc, List.nil_append, List.cons.injEq,
      Line.mk.injEq, Heading.mk.injEq, true_and] at h
    obtain ⟨hname, htail⟩ := h
    obtain ⟨hargs, hrest⟩ := decodes_arguments ha (argumentsPrintable_iff.1 he'.2) htail
    rw [outline, outline, hname, hargs]
    exact ⟨rfl, hrest⟩
  | literal l => cases l <;> simp [lines, Literal.heading] at h
  | _ => simp [lines] at h

/-- **Expressions can be read off their lines.** -/
theorem decodes (he : e.Printable) : e.Decodes := by
  induction e with
  | literal l => exact decodes_literal l
  | plain id access name =>
    obtain ⟨rfl, -⟩ := he
    exact decodes_plain id name
  | element id access name index ih =>
    obtain ⟨⟨rfl, -⟩, hi⟩ := he
    exact decodes_element (ih hi) id name
  | unary id op arity operand ih => exact decodes_unary (ih he) id op arity
  | binary id op arity left right ihl ihr =>
    exact decodes_binary (ihl he.1) (ihr he.2) id op arity
  | call id name arguments ih =>
    exact decodes_call (fun a ha => ih a ha (argumentsPrintable_iff.1 he.2 a ha)) id name

/-! ### Lines without line breaks -/

/-- What is printable is shown on lines of its own. -/
theorem clean_lines (he : e.Printable) : ∀ line ∈ e.lines level, line.Clean := by
  have bracket : ∀ level mark, Line.Clean ⟨level, mark, ""⟩ := by simp [Line.Clean]
  have symbol : ∀ level (op : Operator), Line.Clean ⟨level, .operation, op.symbol⟩ := by
    intro level op
    cases op <;> simp [Line.Clean, Operator.symbol]
  induction e generalizing level with
  | literal l =>
    refine List.forall_mem_singleton.2 ?_
    cases l with
    | int id value => exact not_mem_toString _
    | bool id value =>
      show '\n' ∉ (truthLabel value).toList
      unfold truthLabel
      split <;> simp
    | string id text => exact he
  | plain id access name => exact List.forall_mem_singleton.2 he.2
  | element id access name index ih =>
    simp only [lines, List.forall_mem_cons, List.forall_mem_append]
    exact ⟨he.1.2, bracket _ _, ih he.2, bracket _ _, List.forall_mem_nil _⟩
  | unary id op arity operand ih =>
    exact List.forall_mem_cons.2 ⟨symbol level op, ih he⟩
  | binary id op arity left right ihl ihr =>
    simp only [lines, List.forall_mem_cons, List.forall_mem_append]
    exact ⟨symbol level op, ihl he.1, ihr he.2⟩
  | call id name arguments ih =>
    simp only [lines, List.forall_mem_cons, List.forall_mem_append, argumentsLines_eq,
      List.forall_mem_flatMap]
    refine ⟨he.1, bracket _ _, fun a ha => ?_, bracket _ _, List.forall_mem_nil _⟩
    exact ⟨bracket _ _, ih a ha (argumentsPrintable_iff.1 he.2 a ha)⟩

/-! ### Truth values -/

mutual

/-- Truth values are zero or one, as they are when they are built. -/
def Truthful : Expr → Prop
  | literal (.bool _ value) => value = 0 ∨ value = 1
  | literal (.int ..) | literal (.string ..) | plain .. => True
  | element _ _ _ index => index.Truthful
  | unary _ _ _ operand => operand.Truthful
  | binary _ _ _ left right => left.Truthful ∧ right.Truthful
  | call _ _ arguments => argumentsTruthful arguments

/-- Truth values in the arguments of a call are zero or one. -/
def argumentsTruthful : List (NodeId × Expr) → Prop
  | [] => True
  | (_, e) :: rest => e.Truthful ∧ argumentsTruthful rest

end

/-- Without its nodes, an expression whose truth values are zero or one is what it was. -/
theorem outline_eq_rename (he : e.Truthful) : e.outline = e.rename fun _ => ⟨0⟩ := by
  induction e with
  | literal l =>
    cases l with
    | int id value | string id text => rfl
    | bool id value => obtain rfl | rfl := he <;> rfl
  | plain id access name => rfl
  | element id access name index ih => rw [outline, rename, ih he]
  | unary id op arity operand ih => rw [outline, rename, ih he]
  | binary id op arity left right ihl ihr => rw [outline, rename, ihl he.1, ihr he.2]
  | call id name arguments ih =>
    have hall : argumentsTruthful arguments := he
    clear he
    have same : outlineArguments arguments = renameArguments (fun _ => ⟨0⟩) arguments := by
      induction arguments with
      | nil => rfl
      | cons a rest ihr =>
        obtain ⟨hown, hothers⟩ := List.forall_mem_cons.1 ih
        rw [outlineArguments, renameArguments, hown hall.1, ihr hothers hall.2]
    rw [outline, rename, same]

end Expr

/-! ### Dumps that read the same -/

/-- **Dumps of expressions are unambiguous.** Where the dumps of two expressions at one level read
the same, the expressions do. -/
theorem Tree.outline_eq_of_dump {t t' : Tree} {e e' : Expr} {level : Nat} {text : String}
    (he : t.HasExpr e) (he' : t'.HasExpr e') (hlone : t.Lone e.lone) (hlone' : t'.Lone e'.lone)
    (hp : e.Printable) (hp' : e'.Printable) (hdump : (t.dump level (some e.id)).toText = .ok text)
    (hdump' : (t'.dump level (some e'.id)).toText = .ok text) :
    e.outline = e'.outline ∧ (e.Truthful → e'.Truthful →
      e.rename (fun _ => ⟨0⟩) = e'.rename (fun _ => ⟨0⟩)) := by
  have same : dumped (e.lines level) = dumped (e'.lines level) := by
    rw [← (says_dump he hlone).eq_of_toText hdump, (says_dump he' hlone').eq_of_toText hdump']
  have lines := dumped_injective (Expr.clean_lines hp) (Expr.clean_lines hp') same
  have outline : e.outline = e'.outline := by
    refine (Expr.decodes hp hp' (Expr.follows_nil level) (Expr.follows_nil level) ?_).1
    rw [List.append_nil, List.append_nil, lines]
  refine ⟨outline, fun ht ht' => ?_⟩
  rw [← Expr.outline_eq_rename ht, ← Expr.outline_eq_rename ht', outline]

/-- The negation of `x` in two trees that have its nodes in different orders. -/
theorem Tree.outline_eq_of_dump_negation :
    ∃ (t t' : Tree) (e e' : Expr), t ≠ t' ∧
      (t.dump 3 (some e.id)).toText = .ok "   EXPR -\n    Variable x\n" ∧
      (t'.dump 3 (some e'.id)).toText = .ok "   EXPR -\n    Variable x\n" ∧
      e.outline = e'.outline ∧ (e.Truthful → e'.Truthful →
        e.rename (fun _ => ⟨0⟩) = e'.rename (fun _ => ⟨0⟩)) := by
  let negation (operand : Nat) : Node :=
    { Node.blank .operation with operator := some .unaryMinus, first := some ⟨operand⟩ }
  let x : Node := { Node.blank .reference with name := some "x" }
  let t : Tree := ⟨#[negation 1, x]⟩
  let t' : Tree := ⟨#[x, negation 0]⟩
  let e : Expr := .unary ⟨0⟩ .unaryMinus rfl (.plain ⟨1⟩ .read "x")
  let e' : Expr := .unary ⟨1⟩ .unaryMinus rfl (.plain ⟨0⟩ .read "x")
  have he : t.HasExpr e := .unary ⟨_, rfl, rfl, rfl, rfl, rfl⟩ (.plain ⟨_, rfl, rfl, rfl, rfl⟩)
  have he' : t'.HasExpr e' := .unary ⟨_, rfl, rfl, rfl, rfl, rfl⟩ (.plain ⟨_, rfl, rfl, rfl, rfl⟩)
  have hlone : t.Lone e.lone := by
    rintro id hid
    obtain rfl | rfl : id = ⟨0⟩ ∨ id = ⟨1⟩ := by simpa [e, Expr.lone] using hid
    · exact ⟨_, rfl, rfl⟩
    · exact ⟨_, rfl, rfl⟩
  have hlone' : t'.Lone e'.lone := by
    rintro id hid
    obtain rfl | rfl : id = ⟨1⟩ ∨ id = ⟨0⟩ := by simpa [e', Expr.lone] using hid
    · exact ⟨_, rfl, rfl⟩
    · exact ⟨_, rfl, rfl⟩
  have hdump : (t.dump 3 (some e.id)).toText = .ok "   EXPR -\n    Variable x\n" := rfl
  have hdump' : (t'.dump 3 (some e'.id)).toText = .ok "   EXPR -\n    Variable x\n" := rfl
  have printable : ∀ id id', (Expr.unary id .unaryMinus rfl (.plain id' .read "x")).Printable :=
    fun _ _ => ⟨rfl, by decide⟩
  exact ⟨t, t', e, e', by decide, hdump, hdump', outline_eq_of_dump he he' hlone hlone'
    (printable _ _) (printable _ _) hdump hdump'⟩

end DecafStatics
