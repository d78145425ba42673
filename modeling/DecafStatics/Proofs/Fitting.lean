import DecafStatics.Proofs.Ownership
import DecafStatics.Tree.Arguments

/-!
# When arguments fit

Whether arguments fit parameters is decided along two chains that are followed side by side. One of
them may turn back into itself as long as the other comes to an end: what is behind that end is not
looked at.

Nothing is assumed of the nodes. Any node may stand in the place of a parameter or an argument, the
chains may share nodes, and what an argument wraps may be one of the parameters.

## Main definitions

* `Tree.Fits` — one argument fits one parameter
* `Tree.AllFit` — as many arguments as parameters, each of which fits
* `Tree.sibling`, `Tree.Misfit` — the siblings at one position, and what is wrong with them

## Main results

* `Tree.argumentsFit_iff` — arguments fit exactly if all of them do, and otherwise there is a
  position where they do not
-/

namespace DecafStatics.Tree

/-- The parameter has a type, and the argument wraps an expression of that type. -/
def Fits (t : Tree) (parameter argument : NodeId) : Prop :=
  ∃ ty e, t.Has parameter (fun n => n.ty = some ty) ∧
    t.Has argument (fun n => n.first = some e) ∧ t.Has e fun n => n.ty = some ty

/-- There are as many arguments as parameters, and at each position they fit. -/
def AllFit (t : Tree) (parameters arguments : List NodeId) : Prop :=
  parameters.length = arguments.length ∧
    ∀ pair ∈ parameters.zip arguments, t.Fits pair.1 pair.2

/-- The sibling at a position of the chain from `head`, if the chain is that long. -/
def sibling (t : Tree) : Nat → Option NodeId → Option NodeId
  | 0, head => head
  | i + 1, head => t.sibling i (head.bind fun id => (t.node id).toOption.bind Node.next)

/-- At a position of both chains something is wrong: there is a parameter without an argument or
the other way round, or the argument does not fit the parameter. -/
def Misfit (t : Tree) : Option NodeId → Option NodeId → Prop
  | none, none => False
  | none, some _ | some _, none => True
  | some parameter, some argument => ¬ t.Fits parameter argument

variable {t : Tree} {formal actual : Option NodeId}

/-! ### Positions -/

@[simp] theorem sibling_none (i : Nat) : t.sibling i none = none := by
  induction i with
  | zero => rfl
  | succ i ih => exact ih

theorem sibling_succ {id : NodeId} {n : Node} (hn : t.node id = .ok n) (i : Nat) :
    t.sibling (i + 1) (some id) = t.sibling i n.next := by
  simp [sibling, hn, Except.toOption]

theorem allFit_cons {parameter argument : NodeId} {parameters arguments : List NodeId} :
    t.AllFit (parameter :: parameters) (argument :: arguments) ↔
      t.Fits parameter argument ∧ t.AllFit parameters arguments := by
  simp only [AllFit, List.length_cons, Nat.add_right_cancel_iff, List.zip_cons_cons,
    List.forall_mem_cons, and_left_comm]

/-- Where all arguments fit there is no position with a misfit. -/
theorem AllFit.not_misfit {parameters arguments : List NodeId} (h : t.AllFit parameters arguments)
    (hformal : t.Linked formal parameters) (hactual : t.Linked actual arguments) (i : Nat) :
    ¬ t.Misfit (t.sibling i formal) (t.sibling i actual) := by
  induction hformal generalizing actual arguments i with
  | nil =>
    obtain rfl : arguments = [] := List.length_eq_zero_iff.1 h.1.symm
    cases hactual
    simp [Misfit]
  | cons hn _ ih =>
    cases hactual with
    | nil => cases h.1
    | cons hm hrest =>
      obtain ⟨hfits, hall⟩ := allFit_cons.1 h
      cases i with
      | zero => exact not_not_intro hfits
      | succ i =>
        rw [sibling_succ hn, sibling_succ hm]
        exact ih hall hrest i

/-! ### The comparison -/

/-- The type that an argument offers can be read, and it decides whether the argument fits. -/
theorem exists_argumentType (hc : t.Closed) {parameter argument : NodeId} {n m : Node}
    (hn : t.node parameter = .ok n) (hm : t.node argument = .ok m) :
    ∃ given, t.argumentType m = .ok given ∧
      (typesFit n.ty given = true ↔ t.Fits parameter argument) := by
  cases hfirst : m.first with
  | none =>
    refine ⟨none, by rw [argumentType, hfirst], ?_⟩
    simp only [typesFit_iff, Fits, Has.iff_of_node hn, Has.iff_of_node hm, hfirst]
    simp
  | some e =>
    obtain ⟨k, hk⟩ := node_ok_of_lt (hc.lt_size hm .first hfirst)
    refine ⟨k.ty, by rw [argumentType, hfirst]; simp [hk, Except.map], ?_⟩
    simp only [typesFit_iff, Fits, Has.iff_of_node hn, Has.iff_of_node hm, hfirst]
    constructor
    · rintro ⟨ty, hwanted, hgiven⟩
      exact ⟨ty, e, hwanted, rfl, k, hk, hgiven⟩
    · rintro ⟨ty, _, hwanted, ⟨⟩, hgiven⟩
      exact ⟨ty, hwanted, (Has.iff_of_node hk).1 hgiven⟩

/-- The chain from the head ends after at most this many siblings. -/
def EndsWithin (t : Tree) (bound : Nat) (head : Option NodeId) : Prop :=
  ∃ ids, t.Linked head ids ∧ ids.length ≤ bound

theorem EndsWithin.next {bound : Nat} {id : NodeId} {n : Node} (hn : t.node id = .ok n)
    (h : t.EndsWithin (bound + 1) (some id)) : t.EndsWithin bound n.next := by
  obtain ⟨_, hlinked, hlength⟩ := h
  cases hlinked with
  | cons hn' hrest =>
    rw [hn] at hn'
    cases hn'
    exact ⟨_, hrest, Nat.le_of_succ_le_succ hlength⟩

theorem EndsWithin.eq_none {head : Option NodeId} (h : t.EndsWithin 0 head) : head = none := by
  obtain ⟨ids, hlinked, hlength⟩ := h
  cases hlinked with
  | nil => rfl
  | cons _ _ => exact absurd hlength (Nat.not_succ_le_zero _)

/-- The result of a comparison is right. -/
structure Decides (t : Tree) (formal actual : Option NodeId) (fit : Bool) : Prop where
  allFit : fit = true → ∃ parameters arguments, t.Linked formal parameters ∧
    t.Linked actual arguments ∧ t.AllFit parameters arguments
  misfit : fit = false → ∃ i, t.Misfit (t.sibling i formal) (t.sibling i actual)

/-- Where one of the chains is at its end the comparison is. -/
theorem decides_of_end (bound : Nat) (hend : formal = none ∨ actual = none) :
    ∃ fit, t.argumentsFitWithin bound formal actual = .ok fit ∧ t.Decides formal actual fit := by
  cases formal with
  | none =>
    cases actual with
    | none =>
      have fit : t.AllFit [] [] := ⟨rfl, by simp⟩
      exact ⟨true, by cases bound <;> rfl, fun _ => ⟨[], [], .nil, .nil, fit⟩, by simp⟩
    | some argument => exact ⟨false, by cases bound <;> rfl, by simp, fun _ => ⟨0, trivial⟩⟩
  | some parameter =>
    obtain rfl : actual = none := hend.resolve_left (Option.some_ne_none parameter)
    exact ⟨false, by cases bound <;> rfl, by simp, fun _ => ⟨0, trivial⟩⟩

/-- A comparison along two chains, one of which ends, comes to a result, and the result is right.
The induction is on the bound, which the chain that ends runs out of first. -/
theorem argumentsFitWithin_decides (hc : t.Closed) {bound : Nat}
    (hformal : ∀ id ∈ formal, id.index < t.size) (hactual : ∀ id ∈ actual, id.index < t.size)
    (hends : t.EndsWithin bound formal ∨ t.EndsWithin bound actual) :
    ∃ fit, t.argumentsFitWithin bound formal actual = .ok fit ∧ t.Decides formal actual fit := by
  induction bound generalizing formal actual with
  | zero => exact decides_of_end 0 (hends.imp EndsWithin.eq_none EndsWithin.eq_none)
  | succ bound ih =>
    cases formal with
    | none => exact decides_of_end _ (.inl rfl)
    | some parameter =>
      cases actual with
      | none => exact decides_of_end _ (.inr rfl)
      | some argument =>
        obtain ⟨n, hn⟩ := node_ok_of_lt (hformal parameter rfl)
        obtain ⟨m, hm⟩ := node_ok_of_lt (hactual argument rfl)
        obtain ⟨given, hgiven, hfits⟩ := exists_argumentType hc hn hm
        rw [argumentsFitWithin, hn, hm]
        simp only [bind, Except.bind, hgiven]
        by_cases hfit : typesFit n.ty given = true
        · obtain ⟨fit, hrun, hdecides⟩ := ih (fun id hid => hc.lt_size hn .next hid)
            (fun id hid => hc.lt_size hm .next hid)
            (hends.imp (EndsWithin.next hn) (EndsWithin.next hm))
          rw [if_pos hfit]
          refine ⟨fit, hrun, fun h => ?_, fun h => ?_⟩
          · obtain ⟨parameters, arguments, hps, has, hall⟩ := hdecides.allFit h
            exact ⟨parameter :: parameters, argument :: arguments, .cons hn hps, .cons hm has,
              allFit_cons.2 ⟨hfits.1 hfit, hall⟩⟩
          · obtain ⟨i, hi⟩ := hdecides.misfit h
            exact ⟨i + 1, by rwa [sibling_succ hn, sibling_succ hm]⟩
        · rw [if_neg hfit]
          exact ⟨false, rfl, by simp, fun _ => ⟨0, fun h => hfit (hfits.2 h)⟩⟩

/-- **When arguments fit.** In a tree where no handle dangles, and where the chain of parameters or
the chain of arguments comes to an end, the comparison of the two has a result. It is positive
exactly if both chains end, are of one length, and at each position the argument fits the parameter.
It is negative exactly if there is a position where only one of the chains has a sibling, or where
both have one and the argument does not fit. -/
theorem argumentsFit_iff (hc : t.Closed) (hformal : ∀ id ∈ formal, id.index < t.size)
    (hactual : ∀ id ∈ actual, id.index < t.size)
    (hends : (∃ ids, t.Linked formal ids) ∨ ∃ ids, t.Linked actual ids) :
    ∃ fit, t.argumentsFit formal actual = .ok fit ∧
      (fit = true ↔ ∃ parameters arguments, t.Linked formal parameters ∧
        t.Linked actual arguments ∧ t.AllFit parameters arguments) ∧
      (fit = false ↔ ∃ i, t.Misfit (t.sibling i formal) (t.sibling i actual)) := by
  have enough : ∀ {head : Option NodeId}, (∃ ids, t.Linked head ids) →
      t.EndsWithin (t.size * t.size + 1) head := by
    rintro head ⟨ids, hlinked⟩
    have short := hlinked.length_le
    have square := Nat.le_mul_self t.size
    exact ⟨ids, hlinked, by omega⟩
  obtain ⟨fit, hrun, hdecides⟩ :=
    argumentsFitWithin_decides hc hformal hactual (hends.imp enough enough)
  refine ⟨fit, hrun, ⟨hdecides.allFit, ?_⟩, ⟨hdecides.misfit, ?_⟩⟩
  · rintro ⟨parameters, arguments, hps, has, hall⟩
    refine Bool.not_eq_false fit ▸ fun hfalse => ?_
    obtain ⟨i, hi⟩ := hdecides.misfit hfalse
    exact hall.not_misfit hps has i hi
  · rintro ⟨i, hi⟩
    refine Bool.not_eq_true fit ▸ fun htrue => ?_
    obtain ⟨parameters, arguments, hps, has, hall⟩ := hdecides.allFit htrue
    exact hall.not_misfit hps has i hi

/-- Two parameters, and two arguments that follow each other in a circle. -/
def circular : Tree := ⟨#[
  { Node.blank .parameter with ty := some .int, next := some ⟨1⟩ },
  { Node.blank .parameter with ty := some .bool },
  { Node.blank .argument with first := some ⟨4⟩, next := some ⟨3⟩ },
  { Node.blank .argument with first := some ⟨5⟩, next := some ⟨2⟩ },
  { Node.blank .intConstant with ty := some .int },
  { Node.blank .boolConstant with ty := some .bool }]⟩

theorem argumentsFit_iff_circular : circular.Closed ∧
    circular.Linked (some ⟨0⟩) [⟨0⟩, ⟨1⟩] ∧ (¬ ∃ ids, circular.Linked (some ⟨2⟩) ids) ∧
      circular.Misfit (circular.sibling 2 (some ⟨0⟩)) (circular.sibling 2 (some ⟨2⟩)) ∧
        circular.argumentsFit (some ⟨0⟩) (some ⟨2⟩) = .ok false := by
  have closed : circular.Closed := closed_of_forall (by decide)
  have parameters : circular.Linked (some ⟨0⟩) [⟨0⟩, ⟨1⟩] := .cons rfl (.cons rfl .nil)
  have arguments : ¬ ∃ ids, circular.Linked (some ⟨2⟩) ids := by
    rintro ⟨ids, hlinked⟩
    have endless : (circular.siblings (some ⟨2⟩)).toBool = false := by decide
    rw [siblings_eq_ok_iff.2 hlinked] at endless
    cases endless
  have inside : ∀ id ∈ some (⟨2⟩ : NodeId), id.index < circular.size := by decide
  obtain ⟨fit, hrun, -, hmisfit⟩ :=
    argumentsFit_iff closed (by decide) inside (.inl ⟨_, parameters⟩)
  have misfit : circular.Misfit (circular.sibling 2 (some ⟨0⟩)) (circular.sibling 2 (some ⟨2⟩)) :=
    trivial
  exact ⟨closed, parameters, arguments, misfit, by rw [hrun, hmisfit.2 ⟨2, misfit⟩]⟩

end DecafStatics.Tree
