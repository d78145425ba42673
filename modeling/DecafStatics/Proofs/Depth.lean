import DecafStatics.Proofs.Ownership
import DecafStatics.Tree.Arguments

/-!
# How deep an acyclic tree is

Where nothing lies below itself the ways along edges are no longer than there are nodes. So nothing
that follows edges goes on forever: every chain has an end, be it a handle that names no node, and
every descent comes to the bottom.

## Main definitions

* `Tree.Within` — at most so many nodes lie on a way down from a node

## Main results

* `Tree.within_of_forall`, `Tree.Acyclic.within` — the size of an acyclic tree bounds its ways
* `Tree.Within.chain`, `Tree.Acyclic.argumentsFit_ne_endless` — chains end, and so does the
  comparison of arguments with parameters
-/

namespace DecafStatics.Tree

open Relation

/-- The ways that start at the node visit less than `depth` nodes of the tree. -/
def Within (t : Tree) : Nat → NodeId → Prop
  | 0, _ => False
  | depth + 1, id => ∀ edge child, t.Owns id edge child → t.Within depth child

variable {t u : Tree} {id : NodeId} {head formal : Option NodeId} {depth bound : Nat}

theorem Within.mono {depth' : Nat} (h : t.Within depth id) (hle : depth ≤ depth') :
    t.Within depth' id := by
  induction depth generalizing id depth' with
  | zero => exact h.elim
  | succ depth ih =>
    obtain ⟨depth', rfl⟩ : ∃ d, depth' = d + 1 := ⟨depth' - 1, by omega⟩
    exact fun edge child howns => ih (h edge child howns) (Nat.le_of_succ_le_succ hle)

/-- What an edge of a node leads to is no deeper than the node. -/
theorem Within.edge {n : Node} (h : t.Within depth id) (hn : t.node id = .ok n) (edge : Edge) :
    ∀ child ∈ n.edge edge, t.Within depth child := by
  cases depth with
  | zero => exact h.elim
  | succ depth =>
    exact fun child hchild => (h edge child (owns_of_node hn hchild)).mono (Nat.le_succ depth)

theorem within_of_bare_eq (h : u.bare = t.bare) : u.Within depth id ↔ t.Within depth id := by
  induction depth generalizing id with
  | zero => exact Iff.rfl
  | succ depth ih =>
    exact forall_congr' fun edge => forall_congr' fun child =>
      imp_congr (owns_of_bare_eq h) ih

/-- Where there are longer ways there is one with `depth` nodes, each below the ones before it. -/
theorem exists_way (h : ¬ t.Within depth id) : ∃ way : List NodeId, way.length = depth ∧
    (∀ other ∈ way, ReflTransGen t.Above id other ∧ other.index < t.size) ∧
      way.Pairwise (TransGen t.Above) := by
  induction depth generalizing id with
  | zero => exact ⟨[], rfl, by simp, .nil⟩
  | succ depth ih =>
    obtain ⟨edge, h⟩ := Classical.not_forall.1 h
    obtain ⟨child, h⟩ := Classical.not_forall.1 h
    obtain ⟨howns, hdeep⟩ := Classical.not_imp.1 h
    obtain ⟨way, hlength, hbelow, hway⟩ := ih hdeep
    have habove : t.Above id child := ⟨edge, howns⟩
    obtain ⟨n, hn, -⟩ := howns
    refine ⟨id :: way, congrArg Nat.succ hlength, ?_, List.pairwise_cons.2 ⟨?_, hway⟩⟩
    · refine List.forall_mem_cons.2 ⟨⟨.refl, lt_of_node_eq_ok hn⟩, fun other hother => ?_⟩
      exact ⟨(hbelow other hother).1.head habove, (hbelow other hother).2⟩
    · exact fun other hother => .head' habove (hbelow other hother).1

/-- Where nothing that is met lies below itself, no way visits a node twice. -/
theorem within_of_forall (h : ∀ other, ReflTransGen t.Above id other →
    ¬ TransGen t.Above other other) : t.Within (t.size + 1) id := by
  refine Classical.byContradiction fun hdeep => ?_
  obtain ⟨way, hlength, hbelow, hway⟩ := exists_way hdeep
  have hd : way.Nodup := hway.imp_of_mem fun {a b} ha _ hab heq => by
    rw [← heq] at hab
    exact h a (hbelow a ha).1 hab
  have hle := length_le_of_nodup_handles hd fun other hother => (hbelow other hother).2
  rw [hlength] at hle
  exact Nat.not_succ_le_self _ hle

/-- **The size of an acyclic tree bounds its ways.** -/
theorem Acyclic.within (h : t.Acyclic) (id : NodeId) : t.Within (t.size + 1) id :=
  within_of_forall fun other _ => h other

/-! ### Chains and comparisons -/

/-- The siblings behind a node are no deeper than the node. -/
theorem Within.chain (h : ∀ id ∈ head, t.Within depth id) (hb : depth ≤ bound) :
    (t.chainWithin bound head).stop ≠ some .endless ∧
      ∀ other ∈ (t.chainWithin bound head).ids, t.Within depth other := by
  induction depth generalizing head bound with
  | zero =>
    cases head with
    | none => simp
    | some id => exact (h id rfl).elim
  | succ depth ih =>
    cases head with
    | none => simp
    | some id =>
      obtain ⟨bound, rfl⟩ : ∃ b, bound = b + 1 := ⟨bound - 1, by omega⟩
      cases hn : t.node id with
      | error fault =>
        obtain ⟨-, rfl⟩ := node_eq_error_iff.1 hn
        simp [chainWithin, hn]
      | ok n =>
        rw [chainWithin_some bound hn]
        have hnext : ∀ next ∈ n.next, t.Within depth next :=
          fun next hmem => h id rfl .next next (owns_of_node hn hmem)
        obtain ⟨hstop, hrest⟩ := ih hnext (Nat.le_of_succ_le_succ hb)
        exact ⟨hstop, List.forall_mem_cons.2
          ⟨h id rfl, fun other hother => (hrest other hother).mono (Nat.le_succ depth)⟩⟩

theorem Acyclic.within_chain (h : t.Acyclic) (hhead : ∀ id ∈ head, t.Within depth id) :
    ∀ other ∈ (t.chain head).ids, t.Within depth other := by
  rcases Nat.le_total depth (t.size + 1) with hle | hle
  · exact (Within.chain hhead hle).2
  · exact fun other _ => (h.within other).mono hle

theorem Acyclic.stop_ne_endless (h : t.Acyclic) (head : Option NodeId) :
    (t.chain head).stop ≠ some .endless :=
  (Within.chain (fun id _ => h.within id) (Nat.le_refl _)).1

theorem Acyclic.ending_ne_endless (h : t.Acyclic) (head : Option NodeId) :
    (t.chain head).ending ≠ .error .endless := by
  have hstop := h.stop_ne_endless head
  unfold Chain.ending
  split <;> simp_all

theorem Acyclic.siblings_ne_endless (h : t.Acyclic) (head : Option NodeId) :
    t.siblings head ≠ .error .endless := by
  have hstop := h.stop_ne_endless head
  unfold siblings Chain.toExcept
  split <;> simp_all

theorem node_ne_endless : t.node id ≠ .error .endless := by
  intro h
  cases (node_eq_error_iff.1 h).2

theorem update_ne_endless {f : Node → Node} : t.update id f ≠ .error .endless := by
  unfold update
  split <;> nofun

theorem argumentType_ne_endless {argument : Node} : t.argumentType argument ≠ .error .endless := by
  unfold argumentType
  split
  · nofun
  · rename_i id _
    cases hn : t.node id with
    | ok n => nofun
    | error fault =>
      rintro ⟨⟩
      exact node_ne_endless hn

theorem bind_ne_endless {α β : Type} {x : Except Fault α} {f : α → Except Fault β}
    (hx : x ≠ .error .endless) (hf : ∀ a, x = .ok a → f a ≠ .error .endless) :
    (x >>= f) ≠ .error .endless := by
  cases x with
  | error fault =>
    rintro ⟨⟩
    exact hx rfl
  | ok a => exact hf a rfl

/-- The comparison goes no further than the parameters reach. -/
theorem Within.argumentsFitWithin_ne_endless (h : ∀ id ∈ formal, t.Within depth id)
    (hb : depth ≤ bound) (actual : Option NodeId) :
    t.argumentsFitWithin bound formal actual ≠ .error .endless := by
  induction depth generalizing formal actual bound with
  | zero =>
    cases formal with
    | none => cases actual <;> cases bound <;> simp [argumentsFitWithin]
    | some id => exact (h id rfl).elim
  | succ depth ih =>
    obtain ⟨bound, rfl⟩ : ∃ b, bound = b + 1 := ⟨bound - 1, by omega⟩
    cases formal with
    | none => cases actual <;> simp [argumentsFitWithin]
    | some parameter =>
      cases actual with
      | none => simp [argumentsFitWithin]
      | some argument =>
        rw [argumentsFitWithin]
        refine bind_ne_endless node_ne_endless fun n hn => bind_ne_endless node_ne_endless
          fun m _ => bind_ne_endless argumentType_ne_endless fun given _ => ?_
        split
        · refine ih (fun next hmem => ?_) (Nat.le_of_succ_le_succ hb) m.next
          exact h parameter rfl .next next (owns_of_node hn hmem)
        · nofun

theorem Acyclic.argumentsFit_ne_endless (h : t.Acyclic) (formal actual : Option NodeId) :
    t.argumentsFit formal actual ≠ .error .endless :=
  Within.argumentsFitWithin_ne_endless (fun id _ => h.within id)
    (Nat.succ_le_succ (Nat.le_mul_self t.size)) actual

end DecafStatics.Tree
