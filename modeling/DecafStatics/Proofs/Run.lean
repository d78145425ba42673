import DecafStatics.Check.Statement

/-!
# Running a check

A check is a function from a state to a result and a state, or to a fault. The lemmas here take
a run apart at its binds, in both directions: `run_bind_of_ok` follows a run whose first part is
known, `run_bind_eq_ok_iff` splits a run that is known to have come to an end.
-/

namespace DecafStatics

/-- A result that can be computed is one that there is. -/
theorem exists_ok_of_any {ε α : Type} {x : Except ε α} {p : α → Bool}
    (h : x.toOption.any p = true) : ∃ a, x = .ok a ∧ p a = true := by
  cases x with
  | error e => cases h
  | ok a => exact ⟨a, rfl, h⟩

/-- A computation that ends has both of its parts end. -/
theorem bind_eq_ok_iff {ε α β : Type} {x : Except ε α} {f : α → Except ε β} {b : β} :
    x >>= f = .ok b ↔ ∃ a, x = .ok a ∧ f a = .ok b := by
  cases x <;> simp [bind, Except.bind]

/-- What comes out of a map has gone into it. -/
theorem map_eq_ok_iff {ε α β : Type} {x : Except ε α} {f : α → β} {b : β} :
    x.map f = .ok b ↔ ∃ a, x = .ok a ∧ f a = b := by
  cases x <;> simp [Except.map]

namespace Check

variable {α β : Type} {s s' : Checker}

/-- A run whose first part ends goes on from where that part has ended. -/
theorem run_bind_of_ok {m : Check α} {f : α → Check β} {a : α} {s₁ : Checker}
    (h : m.run s = .ok (a, s₁)) : (m >>= f).run s = (f a).run s₁ := by
  rw [StateT.run_bind, h]
  rfl

/-- A run that ends has both of its parts end. -/
theorem run_bind_eq_ok_iff {m : Check α} {f : α → Check β} {b : β} :
    (m >>= f).run s = .ok (b, s') ↔
      ∃ a s₁, m.run s = .ok (a, s₁) ∧ (f a).run s₁ = .ok (b, s') := by
  rw [StateT.run_bind, bind_eq_ok_iff]
  exact Prod.exists

theorem run_pure_eq_ok_iff {a b : α} : (pure a : Check α).run s = .ok (b, s') ↔ b = a ∧ s' = s := by
  constructor
  · intro h
    cases h
    exact ⟨rfl, rfl⟩
  · rintro ⟨rfl, rfl⟩
    rfl

theorem run_get_eq_ok_iff {t : Checker} : (get : Check Checker).run s = .ok (t, s') ↔
    t = s ∧ s' = s := by
  constructor
  · intro h
    cases h
    exact ⟨rfl, rfl⟩
  · rintro ⟨rfl, rfl⟩
    rfl

theorem run_liftM_eq_ok_iff {value : Except Fault α} {a : α} :
    (liftM value : Check α).run s = .ok (a, s') ↔ value = .ok a ∧ s' = s := by
  cases value with
  | error fault =>
    constructor
    · intro h
      cases h
    · rintro ⟨⟨⟩, -⟩
  | ok b =>
    constructor
    · intro h
      cases h
      exact ⟨rfl, rfl⟩
    · rintro ⟨⟨⟩, rfl⟩
      rfl

theorem discard_eq_bind (m : Check α) : discard m = m >>= fun _ => pure () := rfl

theorem run_discard_eq_ok_iff {m : Check α} :
    (discard m).run s = .ok ((), s') ↔ ∃ a, m.run s = .ok (a, s') := by
  rw [discard_eq_bind, run_bind_eq_ok_iff]
  constructor
  · rintro ⟨a, s₁, ha, hpure⟩
    obtain ⟨-, rfl⟩ := run_pure_eq_ok_iff.1 hpure
    exact ⟨a, ha⟩
  · rintro ⟨a, ha⟩
    exact ⟨a, s', ha, rfl⟩

theorem run_modify (f : Checker → Checker) (s : Checker) :
    (modify f : Check PUnit).run s = .ok (⟨⟩, f s) := rfl

theorem run_node_eq_ok_iff {id : NodeId} {n : Node} :
    (node id).run s = .ok (n, s') ↔ s.tree.node id = .ok n ∧ s' = s := by
  rw [run_node]
  cases s.tree.node id <;> simp [Except.map, eq_comm]

theorem run_update_eq_ok_iff {id : NodeId} {f : Node → Node} :
    (update id f).run s = .ok ((), s') ↔
      ∃ t, s.tree.update id f = .ok t ∧ s' = { s with tree := t } := by
  rw [run_update]
  cases s.tree.update id f <;> simp [Except.map, eq_comm]

theorem run_report_eq_ok_iff {problem : Problem} {id : NodeId} :
    (report problem id).run s = .ok ((), s') ↔
      ∃ n, s.tree.node id = .ok n ∧
        s' = { s with diagnostics := s.diagnostics.push ⟨problem, n.position⟩ } := by
  rw [run_report]
  cases s.tree.node id <;> simp [Except.map, eq_comm]

theorem run_closeScope_eq_ok_iff {reclaimed : Nat} :
    closeScope.run s = .ok (reclaimed, s') ↔
      ∃ table, s.table.closeScopes s.level = .ok (reclaimed, table) ∧
        s' = { s with table := table, level := s.level - 1 } := by
  rw [run_closeScope]
  cases h : s.table.closeScopes s.level with
  | error fault => simp [Except.map]
  | ok r =>
    simp only [Except.map, Except.ok.injEq, Prod.mk.injEq]
    constructor
    · rintro ⟨rfl, rfl⟩
      exact ⟨r.2, rfl, rfl⟩
    · rintro ⟨table, rfl, rfl⟩
      exact ⟨rfl, rfl⟩

theorem run_allocate_eq_ok {words : Nat} (h : (allocate words).run s = .ok ((), s')) :
    s' = { s with frame :=
      ⟨s.frame.offset + words, max s.frame.peak (s.frame.offset + words)⟩ } := by
  by_cases hlt : s.frame.offset + words < wordLimit
  · rw [run_allocate hlt] at h
    cases h
    rfl
  · simp [allocate, hlt] at h
    cases h

end Check

end DecafStatics
