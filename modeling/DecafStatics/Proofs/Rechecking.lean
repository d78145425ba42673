import DecafStatics.Proofs.Safety

/-!
# A check of a program that was checked before

`CompilationUnit.check_eq` says what the check of a program gives where nothing is declared so far.
The same holds in any context that an earlier check may have left: what is found out is the
transcript of the program in that context.

## Implementation notes

The tree that is checked is not the tree that the program was read off. It has the same text, and
any annotations at all.

## Main definitions

* `Program.eventsFrom`, `Program.behindFrom` — the transcript of a program in any global context,
  and the context behind it
* `CompilationUnit.Ready` — a unit that is about to be checked in a context

## Main results

* `CompilationUnit.Ready.check_eq` — checking a program
* `CompilationUnit.Ready.again` — the unit that is left is about to be checked again
-/

namespace DecafStatics

namespace Context

/-- The context that a check starts in where the one before has ended in `c`. -/
def rested (c : Context) : Context := { c with frame := .starting 0, loops := 0, method := none }

end Context

namespace Program

/-- What checking a program in `c` leaves behind. -/
def eventsFrom (c : Context) (p : Program) : List Event :=
  c.along Extern.events Extern.next p.externs ++ p.packageEvents (p.externs.foldl Extern.next c)

/-- The context behind a program that is checked in `c`. -/
def behindFrom (c : Context) (p : Program) : Context := p.behind (p.externs.foldl Extern.next c)

end Program

/-- The state that a check starts in depends on the tree in no other way. -/
theorem Checker.Stands.start_of_bare_eq {t t' : Tree} {tree : Tree} {table : SymbolTable}
    {c : Context} (hs : (Checker.start tree table).Stands t c) (h : t'.bare = t.bare) :
    (Checker.start t' table).Stands t c where
  text := h
  seated := congrArg (fun s : Checker => { s with tree := t' }) hs.seated
  count := hs.count
  stored := hs.stored
  sound := hs.sound

namespace CompilationUnit

/-- A unit with the program `p` at its root, the names of `c` in sight and the text of `t`. -/
structure Ready (u : CompilationUnit) (t : Tree) (p : Program) (c : Context) : Prop where
  root : u.root = some p.id
  held : t.HasProgram p
  alone : p.ids.Nodup
  addressable : ∀ id ∈ p.ids, id.index < maxHandles
  stands : (Checker.start u.tree u.table).Stands t c

/-- The unit behind the check of a program. -/
def checkedFrom (u : CompilationUnit) (p : Program) (c : Context) : CompilationUnit where
  tree := u.tree.annotate (p.eventsFrom c)
  table := { u.table with
    store := u.table.store ++ (Event.declared (p.eventsFrom c)).toArray
    live := (p.behindFrom c).bindings.map Binding.id }
  root := u.root

/-- What is said about a program that is checked in `c`. -/
def reportedFrom (u : CompilationUnit) (p : Program) (c : Context) : List Diagnostic :=
  (Event.complaints (p.eventsFrom c)).map fun e => ⟨e.1, u.tree.position e.2⟩

variable {u : CompilationUnit} {t : Tree} {p : Program} {c : Context}

theorem Holds.ready (h : u.Holds p) : u.Ready u.tree p .start :=
  ⟨h.root, h.held, h.alone, h.addressable, h.stands⟩

theorem Rests.ready (h : u.Rests t p) (hp : t.HasProgram p) (hd : p.ids.Nodup)
    (hhandles : ∀ id ∈ p.ids, id.index < maxHandles) : ∃ c, u.Ready t p c :=
  h.stands.imp fun _ hs => ⟨h.root, hp, hd, hhandles, hs⟩

namespace Ready

theorem level_eq (h : u.Ready t p c) : c.level = 0 := h.stands.level_eq.symm

/-- Any annotations will do. -/
theorem of_bare_eq (h : u.Ready t p c) {t' : Tree} (ht : t'.bare = t.bare) :
    { u with tree := t' }.Ready t p c where
  root := h.root
  held := h.held
  alone := h.alone
  addressable := h.addressable
  stands := h.stands.start_of_bare_eq ht

theorem plays (h : u.Ready t p c) : Check.Plays t (.start u.tree u.table)
    (Check.statements u.root) () (p.eventsFrom c) (p.behindFrom c) := by
  rw [h.root]
  exact Check.plays_statements h.held h.alone h.addressable h.stands h.stands.frame_eq.symm

/-- **What the check of a program gives**, whatever is declared already. -/
theorem check_eq (h : u.Ready t p c) : u.check = .ok (reportedFrom u p c, checkedFrom u p c) := by
  have diagnostics : (((Checker.start u.tree u.table).play (p.eventsFrom c)).seat
      (p.behindFrom c)).diagnostics.toList = reportedFrom u p c := by
    simp [Checker.play, Checker.seat, Checker.start, reportedFrom]
  rw [check, runCheck, h.plays.run, ← diagnostics]
  rfl

/-- The unit that a check leaves is about to be checked again. -/
theorem again (h : u.Ready t p c) : (checkedFrom u p c).Ready t p (p.behindFrom c).rested where
  root := h.root
  held := h.held
  alone := h.alone
  addressable := h.addressable
  stands := h.plays.stands.restart ((Program.level_behind c p).trans h.level_eq)

end Ready

end CompilationUnit

end DecafStatics
