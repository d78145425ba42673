import DecafStatics.Proofs.Histories

/-!
# What a lookup finds

A lookup can be read off the history of a table. At a level it finds the first declaration of the
name there since the level was last left, by itself or together with a level around it. Over the
levels around it finds what the nearest of them has.

The two are apart in the proofs as in the program: `firstDeclaration_eq` follows the history one
operation at a time, `lookup_succ` counts levels down.

## Scope

Symbols are numbered without a bound here, while a handle is a word of 32 bits. So what is said at
the end is about tables that have stored no more symbols than there are handles. Nor is it about
scopes whose storage is too much for a word: these cannot be left.

## Main definitions

* `SymbolTable.History.firstDeclaration` — the first declaration since a level was last left
* `SymbolTable.Recalls` — a table whose lookups tell its history

## Main results

* `SymbolTable.lookup_succ` — a lookup tries its own level before those around it
* `SymbolTable.firstDeclaration_eq` — what the lookup at a level finds after any history
* `SymbolTable.recalls_of_reaches` — lookups tell the history, and leaving a scope restores those
  of the scopes around it
* `SymbolTable.closeScopes_halves` — a scope with too much storage to be left
-/

namespace DecafStatics.SymbolTable

/-- A use that drops a level from sight. -/
def Operation.closes (level : Nat) : Operation → Bool
  | .closeScopes around => around ≤ level
  | .insert .. | .lookupAt .. | .lookup .. | .freshTemporary | .edit .. => false

/-- A use that is to declare a name at a level. -/
def Operation.declares (name : String) (level : Nat) : Operation → Bool
  | .insert symbol _ => symbol.name = name ∧ symbol.level = level
  | .lookupAt .. | .lookup .. | .closeScopes _ | .freshTemporary | .edit .. => false

namespace History

/-- What was done since a level was last left. -/
def since (level : Nat) (history : History) : History :=
  history.takeWhile fun step => !step.1.closes level

/-- The answer to the first declaration of a name at a level since the level was last left. -/
def firstDeclaration (history : History) (name : String) (level : Nat) : Option Answer :=
  ((history.since level).reverse.find? fun step => step.1.declares name level).map Prod.snd

theorem firstDeclaration_cons (op : Operation) (answer : Answer) (history : History)
    (name : String) (level : Nat) :
    firstDeclaration ((op, answer) :: history) name level =
      if op.closes level then none
      else (history.firstDeclaration name level).or
        (if op.declares name level then some answer else none) := by
  cases hcloses : op.closes level with
  | true => simp [firstDeclaration, since, hcloses]
  | false =>
    simp only [firstDeclaration, since, List.takeWhile_cons, hcloses, Bool.not_false, if_true,
      List.reverse_cons, List.find?_append, List.find?_singleton, Option.map_or]
    split <;> rfl

end History

/-! ### A level at a time -/

section LookupAt

variable {table table' : SymbolTable} {name : String} {level : Nat}

theorem lookupAt_insert {symbol : Symbol} {position : Position} {id : SymbolId}
    (h : table.Coherent) (hok : table.insert symbol position = .ok (id, table')) :
    table'.lookupAt name level =
      if symbol.name = name ∧ symbol.level = level then some id
      else table.lookupAt name level := by
  rw [lookupAt, entries_insert h hok, List.find?_cons]
  by_cases hs : symbol.name = name ∧ symbol.level = level
  · simp [hs]
  · rw [if_neg hs, decide_eq_false fun hsym => hs hsym.symm, lookupAt]

theorem lookupAt_closeScopes {around reclaimed : Nat}
    (hok : table.closeScopes around = .ok (reclaimed, table')) :
    table'.lookupAt name level = if around ≤ level then none else table.lookupAt name level := by
  split
  · rename_i hle
    rw [lookupAt_eq_none_iff, entries_closeScopes hok]
    rintro e he rfl
    exact absurd (of_decide_eq_true (List.mem_filter.1 he).2) (Nat.not_lt_of_le hle)
  · rename_i hlt
    rw [lookupAt, entries_closeScopes hok, List.find?_filter, lookupAt]
    congr 2
    funext e
    have kept : e.2.level = level → e.2.level < around := fun h =>
      h ▸ Nat.lt_of_not_le hlt
    simpa using fun h _ => kept h

theorem lookupAt_update {id : SymbolId} {edit : Edit}
    (hok : table.update id edit.apply = .ok table') :
    table'.lookupAt name level = table.lookupAt name level := by
  have test : (fun e : SymbolId × Symbol => decide (e.2.level = level ∧ e.2.name = name)) ∘
      edit.entry id = fun e => decide (e.2.level = level ∧ e.2.name = name) := by
    funext e
    simp only [Function.comp_apply, Edit.level_entry, Edit.name_entry]
  rw [lookupAt, Edit.entries_eq hok, List.find?_map, Option.map_map, test]
  rfl

/-- An operation adds to what a lookup finds at a level, or makes it find nothing. -/
theorem lookupAt_perform {op : Operation} {answer : Answer} (h : table.Coherent)
    (hop : table.perform op = .ok (answer, table')) :
    (table'.lookupAt name level).map Answer.declared =
      if op.closes level then none
      else ((table.lookupAt name level).map Answer.declared).or
        (if op.declares name level then some answer else none) := by
  cases performed_of_perform hop with
  | @declared symbol position id _ hinsert =>
    have free := (insert_eq_ok_iff.1 hinsert).1
    rw [lookupAt_insert h hinsert]
    by_cases hs : symbol.name = name ∧ symbol.level = level
    · obtain ⟨rfl, rfl⟩ := hs
      simp [Operation.closes, Operation.declares, free]
    · simp [Operation.closes, Operation.declares, hs]
  | @refused symbol position d hinsert =>
    obtain ⟨id, hid⟩ := Option.isSome_iff_exists.1 (insert_eq_error_iff.1 hinsert).1
    by_cases hs : symbol.name = name ∧ symbol.level = level
    · obtain ⟨rfl, rfl⟩ := hs
      simp [Operation.closes, Operation.declares, hid]
    · simp [Operation.closes, Operation.declares, hs]
  | foundAt | found => simp [Operation.closes, Operation.declares]
  | temporary =>
    have same : table.freshTemporary.2.lookupAt name level = table.lookupAt name level := rfl
    simp [Operation.closes, Operation.declares, same]
  | reclaimed hclose =>
    rw [lookupAt_closeScopes hclose]
    simp only [Operation.closes, Operation.declares, decide_eq_true_eq]
    split <;> simp
  | edited hupdate =>
    rw [lookupAt_update hupdate]
    simp [Operation.closes, Operation.declares]

/-- After any history, the lookup at a level finds the first declaration since the level was last
left. -/
theorem firstDeclaration_eq {history : History} (h : Reaches .empty history table) :
    history.firstDeclaration name level = (table.lookupAt name level).map .declared := by
  induction h with
  | nil => rfl
  | cons before hop ih =>
    have coherent := (before.valid valid_empty).coherent
    rw [History.firstDeclaration_cons, ih, lookupAt_perform coherent hop]

end LookupAt

/-! ### The levels around -/

section Lookup

variable {table table' : SymbolTable} {name : String}

theorem lookup_zero : table.lookup name 0 = table.lookupAt name 0 := by
  refine Option.ext fun id => ?_
  rw [lookup_eq_some_iff]
  constructor
  · rintro ⟨l, hl, hid, -⟩
    obtain rfl := Nat.le_zero.1 hl
    exact hid
  · intro hid
    exact ⟨0, Nat.le_refl 0, hid, fun m hm hlt => absurd hlt (Nat.not_lt_of_le hm)⟩

/-- A lookup tries its own level first, and those around it only if it finds nothing there. -/
theorem lookup_succ (level : Nat) :
    table.lookup name (level + 1) =
      (table.lookupAt name (level + 1)).or (table.lookup name level) := by
  cases hfound : table.lookupAt name (level + 1) with
  | some id =>
    refine lookup_eq_some_iff.2 ⟨level + 1, Nat.le_refl _, hfound, fun m hm hlt => ?_⟩
    exact absurd hlt (Nat.not_lt_of_le hm)
  | none =>
    refine Option.ext fun id => ?_
    simp only [Option.none_or, lookup_eq_some_iff]
    constructor
    · rintro ⟨l, hl, hid, hnone⟩
      have hne : l ≠ level + 1 := by
        rintro rfl
        rw [hfound] at hid
        cases hid
      exact ⟨l, by omega, hid, fun m hm hlt => hnone m (by omega) hlt⟩
    · rintro ⟨l, hl, hid, hnone⟩
      refine ⟨l, by omega, hid, fun m hm hlt => ?_⟩
      by_cases htop : m = level + 1
      · exact htop ▸ hfound
      · exact hnone m (by omega) hlt

theorem lookup_eq_none_iff {level : Nat} :
    table.lookup name level = none ↔ ∀ l ≤ level, table.lookupAt name l = none := by
  induction level with
  | zero => simp [lookup_zero]
  | succ level ih =>
    rw [lookup_succ, Option.or_eq_none_iff, ih]
    constructor
    · rintro ⟨hown, haround⟩ l hl
      by_cases htop : l = level + 1
      · exact htop ▸ hown
      · exact haround l (by omega)
    · intro hnone
      exact ⟨hnone _ (Nat.le_refl _), fun l hl => hnone l (by omega)⟩

/-- Tables that agree at a level and at those around it agree in a lookup from there. -/
theorem lookup_congr {level : Nat}
    (h : ∀ l ≤ level, table.lookupAt name l = table'.lookupAt name l) :
    table.lookup name level = table'.lookup name level := by
  induction level with
  | zero => rw [lookup_zero, lookup_zero, h 0 (Nat.le_refl 0)]
  | succ level ih =>
    rw [lookup_succ, lookup_succ, h _ (Nat.le_refl _), ih fun l hl => h l (by omega)]

end Lookup

/-! ### What lookups tell -/

/-- A use that is to declare a symbol at some level or below it. -/
def Operation.Nests (level : Nat) (op : Operation) : Prop :=
  ∃ symbol position, op = .insert symbol position ∧ level ≤ symbol.level

/-- Declarations at a level and below it change no lookup at the levels around it. -/
theorem lookupAt_of_nests {start table : SymbolTable} {history : History} {level : Nat}
    (hstart : start.Coherent) (h : Reaches start history table)
    (hnests : ∀ step ∈ history, step.1.Nests level) :
    table.Coherent ∧ ∀ name, ∀ l < level, table.lookupAt name l = start.lookupAt name l := by
  induction h with
  | nil => exact ⟨hstart, fun _ _ _ => rfl⟩
  | cons _ hop ih =>
    obtain ⟨⟨symbol, position, hinsert, hlevel⟩, hbefore⟩ := List.forall_mem_cons.1 hnests
    obtain ⟨coherent, same⟩ := ih hbefore
    cases hinsert
    cases performed_of_perform hop with
    | refused => exact ⟨coherent, same⟩
    | declared hinsert =>
      refine ⟨coherent_insert coherent hinsert, fun name l hl => ?_⟩
      rw [lookupAt_insert coherent hinsert, if_neg (by rintro ⟨-, rfl⟩; omega), same name l hl]

/-- A table whose lookups tell its history. -/
structure Recalls (history : History) (table : SymbolTable) : Prop where
  /-- At a level, the first declaration since the level was last left. -/
  lookupAt : ∀ name level,
    history.firstDeclaration name level = (table.lookupAt name level).map .declared
  /-- From a level, what is found at the nearest level around it that has anything. -/
  lookup_some : ∀ name level id, table.lookup name level = some id ↔
    ∃ l ≤ level, table.lookupAt name l = some id ∧
      ∀ m ≤ level, l < m → table.lookupAt name m = none
  lookup_none : ∀ name level, table.lookup name level = none ↔
    ∀ l ≤ level, table.lookupAt name l = none

/-- **Lookups tell the history of a table**, and a scope that is left takes with it all that was
declared in it and below it: the lookups of the scopes around it find what they found before. This
is so as long as there are handles for all symbols that were stored, and a scope can be left if its
storage is within a word. -/
theorem recalls_of_reaches :
    (∀ history table, Reaches .empty history table → table.store.size ≤ maxHandles →
      Recalls history table) ∧
    ∀ start history table level, start.Coherent → Reaches start history table →
      table.store.size ≤ maxHandles → (∀ step ∈ history, step.1.Nests level) →
      words (table.entries.filter fun e => level ≤ e.2.level) < wordLimit →
      ∃ reclaimed table', table.closeScopes level = .ok (reclaimed, table') ∧
        ∀ name, ∀ l < level, table'.lookupAt name l = start.lookupAt name l ∧
          table'.lookup name l = start.lookup name l := by
  constructor
  · intro history table h _
    exact ⟨fun _ _ => firstDeclaration_eq h, fun _ _ _ => lookup_eq_some_iff,
      fun _ _ => lookup_eq_none_iff⟩
  · intro start history table level hstart h _ hnests hlt
    obtain ⟨reclaimed, table', hclose⟩ :
        ∃ reclaimed table', table.closeScopes level = .ok (reclaimed, table') :=
      ⟨_, _, closeScopes_eq_ok_iff.2 ⟨rfl, hlt, rfl⟩⟩
    have same : ∀ name, ∀ l < level, table'.lookupAt name l = start.lookupAt name l := by
      intro name l hl
      rw [lookupAt_closeScopes hclose, if_neg (Nat.not_le_of_lt hl),
        (lookupAt_of_nests hstart h hnests).2 name l hl]
    refine ⟨reclaimed, table', hclose, fun name l hl => ⟨same name l hl, ?_⟩⟩
    exact lookup_congr fun m hm => same name m (Nat.lt_of_le_of_lt hm hl)

/-- A table with one global variable. -/
def globalX : SymbolTable := ⟨#[variableX 0], [⟨0⟩], 0⟩

theorem recalls_of_reaches_reopening :
    (∃ history table, empty.run reopening = .ok (history, table) ∧ table.store.size = 3 ∧
      history.firstDeclaration "x" 1 = some (.declared ⟨2⟩) ∧ Recalls history table) ∧
    ∃ history table, Reaches globalX history table ∧ table.lookup "x" 1 = some ⟨1⟩ ∧
      ∃ reclaimed table', table.closeScopes 1 = .ok (reclaimed, table') ∧
        ∀ name, ∀ l < 1, table'.lookupAt name l = globalX.lookupAt name l ∧
          table'.lookup name l = globalX.lookup name l := by
  constructor
  · have ran : (empty.run reopening).toOption.any fun r =>
        r.2.store.size = 3 ∧ r.1.firstDeclaration "x" 1 = some (.declared ⟨2⟩) := by
      decide +kernel
    obtain ⟨⟨history, table⟩, h, hran⟩ := exists_ok_of_any ran
    obtain ⟨hsize, hfirst⟩ := of_decide_eq_true hran
    have few : table.store.size ≤ maxHandles := by
      rw [hsize]
      decide
    exact ⟨history, table, h, hsize, hfirst,
      recalls_of_reaches.1 history table (reaches_of_run h) few⟩
  · let inner : SymbolTable := ⟨#[variableX 0, variableX 1], [⟨1⟩, ⟨0⟩], 0⟩
    have declares : globalX.perform (.insert (variableX 1) .null) =
        .ok (.declared ⟨1⟩, inner) := rfl
    have reaches : Reaches globalX [(.insert (variableX 1) .null, .declared ⟨1⟩)] inner :=
      .cons .nil declares
    refine ⟨_, inner, reaches, by decide +kernel, ?_⟩
    refine recalls_of_reaches.2 globalX _ inner 1 (by simp [Coherent, globalX]) reaches (by decide)
      ?_ (by decide +kernel)
    intro step hstep
    obtain rfl := List.mem_singleton.1 hstep
    exact ⟨variableX 1, .null, rfl, Nat.le_refl 1⟩

/-- A variable inside of a scope that takes up half of all the words that there are. -/
def half (name : String) : Symbol :=
  { name, ty := .int, kind := .scalar, level := 1, size := 0x8000000000000000, offset := 0,
    params := none }

/-- Two such variables can be declared, but the scope with both of them cannot be left, so that
nothing is found in the scope around it any more. -/
theorem closeScopes_halves : ∃ history table, Reaches globalX history table ∧
    globalX.Coherent ∧ table.store.size = 3 ∧ (∀ step ∈ history, step.1.Nests 1) ∧
    globalX.lookup "x" 0 = some ⟨0⟩ ∧ table.closeScopes 1 = .error .sizeOverflow := by
  let one : SymbolTable := ⟨#[variableX 0, half "a"], [⟨1⟩, ⟨0⟩], 0⟩
  let both : SymbolTable := ⟨#[variableX 0, half "a", half "b"], [⟨2⟩, ⟨1⟩, ⟨0⟩], 0⟩
  have first : globalX.perform (.insert (half "a") .null) = .ok (.declared ⟨1⟩, one) := rfl
  have second : one.perform (.insert (half "b") .null) = .ok (.declared ⟨2⟩, both) := rfl
  have tooMuch : ¬ words (both.entries.filter fun e => 1 ≤ e.2.level) < wordLimit := by
    decide +kernel
  refine ⟨_, both, .cons (.cons .nil first) second, by simp [Coherent, globalX], rfl, ?_,
    by decide +kernel, by rw [closeScopes, if_neg tooMuch]⟩
  simp only [List.forall_mem_cons]
  exact ⟨⟨half "b", .null, rfl, Nat.le_refl 1⟩, ⟨half "a", .null, rfl, Nat.le_refl 1⟩,
    List.forall_mem_nil _⟩

end DecafStatics.SymbolTable
