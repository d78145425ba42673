import DecafStatics.Proofs.Run
import DecafStatics.SymbolTable.Basic

/-!
# Histories of a symbol table

A table is used through six operations: declaring, the two ways of looking up, leaving a scope,
handing out a temporary name, and writing to a symbol. A history lists what was done to a table,
with the answers, and `SymbolTable.Reaches` says that a table is what has become of another one
through a history.

`SymbolTable.Account` is what a history and the table at its end have to do with each other. It
says of each operation what it answers next, and of the handles that were given out what they
stand for. Levels and names come in any order, scopes may be left and opened again, and
declarations may fail.

## Scope

A write may change anything about a symbol but its name and its level, which are what declaring
and looking up go by. A handle is a number without a bound here, and so is a count of temporary
names.

## Main definitions

* `SymbolTable.Operation`, `SymbolTable.perform` — one use of a table
* `SymbolTable.Performed` — what one use can do to a table
* `SymbolTable.History`, `SymbolTable.Reaches` — what was done to a table
* `SymbolTable.Valid` — what holds of a table at all times
* `SymbolTable.Account` — how a table goes with its history

## Main results

* `SymbolTable.Valid.perform` — every operation keeps a table valid
* `SymbolTable.account_of_reaches` — a table that started empty goes with its history
-/

namespace DecafStatics.SymbolTable

/-- A write to a symbol that leaves it under its name and at its level. -/
structure Edit where
  apply : Symbol → Symbol
  name_apply : ∀ e, (apply e).name = e.name
  level_apply : ∀ e, (apply e).level = e.level

namespace Edit

/-- A write to the symbol of one handle, as it changes an entry. -/
def entry (edit : Edit) (id : SymbolId) (e : SymbolId × Symbol) : SymbolId × Symbol :=
  (e.1, if id = e.1 then edit.apply e.2 else e.2)

variable {edit : Edit} {id : SymbolId}

@[simp] theorem name_entry (e : SymbolId × Symbol) : (edit.entry id e).2.name = e.2.name := by
  rw [entry]
  split <;> simp [edit.name_apply]

@[simp] theorem level_entry (e : SymbolId × Symbol) :
    (edit.entry id e).2.level = e.2.level := by
  rw [entry]
  split <;> simp [edit.level_apply]

theorem entries_eq {table table' : SymbolTable} (h : table.update id edit.apply = .ok table') :
    table'.entries = table.entries.map (edit.entry id) := entries_update h

end Edit

/-- One use of a table. -/
inductive Operation where
  | insert (symbol : Symbol) (position : Position)
  | lookupAt (name : String) (level : Nat)
  | lookup (name : String) (level : Nat)
  | closeScopes (level : Nat)
  | freshTemporary
  | edit (id : SymbolId) (edit : Edit)

/-- What an operation answers. -/
inductive Answer where
  | declared (id : SymbolId)
  | refused (d : Diagnostic)
  | found (id : Option SymbolId)
  | reclaimed (words : Nat)
  | temporary (name : String)
  | edited
  deriving DecidableEq

/-- The answer of an operation and the table behind it. -/
def perform (table : SymbolTable) : Operation → Except Fault (Answer × SymbolTable)
  | .insert symbol position =>
    match table.insert symbol position with
    | .ok (id, table) => .ok (.declared id, table)
    | .error d => .ok (.refused d, table)
  | .lookupAt name level => .ok (.found (table.lookupAt name level), table)
  | .lookup name level => .ok (.found (table.lookup name level), table)
  | .closeScopes level => (table.closeScopes level).map fun r => (.reclaimed r.1, r.2)
  | .freshTemporary => .ok (.temporary table.freshTemporary.1, table.freshTemporary.2)
  | .edit id edit => (table.update id edit.apply).map fun table => (.edited, table)

/-- The handle that an answer gives out. -/
def Answer.handle? : Answer → Option SymbolId
  | .declared id => some id
  | .refused _ | .found _ | .reclaimed _ | .temporary _ | .edited => none

/-- The temporary name that an answer gives out. -/
def Answer.temporary? : Answer → Option String
  | .temporary name => some name
  | .declared _ | .refused _ | .found _ | .reclaimed _ | .edited => none

/-- What an operation makes of the symbol that `id` denotes. -/
def Operation.writeTo (id : SymbolId) : Operation → Symbol → Symbol
  | .edit other change, e => if other = id then change.apply e else e
  | .insert .., e | .lookupAt .., e | .lookup .., e | .closeScopes _, e | .freshTemporary, e => e

/-- What was done to a table, the most recent first. -/
abbrev History := List (Operation × Answer)

/-- The table that `start` has become through a history. -/
inductive Reaches (start : SymbolTable) : History → SymbolTable → Prop where
  | nil : Reaches start [] start
  | cons {history : History} {table table' : SymbolTable} {op : Operation} {answer : Answer} :
      Reaches start history table → table.perform op = .ok (answer, table') →
      Reaches start ((op, answer) :: history) table'

/-- The history of doing some operations, the last one first, and the table at its end. -/
def run (start : SymbolTable) : List Operation → Except Fault (History × SymbolTable)
  | [] => .ok ([], start)
  | op :: before => do
    let (history, table) ← run start before
    let (answer, table) ← table.perform op
    .ok ((op, answer) :: history, table)

theorem reaches_of_run {start table : SymbolTable} {ops : List Operation} {history : History}
    (h : start.run ops = .ok (history, table)) : Reaches start history table := by
  induction ops generalizing history table with
  | nil =>
    cases h
    exact .nil
  | cons op before ih =>
    obtain ⟨⟨earlier, table₁⟩, hbefore, h⟩ := bind_eq_ok_iff.1 h
    obtain ⟨⟨answer, table₂⟩, hop, h⟩ := bind_eq_ok_iff.1 h
    cases h
    exact .cons (ih hbefore) hop

/-! ### What holds at all times -/

/-- A table whose handles in sight are in order, each with a name of its own at its level. -/
structure Valid (table : SymbolTable) : Prop where
  coherent : table.Coherent
  ordered : table.live.Pairwise fun a b => b.index < a.index
  distinct : ∀ a ∈ table.entries, ∀ b ∈ table.entries,
    a.2.name = b.2.name → a.2.level = b.2.level → a = b

section Valid

variable {table table' : SymbolTable}

theorem valid_empty : empty.Valid where
  coherent := by simp [empty, Coherent]
  ordered := .nil
  distinct := by simp [empty, entries]

/-- Every handle in sight is that of an entry. -/
theorem Coherent.map_fst_entries (h : table.Coherent) :
    table.entries.map Prod.fst = table.live := by
  rw [Coherent] at h
  rw [entries]
  generalize table.live = live at h
  induction live with
  | nil => rfl
  | cons id live ih =>
    obtain ⟨hid, hlive⟩ := List.forall_mem_cons.1 h
    rw [List.filterMap_cons, Array.getElem?_eq_getElem hid]
    exact congrArg (id :: ·) (ih hlive)

/-- Entries that are still in sight have a table that is still valid. -/
theorem Valid.of_sublist (h : table.Valid) (hstore : table'.store = table.store)
    (hlive : table'.live.Sublist table.live) (hentries : table'.entries.Sublist table.entries) :
    table'.Valid where
  coherent := fun id hid => hstore ▸ h.coherent id (hlive.subset hid)
  ordered := h.ordered.sublist hlive
  distinct := fun a ha b hb => h.distinct a (hentries.subset ha) b (hentries.subset hb)

theorem Valid.insert {symbol : Symbol} {position : Position} {id : SymbolId} (h : table.Valid)
    (hok : table.insert symbol position = .ok (id, table')) : table'.Valid where
  coherent := coherent_insert h.coherent hok
  ordered := by
    obtain ⟨-, rfl, rfl⟩ := insert_eq_ok_iff.1 hok
    exact List.pairwise_cons.2 ⟨h.coherent, h.ordered⟩
  distinct := by
    have free := lookupAt_eq_none_iff.1 (insert_eq_ok_iff.1 hok).1
    rw [entries_insert h.coherent hok]
    intro a ha b hb hname hlevel
    rcases List.mem_cons.1 ha with rfl | ha <;> rcases List.mem_cons.1 hb with rfl | hb
    · rfl
    · exact absurd hname.symm (free b hb hlevel.symm)
    · exact absurd hname (free a ha hlevel)
    · exact h.distinct a ha b hb hname hlevel

theorem Valid.closeScopes {level reclaimed : Nat} (h : table.Valid)
    (hok : table.closeScopes level = .ok (reclaimed, table')) : table'.Valid := by
  have hentries : table'.entries.Sublist table.entries := by
    rw [entries_closeScopes hok]
    exact List.filter_sublist
  obtain ⟨-, -, rfl⟩ := closeScopes_eq_ok_iff.1 hok
  refine h.of_sublist rfl ?_ hentries
  rw [← h.coherent.map_fst_entries]
  exact List.filter_sublist.map Prod.fst

theorem Valid.edit {id : SymbolId} {edit : Edit} (h : table.Valid)
    (hok : table.update id edit.apply = .ok table') : table'.Valid where
  coherent := by
    obtain ⟨-, rfl⟩ := update_eq_ok_iff.1 hok
    simpa [Coherent] using h.coherent
  ordered := by
    obtain ⟨-, rfl⟩ := update_eq_ok_iff.1 hok
    exact h.ordered
  distinct := by
    rw [Edit.entries_eq hok]
    intro written hwritten other hother hname hlevel
    obtain ⟨a, ha, rfl⟩ := List.mem_map.1 hwritten
    obtain ⟨b, hb, rfl⟩ := List.mem_map.1 hother
    simp only [Edit.name_entry, Edit.level_entry] at hname hlevel
    rw [h.distinct a ha b hb hname hlevel]

/-- What an operation can do to a table. -/
inductive Performed (table : SymbolTable) : Operation → Answer → SymbolTable → Prop where
  | declared {symbol : Symbol} {position : Position} {id : SymbolId} {table' : SymbolTable} :
      table.insert symbol position = .ok (id, table') →
      Performed table (.insert symbol position) (.declared id) table'
  | refused {symbol : Symbol} {position : Position} {d : Diagnostic} :
      table.insert symbol position = .error d →
      Performed table (.insert symbol position) (.refused d) table
  | foundAt (name : String) (level : Nat) :
      Performed table (.lookupAt name level) (.found (table.lookupAt name level)) table
  | found (name : String) (level : Nat) :
      Performed table (.lookup name level) (.found (table.lookup name level)) table
  | reclaimed {level reclaimed : Nat} {table' : SymbolTable} :
      table.closeScopes level = .ok (reclaimed, table') →
      Performed table (.closeScopes level) (.reclaimed reclaimed) table'
  | temporary : Performed table .freshTemporary (.temporary table.freshTemporary.1)
      table.freshTemporary.2
  | edited {id : SymbolId} {edit : Edit} {table' : SymbolTable} :
      table.update id edit.apply = .ok table' → Performed table (.edit id edit) .edited table'

theorem performed_of_perform {op : Operation} {answer : Answer}
    (h : table.perform op = .ok (answer, table')) : Performed table op answer table' := by
  cases op with
  | insert symbol position =>
    rw [perform] at h
    cases hinsert : table.insert symbol position with
    | error d =>
      rw [hinsert] at h
      cases h
      exact .refused hinsert
    | ok r =>
      rw [hinsert] at h
      cases h
      exact .declared hinsert
  | lookupAt name level =>
    cases h
    exact .foundAt name level
  | lookup name level =>
    cases h
    exact .found name level
  | closeScopes level =>
    obtain ⟨r, hclose, hr⟩ := map_eq_ok_iff.1 h
    cases hr
    exact .reclaimed hclose
  | freshTemporary =>
    cases h
    exact .temporary
  | edit id edit =>
    obtain ⟨r, hupdate, hr⟩ := map_eq_ok_iff.1 h
    cases hr
    exact .edited hupdate

/-- **Every operation keeps a table valid.** -/
theorem Valid.perform {op : Operation} {answer : Answer} (h : table.Valid)
    (hop : table.perform op = .ok (answer, table')) : table'.Valid := by
  cases performed_of_perform hop with
  | declared hinsert => exact h.insert hinsert
  | refused | foundAt | found => exact h
  | reclaimed hclose => exact h.closeScopes hclose
  | temporary => exact ⟨h.coherent, h.ordered, h.distinct⟩
  | edited hupdate => exact h.edit hupdate

theorem Reaches.valid {start : SymbolTable} {history : History} (hstart : start.Valid)
    (h : Reaches start history table) : table.Valid := by
  induction h with
  | nil => exact hstart
  | cons _ hop ih => exact ih.perform hop

end Valid

/-! ### What was given out -/

section GivenOut

variable {table table' : SymbolTable} {op : Operation} {answer : Answer}

/-- The handles below a number, the last one first. -/
def handlesBelow (n : Nat) : List SymbolId := ((List.range n).map SymbolId.mk).reverse

/-- The temporary names before the one of a number, the last one first. -/
def temporariesBefore (n : Nat) : List String :=
  ((List.range n).map fun i => s!"_T{i}").reverse

theorem handlesBelow_succ (n : Nat) : handlesBelow (n + 1) = ⟨n⟩ :: handlesBelow n := by
  simp [handlesBelow, List.range_succ]

theorem temporariesBefore_succ (n : Nat) :
    temporariesBefore (n + 1) = s!"_T{n}" :: temporariesBefore n := by
  simp [temporariesBefore, List.range_succ]

theorem handlesBelow_perform (h : table.perform op = .ok (answer, table')) :
    handlesBelow table'.store.size = answer.handle?.toList ++ handlesBelow table.store.size := by
  cases performed_of_perform h with
  | declared hinsert =>
    obtain ⟨-, rfl, rfl⟩ := insert_eq_ok_iff.1 hinsert
    rw [Array.size_push, handlesBelow_succ]
    rfl
  | refused | foundAt | found | temporary => rfl
  | reclaimed hclose =>
    obtain ⟨-, -, rfl⟩ := closeScopes_eq_ok_iff.1 hclose
    rfl
  | edited hupdate =>
    obtain ⟨-, rfl⟩ := update_eq_ok_iff.1 hupdate
    rw [Array.size_modify]
    rfl

theorem temporariesBefore_perform (h : table.perform op = .ok (answer, table')) :
    temporariesBefore table'.temporaries =
      answer.temporary?.toList ++ temporariesBefore table.temporaries := by
  cases performed_of_perform h with
  | declared hinsert =>
    obtain ⟨-, rfl, rfl⟩ := insert_eq_ok_iff.1 hinsert
    rfl
  | refused | foundAt | found => rfl
  | reclaimed hclose =>
    obtain ⟨-, -, rfl⟩ := closeScopes_eq_ok_iff.1 hclose
    rfl
  | temporary => exact temporariesBefore_succ _
  | edited hupdate =>
    obtain ⟨-, rfl⟩ := update_eq_ok_iff.1 hupdate
    rfl

/-- A handle denotes after an operation what the operation makes of what it denoted before. -/
theorem symbol_perform {id : SymbolId} {e : Symbol}
    (h : table.perform op = .ok (answer, table')) (hid : table.symbol id = .ok e) :
    table'.symbol id = .ok (op.writeTo id e) := by
  rw [symbol_eq_ok_iff] at hid ⊢
  cases performed_of_perform h with
  | declared hinsert =>
    obtain ⟨-, rfl, rfl⟩ := insert_eq_ok_iff.1 hinsert
    have hlt := (Array.getElem?_eq_some_iff.1 hid).1
    rwa [Array.getElem?_push, if_neg (Nat.ne_of_lt hlt)]
  | refused | foundAt | found | temporary => exact hid
  | reclaimed hclose =>
    obtain ⟨-, -, rfl⟩ := closeScopes_eq_ok_iff.1 hclose
    exact hid
  | edited hupdate =>
    rw [getElem?_update hupdate, hid]
    rfl

/-- A declaration is found under the handle that it was given. -/
theorem symbol_insert {symbol : Symbol} {position : Position} {id : SymbolId}
    (h : table.insert symbol position = .ok (id, table')) : table'.symbol id = .ok symbol := by
  obtain ⟨-, rfl, rfl⟩ := insert_eq_ok_iff.1 h
  rw [symbol_eq_ok_iff]
  exact Array.getElem?_push_size

variable {start : SymbolTable} {history : History}

/-- What has been given out since the start, if it is known what one operation gives out. -/
theorem Reaches.givenOut {α : Type} {f : Answer → Option α} {g : SymbolTable → List α}
    (step : ∀ {table table' : SymbolTable} {op : Operation} {answer : Answer},
      table.perform op = .ok (answer, table') → g table' = (f answer).toList ++ g table)
    (hstart : g start = []) (h : Reaches start history table) :
    history.filterMap (fun step => f step.2) = g table := by
  induction h with
  | nil => exact hstart.symm
  | @cons history table table' op answer _ hop ih =>
    rw [step hop, ← ih]
    cases hanswer : f answer <;> simp [hanswer]

/-- A handle that was given out denotes what was declared under it, as it was written to since. -/
theorem Reaches.symbol_of_mem {later earlier : History} {symbol : Symbol} {position : Position}
    {id : SymbolId} (h : Reaches start history table)
    (hsplit : history = later ++ (.insert symbol position, .declared id) :: earlier) :
    table.symbol id = .ok (later.foldr (fun step e => step.1.writeTo id e) symbol) := by
  induction h generalizing later with
  | nil => simp at hsplit
  | cons _ hop ih =>
    cases later with
    | nil =>
      cases hsplit
      cases performed_of_perform hop with
      | declared hinsert => exact symbol_insert hinsert
    | cons step later =>
      obtain ⟨rfl, rfl⟩ := List.cons.inj hsplit
      exact symbol_perform hop (ih rfl)

end GivenOut

/-! ### The account of a history -/

/-- How a table that started empty goes with what was done to it. -/
structure Account (history : History) (table : SymbolTable) : Prop where
  /-- Every handle in sight is that of an entry, and of an earlier one than those before it. -/
  live_eq : table.live = table.entries.map Prod.fst
  in_store : ∀ id ∈ table.live, id.index < table.store.size
  ordered : table.live.Pairwise fun a b => b.index < a.index
  /-- No two entries have both a name and a level in common. -/
  distinct : ∀ a ∈ table.entries, ∀ b ∈ table.entries,
    a.2.name = b.2.name → a.2.level = b.2.level → a = b
  /-- The handles are given out in order, and each is good for what was declared under it. -/
  handles : history.filterMap (fun step => step.2.handle?) = handlesBelow table.store.size
  denotes : ∀ later earlier symbol position id,
    history = later ++ (.insert symbol position, .declared id) :: earlier →
    table.symbol id = .ok (later.foldr (fun step e => step.1.writeTo id e) symbol)
  temporaries : history.filterMap (fun step => step.2.temporary?) =
    temporariesBefore table.temporaries
  /-- A name that is taken at its level is refused, and nothing changes. -/
  refuses : ∀ symbol position,
    (∃ e ∈ table.entries, e.2.name = symbol.name ∧ e.2.level = symbol.level) →
    table.perform (.insert symbol position) =
      .ok (.refused ⟨.duplicateDeclaration symbol.name symbol.level, position⟩, table)
  /-- Any other name is declared, under the next handle. -/
  declares : ∀ symbol position,
    (¬∃ e ∈ table.entries, e.2.name = symbol.name ∧ e.2.level = symbol.level) →
    ∃ table', table.perform (.insert symbol position) =
        .ok (.declared ⟨table.store.size⟩, table') ∧
      table'.entries = (⟨table.store.size⟩, symbol) :: table.entries ∧
      table'.store = table.store.push symbol ∧ table'.temporaries = table.temporaries
  /-- Leaving a level gives back the words of what is at it and below, and keeps all the rest. -/
  closes : ∀ level, words (table.entries.filter fun e => level ≤ e.2.level) < wordLimit →
    ∃ table', table.perform (.closeScopes level) =
        .ok (.reclaimed (words (table.entries.filter fun e => level ≤ e.2.level)), table') ∧
      table'.entries = (table.entries.filter fun e => e.2.level < level) ∧
      table'.store = table.store ∧ table'.temporaries = table.temporaries
  /-- A symbol that was declared at some time can be written to. -/
  edits : ∀ id edit, id.index < table.store.size →
    ∃ table', table.perform (.edit id edit) = .ok (.edited, table') ∧
      table'.live = table.live ∧ table'.temporaries = table.temporaries

/-- **A table that started empty goes with its history**, whatever was done in whatever order. -/
theorem account_of_reaches {history : History} {table : SymbolTable}
    (h : Reaches .empty history table) : Account history table := by
  have valid : table.Valid := h.valid valid_empty
  have free : ∀ symbol : Symbol, table.lookupAt symbol.name symbol.level = none ↔
      ¬∃ e ∈ table.entries, e.2.name = symbol.name ∧ e.2.level = symbol.level := fun symbol => by
    rw [lookupAt_eq_none_iff]
    exact ⟨fun hnone ⟨e, he, hname, hlevel⟩ => hnone e he hlevel hname,
      fun hnone e he hlevel hname => hnone ⟨e, he, hname, hlevel⟩⟩
  constructor
  case live_eq => exact valid.coherent.map_fst_entries.symm
  case in_store => exact valid.coherent
  case ordered => exact valid.ordered
  case distinct => exact valid.distinct
  case handles => exact h.givenOut handlesBelow_perform rfl
  case denotes => exact fun later earlier symbol position id => h.symbol_of_mem
  case temporaries => exact h.givenOut temporariesBefore_perform rfl
  case refuses =>
    intro symbol position taken
    have hsome : (table.lookupAt symbol.name symbol.level).isSome :=
      Option.isSome_iff_ne_none.2 fun hnone => (free symbol).1 hnone taken
    rw [perform, insert_eq_error_iff.2 ⟨hsome, rfl⟩]
  case declares =>
    intro symbol position hfree
    have hinsert : table.insert symbol position = .ok (⟨table.store.size⟩, _) :=
      insert_eq_ok_iff.2 ⟨(free symbol).2 hfree, rfl, rfl⟩
    refine ⟨_, ?_, entries_insert valid.coherent hinsert, rfl, rfl⟩
    rw [perform, hinsert]
  case closes =>
    intro level hlt
    have hclose := closeScopes_eq_ok_iff.2 ⟨rfl, hlt, rfl⟩
    refine ⟨_, ?_, entries_closeScopes hclose, rfl, rfl⟩
    rw [perform, hclose]
    rfl
  case edits =>
    intro id edit hid
    let table' := { table with store := table.store.modify id.index edit.apply }
    have hupdate : table.update id edit.apply = .ok table' := update_eq_ok_iff.2 ⟨hid, rfl⟩
    exact ⟨table', map_eq_ok_iff.2 ⟨table', hupdate, rfl⟩, rfl, rfl⟩

/-- The symbol of a variable `x` at some level. -/
def variableX (level : Nat) : Symbol :=
  { name := "x", ty := .int, kind := .scalar, level, size := 1, offset := 0, params := none }

/-- A name that is declared in two scopes, twice in the inner one, where it grows to two words;
the inner scope is left, and opened again by another declaration. -/
def reopening : List Operation :=
  [.insert (variableX 1) .null, .freshTemporary, .closeScopes 1, .freshTemporary,
    .edit ⟨1⟩ ⟨fun e => { e with size := 2 }, fun _ => rfl, fun _ => rfl⟩,
    .insert (variableX 1) ⟨2, "scopes.dcf"⟩, .insert (variableX 1) .null,
    .insert (variableX 0) .null]

def reopeningAnswers : List Answer :=
  [.declared ⟨2⟩, .temporary "_T1", .reclaimed 2, .temporary "_T0", .edited,
    .refused ⟨.duplicateDeclaration "x" 1, ⟨2, "scopes.dcf"⟩⟩, .declared ⟨1⟩, .declared ⟨0⟩]

theorem account_of_reaches_reopening : ∃ history table,
    empty.run reopening = .ok (history, table) ∧ history.map Prod.snd = reopeningAnswers ∧
      table.live = [⟨2⟩, ⟨0⟩] ∧ Account history table := by
  have ran : (empty.run reopening).toOption.any fun r =>
      r.1.map Prod.snd = reopeningAnswers ∧ r.2.live = [⟨2⟩, ⟨0⟩] := by
    decide +kernel
  obtain ⟨⟨history, table⟩, h, hran⟩ := exists_ok_of_any ran
  obtain ⟨hanswers, hlive⟩ := of_decide_eq_true hran
  exact ⟨history, table, h, hanswers, hlive, account_of_reaches (reaches_of_run h)⟩

end DecafStatics.SymbolTable
