import DecafStatics.Diagnostic
import DecafStatics.Fault

/-!
# Symbol tables

A table holds the symbols of every scope that is open. Scopes are told apart by their level of
nesting alone: a name may be declared once at each level, a lookup prefers the nearest level, and
leaving a scope drops everything at its level and below.

Symbols are never forgotten, only dropped from sight. `store` keeps each of them for good, so
that a `SymbolId` that a tree node carries can be read after its scope is gone, and `live` lists
those that are in scope, the most recent first.

## Implementation notes

`entries` is the view in which everything is stated: the live symbols with their handles, the
most recent first. `lookup` picks the nearest level of all live entries of the name and then the
most recent entry there; it does not count levels down, since levels may be as large as a word.

## Main definitions

* `SymbolTable.insert` — declaring a symbol
* `SymbolTable.lookupAt`, `SymbolTable.lookup` — finding a name at a level, or in the scopes
  around it
* `SymbolTable.closeScopes` — leaving a level and everything nested in it

## Main results

* `SymbolTable.lookup_eq_some_iff` — a lookup finds the nearest level that has the name
* `SymbolTable.insert_eq_error_iff` — a declaration fails exactly if its name is taken at its
  level
* `SymbolTable.entries_insert`, `SymbolTable.entries_closeScopes` — what the two operations do to
  the view
-/

namespace DecafStatics

/-- The symbols of a compilation, and which of them are in scope. -/
structure SymbolTable where
  store : Array Symbol
  live : List SymbolId
  /-- How many temporary names were handed out. -/
  temporaries : Nat
  deriving DecidableEq

namespace SymbolTable

/-- The table without symbols. -/
def empty : SymbolTable := ⟨#[], [], 0⟩

instance : Inhabited SymbolTable := ⟨empty⟩

/-- The symbols in scope with their handles, the most recent first. -/
def entries (table : SymbolTable) : List (SymbolId × Symbol) :=
  table.live.filterMap fun id => table.store[id.index]?.map fun symbol => (id, symbol)

/-- The number of symbols in scope. -/
def size (table : SymbolTable) : Nat := table.live.length

/-- The symbol that `id` names, whether or not it is in scope. -/
def symbol (table : SymbolTable) (id : SymbolId) : Except Fault Symbol :=
  match table.store[id.index]? with
  | some symbol => .ok symbol
  | none => .error (.outOfBounds table.store.size id.index)

/-- The table with `f` applied to the symbol that `id` names. -/
def update (table : SymbolTable) (id : SymbolId) (f : Symbol → Symbol) :
    Except Fault SymbolTable :=
  if id.index < table.store.size then
    .ok { table with store := table.store.modify id.index f }
  else
    .error (.outOfBounds table.store.size id.index)

/-- The most recent symbol called `name` at exactly `level`. -/
def lookupAt (table : SymbolTable) (name : String) (level : Nat) : Option SymbolId :=
  (table.entries.find? fun e => e.2.level = level ∧ e.2.name = name).map Prod.fst

/-- The levels up to `level` at which `name` is in scope. -/
def visibleLevels (table : SymbolTable) (name : String) (level : Nat) : List Nat :=
  (table.entries.filter fun e => e.2.name = name ∧ e.2.level ≤ level).map fun e => e.2.level

/-- What `name` denotes in a scope at `level`: the symbol of that name at the nearest level. -/
def lookup (table : SymbolTable) (name : String) (level : Nat) : Option SymbolId :=
  (table.visibleLevels name level).max?.bind (table.lookupAt name)

/-- Declares a symbol, unless its name is taken at its level; `position` is blamed then. -/
def insert (table : SymbolTable) (symbol : Symbol) (position : Position) :
    Except Diagnostic (SymbolId × SymbolTable) :=
  match table.lookupAt symbol.name symbol.level with
  | some _ => .error ⟨.duplicateDeclaration symbol.name symbol.level, position⟩
  | none =>
    let id : SymbolId := ⟨table.store.size⟩
    .ok (id, { table with store := table.store.push symbol, live := id :: table.live })

/-- The words of storage that some entries hold together. -/
def words : List (SymbolId × Symbol) → Nat
  | [] => 0
  | e :: rest => e.2.size + words rest

/-- Leaves `level` and every level nested in it, and gives the words of storage that their
symbols held. -/
def closeScopes (table : SymbolTable) (level : Nat) : Except Fault (Nat × SymbolTable) :=
  let reclaimed := words (table.entries.filter fun e => level ≤ e.2.level)
  let kept := table.entries.filter fun e => e.2.level < level
  if reclaimed < wordLimit then .ok (reclaimed, { table with live := kept.map Prod.fst })
  else .error .sizeOverflow

/-- A temporary name that was not handed out before. -/
def freshTemporary (table : SymbolTable) : String × SymbolTable :=
  (s!"_T{table.temporaries}", { table with temporaries := table.temporaries + 1 })

/-- Every symbol in scope is in the store. -/
def Coherent (table : SymbolTable) : Prop := ∀ id ∈ table.live, id.index < table.store.size

/-! ### Looking up -/

theorem mem_entries {table : SymbolTable} {id : SymbolId} {symbol : Symbol} :
    (id, symbol) ∈ table.entries ↔ id ∈ table.live ∧ table.store[id.index]? = some symbol := by
  simp only [entries, List.mem_filterMap, Option.map_eq_some_iff, Prod.mk.injEq]
  constructor
  · rintro ⟨_, hid, _, hs, rfl, rfl⟩
    exact ⟨hid, hs⟩
  · rintro ⟨hid, hs⟩
    exact ⟨id, hid, symbol, hs, rfl, rfl⟩

theorem symbol_eq_ok_iff {table : SymbolTable} {id : SymbolId} {symbol : Symbol} :
    table.symbol id = .ok symbol ↔ table.store[id.index]? = some symbol := by
  cases h : table.store[id.index]? <;> simp [SymbolTable.symbol, h]

theorem lookupAt_eq_none_iff {table : SymbolTable} {name : String} {level : Nat} :
    table.lookupAt name level = none ↔
      ∀ e ∈ table.entries, e.2.level = level → e.2.name ≠ name := by
  simp [lookupAt]

theorem lookupAt_mem {table : SymbolTable} {name : String} {level : Nat} {id : SymbolId}
    (h : table.lookupAt name level = some id) :
    ∃ symbol, (id, symbol) ∈ table.entries ∧ symbol.level = level ∧ symbol.name = name := by
  obtain ⟨⟨found, symbol⟩, hfind, rfl⟩ := Option.map_eq_some_iff.1 h
  exact ⟨symbol, List.mem_of_find?_eq_some hfind, by simpa using List.find?_some hfind⟩

theorem mem_visibleLevels {table : SymbolTable} {name : String} {level l : Nat} :
    l ∈ table.visibleLevels name level ↔ l ≤ level ∧ (table.lookupAt name l).isSome := by
  simp only [visibleLevels, List.mem_map, List.mem_filter, decide_eq_true_eq]
  constructor
  · rintro ⟨e, ⟨he, hname, hle⟩, rfl⟩
    refine ⟨hle, Option.isSome_iff_ne_none.2 fun hnone => ?_⟩
    exact lookupAt_eq_none_iff.1 hnone e he rfl hname
  · rintro ⟨hle, hsome⟩
    obtain ⟨id, hid⟩ := Option.isSome_iff_exists.1 hsome
    obtain ⟨symbol, hmem, rfl, hname⟩ := lookupAt_mem hid
    exact ⟨(id, symbol), ⟨hmem, hname, hle⟩, rfl⟩

/-- A name denotes what it denotes at the nearest level at which it denotes anything. -/
theorem lookup_eq_some_iff {table : SymbolTable} {name : String} {level : Nat} {id : SymbolId} :
    table.lookup name level = some id ↔
      ∃ l ≤ level, table.lookupAt name l = some id ∧
        ∀ m ≤ level, l < m → table.lookupAt name m = none := by
  simp only [lookup, Option.bind_eq_some_iff, List.max?_eq_some_iff]
  constructor
  · rintro ⟨l, ⟨hmem, hmax⟩, hid⟩
    refine ⟨l, (mem_visibleLevels.1 hmem).1, hid, fun m hm hlt => ?_⟩
    refine Option.not_isSome_iff_eq_none.1 fun hsome => ?_
    exact Nat.not_le_of_lt hlt (hmax m (mem_visibleLevels.2 ⟨hm, hsome⟩))
  · rintro ⟨l, hl, hid, hnone⟩
    refine ⟨l, ⟨mem_visibleLevels.2 ⟨hl, by simp [hid]⟩, fun m hm => ?_⟩, hid⟩
    obtain ⟨hle, hsome⟩ := mem_visibleLevels.1 hm
    refine Nat.le_of_not_lt fun hlt => ?_
    rw [hnone m hle hlt] at hsome
    cases hsome

/-! ### Declaring -/

theorem insert_eq_error_iff {table : SymbolTable} {symbol : Symbol} {position : Position}
    {d : Diagnostic} :
    table.insert symbol position = .error d ↔
      (table.lookupAt symbol.name symbol.level).isSome ∧
        d = ⟨.duplicateDeclaration symbol.name symbol.level, position⟩ := by
  cases h : table.lookupAt symbol.name symbol.level <;>
    simp only [insert, h, Option.isSome_none, Option.isSome_some, reduceCtorEq, false_and,
      Bool.false_eq_true, true_and, Except.error.injEq, eq_comm]

theorem insert_eq_ok_iff {table table' : SymbolTable} {symbol : Symbol} {position : Position}
    {id : SymbolId} :
    table.insert symbol position = .ok (id, table') ↔
      table.lookupAt symbol.name symbol.level = none ∧ id = ⟨table.store.size⟩ ∧
        table' = { table with store := table.store.push symbol, live := id :: table.live } := by
  cases h : table.lookupAt symbol.name symbol.level with
  | some found => simp [insert, h]
  | none =>
    simp only [insert, h, Except.ok.injEq, Prod.mk.injEq, true_and]
    constructor
    · rintro ⟨rfl, rfl⟩; exact ⟨rfl, rfl⟩
    · rintro ⟨rfl, rfl⟩; exact ⟨rfl, rfl⟩

/-- Appending to the store changes no entry of a table whose live symbols are all stored. -/
private theorem filterMap_push {store : Array Symbol} {live : List SymbolId} (symbol : Symbol)
    (h : ∀ id ∈ live, id.index < store.size) :
    (live.filterMap fun id => (store.push symbol)[id.index]?.map fun s => (id, s)) =
      live.filterMap fun id => store[id.index]?.map fun s => (id, s) := by
  induction live with
  | nil => rfl
  | cons id live ih =>
    have hne : id.index ≠ store.size := Nat.ne_of_lt (h id (List.mem_cons_self ..))
    have ih := ih fun other ho => h other (List.mem_cons_of_mem _ ho)
    have head : (store.push symbol)[id.index]? = store[id.index]? := by
      rw [Array.getElem?_push, if_neg hne]
    simp only [List.filterMap_cons, head, ih]

theorem entries_insert {table table' : SymbolTable} {symbol : Symbol} {position : Position}
    {id : SymbolId} (hc : table.Coherent) (h : table.insert symbol position = .ok (id, table')) :
    table'.entries = (id, symbol) :: table.entries := by
  obtain ⟨-, rfl, rfl⟩ := insert_eq_ok_iff.1 h
  simp [entries, filterMap_push symbol hc]

theorem coherent_insert {table table' : SymbolTable} {symbol : Symbol} {position : Position}
    {id : SymbolId} (hc : table.Coherent) (h : table.insert symbol position = .ok (id, table')) :
    table'.Coherent := by
  obtain ⟨-, rfl, rfl⟩ := insert_eq_ok_iff.1 h
  intro id hid
  simp only [List.mem_cons, Array.size_push] at hid ⊢
  obtain rfl | hid := hid
  · exact Nat.lt_succ_self _
  · exact Nat.lt_succ_of_lt (hc id hid)

/-! ### Overwriting -/

theorem update_eq_ok_iff {table table' : SymbolTable} {id : SymbolId} {f : Symbol → Symbol} :
    table.update id f = .ok table' ↔ id.index < table.store.size ∧
      table' = { table with store := table.store.modify id.index f } := by
  unfold update
  split
  · rename_i hlt
    simp [hlt, eq_comm]
  · rename_i hlt
    simp [hlt]

theorem getElem?_update {table table' : SymbolTable} {id : SymbolId} {f : Symbol → Symbol}
    (h : table.update id f = .ok table') (other : SymbolId) :
    table'.store[other.index]? =
      (table.store[other.index]?).map fun e => if id = other then f e else e := by
  obtain ⟨-, rfl⟩ := update_eq_ok_iff.1 h
  obtain ⟨i⟩ := id
  obtain ⟨j⟩ := other
  by_cases hij : i = j
  · subst hij
    simp [Array.getElem?_modify]
  · simp [Array.getElem?_modify, hij]

/-- Overwriting a symbol leaves in sight what was in sight. -/
theorem entries_update {table table' : SymbolTable} {id : SymbolId} {f : Symbol → Symbol}
    (h : table.update id f = .ok table') :
    table'.entries = table.entries.map fun e => (e.1, if id = e.1 then f e.2 else e.2) := by
  have hlive : table'.live = table.live := by rw [(update_eq_ok_iff.1 h).2]
  simp only [entries, hlive, getElem?_update h]
  induction table.live with
  | nil => rfl
  | cons other live ih =>
    cases he : table.store[other.index]? with
    | none => simpa [he] using ih
    | some e => simpa [he] using ih

/-! ### Leaving a scope -/

theorem words_append (a b : List (SymbolId × Symbol)) : words (a ++ b) = words a + words b := by
  induction a with
  | nil => simp [words]
  | cons e a ih => simp only [List.cons_append, words, ih, Nat.add_assoc]

private theorem filterMap_map_fst {α β : Type} (f : α → Option β) (p : α × β → Bool)
    (l : List α) :
    (((l.filterMap fun a => (f a).map (a, ·)).filter p).map Prod.fst).filterMap
        (fun a => (f a).map (a, ·)) =
      (l.filterMap fun a => (f a).map (a, ·)).filter p := by
  induction l with
  | nil => rfl
  | cons a l ih =>
    cases hf : f a with
    | none => simpa [List.filterMap_cons, hf] using ih
    | some b =>
      by_cases hp : p (a, b) = true
      · simpa [List.filterMap_cons, List.filter_cons, hf, hp] using ih
      · simpa [List.filterMap_cons, List.filter_cons, hf, hp] using ih

theorem closeScopes_eq_ok_iff {table table' : SymbolTable} {level reclaimed : Nat} :
    table.closeScopes level = .ok (reclaimed, table') ↔
      reclaimed = words (table.entries.filter fun e => level ≤ e.2.level) ∧
        reclaimed < wordLimit ∧ table' = { table with
          live := (table.entries.filter fun e => e.2.level < level).map Prod.fst } := by
  simp only [closeScopes]
  split
  · rename_i hlt
    constructor
    · intro h
      cases h
      exact ⟨rfl, hlt, rfl⟩
    · rintro ⟨rfl, -, rfl⟩
      rfl
  · rename_i hlt
    constructor
    · intro h
      cases h
    · rintro ⟨rfl, hlt', -⟩
      exact absurd hlt' hlt

/-- Leaving a scope keeps exactly the symbols of the scopes around it. -/
theorem entries_closeScopes {table table' : SymbolTable} {level reclaimed : Nat}
    (h : table.closeScopes level = .ok (reclaimed, table')) :
    table'.entries = table.entries.filter fun e => e.2.level < level := by
  simp only [closeScopes] at h
  split at h
  · cases h
    exact filterMap_map_fst (fun id : SymbolId => table.store[id.index]?) _ _
  · cases h

end SymbolTable

end DecafStatics
