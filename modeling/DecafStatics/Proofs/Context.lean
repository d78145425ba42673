import DecafStatics.Proofs.Event
import DecafStatics.Proofs.Syntax

/-!
# Contexts

Where a check is at: the symbols in sight, the next free number for a symbol, the level, the frame,
the loops around and the method around. A context is a value, and what a declaration does to it
is a function.

## Implementation notes

The most recent binding comes first, and deeper scopes are more recent than those around them. What
a name denotes is therefore the first binding of it; the levels are only needed to tell whether a
name is taken.

A construct may leave a context in which nothing is in sight that was not in sight before, but
symbols were declared and words taken up on the way: `Context.after` is that context, by the list
of events alone.

## Main definitions

* `Binding`, `Context` — a symbol in sight, and where a check is at
* `Context.find?`, `Context.Taken` — what a name denotes, and whether it can be declared
* `Context.declare`, `Context.store` — the context behind a declaration
* `Context.after` — the context behind a construct that declares nothing for what follows it
-/

namespace DecafStatics

/-- A symbol in sight. -/
structure Binding where
  id : SymbolId
  /-- The node that declares it. -/
  node : NodeId
  symbol : Symbol
  /-- The types of the parameters, for what can be called. -/
  formals : List Ty

/-- The words of storage that some bindings hold together. -/
def Binding.words (bindings : List Binding) : Nat :=
  SymbolTable.words (bindings.map fun b => (b.id, b.symbol))

@[simp] theorem Binding.words_nil : words [] = 0 := rfl

@[simp] theorem Binding.words_singleton (b : Binding) : words [b] = b.symbol.size := rfl

@[simp] theorem Binding.words_append (new old : List Binding) :
    words (new ++ old) = words new + words old := by
  rw [words, List.map_append, SymbolTable.words_append, words, words]

/-- What a name denotes. -/
abbrev Env := String → Option Binding

/-- The frame with `words` more words taken up. -/
def Frame.allocate (f : Frame) (words : Nat) : Frame :=
  ⟨f.offset + words, max f.peak (f.offset + words)⟩

/-- Where a check is at. -/
structure Context where
  /-- What is in sight, the most recent first. -/
  bindings : List Binding
  /-- How many symbols were declared so far. -/
  count : Nat
  level : Nat
  frame : Frame
  loops : Nat
  method : Option Enclosing

/-- Behind the last word that any of the symbols takes up. -/
def extent : List Symbol → Nat
  | [] => 0
  | e :: rest => max (e.offset + e.size) (extent rest)

@[simp] theorem extent_nil : extent [] = 0 := rfl

@[simp] theorem extent_cons (e : Symbol) (rest : List Symbol) :
    extent (e :: rest) = max (e.offset + e.size) (extent rest) := rfl

theorem extent_append (a b : List Symbol) : extent (a ++ b) = max (extent a) (extent b) := by
  induction a with
  | nil => simp
  | cons e a ih => rw [List.cons_append, extent_cons, extent_cons, ih, Nat.max_assoc]

namespace Context

/-- The global scope, with nothing in it. -/
def start : Context := ⟨[], 0, 0, .starting 0, 0, none⟩

/-- What `name` denotes. -/
def find? (c : Context) : Env := fun name => c.bindings.find? fun b => b.symbol.name = name

/-- The current scope declares `name`. -/
def Taken (c : Context) (name : String) : Prop :=
  ∃ b ∈ c.bindings, b.symbol.level = c.level ∧ b.symbol.name = name

instance (c : Context) (name : String) : Decidable (c.Taken name) :=
  inferInstanceAs (Decidable (∃ b ∈ c.bindings, b.symbol.level = c.level ∧ b.symbol.name = name))

/-- Nothing in sight is declared deeper than the current scope. -/
def Opened (c : Context) : Prop := ∀ b ∈ c.bindings, b.symbol.level ≤ c.level

/-- What declaring `symbol` at `node` leaves behind. -/
def declaring (c : Context) (node : NodeId) (symbol : Symbol) : List Event :=
  if c.Taken symbol.name then
    [.complain (.duplicateDeclaration symbol.name symbol.level) node]
  else
    [.declare node ⟨c.count⟩ symbol]

/-- The context in which `symbol` is declared at `node`, if its name was free. -/
def declare (c : Context) (node : NodeId) (symbol : Symbol) (formals : List Ty) : Context :=
  if c.Taken symbol.name then c
  else { c with
    bindings := ⟨⟨c.count⟩, node, symbol, formals⟩ :: c.bindings
    count := c.count + 1 }

/-- A symbol of `size` words that starts at the first word that is free. -/
def stored (c : Context) (name : String) (ty : Ty) (kind : SymbolKind) (size : Nat) : Symbol :=
  ⟨name, ty, kind, c.level, size, c.frame.offset, none⟩

/-- What declaring a symbol with storage leaves behind. -/
def storing (c : Context) (node : NodeId) (name : String) (ty : Ty) (kind : SymbolKind)
    (size : Nat) : List Event :=
  .size node size :: c.declaring node (c.stored name ty kind size)

/-- The context in which a symbol with storage is declared, if its name was free. -/
def store (c : Context) (node : NodeId) (name : String) (ty : Ty) (kind : SymbolKind)
    (size : Nat) : Context :=
  if c.Taken name then c
  else { c.declare node (c.stored name ty kind size) [] with frame := c.frame.allocate size }

/-- The context behind events that declare nothing for what follows: symbols were numbered, and
the frame was as large as they needed. -/
def after (c : Context) (es : List Event) : Context :=
  { c with
    count := c.count + (Event.declared es).length
    frame := ⟨c.frame.offset, max c.frame.peak (extent (Event.declared es))⟩ }

/-- The context behind declarations in the current scope that leave `es` behind: `new` is in sight
in addition, and takes up words of the frame. -/
def extend (c : Context) (es : List Event) (new : List Binding) : Context :=
  { c.after es with
    bindings := new ++ c.bindings
    frame := ⟨c.frame.offset + Binding.words new, (c.after es).frame.peak⟩ }

/-- The context `c'` is `c` behind declarations in the current scope that leave `es` behind. -/
def Grows (c : Context) (es : List Event) (c' : Context) : Prop :=
  ∃ new : List Binding, (∀ b ∈ new, b.symbol.level = c.level) ∧ c' = c.extend es new

/-- A scope inside of the current one. -/
def inner (c : Context) : Context := { c with level := c.level + 1 }

/-- What a list of constructs leaves behind, each of which changes the context for the next. -/
def along {α : Type} (events : Context → α → List Event) (next : Context → α → Context) :
    Context → List α → List Event
  | _, [] => []
  | c, a :: rest => events c a ++ along events next (next c a) rest

/-- What each of some constructs leaves as it was, they all do. -/
theorem foldl_keeps {α β : Type} {next : Context → α → Context} (f : Context → β)
    (h : ∀ c a, f (next c a) = f c) (c : Context) (l : List α) : f (l.foldl next c) = f c := by
  induction l generalizing c with
  | nil => rfl
  | cons a rest ih => exact (ih (next c a)).trans (h c a)

variable {c : Context} {node : NodeId} {symbol : Symbol} {formals : List Ty}

theorem opened_start : start.Opened := by simp [Opened, start]

theorem declaring_of_taken (h : c.Taken symbol.name) : c.declaring node symbol =
    [.complain (.duplicateDeclaration symbol.name symbol.level) node] := if_pos h

theorem declaring_of_not_taken (h : ¬ c.Taken symbol.name) :
    c.declaring node symbol = [.declare node ⟨c.count⟩ symbol] := if_neg h

theorem declare_of_taken (h : c.Taken symbol.name) : c.declare node symbol formals = c := if_pos h

theorem declare_of_not_taken (h : ¬ c.Taken symbol.name) :
    c.declare node symbol formals = { c with
      bindings := ⟨⟨c.count⟩, node, symbol, formals⟩ :: c.bindings, count := c.count + 1 } :=
  if_neg h

@[simp] theorem level_declare : (c.declare node symbol formals).level = c.level := by
  rw [declare]
  split <;> rfl

@[simp] theorem frame_declare : (c.declare node symbol formals).frame = c.frame := by
  rw [declare]
  split <;> rfl

@[simp] theorem loops_declare : (c.declare node symbol formals).loops = c.loops := by
  rw [declare]
  split <;> rfl

@[simp] theorem method_declare : (c.declare node symbol formals).method = c.method := by
  rw [declare]
  split <;> rfl

@[simp] theorem count_declare : (c.declare node symbol formals).count =
    c.count + (Event.declared (c.declaring node symbol)).length := by
  by_cases h : c.Taken symbol.name
  · rw [declare_of_taken h, declaring_of_taken h]
    rfl
  · rw [declare_of_not_taken h, declaring_of_not_taken h]
    rfl

section Store

variable {name : String} {ty : Ty} {kind : SymbolKind} {size : Nat}

theorem store_of_taken (h : c.Taken name) : c.store node name ty kind size = c := if_pos h

theorem store_of_not_taken (h : ¬ c.Taken name) : c.store node name ty kind size = { c with
    bindings := ⟨⟨c.count⟩, node, c.stored name ty kind size, []⟩ :: c.bindings
    count := c.count + 1
    frame := c.frame.allocate size } := by
  have free : ¬ c.Taken (c.stored name ty kind size).name := h
  rw [store, if_neg h, declare_of_not_taken free]

@[simp] theorem level_store : (c.store node name ty kind size).level = c.level := by
  rw [store]
  split
  · rfl
  · exact level_declare

@[simp] theorem loops_store : (c.store node name ty kind size).loops = c.loops := by
  rw [store]
  split
  · rfl
  · exact loops_declare

@[simp] theorem method_store : (c.store node name ty kind size).method = c.method := by
  rw [store]
  split
  · rfl
  · exact method_declare

end Store

theorem after_append (c : Context) (es fs : List Event) :
    (c.after es).after fs = c.after (es ++ fs) := by
  simp [after, extent_append, Nat.add_assoc, Nat.max_assoc]

theorem after_of_declared_eq_nil {es : List Event} (h : Event.declared es = []) :
    c.after es = c := by
  simp [after, h]

/-! ### Growing -/

theorem Grows.refl (c : Context) : c.Grows [] c :=
  ⟨[], by simp, by simp [extend, after]⟩

theorem Grows.trans {c₁ c₂ : Context} {es fs : List Event} (h₁ : c.Grows es c₁)
    (h₂ : c₁.Grows fs c₂) : c.Grows (es ++ fs) c₂ := by
  obtain ⟨new, hnew, rfl⟩ := h₁
  obtain ⟨more, hmore, rfl⟩ := h₂
  refine ⟨more ++ new, ?_, ?_⟩
  · intro b hb
    rcases List.mem_append.1 hb with hb | hb
    · exact hmore b hb
    · exact hnew b hb
  · simp [extend, after, extent_append, Nat.add_assoc, Nat.max_assoc,
      Nat.add_comm (Binding.words more)]

/-- Events that enter no symbol make no difference. -/
theorem Grows.append_quiet {c₁ : Context} {es fs : List Event} (h : c.Grows es c₁)
    (hfs : Event.declared fs = []) : c.Grows (es ++ fs) c₁ := by
  obtain ⟨new, hnew, rfl⟩ := h
  exact ⟨new, hnew, by simp [extend, after, hfs]⟩

theorem Grows.level_eq {c₁ : Context} {es : List Event} (h : c.Grows es c₁) :
    c₁.level = c.level := by
  obtain ⟨new, -, rfl⟩ := h
  rfl

theorem Grows.loops_eq {c₁ : Context} {es : List Event} (h : c.Grows es c₁) :
    c₁.loops = c.loops := by
  obtain ⟨new, -, rfl⟩ := h
  rfl

theorem Grows.method_eq {c₁ : Context} {es : List Event} (h : c.Grows es c₁) :
    c₁.method = c.method := by
  obtain ⟨new, -, rfl⟩ := h
  rfl

theorem grows_store (c : Context) (node : NodeId) (name : String) (ty : Ty) (kind : SymbolKind)
    (size : Nat) :
    c.Grows (c.storing node name ty kind size) (c.store node name ty kind size) := by
  by_cases h : c.Taken (c.stored name ty kind size).name
  · refine ⟨[], by simp, ?_⟩
    rw [store_of_taken (show c.Taken name from h), storing, declaring_of_taken h]
    simp [extend, after, Event.symbol?]
  · refine ⟨[⟨⟨c.count⟩, node, c.stored name ty kind size, []⟩], by simp [stored], ?_⟩
    rw [store_of_not_taken (show ¬ c.Taken name from h), storing, declaring_of_not_taken h]
    simp [extend, after, Event.symbol?, Frame.allocate, stored]

/-- Constructs along which each context grows into the next. -/
theorem grows_along {α : Type} {events : Context → α → List Event}
    {next : Context → α → Context}
    (h : ∀ (c : Context) (a : α), c.Grows (events c a) (next c a)) (c : Context) (l : List α) :
    c.Grows (c.along events next l) (l.foldl next c) := by
  induction l generalizing c with
  | nil => exact .refl c
  | cons a rest ih => exact (h c a).trans (ih (next c a))

end Context

end DecafStatics
