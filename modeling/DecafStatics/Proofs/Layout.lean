import DecafStatics.Proofs.Numbering
import DecafStatics.Proofs.Scopes
import Mathlib.Data.List.Basic
import Mathlib.Data.List.Flatten

/-!
# The layout of storage

Each variable that is declared with success occupies some words: the fields of a package from `0`
on, the parameters of a method and all variables of its blocks in the frame of the method, behind
its header. Variables that can be live at the same time share no word, and a method needs as many
words as its variables reach up to.

## Implementation notes

A check advances an offset at each declaration and takes it back at the end of a block, and the
peak of the offset is kept apart. In a transcript there is nothing to take back: all statements of a
block start from the offset behind its variables, and the peak is the extent of all symbols.

Two blocks are one inside of the other if the blocks around one of them begin with those around the
other. Blocks next to each other differ in the first block behind those around both, and there it
matters that they are different nodes.

## Main definitions

* `VarDecl.admitted` — the variables of a scope that are declared with success
* `Slot`, `Method.slots` — the variables of a method, with the blocks around each
* `Program.successes` — all declarations of a program that have success
* `Consecutive` — symbols in consecutive words
* `CompilationUnit.LaysOut` — what is to hold of the variables of a method after a check

## Main results

* `VarDecl.placed_along` — the variables of one scope
* `Stmt.layout`, `Method.layout` — the variables of a statement, of a method
* `Program.declarers_events` — no other symbols are entered
* `CompilationUnit.layout_of_check` — the check
-/

namespace DecafStatics

/-! ### Variables -/

/-- How many words a variable needs. -/
def VarDecl.words (d : VarDecl) : Nat :=
  match d.shape with
  | .array _ length => length.toInt.toNat
  | .scalar | .initialized _ => 1

/-- The variables that are declared with success in a scope. -/
def VarDecl.admitted (scope : List Declaration) (ds : List VarDecl) : List VarDecl :=
  ds.filter fun d => d.declaration.Succeeds scope

/-- A parameter is declared like a variable without an initial value. -/
def Param.varDecl (param : Param) : VarDecl := ⟨param.id, param.name, param.ty, .scalar⟩

/-- A variable of a method. -/
structure Slot where
  id : NodeId
  words : Nat
  /-- The blocks around it, from the outside in. There are none around a parameter. -/
  path : List NodeId

namespace Slot

/-- The variables can be live at the same time: they are declared in the same scope, or the scope of
one is around that of the other. -/
def Together (v w : Slot) : Prop := v.path <+: w.path ∨ w.path <+: v.path

end Slot

/-- The variables of a scope that are declared with success, with the blocks around them. -/
def VarDecl.slots (path : List NodeId) (ds : List VarDecl) : List Slot :=
  (admitted (ds.map VarDecl.declaration) ds).map fun d => ⟨d.id, d.words, path⟩

namespace Stmt

mutual

/-- The variables that a statement inside of some blocks declares with success. -/
def slots (path : List NodeId) : Stmt → List Slot
  | assignment .. | call _ | returnValue .. | jump .. => []
  | ifThen _ _ _ yes => yes.slots path
  | ifElse _ _ _ yes _ no => yes.slots path ++ no.slots path
  | loop _ _ body => body.slots path
  | block id locals body =>
    VarDecl.slots (path ++ [id]) locals ++ bodySlots (path ++ [id]) body

/-- The variables that the statements of a block declare with success. -/
def bodySlots (path : List NodeId) : List Stmt → List Slot
  | [] => []
  | st :: rest => st.slots path ++ bodySlots path rest

end

end Stmt

/-- The parameters and the variables that a method declares with success. -/
def Method.slots (m : Method) : List Slot :=
  VarDecl.slots [] (m.params.map Param.varDecl) ++ m.block.slots []

namespace Program

/-- All names that a program declares in its global scope. -/
def scope (p : Program) : List Declaration :=
  p.declarations ++ p.methods.map Method.declaration

/-- The nodes of all declarations that have success, in their order. -/
def successes (p : Program) : List NodeId :=
  (p.declarations.filter fun d => d.Succeeds p.scope).map Declaration.id ++
    p.methods.flatMap fun m =>
      (if m.declaration.Succeeds p.scope then [m.id] else []) ++ m.slots.map Slot.id

end Program

/-! ### Words -/

/-- No word is occupied by both symbols. -/
def Symbol.Apart (e f : Symbol) : Prop :=
  e.offset + e.size ≤ f.offset ∨ f.offset + f.size ≤ e.offset

/-- The symbols occupy consecutive words, from `start` up to `stop`. -/
inductive Consecutive : Nat → List Symbol → Nat → Prop where
  | nil (start : Nat) : Consecutive start [] start
  | cons {start stop : Nat} {e : Symbol} {es : List Symbol} (first : e.offset = start)
      (rest : Consecutive (start + e.size) es stop) : Consecutive start (e :: es) stop

namespace Consecutive

variable {start stop : Nat} {es : List Symbol}

theorem start_le_stop (h : Consecutive start es stop) : start ≤ stop := by
  induction h with
  | nil => exact Nat.le_refl _
  | cons _ _ ih => exact Nat.le_of_add_right_le ih

theorem bounds (h : Consecutive start es stop) {e : Symbol} (he : e ∈ es) :
    start ≤ e.offset ∧ e.offset + e.size ≤ stop := by
  induction h with
  | nil => cases he
  | cons first rest ih =>
    rcases List.mem_cons.1 he with rfl | he
    · exact ⟨Nat.le_of_eq first.symm, first ▸ rest.start_le_stop⟩
    · obtain ⟨lower, upper⟩ := ih he
      exact ⟨Nat.le_of_add_right_le lower, upper⟩

/-- Consecutive symbols share no word. -/
theorem apart (h : Consecutive start es stop) : es.Pairwise Symbol.Apart := by
  induction h with
  | nil => exact .nil
  | cons first rest ih =>
    refine List.pairwise_cons.2 ⟨fun f hf => ?_, ih⟩
    exact .inl (first ▸ (rest.bounds hf).1)

end Consecutive

theorem le_extent {e : Symbol} {es : List Symbol} (h : e ∈ es) : e.offset + e.size ≤ extent es := by
  induction es with
  | nil => cases h
  | cons f es ih =>
    rw [extent_cons]
    rcases List.mem_cons.1 h with rfl | h
    · exact Nat.le_max_left ..
    · exact Nat.le_trans (ih h) (Nat.le_max_right ..)

/-! ### The symbols that events enter -/

namespace Event

/-- The symbol that the event enters, and the node that declares it. -/
def entered? : Event → Option (NodeId × Symbol)
  | declare id _ symbol => some (id, symbol)
  | type .. | link .. | size .. | complain .. => none

/-- The symbols that are entered with the nodes that declare them, in their order. -/
def entries (es : List Event) : List (NodeId × Symbol) := es.filterMap entered?

@[simp] theorem entries_append (es fs : List Event) :
    entries (es ++ fs) = entries es ++ entries fs := List.filterMap_append

theorem declared_eq_map_entries (es : List Event) : declared es = (entries es).map Prod.snd := by
  have symbols : symbol? = fun e => (entered? e).map Prod.snd := by
    funext e
    cases e <;> rfl
  rw [declared, entries, List.map_filterMap, symbols]

theorem entries_eq_nil {es : List Event} (h : declared es = []) : entries es = [] := by
  rw [declared_eq_map_entries] at h
  exact List.map_eq_nil_iff.1 h

/-- The nodes that declare the symbols, in their order. -/
def declarers (es : List Event) : List NodeId := (entries es).map Prod.fst

@[simp] theorem declarers_append (es fs : List Event) :
    declarers (es ++ fs) = declarers es ++ declarers fs := by
  rw [declarers, entries_append, List.map_append, declarers, declarers]

theorem mem_entries {es : List Event} {id : NodeId} {symbol : Symbol}
    (h : (id, symbol) ∈ entries es) : ∃ number, declare id number symbol ∈ es := by
  obtain ⟨ev, hev, heq⟩ := List.mem_filterMap.1 h
  cases ev with
  | declare id' number symbol' =>
    cases heq
    exact ⟨number, hev⟩
  | type | link | size | complain => cases heq

end Event

open Event (declarers entries entries_append entries_eq_nil)

/-- The nodes that stand for some constructs are among all of their nodes, in the same order. -/
theorem map_sublist_flatMap {α : Type} {f : α → NodeId} {ids : α → List NodeId}
    (h : ∀ a, [f a].Sublist (ids a)) (l : List α) : (l.map f).Sublist (l.flatMap ids) := by
  rw [List.map_eq_flatMap]
  exact List.Sublist.flatMap_right l fun a _ => h a

/-! ### The variables of a scope -/

namespace VarDecl

variable {c : Context} {d : VarDecl}

/-- The declaration of a variable enters a symbol at the first word that is free, or does nothing if
it is none or its name is taken. -/
theorem declares (c : Context) (d : VarDecl) :
    ((d.declaration.valid ∧ ¬ c.Taken d.name) ∧ ∃ e, entries (d.events c) = [(d.id, e)] ∧
      e.offset = c.frame.offset ∧ e.size = d.words ∧
        (d.next c).frame.offset = c.frame.offset + e.size) ∨
    (¬ (d.declaration.valid ∧ ¬ c.Taken d.name) ∧ entries (d.events c) = [] ∧ d.next c = c) := by
  rw [events, next]
  split
  · rename_i problem hshape
    exact .inr ⟨by simp [not_valid_of_error hshape], rfl, rfl⟩
  · rename_i kind size hshape
    have words : size = d.words := by
      unfold Check.variableShape at hshape
      rw [VarDecl.words]
      cases h : d.shape with
      | scalar | initialized => simp_all [Shape.length]
      | array id length =>
        simp only [h, Shape.length] at hshape
        split at hshape
        · cases hshape
        · cases hshape
          rfl
    have quiet : entries (d.shape.events d.ty) = [] := entries_eq_nil (declared_shape ..)
    rw [entries_append, quiet, List.append_nil, declaration_of_ok hshape]
    by_cases htaken : c.Taken d.name
    · refine .inr ⟨by simp [htaken], entries_eq_nil ?_, Context.store_of_taken htaken⟩
      rw [Context.storing, Context.declaring_of_taken htaken]
      rfl
    · refine .inl ⟨⟨rfl, htaken⟩, c.stored d.name d.ty kind size, ?_, rfl, words, ?_⟩
      · rw [Context.storing, Context.declaring_of_not_taken htaken]
        rfl
      · rw [Context.store_of_not_taken htaken]
        rfl

theorem admitted_cons (scope : List Declaration) (d : VarDecl) (ds : List VarDecl) :
    admitted scope (d :: ds) =
      if d.declaration.Succeeds scope then d :: admitted scope ds
      else admitted scope ds := by
  simp [admitted, List.filter_cons]

/-- **The variables of one scope** are those that are admitted to it, and they occupy consecutive
words. -/
theorem placed_along {scope current after : List Declaration} {ds : List VarDecl}
    (h : c.Scoped current) (hscope : scope = current ++ ds.map declaration ++ after)
    (hnodup : (scope.map Declaration.id).Nodup) :
    ∃ placed : List (VarDecl × Symbol), placed.map Prod.fst = admitted scope ds ∧
      (placed.map fun x => (x.1.id, x.2)) = entries (c.along events next ds) ∧
      (∀ x ∈ placed, x.2.size = x.1.words) ∧
      Consecutive c.frame.offset (placed.map Prod.snd) (ds.foldl next c).frame.offset := by
  induction ds generalizing c current with
  | nil => exact ⟨[], rfl, rfl, by simp, .nil _⟩
  | cons d ds ih =>
    have rest : scope = (current ++ [d.declaration]) ++ ds.map declaration ++ after := by
      simpa using hscope
    obtain ⟨placed, hfst, hentries, hsize, hwords⟩ := ih (d.scoped_next h) rest
    have split : scope = current ++ d.declaration :: (ds.map declaration ++ after) := by
      simpa using hscope
    have success := h.succeeds_iff split hnodup
    rw [admitted_cons, Context.along, entries_append, List.foldl_cons]
    rcases d.declares c with ⟨hd, e, hentry, hoffset, hd_words, hnext⟩ | ⟨hd, hentry, hnext⟩
    · refine ⟨(d, e) :: placed, ?_, ?_, List.forall_mem_cons.2 ⟨hd_words, hsize⟩, ?_⟩
      · rw [if_pos (success.2 hd), List.map_cons, hfst]
      · rw [hentry, List.map_cons, hentries]
        rfl
      · rw [hnext] at hwords
        exact .cons hoffset hwords
    · rw [hnext] at hwords hentries ⊢
      refine ⟨placed, ?_, ?_, hsize, hwords⟩
      · rw [if_neg fun hs => hd (success.1 hs), hfst]
      · rw [hentry, hentries]
        rfl

end VarDecl

/-! ### The variables of a statement -/

/-- The symbols that some events enter are those of some variables, in words from `start` on. -/
structure Layout (start : Nat) (vs : List Slot) (es : List Event)
    (placed : List (Slot × Symbol)) : Prop where
  slots : placed.map Prod.fst = vs
  entries : (placed.map fun x => (x.1.id, x.2)) = Event.entries es
  size : ∀ x ∈ placed, x.2.size = x.1.words
  start_le : ∀ x ∈ placed, start ≤ x.2.offset
  apart : placed.Pairwise fun x y => x.1.Together y.1 → x.2.Apart y.2

namespace Layout

variable {start stop : Nat} {vs ws : List Slot} {es fs : List Event}
  {placed others : List (Slot × Symbol)}

/-- Where no symbol is entered there is no variable. -/
theorem nil (h : Event.declared es = []) : Layout start [] es [] where
  slots := rfl
  entries := (entries_eq_nil h).symm
  size := by simp
  start_le := by simp
  apart := .nil

theorem append (h : Layout start vs es placed) (h' : Layout start ws fs others)
    (hapart : ∀ x ∈ placed, ∀ y ∈ others, x.1.Together y.1 → x.2.Apart y.2) :
    Layout start (vs ++ ws) (es ++ fs) (placed ++ others) where
  slots := by rw [List.map_append, h.slots, h'.slots]
  entries := by rw [List.map_append, h.entries, h'.entries, entries_append]
  size := List.forall_mem_append.2 ⟨h.size, h'.size⟩
  start_le := List.forall_mem_append.2 ⟨h.start_le, h'.start_le⟩
  apart := List.pairwise_append.2 ⟨h.apart, h'.apart, hapart⟩

/-- Behind events that enter no symbol. -/
theorem quiet_append (h : Layout start vs es placed) (hfs : Event.declared fs = []) :
    Layout start vs (fs ++ es) placed := by
  have silence : Layout start [] fs [] := nil hfs
  exact silence.append h (by simp)

/-- Variables of one scope and those that are declared further inside. -/
theorem nested (h : Layout start vs es placed) (hend : ∀ x ∈ placed, x.2.offset + x.2.size ≤ stop)
    (h' : Layout stop ws fs others) (hle : start ≤ stop) :
    Layout start (vs ++ ws) (es ++ fs) (placed ++ others) := by
  have later : Layout start ws fs others :=
    { h' with start_le := fun y hy => Nat.le_trans hle (h'.start_le y hy) }
  exact h.append later fun x hx y hy _ => .inl (Nat.le_trans (hend x hx) (h'.start_le y hy))

theorem mem_slots (h : Layout start vs es placed) {x : Slot × Symbol} (hx : x ∈ placed) :
    x.1 ∈ vs := h.slots ▸ List.mem_map_of_mem hx

end Layout

/-- The variables of a scope, as variables of a method. -/
theorem VarDecl.layout {c : Context} (h : c.Scoped []) {ds : List VarDecl}
    (hnodup : (ds.map VarDecl.id).Nodup) (path : List NodeId) :
    ∃ placed, Layout c.frame.offset (slots path ds) (c.along events next ds) placed ∧
      (∀ x ∈ placed, x.2.offset + x.2.size ≤ (ds.foldl next c).frame.offset) ∧
      c.frame.offset ≤ (ds.foldl next c).frame.offset := by
  have fresh : ((ds.map declaration).map Declaration.id).Nodup := by
    rw [List.map_map]
    exact hnodup
  have whole : ds.map declaration = [] ++ ds.map declaration ++ [] := (List.append_nil _).symm
  obtain ⟨placed, hfst, hentries, hsize, hwords⟩ := placed_along h whole fresh
  have bounds : ∀ x ∈ placed, c.frame.offset ≤ x.2.offset ∧
      x.2.offset + x.2.size ≤ (ds.foldl next c).frame.offset := fun x hx =>
    hwords.bounds (List.mem_map_of_mem hx)
  refine ⟨placed.map fun x => (⟨x.1.id, x.1.words, path⟩, x.2), ?_, ?_, hwords.start_le_stop⟩
  · constructor
    · rw [slots, ← hfst, List.map_map, List.map_map]
      rfl
    · rw [← hentries, List.map_map]
      rfl
    · exact List.forall_mem_map.2 hsize
    · exact List.forall_mem_map.2 fun x hx => (bounds x hx).1
    · rw [List.pairwise_map]
      refine List.Pairwise.imp ?_ (List.pairwise_map.1 hwords.apart)
      exact fun hapart _ => hapart
  · exact List.forall_mem_map.2 fun x hx => (bounds x hx).2

namespace Stmt

theorem bodySlots_eq (path : List NodeId) (body : List Stmt) :
    bodySlots path body = body.flatMap (slots path) := by
  induction body with
  | nil => rfl
  | cons st rest ih => rw [bodySlots, ih, List.flatMap_cons]

/-- The variables of a statement stand in a block of its own. -/
theorem path_of_mem_slots {st : Stmt} {path : List NodeId} {v : Slot}
    (h : v ∈ st.slots path) : ∃ id ∈ st.ids, path ++ [id] <+: v.path := by
  induction st generalizing path with
  | assignment | call | returnValue | jump => cases h
  | ifThen id branch condition yes ih =>
    obtain ⟨id', hid, hpath⟩ := ih h
    exact ⟨id', by simp [ids, hid], hpath⟩
  | ifElse id branch condition yes other no ihy ihn =>
    rcases List.mem_append.1 h with h | h
    · obtain ⟨id', hid, hpath⟩ := ihy h
      exact ⟨id', by simp [ids, hid], hpath⟩
    · obtain ⟨id', hid, hpath⟩ := ihn h
      exact ⟨id', by simp [ids, hid], hpath⟩
  | loop id condition body ih =>
    obtain ⟨id', hid, hpath⟩ := ih h
    exact ⟨id', by simp [ids, hid], hpath⟩
  | block id locals body ih =>
    refine ⟨id, by simp [ids], ?_⟩
    rcases List.mem_append.1 h with h | h
    · obtain ⟨d, -, rfl⟩ := List.mem_map.1 h
      exact List.prefix_refl _
    · rw [bodySlots_eq, List.mem_flatMap] at h
      obtain ⟨st, hst, h⟩ := h
      obtain ⟨id', -, hpath⟩ := ih st hst h
      exact (List.prefix_append _ _).trans hpath

/-- Variables in different blocks next to each other are never live at the same time. -/
theorem not_together {path : List NodeId} {id id' : NodeId} (hne : id ≠ id') {v w : Slot}
    (hv : path ++ [id] <+: v.path) (hw : path ++ [id'] <+: w.path) : ¬ v.Together w := by
  have differ : ∀ {l : List NodeId}, path ++ [id] <+: l → ¬ path ++ [id'] <+: l := by
    intro l h h'
    have same := (List.prefix_of_prefix_length_le h h' (by simp)).eq_of_length (by simp)
    exact hne (List.singleton_inj.1 (List.append_cancel_left same))
  rintro (h | h)
  · exact differ (hv.trans h) hw
  · exact differ hv (hw.trans h)

/-- The variables of statements that have no node in common. -/
theorem layout_append {start : Nat} {path : List NodeId} {st : Stmt} {ws : List Slot}
    {ids : List NodeId} {es fs : List Event} {placed others : List (Slot × Symbol)}
    (h : Layout start (st.slots path) es placed) (h' : Layout start ws fs others)
    (hws : ∀ w ∈ ws, ∃ id ∈ ids, path ++ [id] <+: w.path)
    (hdisjoint : ∀ id ∈ st.ids, ∀ id' ∈ ids, id ≠ id') :
    Layout start (st.slots path ++ ws) (es ++ fs) (placed ++ others) := by
  refine h.append h' fun x hx y hy together => absurd together ?_
  obtain ⟨id, hid, hv⟩ := path_of_mem_slots (h.mem_slots hx)
  obtain ⟨id', hid', hw⟩ := hws y.1 (h'.mem_slots hy)
  exact not_together (hdisjoint id hid id' hid') hv hw

/-- The variables of the statements of a block, if those of each statement are laid out. -/
theorem layout_body {c : Context} (h : c.Opened) {body : List Stmt} {path : List NodeId}
    (hbody : ∀ st ∈ body, st.ids.Nodup → ∀ c : Context, c.Opened →
      ∃ placed, Layout c.frame.offset (st.slots path) (st.events c) placed)
    (hnodup : (bodyIds body).Nodup) :
    ∃ placed, Layout c.frame.offset (bodySlots path body) (bodyEvents c body) placed := by
  induction body generalizing c with
  | nil => exact ⟨[], .nil rfl⟩
  | cons st rest ih =>
    obtain ⟨hst, hrest⟩ := List.forall_mem_cons.1 hbody
    obtain ⟨hst_nodup, hrest_nodup, hdisjoint⟩ := List.nodup_append.1 hnodup
    obtain ⟨placed, hplaced⟩ := hst hst_nodup c h
    have behind : (c.after (st.events c)).Opened := h
    obtain ⟨others, hothers⟩ := ih behind hrest hrest_nodup
    refine ⟨placed ++ others, layout_append hplaced hothers ?_ hdisjoint⟩
    intro w hw
    rw [bodySlots_eq, List.mem_flatMap] at hw
    obtain ⟨st', hst', hw⟩ := hw
    obtain ⟨id, hid, hpath⟩ := path_of_mem_slots hw
    rw [bodyIds_eq]
    exact ⟨id, List.mem_flatMap.2 ⟨st', hst', hid⟩, hpath⟩

/-- **The variables of a statement** occupy words from the offset on at which the statement stands,
and those that can be live at the same time share none. -/
theorem layout {c : Context} (h : c.Opened) {st : Stmt} (hnodup : st.ids.Nodup)
    (path : List NodeId) :
    ∃ placed, Layout c.frame.offset (st.slots path) (st.events c) placed := by
  induction st generalizing c path with
  | assignment id target value =>
    refine ⟨[], .nil ?_⟩
    rw [events, Event.declared_append, declared_elim fun ty => by simp]
    simp
  | call call => exact ⟨[], .nil (Expr.declared_events _)⟩
  | ifThen id branch condition yes ih =>
    have inside : yes.ids.Nodup := (List.nodup_append.1 (hnodup.tail.tail)).2.1
    obtain ⟨placed, hplaced⟩ := ih h inside path
    exact ⟨placed, hplaced.quiet_append (declared_conditionEvents ..)⟩
  | ifElse id branch condition yes other no ihy ihn =>
    obtain ⟨hfirst, hno, hdisjoint⟩ := List.nodup_append.1 hnodup.tail.tail.tail
    have hyes : yes.ids.Nodup := (List.nodup_append.1 hfirst).2.1
    obtain ⟨placed, hplaced⟩ := ihy h hyes path
    have behind : (c.after (yes.events c)).Opened := h
    obtain ⟨others, hothers⟩ := ihn behind hno path
    refine ⟨placed ++ others, ?_⟩
    exact layout_append (hplaced.quiet_append (declared_conditionEvents ..)) hothers
      (fun w hw => path_of_mem_slots hw) fun id hid =>
        hdisjoint id (List.mem_append_right _ hid)
  | loop id condition body ih =>
    have inside : body.ids.Nodup := (List.nodup_append.1 hnodup.tail).2.1
    have looping : ({ c with loops := c.loops + 1 } : Context).Opened := h
    obtain ⟨placed, hplaced⟩ := ih looping inside path
    exact ⟨placed, hplaced.quiet_append (declared_conditionEvents ..)⟩
  | returnValue id value => exact ⟨[], .nil (declared_returnEvents ..)⟩
  | jump id j =>
    refine ⟨[], .nil ?_⟩
    rw [events]
    split <;> rfl
  | block id locals body ih =>
    obtain ⟨-, hinside⟩ := List.nodup_cons.1 hnodup
    obtain ⟨hlocals, hbody, -⟩ := List.nodup_append.1 hinside
    have heads : (locals.map VarDecl.id).Nodup :=
      hlocals.sublist (map_sublist_flatMap (fun d => by simp [VarDecl.ids]) locals)
    obtain ⟨placed, hplaced, hend, hle⟩ := VarDecl.layout h.inner heads (path ++ [id])
    have scope : (c.locals locals).Scoped _ :=
      h.inner.along (fun c d current h => d.scoped_next h) locals
    obtain ⟨others, hothers⟩ := layout_body scope.opened
      (fun st hst hnodup c h => ih st hst h hnodup (path ++ [id])) hbody
    exact ⟨placed ++ others, hplaced.nested hend hothers hle⟩

end Stmt

/-! ### The variables of a method -/

/-- What declaring parameters leaves behind, as declarations of variables. -/
theorem Param.along_eq (c : Context) (params : List Param) :
    c.along events next params =
      c.along VarDecl.events VarDecl.next (params.map varDecl) := by
  induction params generalizing c with
  | nil => rfl
  | cons param rest ih =>
    have same : param.events c = param.varDecl.events c := (List.append_nil _).symm
    rw [List.map_cons, Context.along, Context.along, ih, same]
    rfl

theorem Param.foldl_eq (c : Context) (params : List Param) :
    params.foldl next c = (params.map varDecl).foldl VarDecl.next c := by
  rw [List.foldl_map]
  rfl

namespace Method

variable {c : Context} {current : List Declaration} {m : Method}

/-- **The variables of a method** occupy words behind the header of its frame. -/
theorem layout (h : c.Scoped current) (hnodup : m.ids.Nodup) :
    ∃ placed, Layout frameHeaderWords m.slots (m.inside c) placed := by
  obtain ⟨hparams, hblock, -⟩ := List.nodup_append.1 hnodup.tail
  have heads : ((m.params.map Param.varDecl).map VarDecl.id).Nodup := by
    rw [List.map_map]
    exact hparams
  have scope := scoped_scope h.opened m
  obtain ⟨placed, hplaced, hend, hle⟩ := VarDecl.layout scope heads []
  have within : (m.within c).Opened :=
    (scope.along (fun c param current h => param.scoped_next h) m.params).opened
  obtain ⟨others, hothers⟩ := m.block.layout within hblock []
  rw [← Param.foldl_eq] at hend hle
  refine ⟨placed ++ others, ?_⟩
  rw [inside, Param.along_eq]
  exact hplaced.nested hend hothers hle

/-- A method needs as many words as its header and its variables reach up to. -/
theorem words_eq (c : Context) (m : Method) :
    m.words c = max frameHeaderWords (extent (Event.declared (m.inside c))) := by
  obtain ⟨new, -, hparams⟩ := Context.grows_along (fun c param => Param.grows c param) (m.scope c)
    m.params
  have peak : (m.within c).frame.peak = max frameHeaderWords
      (extent (Event.declared ((m.scope c).along Param.events Param.next m.params))) :=
    congrArg (fun c => c.frame.peak) hparams
  have behind : m.words c = max (m.within c).frame.peak
      (extent (Event.declared (m.block.events (m.within c)))) := rfl
  rw [behind, peak, inside, Event.declared_append, extent_append, Nat.max_assoc]

end Method

/-- A header of two words, a parameter, an array of two, and a variable of a block inside. -/
example : CompilationUnit.shadowing.methods.map
    (fun m => m.words CompilationUnit.shadowing.afterFields) = [6] := by rfl

/-! ### The variables of a program -/

theorem Context.along_append {α : Type} (events : Context → α → List Event)
    (next : Context → α → Context) (c : Context) (l r : List α) :
    c.along events next (l ++ r) =
      c.along events next l ++ (l.foldl next c).along events next r := by
  induction l generalizing c with
  | nil => rfl
  | cons a l ih => rw [List.cons_append, along, ih, along, List.append_assoc, List.foldl_cons]

namespace Program

variable {p : Program} {m : Method}

/-- Each method is checked in the global scope, behind the methods before it. -/
theorem reaches (hm : m ∈ p.methods) :
    ∃ (c : Context) (before after : List Method) (ahead : List Event),
      p.methods = before ++ m :: after ∧
        c.Scoped (p.declarations ++ before.map Method.declaration) ∧
        p.events = ahead ++ m.events c ++ (m.next c).along Method.events Method.next after := by
  obtain ⟨before, after, hsplit⟩ := List.append_of_mem hm
  have scope : (before.foldl Method.next p.afterFields).Scoped _ :=
    p.scoped_afterFields.along (fun c m current h => m.scoped_next h) before
  have hevents : ∃ ahead, p.events = ahead ++
      (before.foldl Method.next p.afterFields).along Method.events Method.next (m :: after) := by
    rw [events, hsplit, Context.along_append, ← List.append_assoc]
    exact ⟨_, rfl⟩
  obtain ⟨ahead, hahead⟩ := hevents
  refine ⟨_, before, after, ahead, hsplit, scope, ?_⟩
  rw [hahead, Context.along, List.append_assoc]

/-- No node stands in two methods. -/
theorem nodup_methods (h : p.ids.Nodup) : (p.methods.flatMap Method.ids).Nodup :=
  (List.nodup_append.1 (List.nodup_append.1 h.tail).2.1.tail).2.1

/-- No two global declarations are the same. -/
theorem nodup_scope (h : p.ids.Nodup) : (p.scope.map Declaration.id).Nodup := by
  have externs : (p.externs.map Extern.id).Sublist (p.externs.flatMap Extern.ids) :=
    map_sublist_flatMap (fun e => by simp [Extern.ids]) _
  have fields : (p.fields.map VarDecl.id).Sublist (p.fields.flatMap VarDecl.ids) :=
    map_sublist_flatMap (fun d => by simp [VarDecl.ids]) _
  have methods : (p.methods.map Method.id).Sublist (p.methods.flatMap Method.ids) :=
    map_sublist_flatMap (fun m => by simp [Method.ids]) _
  have heads : p.scope.map Declaration.id = p.externs.map Extern.id ++
      p.package :: (p.fields.map VarDecl.id ++ p.methods.map Method.id) := by
    simp [scope, declarations, Function.comp_def, Extern.declaration, VarDecl.declaration,
      Method.declaration]
  rw [heads]
  exact h.tail.sublist (externs.append ((fields.append methods).cons_cons p.package))

end Program

/-! ### Nothing else is declared -/

section Declarers

variable {c : Context} {current after scope : List Declaration}

theorem Context.declarers_declaring (h : c.Scoped current) {node : NodeId} {symbol : Symbol}
    (hscope : scope = current ++ ⟨node, symbol.name, true⟩ :: after)
    (hnodup : (scope.map Declaration.id).Nodup) :
    declarers (c.declaring node symbol) =
      if Declaration.Succeeds scope ⟨node, symbol.name, true⟩ then [node] else [] := by
  have success := h.succeeds_iff hscope hnodup
  by_cases htaken : c.Taken symbol.name
  · rw [declaring_of_taken htaken, if_neg fun hs => (success.1 hs).2 htaken]
    rfl
  · rw [declaring_of_not_taken htaken, if_pos (success.2 ⟨rfl, htaken⟩)]
    rfl

theorem VarDecl.declarers_events (h : c.Scoped current) {d : VarDecl}
    (hscope : scope = current ++ d.declaration :: after)
    (hnodup : (scope.map Declaration.id).Nodup) :
    declarers (d.events c) = if d.declaration.Succeeds scope then [d.id] else [] := by
  have success := h.succeeds_iff hscope hnodup
  rcases d.declares c with ⟨hd, e, hentry, -⟩ | ⟨hd, hentry, -⟩
  · rw [if_pos (success.2 hd), declarers, hentry]
    rfl
  · rw [if_neg fun hs => hd (success.1 hs), declarers, hentry]
    rfl

theorem Method.declarers_events (h : c.Scoped current) {m : Method} (halone : m.ids.Nodup)
    (hscope : scope = current ++ m.declaration :: after)
    (hnodup : (scope.map Declaration.id).Nodup) :
    declarers (m.events c) =
      (if m.declaration.Succeeds scope then [m.id] else []) ++ m.slots.map Slot.id := by
  have named : declarers (c.declaring m.id (m.symbol c (m.words c))) =
      if m.declaration.Succeeds scope then [m.id] else [] :=
    Context.declarers_declaring h hscope hnodup
  have inside : declarers (m.inside c) = m.slots.map Slot.id := by
    obtain ⟨placed, hplaced⟩ := m.layout h halone
    rw [declarers, ← hplaced.entries, ← hplaced.slots, List.map_map, List.map_map]
    rfl
  have sized : declarers [.size m.id (m.words c)] = [] := rfl
  rw [events, Event.declarers_append, Event.declarers_append, named, inside, sized,
    List.append_nil]

/-- What declarations one after the other enter, if it is known of each. -/
theorem Context.declarers_along {α : Type} {events : Context → α → List Event}
    {next : Context → α → Context} {declaration : α → Declaration} {entered : α → List NodeId}
    {l : List α} (step : ∀ a ∈ l, ∀ (c : Context) (current after : List Declaration),
      c.Scoped current → scope = current ++ declaration a :: after →
        declarers (events c a) = entered a ∧ (next c a).Scoped (current ++ [declaration a]))
    (h : c.Scoped current) (hscope : scope = current ++ l.map declaration ++ after) :
    declarers (c.along events next l) = l.flatMap entered := by
  induction l generalizing c current with
  | nil => rfl
  | cons a rest ih =>
    obtain ⟨ha, hrest⟩ := List.forall_mem_cons.1 step
    obtain ⟨first, hnext⟩ := ha c current (rest.map declaration ++ after) h (by simpa using hscope)
    rw [along, Event.declarers_append, first, List.flatMap_cons,
      ih hrest hnext (by simpa using hscope)]

/-- The nodes of the declarations that have success, one by one. -/
theorem map_id_filter (l : List Declaration) :
    (l.filter fun d => d.Succeeds scope).map Declaration.id =
      l.flatMap fun d => if d.Succeeds scope then [d.id] else [] := by
  induction l with
  | nil => rfl
  | cons d l ih =>
    rw [List.filter_cons, List.flatMap_cons, ← ih]
    by_cases h : d.Succeeds scope <;> simp [h]

/-- The symbols of a program are those of the declarations that have success. -/
theorem Program.declarers_events {p : Program} (h : p.ids.Nodup) :
    declarers p.events = p.successes := by
  have hnodup := nodup_scope h
  have whole : p.scope = p.externs.map Extern.declaration ++ ⟨p.package, p.name, true⟩ ::
      (p.fields.map VarDecl.declaration ++ p.methods.map Method.declaration) := by
    simp [scope, declarations]
  have externs : declarers (Context.start.along Extern.events Extern.next p.externs) =
      p.externs.flatMap fun e => if e.declaration.Succeeds p.scope then [e.id] else [] := by
    refine Context.declarers_along (fun e _ c current after h hscope => ?_) .start whole
    exact ⟨Context.declarers_declaring h hscope hnodup, e.scoped_next h⟩
  have afterExterns : p.afterExterns.Scoped _ :=
    Context.Scoped.start.along (fun c e current h => e.scoped_next h) p.externs
  have named : declarers (p.afterExterns.declaring p.package (p.symbol p.afterExterns)) =
      if Declaration.Succeeds p.scope ⟨p.package, p.name, true⟩ then [p.package] else [] :=
    Context.declarers_declaring afterExterns whole hnodup
  have fields : declarers (p.afterName.along VarDecl.events VarDecl.next p.fields) =
      p.fields.flatMap fun d => if d.declaration.Succeeds p.scope then [d.id] else [] := by
    refine Context.declarers_along (fun d _ c current after h hscope => ?_) p.scoped_afterName
      (by simpa using whole)
    exact ⟨d.declarers_events h hscope hnodup, d.scoped_next h⟩
  have methods : declarers (p.afterFields.along Method.events Method.next p.methods) =
      p.methods.flatMap fun m =>
        (if m.declaration.Succeeds p.scope then [m.id] else []) ++ m.slots.map Slot.id := by
    have last : p.scope = p.declarations ++ p.methods.map Method.declaration ++ [] :=
      (List.append_nil _).symm
    refine Context.declarers_along (fun m hm c current after h' hscope => ?_) p.scoped_afterFields
      last
    have alone := (sublist_flatMap_of_mem hm).nodup (nodup_methods h)
    exact ⟨m.declarers_events h' alone hscope hnodup, m.scoped_next h'⟩
  rw [successes, map_id_filter, declarations, List.flatMap_append, List.flatMap_cons,
    List.flatMap_map, List.flatMap_map, ← List.append_assoc]
  rw [events, Event.declarers_append, Event.declarers_append, Event.declarers_append, externs,
    named, fields, methods]
  rfl

end Declarers

/-! ### The check -/

namespace CompilationUnit

/-- The symbol that the node `id` is linked to. -/
def linked? (u : CompilationUnit) (id : NodeId) : Option Symbol := do
  let n ← u.tree.nodes[id.index]?
  let number ← n.symbol
  u.table.store[number.index]?

/-- The variables of a method are laid out in a frame of `words` words. -/
structure LaysOut (u : CompilationUnit) (vs : List Slot) (words : Nat) : Prop where
  entered : ∀ v ∈ vs, ∃ e, u.linked? v.id = some e ∧ e.size = v.words
  /-- Variables that can be live at the same time share no word. -/
  apart : vs.Pairwise fun v w => v.Together w → ∀ e f, u.linked? v.id = some e →
    u.linked? w.id = some f → e.Apart f
  inside : ∀ v ∈ vs, ∀ e, u.linked? v.id = some e →
    frameHeaderWords ≤ e.offset ∧ e.offset + e.size ≤ words
  /-- No word is wasted at the end. -/
  exact : words = max frameHeaderWords (extent (vs.filterMap fun v => u.linked? v.id))

/-- A layout of what the nodes are linked to. -/
theorem laysOut_of_layout {u : CompilationUnit} {vs : List Slot} {es : List Event}
    {placed : List (Slot × Symbol)} (h : Layout frameHeaderWords vs es placed)
    (hentry : ∀ x ∈ entries es, u.linked? x.1 = some x.2) :
    u.LaysOut vs (max frameHeaderWords (extent (Event.declared es))) := by
  have found : ∀ x ∈ placed, u.linked? x.1.id = some x.2 := fun x hx =>
    hentry (x.1.id, x.2) (h.entries ▸ List.mem_map_of_mem (f := fun x => (x.1.id, x.2)) hx)
  have declared : Event.declared es = placed.map Prod.snd := by
    rw [Event.declared_eq_map_entries, ← h.entries, List.map_map]
    rfl
  rw [← h.slots, declared]
  constructor
  · refine List.forall_mem_map.2 fun x hx => ?_
    exact ⟨x.2, found x hx, h.size x hx⟩
  · rw [List.pairwise_map]
    refine h.apart.imp_of_mem fun hx hy hapart together e f he hf => ?_
    rw [found _ hx] at he
    rw [found _ hy] at hf
    cases he
    cases hf
    exact hapart together
  · refine List.forall_mem_map.2 fun x hx e he => ?_
    rw [found x hx] at he
    cases he
    refine ⟨h.start_le x hx, ?_⟩
    exact Nat.le_trans (le_extent (List.mem_map_of_mem hx)) (Nat.le_max_right ..)
  · have entered : (placed.map Prod.fst).filterMap (fun v => u.linked? v.id) =
        placed.map Prod.snd := by
      rw [List.filterMap_map]
      exact List.filterMap_eq_map_iff_forall_eq_some.2 found
    rw [entered]

variable {u : CompilationUnit} {p : Program}

/-- After the check of a program each node that declares a symbol is linked to it. -/
theorem Holds.linked?_eq (h : u.Holds p) {checked : CompilationUnit}
    (htree : checked.tree = u.tree.annotate p.events)
    (hstore : checked.table.store = (Event.declared p.events).toArray) :
    ∀ x ∈ entries p.events, checked.linked? x.1 = some x.2 := by
  intro x hx
  obtain ⟨number, hmem⟩ := Event.mem_entries (show (x.1, x.2) ∈ _ from hx)
  obtain ⟨⟨n, hn, hsymbol⟩, hentry⟩ := h.entry_of_declare hmem
  rw [← htree, Tree.node_eq_ok_iff] at hn
  simp [linked?, hn, hsymbol, hstore, hentry]

/-- The size that is left on the node of a method. -/
theorem Holds.size_of_method (h : u.Holds p) {m : Method} {c c' : Context}
    {before after : List Method} {ahead : List Event} (hsplit : p.methods = before ++ m :: after)
    (hevents : p.events = ahead ++ m.events c ++ c'.along Method.events Method.next after) :
    (u.tree.annotate p.events).Has m.id fun n => n.size = m.words c := by
  have hm : m.id ∈ p.methods.flatMap Method.ids :=
    List.mem_flatMap.2 ⟨m, by simp [hsplit], by simp [Method.ids]⟩
  obtain ⟨n, hn⟩ := Tree.node_ok_of_lt (h.held.lt_size m.id (by simp [Program.ids, hm]))
  refine ⟨_, Tree.node_annotate p.events hn, ?_⟩
  have alone := Program.nodup_methods h.alone
  rw [hsplit, List.flatMap_append, List.flatMap_cons] at alone
  have apart := (List.nodup_append.1 (List.nodup_append.1 alone).2.1).2.2
  have last : p.events = (ahead ++ c.declaring m.id (m.symbol c (m.words c)) ++ m.inside c) ++
      .size m.id (m.words c) :: c'.along Method.events Method.next after := by
    simp [hevents, Method.events]
  rw [last]
  refine Node.size_marked fun e he heq => ?_
  exact apart m.id (by simp [Method.ids]) e.node
    (Context.node_mem_along (fun m _ c => m.node_mem_ids c) c' e he) heq.symm

/-- The layout of a method after a check. -/
theorem Holds.laysOut_method (h : u.Holds p) {checked : CompilationUnit}
    (htree : checked.tree = u.tree.annotate p.events)
    (hstore : checked.table.store = (Event.declared p.events).toArray) {m : Method}
    (hm : m ∈ p.methods) :
    ∃ words, checked.tree.Has m.id (fun n => n.size = words) ∧
      (m.declaration.Succeeds p.scope →
        ∃ e, checked.linked? m.id = some e ∧ e.size = words) ∧
      checked.LaysOut m.slots words := by
  obtain ⟨c, before, after, ahead, hsplit, scope, hevents⟩ := Program.reaches hm
  have hentry : ∀ x ∈ entries (m.events c), checked.linked? x.1 = some x.2 := by
    intro x hx
    refine h.linked?_eq htree hstore x ?_
    rw [hevents, entries_append, entries_append]
    exact List.mem_append_left _ (List.mem_append_right _ hx)
  refine ⟨m.words c, htree ▸ h.size_of_method hsplit hevents, fun hname => ?_, ?_⟩
  · have split : p.scope = p.declarations ++ before.map Method.declaration ++
        m.declaration :: after.map Method.declaration := by
      simp [Program.scope, hsplit]
    have free : ¬ c.Taken m.name :=
      ((scope.succeeds_iff split (Program.nodup_scope h.alone)).1 hname).2
    have named : c.declaring m.id (m.symbol c (m.words c)) = [.declare m.id ⟨c.count⟩ _] :=
      Context.declaring_of_not_taken free
    refine ⟨m.symbol c (m.words c), hentry (m.id, _) ?_, rfl⟩
    rw [Method.events, named, List.append_assoc, List.singleton_append]
    exact List.mem_cons_self ..
  · have alone : m.ids.Nodup :=
      (sublist_flatMap_of_mem hm).nodup (Program.nodup_methods h.alone)
    obtain ⟨placed, hplaced⟩ := m.layout scope alone
    rw [Method.words_eq]
    refine laysOut_of_layout hplaced fun x hx => hentry x ?_
    rw [Method.events, entries_append, entries_append]
    exact List.mem_append_left _ (List.mem_append_right _ hx)

/-- The layout of the fields after a check. -/
theorem Holds.consecutive_fields (h : u.Holds p) {checked : CompilationUnit}
    (htree : checked.tree = u.tree.annotate p.events)
    (hstore : checked.table.store = (Event.declared p.events).toArray) :
    (∀ d ∈ VarDecl.admitted p.scope p.fields,
      ∃ e, checked.linked? d.id = some e ∧ e.size = d.words) ∧
    ∃ stop, Consecutive 0
      ((VarDecl.admitted p.scope p.fields).filterMap fun d => checked.linked? d.id) stop := by
  have split : p.scope = (p.externs.map Extern.declaration ++ [⟨p.package, p.name, true⟩]) ++
      p.fields.map VarDecl.declaration ++ p.methods.map Method.declaration := by
    simp [Program.scope, Program.declarations]
  obtain ⟨placed, hfst, hentries, hsize, hwords⟩ :=
    VarDecl.placed_along p.scoped_afterName split (Program.nodup_scope h.alone)
  have found : ∀ x ∈ placed, checked.linked? x.1.id = some x.2 := by
    intro x hx
    have hmem : (x.1.id, x.2) ∈ entries p.events := by
      rw [Program.events, entries_append, entries_append, ← hentries]
      exact List.mem_append_left _ (List.mem_append_right _
        (List.mem_map_of_mem (f := fun x => (x.1.id, x.2)) hx))
    exact h.linked?_eq htree hstore _ hmem
  have entered : (placed.map Prod.fst).filterMap (fun d => checked.linked? d.id) =
      placed.map Prod.snd := by
    rw [List.filterMap_map]
    exact List.filterMap_eq_map_iff_forall_eq_some.2 found
  rw [← hfst, entered]
  rw [Check.frame_afterName] at hwords
  exact ⟨List.forall_mem_map.2 fun x hx => ⟨x.2, found x hx, hsize x hx⟩, _, hwords⟩

/-- The table holds the symbols of the declarations that have success, and no others. -/
theorem Holds.store_eq (h : u.Holds p) {checked : CompilationUnit}
    (htree : checked.tree = u.tree.annotate p.events)
    (hstore : checked.table.store = (Event.declared p.events).toArray) :
    checked.table.store.toList = p.successes.filterMap checked.linked? := by
  rw [hstore, ← Program.declarers_events h.alone, Event.declarers, List.filterMap_map,
    Event.declared_eq_map_entries]
  exact (List.filterMap_eq_map_iff_forall_eq_some.2 (h.linked?_eq htree hstore)).symm

/-- **The layout of storage.** The check of a program comes to an end, whatever is wrong with the
program. The declarations that have success are linked to their symbols then, and there are no
other symbols. Each method is left with a size, its symbol with the same size if there is one, and
its variables are laid out in a frame of that size. The fields of the package occupy consecutive
words from `0` on. -/
theorem layout_of_check (h : u.Holds p) :
    ∃ diagnostics checked, u.check = .ok (diagnostics, checked) ∧
      checked.table.store.toList = p.successes.filterMap checked.linked? ∧
      (∀ m ∈ p.methods, ∃ words, checked.tree.Has m.id (fun n => n.size = words) ∧
        (m.declaration.Succeeds p.scope →
          ∃ e, checked.linked? m.id = some e ∧ e.size = words) ∧
        checked.LaysOut m.slots words) ∧
      (∀ d ∈ VarDecl.admitted p.scope p.fields,
        ∃ e, checked.linked? d.id = some e ∧ e.size = d.words) ∧
      ∃ stop, Consecutive 0
        ((VarDecl.admitted p.scope p.fields).filterMap fun d => checked.linked? d.id) stop :=
  ⟨_, _, check_eq h, h.store_eq rfl rfl, fun _ hm => h.laysOut_method rfl rfl hm,
    h.consecutive_fields rfl rfl⟩

theorem layout_of_check_shadowing :
    shadowingUnit.Holds shadowing ∧
      ∃ diagnostics checked, shadowingUnit.check = .ok (diagnostics, checked) ∧
        ∃ words, checked.tree.Has ⟨3⟩ (fun n => n.size = words) ∧
          checked.LaysOut [⟨⟨4⟩, 1, []⟩, ⟨⟨6⟩, 2, [⟨5⟩]⟩, ⟨⟨9⟩, 1, [⟨5⟩, ⟨8⟩]⟩] words := by
  obtain ⟨diagnostics, checked, hcheck, -, hmethods, -⟩ := layout_of_check holds_shadowing
  obtain ⟨words, hsize, -, hlayout⟩ := List.forall_mem_singleton.1 hmethods
  exact ⟨holds_shadowing, diagnostics, checked, hcheck, words, hsize, hlayout⟩

end CompilationUnit

end DecafStatics
