import DecafStatics.Proofs.Walk

/-!
# Scope discipline

A check opens scopes and closes them, on trees of any shape: a method may stand in a block, a
package in a loop, a block in the place of an expression. Whatever stands where, a visit that
comes to an end leaves the nesting as it found it. The symbols that it has put in sight are at
the level that it started at, those of all deeper scopes are out of sight again, and nothing that
was there before has been touched.

Nothing has to be known of the tree. A tree that leads back into itself has visits without an
end, and about those there is nothing to say.

## Implementation notes

What is in sight is told apart by `SymbolTable.place`, the name and the level of a symbol. Leaving
a method writes to the store, but it writes the size of a symbol only, and that does not move the
symbol to another place.

## Main definitions

* `Checker.InScope` — the symbols in sight are those of the open scopes
* `Checker.Contained` — what a visit keeps

## Main results

* `Walk.contained` — a walk keeps it, by induction over what can happen
* `contained_of_visit` — the visit of a construct, and of a chain of constructs, keeps it
-/

namespace DecafStatics

/-- Where a symbol stands: its name and its level. -/
def SymbolTable.place (table : SymbolTable) (id : SymbolId) : Option (String × Nat) :=
  table.store[id.index]?.map fun e => (e.name, e.level)

namespace Checker

/-- Every symbol in sight is stored, and belongs to a scope that is open. -/
def InScope (s : Checker) : Prop :=
  ∀ id ∈ s.table.live, ∃ name level, s.table.place id = some (name, level) ∧ level ≤ s.level

/-- What a visit from `s` to `s'` keeps. -/
structure Contained (s s' : Checker) : Prop where
  /-- As many scopes are open as before. -/
  level : s'.level = s.level
  /-- As many loops are open as before. -/
  loopDepth : s'.loopDepth = s.loopDepth
  /-- Symbols are only added behind those that are there. -/
  store : s.table.store.toList <+: s'.table.store.toList
  /-- What is in sight in addition is new, belongs to the scope of the visit, and has a name that
  nothing else in sight has at that level. -/
  live : ∃ ids, s'.table.live = ids ++ s.table.live ∧ ids.Nodup ∧ ∀ id ∈ ids,
    s.table.store.size ≤ id.index ∧
      (∃ name, s'.table.place id = some (name, s.level)) ∧
      ∀ other ∈ s'.table.live, s'.table.place other = s'.table.place id → other = id
  /-- What is added takes up storage, and has parameters only if it can be called. -/
  appended : ∀ i e, s.table.store.size ≤ i → s'.table.store[i]? = some e →
    1 ≤ e.size ∧ (e.params.isSome → e.kind.isCallable)
  /-- Diagnostics are only added behind those that are there. -/
  diagnostics : s.diagnostics.toList <+: s'.diagnostics.toList

end Checker

/-! ### Operations on the table -/

/-- A prefix has the entries that it has. -/
theorem getElem?_of_extends {α : Type} {a b : Array α} (h : a.toList <+: b.toList) {i : Nat}
    (hi : i < a.size) : b[i]? = a[i]? := by
  obtain ⟨rest, hrest⟩ := h
  rw [← Array.getElem?_toList, ← Array.getElem?_toList, ← hrest,
    List.getElem?_append_left (by simpa using hi)]

theorem prefix_iff_getElem? {α : Type} {a b : Array α} :
    a.toList <+: b.toList ↔ a.size ≤ b.size ∧ ∀ i < a.size, b[i]? = a[i]? := by
  constructor
  · intro h
    exact ⟨by simpa using h.length_le, fun i hi => getElem?_of_extends h hi⟩
  · rintro ⟨-, hget⟩
    rw [List.prefix_iff_getElem?]
    intro i hi
    have hi : i < a.size := by simpa using hi
    simpa [hi] using hget i hi

namespace SymbolTable

variable {table table' : SymbolTable}

theorem place_eq_some_iff {id : SymbolId} {name : String} {level : Nat} :
    table.place id = some (name, level) ↔
      ∃ e, table.store[id.index]? = some e ∧ e.name = name ∧ e.level = level := by
  simp [place]

theorem place_of_extends (h : table.store.toList <+: table'.store.toList) {id : SymbolId}
    (hid : id.index < table.store.size) : table'.place id = table.place id := by
  rw [place, place, getElem?_of_extends h hid]

theorem lt_size_of_place {id : SymbolId} {spot : String × Nat} (h : table.place id = some spot) :
    id.index < table.store.size := by
  obtain ⟨e, he, -⟩ := Option.map_eq_some_iff.1 h
  exact (Array.getElem?_eq_some_iff.1 he).1

/-- A name that is free at a level has no place there. -/
theorem place_ne_of_lookupAt {name : String} {level : Nat} (h : table.lookupAt name level = none)
    {id : SymbolId} (hid : id ∈ table.live) : table.place id ≠ some (name, level) := by
  intro hplace
  obtain ⟨e, he, hname, hlevel⟩ := place_eq_some_iff.1 hplace
  exact lookupAt_eq_none_iff.1 h (id, e) (mem_entries.2 ⟨hid, he⟩) hlevel hname

/-- Leaving a scope keeps the store, and of what is in sight the part that is further out. -/
theorem closeScopes_eq_ok {level reclaimed : Nat}
    (h : table.closeScopes level = .ok (reclaimed, table')) :
    table'.store = table.store ∧ table'.live =
      table.live.filter fun id => table.store[id.index]?.any fun e => e.level < level := by
  simp only [closeScopes] at h
  split at h
  · cases h
    refine ⟨rfl, ?_⟩
    dsimp only [entries]
    induction table.live with
    | nil => rfl
    | cons id live ih =>
      cases he : table.store[id.index]? with
      | none => simpa [he] using ih
      | some e => by_cases hlt : e.level < level <;> simpa [he, hlt] using ih
  · cases h

theorem resize_live {symbol : Option SymbolId} {words : Nat}
    (h : table.resize symbol words = .ok table') : table'.live = table.live := by
  cases symbol with
  | none =>
    cases h
    rfl
  | some id =>
    simp only [resize, update] at h
    split at h
    · cases h
      rfl
    · cases h

/-- Resizing changes nothing but the size of one symbol. -/
theorem resize_store {symbol : Option SymbolId} {words : Nat}
    (h : table.resize symbol words = .ok table') (i : Nat) :
    table'.store[i]? = table.store[i]?.map fun e =>
      if ∃ id ∈ symbol, id.index = i then { e with size := words } else e := by
  cases symbol with
  | none =>
    cases h
    simp
  | some id =>
    simp only [resize, update] at h
    split at h
    · cases h
      by_cases heq : id.index = i
      · subst heq
        simp [Array.getElem?_modify]
      · simp [Array.getElem?_modify, heq]
    · cases h

theorem resize_place {symbol : Option SymbolId} {words : Nat}
    (h : table.resize symbol words = .ok table') (id : SymbolId) :
    table'.place id = table.place id := by
  rw [place, place, resize_store h, Option.map_map]
  congr 1
  funext e
  simp only [Function.comp]
  split <;> rfl

theorem resize_size {symbol : Option SymbolId} {words : Nat}
    (h : table.resize symbol words = .ok table') : table'.store.size = table.store.size := by
  refine Nat.le_antisymm ?_ ?_
  · have := resize_store h table.store.size
    simpa using this
  · have := resize_store h table'.store.size
    simpa using this.symm

/-- Resizing a symbol leaves alone the symbols that are stored before it. -/
theorem resize_extends {earlier : Array Symbol} {symbol : Option SymbolId} {words : Nat}
    (h : table.resize symbol words = .ok table')
    (hearlier : earlier.toList <+: table.store.toList)
    (hbehind : ∀ id ∈ symbol, earlier.size ≤ id.index) :
    earlier.toList <+: table'.store.toList := by
  rw [prefix_iff_getElem?] at hearlier ⊢
  refine ⟨by simpa [resize_size h] using hearlier.1, fun i hi => ?_⟩
  have other : ¬ ∃ id ∈ symbol, id.index = i := by
    rintro ⟨id, hid, rfl⟩
    exact Nat.not_lt_of_le (hbehind id hid) hi
  rw [resize_store h, hearlier.2 i hi]
  simp only [if_neg other, Option.map_id_fun', id]

end SymbolTable

/-! ### Visits -/

namespace Checker

variable {s s₁ s₂ s' : Checker}

theorem InScope.lt_size (hs : s.InScope) : ∀ id ∈ s.table.live, id.index < s.table.store.size := by
  intro id hid
  obtain ⟨name, level, hplace, -⟩ := hs id hid
  exact SymbolTable.lt_size_of_place hplace

/-- The scopes that were open are open inside of another one. -/
theorem InScope.deeper (hs : s.InScope) (htable : s'.table = s.table)
    (hlevel : s.level ≤ s'.level) :
    s'.InScope := by
  intro id hid
  rw [htable] at hid
  obtain ⟨name, level, hplace, hle⟩ := hs id hid
  exact ⟨name, level, by rw [htable, hplace], Nat.le_trans hle hlevel⟩

namespace Contained

/-- What touches neither the nesting nor the table is contained. -/
theorem of_table_eq (hlevel : s'.level = s.level) (hloop : s'.loopDepth = s.loopDepth)
    (htable : s'.table = s.table) (hd : s.diagnostics.toList <+: s'.diagnostics.toList) :
    s.Contained s' where
  level := hlevel
  loopDepth := hloop
  store := htable ▸ List.prefix_refl _
  live := ⟨[], by simp [htable]⟩
  appended := by
    intro i e hi he
    rw [htable] at he
    exact absurd (Array.getElem?_eq_some_iff.1 he).1 (Nat.not_lt_of_le hi)
  diagnostics := hd

theorem place_eq (h : s.Contained s') {id : SymbolId} (hid : id.index < s.table.store.size) :
    s'.table.place id = s.table.place id :=
  SymbolTable.place_of_extends h.store hid

theorem size_le (h : s.Contained s') : s.table.store.size ≤ s'.table.store.size :=
  (prefix_iff_getElem?.1 h.store).1

/-- After a contained visit the symbols in sight are still those of the open scopes. -/
theorem inScope (h : s.Contained s') (hs : s.InScope) : s'.InScope := by
  obtain ⟨ids, hlive, -, hnew⟩ := h.live
  intro id hid
  rw [hlive, List.mem_append] at hid
  rw [h.level]
  rcases hid with hid | hid
  · obtain ⟨-, ⟨name, hplace⟩, -⟩ := hnew id hid
    exact ⟨name, s.level, hplace, Nat.le_refl _⟩
  · obtain ⟨name, level, hplace, hle⟩ := hs id hid
    exact ⟨name, level, by rw [h.place_eq (hs.lt_size id hid), hplace], hle⟩

/-- What is added by two visits is added by one of them. The second one starts from the table that
the first one has left. -/
theorem appended_of_appended {inner : Checker} (h₁ : s.Contained s₁)
    (h₂ : inner.Contained s₂) (htable : inner.table = s₁.table) :
    ∀ i e, s.table.store.size ≤ i → s₂.table.store[i]? = some e →
      1 ≤ e.size ∧ (e.params.isSome → e.kind.isCallable) := by
  intro i e hi he
  by_cases hlt : i < inner.table.store.size
  · rw [getElem?_of_extends h₂.store hlt, htable] at he
    exact h₁.appended i e hi he
  · exact h₂.appended i e (Nat.le_of_not_lt hlt) he

/-- Contained visits one after the other are a contained visit. What the first one has put in
sight stays alone in its place, since what the second one adds is alone in its own. -/
theorem trans (hs : s.InScope) (h₁ : s.Contained s₁) (h₂ : s₁.Contained s₂) : s.Contained s₂ := by
  obtain ⟨ids₁, hlive₁, hnodup₁, hnew₁⟩ := h₁.live
  obtain ⟨ids₂, hlive₂, hnodup₂, hnew₂⟩ := h₂.live
  have hlt₁ := (h₁.inScope hs).lt_size
  have hsize := h₁.size_le
  refine ⟨h₂.level.trans h₁.level, h₂.loopDepth.trans h₁.loopDepth, h₁.store.trans h₂.store,
    ⟨ids₂ ++ ids₁, by rw [hlive₂, hlive₁, List.append_assoc], ?_, ?_⟩,
    h₁.appended_of_appended h₂ rfl, h₁.diagnostics.trans h₂.diagnostics⟩
  · refine List.nodup_append.2 ⟨hnodup₂, hnodup₁, fun a ha b hb heq => ?_⟩
    have hb := hlt₁ b (by simp [hlive₁, hb])
    have ha := (hnew₂ a ha).1
    rw [heq] at ha
    omega
  · intro id hid
    rcases List.mem_append.1 hid with hid | hid
    · obtain ⟨hge, ⟨name, hplace⟩, halone⟩ := hnew₂ id hid
      exact ⟨Nat.le_trans hsize hge, ⟨name, by rw [hplace, h₁.level]⟩, halone⟩
    · obtain ⟨hge, ⟨name, hplace⟩, halone⟩ := hnew₁ id hid
      have hmem : id ∈ s₁.table.live := by simp [hlive₁, hid]
      have hkept := h₂.place_eq (hlt₁ id hmem)
      refine ⟨hge, ⟨name, by rw [hkept, hplace]⟩, fun other hother heq => ?_⟩
      rw [hlive₂, List.mem_append] at hother
      rcases hother with hother | hother
      · exact ((hnew₂ other hother).2.2 id (by simp [hlive₂, hmem]) heq.symm).symm
      · refine halone other hother ?_
        rwa [h₂.place_eq (hlt₁ other hother), hkept] at heq

/-- Declaring a symbol at the current level is contained. -/
theorem of_insert {symbol : Symbol} {position : Position} {id : SymbolId} {table : SymbolTable}
    (hs : s.InScope) (h : s.table.insert symbol position = .ok (id, table))
    (hlevel : symbol.level = s.level) (hsize : 1 ≤ symbol.size)
    (hparams : symbol.params.isSome → symbol.kind.isCallable) :
    s.Contained { s with table := table } := by
  obtain ⟨hfree, rfl, rfl⟩ := SymbolTable.insert_eq_ok_iff.1 h
  have hpushed : s.table.store.toList <+: (s.table.store.push symbol).toList := by simp
  refine ⟨rfl, rfl, hpushed, ⟨[⟨s.table.store.size⟩], rfl, by simp, ?_⟩, ?_, by simp⟩
  · intro id hid
    obtain rfl := List.mem_singleton.1 hid
    refine ⟨Nat.le_refl _, ⟨symbol.name, ?_⟩, fun other hother heq => ?_⟩
    · simp [SymbolTable.place, hlevel]
    · rcases List.mem_cons.1 hother with rfl | hother
      · rfl
      · have kept : SymbolTable.place ⟨s.table.store.push symbol, ⟨s.table.store.size⟩ ::
            s.table.live, s.table.temporaries⟩ other = s.table.place other :=
          SymbolTable.place_of_extends hpushed (hs.lt_size other hother)
        refine absurd ?_ (SymbolTable.place_ne_of_lookupAt hfree hother)
        rw [← kept, heq]
        simp [SymbolTable.place]
  · intro i e hi he
    simp only [Array.getElem?_push] at he
    split at he
    · cases he
      exact ⟨hsize, hparams⟩
    · exact absurd (Array.getElem?_eq_some_iff.1 he).1 (Nat.not_lt_of_le hi)

end Contained

end Checker

namespace Walk

variable {s s' : Checker}

/-- The frame only grows until it is left. -/
theorem peak_le (h : Walk s s') : s.frame.peak ≤ s'.frame.peak := by
  induction h with
  | refl => exact Nat.le_refl _
  | trans _ _ ih₁ ih₂ => exact Nat.le_trans ih₁ ih₂
  | report => exact Nat.le_refl _
  | annotate => exact Nat.le_refl _
  | declare => exact Nat.le_refl _
  | allocate => exact Nat.le_max_left _ _
  | enter => exact Nat.le_refl _
  | loop _ ih => exact ih
  | block _ _ ih => exact ih
  | method _ _ _ _ _ _ ih => exact ih

/-- Leaving the scopes that a contained visit has opened leaves in sight what was in sight. -/
theorem live_of_closeScopes {table table' : SymbolTable} {old ids : List SymbolId}
    {level reclaimed : Nat} (h : table.closeScopes (level + 1) = .ok (reclaimed, table'))
    (hlive : table.live = ids ++ old)
    (hids : ∀ id ∈ ids, ∃ name, table.place id = some (name, level + 1))
    (hold : ∀ id ∈ old, ∃ name l, table.place id = some (name, l) ∧ l ≤ level) :
    table'.live = old := by
  rw [(SymbolTable.closeScopes_eq_ok h).2, hlive, List.filter_append]
  have gone : ids.filter
      (fun id => table.store[id.index]?.any fun e => e.level < level + 1) = [] := by
    refine List.filter_eq_nil_iff.2 fun id hid => ?_
    obtain ⟨name, hplace⟩ := hids id hid
    obtain ⟨e, he, -, hlevel⟩ := SymbolTable.place_eq_some_iff.1 hplace
    simp [he, hlevel]
  have kept : old.filter
      (fun id => table.store[id.index]?.any fun e => e.level < level + 1) = old := by
    refine List.filter_eq_self.2 fun id hid => ?_
    obtain ⟨name, l, hplace, hle⟩ := hold id hid
    obtain ⟨e, he, -, hlevel⟩ := SymbolTable.place_eq_some_iff.1 hplace
    simpa [he, hlevel] using Nat.lt_succ_of_le hle
  rw [gone, kept, List.nil_append]

/-- A method is contained if its name and its inside are. Its size goes to a symbol that is new. -/
theorem contained_method {s s₁ s₂ : Checker} {frame outer : Frame} {symbol : Option SymbolId}
    {words reclaimed : Nat} {t : Tree} {resized table : SymbolTable} (hs : s.InScope)
    (named : s.Contained s₁)
    (inside : Checker.Contained { s₁ with frame := frame, level := s₁.level + 1 } s₂)
    (hfresh : ∀ id ∈ symbol, s.table.store.size ≤ id.index)
    (hresize : s₂.table.resize symbol words = .ok resized) (hwords : 1 ≤ words)
    (hclose : resized.closeScopes s₂.level = .ok (reclaimed, table)) :
    s.Contained { s₂ with
      tree := t, table := table, level := s₂.level - 1, frame := outer } := by
  have hs₁ := named.inScope hs
  obtain ⟨ids, hlive, -, hnew⟩ := inside.live
  obtain ⟨ids₁, hlive₁, hnodup₁, hnew₁⟩ := named.live
  rw [inside.level] at hclose
  have hstore := (SymbolTable.closeScopes_eq_ok hclose).1
  -- the places of what was in sight before the inside are those from before the inside
  have hplace : ∀ id ∈ s₁.table.live, resized.place id = s₁.table.place id := fun id hid => by
    rw [SymbolTable.resize_place hresize, inside.place_eq (hs₁.lt_size id hid)]
  have hback : table.live = s₁.table.live := by
    refine live_of_closeScopes hclose ((SymbolTable.resize_live hresize).trans hlive)
      (fun id hid => ?_) fun id hid => ?_
    · rw [SymbolTable.resize_place hresize]
      exact (hnew id hid).2.1
    · rw [hplace id hid]
      exact hs₁ id hid
  have hplace' : ∀ id ∈ table.live, table.place id = s₁.table.place id := fun id hid => by
    rw [← hplace id (hback ▸ hid), SymbolTable.place, SymbolTable.place, hstore]
  refine ⟨by simp [inside.level, named.level], inside.loopDepth.trans named.loopDepth, ?_,
    ⟨ids₁, hback.trans hlive₁, hnodup₁, fun id hid => ?_⟩, fun i e hi he => ?_,
    named.diagnostics.trans inside.diagnostics⟩
  · rw [hstore]
    exact SymbolTable.resize_extends hresize (named.store.trans inside.store) hfresh
  · obtain ⟨hge, ⟨name, hname⟩, halone⟩ := hnew₁ id hid
    have hmem : id ∈ table.live := by simp [hback, hlive₁, hid]
    refine ⟨hge, ⟨name, by rw [hplace' id hmem, hname]⟩, fun other hother heq => ?_⟩
    rw [hplace' other hother, hplace' id hmem] at heq
    exact halone other (hback ▸ hother) heq
  · rw [hstore, SymbolTable.resize_store hresize, Option.map_eq_some_iff] at he
    obtain ⟨e₂, he₂, rfl⟩ := he
    have hsound := named.appended_of_appended inside rfl i e₂ hi he₂
    split
    · exact ⟨hwords, hsound.2⟩
    · exact hsound

/-- **A walk keeps the nesting.** The induction is over what can happen in it. -/
theorem contained (h : Walk s s') (hs : s.InScope) : s.Contained s' := by
  induction h with
  | refl => exact .of_table_eq rfl rfl rfl (List.prefix_refl _)
  | trans _ _ ih₁ ih₂ => exact (ih₁ hs).trans hs (ih₂ ((ih₁ hs).inScope hs))
  | report => exact .of_table_eq rfl rfl rfl (by simp)
  | annotate => exact .of_table_eq rfl rfl rfl (List.prefix_refl _)
  | declare hinsert hlevel hsize hparams => exact .of_insert hs hinsert hlevel hsize hparams
  | allocate => exact .of_table_eq rfl rfl rfl (List.prefix_refl _)
  | enter => exact .of_table_eq rfl rfl rfl (List.prefix_refl _)
  | loop _ ih =>
    have inner := ih (hs.deeper rfl (Nat.le_refl _))
    exact { inner with
      loopDepth := by
        show _ - 1 = _
        rw [inner.loopDepth]
        rfl }
  | @block s s₁ reclaimed table _ hclose ih =>
    have inner := ih (hs.deeper rfl (Nat.le_succ _))
    obtain ⟨ids, hlive, -, hnew⟩ := inner.live
    rw [inner.level] at hclose
    have hstore := (SymbolTable.closeScopes_eq_ok hclose).1
    have hback : table.live = s.table.live := by
      refine live_of_closeScopes hclose hlive (fun id hid => (hnew id hid).2.1) fun id hid => ?_
      obtain ⟨name, level, hplace, hle⟩ := hs id hid
      exact ⟨name, level, by rw [inner.place_eq (hs.lt_size id hid), hplace], hle⟩
    refine ⟨by simp [inner.level], inner.loopDepth, ?_, ⟨[], by simp [hback]⟩, ?_,
      inner.diagnostics⟩
    · rw [hstore]
      exact inner.store
    · rw [hstore]
      exact inner.appended
  | method _ hfresh hinside hresize _ hclose ihname ihinside =>
    have named := ihname hs
    have inside := ihinside ((named.inScope hs).deeper rfl (Nat.le_succ _))
    have hwords : 1 ≤ _ := Nat.le_trans (by decide : 1 ≤ frameHeaderWords) hinside.peak_le
    exact contained_method hs named inside hfresh hresize hwords hclose

end Walk

namespace Check

/-- **Scope discipline.** A visit that comes to an end, of a construct or of a chain of
constructs, keeps the nesting of scopes and loops, the symbols, what is in sight of them, and
the diagnostics, whatever stands where in the tree. -/
theorem contained_of_visit {s s' : Checker} (hs : s.InScope) :
    (∀ id, (statement id).run s = .ok ((), s') → s.Contained s') ∧
      ∀ head, (statements head).run s = .ok ((), s') → s.Contained s' :=
  ⟨fun id h => (walks_statement id h).contained hs,
    fun head h => (walks_statements head h).contained hs⟩

/-- A method in the place of a loop's body. Its parameter and its local variable have the name of
a global one. -/
def methodInLoop : Tree := ⟨#[
  { Node.blank .loop with second := some ⟨1⟩ },
  { Node.blank .methodDecl with
    name := some "f", ty := some .int, first := some ⟨2⟩, second := some ⟨3⟩ },
  { Node.blank .parameter with name := some "x", ty := some .int },
  { Node.blank .block with first := some ⟨4⟩, second := some ⟨5⟩ },
  { Node.blank .variableDecl with name := some "x", ty := some .bool },
  { Node.blank .returnValue with first := some ⟨6⟩ },
  { Node.blank .reference with name := some "x" }]⟩

/-- A table with a global `x`. -/
def globalOnly : SymbolTable := ⟨#[⟨"x", .int, .scalar, 0, 1, 0, none⟩], [⟨0⟩], 0⟩

theorem contained_of_visit_methodInLoop :
    (Checker.start methodInLoop globalOnly).InScope ∧
      ∃ s', (statement ⟨0⟩).run (.start methodInLoop globalOnly) = .ok ((), s') ∧
        (Checker.start methodInLoop globalOnly).Contained s' := by
  have scope : (Checker.start methodInLoop globalOnly).InScope := by
    intro id hid
    obtain rfl := List.mem_singleton.1 hid
    exact ⟨"x", 0, rfl, Nat.le_refl 0⟩
  have ends : ((statement ⟨0⟩).run (.start methodInLoop globalOnly)).toBool = true := by
    decide +kernel
  refine ⟨scope, ?_⟩
  cases h : (statement ⟨0⟩).run (.start methodInLoop globalOnly) with
  | error fault => rw [h] at ends; cases ends
  | ok r => exact ⟨r.2, rfl, (contained_of_visit scope).1 ⟨0⟩ h⟩

end Check

end DecafStatics
