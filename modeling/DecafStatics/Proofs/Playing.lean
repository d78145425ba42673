import DecafStatics.Proofs.Context
import DecafStatics.Proofs.Held

/-!
# Checks that play a list of events

`Check.Plays t s m a es c` says of the computation `m` that from the state `s` it comes to an end
with the result `a`, leaves exactly the events `es` behind, and stands at the context `c` then. It
is total: a computation that plays something runs into no fault.

`Checker.Stands` ties a state to a context. The symbols in sight are the bindings, the rest of the
position is the context's, and the text of the tree is that of `t`, the tree before the check.
What a tree holds is a matter of its text, so it can be stated of `t` once and for all.

## Implementation notes

Only the operations of a check are treated here. The rules are built from them by `Plays.bind`,
which appends the lists of events.

## Main definitions

* `Checker.seat` — the state, taken to a context
* `Context.Sound`, `Checker.Stands` — being at a context
* `Check.Plays` — coming to an end with a list of events

## Main results

* `Checker.Stands.lookup_eq` — a name denotes the most recent binding of it
* `Check.Plays.bind` — what is played one after the other
* `Check.plays_declare`, `Check.plays_declareStored`, `Check.plays_closeScope` — declaring, and
  leaving a scope
-/

namespace DecafStatics

/-- The chain from a head are nodes with these types, which are text. -/
def Tree.HasFormals (t : Tree) (head : Option NodeId) (formals : List Ty) : Prop :=
  ∃ params : List (NodeId × Ty), params.map Prod.snd = formals ∧
    t.Linked head (params.map Prod.fst) ∧
      ∀ param ∈ params, t.Has param.1 fun n => n.kind.isExpression = false ∧ n.ty = some param.2

theorem Tree.HasFormals.of_bare_eq {t u : Tree} (h : u.bare = t.bare) {head : Option NodeId}
    {formals : List Ty} (hf : t.HasFormals head formals) : u.HasFormals head formals := by
  obtain ⟨params, htypes, hlinked, hhas⟩ := hf
  refine ⟨params, htypes, hlinked.of_bare_eq h, fun param hp => ?_⟩
  refine (hhas param hp).of_bare_eq h fun n m hb hn => ?_
  rwa [Node.kind_of_bare_eq hb, Node.ty_of_bare_eq hb hn.1]

/-- A context that can be met with. The scopes further out come later, and what can be called has
its parameters in the tree. -/
structure Context.Sound (c : Context) (t : Tree) : Prop where
  formals : ∀ b ∈ c.bindings, b.symbol.kind.isCallable →
    t.HasFormals b.symbol.params b.formals
  nested : c.bindings.Pairwise fun a b => b.symbol.level ≤ a.symbol.level
  opened : c.Opened

/-- Soundness looks at what is in sight and at the level. -/
theorem Context.Sound.congr {c c' : Context} {t : Tree} (h : c.Sound t)
    (hb : c'.bindings = c.bindings) (hl : c.level ≤ c'.level) : c'.Sound t where
  formals := hb ▸ h.formals
  nested := hb ▸ h.nested
  opened := fun b hmem => Nat.le_trans (h.opened b (hb ▸ hmem)) hl

/-- A symbol at the current level can come into sight. -/
theorem Context.Sound.cons {c : Context} {t : Tree} (h : c.Sound t) {b : Binding}
    (hlevel : b.symbol.level = c.level)
    (hformals : b.symbol.kind.isCallable → t.HasFormals b.symbol.params b.formals) :
    ({ c with bindings := b :: c.bindings } : Context).Sound t where
  formals := List.forall_mem_cons.2 ⟨hformals, h.formals⟩
  nested := List.pairwise_cons.2 ⟨fun b' hb' => hlevel ▸ h.opened b' hb', h.nested⟩
  opened := List.forall_mem_cons.2 ⟨Nat.le_of_eq hlevel, h.opened⟩

namespace Checker

/-- The state taken to a context. What was left behind stays. -/
def seat (s : Checker) (c : Context) : Checker :=
  { s with
    level := c.level
    frame := c.frame
    loopDepth := c.loops
    method := c.method
    table := { s.table with live := c.bindings.map Binding.id } }

theorem seat_seat (s : Checker) (c c' : Context) : (s.seat c).seat c' = s.seat c' := rfl

theorem play_seat (s : Checker) (c : Context) (es : List Event) :
    (s.seat c).play es = (s.play es).seat c := rfl

theorem seat_play_append (s : Checker) (c c' : Context) (es fs : List Event) :
    (((s.play es).seat c).play fs).seat c' = (s.play (es ++ fs)).seat c' := by
  rw [play_append, play_seat, seat_seat]

/-- The state is at a context, with the text of `t`. -/
structure Stands (s : Checker) (t : Tree) (c : Context) : Prop where
  text : s.tree.bare = t.bare
  seated : s.seat c = s
  count : s.table.store.size = c.count
  stored : ∀ b ∈ c.bindings, s.table.store[b.id.index]? = some b.symbol
  sound : c.Sound t

namespace Stands

variable {s : Checker} {t : Tree} {c c' : Context} {id : NodeId}

theorem level_eq (hs : s.Stands t c) : s.level = c.level := (congrArg level hs.seated).symm

theorem frame_eq (hs : s.Stands t c) : s.frame = c.frame := (congrArg frame hs.seated).symm

theorem loopDepth_eq (hs : s.Stands t c) : s.loopDepth = c.loops :=
  (congrArg loopDepth hs.seated).symm

theorem method_eq (hs : s.Stands t c) : s.method = c.method := (congrArg method hs.seated).symm

theorem live_eq (hs : s.Stands t c) : s.table.live = c.bindings.map Binding.id :=
  (congrArg (fun s : Checker => s.table.live) hs.seated).symm

theorem size_eq (hs : s.Stands t c) : s.tree.size = t.size := Tree.size_of_bare_eq hs.text

/-- Playing events keeps what was in sight in sight. -/
theorem play (hs : s.Stands t c) {es : List Event}
    (htext : (s.tree.annotate es).bare = t.bare) :
    ((s.play es).seat (c.after es)).Stands t (c.after es) where
  text := htext
  seated := rfl
  count := by
    show (s.table.store ++ _).size = c.count + _
    simp [hs.count]
  stored := fun b hb => getElem?_store_play (hs.stored b hb)
  sound := hs.sound.congr rfl (Nat.le_refl _)

/-- Playing events that enter no symbol. -/
theorem play_quiet (hs : s.Stands t c) {es : List Event} (hd : Event.declared es = [])
    (htext : (s.tree.annotate es).bare = t.bare) : ((s.play es).seat c).Stands t c := by
  simpa only [Context.after_of_declared_eq_nil hd] using hs.play htext

/-- Going elsewhere, where nothing is in sight that was not. -/
theorem move (hs : s.Stands t c) (hsound : c'.Sound t) (hcount : c'.count = c.count)
    (hsub : ∀ b ∈ c'.bindings, b ∈ c.bindings) : (s.seat c').Stands t c' where
  text := hs.text
  seated := rfl
  count := by rw [hcount, ← hs.count]; rfl
  stored := fun b hb => hs.stored b (hsub b hb)
  sound := hsound

/-! ### What is in sight -/

theorem entries_eq (hs : s.Stands t c) :
    s.table.entries = c.bindings.map fun b => (b.id, b.symbol) := by
  have stored := hs.stored
  rw [SymbolTable.entries, hs.live_eq]
  generalize c.bindings = bindings at stored
  induction bindings with
  | nil => rfl
  | cons b rest ih =>
    obtain ⟨hb, hrest⟩ := List.forall_mem_cons.1 stored
    rw [List.map_cons, List.filterMap_cons, hb, ih hrest]
    rfl

theorem lookupAt_eq_none_iff (hs : s.Stands t c) {name : String} :
    s.table.lookupAt name c.level = none ↔ ¬ c.Taken name := by
  rw [SymbolTable.lookupAt_eq_none_iff, hs.entries_eq]
  simp [Context.Taken]

theorem lookup_of_find?_eq_none (hs : s.Stands t c) {name : String} (h : c.find? name = none) :
    s.table.lookup name s.level = none := by
  have absent := List.find?_eq_none.1 h
  have empty : (c.bindings.map fun b => (b.id, b.symbol)).filter
      (fun e => e.2.name = name ∧ e.2.level ≤ c.level) = [] := by
    rw [List.filter_eq_nil_iff]
    intro e he
    obtain ⟨b, hb, rfl⟩ := List.mem_map.1 he
    have := absent b hb
    simp_all
  rw [SymbolTable.lookup, SymbolTable.visibleLevels, hs.entries_eq, hs.level_eq, empty]
  rfl

/-- The most recent binding of a name is at the nearest level that the name is declared at. -/
theorem lookup_of_find?_eq_some (hs : s.Stands t c) {name : String} {b : Binding}
    (h : c.find? name = some b) : s.table.lookup name s.level = some b.id := by
  obtain ⟨hname, before, rest, hsplit, hbefore⟩ := List.find?_eq_some_iff_append.1 h
  have hname : b.symbol.name = name := by simpa using hname
  have hmem : b ∈ c.bindings := by simp [hsplit]
  have hbefore : ∀ a ∈ before, a.symbol.name ≠ name := fun a ha => by simpa using hbefore a ha
  have nested := hs.sound.nested
  rw [hsplit, List.pairwise_append, List.pairwise_cons] at nested
  rw [hs.level_eq]
  refine SymbolTable.lookup_eq_some_iff.2 ⟨b.symbol.level, hs.sound.opened b hmem, ?_, ?_⟩
  · rw [SymbolTable.lookupAt, hs.entries_eq, hsplit, List.map_append, List.find?_append,
      List.find?_eq_none.2, List.map_cons, List.find?_cons_of_pos (by simp [hname])]
    · rfl
    · intro e he
      obtain ⟨a, ha, rfl⟩ := List.mem_map.1 he
      simp [hbefore a ha]
  · -- a nearer level would have come first
    intro m _ hlt
    rw [SymbolTable.lookupAt_eq_none_iff, hs.entries_eq, hsplit]
    intro e he hlevel hname'
    obtain ⟨a, ha, rfl⟩ := List.mem_map.1 he
    rcases List.mem_append.1 ha with ha | ha
    · exact hbefore a ha hname'
    · rcases List.mem_cons.1 ha with rfl | ha
      · exact Nat.lt_irrefl _ (hlevel ▸ hlt)
      · have := nested.2.1.1 a ha
        simp only at hlevel
        omega

/-- A name denotes the most recent binding of it. -/
theorem lookup_eq (hs : s.Stands t c) (name : String) :
    s.table.lookup name s.level = (c.find? name).map Binding.id := by
  cases hfind : c.find? name with
  | none => exact hs.lookup_of_find?_eq_none hfind
  | some b => exact hs.lookup_of_find?_eq_some hfind

end Stands

end Checker

/-! ### Playing -/

namespace Check

variable {α β : Type}

/-- From `s`, with the text of `t`, the computation ends with `a` at the context `c`, and `es` is
what it leaves behind. -/
structure Plays (t : Tree) (s : Checker) (m : Check α) (a : α) (es : List Event) (c : Context) :
    Prop where
  run : m.run s = .ok (a, (s.play es).seat c)
  stands : ((s.play es).seat c).Stands t c

variable {t : Tree} {s : Checker} {c c₁ c₂ : Context} {id : NodeId}

/-- What is played one after the other. -/
theorem Plays.bind {m : Check α} {f : α → Check β} {a : α} {b : β} {es fs : List Event}
    (hm : Plays t s m a es c₁)
    (hf : ∀ s₁, s₁ = (s.play es).seat c₁ → s₁.Stands t c₁ → Plays t s₁ (f a) b fs c₂) :
    Plays t s (m >>= f) b (es ++ fs) c₂ := by
  obtain ⟨hrun, hstands⟩ := hf _ rfl hm.stands
  rw [Checker.seat_play_append] at hrun hstands
  exact ⟨by rw [run_bind_of_ok hm.run, hrun], hstands⟩

theorem Plays.congr {m : Check α} {a : α} {es fs : List Event} (hm : Plays t s m a es c)
    (h : es = fs) : Plays t s m a fs c := h ▸ hm

/-- A last step that leaves nothing behind and goes nowhere. -/
theorem plays_pure (hs : s.Stands t c) (a : α) : Plays t s (pure a) a [] c where
  run := by rw [Checker.play_nil, hs.seated]; rfl
  stands := by rwa [Checker.play_nil, hs.seated]

theorem Plays.map {m : Check α} {a : α} {es : List Event} (hm : Plays t s m a es c) (f : α → β) :
    Plays t s (m >>= fun x => pure (f x)) (f a) es c := by
  simpa using hm.bind (f := fun x => pure (f x)) fun s₁ _ hs₁ => plays_pure hs₁ (f a)

theorem Plays.discard {m : Check α} {a : α} {es : List Event} (hm : Plays t s m a es c) :
    Plays t s (discard m) () es c := hm.map fun _ => ()

/-- Reading the state. -/
theorem Plays.get {f : Checker → Check β} {b : β} {es : List Event}
    (h : Plays t s (f s) b es c) : Plays t s (MonadState.get >>= f) b es c :=
  ⟨h.run, h.stands⟩

/-- Reading a node. -/
theorem Plays.node {f : Node → Check β} {b : β} {es : List Event} {n : Node}
    (hn : s.tree.node id = .ok n) (h : Plays t s (f n) b es c) :
    Plays t s (Check.node id >>= f) b es c := by
  refine ⟨?_, h.stands⟩
  rw [run_bind_of_ok (run_node_eq_ok_iff.2 ⟨hn, rfl⟩), h.run]

/-- Reading what is known. -/
theorem Plays.lift {value : Except Fault α} {f : α → Check β} {a : α} {b : β} {es : List Event}
    (hv : value = .ok a) (h : Plays t s (f a) b es c) :
    Plays t s (liftM value >>= f) b es c := by
  refine ⟨?_, h.stands⟩
  rw [run_bind_of_ok (run_liftM_eq_ok_iff.2 ⟨hv, rfl⟩), h.run]

/-- Going to another place. -/
theorem plays_modify {f : Checker → Checker} (hs : s.Stands t c) (hf : f s = s.seat c₁)
    (hsound : c₁.Sound t) (hcount : c₁.count = c.count)
    (hsub : ∀ b ∈ c₁.bindings, b ∈ c.bindings) : Plays t s (modify f) ⟨⟩ [] c₁ where
  run := by rw [run_modify, hf, Checker.play_nil]
  stands := by
    rw [Checker.play_nil]
    exact hs.move hsound hcount hsub

theorem plays_report (hs : s.Stands t c) (problem : Problem) (h : id.index < t.size) :
    Plays t s (report problem id) () [.complain problem id] c := by
  have stays : (s.play [.complain problem id]).seat c = s.play [.complain problem id] := by
    rw [← Checker.play_seat, hs.seated]
  refine ⟨?_, hs.play_quiet rfl (by rw [Tree.annotate_complain, hs.text])⟩
  rw [run_report_eq_play problem (by rwa [hs.size_eq]), stays]

/-- Writing the mark of an event. -/
theorem plays_update {f : Node → Node} {e : Event} (hs : s.Stands t c) (he : e.node = id)
    (hf : ∀ n, f n = e.mark n) (hsymbol : e.symbol? = none) (hcomplaint : e.complaint? = none)
    (h : s.tree.Has id fun n => (f n).bare = n.bare) : Plays t s (update id f) () [e] c := by
  obtain ⟨n, hn, hbare⟩ := h
  have hlt := Tree.lt_of_node_eq_ok hn
  have stays : (s.play [e]).seat c = s.play [e] := by rw [← Checker.play_seat, hs.seated]
  have hdeclared : Event.declared [e] = [] := by simp [hsymbol]
  have text : (s.tree.annotate [e]).bare = t.bare := by
    rw [Tree.bare_update (Tree.update_eq_annotate he hf hlt), hs.text]
    intro m hm
    rw [hn] at hm
    cases hm
    exact hbare
  refine ⟨?_, hs.play_quiet hdeclared text⟩
  rw [run_update_eq_play he hf hsymbol hcomplaint hlt, stays]

theorem plays_size (hs : s.Stands t c) (words : Nat) (h : id.index < t.size) :
    Plays t s (update id fun n => { n with size := words }) () [.size id words] c := by
  obtain ⟨n, hn⟩ := Tree.node_ok_of_lt (by rwa [hs.size_eq] : id.index < s.tree.size)
  exact plays_update hs rfl (fun _ => rfl) rfl rfl ⟨n, hn, Node.bare_size n _⟩

/-! ### Declarations and scopes -/

/-- A name that is taken is not declared again, which is reported. -/
theorem plays_declare_of_taken (hs : s.Stands t c) {symbol : Symbol} (formals : List Ty)
    (h : id.index < t.size) (hlevel : symbol.level = c.level) (htaken : c.Taken symbol.name) :
    Plays t s (declare id symbol) none (c.declaring id symbol) (c.declare id symbol formals) := by
  obtain ⟨n, hn⟩ := Tree.node_ok_of_lt (by rwa [hs.size_eq] : id.index < s.tree.size)
  have insert : s.table.insert symbol n.position =
      .error ⟨.duplicateDeclaration symbol.name symbol.level, n.position⟩ := by
    refine SymbolTable.insert_eq_error_iff.2 ⟨?_, rfl⟩
    refine Option.isSome_iff_ne_none.2 fun hnone => ?_
    rw [hlevel, hs.lookupAt_eq_none_iff] at hnone
    exact hnone htaken
  have reported := (plays_report hs (.duplicateDeclaration symbol.name symbol.level) h).map
    fun _ => (none : Option SymbolId)
  have same : (add ⟨.duplicateDeclaration symbol.name symbol.level, n.position⟩).run s =
      (report (.duplicateDeclaration symbol.name symbol.level) id).run s := by
    rw [run_add, run_report, hn]
    rfl
  refine .node hn (.get ?_)
  rw [Context.declaring_of_taken htaken, Context.declare_of_taken htaken, insert]
  refine ⟨?_, reported.stands⟩
  rw [← reported.run, StateT.run_bind, StateT.run_bind, same]

/-- The mark of a declaration is the symbol that comes next. -/
theorem update_symbol (hs : s.Stands t c) (h : id.index < t.size) (symbol : Symbol) :
    s.tree.update id (fun n => { n with symbol := some ⟨c.count⟩ }) =
      .ok (s.tree.annotate [.declare id ⟨c.count⟩ symbol]) :=
  Tree.update_eq_annotate rfl (fun _ => rfl) (by rwa [hs.size_eq])

/-- A declaration puts its symbol behind all others and in front of what is in sight. -/
theorem stands_play_declare (hs : s.Stands t c) {symbol : Symbol} {formals : List Ty}
    (h : id.index < t.size) (hlevel : symbol.level = c.level)
    (hformals : symbol.kind.isCallable → t.HasFormals symbol.params formals)
    (hfree : ¬ c.Taken symbol.name) :
    ((s.play [.declare id ⟨c.count⟩ symbol]).seat (c.declare id symbol formals)).Stands t
      (c.declare id symbol formals) := by
  have mark := update_symbol hs h symbol
  rw [Context.declare_of_not_taken hfree]
  exact {
    text := by
      show (s.tree.annotate _).bare = t.bare
      rw [Tree.bare_update mark fun n _ => Node.bare_symbol n _, hs.text]
    seated := rfl
    count := by
      show (s.table.store ++ _).size = c.count + 1
      simp [Event.symbol?, hs.count]
    stored := by
      refine List.forall_mem_cons.2
        ⟨?_, fun b hb => Checker.getElem?_store_play (hs.stored b hb)⟩
      show (s.table.store ++ _)[c.count]? = some symbol
      simp [Event.symbol?, ← hs.count]
    sound := (hs.sound.cons hlevel hformals).congr rfl (Nat.le_refl _) }

/-- A name that is free is declared, and its symbol is the next one. -/
theorem plays_declare_of_not_taken (hs : s.Stands t c) {symbol : Symbol} {formals : List Ty}
    (h : id.index < t.size) (hlevel : symbol.level = c.level)
    (hformals : symbol.kind.isCallable → t.HasFormals symbol.params formals)
    (hfree : ¬ c.Taken symbol.name) :
    Plays t s (declare id symbol) (some ⟨c.count⟩) (c.declaring id symbol)
      (c.declare id symbol formals) := by
  have stands := stands_play_declare hs h hlevel hformals hfree
  obtain ⟨n, hn⟩ := Tree.node_ok_of_lt (by rwa [hs.size_eq] : id.index < s.tree.size)
  have free : s.table.lookupAt symbol.name symbol.level = none := by
    rwa [hlevel, hs.lookupAt_eq_none_iff]
  have insert : s.table.insert symbol n.position = .ok (⟨s.table.store.size⟩,
      { s.table with
        store := s.table.store.push symbol
        live := ⟨s.table.store.size⟩ :: s.table.live }) :=
    SymbolTable.insert_eq_ok_iff.2 ⟨free, rfl, rfl⟩
  refine .node hn (.get ?_)
  rw [Context.declaring_of_not_taken hfree, insert, hs.count]
  refine ⟨?_, stands⟩
  dsimp only
  rw [run_bind_of_ok (run_modify _ _), StateT.run_bind, run_update]
  dsimp only
  rw [update_symbol hs h symbol, Context.declare_of_not_taken hfree]
  refine congrArg (fun s : Checker => Except.ok (some (SymbolId.mk c.count), s)) ?_
  simp [Checker.play, Checker.seat, Event.symbol?, Event.complaint?, hs.level_eq,
    hs.frame_eq, hs.loopDepth_eq, hs.method_eq, hs.live_eq]

/-- Declaring a symbol at the current level, unless its name is taken. -/
theorem plays_declare (hs : s.Stands t c) {symbol : Symbol} {formals : List Ty}
    (h : id.index < t.size) (hlevel : symbol.level = c.level)
    (hformals : symbol.kind.isCallable → t.HasFormals symbol.params formals) :
    Plays t s (declare id symbol) (if c.Taken symbol.name then none else some ⟨c.count⟩)
      (c.declaring id symbol) (c.declare id symbol formals) := by
  by_cases htaken : c.Taken symbol.name
  · rw [if_pos htaken]
    exact plays_declare_of_taken hs formals h hlevel htaken
  · rw [if_neg htaken]
    exact plays_declare_of_not_taken hs h hlevel hformals htaken

theorem plays_allocate (hs : s.Stands t c) {words : Nat}
    (h : c.frame.offset + words < wordLimit) :
    Plays t s (allocate words) () [] { c with frame := c.frame.allocate words } := by
  have h : s.frame.offset + words < wordLimit := by rwa [hs.frame_eq]
  constructor
  · rw [run_allocate h, Checker.play_nil]
    refine congrArg (fun s => Except.ok ((), s)) ?_
    conv => lhs; rw [← hs.seated]
    rfl
  · rw [Checker.play_nil]
    exact hs.move (hs.sound.congr rfl (Nat.le_refl _)) rfl fun b hb => hb

/-- Declaring a symbol that takes up words of the frame, where there is room for them. -/
theorem plays_declareStored (hs : s.Stands t c) (h : id.index < t.size) (name : String) (ty : Ty)
    {kind : SymbolKind} (hkind : kind.isCallable = false) {size : Nat}
    (hroom : c.frame.offset + size < wordLimit) :
    Plays t s (declareStored id name ty kind size) () (c.storing id name ty kind size)
      (c.store id name ty kind size) := by
  have parts : c.storing id name ty kind size =
      [.size id size] ++ (c.declaring id (c.stored name ty kind size) ++ []) := by
    simp [Context.storing]
  rw [parts]
  refine (plays_size hs size h).bind fun s₁ _ hs₁ => .get ?_
  have uncallable : (c.stored name ty kind size).kind.isCallable →
      t.HasFormals (c.stored name ty kind size).params [] := by
    simp [Context.stored, hkind]
  have declared := plays_declare hs₁ h rfl uncallable
  rw [hs₁.level_eq, hs₁.frame_eq]
  refine declared.bind fun s₂ _ hs₂ => ?_
  by_cases htaken : c.Taken (c.stored name ty kind size).name
  · rw [if_pos htaken, Context.store_of_taken (show c.Taken name from htaken)]
    rw [Context.declare_of_taken htaken] at hs₂
    exact plays_pure hs₂ ()
  · rw [if_neg htaken, Context.store, if_neg (c := c.Taken name) htaken]
    have room : (c.declare id (c.stored name ty kind size) []).frame.offset + size < wordLimit := by
      simpa using hroom
    simpa using plays_allocate hs₂ room

theorem plays_openScope (hs : s.Stands t c) : Plays t s openScope () [] c.inner := by
  refine plays_modify hs ?_ (hs.sound.congr rfl (Nat.le_succ _)) rfl fun b hb => hb
  conv => lhs; rw [← hs.seated]
  rfl

/-- Leaving a scope, with what is declared in it and what is further out told apart. -/
theorem plays_closeScope (hs : s.Stands t c) {new old : List Binding}
    (hsplit : c.bindings = new ++ old) (hnew : ∀ b ∈ new, b.symbol.level = c.level)
    (hold : ∀ b ∈ old, b.symbol.level < c.level) (hlimit : Binding.words new < wordLimit) :
    Plays t s closeScope (Binding.words new) []
      { c with bindings := old, level := c.level - 1 } := by
  have entries := hs.entries_eq
  have inside : (c.bindings.map fun b => (b.id, b.symbol)).filter
      (fun e => c.level ≤ e.2.level) = new.map fun b => (b.id, b.symbol) := by
    rw [hsplit, List.map_append, List.filter_append, List.filter_eq_self.2,
      List.filter_eq_nil_iff.2, List.append_nil]
    · intro e he
      obtain ⟨b, hb, rfl⟩ := List.mem_map.1 he
      simpa using hold b hb
    · intro e he
      obtain ⟨b, hb, rfl⟩ := List.mem_map.1 he
      simp [hnew b hb]
  have outside : (c.bindings.map fun b => (b.id, b.symbol)).filter
      (fun e => e.2.level < c.level) = old.map fun b => (b.id, b.symbol) := by
    rw [hsplit, List.map_append, List.filter_append, List.filter_eq_nil_iff.2,
      List.filter_eq_self.2, List.nil_append]
    · intro e he
      obtain ⟨b, hb, rfl⟩ := List.mem_map.1 he
      simpa using hold b hb
    · intro e he
      obtain ⟨b, hb, rfl⟩ := List.mem_map.1 he
      simp [hnew b hb]
  have closed : s.table.closeScopes s.level =
      .ok (Binding.words new, { s.table with live := old.map Binding.id }) := by
    rw [SymbolTable.closeScopes, hs.level_eq, entries, inside, outside, ← Binding.words,
      if_pos hlimit]
    simp
  constructor
  · rw [run_closeScope_eq_ok_iff.2 ⟨_, closed, rfl⟩, Checker.play_nil]
    refine congrArg (fun s => Except.ok (Binding.words new, s)) ?_
    conv => lhs; rw [← hs.seated]
    rfl
  · rw [Checker.play_nil]
    refine hs.move ?_ rfl fun b hb => by simp [hsplit, hb]
    have nested := hs.sound.nested
    rw [hsplit, List.pairwise_append] at nested
    exact {
      formals := fun b hb => hs.sound.formals b (by simp [hsplit, hb])
      nested := nested.2.1
      opened := fun b hb => Nat.le_sub_one_of_lt (hold b hb) }

end Check

end DecafStatics
