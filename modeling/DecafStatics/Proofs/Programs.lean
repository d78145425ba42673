import DecafStatics.CompilationUnit
import DecafStatics.Proofs.Checking
import DecafStatics.Proofs.Walk

/-!
# The check of a program

A compilation unit that holds a program is checked without a fault. What it is afterwards, and the
diagnostics, are `Program.events` played on the unit before.

## Implementation notes

A method is the one construct that writes to a symbol after having entered it: its frame is known
only behind its body. The transcript enters the symbol with that size from the start, which comes
to the same thing because nothing inside of the method asks for the size.

That handles are numbers of 32 bits is part of holding a program. It is what keeps the sum of all
storage within a machine word.

As for statements, the way through a program is shown once for all visits that go by the rules. What
the visits do besides may rely on properties of contexts, one for the inside of methods and one for
what is outside of them.

## Main definitions

* `Check.Tours` — visits that go by the rules all over a program
* `CompilationUnit.Holds` — holding a program that has not been checked

## Main results

* `Check.Tours.plays_method`, `Check.Tours.plays_root` — checking a method, and all of a program
* `CompilationUnit.check_eq` — checking a program
-/

namespace DecafStatics

/-- A unit whose root is a program, each node of it in one place, with nothing declared yet. -/
structure CompilationUnit.Holds (u : CompilationUnit) (p : Program) : Prop where
  fresh : u.table = .empty
  root : u.root = some p.id
  held : u.tree.HasProgram p
  alone : p.ids.Nodup
  addressable : ∀ id ∈ p.ids, id.index < maxHandles

namespace Method

variable {c : Context} {m : Method}

/-- The binding of a method that needs `words` words. -/
def binding (c : Context) (m : Method) (words : Nat) : Binding :=
  ⟨⟨c.count⟩, m.id, m.symbol c words, m.formals⟩

theorem scope_bindings (h : ¬ c.Taken m.name) :
    (m.scope c).bindings = m.binding c frameHeaderWords :: c.bindings := by
  rw [scope, Context.declare_of_not_taken (show ¬ c.Taken (m.symbol c _).name from h)]
  rfl

theorem next_bindings (h : ¬ c.Taken m.name) :
    (m.next c).bindings = m.binding c (m.words c) :: c.bindings := by
  rw [next, Context.declare_of_not_taken (show ¬ c.Taken (m.symbol c _).name from h)]
  rfl

end Method

namespace Program

/-- The context behind the name of a package that is checked in `c`. -/
def named (c : Context) (p : Program) : Context := c.declare p.package (p.symbol c) []

/-- The context behind a package that is checked in `c`. -/
def behind (c : Context) (p : Program) : Context :=
  p.methods.foldl Method.next (p.fields.foldl VarDecl.next (p.named c))

/-- What checking a package in `c` leaves behind. -/
def packageEvents (c : Context) (p : Program) : List Event :=
  c.declaring p.package (p.symbol c) ++ ((p.named c).along VarDecl.events VarDecl.next p.fields ++
    (p.fields.foldl VarDecl.next (p.named c)).along Method.events Method.next p.methods)

theorem events_eq (p : Program) : p.events =
    Context.start.along Extern.events Extern.next p.externs ++
      p.packageEvents p.afterExterns := by
  simp only [events, List.append_assoc]
  rfl

end Program

/-- What holds of a context and is not lost between the methods of a program. -/
structure Context.Outer (O : Context → Prop) : Prop where
  external : ∀ (c : Context) (e : Extern), O c → O (e.next c)
  named : ∀ (c : Context) (p : Program), O c → O (p.named c)
  field : ∀ (c : Context) (d : VarDecl), O c → O (d.next c)
  method : ∀ (c : Context) (m : Method), O c → O (m.next c)

theorem Context.outer_true : Outer fun _ => True :=
  ⟨fun _ _ _ => trivial, fun _ _ _ => trivial, fun _ _ _ => trivial, fun _ _ _ => trivial⟩

namespace Check

variable {t : Tree} {s : Checker} {c : Context} {id : NodeId}

/-! ### Names of what can be called -/

theorem hasFormals_of_hasExtern {e : Extern} (he : t.HasExtern e) :
    t.HasFormals (e.params.map Prod.fst).head? (e.params.map Prod.snd) := by
  obtain ⟨n, -, -, -, -, hlinked⟩ := he.node
  refine ⟨e.params, rfl, hlinked.head_eq ▸ hlinked, fun param hp => ?_⟩
  exact (he.params param hp).imp fun n hn => ⟨by rw [hn.1]; rfl, hn.2⟩

theorem plays_externDecl (hs : s.Stands t c) {e : Extern} (he : t.HasExtern e)
    (visit : NodeId → Check Unit) :
    Plays t s (node e.id >>= visitByKind visit e.id) () (e.events c) (e.next c) := by
  obtain ⟨n, hn, hkind, htext, hty, hlinked⟩ := (he.of_bare_eq hs.text).node
  have hlinked := hlinked.of_bare_eq hs.text.symm
  refine .node hn ?_
  have rule : visitByKind visit e.id n = externDecl e.id n := by
    simp only [visitByKind, hkind]
  rw [rule]
  refine .lift (declaredType_eq hty) (.get ?_)
  rw [hs.level_eq, htext, hlinked.head_eq]
  exact (plays_declare hs he.node.lt_size rfl fun _ => hasFormals_of_hasExtern he).discard

theorem plays_packageName (hs : s.Stands t c) {n : Node} (h : id.index < t.size) :
    Plays t s (packageName id n) ()
      (c.declaring id ⟨n.text, .void, .package, c.level, 1, 0, none⟩)
      (c.declare id ⟨n.text, .void, .package, c.level, 1, 0, none⟩ []) := by
  refine .get ?_
  rw [hs.level_eq]
  exact (plays_declare hs h rfl (by simp [SymbolKind.isCallable])).discard

/-! ### Methods -/

/-- Of two lists of new symbols that differ in the first, all others are the same. -/
theorem getElem?_append_cons_of_ne {α : Type} {a : Array α} {l : List α} {i : Nat}
    (h : i ≠ a.size) (x y : α) : (a ++ (x :: l).toArray)[i]? = (a ++ (y :: l).toArray)[i]? := by
  rw [Array.getElem?_append, Array.getElem?_append]
  split
  · rfl
  · obtain ⟨j, hj⟩ : ∃ j, i - a.size = j + 1 := ⟨i - a.size - 1, by omega⟩
    simp [hj]

theorem getElem?_append_cons_self {α : Type} (a : Array α) (x : α) (l : List α) :
    (a ++ (x :: l).toArray)[a.size]? = some x := by
  simp

/-- The table in which a symbol is resized that was the first of some new ones. -/
theorem modify_append_cons {α : Type} (a : Array α) (x : α) (l : List α) (f : α → α) :
    (a ++ (x :: l).toArray).modify a.size f = a ++ (f x :: l).toArray := by
  refine Array.ext_getElem? fun i => ?_
  rw [Array.getElem?_modify]
  by_cases hi : a.size = i
  · subst hi
    simp
  · rw [if_neg hi, getElem?_append_cons_of_ne (Ne.symm hi)]

section Method

variable {m : Method} {n : Node} {declare visit : NodeId → Check Unit} {J : Context → Prop}
  {k : Nat} (hm : t.HasMethod m)

include hm

theorem hasFormals_of_hasMethod : t.HasFormals (m.params.map Param.id).head? m.formals := by
  obtain ⟨n, -, -, -, -, hlinked, -⟩ := hm.node
  refine ⟨m.params.map fun param => (param.id, param.ty), ?_, ?_, fun param hp => ?_⟩
  · rw [List.map_map]
    rfl
  · rw [List.map_map]
    exact hlinked.head_eq ▸ hlinked
  · obtain ⟨source, hsource, rfl⟩ := List.mem_map.1 hp
    exact (hm.params source hsource).imp fun n hn => ⟨by rw [hn.1]; rfl, hn.2.2⟩

theorem plays_methodName (hs : s.Stands t c) (htext : n.text = m.name)
    (hlinked : t.Linked n.first (m.params.map Param.id)) :
    Plays t s (methodName m.id n m.ty)
      (if c.Taken m.name then none else some ⟨c.count⟩)
      (c.declaring m.id (m.symbol c frameHeaderWords))
      (c.declare m.id (m.symbol c frameHeaderWords) m.formals) := by
  refine .get ?_
  rw [hs.level_eq, htext, hlinked.head_eq]
  exact plays_declare hs hm.node.lt_size rfl fun _ => hasFormals_of_hasMethod hm

omit hm in
/-- Entering a scope with a frame of its own. -/
theorem plays_openFrame (hs : s.Stands t c) (frame : Frame) :
    Plays t s (do
        modify fun s => { s with frame := frame }
        openScope) ⟨⟩ [] { c with level := c.level + 1, frame := frame } := by
  have framed : Plays t s (modify fun s => { s with frame := frame }) ⟨⟩ []
      { c with frame := frame } := by
    refine plays_modify hs ?_ (hs.sound.congr rfl (Nat.le_refl _)) rfl fun b hb => hb
    conv => lhs; rw [← hs.seated]
    rfl
  exact Plays.congr (framed.bind fun s₁ _ hs₁ => plays_openScope hs₁) (List.append_nil [])

omit hm in
theorem roomy_within {k : Nat} (hroom : (m.scope c).Roomy (m.params.length + k)) :
    (m.within c).Roomy k := by
  have params : (m.params.foldl Param.next (m.scope c)).Roomy k :=
    Context.roomy_foldl (fun _ _ _ h => h.store (by decide) ..) hroom
  exact params.mono rfl (Nat.le_refl k)

omit hm in
/-- The parameters of a method, where `J` says what their declarations may rely on. -/
theorem plays_parameters (hnext : ∀ (c : Context) (param : Param), J c → J (param.next c))
    (hs : s.Stands t c) (hJ : J c) {params : List Param}
    (hroom : c.Roomy (params.length + k))
    (hdeclare : ∀ param ∈ params, ∀ (s : Checker) (c : Context), s.Stands t c → J c → c.Roomy 1 →
      Plays t s (declare param.id) () (param.events c) (param.next c)) :
    Plays t s ((params.map Param.id).forM declare) ⟨⟩ (c.along Param.events Param.next params)
      (params.foldl Param.next c) := by
  refine plays_forM
    (fun c rest => J c ∧ c.Roomy (rest.length + k) ∧ ∀ param ∈ rest, param ∈ params)
    ?_ ⟨hJ, hroom, fun param hp => hp⟩ hs
  rintro c s param rest ⟨hJ, hroom, hmem⟩ hs
  obtain ⟨hp, hrest⟩ := List.forall_mem_cons.1 hmem
  have room : c.Roomy (rest.length + k + 1) := hroom.mono rfl (by rw [List.length_cons]; omega)
  exact ⟨hdeclare param hp s c hs hJ (room.mono rfl (by omega)), hnext c param hJ,
    room.store (by decide) .., hrest⟩

omit hm in
/-- The parameters of a method and its body, where visiting the body plays its events. -/
theorem plays_methodInside (hnext : ∀ (c : Context) (param : Param), J c → J (param.next c))
    (hs : s.Stands t (m.scope c)) (hJ : J (m.scope c)) (htext : n.text = m.name)
    (hlinked : t.Linked n.first (m.params.map Param.id)) (hsecond : n.second = some m.block.id)
    (hroom : (m.scope c).Roomy (m.params.length + k))
    (hdeclare : ∀ param ∈ m.params, ∀ (s : Checker) (c : Context), s.Stands t c → J c →
      c.Roomy 1 → Plays t s (declare param.id) () (param.events c) (param.next c))
    (hbody : ∀ s₁ : Checker, s₁.Stands t (m.within c) → (m.within c).Roomy k →
      Plays t s₁ (visit m.block.id) () (m.block.events (m.within c))
        ((m.within c).after (m.block.events (m.within c)))) :
    Plays t s (methodInsideWith declare visit n m.ty) () (m.inside c) (m.leaving c) := by
  refine .get (.lift (Tree.siblings_eq_ok_iff.2 (hlinked.of_bare_eq hs.text)) ?_)
  refine (plays_parameters hnext hs hJ hroom hdeclare).bind fun s₁ _ hs₁ => ?_
  have entered : Plays t s₁ (modify fun s => { s with method := some ⟨n.text, m.ty⟩ }) ⟨⟩ []
      (m.within c) := by
    rw [htext]
    refine plays_modify hs₁ ?_ (hs₁.sound.congr rfl (Nat.le_refl _)) rfl fun b hb => hb
    conv => lhs; rw [← hs₁.seated]
    rfl
  refine Plays.congr (entered.bind fun s₂ _ hs₂ => ?_) (List.nil_append _)
  rw [hsecond]
  have body := hbody s₂ hs₂ (roomy_within hroom)
  refine Plays.congr (body.bind fun s₃ _ hs₃ => ?_) (List.append_nil _)
  refine plays_modify hs₃ ?_ (hs₃.sound.congr rfl (Nat.le_refl _)) rfl fun b hb => hb
  conv => lhs; rw [← hs₃.seated]
  rfl

/-- What a method needs goes to its symbol and to its node behind its body, which comes to the same
thing as having entered the symbol with that size. -/
theorem run_recordFrame_of_not_taken (hs : s.Stands t c) (es : List Event) (words : Nat)
    (c₁ : Context) :
    (recordFrame m.id (some ⟨c.count⟩) words).run
        ((s.play (.declare m.id ⟨c.count⟩ (m.symbol c frameHeaderWords) :: es)).seat c₁) =
      .ok ((), (s.play (.declare m.id ⟨c.count⟩ (m.symbol c words) :: es ++
        [.size m.id words])).seat c₁) := by
  generalize hstate :
    (s.play (.declare m.id ⟨c.count⟩ (m.symbol c frameHeaderWords) :: es)).seat c₁ = s₁
  have store : s₁.table.store = s.table.store ++
      (m.symbol c frameHeaderWords :: Event.declared es).toArray := by
    rw [← hstate]
    rfl
  have resized : s₁.table.update ⟨c.count⟩ (fun e => { e with size := words }) =
      .ok { s₁.table with store := s.table.store ++
        (m.symbol c words :: Event.declared es).toArray } := by
    rw [SymbolTable.update, store, ← hs.count, if_pos (by simp), modify_append_cons]
    rfl
  have marked : s₁.tree.update m.id (fun n => { n with size := words }) =
      .ok (s₁.tree.annotate [.size m.id words]) := by
    refine Tree.update_eq_annotate rfl (fun _ => rfl) ?_
    rw [← hstate]
    show _ < (s.tree.annotate _).size
    rw [Tree.size_annotate, hs.size_eq]
    exact hm.node.lt_size
  have tree : s₁.tree.annotate [.size m.id words] = s.tree.annotate
      (.declare m.id ⟨c.count⟩ (m.symbol c words) :: es ++ [.size m.id words]) := by
    have same : s.tree.annotate (.declare m.id ⟨c.count⟩ (m.symbol c frameHeaderWords) :: es) =
        s.tree.annotate (.declare m.id ⟨c.count⟩ (m.symbol c words) :: es) :=
      Tree.annotate_cons_congr (by rfl) (by rfl) s.tree es
    rw [Tree.annotate_append, ← same, ← hstate]
    rfl
  have recorded : (recordFrame m.id (some ⟨c.count⟩) words).run s₁ =
      (update m.id fun n => { n with size := words }).run { s₁ with
        table := { s₁.table with store := s.table.store ++
          (m.symbol c words :: Event.declared es).toArray } } :=
    run_bind_of_ok (run_get_eq_ok_iff.2 ⟨rfl, rfl⟩) |>.trans
      (run_bind_of_ok (run_liftM_eq_ok_iff.2 ⟨resized, rfl⟩))
  rw [recorded, run_update]
  dsimp only
  rw [marked, tree, ← hstate]
  simp [Except.map, Checker.play, Checker.seat, Event.symbol?, Event.complaint?]

omit hm in
/-- What a method needs is of no concern to soundness. -/
theorem sound_resized {c' : Context} {new : List Binding} {words : Nat}
    (hbindings : c'.bindings = new ++ m.binding c words :: c.bindings) (h : c'.Sound t)
    (words' : Nat) :
    Context.Sound { c' with bindings := new ++ m.binding c words' :: c.bindings } t := by
  have formals := h.formals
  have nested := h.nested
  have opened : ∀ b ∈ c'.bindings, b.symbol.level ≤ c'.level := h.opened
  simp only [hbindings, List.forall_mem_append, List.forall_mem_cons] at formals opened
  rw [hbindings] at nested
  refine ⟨List.forall_mem_append.2 ⟨formals.1, List.forall_mem_cons.2 formals.2⟩, ?_,
    List.forall_mem_append.2 ⟨opened.1, List.forall_mem_cons.2 opened.2⟩⟩
  show (new ++ m.binding c words' :: c.bindings).Pairwise _
  simp only [List.pairwise_append, List.pairwise_cons, List.forall_mem_cons] at nested ⊢
  exact nested

omit hm in
/-- The store in which a method has another size agrees with all symbols in sight that it agreed
with before. -/
theorem stored_resized (hs : s.Stands t c) {new : List Binding}
    (hnew : ∀ b ∈ new, b.symbol.level = c.level + 1) {words : Nat} {inside : List Symbol}
    (hstored : ∀ b ∈ new,
      (s.table.store ++ (m.symbol c words :: inside).toArray)[b.id.index]? = some b.symbol)
    (words' : Nat) : ∀ b ∈ new ++ m.binding c words' :: c.bindings,
      (s.table.store ++ (m.symbol c words' :: inside).toArray)[b.id.index]? = some b.symbol := by
  refine List.forall_mem_append.2 ⟨fun b hb => ?_, List.forall_mem_cons.2 ⟨?_, fun b hb => ?_⟩⟩
  · have hstored := hstored b hb
    -- a parameter is at a deeper level than the method
    have hne : b.id.index ≠ s.table.store.size := by
      intro heq
      rw [heq, getElem?_append_cons_self] at hstored
      have hlevel := hnew b hb
      rw [← Option.some.inj hstored] at hlevel
      exact Nat.succ_ne_self c.level hlevel.symm
    rw [getElem?_append_cons_of_ne hne _ (m.symbol c words), hstored]
  · show (s.table.store ++ _)[c.count]? = _
    rw [← hs.count]
    exact getElem?_append_cons_self ..
  · have hstored := hs.stored b hb
    have hlt := (Array.getElem?_eq_some_iff.1 hstored).1
    rw [Array.getElem?_append_left hlt, hstored]

/-- Behind the body of a method the state is at the scope of the method, with the symbol of the
method as it is entered in the end. -/
theorem stands_of_recordFrame (hs : s.Stands t c) (hfree : ¬ c.Taken m.name) {new : List Binding}
    (hnew : ∀ b ∈ new, b.symbol.level = c.level + 1)
    (hbindings : (m.leaving c).bindings = new ++ (m.scope c).bindings)
    (hinside : ((s.play (c.declaring m.id (m.symbol c frameHeaderWords) ++ m.inside c)).seat
      (m.leaving c)).Stands t (m.leaving c)) :
    ((s.play (m.events c)).seat (m.leaving c)).Stands t
      { m.leaving c with bindings := new ++ (m.next c).bindings } := by
  have declaring : ∀ words, c.declaring m.id (m.symbol c words) =
      [.declare m.id ⟨c.count⟩ (m.symbol c words)] :=
    fun words => Context.declaring_of_not_taken hfree
  rw [declaring] at hinside
  rw [Method.scope_bindings hfree] at hbindings
  have recorded := run_recordFrame_of_not_taken hm hs (m.inside c) (m.words c) (m.leaving c)
  obtain ⟨_, _, -, hbare, hstate⟩ := run_recordFrame recorded
  have old : (s.table.store ++ (m.symbol c frameHeaderWords ::
      Event.declared (m.inside c)).toArray).size = (m.leaving c).count := hinside.count
  have store : ((s.play (m.events c)).seat (m.leaving c)).table.store = s.table.store ++
      (m.symbol c (m.words c) :: Event.declared (m.inside c)).toArray := by
    rw [Method.events, declaring]
    simp [Checker.seat, Event.symbol?]
  have text := (congrArg (fun s : Checker => s.tree.bare) hstate).trans
    (hbare.trans hinside.text)
  rw [Method.next_bindings hfree]
  exact {
    text := by
      rw [Method.events, declaring]
      exact text
    seated := by simp [Checker.seat, hbindings, Method.binding]
    count := by
      rw [store]
      simpa using old
    stored := by
      rw [store]
      exact stored_resized hs hnew (fun b hb => hinside.stored b
        (by rw [hbindings]; exact List.mem_append_left _ hb)) (m.words c)
    sound := sound_resized hbindings hinside.sound (m.words c) }

omit hm in
/-- Leaving the scope of a method, and its frame. -/
theorem plays_closeMethod {new : List Binding} (hnew : ∀ b ∈ new, b.symbol.level = c.level + 1)
    (hopened : ∀ b ∈ c.bindings, b.symbol.level ≤ c.level)
    (hlimit : Binding.words new < wordLimit) (hlevel : (m.leaving c).level = c.level + 1)
    (hloops : (m.leaving c).loops = c.loops)
    (hs : s.Stands t { m.leaving c with bindings := new ++ (m.next c).bindings }) :
    Plays t s (do
        discard closeScope
        modify fun s => { s with frame := c.frame }) ⟨⟩ [] (m.next c) := by
  have opened : ∀ b ∈ (m.next c).bindings, b.symbol.level < (m.leaving c).level := by
    intro b hb
    rw [hlevel]
    simp only [Method.next, Context.declare] at hb
    split at hb
    · exact Nat.lt_succ_of_le (hopened b hb)
    · rcases List.mem_cons.1 hb with rfl | hb
      · exact Nat.lt_succ_self c.level
      · exact Nat.lt_succ_of_le (hopened b hb)
  have closed := plays_closeScope hs rfl (fun b hb => (hnew b hb).trans hlevel.symm) opened hlimit
  refine Plays.congr (closed.discard.bind fun s₁ _ hs₁ => ?_) (List.append_nil [])
  have level : (m.leaving c).level - 1 = (m.next c).level := by
    rw [hlevel]
    exact Context.level_declare.symm
  have place : ({ m.leaving c with
      bindings := (m.next c).bindings, level := (m.next c).level, frame := c.frame } : Context) =
      m.next c := by
    simp only [Method.next, Context.mk.injEq, true_and]
    exact ⟨Context.frame_declare.symm, hloops.trans Context.loops_declare.symm, rfl⟩
  rw [← place]
  refine plays_modify hs₁ ?_ (hs₁.sound.congr rfl (Nat.le_of_eq level)) rfl fun b hb => hb
  conv => lhs; rw [← hs₁.seated]
  simp only [Checker.seat, level]

/-- Recording what a method needs, behind its body. Only a method whose name was free has a symbol
to record it on. -/
theorem run_recordFrame_inside (hs : s.Stands t c) {new : List Binding}
    (hnew : ∀ b ∈ new, b.symbol.level = c.level + 1)
    (hbindings : (m.leaving c).bindings = new ++ (m.scope c).bindings)
    (hinside : ((s.play (c.declaring m.id (m.symbol c frameHeaderWords) ++ m.inside c)).seat
      (m.leaving c)).Stands t (m.leaving c)) :
    (recordFrame m.id (if c.Taken m.name then none else some ⟨c.count⟩) (m.words c)).run
        ((s.play (c.declaring m.id (m.symbol c frameHeaderWords) ++ m.inside c)).seat
          (m.leaving c)) = .ok ((), (s.play (m.events c)).seat (m.leaving c)) ∧
      ((s.play (m.events c)).seat (m.leaving c)).Stands t
        { m.leaving c with bindings := new ++ (m.next c).bindings } := by
  by_cases htaken : c.Taken m.name
  · have taken : ∀ words, c.Taken (m.symbol c words).name := fun _ => htaken
    have same : new ++ (m.next c).bindings = (m.leaving c).bindings := by
      rw [hbindings, Method.next, Method.scope, Context.declare_of_taken (taken _),
        Context.declare_of_taken (taken _)]
    obtain ⟨run, stands⟩ := plays_size hinside (m.words c) hm.node.lt_size
    rw [Checker.seat_play_append, Context.declaring_of_taken (taken _)] at run stands
    rw [if_pos htaken, same, Method.events, Context.declaring_of_taken (taken _),
      Context.declaring_of_taken (taken _)]
    exact ⟨run, stands⟩
  · refine ⟨?_, stands_of_recordFrame hm hs htaken hnew hbindings hinside⟩
    have free : ∀ words, ¬ c.Taken (m.symbol c words).name := fun _ => htaken
    rw [if_neg htaken, Method.events, Context.declaring_of_not_taken (free _),
      Context.declaring_of_not_taken (free _)]
    exact run_recordFrame_of_not_taken hm hs (m.inside c) (m.words c) (m.leaving c)

/-- Checking a method, where declaring its parameters and visiting its body plays their events. -/
theorem plays_methodWith (hnext : ∀ (c : Context) (param : Param), J c → J (param.next c))
    (hs : s.Stands t c) (hJ : J (m.scope c)) (hn : s.tree.node m.id = .ok n)
    (hroom : (m.scope c).Roomy (m.params.length + k))
    (hdeclare : ∀ param ∈ m.params, ∀ (s : Checker) (c : Context), s.Stands t c → J c →
      c.Roomy 1 → Plays t s (declare param.id) () (param.events c) (param.next c))
    (hbody : ∀ s₁ : Checker, s₁.Stands t (m.within c) → (m.within c).Roomy k →
      Plays t s₁ (visit m.block.id) () (m.block.events (m.within c))
        ((m.within c).after (m.block.events (m.within c)))) :
    Plays t s (methodWith declare visit m.id n) () (m.events c) (m.next c) := by
  obtain ⟨n', hn', -, htext, hty, hlinked, hsecond⟩ := (hm.of_bare_eq hs.text).node
  obtain rfl : n' = n := Except.ok.inj (hn'.symm.trans hn)
  have hlinked := hlinked.of_bare_eq hs.text.symm
  obtain ⟨new, hnew, hgrown⟩ := Context.grows_along Param.grows (m.scope c) m.params
  have hbindings : (m.leaving c).bindings = new ++ (m.scope c).bindings := by
    simp only [Method.leaving, Method.within, hgrown]
    rfl
  have hlevel : (m.leaving c).level = c.level + 1 := by
    simp only [Method.leaving, Method.within, hgrown]
    rfl
  have hloops : (m.leaving c).loops = c.loops := by
    simp only [Method.leaving, Method.within, hgrown]
    exact Context.loops_declare
  have hlimit : Binding.words new < wordLimit := by
    have room := roomy_within hroom
    simp only [Method.within, hgrown, Context.Roomy, Context.extend] at room
    omega
  refine .lift (declaredType_eq hty) ?_
  obtain ⟨named, hs₁⟩ := plays_methodName hm hs htext hlinked
  have scope : ({ c.declare m.id (m.symbol c frameHeaderWords) m.formals with
      level := (c.declare m.id (m.symbol c frameHeaderWords) m.formals).level + 1
      frame := .starting frameHeaderWords } : Context) = m.scope c := by
    rw [Context.level_declare]
    rfl
  obtain ⟨opened, hs₂⟩ := plays_openFrame hs₁ (.starting frameHeaderWords)
  rw [Checker.seat_play_append, List.append_nil, scope] at opened hs₂
  obtain ⟨inside, hs₃⟩ :=
    plays_methodInside hnext hs₂ hJ htext hlinked hsecond hroom hdeclare hbody
  rw [Checker.seat_play_append] at inside hs₃
  obtain ⟨recorded, hs₄⟩ := run_recordFrame_inside hm hs hnew hbindings hs₃
  obtain ⟨closed, hs₅⟩ := plays_closeMethod hnew hs.sound.opened hlimit hlevel hloops hs₄
  rw [Checker.seat_play_append, List.append_nil] at closed hs₅
  refine ⟨?_, hs₅⟩
  have outer : ((s.play (c.declaring m.id (m.symbol c frameHeaderWords))).seat
      (c.declare m.id (m.symbol c frameHeaderWords) m.formals)).frame = c.frame :=
    Context.frame_declare
  rw [run_bind_of_ok named, run_bind_of_ok (run_get_eq_ok_iff.2 ⟨rfl, rfl⟩), outer, ← bind_assoc,
    run_bind_of_ok opened, run_bind_of_ok inside, run_bind_of_ok (run_get_eq_ok_iff.2 ⟨rfl, rfl⟩)]
  exact (run_bind_of_ok recorded).trans closed

end Method

/-! ### Programs -/

/-- As many variables as there are handles fit behind the header of a method. -/
theorem roomy_scope {m : Method} {k : Nat} (hk : k ≤ maxHandles) : (m.scope c).Roomy k := by
  have offset : (m.scope c).frame.offset = 2 := rfl
  rw [maxHandles] at hk
  rw [Context.Roomy]
  rw [offset, maxVariableWords, wordLimit]
  omega

theorem frame_externs (externs : List Extern) (c : Context) :
    (externs.foldl Extern.next c).frame = c.frame :=
  Context.foldl_keeps Context.frame (fun _ _ => Context.frame_declare) c externs

theorem frame_afterName (p : Program) : p.afterName.frame = .starting 0 :=
  Context.frame_declare.trans (frame_externs p.externs .start)

/-- As many variables as there are handles fit where no storage is taken up yet. -/
theorem roomy_named {p : Program} (hframe : c.frame = .starting 0)
    (hfields : p.fields.length ≤ maxHandles) : (p.named c).Roomy (p.fields.length + 0) := by
  have offset : (p.named c).frame.offset = 0 :=
    congrArg Frame.offset (Context.frame_declare.trans hframe)
  rw [maxHandles] at hfields
  rw [Context.Roomy]
  rw [offset, maxVariableWords, wordLimit]
  omega

/-- `visit` goes by the rules all over a program, as far as it can be told from contexts that `I`
holds of, inside of methods, or `O`, outside of them. Methods may have a rule of their own. -/
structure Tours (t : Tree) (I O : Context → Prop) (visit : Nat → NodeId → Check Unit) : Prop
    extends Visits t I visit where
  outer : Context.Outer O
  ruleOutside : ∀ {depth : Nat} {s : Checker} {c c₁ : Context} {id : NodeId} {es : List Event},
    s.Stands t c → O c → O c₁ → (t.Has id fun n => n.kind.opensScope = false) →
    Plays t s (node id >>= visitByKind (visit depth) id) () es c₁ →
    Plays t s (visit (depth + 1) id) () es c₁
  method : ∀ {depth k : Nat} {s : Checker} {c : Context} {m : Method}, s.Stands t c → O c →
    t.HasMethod m → (m.scope c).Roomy (m.params.length + k) →
    (∀ s₁ : Checker, s₁.Stands t (m.within c) → I (m.within c) → (m.within c).Roomy k →
      Plays t s₁ (visit depth m.block.id) () (m.block.events (m.within c))
        ((m.within c).after (m.block.events (m.within c)))) →
    Plays t s (visit (depth + 1) m.id) () (m.events c) (m.next c)

namespace Tours

variable {I O : Context → Prop} {visit : Nat → NodeId → Check Unit} (w : Tours t I O visit)

include w

/-- Checking a method. -/
theorem plays_method {m : Method} (hm : t.HasMethod m) (hs : s.Stands t c) (hO : O c)
    (hd : m.ids.Nodup) {depth : Nat} (hdepth : m.ids.length ≤ depth + 1)
    (hsize : m.ids.length ≤ t.size) (hroom : (m.scope c).Roomy m.ids.length) :
    Plays t s (visit (depth + 1) m.id) () (m.events c) (m.next c) := by
  obtain ⟨-, -, hblock, -⟩ := And.imp_right List.nodup_append.1 (List.nodup_cons.1 hd)
  simp only [Method.ids, List.length_cons, List.length_append, List.length_map]
    at hdepth hsize hroom
  have hroom : (m.scope c).Roomy (m.params.length + m.block.ids.length) := hroom.mono rfl (by omega)
  have hdeep : m.block.ids.length ≤ depth := by omega
  exact w.method hs hO hm hroom fun s₁ hs₁ hI hroom =>
    w.plays hs₁ hI hm.block hblock hdeep (by omega) hroom

theorem plays_methods (hs : s.Stands t c) (hO : O c) {methods : List Method}
    {head : Option NodeId} (hl : t.Linked head (methods.map Method.id)) {depth : Nat}
    (hm : ∀ m ∈ methods, t.HasMethod m ∧ m.ids.Nodup ∧ m.ids.length ≤ depth + 1 ∧
      m.ids.length ≤ maxHandles) (hdepth : depth < t.size) :
    Plays t s (eachSibling head (visit (depth + 1))) ()
      (c.along Method.events Method.next methods) (methods.foldl Method.next c) := by
  refine plays_eachSibling (fun c rest => O c ∧ ∀ m ∈ rest, m ∈ methods) ?_
    ⟨hO, fun m hm => hm⟩ hs hl
  rintro c s m rest ⟨hO, hmem⟩ hs
  obtain ⟨hmem, hrest⟩ := List.forall_mem_cons.1 hmem
  obtain ⟨held, hd, hlength, hhandles⟩ := hm m hmem
  exact ⟨w.plays_method held hs hO hd hlength (by omega) (roomy_scope hhandles),
    w.outer.method c m hO, hrest⟩

theorem outer_behind {p : Program} (hO : O c) : O (p.behind c) := by
  have fields : O (p.fields.foldl VarDecl.next (p.named c)) :=
    List.foldlRecOn p.fields VarDecl.next (w.outer.named c p hO)
      fun c hc d _ => w.outer.field c d hc
  exact List.foldlRecOn p.methods Method.next fields fun c hc m _ => w.outer.method c m hc

/-- Checking the package of a program, where no storage is taken up yet. -/
theorem plays_package {p : Program} (hp : t.HasProgram p) (hs : s.Stands t c) (hO : O c)
    (hframe : c.frame = .starting 0) {depth : Nat}
    (hm : ∀ m ∈ p.methods, m.ids.Nodup ∧ m.ids.length ≤ depth + 1 ∧ m.ids.length ≤ maxHandles)
    (hfields : p.fields.length ≤ maxHandles) (hdepth : depth < t.size) :
    Plays t s (visit (depth + 2) p.package) () (p.packageEvents c) (p.behind c) := by
  obtain ⟨n, hn, hkind, htext, -, hfirst, hsecond⟩ := (hp.of_bare_eq hs.text).package
  have hfirst := hfirst.of_bare_eq hs.text.symm
  have hsecond := hsecond.of_bare_eq hs.text.symm
  have kind : t.Has p.package fun n => n.kind.opensScope = false :=
    hp.package.imp fun n hn => by rw [hn.1]; rfl
  refine w.ruleOutside hs hO (w.outer_behind hO) kind (.node hn ?_)
  simp only [visitByKind, hkind]
  have named := plays_packageName (n := n) hs hp.package.lt_size
  rw [htext] at named
  refine named.bind fun s₁ _ hs₁ => ?_
  have hO₁ : O (p.named c) := w.outer.named c p hO
  refine (plays_locals w.outer.field hs₁ hO₁ hfirst (roomy_named hframe hfields)
    fun d hd s c hs hO hroom => w.ruleOutside hs hO (w.outer.field c d hO)
      ((hp.fields d hd).1.imp fun n hn => by rw [hn.1]; rfl)
      (plays_variableDecl hs (hp.fields d hd) hroom (visit depth))).bind fun s₂ _ hs₂ => ?_
  have hO₂ := List.foldlRecOn p.fields VarDecl.next hO₁ fun c hc d _ => w.outer.field c d hc
  exact w.plays_methods hs₂ hO₂ hsecond (fun m hmem => ⟨hp.methods m hmem, hm m hmem⟩) hdepth

theorem plays_externs (hs : s.Stands t c) (hO : O c) {externs : List Extern}
    (hexterns : ∀ e ∈ externs, t.HasExtern e) {head : Option NodeId}
    (hl : t.Linked head (externs.map Extern.id)) (depth : Nat) :
    Plays t s (eachSibling head (visit (depth + 1))) ()
      (c.along Extern.events Extern.next externs) (externs.foldl Extern.next c) := by
  refine plays_eachSibling (fun c rest => O c ∧ ∀ e ∈ rest, e ∈ externs) ?_
    ⟨hO, fun e he => he⟩ hs hl
  rintro c s e rest ⟨hO, hmem⟩ hs
  obtain ⟨hmem, hrest⟩ := List.forall_mem_cons.1 hmem
  have held := hexterns e hmem
  have next := w.outer.external c e hO
  exact ⟨w.ruleOutside hs hO next (held.node.imp fun n hn => by rw [hn.1]; rfl)
    (plays_externDecl hs held (visit depth)), next, hrest⟩

/-- Checking a program, where no storage is taken up yet. -/
theorem plays_program {p : Program} (hp : t.HasProgram p) (hd : p.ids.Nodup)
    (hhandles : ∀ id ∈ p.ids, id.index < maxHandles) (hs : s.Stands t c) (hO : O c)
    (hframe : c.frame = .starting 0) :
    Plays t s (visit (t.size + 1) p.id) ()
      (c.along Extern.events Extern.next p.externs ++
        p.packageEvents (p.externs.foldl Extern.next c))
      (p.behind (p.externs.foldl Extern.next c)) := by
  have hlength := Tree.length_le_of_nodup_handles hd hp.lt_size
  have hhandles := Tree.length_le_of_nodup_handles hd hhandles
  have hfields := VarDecl.length_le_length_ids p.fields
  obtain ⟨-, hd⟩ := List.nodup_cons.1 hd
  obtain ⟨-, hd, -⟩ := List.nodup_append.1 hd
  obtain ⟨-, hmethods, -⟩ := List.nodup_append.1 (List.nodup_cons.1 hd).2
  simp only [Program.ids, List.length_cons, List.length_append] at hlength hhandles
  obtain ⟨depth, hdepth⟩ : ∃ depth, t.size = depth + 2 := ⟨t.size - 2, by omega⟩
  obtain ⟨n, hn, hkind, -, hfirst, hsecond⟩ := (hp.of_bare_eq hs.text).root
  have hfirst := hfirst.of_bare_eq hs.text.symm
  have hO₁ := List.foldlRecOn p.externs Extern.next hO fun c hc e _ => w.outer.external c e hc
  have kind : t.Has p.id fun n => n.kind.opensScope = false :=
    hp.root.imp fun n hn => by rw [hn.1]; rfl
  refine w.ruleOutside hs hO (w.outer_behind hO₁) kind (.node hn ?_)
  simp only [visitByKind, hkind, hsecond]
  rw [hdepth]
  refine (w.plays_externs hs hO hp.externs hfirst (depth + 1)).bind fun s₁ _ hs₁ => ?_
  have alone : t.Has p.package fun n => n.next = none := hp.package.imp fun n hn => hn.2.2.1
  have framed := (frame_externs p.externs c).trans hframe
  refine plays_alone hs₁ alone
    (w.plays_package hp hs₁ hO₁ framed (fun m hm => ?_) (by omega) (by omega))
  have part := sublist_flatMap_of_mem hm (f := Method.ids)
  have hpart := part.length_le
  exact ⟨part.nodup hmethods, by omega, by omega⟩

/-- Checking a tree from the root of a program on. -/
theorem plays_root {p : Program} (hp : t.HasProgram p) (hd : p.ids.Nodup)
    (hhandles : ∀ id ∈ p.ids, id.index < maxHandles) (hs : s.Stands t c) (hO : O c)
    (hframe : c.frame = .starting 0) :
    Plays t s (eachSibling (some p.id) fun id => do visit ((← get).tree.size + 1) id) ()
      (c.along Extern.events Extern.next p.externs ++
        p.packageEvents (p.externs.foldl Extern.next c))
      (p.behind (p.externs.foldl Extern.next c)) := by
  have alone : t.Has p.id fun n => n.next = none := hp.root.imp fun n hn => hn.2.1
  refine plays_alone hs alone (.get ?_)
  rw [hs.size_eq]
  exact w.plays_program hp hd hhandles hs hO hframe

end Tours

/-- The check of a program goes by the rules. -/
theorem tours_statementWithin : Tours t (fun _ => True) (fun _ => True) statementWithin where
  toVisits := visits_statementWithin
  outer := Context.outer_true
  ruleOutside _ _ _ _ h := h
  method hs _ hm hroom hbody := by
    obtain ⟨n, hn, hkind, -⟩ := (hm.of_bare_eq hs.text).node
    refine .node hn ?_
    simp only [visitByKind, hkind, Check.method]
    exact plays_methodWith (J := fun _ => True) hm (fun _ _ _ => trivial) hs trivial hn hroom
      (fun param hp s c hs _ hroom => plays_parameter hs (hm.params param hp) hroom)
      fun s₁ hs₁ hroom => hbody s₁ hs₁ trivial hroom

/-- Checking a method. -/
theorem plays_method {m : Method} (hm : t.HasMethod m) (hs : s.Stands t c) (hd : m.ids.Nodup)
    {depth : Nat} (hdepth : m.ids.length ≤ depth + 1) (hsize : m.ids.length ≤ t.size)
    (hroom : (m.scope c).Roomy m.ids.length) :
    Plays t s (statementWithin (depth + 1) m.id) () (m.events c) (m.next c) :=
  tours_statementWithin.plays_method hm hs trivial hd hdepth hsize hroom

/-- Checking a tree from the root of a program on. -/
theorem plays_statements {p : Program} (hp : t.HasProgram p) (hd : p.ids.Nodup)
    (hhandles : ∀ id ∈ p.ids, id.index < maxHandles) (hs : s.Stands t c)
    (hframe : c.frame = .starting 0) :
    Plays t s (statements (some p.id)) ()
      (c.along Extern.events Extern.next p.externs ++
        p.packageEvents (p.externs.foldl Extern.next c))
      (p.behind (p.externs.foldl Extern.next c)) :=
  tours_statementWithin.plays_root hp hd hhandles hs trivial hframe

end Check

namespace CompilationUnit

variable {u : CompilationUnit} {p : Program}

/-- Before a check there is nothing in sight. -/
theorem Holds.stands (h : u.Holds p) : (Checker.start u.tree u.table).Stands u.tree .start where
  text := rfl
  seated := by rw [h.fresh]; rfl
  count := by rw [h.fresh]; rfl
  stored := by simp [Context.start]
  sound := ⟨by simp [Context.start], by simp [Context.start], Context.opened_start⟩

/-- The check of a program plays its transcript. -/
theorem Holds.plays (h : u.Holds p) : Check.Plays u.tree (.start u.tree u.table)
    (Check.statements u.root) () p.events p.afterMethods := by
  rw [h.root, Program.events_eq]
  exact Check.plays_statements h.held h.alone h.addressable h.stands rfl

/-- **What the check of a program gives.** The program is checked without a fault, and all that is
found out is in its transcript. -/
theorem check_eq (h : u.Holds p) : u.check = .ok
    ((Event.complaints p.events).map fun e => ⟨e.1, u.tree.position e.2⟩,
      { u with
        tree := u.tree.annotate p.events
        table := ⟨(Event.declared p.events).toArray, p.afterMethods.bindings.map Binding.id,
          0⟩ }) := by
  have diagnostics : (((Checker.start u.tree u.table).play p.events).seat
      p.afterMethods).diagnostics.toList =
        (Event.complaints p.events).map fun e => ⟨e.1, u.tree.position e.2⟩ := by
    simp [Checker.play, Checker.seat, Checker.start]
  have table : (((Checker.start u.tree u.table).play p.events).seat p.afterMethods).table =
      ⟨(Event.declared p.events).toArray, p.afterMethods.bindings.map Binding.id, 0⟩ := by
    simp [Checker.play, Checker.seat, Checker.start, h.fresh, SymbolTable.empty]
  rw [CompilationUnit.check, runCheck, h.plays.run, ← diagnostics, ← table]
  rfl

/-! ### A program -/

/-- A program in which one name is declared in three scopes, and another in none. -/
def shadowing : Program where
  id := ⟨0⟩
  externs := []
  package := ⟨1⟩
  name := "P"
  fields := [⟨⟨2⟩, "x", .int, .scalar⟩]
  methods := [{
    id := ⟨3⟩
    name := "f"
    ty := .int
    params := [⟨⟨4⟩, "x", .int⟩]
    body := ⟨5⟩
    locals := [⟨⟨6⟩, "y", .int, .array ⟨7⟩ 2⟩]
    statements := [
      .block ⟨8⟩ [⟨⟨9⟩, "x", .bool, .scalar⟩]
        [.assignment ⟨10⟩ ⟨⟨11⟩, "x", none⟩ (.element ⟨12⟩ .read "y" (.literal (.int ⟨13⟩ 1)))],
      .returnValue ⟨14⟩ (some (.plain ⟨15⟩ .read "z"))] }]

/-- A unit that holds this program. -/
def shadowingUnit : CompilationUnit where
  tree := ⟨#[
    { Node.blank .program with second := some ⟨1⟩ },
    { Node.blank .package with name := some "P", first := some ⟨2⟩, second := some ⟨3⟩ },
    { Node.blank .variableDecl with name := some "x", ty := some .int },
    { Node.blank .methodDecl with
      name := some "f", ty := some .int, first := some ⟨4⟩, second := some ⟨5⟩ },
    { Node.blank .parameter with name := some "x", ty := some .int },
    { Node.blank .block with first := some ⟨6⟩, second := some ⟨8⟩ },
    { Node.blank .variableDecl with name := some "y", ty := some .int, first := some ⟨7⟩ },
    { Node.blank .intConstant with value := 2 },
    { Node.blank .block with first := some ⟨9⟩, second := some ⟨10⟩, next := some ⟨14⟩ },
    { Node.blank .variableDecl with name := some "x", ty := some .bool },
    { Node.blank .assignment with first := some ⟨11⟩, second := some ⟨12⟩ },
    { Node.blank .target with name := some "x" },
    { Node.blank .reference with name := some "y", first := some ⟨13⟩ },
    { Node.blank .intConstant with value := 1 },
    { Node.blank .returnValue with first := some ⟨15⟩ },
    { Node.blank .reference with name := some "z" }]⟩
  table := .empty
  root := some ⟨0⟩

theorem holds_shadowing : shadowingUnit.Holds shadowing where
  fresh := rfl
  root := rfl
  held := {
    root := ⟨_, rfl, rfl, rfl, .nil, rfl⟩
    package := ⟨_, rfl, rfl, rfl, rfl, .cons rfl .nil, .cons rfl .nil⟩
    externs := by simp [shadowing]
    fields := List.forall_mem_singleton.2 ⟨⟨_, rfl, rfl, rfl, rfl, rfl, rfl⟩, trivial⟩
    methods := by
      have inner : shadowingUnit.tree.HasStmt (.block ⟨8⟩ [⟨⟨9⟩, "x", .bool, .scalar⟩]
          [.assignment ⟨10⟩ ⟨⟨11⟩, "x", none⟩
            (.element ⟨12⟩ .read "y" (.literal (.int ⟨13⟩ 1)))]) :=
        .block ⟨_, rfl, rfl, .cons rfl .nil, .cons rfl .nil⟩
          (List.forall_mem_singleton.2 ⟨⟨_, rfl, rfl, rfl, rfl, rfl, rfl⟩, trivial⟩)
          (List.forall_mem_singleton.2 (.assignment ⟨_, rfl, rfl, rfl, rfl⟩
            (.plain ⟨_, rfl, rfl, rfl, rfl⟩)
            (.element ⟨_, rfl, rfl, rfl, rfl⟩ (.literal ⟨_, rfl, rfl, rfl⟩))))
      have leave : shadowingUnit.tree.HasStmt
          (.returnValue ⟨14⟩ (some (.plain ⟨15⟩ .read "z"))) := by
        refine .returnValue ⟨_, rfl, rfl, rfl⟩ fun e he => ?_
        cases he
        exact .plain ⟨_, rfl, rfl, rfl, rfl⟩
      exact List.forall_mem_singleton.2 {
        node := ⟨_, rfl, rfl, rfl, rfl, .cons rfl .nil, rfl⟩
        params := List.forall_mem_singleton.2 ⟨_, rfl, rfl, rfl, rfl⟩
        block := .block ⟨_, rfl, rfl, .cons rfl .nil, .cons rfl (.cons rfl .nil)⟩
          (List.forall_mem_singleton.2 ⟨⟨_, rfl, rfl, rfl, rfl, rfl, rfl⟩, ⟨_, rfl, rfl, rfl⟩⟩)
          (List.forall_mem_cons.2 ⟨inner, List.forall_mem_singleton.2 leave⟩) } }
  alone := by decide
  addressable := by decide

end CompilationUnit

end DecafStatics
