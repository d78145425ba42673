import DecafStatics.Proofs.Typing

/-!
# Checking plays its transcript

A statement that a tree holds is checked without a fault, and what that leaves behind is
`Stmt.events`. Behind a statement the same names are in sight as before it, and the frame is as
full as before.

## Implementation notes

The one fault that a program in good shape could meet with is that its storage does not fit into
a machine word. `Context.Roomy c n` rules it out for `n` more declarations; the length of an array
is a number of 32 bits, which bounds what each of them takes up.

Each of the rules is shown for whatever visits the constructs inside. The induction over statements
is done once, for all visits that go by the rules; the visits of the check are the ones with nothing
around them. What the visits do besides may rely on a property of contexts that is never lost.

## Main definitions

* `Context.Roomy` — there is room for some more declarations
* `Context.Lasting` — properties of contexts that are not lost on the way through a statement
* `Check.Visits` — visits that go by the rules

## Main results

* `Check.plays_variableDecl`, `Check.plays_blockWith` — declarations and scopes
* `Check.Visits.plays`, `Check.plays_statementWithin` — checking a statement
-/

namespace DecafStatics

/-! ### Room for declarations -/

/-- No variable takes up more words than this. -/
def maxVariableWords : Nat := 0x80000000

/-- There is room in the frame for `n` more variables. -/
def Context.Roomy (c : Context) (n : Nat) : Prop :=
  c.frame.offset + n * maxVariableWords < wordLimit

theorem Context.Roomy.mono {c c' : Context} {m n : Nat} (h : c.Roomy n)
    (hc : c'.frame.offset = c.frame.offset) (hmn : m ≤ n) : c'.Roomy m := by
  rw [Roomy] at *
  have := Nat.mul_le_mul_right maxVariableWords hmn
  omega

theorem Check.le_of_variableShape {name : String} {length : Option Int32} {kind : SymbolKind}
    {size : Nat} (h : variableShape name length = .ok (kind, size)) :
    size ≤ maxVariableWords ∧ kind.isCallable = false := by
  unfold variableShape at h
  split at h
  · cases h
    exact ⟨by decide, rfl⟩
  · rename_i length
    split at h
    · cases h
    · cases h
      have := length.toInt_lt
      refine ⟨?_, rfl⟩
      rw [maxVariableWords]
      omega

theorem Context.Roomy.storage {c : Context} {n size : Nat} (h : c.Roomy (n + 1))
    (hsize : size ≤ maxVariableWords) : c.frame.offset + size < wordLimit := by
  rw [Roomy] at h
  rw [Nat.add_mul, Nat.one_mul] at h
  omega

theorem Context.Roomy.store {c : Context} {n size : Nat} (h : c.Roomy (n + 1))
    (hsize : size ≤ maxVariableWords) (node : NodeId) (name : String) (ty : Ty)
    (kind : SymbolKind) : (c.store node name ty kind size).Roomy n := by
  rw [Roomy] at *
  rw [Nat.add_mul, Nat.one_mul] at h
  by_cases htaken : c.Taken name
  · rw [store_of_taken htaken]
    omega
  · rw [store_of_not_taken htaken]
    show c.frame.offset + size + n * maxVariableWords < wordLimit
    omega

theorem Context.roomy_foldl {α : Type} {next : Context → α → Context}
    (h : ∀ (c : Context) (n : Nat) (a : α), c.Roomy (n + 1) → (next c a).Roomy n) {c : Context}
    {l : List α} {n : Nat} (hroom : c.Roomy (l.length + n)) : (l.foldl next c).Roomy n := by
  induction l generalizing c with
  | nil => exact hroom.mono rfl (by simp)
  | cons a rest ih => exact ih (h _ _ a (hroom.mono rfl (by rw [List.length_cons]; omega)))

theorem VarDecl.roomy {c : Context} {n : Nat} (h : c.Roomy (n + 1)) (d : VarDecl) :
    (d.next c).Roomy n := by
  rw [next]
  split
  · exact h.mono rfl (Nat.le_succ n)
  · rename_i hshape
    exact h.store (Check.le_of_variableShape hshape).1 ..

theorem Context.roomy_locals {c : Context} {locals : List VarDecl} {n : Nat}
    (h : c.Roomy (locals.length + n)) : (c.locals locals).Roomy n :=
  roomy_foldl (fun _ _ d h => d.roomy h) (h.mono rfl (Nat.le_refl _))

/-- What holds of a context and is not lost on the way through a statement. -/
structure Context.Lasting (I : Context → Prop) : Prop where
  after : ∀ (c : Context) (es : List Event), I c → I (c.after es)
  inner : ∀ c : Context, I c → I c.inner
  looping : ∀ c : Context, I c → I { c with loops := c.loops + 1 }
  next : ∀ (c : Context) (d : VarDecl), I c → I (d.next c)

theorem Context.lasting_true : Lasting fun _ => True :=
  ⟨fun _ _ _ => trivial, fun _ _ => trivial, fun _ _ => trivial, fun _ _ _ => trivial⟩

/-- The kinds of constructs that are scopes. -/
def NodeKind.opensScope : NodeKind → Bool
  | .block | .methodDecl => true
  | _ => false

/-- A statement that is no block has no scope of its own. -/
theorem Tree.HasStmt.opensScope_eq_false {t : Tree} {st : Stmt} (hst : t.HasStmt st)
    (hblock : ∀ id locals body, st ≠ .block id locals body) :
    t.Has st.id fun n => n.kind.opensScope = false := by
  cases hst with
  | assignment hn | ifThen hn | ifElse hn | loop hn | returnValue hn =>
    exact hn.imp fun n hn => by rw [hn.1]; rfl
  | call hc =>
    cases hc with
    | call hn _ _ => exact hn.imp fun n hn => by rw [hn.1]; rfl
  | @jump id j hn => exact hn.imp fun n hn => by rw [hn]; cases j <;> rfl
  | block _ _ _ => exact absurd rfl (hblock _ _ _)

namespace Check

variable {t : Tree} {s : Checker} {c : Context} {id : NodeId}

/-! ### Chains -/

section Chains

variable {α : Type} {ident : α → NodeId} {events : Context → α → List Event}
  {next : Context → α → Context} {visit : NodeId → Check Unit}

/-- Visiting nodes one after the other, where an invariant of the context and of what is still to
come says that each visit plays its events. -/
theorem plays_forM (I : Context → List α → Prop)
    (step : ∀ (c : Context) (s : Checker) (a : α) (rest : List α), I c (a :: rest) →
      s.Stands t c → Plays t s (visit (ident a)) () (events c a) (next c a) ∧ I (next c a) rest)
    {items : List α} (hI : I c items) (hs : s.Stands t c) :
    Plays t s ((items.map ident).forM visit) ⟨⟩ (c.along events next items)
      (items.foldl next c) := by
  induction items generalizing c s with
  | nil => exact plays_pure hs _
  | cons a rest ih =>
    obtain ⟨first, hrest⟩ := step c s a rest hI hs
    exact first.bind fun s₁ _ hs₁ => ih hrest hs₁

/-- Visiting nodes one after the other, where each visit plays its events wherever it starts. -/
theorem plays_each {items : List α} (hvisit : ∀ a ∈ items, ∀ (s : Checker) (c : Context),
      s.Stands t c → Plays t s (visit (ident a)) () (events c a) (next c a))
    (hs : s.Stands t c) : Plays t s ((items.map ident).forM visit) ⟨⟩ (c.along events next items)
      (items.foldl next c) := by
  refine plays_forM (fun _ rest => ∀ a ∈ rest, a ∈ items) ?_ (fun a ha => ha) hs
  intro c s a rest hmem hs
  obtain ⟨ha, hrest⟩ := List.forall_mem_cons.1 hmem
  exact ⟨hvisit a ha s c hs, hrest⟩

/-- Visiting a chain is visiting its nodes. -/
theorem plays_chain (hs : s.Stands t c) {head : Option NodeId} {ids : List NodeId}
    (hl : t.Linked head ids) {es : List Event} {c₁ : Context}
    (h : Plays t s (ids.forM visit) ⟨⟩ es c₁) : Plays t s (eachSibling head visit) () es c₁ := by
  obtain ⟨hstop, hids⟩ := Chain.toExcept_eq_ok_iff.1
    (Tree.siblings_eq_ok_iff.2 (hl.of_bare_eq hs.text))
  refine .get ?_
  dsimp only
  rw [hids]
  refine Plays.congr (h.bind fun s₁ _ hs₁ => ?_) (List.append_nil es)
  have ended : ((s.tree.chain head).ending : Except Fault Unit) = .ok () :=
    Chain.ending_eq_ok_iff.2 hstop
  rw [ended]
  exact plays_pure hs₁ ()

/-- A node that has no siblings is visited alone. -/
theorem plays_alone (hs : s.Stands t c) (hnext : t.Has id fun n => n.next = none)
    {es : List Event} {c₁ : Context} (h : Plays t s (visit id) () es c₁) :
    Plays t s (eachSibling (some id) visit) () es c₁ := by
  obtain ⟨n, hn, hnext⟩ := hnext
  have linked : t.Linked (some id) [id] := .cons hn (hnext ▸ .nil)
  have visited : Plays t s ([id].forM visit) ⟨⟩ (es ++ []) c₁ :=
    h.bind fun s₁ _ hs₁ => plays_pure hs₁ PUnit.unit
  exact plays_chain hs linked (visited.congr (List.append_nil es))

theorem plays_eachSibling (I : Context → List α → Prop)
    (step : ∀ (c : Context) (s : Checker) (a : α) (rest : List α), I c (a :: rest) →
      s.Stands t c → Plays t s (visit (ident a)) () (events c a) (next c a) ∧ I (next c a) rest)
    {items : List α} (hI : I c items) (hs : s.Stands t c) {head : Option NodeId}
    (hl : t.Linked head (items.map ident)) :
    Plays t s (eachSibling head visit) () (c.along events next items) (items.foldl next c) :=
  plays_chain hs hl (plays_forM I step hI hs)

end Chains

/-! ### Declarations -/

theorem declaredType_eq {n : Node} {ty : Ty} (h : n.ty = some ty) : declaredType n = .ok ty := by
  rw [declaredType, h]

/-- The length of an array is read from a node of its own. -/
theorem plays_length (hs : s.Stands t c) {shape : Shape} (h : t.HasShape shape) {β : Type}
    {f : Option Node → Check β} {b : β} {es : List Event} {c₁ : Context}
    (hf : ∀ length : Option Node, length.map Node.value = shape.length →
      Plays t s (f length) b es c₁) :
    Plays t s (shape.first.mapM node >>= f) b es c₁ := by
  cases shape with
  | scalar => exact ⟨(hf none rfl).run, (hf none rfl).stands⟩
  | initialized value => exact ⟨(hf none rfl).run, (hf none rfl).stands⟩
  | array id length =>
    obtain ⟨n, hn, -, hvalue⟩ := Tree.HasShape.of_bare_eq hs.text h
    have rest := hf (some n) (by rw [Option.map_some, hvalue]; rfl)
    have read : (Option.mapM node (Shape.array id length).first >>= f) =
        node id >>= fun n => f (some n) := by
      simp [Shape.first]
    rw [read]
    exact .node hn rest

/-- Checking the declaration of a variable, where there is room for it. -/
theorem plays_variableDecl (hs : s.Stands t c) {d : VarDecl} (hd : t.HasVarDecl d)
    (hroom : c.Roomy 1) (visit : NodeId → Check Unit) :
    Plays t s (node d.id >>= visitByKind visit d.id) () (d.events c) (d.next c) := by
  obtain ⟨n, hn, hkind, htext, hty, hfirst, hsecond⟩ := (hd.of_bare_eq hs.text).1
  have hlt : d.id.index < t.size := hd.1.lt_size
  refine .node hn ?_
  have rule : visitByKind visit d.id n = variableDecl d.id n := by
    simp only [visitByKind, hkind]
  rw [rule]
  refine .lift (declaredType_eq hty) ?_
  rw [hfirst, htext, hsecond]
  refine plays_length hs hd.2 fun length hlength => ?_
  rw [hlength, VarDecl.events, VarDecl.next]
  cases hshape : variableShape d.name d.shape.length with
  | error problem => exact plays_report hs problem hlt
  | ok r =>
    obtain ⟨kind, size⟩ := r
    obtain ⟨hsize, hkind⟩ := le_of_variableShape hshape
    refine (plays_declareStored hs hlt d.name d.ty hkind (hroom.storage hsize)).bind
      fun s₁ _ hs₁ => ?_
    have hinitial := hd.2
    cases hinit : d.shape with
    | scalar => exact plays_pure hs₁ ()
    | array id length => exact plays_pure hs₁ ()
    | initialized value =>
      rw [hinit] at hinitial
      have hvalue : t.HasExpr (.literal value) := .literal hinitial
      have hpos := hvalue.isExpression.lt_size
      have typed := plays_expression hs₁ hvalue (by simp [Expr.ids]) (by simp [Expr.ids]; omega)
      refine Plays.congr (typed.bind fun s₂ _ hs₂ => ?_) rfl
      exact plays_expect hs₂ d.ty (some value.ty) hvalue.isExpression.lt_size

/-- The parameters of a method are declared one after the other. -/
theorem plays_parameter (hs : s.Stands t c) {param : Param} (hp : t.HasParam param)
    (hroom : c.Roomy 1) : Plays t s (parameter param.id) () (param.events c) (param.next c) := by
  obtain ⟨n, hn, -, htext, hty⟩ := hp.of_bare_eq hs.text
  refine .node hn (.lift (declaredType_eq hty) ?_)
  rw [htext]
  exact plays_declareStored hs hp.lt_size param.name param.ty rfl (hroom.storage (by decide))

/-! ### Statements -/

theorem plays_condition (hs : s.Stands t c) {e : Expr} (he : t.HasExpr e) (hd : e.ids.Nodup)
    (hsize : e.ids.length ≤ t.size) :
    Plays t s (condition (some e.id)) () (conditionEvents c.find? e) c :=
  (plays_expression hs he hd hsize).bind fun _ _ hs₁ =>
    plays_expect hs₁ .bool (e.type c.find?) he.isExpression.lt_size

theorem plays_returnValue (hs : s.Stands t c) {value : Option Expr} {n : Node}
    (hfirst : n.first = value.map Expr.id) (h : id.index < t.size)
    (he : ∀ e ∈ value, t.HasExpr e ∧ e.ids.Nodup ∧ e.ids.length ≤ t.size) :
    Plays t s (returnValue id n) () (returnEvents c id value) c := by
  have typed : Plays t s (typePart expression n.first) (value.bind fun e => e.type c.find?)
      (value.elim [] fun e => e.events c.find?) c := by
    rw [hfirst]
    cases value with
    | none => exact plays_pure hs none
    | some e =>
      obtain ⟨he, hd, hsize⟩ := he e rfl
      exact plays_expression hs he hd hsize
  refine typed.bind fun s₁ _ hs₁ => .get ?_
  rw [hs₁.method_eq, hfirst]
  cases c.method with
  | none => exact plays_pure hs₁ ()
  | some enclosing =>
    obtain ⟨name, ty⟩ := enclosing
    cases value with
    | none => cases ty <;> first
      | exact plays_pure hs₁ ()
      | exact plays_report hs₁ _ h
    | some e => cases ty <;> first
      | exact plays_report hs₁ _ h
      | exact plays_expect hs₁ _ (e.type c.find?) h

theorem plays_jump (hs : s.Stands t c) (j : Jump) (h : id.index < t.size) :
    Plays t s (jump j.word id) () (if c.loops = 0 then [.complain (.outsideLoop j.word) id] else [])
      c := by
  refine .get ?_
  rw [hs.loopDepth_eq]
  by_cases hzero : c.loops = 0
  · rw [if_pos hzero, if_pos hzero]
    exact plays_report hs _ h
  · rw [if_neg hzero, if_neg hzero]
    exact plays_pure hs ()

/-- Behind a block its variables go out of sight, whose words are all that were taken up. -/
theorem exists_closeScope {locals : List VarDecl} {body : List Stmt}
    (hs : s.Stands t ((c.locals locals).after (Stmt.bodyEvents (c.locals locals) body)))
    (hroom : (c.locals locals).Roomy 0) (hopened : ∀ b ∈ c.bindings, b.symbol.level ≤ c.level) :
    ∃ (reclaimed : Nat) (closed : Context), Plays t s closeScope reclaimed [] closed ∧
      closed.frame.offset = c.frame.offset + reclaimed ∧
      { closed with frame := { closed.frame with offset := c.frame.offset } } =
        c.after (c.inner.along VarDecl.events VarDecl.next locals ++
          Stmt.bodyEvents (c.locals locals) body) := by
  obtain ⟨new, hnew, hgrown⟩ := Context.grows_along VarDecl.grows c.inner locals
  rw [Context.locals] at *
  rw [hgrown] at hs hroom ⊢
  have hlimit : Binding.words new < wordLimit := by
    simp only [Context.Roomy, Context.extend] at hroom
    omega
  refine ⟨_, _, plays_closeScope hs (rfl : _ = new ++ c.bindings) hnew
    (fun b hb => Nat.lt_succ_of_le (hopened b hb)) hlimit, rfl, ?_⟩
  simp [Context.extend, Context.after, Context.inner, extent_append, Nat.add_assoc, Nat.max_assoc]

/-- Giving words of storage back. -/
theorem plays_giveBack {reclaimed words : Nat} (hs : s.Stands t c)
    (h : c.frame.offset = words + reclaimed) :
    Plays t s (giveBack reclaimed) () []
      { c with frame := { c.frame with offset := words } } := by
  refine plays_modify hs ?_ (hs.sound.congr rfl (Nat.le_refl _)) rfl fun b hb => hb
  have given : c.frame.offset - reclaimed = words := by omega
  conv => lhs; rw [← hs.seated]
  simp only [Checker.seat, given]

/-- Behind a block the same is in sight as before it, and its words are given back. -/
theorem plays_closeBlock {locals : List VarDecl} {body : List Stmt}
    (hs : s.Stands t ((c.locals locals).after (Stmt.bodyEvents (c.locals locals) body)))
    (hroom : (c.locals locals).Roomy 0) (hopened : ∀ b ∈ c.bindings, b.symbol.level ≤ c.level) :
    Plays t s (closeScope >>= giveBack) () []
      (c.after (c.inner.along VarDecl.events VarDecl.next locals ++
        Stmt.bodyEvents (c.locals locals) body)) := by
  obtain ⟨reclaimed, closed, hclose, hoffset, hback⟩ := exists_closeScope hs hroom hopened
  rw [← hback]
  exact Plays.congr (hclose.bind fun s₁ _ hs₁ => plays_giveBack hs₁ hoffset) (List.append_nil [])

section Block

variable {visit : NodeId → Check Unit} {head : Option NodeId} {k : Nat} {I : Context → Prop}

/-- Visiting variables, where `I` says what the visits may rely on. -/
theorem plays_locals (hnext : ∀ (c : Context) (d : VarDecl), I c → I (d.next c))
    (hs : s.Stands t c) (hI : I c) {locals : List VarDecl}
    (hl : t.Linked head (locals.map VarDecl.id)) (hroom : c.Roomy (locals.length + k))
    (hvisit : ∀ d ∈ locals, ∀ (s : Checker) (c : Context), s.Stands t c → I c → c.Roomy 1 →
      Plays t s (visit d.id) () (d.events c) (d.next c)) :
    Plays t s (eachSibling head visit) () (c.along VarDecl.events VarDecl.next locals)
      (locals.foldl VarDecl.next c) := by
  refine plays_eachSibling (fun c rest => I c ∧ c.Roomy (rest.length + k) ∧ ∀ d ∈ rest, d ∈ locals)
    ?_ ⟨hI, hroom, fun d hd => hd⟩ hs hl
  rintro c s d rest ⟨hI, hroom, hmem⟩ hs
  obtain ⟨hd, hrest⟩ := List.forall_mem_cons.1 hmem
  refine ⟨hvisit d hd s c hs hI (hroom.mono rfl (by rw [List.length_cons]; omega)),
    hnext c d hI, ?_, hrest⟩
  exact VarDecl.roomy (hroom.mono rfl (by rw [List.length_cons]; omega)) d

/-- Visiting statements, where `I` says what the visits may rely on. -/
theorem plays_body (hafter : ∀ (c : Context) (es : List Event), I c → I (c.after es))
    (hs : s.Stands t c) (hI : I c) {body : List Stmt}
    (hl : t.Linked head (body.map Stmt.id)) (hroom : c.Roomy k)
    (hvisit : ∀ st ∈ body, ∀ (s : Checker) (c : Context), s.Stands t c → I c → c.Roomy k →
      Plays t s (visit st.id) () (st.events c) (c.after (st.events c))) :
    Plays t s (eachSibling head visit) () (Stmt.bodyEvents c body)
      (c.after (Stmt.bodyEvents c body)) := by
  rw [← Stmt.foldl_after, Stmt.bodyEvents_eq]
  refine plays_eachSibling (fun c rest => I c ∧ c.Roomy k ∧ ∀ st ∈ rest, st ∈ body)
    ?_ ⟨hI, hroom, fun st hst => hst⟩ hs hl
  rintro c s st rest ⟨hI, hroom, hmem⟩ hs
  obtain ⟨hst, hrest⟩ := List.forall_mem_cons.1 hmem
  exact ⟨hvisit st hst s c hs hI hroom, hafter c _ hI, hroom.mono rfl (Nat.le_refl _), hrest⟩

end Block

/-! ### All statements -/

theorem plays_assignment (hs : s.Stands t c) {target : Target} {value : Expr} {n : Node}
    (hfirst : n.first = some target.id) (hsecond : n.second = some value.id)
    (h : id.index < t.size) (ht : t.HasExpr target.expr) (hv : t.HasExpr value)
    (hd : (Stmt.assignment id target value).ids.Nodup)
    (hsize : (Stmt.assignment id target value).ids.length ≤ t.size) :
    Plays t s (assignment id n) () ((Stmt.assignment id target value).events c) c := by
  obtain ⟨-, hd⟩ := List.nodup_cons.1 hd
  obtain ⟨htarget, hvalue, -⟩ := List.nodup_append.1 hd
  simp only [Stmt.ids, List.length_cons, List.length_append] at hsize
  rw [← target.expr_id] at hfirst
  rw [Stmt.events, List.append_assoc, assignment, hfirst, hsecond]
  refine (plays_expression hs ht htarget (by omega)).bind fun s₁ _ hs₁ => ?_
  refine (plays_expression hs₁ hv hvalue (by omega)).bind fun s₂ _ hs₂ => ?_
  cases target.expr.type c.find? with
  | none => exact plays_pure hs₂ ()
  | some wanted => exact plays_expect hs₂ wanted _ h

/-- The branch of a conditional with the condition. -/
theorem plays_thenBranch (hs : s.Stands t c) {branch : NodeId} {condition : Expr} {yes : NodeId}
    {visit : NodeId → Check Unit} {es : List Event} {c₁ : Context}
    (hbranch : t.Has branch fun n => n.kind = .thenBranch ∧ n.first = some condition.id ∧
      n.second = some yes)
    (hc : t.HasExpr condition) (hd : condition.ids.Nodup) (hsize : condition.ids.length ≤ t.size)
    (hyes : ∀ s₁ : Checker, s₁.Stands t c → Plays t s₁ (visit yes) () es c₁) :
    Plays t s (node branch >>= visitByKind visit branch) ()
      (conditionEvents c.find? condition ++ es) c₁ := by
  obtain ⟨n, hn, hkind, hfirst, hsecond⟩ := hbranch.of_bare_eq hs.text fun n m hb hp => by
    rwa [← Node.kind_of_bare_eq hb, ← Node.first_of_bare_eq hb, ← Node.second_of_bare_eq hb] at hp
  refine .node hn ?_
  simp only [visitByKind, hkind, hfirst, hsecond]
  exact (plays_condition hs hc hd hsize).bind fun s₁ _ hs₁ => hyes s₁ hs₁

/-- The branch of a conditional without a condition. -/
theorem plays_elseBranch (hs : s.Stands t c) {branch no : NodeId} {visit : NodeId → Check Unit}
    {es : List Event} {c₁ : Context}
    (hbranch : t.Has branch fun n => n.kind = .elseBranch ∧ n.first = some no)
    (hno : Plays t s (visit no) () es c₁) :
    Plays t s (node branch >>= visitByKind visit branch) () es c₁ := by
  obtain ⟨n, hn, hkind, hfirst⟩ := hbranch.of_bare_eq hs.text fun n m hb hp => by
    rwa [← Node.kind_of_bare_eq hb, ← Node.first_of_bare_eq hb] at hp
  refine .node hn ?_
  simp only [visitByKind, hkind, hfirst]
  exact hno

/-- Inside of a loop. -/
theorem plays_looping (hs : s.Stands t c) {visit : NodeId → Check Unit} {body : NodeId}
    {es : List Event}
    (hbody : ∀ s₁ : Checker, s₁.Stands t { c with loops := c.loops + 1 } →
      Plays t s₁ (visit body) () es (({ c with loops := c.loops + 1 } : Context).after es)) :
    Plays t s (do
        modify fun s => { s with loopDepth := s.loopDepth + 1 }
        visitPart visit (some body)
        modify fun s => { s with loopDepth := s.loopDepth - 1 }) ⟨⟩ es (c.after es) := by
  have entered : Plays t s (modify fun s => { s with loopDepth := s.loopDepth + 1 }) ⟨⟩ []
      { c with loops := c.loops + 1 } := by
    refine plays_modify hs ?_ (hs.sound.congr rfl (Nat.le_refl _)) rfl fun b hb => hb
    conv => lhs; rw [← hs.seated]
    rfl
  refine Plays.congr (entered.bind fun s₁ _ hs₁ => (hbody s₁ hs₁).bind fun s₂ _ hs₂ => ?_)
    (List.append_nil es)
  refine plays_modify hs₂ ?_ (hs₂.sound.congr rfl (Nat.le_refl _)) rfl fun b hb => hb
  conv => lhs; rw [← hs₂.seated]
  rfl

/-- A statement that is checked without anything being declared. -/
theorem Plays.quiet {m : Check Unit} {es : List Event} (h : Plays t s m () es c)
    (hes : Event.declared es = []) : Plays t s m () es (c.after es) := by
  rwa [Context.after_of_declared_eq_nil hes]

section Constructs

variable {visit : NodeId → Check Unit} {condition : Expr}

theorem plays_assignmentNode (hs : s.Stands t c) {target : Target} {value : Expr}
    (hst : t.HasStmt (.assignment id target value))
    (hd : (Stmt.assignment id target value).ids.Nodup)
    (hsize : (Stmt.assignment id target value).ids.length ≤ t.size) :
    Plays t s (node id >>= visitByKind visit id) () ((Stmt.assignment id target value).events c)
      (c.after ((Stmt.assignment id target value).events c)) := by
  have held := hst.of_bare_eq hs.text
  cases hst with
  | assignment hn' ht hv =>
    cases held with
    | assignment hn _ _ =>
      obtain ⟨n, hn, hkind, hfirst, hsecond⟩ := hn
      refine .node hn ?_
      have rule : visitByKind visit id n = Check.assignment id n := by
        simp only [visitByKind, hkind]
      rw [rule]
      refine (plays_assignment hs hfirst hsecond hn'.lt_size ht hv hd hsize).quiet ?_
      rw [Stmt.events, Event.declared_append, declared_elim fun ty => by simp]
      simp

theorem plays_callNode (hs : s.Stands t c) {call : Call} (hc : t.HasExpr call.expr)
    (hd : call.expr.ids.Nodup) (hsize : call.expr.ids.length ≤ t.size) :
    Plays t s (node call.id >>= visitByKind visit call.id) () ((Stmt.call call).events c)
      (c.after ((Stmt.call call).events c)) := by
  cases hc.of_bare_eq hs.text with
  | call hn _ _ =>
    obtain ⟨n, hn, hkind, -⟩ := hn
    refine .node hn ?_
    have rule : visitByKind visit call.id n = discard (expression call.id) := by
      simp only [visitByKind, hkind]
    rw [rule]
    exact (plays_expression hs hc hd hsize).discard.quiet (Expr.declared_events _)

theorem plays_ifThen (hs : s.Stands t c) {branch : NodeId} {yes : Stmt}
    (hst : t.HasStmt (.ifThen id branch condition yes))
    (hbranch : Plays t s (visit branch) () (conditionEvents c.find? condition ++ yes.events c)
      (c.after (yes.events c))) :
    Plays t s (node id >>= visitByKind visit id) ()
      ((Stmt.ifThen id branch condition yes).events c)
      (c.after ((Stmt.ifThen id branch condition yes).events c)) := by
  cases hst.of_bare_eq hs.text with
  | ifThen hn _ _ _ =>
    obtain ⟨n, hn, hkind, hfirst, hsecond⟩ := hn
    refine .node hn ?_
    rw [Stmt.events, ← Context.after_append,
      Context.after_of_declared_eq_nil (declared_conditionEvents _ _)]
    simp only [visitByKind, hkind, hfirst, hsecond]
    exact Plays.congr (hbranch.bind fun s₁ _ hs₁ => plays_pure hs₁ ()) (List.append_nil _)

theorem plays_ifElse (hs : s.Stands t c) {branch other : NodeId} {yes no : Stmt}
    (hst : t.HasStmt (.ifElse id branch condition yes other no))
    (hbranch : Plays t s (visit branch) () (conditionEvents c.find? condition ++ yes.events c)
      (c.after (yes.events c)))
    (hother : ∀ s₁ : Checker, s₁.Stands t (c.after (yes.events c)) →
      Plays t s₁ (visit other) () (no.events (c.after (yes.events c)))
        ((c.after (yes.events c)).after (no.events (c.after (yes.events c))))) :
    Plays t s (node id >>= visitByKind visit id) ()
      ((Stmt.ifElse id branch condition yes other no).events c)
      (c.after ((Stmt.ifElse id branch condition yes other no).events c)) := by
  cases hst.of_bare_eq hs.text with
  | ifElse hn _ _ _ _ _ =>
    obtain ⟨n, hn, hkind, hfirst, hsecond⟩ := hn
    refine .node hn ?_
    rw [Stmt.events, ← Context.after_append, ← Context.after_append,
      Context.after_of_declared_eq_nil (declared_conditionEvents _ _)]
    simp only [visitByKind, hkind, hfirst, hsecond]
    exact hbranch.bind fun s₁ _ hs₁ => hother s₁ hs₁

theorem plays_loop (hs : s.Stands t c) {body : Stmt} (hst : t.HasStmt (.loop id condition body))
    (hd : condition.ids.Nodup) (hsize : condition.ids.length ≤ t.size)
    (hbody : ∀ s₁ : Checker, s₁.Stands t { c with loops := c.loops + 1 } →
      Plays t s₁ (visit body.id) () (body.events { c with loops := c.loops + 1 })
        (({ c with loops := c.loops + 1 } : Context).after
          (body.events { c with loops := c.loops + 1 }))) :
    Plays t s (node id >>= visitByKind visit id) () ((Stmt.loop id condition body).events c)
      (c.after ((Stmt.loop id condition body).events c)) := by
  have held := hst.of_bare_eq hs.text
  cases hst with
  | loop _ hc _ =>
    cases held with
    | loop hn _ _ =>
      obtain ⟨n, hn, hkind, hfirst, hsecond⟩ := hn
      refine .node hn ?_
      rw [Stmt.events, ← Context.after_append,
        Context.after_of_declared_eq_nil (declared_conditionEvents _ _)]
      simp only [visitByKind, hkind, Check.loop, hfirst, hsecond]
      refine (plays_condition hs hc hd hsize).bind fun s₁ _ hs₁ => ?_
      exact plays_looping hs₁ hbody

theorem plays_returnNode (hs : s.Stands t c) {value : Option Expr}
    (hst : t.HasStmt (.returnValue id value)) (hd : (Stmt.returnValue id value).ids.Nodup)
    (hsize : (Stmt.returnValue id value).ids.length ≤ t.size) :
    Plays t s (node id >>= visitByKind visit id) () ((Stmt.returnValue id value).events c)
      (c.after ((Stmt.returnValue id value).events c)) := by
  have held := hst.of_bare_eq hs.text
  cases hst with
  | returnValue hn' hv =>
    cases held with
    | returnValue hn _ =>
      obtain ⟨n, hn, hkind, hfirst⟩ := hn
      refine .node hn ?_
      simp only [visitByKind, hkind]
      refine (plays_returnValue hs hfirst hn'.lt_size fun e he => ⟨hv e he, ?_⟩).quiet
        (declared_returnEvents ..)
      cases he
      simp only [Stmt.ids, Option.toList_some, List.flatMap_cons, List.flatMap_nil,
        List.append_nil, List.length_cons] at hd hsize
      exact ⟨(List.nodup_cons.1 hd).2, by omega⟩

theorem plays_jumpNode (hs : s.Stands t c) {j : Jump} (hst : t.HasStmt (.jump id j)) :
    Plays t s (node id >>= visitByKind visit id) () ((Stmt.jump id j).events c)
      (c.after ((Stmt.jump id j).events c)) := by
  have held := hst.of_bare_eq hs.text
  cases hst with
  | jump hn' =>
    cases held with
    | jump hn =>
      obtain ⟨n, hn, hkind⟩ := hn
      have rule : visitByKind visit id n = Check.jump j.word id := by
        cases j <;> simp only [visitByKind, hkind, Jump.kind] <;> rfl
      refine .node hn ?_
      rw [rule]
      refine (plays_jump hs j hn'.lt_size).quiet ?_
      split <;> rfl

/-- The node of a block in the course of a check. -/
theorem exists_blockNode (hs : s.Stands t c) {locals : List VarDecl} {body : List Stmt}
    (hst : t.HasStmt (.block id locals body)) : ∃ n, s.tree.node id = .ok n ∧ n.kind = .block ∧
      t.Linked n.first (locals.map VarDecl.id) ∧ t.Linked n.second (body.map Stmt.id) := by
  cases hst.of_bare_eq hs.text with
  | block hn _ _ =>
    obtain ⟨n, hn, hkind, hfirst, hsecond⟩ := hn
    exact ⟨n, hn, hkind, hfirst.of_bare_eq hs.text.symm, hsecond.of_bare_eq hs.text.symm⟩

/-- A block, where visiting what stands in it plays its events and closing it does, too. -/
theorem plays_blockWith (hs : s.Stands t c) {I : Context → Prop} (hI : Context.Lasting I)
    (hc : I c) {n : Node} {locals : List VarDecl} {body : List Stmt} {k : Nat}
    {settle : Nat → Check Unit}
    (hlocals : t.Linked n.first (locals.map VarDecl.id))
    (hbody : t.Linked n.second (body.map Stmt.id)) (hroom : c.Roomy (locals.length + k))
    (hvisit : ∀ d ∈ locals, ∀ (s : Checker) (c : Context), s.Stands t c → I c → c.Roomy 1 →
      Plays t s (visit d.id) () (d.events c) (d.next c))
    (hvisit' : ∀ st ∈ body, ∀ (s : Checker) (c : Context), s.Stands t c → I c → c.Roomy k →
      Plays t s (visit st.id) () (st.events c) (c.after (st.events c)))
    (hclose : ∀ s₁ : Checker,
      s₁.Stands t ((c.locals locals).after (Stmt.bodyEvents (c.locals locals) body)) →
      (c.locals locals).Roomy 0 →
      Plays t s₁ (closeScope >>= settle) () []
        (c.after ((Stmt.block id locals body).events c))) :
    Plays t s (blockWith settle visit n) () ((Stmt.block id locals body).events c)
      (c.after ((Stmt.block id locals body).events c)) := by
  have inside := Context.roomy_locals hroom
  have hroom : c.inner.Roomy (locals.length + k) := hroom.mono rfl (Nat.le_refl _)
  have hlast : I (c.locals locals) :=
    List.foldlRecOn locals VarDecl.next (hI.inner c hc) fun c hc d _ => hI.next c d hc
  refine Plays.congr ((plays_openScope hs).bind fun s₁ _ hs₁ => ?_) (List.nil_append _)
  refine (plays_locals hI.next hs₁ (hI.inner c hc) hlocals hroom hvisit).bind fun s₂ _ hs₂ => ?_
  refine Plays.congr ((plays_body hI.after hs₂ hlast hbody inside hvisit').bind
    fun s₃ _ hs₃ => ?_) (List.append_nil _)
  exact hclose s₃ hs₃ (inside.mono rfl (Nat.zero_le _))

end Constructs

/-! ### Visits by the rules -/

/-- `visit` goes by the rules, as far as it can be told from contexts that `I` holds of. There may
be something around the visits, and blocks may have a rule of their own. -/
structure Visits (t : Tree) (I : Context → Prop) (visit : Nat → NodeId → Check Unit) : Prop where
  lasting : Context.Lasting I
  rule : ∀ {depth : Nat} {s : Checker} {c c₁ : Context} {id : NodeId} {es : List Event},
    s.Stands t c → I c → I c₁ → (t.Has id fun n => n.kind.opensScope = false) →
    Plays t s (node id >>= visitByKind (visit depth) id) () es c₁ →
    Plays t s (visit (depth + 1) id) () es c₁
  block : ∀ {depth k : Nat} {s : Checker} {c : Context} {id : NodeId} {locals : List VarDecl}
    {body : List Stmt}, s.Stands t c → I c → t.HasStmt (.block id locals body) →
    c.Roomy (locals.length + k) →
    (∀ d ∈ locals, ∀ (s : Checker) (c : Context), s.Stands t c → I c → c.Roomy 1 →
      Plays t s (visit depth d.id) () (d.events c) (d.next c)) →
    (∀ st ∈ body, ∀ (s : Checker) (c : Context), s.Stands t c → I c → c.Roomy k →
      Plays t s (visit depth st.id) () (st.events c) (c.after (st.events c))) →
    Plays t s (visit (depth + 1) id) () ((Stmt.block id locals body).events c)
      (c.after ((Stmt.block id locals body).events c))

namespace Visits

variable {I : Context → Prop} {visit : Nat → NodeId → Check Unit} {depth : Nat}

theorem after (w : Visits t I visit) (hI : I c) (es : List Event) : I (c.after es) :=
  w.lasting.after c es hI

/-- A statement other than a block, by the rule for its node. -/
theorem plays_of_node (w : Visits t I visit) (hs : s.Stands t c) (hI : I c) {st : Stmt}
    (hst : t.HasStmt st) (hblock : ∀ id locals body, st ≠ .block id locals body)
    (h : Plays t s (node st.id >>= visitByKind (visit depth) st.id) () (st.events c)
      (c.after (st.events c))) :
    Plays t s (visit (depth + 1) st.id) () (st.events c) (c.after (st.events c)) :=
  w.rule hs hI (w.after hI _) (hst.opensScope_eq_false hblock) h

/-- The branch of a conditional with the condition. -/
theorem plays_branch (w : Visits t I visit) (hs : s.Stands t c) (hI : I c) {branch : NodeId}
    {condition : Expr} {yes : Stmt}
    (hbranch : t.Has branch fun n => n.kind = .thenBranch ∧ n.first = some condition.id ∧
      n.second = some yes.id)
    (hc : t.HasExpr condition) (hd : condition.ids.Nodup) (hsize : condition.ids.length ≤ t.size)
    (hyes : ∀ s₁ : Checker, s₁.Stands t c →
      Plays t s₁ (visit depth yes.id) () (yes.events c) (c.after (yes.events c))) :
    Plays t s (visit (depth + 1) branch) () (conditionEvents c.find? condition ++ yes.events c)
      (c.after (yes.events c)) :=
  w.rule hs hI (w.after hI _) (hbranch.imp fun n hn => by rw [hn.1]; rfl)
    (plays_thenBranch hs hbranch hc hd hsize hyes)

/-- A variable that stands in a block. -/
theorem plays_local (w : Visits t I visit) (hs : s.Stands t c) (hI : I c) {d : VarDecl}
    (hd : t.HasVarDecl d) (hroom : c.Roomy 1) :
    Plays t s (visit (depth + 1) d.id) () (d.events c) (d.next c) :=
  w.rule hs hI (w.lasting.next c d hI) (hd.1.imp fun n hn => by rw [hn.1]; rfl)
    (plays_variableDecl hs hd hroom _)

/-- **Checking plays its transcript.** A statement that the tree holds without a node in two places
is checked, as deep as it goes, where there is room for what it declares. -/
theorem plays (w : Visits t I visit) {st : Stmt} (hs : s.Stands t c) (hI : I c)
    (hst : t.HasStmt st) (hd : st.ids.Nodup) (hdepth : st.ids.length ≤ depth)
    (hsize : st.ids.length ≤ t.size) (hroom : c.Roomy st.ids.length) :
    Plays t s (visit depth st.id) () (st.events c) (c.after (st.events c)) := by
  induction st generalizing s c depth with
  | assignment id target value =>
    obtain ⟨depth, rfl⟩ := Stmt.exists_depth hdepth
    exact w.plays_of_node hs hI hst (fun _ _ _ h => by cases h)
      (plays_assignmentNode hs hst hd hsize)
  | call call =>
    obtain ⟨depth, rfl⟩ := Stmt.exists_depth hdepth
    have hc : t.HasExpr call.expr := by cases hst; assumption
    exact w.plays_of_node hs hI hst (fun _ _ _ h => by cases h) (plays_callNode hs hc hd hsize)
  | ifThen id branch condition yes ih =>
    obtain ⟨hcondition, hd, -⟩ := List.nodup_append.1 hd.tail.tail
    simp only [Stmt.ids, List.length_cons, List.length_append] at hdepth hsize hroom
    obtain ⟨depth, rfl⟩ : ∃ d, depth = d + 2 := ⟨depth - 2, by omega⟩
    refine w.plays_of_node hs hI hst (fun _ _ _ h => by cases h) (plays_ifThen hs hst ?_)
    cases hst with
    | ifThen _ hbranch hc hyes =>
      exact w.plays_branch hs hI hbranch hc hcondition (by omega) fun s₁ hs₁ =>
        ih hs₁ hI hyes hd (by omega) (by omega) (hroom.mono rfl (by omega))
  | ifElse id branch condition yes other no ihy ihn =>
    obtain ⟨hd, hdno, -⟩ := List.nodup_append.1 hd.tail.tail.tail
    obtain ⟨hcondition, hdyes, -⟩ := List.nodup_append.1 hd
    simp only [Stmt.ids, List.length_cons, List.length_append] at hdepth hsize hroom
    obtain ⟨depth, rfl⟩ : ∃ d, depth = d + 2 := ⟨depth - 2, by omega⟩
    have hI₁ : I (c.after (yes.events c)) := w.after hI _
    refine w.plays_of_node hs hI hst (fun _ _ _ h => by cases h)
      (plays_ifElse hs hst ?_ fun s₁ hs₁ => ?_)
    · cases hst with
      | ifElse _ hbranch _ hc hyes _ =>
        exact w.plays_branch hs hI hbranch hc hcondition (by omega) fun s₁ hs₁ =>
          ihy hs₁ hI hyes hdyes (by omega) (by omega) (hroom.mono rfl (by omega))
    · cases hst with
      | ifElse _ _ hother _ _ hno =>
        exact w.rule hs₁ hI₁ (w.after hI₁ _) (hother.imp fun n hn => by rw [hn.1]; rfl)
          (plays_elseBranch hs₁ hother
            (ihn hs₁ hI₁ hno hdno (by omega) (by omega) (hroom.mono rfl (by omega))))
  | loop id condition body ih =>
    obtain ⟨depth, rfl⟩ := Stmt.exists_depth hdepth
    obtain ⟨hcondition, hd, -⟩ := List.nodup_append.1 hd.tail
    simp only [Stmt.ids, List.length_cons, List.length_append] at hdepth hsize hroom
    refine w.plays_of_node hs hI hst (fun _ _ _ h => by cases h)
      (plays_loop hs hst hcondition (by omega) fun s₁ hs₁ => ?_)
    cases hst with
    | loop _ _ hbody =>
      exact ih hs₁ (w.lasting.looping c hI) hbody hd (by omega) (by omega)
        (hroom.mono rfl (by omega))
  | returnValue id value =>
    obtain ⟨depth, rfl⟩ := Stmt.exists_depth hdepth
    exact w.plays_of_node hs hI hst (fun _ _ _ h => by cases h) (plays_returnNode hs hst hd hsize)
  | jump id j =>
    obtain ⟨depth, rfl⟩ := Stmt.exists_depth hdepth
    exact w.plays_of_node hs hI hst (fun _ _ _ h => by cases h) (plays_jumpNode hs hst)
  | block id locals body ih =>
    obtain ⟨depth, rfl⟩ := Stmt.exists_depth hdepth
    obtain ⟨-, hd, -⟩ := List.nodup_append.1 hd.tail
    have hlocals := VarDecl.length_le_length_ids locals
    simp only [Stmt.ids, List.length_cons, List.length_append] at hdepth hsize hroom
    rw [Stmt.bodyIds_eq] at hd hdepth hsize hroom
    have hroom : c.Roomy (locals.length + (body.flatMap Stmt.ids).length) :=
      hroom.mono rfl (by omega)
    have hheld := hst
    cases hst with
    | block _ hvars hbody =>
      refine w.block hs hI hheld hroom (fun d hd s c hs hI hroom => ?_)
        fun st hmem s c hs hI hroom => ?_
      · have hpos := List.length_pos_of_mem hd
        obtain ⟨depth, rfl⟩ : ∃ k, depth = k + 1 := ⟨depth - 1, by omega⟩
        exact w.plays_local hs hI (hvars d hd) hroom
      · have part := sublist_flatMap_of_mem hmem (f := Stmt.ids)
        have hlength := part.length_le
        exact ih st hmem hs hI (hbody st hmem) (part.nodup hd) (by omega) (by omega)
          (hroom.mono rfl hlength)

end Visits

/-- The visits of a check go by the rules. -/
theorem visits_statementWithin : Visits t (fun _ => True) statementWithin where
  lasting := Context.lasting_true
  rule _ _ _ _ h := h
  block hs _ hst hroom hvisit hvisit' := by
    obtain ⟨n, hn, hkind, hfirst, hsecond⟩ := exists_blockNode hs hst
    refine .node hn ?_
    simp only [visitByKind, hkind]
    exact plays_blockWith hs Context.lasting_true trivial hfirst hsecond hroom hvisit hvisit'
      fun s₁ hs₁ hroom => plays_closeBlock hs₁ hroom hs.sound.opened

/-- Checking a statement. -/
theorem plays_statementWithin {st : Stmt} {depth : Nat} (hs : s.Stands t c) (hst : t.HasStmt st)
    (hd : st.ids.Nodup) (hdepth : st.ids.length ≤ depth) (hsize : st.ids.length ≤ t.size)
    (hroom : c.Roomy st.ids.length) :
    Plays t s (statementWithin depth st.id) () (st.events c) (c.after (st.events c)) :=
  visits_statementWithin.plays hs trivial hst hd hdepth hsize hroom

end Check

end DecafStatics
