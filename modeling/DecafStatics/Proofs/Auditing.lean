import DecafStatics.Proofs.Programs
import DecafStatics.Proofs.Scopes

/-!
# Storage is accounted for

The words of the frame that are taken up are those of the symbols in scope: inside of a method the
header and all symbols that the method declares, outside of methods the fields. The counter of a
check and the symbols of its table are kept apart, and this says that they agree whenever the check
comes to a construct and whenever it leaves one. So a block gives back exactly what was taken up in
it, and a method leaves the frame around it as it was.

That is stated by an audited check. It goes by the same rules, but asks at each visit whether the
books balance, and ends with a fault where they do not; blocks and methods are asked for more. Of
any tree, an audited check that comes to an end has gone through the states that the check itself
goes through. On a program it does come to an end.

## Implementation notes

A construct counts as inside of a method while the check knows the method around it, which it does
from the body on. Parameters are declared before that, and are inside of the method all the same.

A check plays through contexts, and the books of a state are those of the context that it stands at.
So it suffices that the functions on contexts keep the books balanced.

## Main definitions

* `Checker.Balanced` — the storage that is taken up belongs to symbols in scope
* `Check.audited` — the check with audits

## Main results

* `Context.Balanced.store`, `Context.Balanced.after` — declaring, and leaving a construct
* `Check.watches_audited` — audits do nothing but look
* `Check.visits_auditedWithin`, `Check.tours_auditedWithin` — audited visits go by the rules
* `CompilationUnit.runCheck_audited` — the check of a program passes all audits
-/

namespace DecafStatics

/-! ### The books -/

/-- Whether the storage of a symbol is in the frame at hand: inside of a method it is if the symbol
is declared in a method, and outside if it is a field. -/
def Symbol.counts (inside : Bool) (e : Symbol) : Bool :=
  if inside then 0 < e.level else e.level = 0 ∧ (e.kind = .scalar ∨ e.kind = .array)

/-- The words of a frame in which no symbol has storage. -/
def emptyFrameWords (inside : Bool) : Nat := if inside then frameHeaderWords else 0

namespace Checker

/-- The words that are taken up are those of the symbols in scope, and there never were less. -/
def Balanced (inside : Bool) (s : Checker) : Prop :=
  s.frame.offset = emptyFrameWords inside +
      SymbolTable.words (s.table.entries.filter fun e => e.2.counts inside) ∧
    s.frame.offset ≤ s.frame.peak

instance (inside : Bool) (s : Checker) : Decidable (s.Balanced inside) :=
  inferInstanceAs (Decidable (_ ∧ _))

end Checker

/-! ### The audited check -/

namespace Check

/-- Ends the check with a fault about storage where something does not hold. -/
def require (holds : Checker → Prop) [DecidablePred holds] : Check Unit := do
  unless holds (← get) do throw .sizeOverflow

/-- Audits the books before and after a visit. -/
def audit (inside : Checker → Bool) (visit : Check Unit) : Check Unit := do
  require fun s => s.Balanced (inside s)
  visit
  require fun s => s.Balanced (inside s)

/-- Declares a parameter, audited. -/
def auditedParameter (id : NodeId) : Check Unit := audit (fun _ => true) (parameter id)

/-- Gives words of storage back, which have to be exactly those taken up since there were `before`
of them. -/
def auditedGiveBack (before words : Nat) : Check Unit := do
  require fun s => s.frame.offset = before + words
  giveBack words

/-- Checks a block, which has to give back exactly what it has taken up. -/
def auditedBlock (visit : NodeId → Check Unit) (n : Node) : Check Unit := do
  blockWith (auditedGiveBack (← get).frame.offset) visit n

/-- Checks a method, which has to leave the frame around it as it was. -/
def auditedMethod (visit : NodeId → Check Unit) (id : NodeId) (n : Node) : Check Unit := do
  let before := (← get).frame
  methodWith auditedParameter visit id n
  require fun s => s.frame = before

/-- The rules of an audited check. -/
def auditedByKind (visit : NodeId → Check Unit) (id : NodeId) (n : Node) : Check Unit :=
  if n.kind = .block then auditedBlock visit n
  else if n.kind = .methodDecl then auditedMethod visit id n
  else visitByKind visit id n

/-- Checks the construct that `id` names, down to a depth, with an audit around each visit. -/
def auditedWithin : Nat → NodeId → Check Unit
  | 0, _ => throw .endless
  | depth + 1, id =>
    audit (fun s => s.method.isSome) (node id >>= auditedByKind (auditedWithin depth) id)

/-- Checks the constructs from `head` on, audited. -/
def audited (head : Option NodeId) : Check Unit :=
  eachSibling head fun id => do auditedWithin ((← get).tree.size + 1) id

theorem run_require_eq_ok_iff {holds : Checker → Prop} [DecidablePred holds] {s s' : Checker} :
    (require holds).run s = .ok ((), s') ↔ holds s ∧ s' = s := by
  by_cases h : holds s
  · have run : (require holds).run s = .ok ((), s) := by
      simp [require, h]
      rfl
    rw [run]
    constructor
    · rintro ⟨⟩
      exact ⟨h, rfl⟩
    · rintro ⟨-, rfl⟩
      rfl
  · have run : (require holds).run s = .error .sizeOverflow := by
      simp [require, h]
      rfl
    rw [run]
    constructor
    · rintro ⟨⟩
    · exact fun hs => (h hs.1).elim

/-- A visit passes its audit if the books balance before it and after it. -/
theorem run_audit_eq_ok_iff {inside : Checker → Bool} {visit : Check Unit} {s s' : Checker} :
    (audit inside visit).run s = .ok ((), s') ↔
      s.Balanced (inside s) ∧ visit.run s = .ok ((), s') ∧ s'.Balanced (inside s') := by
  constructor
  · intro h
    obtain ⟨⟨⟩, s₁, hrun, hrest⟩ := run_bind_eq_ok_iff.1 h
    obtain ⟨hbefore, rfl⟩ := run_require_eq_ok_iff.1 hrun
    obtain ⟨⟨⟩, s₂, hvisit, hlast⟩ := run_bind_eq_ok_iff.1 hrest
    obtain ⟨hafter, rfl⟩ := run_require_eq_ok_iff.1 hlast
    exact ⟨hbefore, hvisit, hafter⟩
  · rintro ⟨hbefore, hvisit, hafter⟩
    have passes : ∀ {s : Checker}, s.Balanced (inside s) →
        (require fun s => s.Balanced (inside s)).run s = .ok ((), s) :=
      fun h => run_require_eq_ok_iff.2 ⟨h, rfl⟩
    exact (run_bind_of_ok (passes hbefore)).trans
      ((run_bind_of_ok hvisit).trans (passes hafter))

/-- A word that no symbol holds does not pass. -/
example : (audited (some ⟨0⟩)).run { Checker.start ⟨#[Node.blank .breakLoop]⟩ .empty with
    frame := .starting 1 } = .error .sizeOverflow := rfl

/-! ### Audits do nothing but look -/

variable {α β : Type}

/-- Whenever `m` comes to an end, `m'` comes to the same end. -/
def Watches (m m' : Check α) : Prop :=
  ∀ ⦃s s' : Checker⦄ ⦃a : α⦄, m.run s = .ok (a, s') → m'.run s = .ok (a, s')

theorem watches_self (m : Check α) : Watches m m := fun _ _ _ h => h

theorem Watches.bind {m m' : Check α} {f f' : α → Check β} (h : Watches m m')
    (hf : ∀ a, Watches (f a) (f' a)) : Watches (m >>= f) (m' >>= f') := by
  intro s s' b hrun
  obtain ⟨a, s₁, hm, hrest⟩ := run_bind_eq_ok_iff.1 hrun
  exact run_bind_eq_ok_iff.2 ⟨a, s₁, h hm, hf a hrest⟩

/-- What is required makes no difference where it holds. -/
theorem Watches.require {m m' : Check α} (h : Watches m m') (holds : Checker → Prop)
    [DecidablePred holds] : Watches (require holds >>= fun _ => m) m' := by
  intro s s' a hrun
  obtain ⟨⟨⟩, s₁, hholds, hrest⟩ := run_bind_eq_ok_iff.1 hrun
  obtain ⟨-, rfl⟩ := run_require_eq_ok_iff.1 hholds
  exact h hrest

theorem watches_audit {visit visit' : Check Unit} (h : Watches visit visit')
    (inside : Checker → Bool) : Watches (audit inside visit) visit' :=
  fun _ _ _ hrun => h (run_audit_eq_ok_iff.1 hrun).2.1

theorem watches_auditedParameter (id : NodeId) : Watches (auditedParameter id) (parameter id) :=
  watches_audit (watches_self _) _

section Rules

variable {visit visit' : NodeId → Check Unit} (hv : ∀ id, Watches (visit id) (visit' id))

include hv

theorem watches_forM (ids : List NodeId) : Watches (ids.forM visit) (ids.forM visit') := by
  induction ids with
  | nil => exact watches_self _
  | cons id ids ih => exact (hv id).bind fun _ => ih

theorem watches_eachSibling (head : Option NodeId) :
    Watches (eachSibling head visit) (eachSibling head visit') :=
  (watches_self _).bind fun _ => (watches_forM hv _).bind fun _ => watches_self _

theorem watches_visitPart (part : Option NodeId) :
    Watches (visitPart visit part) (visitPart visit' part) := by
  cases part with
  | none => exact watches_self _
  | some id => exact hv id

/-- A block does what it is to do with its words of storage, audited or not. -/
theorem watches_blockWith {settle settle' : Nat → Check Unit}
    (hsettle : ∀ words, Watches (settle words) (settle' words)) (n : Node) :
    Watches (blockWith settle visit n) (blockWith settle' visit' n) :=
  (watches_self _).bind fun _ => (watches_eachSibling hv _).bind fun _ =>
    (watches_eachSibling hv _).bind fun _ => (watches_self closeScope).bind hsettle

theorem watches_block (n : Node) : Watches (auditedBlock visit n) (block visit' n) := by
  intro s s' a hrun
  obtain ⟨before, s₁, hget, hrest⟩ := run_bind_eq_ok_iff.1 hrun
  cases hget
  exact watches_blockWith hv (fun _ => (watches_self _).require _) n hrest

/-- A method declares its parameters, audited or not. -/
theorem watches_methodWith {declare declare' : NodeId → Check Unit}
    (hdeclare : ∀ id, Watches (declare id) (declare' id)) (id : NodeId) (n : Node) :
    Watches (methodWith declare visit id n) (methodWith declare' visit' id n) := by
  have inside : ∀ ty, Watches (methodInsideWith declare visit n ty)
      (methodInsideWith declare' visit' n ty) := fun ty =>
    (watches_self _).bind fun _ => (watches_self _).bind fun _ =>
      (watches_forM hdeclare _).bind fun _ => (watches_self _).bind fun _ =>
        (watches_visitPart hv _).bind fun _ => watches_self _
  exact (watches_self _).bind fun _ => (watches_self _).bind fun _ => (watches_self _).bind fun _ =>
    (watches_self _).bind fun _ => (watches_self _).bind fun _ => (inside _).bind fun _ =>
      watches_self _

theorem watches_method (id : NodeId) (n : Node) :
    Watches (auditedMethod visit id n) (method visit' id n) := by
  intro s s' a hrun
  obtain ⟨before, s₁, hget, hrest⟩ := run_bind_eq_ok_iff.1 hrun
  cases hget
  obtain ⟨⟨⟩, s₂, hmethod, hsame⟩ := run_bind_eq_ok_iff.1 hrest
  obtain ⟨-, rfl⟩ := run_require_eq_ok_iff.1 hsame
  exact watches_methodWith hv watches_auditedParameter id n hmethod

/-- Every audited rule is the rule of the check itself, provided that what it visits is. -/
theorem watches_byKind (id : NodeId) (n : Node) :
    Watches (auditedByKind visit id n) (visitByKind visit' id n) := by
  have siblings : Watches (do eachSibling n.first visit; eachSibling n.second visit)
      (do eachSibling n.first visit'; eachSibling n.second visit') :=
    (watches_eachSibling hv _).bind fun _ => watches_eachSibling hv _
  rw [auditedByKind]
  split
  · rename_i hkind
    simp only [visitByKind, hkind]
    exact watches_block hv n
  split
  · rename_i hkind
    simp only [visitByKind, hkind]
    exact watches_method hv id n
  cases hkind : n.kind <;> simp only [visitByKind, hkind]
  case program => exact siblings
  case package => exact (watches_self _).bind fun _ => siblings
  case block | methodDecl => contradiction
  case conditional =>
    exact (watches_visitPart hv _).bind fun _ => watches_visitPart hv _
  case thenBranch => exact (watches_self _).bind fun _ => watches_visitPart hv _
  case elseBranch => exact watches_visitPart hv _
  case loop =>
    exact (watches_self _).bind fun _ => (watches_self _).bind fun _ =>
      (watches_visitPart hv _).bind fun _ => watches_self _
  all_goals exact watches_self _

end Rules

theorem watches_auditedWithin (depth : Nat) (id : NodeId) :
    Watches (auditedWithin depth id) (statementWithin depth id) := by
  induction depth generalizing id with
  | zero => exact watches_self _
  | succ depth ih =>
    exact watches_audit ((watches_self _).bind fun n => watches_byKind ih id n) _

/-- **An audited check that comes to an end is the check itself.** This is so of any tree and any
state. -/
theorem watches_audited (head : Option NodeId) : Watches (audited head) (statements head) :=
  watches_eachSibling (fun id => (watches_self _).bind fun _ => watches_auditedWithin _ id) head

end Check

/-! ### The books of contexts -/

namespace Context

/-- The words that are taken up are those of the bindings in sight, and there never were less. -/
def Balanced (inside : Bool) (c : Context) : Prop :=
  c.frame.offset = emptyFrameWords inside +
      Binding.words (c.bindings.filter fun b => b.symbol.counts inside) ∧
    c.frame.offset ≤ c.frame.peak

variable {inside : Bool} {c c' : Context}

namespace Balanced

/-- The books are about what is in sight and about the frame. -/
theorem congr (h : c.Balanced inside) (hb : c'.bindings = c.bindings) (hf : c'.frame = c.frame) :
    c'.Balanced inside := by
  rw [Balanced, hb, hf]
  exact h

/-- Behind a construct that declares nothing for what follows, the frame has been larger at most. -/
theorem after (h : c.Balanced inside) (es : List Event) : (c.after es).Balanced inside :=
  ⟨h.1, Nat.le_trans h.2 (Nat.le_max_left ..)⟩

/-- A symbol without storage in the frame does not show. -/
theorem declare (h : c.Balanced inside) {symbol : Symbol} (hcounts : symbol.counts inside = false)
    (node : NodeId) (formals : List Ty) : (c.declare node symbol formals).Balanced inside := by
  by_cases taken : c.Taken symbol.name
  · rw [declare_of_taken taken]
    exact h
  · rw [declare_of_not_taken taken]
    refine ⟨?_, h.2⟩
    rw [List.filter_cons_of_neg (by rw [hcounts]; exact Bool.false_ne_true)]
    exact h.1

/-- A symbol with storage takes up as many words as it has, unless its name is taken. -/
theorem store (h : c.Balanced inside) (node : NodeId) (name : String) (ty : Ty) (kind : SymbolKind)
    (size : Nat) (hcounts : (c.stored name ty kind size).counts inside = true) :
    (c.store node name ty kind size).Balanced inside := by
  by_cases taken : c.Taken name
  · rw [store_of_taken taken]
    exact h
  · rw [store_of_not_taken taken]
    refine ⟨?_, Nat.le_max_right ..⟩
    rw [List.filter_cons_of_pos (by exact hcounts)]
    show c.frame.offset + size = _ + (size + Binding.words _)
    rw [h.1]
    omega

end Balanced

end Context

theorem Check.kind_of_variableShape {name : String} {length : Option Int32} {kind : SymbolKind}
    {size : Nat} (h : variableShape name length = .ok (kind, size)) :
    kind = .scalar ∨ kind = .array := by
  unfold variableShape at h
  split at h
  · cases h
    exact .inl rfl
  · split at h
    · cases h
    · cases h
      exact .inr rfl

/-- A variable has storage in the frame. -/
theorem VarDecl.balanced_next {inside : Bool} {c : Context} (h : c.Balanced inside)
    (hlevel : if inside then 0 < c.level else c.level = 0) (d : VarDecl) :
    (d.next c).Balanced inside := by
  rw [next]
  split
  · exact h
  · rename_i kind size hshape
    refine h.store _ _ _ _ _ ?_
    have storage := Check.kind_of_variableShape hshape
    cases inside <;> simp_all [Symbol.counts, Context.stored]

/-! ### Inside of methods and outside of them -/

namespace Context

variable {c : Context}

/-- In the body of a method, with the books balanced. -/
structure InMethod (c : Context) : Prop where
  balanced : c.Balanced true
  nested : 0 < c.level
  known : c.method.isSome = true

/-- Outside of methods, with the books balanced. -/
structure AtTop (c : Context) : Prop where
  balanced : c.Balanced false
  global : c.level = 0
  unknown : c.method.isSome = false

theorem InMethod.after (h : c.InMethod) (es : List Event) : (c.after es).InMethod :=
  ⟨h.balanced.after es, h.nested, h.known⟩

theorem InMethod.audits {s : Checker} {t : Tree} (h : c.InMethod) (hs : s.Stands t c) :
    c.Balanced s.method.isSome := by
  rw [hs.method_eq, h.known]
  exact h.balanced

theorem AtTop.audits {s : Checker} {t : Tree} (h : c.AtTop) (hs : s.Stands t c) :
    c.Balanced s.method.isSome := by
  rw [hs.method_eq, h.unknown]
  exact h.balanced

theorem atTop_start : start.AtTop := ⟨⟨rfl, Nat.le_refl 0⟩, rfl, rfl⟩

/-- Statements stay in the method. -/
theorem lasting_inMethod : Lasting InMethod where
  after _ es h := h.after es
  inner _ h := ⟨h.balanced.congr rfl rfl, Nat.succ_pos _, h.known⟩
  looping _ h := ⟨h.balanced.congr rfl rfl, h.nested, h.known⟩
  next c d h := by
    have grown := VarDecl.grows c d
    exact ⟨VarDecl.balanced_next h.balanced h.nested d, grown.level_eq ▸ h.nested,
      grown.method_eq ▸ h.known⟩

/-- Declarations stay outside of methods. Only those of variables have storage in the frame. -/
theorem outer_atTop : Outer AtTop where
  external c e h :=
    ⟨h.balanced.declare (by simp [Extern.symbol, Symbol.counts]) _ _,
      level_declare.trans h.global, by rw [Extern.next, method_declare, h.unknown]⟩
  named c p h :=
    ⟨h.balanced.declare (by simp [Program.symbol, Symbol.counts]) _ _,
      level_declare.trans h.global, by rw [Program.named, method_declare, h.unknown]⟩
  field c d h := by
    have grown := VarDecl.grows c d
    exact ⟨VarDecl.balanced_next h.balanced h.global d, grown.level_eq.trans h.global,
      (congrArg Option.isSome grown.method_eq).trans h.unknown⟩
  method c m h :=
    ⟨(h.balanced.declare (by simp [Method.symbol, Symbol.counts]) _ _).congr rfl rfl,
      level_declare.trans h.global, rfl⟩

end Context

namespace Method

variable {c : Context}

/-- Where a method begins nothing but the header of its frame is taken up. -/
theorem balanced_scope (h : c.AtTop) (hopened : c.Opened) (m : Method) :
    (m.scope c).Balanced true := by
  have opened : (c.declare m.id (m.symbol c frameHeaderWords) m.formals).Opened :=
    Context.opened_declare hopened rfl _
  have outside : (m.scope c).bindings.filter (fun b => b.symbol.counts true) = [] := by
    rw [List.filter_eq_nil_iff]
    intro b hb
    have level := opened b hb
    rw [Context.level_declare, h.global] at level
    simp [Symbol.counts, Nat.le_zero.1 level]
  rw [Context.Balanced, outside]
  exact ⟨rfl, Nat.le_refl _⟩

/-- Parameters have storage in the frame of the method. -/
theorem balanced_param (c : Context) (param : Param) (h : c.Balanced true ∧ 0 < c.level) :
    (param.next c).Balanced true ∧ 0 < (param.next c).level := by
  refine ⟨h.1.store _ _ _ _ _ (by simp [Symbol.counts, Context.stored, h.2]), ?_⟩
  rw [Param.next, Context.level_store]
  exact h.2

theorem inMethod_within (h : c.AtTop) (hopened : c.Opened) (m : Method) :
    (m.within c).InMethod := by
  have scope : (m.scope c).Balanced true ∧ 0 < (m.scope c).level :=
    ⟨balanced_scope h hopened m, Nat.succ_pos _⟩
  obtain ⟨balanced, nested⟩ : (m.params.foldl Param.next (m.scope c)).Balanced true ∧ _ :=
    List.foldlRecOn m.params Param.next scope fun c hc param _ => balanced_param c param hc
  exact ⟨balanced.congr rfl rfl, nested, rfl⟩

end Method

/-! ### Passing the audits -/

namespace Checker.Stands

variable {s : Checker} {t : Tree} {c : Context} {inside : Bool}

/-- The books of a state are those of the context that it stands at. -/
theorem balanced (hs : s.Stands t c) (h : c.Balanced inside) : s.Balanced inside := by
  have words : SymbolTable.words (s.table.entries.filter fun e => e.2.counts inside) =
      Binding.words (c.bindings.filter fun b => b.symbol.counts inside) := by
    rw [hs.entries_eq, List.filter_map, Binding.words]
    rfl
  rw [Checker.Balanced, words, hs.frame_eq]
  exact h

end Checker.Stands

namespace Check

variable {t : Tree} {s : Checker} {c c₁ : Context} {id : NodeId}

theorem plays_require (hs : s.Stands t c) {holds : Checker → Prop} [DecidablePred holds]
    (h : holds s) : Plays t s (require holds) () [] c := by
  refine ⟨?_, (plays_pure hs ()).stands⟩
  rw [run_require_eq_ok_iff.2 ⟨h, rfl⟩]
  exact (plays_pure hs ()).run

/-- A visit passes its audit if the books of the contexts before and after it balance. -/
theorem plays_audit (hs : s.Stands t c) {visit : Check Unit} {es : List Event}
    {inside : Checker → Bool} (hbefore : c.Balanced (inside s))
    (h : Plays t s visit () es c₁)
    (hafter : ∀ s₁ : Checker, s₁.Stands t c₁ → c₁.Balanced (inside s₁)) :
    Plays t s (audit inside visit) () es c₁ :=
  ⟨run_audit_eq_ok_iff.2 ⟨hs.balanced hbefore, h.run, h.stands.balanced (hafter _ h.stands)⟩,
    h.stands⟩

/-- Whatever is no scope is checked by the rules of the check itself. -/
theorem plays_auditedByKind {visit : NodeId → Check Unit} {es : List Event} (hs : s.Stands t c)
    (hkind : t.Has id fun n => n.kind.opensScope = false)
    (h : Plays t s (node id >>= visitByKind visit id) () es c₁) :
    Plays t s (node id >>= auditedByKind visit id) () es c₁ := by
  obtain ⟨n, hn, hkind⟩ := hkind.of_bare_eq hs.text fun n m hb hp => by
    rwa [← Node.kind_of_bare_eq hb] at hp
  have rule : auditedByKind visit id n = visitByKind visit id n := by
    rw [auditedByKind, if_neg (by rintro hblock; simp [hblock, NodeKind.opensScope] at hkind),
      if_neg (by rintro hmethod; simp [hmethod, NodeKind.opensScope] at hkind)]
  have read : (node id).run s = .ok (n, s) := run_node_eq_ok_iff.2 ⟨hn, rfl⟩
  refine ⟨?_, h.stands⟩
  rw [run_bind_of_ok read, rule, ← run_bind_of_ok read]
  exact h.run

/-- Giving back what was taken up in a block passes its audit. -/
theorem plays_auditedClose {locals : List VarDecl} {body : List Stmt} {before : Nat}
    (hs : s.Stands t ((c.locals locals).after (Stmt.bodyEvents (c.locals locals) body)))
    (hroom : (c.locals locals).Roomy 0) (hopened : ∀ b ∈ c.bindings, b.symbol.level ≤ c.level)
    (hbefore : before = c.frame.offset) :
    Plays t s (closeScope >>= auditedGiveBack before) () []
      (c.after ((Stmt.block id locals body).events c)) := by
  obtain ⟨reclaimed, closed, hclose, hoffset, hback⟩ := exists_closeScope hs hroom hopened
  rw [Stmt.events, ← hback]
  refine Plays.congr (hclose.bind fun s₁ _ hs₁ => ?_) (List.append_nil [])
  have given : s₁.frame.offset = before + reclaimed := by rw [hs₁.frame_eq, hbefore, hoffset]
  exact Plays.congr ((plays_require hs₁ given).bind fun s₂ _ hs₂ => plays_giveBack hs₂ hoffset)
    (List.append_nil [])

/-- Inside of methods the audited visits go by the rules. -/
theorem visits_auditedWithin : Visits t Context.InMethod auditedWithin where
  lasting := Context.lasting_inMethod
  rule hs hI hI₁ hkind h :=
    plays_audit hs (hI.audits hs) (plays_auditedByKind hs hkind h) fun _ hs₁ => hI₁.audits hs₁
  block {_ _ s c _ _ _} hs hI hst hroom hvisit hvisit' := by
    refine plays_audit hs (hI.audits hs) ?_ fun _ hs₁ => (hI.after _).audits hs₁
    obtain ⟨n, hn, hkind, hfirst, hsecond⟩ := exists_blockNode hs hst
    refine .node hn ?_
    rw [auditedByKind, if_pos hkind]
    exact .get (plays_blockWith hs Context.lasting_inMethod hI hfirst hsecond hroom hvisit hvisit'
      fun s₁ hs₁ hroom => plays_auditedClose hs₁ hroom hs.sound.opened
        (congrArg Frame.offset hs.frame_eq))

/-- All over a program the audited visits go by the rules. -/
theorem tours_auditedWithin : Tours t Context.InMethod Context.AtTop auditedWithin where
  toVisits := visits_auditedWithin
  outer := Context.outer_atTop
  ruleOutside hs hO hO₁ hkind h :=
    plays_audit hs (hO.audits hs) (plays_auditedByKind hs hkind h) fun _ hs₁ => hO₁.audits hs₁
  method {_ _ s c m} hs hO hm hroom hbody := by
    have next := Context.outer_atTop.method c m hO
    refine plays_audit hs (hO.audits hs) ?_ fun _ hs₁ => next.audits hs₁
    obtain ⟨n, hn, hkind, -⟩ := (hm.of_bare_eq hs.text).node
    refine .node hn ?_
    rw [auditedByKind, if_neg (by rw [hkind]; decide), if_pos hkind]
    refine .get ?_
    have checked : Plays t s (methodWith auditedParameter _ m.id n) () (m.events c) (m.next c) :=
      plays_methodWith hm Method.balanced_param hs
        ⟨Method.balanced_scope hO hs.sound.opened m, Nat.succ_pos _⟩ hn hroom
        (fun param hp s c hs hJ hroom => plays_audit hs hJ.1
          (plays_parameter hs (hm.params param hp) hroom)
          fun _ _ => (Method.balanced_param c param hJ).1)
        fun s₁ hs₁ hroom => hbody s₁ hs₁ (Method.inMethod_within hO hs.sound.opened m) hroom
    refine Plays.congr (checked.bind fun s₁ _ hs₁ => plays_require hs₁ ?_) (List.append_nil _)
    rw [hs₁.frame_eq, hs.frame_eq]
    exact Context.frame_declare

end Check

namespace CompilationUnit

variable {u : CompilationUnit} {p : Program}

/-- **Storage is accounted for.** The check of a program passes all audits: whenever it comes to a
statement or a declaration and whenever it leaves one, the words that are taken up are those of the
symbols in scope, each block gives back exactly what was taken up in it, and each method leaves the
frame around it as it was. The audited check ends in the state in which the check itself ends, with
its frame, and so does each audited visit of a construct that comes to an end, in whichever state
it starts. -/
theorem runCheck_audited (h : u.Holds p) :
    (∃ s, (Check.audited u.root).run (.start u.tree u.table) = .ok ((), s) ∧
      (Check.statements u.root).run (.start u.tree u.table) = .ok ((), s)) ∧
    (∃ found v, u.check = .ok (found, v) ∧
      u.runCheck (Check.audited u.root) = .ok ((), found, v)) ∧
    (∀ head, Check.Watches (Check.audited head) (Check.statements head)) ∧
    (∀ depth id,
      Check.Watches (Check.auditedWithin depth id) (Check.statementWithin depth id)) ∧
    ∀ id, Check.Watches (Check.auditedParameter id) (Check.parameter id) := by
  have audited : Check.Plays u.tree (.start u.tree u.table) (Check.audited u.root) () p.events
      p.afterMethods := by
    rw [h.root, Program.events_eq]
    exact Check.tours_auditedWithin.plays_root h.held h.alone h.addressable h.stands
      Context.atTop_start rfl
  let s := ((Checker.start u.tree u.table).play p.events).seat p.afterMethods
  have plain : (Check.statements u.root).run (.start u.tree u.table) = .ok ((), s) :=
    Check.watches_audited u.root audited.run
  refine ⟨⟨s, audited.run, plain⟩, ?_, Check.watches_audited, Check.watches_auditedWithin,
    Check.watches_auditedParameter⟩
  refine ⟨s.diagnostics.toList, { u with tree := s.tree, table := s.table }, ?_, ?_⟩
  · rw [check, runCheck, plain]
    rfl
  · rw [runCheck, audited.run]
    rfl

theorem runCheck_audited_shadowing : shadowingUnit.Holds shadowing ∧
    (∃ s, (Check.audited shadowingUnit.root).run
        (.start shadowingUnit.tree shadowingUnit.table) = .ok ((), s) ∧
      (Check.statements shadowingUnit.root).run
        (.start shadowingUnit.tree shadowingUnit.table) = .ok ((), s)) ∧
    (∃ found v, shadowingUnit.check = .ok (found, v) ∧
      shadowingUnit.runCheck (Check.audited shadowingUnit.root) = .ok ((), found, v)) ∧
    Check.Watches (Check.audited shadowingUnit.root) (Check.statements shadowingUnit.root) := by
  obtain ⟨ends, checked, watches, -⟩ := runCheck_audited holds_shadowing
  exact ⟨holds_shadowing, ends, checked, watches _⟩

end CompilationUnit

end DecafStatics
