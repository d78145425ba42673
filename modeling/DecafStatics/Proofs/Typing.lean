import DecafStatics.Proofs.Playing
import DecafStatics.Proofs.Transcript

/-!
# Typing plays its transcript

An expression that a tree holds is typed without a fault, its type is `Expr.type`, and what that
leaves behind is `Expr.events`.

Typing needs little of the state that it starts in. A name has to denote something that is in the
table, and what can be called has to have a chain of parameters that ends. `Checker.Sees` says that
and no more, and the rules are stated for states like these. A state at a context is one of them.

## Implementation notes

Calls are where the tree is read back: the types of the arguments are found on their nodes, where
typing them has left them. That they are still there when the last argument is typed is the reason
why no node may stand in two places.

The types of the parameters are read back too. In a state at a context they are part of the text.
In another state the parameters may be nodes without a type, or even nodes of the expression, and
then it is left open whether arguments fit. A transcript is `strict` if it is not left open.

## Main definitions

* `Event.Agree` — the same events, but for complaints about arguments that do not fit
* `Checker.Sees` — a state in which names can be used
* `Check.Finds` — coming to an end with a transcript, in such a state

## Main results

* `Tree.argumentsFit_eq` — comparing arguments with parameters compares two lists of types
* `Check.finds_typeWithin` — typing an expression
* `Check.plays_expression` — typing an expression in a state at a context
-/

namespace DecafStatics

/-! ### Arguments and parameters -/

namespace Tree

variable {t : Tree} {formal actual : Option NodeId}

/-- Comparing the chains of arguments and parameters compares two lists of types. A parameter
without a type fits nothing. -/
theorem argumentsFitWithin_eq {bound : Nat} {params arguments : List (NodeId × Option Ty)}
    (hformal : t.Linked formal (params.map Prod.fst))
    (hactual : t.Linked actual (arguments.map Prod.fst))
    (hparams : ∀ param ∈ params, t.Has param.1 fun n => n.ty = param.2)
    (harguments : ∀ a ∈ arguments, t.Has a.1 fun n => t.argumentType n = .ok a.2)
    (hbound : params.length ≤ bound) :
    t.argumentsFitWithin bound formal actual =
      .ok (decide (params.map Prod.snd = arguments.map Prod.snd ∧
        ∀ param ∈ params, param.2.isSome)) := by
  induction params generalizing bound formal actual arguments with
  | nil =>
    cases hformal
    cases arguments with
    | nil => cases hactual; cases bound <;> rfl
    | cons a rest => cases hactual; cases bound <;> rfl
  | cons param params ih =>
    obtain ⟨bound, rfl⟩ : ∃ b, bound = b + 1 := ⟨bound - 1, by simp at hbound; omega⟩
    cases hformal with
    | cons hn hrest =>
      cases arguments with
      | nil => cases hactual; rfl
      | cons a arguments =>
        cases hactual with
        | cons hm hmore =>
          obtain ⟨hparam, hparams⟩ := List.forall_mem_cons.1 hparams
          obtain ⟨hargument, harguments⟩ := List.forall_mem_cons.1 harguments
          obtain ⟨_, hn', hty⟩ := hparam
          rw [hn] at hn'
          cases hn'
          obtain ⟨_, hm', hgiven⟩ := hargument
          rw [hm] at hm'
          cases hm'
          have tail := ih hrest hmore hparams harguments (by simpa using hbound)
          rw [argumentsFitWithin, hn, hm]
          simp only [bind, Except.bind, hgiven, hty]
          by_cases hfit : typesFit param.2 a.2 = true
          · rw [if_pos hfit, tail]
            obtain ⟨ty, hwanted, hreceived⟩ := typesFit_iff.1 hfit
            refine congrArg Except.ok (decide_eq_decide.2 ?_)
            simp only [List.map_cons, List.cons.injEq, List.forall_mem_cons, hwanted, hreceived,
              Option.isSome_some, true_and]
          · rw [if_neg hfit]
            refine congrArg Except.ok (decide_eq_false fun h => hfit ?_).symm
            obtain ⟨ty, hwanted⟩ := Option.isSome_iff_exists.1 (h.2 _ (List.mem_cons_self ..))
            obtain ⟨heads, -⟩ := List.cons.inj h.1
            exact typesFit_iff.2 ⟨ty, hwanted, by rw [← hwanted, heads]⟩

theorem argumentsFit_eq {params : List (NodeId × Option Ty)} {arguments : List (NodeId × Ty)}
    (hformal : t.Linked formal (params.map Prod.fst))
    (hparams : ∀ param ∈ params, t.Has param.1 fun n => n.ty = param.2)
    (hactual : t.Linked actual (arguments.map Prod.fst))
    (harguments : ∀ a ∈ arguments, t.Has a.1 fun n => t.argumentType n = .ok (some a.2)) :
    t.argumentsFit formal actual =
      .ok (decide (params.map Prod.snd = arguments.map fun a => some a.2)) := by
  have short : params.length ≤ t.size * t.size + 1 := by
    have := hformal.length_le
    have := Nat.le_mul_self t.size
    simp at *
    omega
  have linked : t.Linked actual ((arguments.map fun a => (a.1, some a.2)).map Prod.fst) := by
    simpa [Function.comp_def] using hactual
  have compared := argumentsFitWithin_eq hformal linked hparams
    (List.forall_mem_map.2 harguments) short
  rw [argumentsFit, compared, List.map_map]
  refine congrArg Except.ok (decide_eq_decide.2 ⟨And.left, fun h => ⟨h, fun param hp => ?_⟩⟩)
  -- what is compared with the type of an argument and equal to it is a type
  obtain ⟨a, -, ha⟩ := List.mem_map.1 (h ▸ List.mem_map_of_mem hp)
  rw [← ha]
  rfl

/-- The nodes of a chain have the types that they have. -/
theorem Linked.exists_types {ids : List NodeId} (h : t.Linked formal ids) :
    ∃ params : List (NodeId × Option Ty), params.map Prod.fst = ids ∧
      ∀ param ∈ params, t.Has param.1 fun n => n.ty = param.2 := by
  induction h with
  | nil => exact ⟨[], rfl, List.forall_mem_nil _⟩
  | @cons id n ids hn _ ih =>
    obtain ⟨params, hids, htypes⟩ := ih
    exact ⟨(id, n.ty) :: params, congrArg (id :: ·) hids,
      List.forall_mem_cons.2 ⟨⟨n, hn, rfl⟩, htypes⟩⟩

end Tree

/-- A type that is marked last is found in the end. -/
theorem Node.ty_marked {id : NodeId} {ty : Ty} {es fs : List Event} (n : Node)
    (h : ∀ ev ∈ fs, ev.node ≠ id) : (n.marked id (es ++ [.type id ty] ++ fs)).ty = some ty := by
  rw [marked_append, marked_of_not_mem h, marked_append]
  exact congrArg Node.ty (marked_self _ (.type id ty))

/-- After typing the arguments of a call the type of each of them is found on its node. -/
theorem Expr.ty_marked_arguments {Γ : Env} {arguments : List (NodeId × Expr)}
    (hd : (argumentIds arguments).Nodup) {a : NodeId × Expr} (ha : a ∈ arguments) {ty : Ty}
    (hty : a.2.type Γ = some ty) (n : Node) :
    (n.marked a.2.id (argumentEvents Γ arguments)).ty = some ty := by
  obtain ⟨before, behind, rfl⟩ := List.append_of_mem ha
  rw [argumentIds_eq, List.flatMap_append, List.flatMap_cons, List.nodup_append] at hd
  obtain ⟨-, hd, -⟩ := hd
  rw [List.cons_append, List.nodup_cons, List.nodup_append] at hd
  obtain ⟨hwrapper, -, -, hdisjoint⟩ := hd
  have hother : ∀ ev ∈ typing a.1 (a.2.type Γ) ++
      behind.flatMap (fun a => a.2.events Γ ++ typing a.1 (a.2.type Γ)), ev.node ≠ a.2.id := by
    intro ev hev
    rcases List.mem_append.1 hev with hev | hev
    · rw [node_of_mem_typing hev]
      rintro heq
      exact hwrapper (heq ▸ List.mem_append_left _ a.2.id_mem_ids)
    · obtain ⟨b, hb, hev⟩ := List.mem_flatMap.1 hev
      refine fun heq => hdisjoint a.2.id a.2.id_mem_ids _ (List.mem_flatMap.2 ⟨b, hb, ?_⟩) heq.symm
      rcases List.mem_append.1 hev with hev | hev
      · exact List.mem_cons_of_mem _ (b.2.node_mem_ids ev hev)
      · rw [node_of_mem_typing hev]
        exact List.mem_cons_self ..
  have parts : argumentEvents Γ (before ++ a :: behind) =
      before.flatMap (fun a => a.2.events Γ ++ typing a.1 (a.2.type Γ)) ++ a.2.findings Γ ++
        [.type a.2.id ty] ++ (typing a.1 (a.2.type Γ) ++
          behind.flatMap (fun a => a.2.events Γ ++ typing a.1 (a.2.type Γ))) := by
    rw [argumentEvents_eq, List.flatMap_append, List.flatMap_cons]
    simp [events, typing, hty]
  rw [parts]
  exact Node.ty_marked n hother

/-- `mismatch` for a part that may be missing. -/
def mismatchPart (wanted : Ty) (received : Option Ty) (part : Option NodeId) : List Event :=
  match part with
  | none => []
  | some id => mismatch wanted received id

/-- What is judged about a name comes after what the name denotes. -/
theorem reference_eq (Γ : Env) (id : NodeId) (name : String) (judge : Binding → List Event) :
    reference Γ id name judge =
      reference Γ id name (fun _ => []) ++ (Γ name).elim [] judge := by
  unfold reference
  cases Γ name <;> simp

/-! ### Transcripts that are not strict -/

namespace Event

/-- The event is a complaint about arguments that do not fit. -/
def isMisfit : Event → Bool
  | complain (.parameterMismatch ..) _ => true
  | complain .. | type .. | link .. | size .. | declare .. => false

/-- The event has to be met with, unless it is a complaint about arguments and not `strict`. -/
def isCertain (strict : Bool) (ev : Event) : Bool := strict || !ev.isMisfit

/-- The lists have the same events, but for complaints about arguments if not `strict`. -/
def Agree (strict : Bool) (es fs : List Event) : Prop :=
  es.filter (isCertain strict) = fs.filter (isCertain strict)

variable {strict : Bool} {es es' fs fs' : List Event}

theorem Agree.refl (es : List Event) : Agree strict es es := rfl

theorem Agree.append (h : Agree strict es es') (h' : Agree strict fs fs') :
    Agree strict (es ++ fs) (es' ++ fs') := by
  rw [Agree, List.filter_append, List.filter_append, h, h']

theorem Agree.eq (h : Agree true es fs) : es = fs := by
  have all : ∀ es : List Event, es.filter (isCertain true) = es :=
    fun es => List.filter_eq_self.2 fun _ _ => rfl
  rw [← all es, h, all fs]

theorem agree_of_isMisfit (hs : ∀ ev ∈ es, ev.isMisfit = true)
    (ht : ∀ ev ∈ fs, ev.isMisfit = true) : Agree false es fs := by
  rw [Agree, List.filter_eq_nil_iff.2, List.filter_eq_nil_iff.2]
  · exact fun ev hev => by simp [isCertain, ht ev hev]
  · exact fun ev hev => by simp [isCertain, hs ev hev]

theorem isMisfit_of_not_isCertain {ev : Event} (h : ¬ ev.isCertain strict = true) :
    ev.isMisfit = true := by
  simp only [isCertain, Bool.or_eq_true, Bool.not_eq_true', not_or, Bool.not_eq_false] at h
  exact h.2

/-- What does not look at complaints about arguments finds the same in lists that agree. -/
theorem Agree.filterMap {α : Type} {f : Event → Option α} (h : Agree strict es fs)
    (hf : ∀ ev : Event, ev.isMisfit = true → f ev = none) : es.filterMap f = fs.filterMap f := by
  have same : ∀ es : List Event, (es.filter (isCertain strict)).filterMap f = es.filterMap f := by
    intro es
    induction es with
    | nil => rfl
    | cons ev es ih =>
      rw [List.filter_cons]
      split
      · rw [List.filterMap_cons, List.filterMap_cons, ih]
      · rename_i hopen
        rw [ih, List.filterMap_cons, hf ev (isMisfit_of_not_isCertain hopen)]
  rw [← same es, h, same fs]

theorem Agree.mem {ev : Event} (h : Agree strict es fs) (hev : ev.isMisfit = false)
    (hmem : ev ∈ fs) : ev ∈ es := by
  have kept : ev ∈ fs.filter (isCertain strict) :=
    List.mem_filter.2 ⟨hmem, by simp [isCertain, hev]⟩
  rw [← show es.filter _ = fs.filter _ from h] at kept
  exact (List.mem_filter.1 kept).1

theorem Agree.declared (h : Agree strict es fs) : declared es = declared fs :=
  h.filterMap fun ev hev => by cases ev <;> first | rfl | cases hev

theorem Agree.annotate (h : Agree strict es fs) (t : Tree) : t.annotate es = t.annotate fs := by
  have same : ∀ (es : List Event) (t : Tree),
      t.annotate (es.filter (isCertain strict)) = t.annotate es := by
    intro es
    induction es with
    | nil => exact fun t => rfl
    | cons ev es ih =>
      intro t
      rw [List.filter_cons, ← List.singleton_append (l := es), Tree.annotate_append, ← ih]
      split
      · rw [← List.singleton_append, Tree.annotate_append]
      · rename_i hopen
        cases ev with
        | complain problem id => rw [Tree.annotate_complain]
        | type | link | size | declare => cases isMisfit_of_not_isCertain hopen
  rw [← same es, h, same fs]

end Event

/-- Arguments that all have a type are judged as types. -/
theorem misfit_map_some (name : String) (b : Binding) (types : List Ty) (id : NodeId) :
    misfit name b (types.map some) id = if b.formals = types then [] else
      [.complain (.parameterMismatch name b.formals.length types.length) id] := by
  have same : b.formals.map some = types.map some ↔ b.formals = types :=
    List.map_inj_right fun _ _ => Option.some.inj
  rw [misfit, List.length_map]
  by_cases h : b.formals = types <;> simp [same, h]

theorem isMisfit_of_mem_misfit {name : String} {b : Binding} {types : List (Option Ty)}
    {id : NodeId} : ∀ ev ∈ misfit name b types id, ev.isMisfit = true := by
  rw [misfit]
  split
  · exact List.forall_mem_singleton.2 rfl
  · exact List.forall_mem_nil _

/-! ### States in which names can be used -/

/-- Names denote what `Γ` says, and the tree has the text of `t`. What can be called has a chain of
parameters that ends, and if this is `strict` the parameters have the types that `Γ` says. -/
structure Checker.Sees (s : Checker) (strict : Bool) (t : Tree) (Γ : Env) : Prop where
  text : s.tree.bare = t.bare
  lookup : ∀ name, s.table.lookup name s.level = (Γ name).map Binding.id
  stored : ∀ {name b}, Γ name = some b → s.table.store[b.id.index]? = some b.symbol
  params : ∀ {name b}, Γ name = some b → b.symbol.kind.isCallable = true →
    ∃ ids, t.Linked b.symbol.params ids
  formals : strict = true → ∀ {name b}, Γ name = some b → b.symbol.kind.isCallable = true →
    t.HasFormals b.symbol.params b.formals

namespace Checker.Sees

variable {s s' : Checker} {strict : Bool} {t : Tree} {Γ : Env} {es fs : List Event}

theorem size_eq (hs : s.Sees strict t Γ) : s.tree.size = t.size := Tree.size_of_bare_eq hs.text

/-- What is seen depends on the text, the table and the level. -/
theorem congr (hs : s.Sees strict t Γ) (htext : s'.tree.bare = t.bare)
    (htable : s'.table = s.table) (hlevel : s'.level = s.level) : s'.Sees strict t Γ where
  text := htext
  lookup := by rw [htable, hlevel]; exact hs.lookup
  stored := by rw [htable]; exact hs.stored
  params := hs.params
  formals := hs.formals

/-- Playing events that enter no symbol. -/
theorem play (hs : s.Sees strict t Γ) (hd : Event.declared es = [])
    (htext : (s.tree.annotate es).bare = t.bare) : (s.play es).Sees strict t Γ :=
  hs.congr htext (by simp [Checker.play, hd]) rfl

/-- Playing events that agree. -/
theorem play_agree (hs : (s.play es).Sees strict t Γ) (h : Event.Agree strict es fs) :
    (s.play fs).Sees strict t Γ :=
  hs.congr (by rw [tree_play, ← h.annotate]; exact hs.text)
    (by simp only [Checker.play, h.declared]) rfl

end Checker.Sees

/-- A state at a context. -/
theorem Checker.Stands.sees {s : Checker} {t : Tree} {c : Context} (hs : s.Stands t c)
    (strict : Bool) : s.Sees strict t c.find? where
  text := hs.text
  lookup := hs.lookup_eq
  stored := fun hb => hs.stored _ (List.mem_of_find?_eq_some hb)
  params := fun hb hcallable => by
    obtain ⟨params, -, hlinked, -⟩ := hs.sound.formals _ (List.mem_of_find?_eq_some hb) hcallable
    exact ⟨_, hlinked⟩
  formals := fun _ _ _ hb => hs.sound.formals _ (List.mem_of_find?_eq_some hb)

namespace Check

variable {α β : Type} {strict : Bool} {t : Tree} {Γ : Env} {s : Checker} {id : NodeId}

/-- From `s` the computation ends with `a`. What it leaves behind is `es`, or agrees with it, and
names can be used as before. -/
structure Finds (strict : Bool) (t : Tree) (Γ : Env) (s : Checker) (m : Check α) (a : α)
    (es : List Event) : Prop where
  run : ∃ fs, Event.Agree strict fs es ∧ m.run s = .ok (a, s.play fs)
  sees : (s.play es).Sees strict t Γ

/-- What is found one after the other. -/
theorem Finds.bind {m : Check α} {f : α → Check β} {a : α} {b : β} {es fs : List Event}
    (hm : Finds strict t Γ s m a es) (hf : ∀ s₁ : Checker, s₁.tree = s.tree.annotate es →
      s₁.Sees strict t Γ → Finds strict t Γ s₁ (f a) b fs) :
    Finds strict t Γ s (m >>= f) b (es ++ fs) := by
  obtain ⟨es', hes, hrun⟩ := hm.run
  have next := hf _ (hes.annotate s.tree) (hm.sees.play_agree hes.symm)
  obtain ⟨fs', hfs, hrun'⟩ := next.run
  refine ⟨⟨es' ++ fs', hes.append hfs, ?_⟩, ?_⟩
  · rw [run_bind_of_ok hrun, hrun', Checker.play_append]
  · have sees := next.sees
    rw [← Checker.play_append] at sees
    exact sees.play_agree (hes.append rfl)

theorem Finds.agree {m : Check α} {a : α} {es fs : List Event} (hm : Finds strict t Γ s m a es)
    (h : Event.Agree strict es fs) : Finds strict t Γ s m a fs := by
  obtain ⟨es', hes, hrun⟩ := hm.run
  exact ⟨⟨es', hes.trans h, hrun⟩, hm.sees.play_agree h⟩

theorem finds_pure (hs : s.Sees strict t Γ) (a : α) : Finds strict t Γ s (pure a) a [] where
  run := ⟨[], rfl, by rw [Checker.play_nil]; rfl⟩
  sees := by rwa [Checker.play_nil]

theorem Finds.map {m : Check α} {a : α} {es : List Event} (hm : Finds strict t Γ s m a es)
    (f : α → β) : Finds strict t Γ s (m >>= fun x => pure (f x)) (f a) es := by
  simpa using hm.bind (f := fun x => pure (f x)) fun s₁ _ hs₁ => finds_pure hs₁ (f a)

theorem Finds.get {f : Checker → Check β} {b : β} {es : List Event}
    (h : Finds strict t Γ s (f s) b es) : Finds strict t Γ s (MonadState.get >>= f) b es :=
  ⟨h.run, h.sees⟩

theorem Finds.node {f : Node → Check β} {b : β} {es : List Event} {n : Node}
    (hn : s.tree.node id = .ok n) (h : Finds strict t Γ s (f n) b es) :
    Finds strict t Γ s (Check.node id >>= f) b es := by
  refine ⟨?_, h.sees⟩
  rw [run_bind_of_ok (run_node_eq_ok_iff.2 ⟨hn, rfl⟩)]
  exact h.run

theorem Finds.lift {value : Except Fault α} {f : α → Check β} {a : α} {b : β} {es : List Event}
    (hv : value = .ok a) (h : Finds strict t Γ s (f a) b es) :
    Finds strict t Γ s (liftM value >>= f) b es := by
  refine ⟨?_, h.sees⟩
  rw [run_bind_of_ok (run_liftM_eq_ok_iff.2 ⟨hv, rfl⟩)]
  exact h.run

/-- At a context, what a strict transcript says is played. -/
theorem Finds.plays {c : Context} (hs : s.Stands t c) {m : Check α} {a : α} {es : List Event}
    (h : Finds true t c.find? s m a es) (hd : Event.declared es = []) : Plays t s m a es c := by
  obtain ⟨fs, hfs, hrun⟩ := h.run
  have stays : (s.play es).seat c = s.play es := by rw [← Checker.play_seat, hs.seated]
  refine ⟨?_, hs.play_quiet hd h.sees.text⟩
  rw [hrun, hfs.eq, stays]

/-! ### The parts of the rules -/

theorem finds_report (hs : s.Sees strict t Γ) (problem : Problem) (h : id.index < t.size) :
    Finds strict t Γ s (report problem id) () [.complain problem id] where
  run := ⟨_, .refl _, run_report_eq_play problem (by rwa [hs.size_eq])⟩
  sees := hs.play rfl (by rw [Tree.annotate_complain, hs.text])

/-- Writing the mark of an event. -/
theorem finds_update {f : Node → Node} {e : Event} (hs : s.Sees strict t Γ) (he : e.node = id)
    (hf : ∀ n, f n = e.mark n) (hsymbol : e.symbol? = none) (hcomplaint : e.complaint? = none)
    (h : s.tree.Has id fun n => (f n).bare = n.bare) :
    Finds strict t Γ s (update id f) () [e] := by
  obtain ⟨n, hn, hbare⟩ := h
  have hlt := Tree.lt_of_node_eq_ok hn
  refine ⟨⟨_, .refl _, run_update_eq_play he hf hsymbol hcomplaint hlt⟩, hs.play ?_ ?_⟩
  · simp [hsymbol]
  · rw [Tree.bare_update (Tree.update_eq_annotate he hf hlt), hs.text]
    intro m hm
    rw [hn] at hm
    cases hm
    exact hbare

theorem finds_type (hs : s.Sees strict t Γ) (ty : Ty)
    (h : t.Has id fun n => n.kind.isExpression = true) :
    Finds strict t Γ s (update id fun n => { n with ty := some ty }) () [.type id ty] := by
  refine finds_update hs rfl (fun _ => rfl) rfl rfl (h.of_bare_eq hs.text fun n m hb hn => ?_)
  exact Node.bare_ty (by rw [Node.kind_of_bare_eq hb, hn]) _

theorem finds_link (hs : s.Sees strict t Γ) (symbol : SymbolId) (h : id.index < t.size) :
    Finds strict t Γ s (update id fun n => { n with symbol := some symbol }) ()
      [.link id symbol] := by
  obtain ⟨n, hn⟩ := Tree.node_ok_of_lt (by rwa [hs.size_eq] : id.index < s.tree.size)
  exact finds_update hs rfl (fun _ => rfl) rfl rfl ⟨n, hn, Node.bare_symbol n _⟩

theorem finds_expect (hs : s.Sees strict t Γ) (wanted : Ty) (received : Option Ty)
    (h : id.index < t.size) :
    Finds strict t Γ s (expect wanted received id) () (mismatch wanted received id) := by
  unfold expect mismatch
  cases received with
  | none => exact finds_pure hs ()
  | some ty =>
    dsimp only
    split
    · exact finds_pure hs ()
    · exact finds_report hs _ h

theorem finds_expectPart (hs : s.Sees strict t Γ) (wanted : Ty) (received : Option Ty)
    {part : Option NodeId} (h : ∀ id ∈ part, id.index < t.size) :
    Finds strict t Γ s (expectPart wanted received part) ()
      (mismatchPart wanted received part) := by
  cases part with
  | none => exact finds_pure hs ()
  | some id => exact finds_expect hs wanted received (h id rfl)

theorem finds_resolve (hs : s.Sees strict t Γ) (h : id.index < t.size) (name : String) :
    Finds strict t Γ s (resolve id name) ((Γ name).map Binding.symbol)
      (reference Γ id name fun _ => []) := by
  refine .get ?_
  rw [hs.lookup]
  rw [reference]
  cases hfind : Γ name with
  | none => exact (finds_report hs (.undeclaredIdentifier name) h).map fun _ => none
  | some b =>
    have hstored := hs.stored hfind
    refine .lift (SymbolTable.symbol_eq_ok_iff.2 hstored) ?_
    exact (finds_link hs b.id h).map fun _ => some b.symbol

section Parts

variable {typeOf : NodeId → Check (Option Ty)} {n : Node}

theorem finds_variableUse {indexType : Option Ty} {es : List Event} (h : id.index < t.size)
    (hfirst : ∀ index ∈ n.first, index.index < t.size)
    (hindex : Finds strict t Γ s (typePart typeOf n.first) indexType es) :
    Finds strict t Γ s (variableUse typeOf id n) ((Γ n.text).map fun b => b.symbol.ty)
      (es ++ reference Γ id n.text fun b =>
        misuse n.text b (if n.first.isSome then .array else .scalar) id ++
          mismatchPart .int indexType n.first) := by
  rw [reference_eq]
  refine hindex.bind fun s₁ _ hs₁ => (finds_resolve hs₁ h n.text).bind fun s₂ _ hs₂ => ?_
  cases Γ n.text with
  | none => exact finds_pure hs₂ none
  | some b =>
    have last : ∀ s₃ : Checker, s₃.Sees strict t Γ → Finds strict t Γ s₃
        (do expectPart .int indexType n.first; return some b.symbol.ty) (some b.symbol.ty)
        (mismatchPart .int indexType n.first) :=
      fun s₃ hs₃ => (finds_expectPart hs₃ .int indexType hfirst).map fun _ => some b.symbol.ty
    dsimp only [Option.map_some, Option.elim_some]
    rw [misuse]
    by_cases hkind : b.symbol.kind = if n.first.isSome then .array else .scalar
    · rw [if_neg (not_not_intro hkind), if_pos hkind]
      exact last s₂ hs₂
    · rw [if_pos hkind, if_neg hkind]
      exact (finds_report hs₂ _ h).bind fun s₃ _ hs₃ => last s₃ hs₃

theorem finds_operation {op : Operator} {left right : Option Ty} {es fs : List Event}
    (hop : n.operator = some op) (hfirst : ∀ id ∈ n.first, id.index < t.size)
    (hsecond : ∀ id ∈ n.second, id.index < t.size)
    (hleft : Finds strict t Γ s (typePart typeOf n.first) left es)
    (hright : ∀ s₁, s₁.Sees strict t Γ → Finds strict t Γ s₁ (typePart typeOf n.second) right fs) :
    Finds strict t Γ s (operation typeOf n) (some op.cls.result)
      (es ++ (fs ++ (op.cls.operand.wanted left).elim [] fun wanted =>
        mismatchPart wanted left n.first ++ mismatchPart wanted right n.second)) := by
  rw [operation]
  rw [hop]
  refine hleft.bind fun s₁ _ hs₁ => (hright s₁ hs₁).bind fun s₂ _ hs₂ => ?_
  cases op.cls.operand.wanted left with
  | none => exact finds_pure hs₂ _
  | some wanted =>
    refine (finds_expectPart hs₂ wanted left hfirst).bind fun s₃ _ hs₃ => ?_
    exact (finds_expectPart hs₃ wanted right hsecond).map fun _ => some op.cls.result

/-- Typing what has a rule of its own leaves the type that the rule gives on the node. -/
theorem finds_typed {depth : Nat} {ty : Option Ty} {es : List Event} (hn : s.tree.node id = .ok n)
    (hexpr : t.Has id fun n => n.kind.isExpression = true)
    (hrule : Finds strict t Γ s (typeByKind (typeWithin depth) id n) ty es) :
    Finds strict t Γ s (typeWithin (depth + 1) id) ty (es ++ typing id ty) := by
  refine .node hn (hrule.bind fun s₁ _ hs₁ => ?_)
  cases ty with
  | none => exact finds_pure hs₁ none
  | some ty => exact (finds_type hs₁ ty hexpr).map fun _ => some ty

end Parts

/-! ### Calls -/

section Calls

variable {typeOf : NodeId → Check (Option Ty)} {arguments : List (NodeId × Expr)} {n : Node}

theorem finds_arguments (hs : s.Sees strict t Γ)
    (h : ∀ a ∈ arguments, ∀ s : Checker, s.Sees strict t Γ → Finds strict t Γ s (typeOf a.1)
      (a.2.type Γ) (a.2.events Γ ++ typing a.1 (a.2.type Γ))) :
    Finds strict t Γ s ((arguments.map Prod.fst).mapM typeOf) (arguments.map fun a => a.2.type Γ)
      (Expr.argumentEvents Γ arguments) := by
  rw [Expr.argumentEvents_eq]
  induction arguments generalizing s with
  | nil => exact finds_pure hs []
  | cons a rest ih =>
    obtain ⟨ha, hrest⟩ := List.forall_mem_cons.1 h
    rw [List.map_cons, List.mapM_cons, List.map_cons, List.flatMap_cons]
    refine (ha s hs).bind fun s₁ _ hs₁ => ?_
    exact (ih hs₁ hrest).map fun types => a.2.type Γ :: types

/-- With their types on their nodes, the arguments of a call can be compared with the parameters. If
this is strict, they are compared as types. -/
theorem exists_argumentsFit (hs : s.Sees strict t Γ) {name : String} {b : Binding}
    (hb : Γ name = some b) (hcallable : b.symbol.kind.isCallable = true) {head : Option NodeId}
    (hlinked : t.Linked head (arguments.map Prod.fst))
    (hwrapped : ∀ a ∈ arguments, t.HasArgument a.1 a.2.id) (typed : NodeId × Expr → Ty)
    (htyped : ∀ a ∈ arguments, s.tree.Has a.2.id fun n => n.ty = some (typed a)) :
    ∃ ids fit, s.tree.siblings b.symbol.params = .ok ids ∧
      s.tree.argumentsFit b.symbol.params head = .ok fit ∧
      (strict = true →
        ids.length = b.formals.length ∧ (fit = true ↔ b.formals = arguments.map typed)) := by
  have linked : s.tree.Linked head ((arguments.map fun a => (a.1, typed a)).map Prod.fst) := by
    simpa [Function.comp_def] using hlinked.of_bare_eq hs.text
  have given : ∀ a ∈ arguments.map fun a => (a.1, typed a),
      s.tree.Has a.1 fun n => s.tree.argumentType n = .ok (some a.2) := by
    intro p hp
    obtain ⟨a, ha, rfl⟩ := List.mem_map.1 hp
    obtain ⟨n, hn, -, hfirst⟩ := (hwrapped a ha).of_bare_eq hs.text
    obtain ⟨m, hm, hty⟩ := htyped a ha
    refine ⟨n, hn, ?_⟩
    simp [Tree.argumentType, hfirst, hm, Except.map, hty]
  cases strict with
  | true =>
    obtain ⟨params, hformals, hformal, hhas⟩ := (hs.formals rfl hb hcallable).of_bare_eq hs.text
    have formal : s.tree.Linked b.symbol.params
        ((params.map fun p => (p.1, some p.2)).map Prod.fst) := by
      simpa [Function.comp_def] using hformal
    have fit := Tree.argumentsFit_eq formal
      (List.forall_mem_map.2 fun param hp => (hhas param hp).imp fun _ hn => hn.2) linked given
    refine ⟨_, _, Tree.siblings_eq_ok_iff.2 hformal, fit, fun _ => ⟨by simp [← hformals], ?_⟩⟩
    have same : b.formals.map some = (arguments.map typed).map some ↔
        b.formals = arguments.map typed := List.map_inj_right fun _ _ => Option.some.inj
    rw [decide_eq_true_iff, ← same, ← hformals]
    simp [Function.comp_def]
  | false =>
    obtain ⟨ids, hids⟩ := hs.params hb hcallable
    have hformal := hids.of_bare_eq hs.text
    obtain ⟨params, rfl, htypes⟩ := hformal.exists_types
    exact ⟨_, _, Tree.siblings_eq_ok_iff.2 hformal,
      Tree.argumentsFit_eq hformal htypes linked given, nofun⟩

/-- What typing the arguments has left on their nodes is still there after the name of the call
has been looked up. -/
theorem has_type_of_argument (hs : s.Sees strict t Γ) (hd : (Expr.argumentIds arguments).Nodup)
    {a : NodeId × Expr} (ha : a ∈ arguments) (hheld : t.HasExpr a.2) {ty : Ty}
    (hty : a.2.type Γ = some ty) {es : List Event}
    (hes : ∀ ev ∈ es, ev.node ∉ Expr.argumentIds arguments) :
    ((s.tree.annotate (Expr.argumentEvents Γ arguments)).annotate es).Has a.2.id
      fun n => n.ty = some ty := by
  obtain ⟨n, hn⟩ := Tree.node_ok_of_lt
    (hs.size_eq ▸ hheld.isExpression.lt_size : a.2.id.index < s.tree.size)
  have hmem : a.2.id ∈ Expr.argumentIds arguments := by
    rw [Expr.argumentIds_eq]
    exact List.mem_flatMap.2 ⟨a, ha, List.mem_cons_of_mem _ a.2.id_mem_ids⟩
  refine ⟨_, Tree.node_annotate _ (Tree.node_annotate _ hn), ?_⟩
  rw [Node.marked_of_not_mem fun ev hev heq => hes ev hev (heq ▸ hmem)]
  exact Expr.ty_marked_arguments hd ha hty n

/-- Comparing the arguments of a call with the parameters, if all of them have a type. -/
theorem finds_argumentsFit (hs : s.Sees strict t Γ) (hlt : id.index < t.size) {name : String}
    {b : Binding} (hb : Γ name = some b) (hcallable : b.symbol.kind.isCallable = true)
    {head : Option NodeId} (hlinked : t.Linked head (arguments.map Prod.fst))
    (hwrapped : ∀ a ∈ arguments, t.HasArgument a.1 a.2.id) (typed : NodeId × Expr → Ty)
    (htyped : ∀ a ∈ arguments, s.tree.Has a.2.id fun n => n.ty = some (typed a)) :
    Finds strict t Γ s (do
        let tree := (← get).tree
        unless ← tree.argumentsFit b.symbol.params head do
          let parameters ← tree.siblings b.symbol.params
          report (.parameterMismatch name parameters.length (arguments.map Prod.fst).length) id
        return some b.symbol.ty)
      (some b.symbol.ty) (misfit name b ((arguments.map typed).map some) id) := by
  obtain ⟨ids, fit, hids, hfit, hstrict⟩ :=
    exists_argumentsFit hs hb hcallable hlinked hwrapped typed htyped
  refine .get (.lift hfit ?_)
  have judged : Finds strict t Γ s (do
        unless fit do
          let parameters ← s.tree.siblings b.symbol.params
          report (.parameterMismatch name parameters.length (arguments.map Prod.fst).length) id
        return some b.symbol.ty) (some b.symbol.ty)
      (if fit then [] else
        [.complain (.parameterMismatch name ids.length arguments.length) id]) := by
    cases fit with
    | true => exact finds_pure hs _
    | false =>
      refine .lift (Tree.siblings_eq_ok_iff.2 (Tree.siblings_eq_ok_iff.1 hids)) ?_
      simpa using (finds_report hs (.parameterMismatch name ids.length
        arguments.length) hlt).map fun _ => some b.symbol.ty
  refine judged.agree ?_
  cases strict with
  | true =>
    obtain ⟨hlength, hiff⟩ := hstrict rfl
    rw [misfit_map_some, hlength, List.length_map]
    simp only [hiff]
    exact .refl _
  | false =>
    refine Event.agree_of_isMisfit ?_ isMisfit_of_mem_misfit
    split
    · exact List.forall_mem_nil _
    · exact List.forall_mem_singleton.2 rfl

theorem finds_call (hs : s.Sees strict t Γ) (hn : s.tree.node id = .ok n)
    (hlinked : t.Linked n.first (arguments.map Prod.fst))
    (hwrapped : ∀ a ∈ arguments, t.HasArgument a.1 a.2.id)
    (hheld : ∀ a ∈ arguments, t.HasExpr a.2)
    (hd : (Expr.call id n.text arguments).ids.Nodup)
    (h : ∀ a ∈ arguments, ∀ s : Checker, s.Sees strict t Γ → Finds strict t Γ s (typeOf a.1)
      (a.2.type Γ) (a.2.events Γ ++ typing a.1 (a.2.type Γ))) :
    Finds strict t Γ s (call typeOf id n) ((Expr.call id n.text arguments).type Γ)
      ((Expr.call id n.text arguments).findings Γ) := by
  have hlt : id.index < t.size := hs.size_eq ▸ Tree.lt_of_node_eq_ok hn
  obtain ⟨hid, hd⟩ := List.nodup_cons.1 hd
  rw [Expr.findings, reference_eq]
  refine .get (.lift (Tree.siblings_eq_ok_iff.2 (hlinked.of_bare_eq hs.text)) ?_)
  refine (finds_arguments hs h).bind fun s₁ heq₁ hs₁ => ?_
  refine (finds_resolve hs₁ hlt n.text).bind fun s₂ heq₂ hs₂ => ?_
  rw [Expr.type]
  cases hfind : Γ n.text with
  | none => exact finds_pure hs₂ none
  | some b =>
    have hlinks : ∀ ev ∈ reference Γ id n.text fun _ => [],
        ev.node ∉ Expr.argumentIds arguments := by
      intro ev hev
      have hnode := node_mem_of_mem_reference (List.mem_singleton_self id) (by simp) hev
      rwa [List.mem_singleton.1 hnode]
    dsimp only [Option.map_some, Option.elim_some, Option.bind_some]
    by_cases hcallable : b.symbol.kind.isCallable = true
    · rw [if_pos hcallable, if_pos hcallable, if_pos hcallable]
      by_cases hall : (arguments.map fun a => a.2.type Γ).all Option.isSome = true
      · have htyped : ∀ a ∈ arguments, a.2.type Γ = some ((a.2.type Γ).getD .int) := by
          intro a ha
          obtain ⟨ty, hty⟩ := Option.isSome_iff_exists.1
            (List.all_eq_true.1 hall _ (List.mem_map_of_mem ha))
          rw [hty, Option.getD_some]
        have hmarked : ∀ a ∈ arguments,
            s₂.tree.Has a.2.id fun n => n.ty = some ((a.2.type Γ).getD .int) := by
          intro a ha
          rw [heq₂, heq₁]
          exact has_type_of_argument hs hd ha (hheld a ha) (htyped a ha) hlinks
        have htypes : (arguments.map fun a => a.2.type Γ) =
            (arguments.map fun a => (a.2.type Γ).getD .int).map some := by
          rw [List.map_map]
          exact List.map_congr_left htyped
        rw [if_pos hall, htypes]
        exact finds_argumentsFit hs₂ hlt hfind hcallable hlinked hwrapped _ hmarked
      · rw [if_neg hall, misfit, if_neg fun hand => hall hand.1]
        exact finds_pure hs₂ _
    · rw [if_neg hcallable, if_neg hcallable, if_neg hcallable]
      exact (finds_report hs₂ _ hlt).map fun _ => none

end Calls

/-! ### Expressions -/

section Constructs

variable {depth : Nat} {name : String}

theorem finds_literal (hs : s.Sees strict t Γ) {l : Literal} (he : t.HasExpr (.literal l)) :
    Finds strict t Γ s (typeWithin (depth + 1) l.id) (some l.ty) ((Expr.literal l).events Γ) := by
  have hexpr := he.isExpression
  cases he.of_bare_eq hs.text with
  | literal hl =>
    have rule : ∃ n, s.tree.node l.id = .ok n ∧
        typeByKind (typeWithin depth) l.id n = pure (some l.ty) := by
      cases l
      all_goals
        obtain ⟨n, hn, hkind, -⟩ := hl
        exact ⟨n, hn, by simp only [typeByKind, hkind]; rfl⟩
    obtain ⟨n, hn, hrule⟩ := rule
    refine finds_typed hn hexpr (?_ : Finds strict t Γ s (typeByKind _ l.id n) _ [])
    rw [hrule]
    exact finds_pure hs _

theorem finds_plain (hs : s.Sees strict t Γ) {access : Access}
    (he : t.HasExpr (.plain id access name)) :
    Finds strict t Γ s (typeWithin (depth + 1) id) ((Expr.plain id access name).type Γ)
      ((Expr.plain id access name).events Γ) := by
  have hexpr : t.Has id fun n => n.kind.isExpression = true := he.isExpression
  cases he.of_bare_eq hs.text with
  | plain hn =>
    obtain ⟨n, hn, hkind, rfl, hfirst⟩ := hn
    have rule : typeByKind (typeWithin depth) id n = variableUse (typeWithin depth) id n := by
      cases access <;> simp only [typeByKind, hkind, Access.kind]
    have index : Finds strict t Γ s (typePart (typeWithin depth) n.first) none [] := by
      rw [hfirst]
      exact finds_pure hs none
    have used := finds_variableUse hexpr.lt_size (by simp [hfirst]) index
    refine finds_typed hn hexpr ?_
    rw [rule]
    simpa [hfirst, mismatchPart, Expr.findings_plain] using used

theorem finds_element (hs : s.Sees strict t Γ) {access : Access} {index : Expr}
    (he : t.HasExpr (.element id access name index)) (hi : t.HasExpr index)
    (hindex : Finds strict t Γ s (typeWithin depth index.id) (index.type Γ) (index.events Γ)) :
    Finds strict t Γ s (typeWithin (depth + 1) id) ((Expr.element id access name index).type Γ)
      ((Expr.element id access name index).events Γ) := by
  have hexpr : t.Has id fun n => n.kind.isExpression = true := he.isExpression
  cases he.of_bare_eq hs.text with
  | element hn _ =>
    obtain ⟨n, hn, hkind, rfl, hfirst⟩ := hn
    have rule : typeByKind (typeWithin depth) id n = variableUse (typeWithin depth) id n := by
      cases access <;> simp only [typeByKind, hkind, Access.kind]
    have index : Finds strict t Γ s (typePart (typeWithin depth) n.first) (index.type Γ)
        (index.events Γ) := by
      rw [hfirst]
      exact hindex
    have used := finds_variableUse hexpr.lt_size
      (by simpa [hfirst] using hi.isExpression.lt_size) index
    refine finds_typed hn hexpr ?_
    rw [rule]
    simpa [hfirst, mismatchPart, Expr.findings_element] using used

theorem finds_unary (hs : s.Sees strict t Γ) {op : Operator} {arity : op.cls.arity = 1}
    {operand : Expr} (he : t.HasExpr (.unary id op arity operand)) (ho : t.HasExpr operand)
    (hoperand : Finds strict t Γ s (typeWithin depth operand.id) (operand.type Γ)
      (operand.events Γ)) :
    Finds strict t Γ s (typeWithin (depth + 1) id) ((Expr.unary id op arity operand).type Γ)
      ((Expr.unary id op arity operand).events Γ) := by
  have hexpr : t.Has id fun n => n.kind.isExpression = true := he.isExpression
  cases he.of_bare_eq hs.text with
  | unary hn _ =>
    obtain ⟨n, hn, hkind, hop, hfirst, hsecond⟩ := hn
    have rule : typeByKind (typeWithin depth) id n = operation (typeWithin depth) n := by
      simp only [typeByKind, hkind]
    have left : Finds strict t Γ s (typePart (typeWithin depth) n.first) (operand.type Γ)
        (operand.events Γ) := by
      rw [hfirst]
      exact hoperand
    have right : ∀ s₁ : Checker, s₁.Sees strict t Γ →
        Finds strict t Γ s₁ (typePart (typeWithin depth) n.second) none [] := by
      rw [hsecond]
      exact fun s₁ hs₁ => finds_pure hs₁ none
    have typed := finds_operation hop (by simpa [hfirst] using ho.isExpression.lt_size)
      (by simp [hsecond]) left right
    refine finds_typed hn hexpr ?_
    rw [rule]
    simpa [hfirst, hsecond, mismatchPart, Expr.findings_unary] using typed

theorem finds_binary (hs : s.Sees strict t Γ) {op : Operator} {arity : op.cls.arity = 2}
    {left right : Expr} (he : t.HasExpr (.binary id op arity left right)) (hl : t.HasExpr left)
    (hr : t.HasExpr right)
    (hleft : Finds strict t Γ s (typeWithin depth left.id) (left.type Γ) (left.events Γ))
    (hright : ∀ s₁ : Checker, s₁.Sees strict t Γ →
      Finds strict t Γ s₁ (typeWithin depth right.id) (right.type Γ) (right.events Γ)) :
    Finds strict t Γ s (typeWithin (depth + 1) id) ((Expr.binary id op arity left right).type Γ)
      ((Expr.binary id op arity left right).events Γ) := by
  have hexpr : t.Has id fun n => n.kind.isExpression = true := he.isExpression
  cases he.of_bare_eq hs.text with
  | binary hn _ _ =>
    obtain ⟨n, hn, hkind, hop, hfirst, hsecond⟩ := hn
    have rule : typeByKind (typeWithin depth) id n = operation (typeWithin depth) n := by
      simp only [typeByKind, hkind]
    have left : Finds strict t Γ s (typePart (typeWithin depth) n.first) (left.type Γ)
        (left.events Γ) := by
      rw [hfirst]
      exact hleft
    have right : ∀ s₁ : Checker, s₁.Sees strict t Γ →
        Finds strict t Γ s₁ (typePart (typeWithin depth) n.second) (right.type Γ)
          (right.events Γ) := by
      rw [hsecond]
      exact hright
    have typed := finds_operation hop (by simpa [hfirst] using hl.isExpression.lt_size)
      (by simpa [hsecond] using hr.isExpression.lt_size) left right
    refine finds_typed hn hexpr ?_
    rw [rule]
    simpa [hfirst, hsecond, mismatchPart, Expr.findings_binary] using typed

/-- An argument has the type of what it is around. -/
theorem finds_argument (hs : s.Sees strict t Γ) {inner : NodeId} {ty : Option Ty}
    {es : List Event} (hwrapper : t.HasArgument id inner)
    (he : Finds strict t Γ s (typeWithin depth inner) ty es) :
    Finds strict t Γ s (typeWithin (depth + 1) id) ty (es ++ typing id ty) := by
  have hexpr : t.Has id fun n => n.kind.isExpression = true :=
    hwrapper.imp fun n hn => by rw [hn.1]; rfl
  obtain ⟨n, hn, hkind, hfirst⟩ := hwrapper.of_bare_eq hs.text
  have rule : typeByKind (typeWithin depth) id n = typeWithin depth inner := by
    simp only [typeByKind, hkind, hfirst, typePart]
  exact finds_typed hn hexpr (rule ▸ he)

theorem finds_callNode (hs : s.Sees strict t Γ) {name : String}
    {arguments : List (NodeId × Expr)} (he : t.HasExpr (.call id name arguments))
    (hd : (Expr.call id name arguments).ids.Nodup)
    (harguments : ∀ a ∈ arguments, ∀ s₁ : Checker, s₁.Sees strict t Γ →
      Finds strict t Γ s₁ (typeWithin depth a.1) (a.2.type Γ)
        (a.2.events Γ ++ typing a.1 (a.2.type Γ))) :
    Finds strict t Γ s (typeWithin (depth + 1) id) ((Expr.call id name arguments).type Γ)
      ((Expr.call id name arguments).events Γ) := by
  have hexpr : t.Has id fun n => n.kind.isExpression = true := he.isExpression
  have held := he.of_bare_eq hs.text
  cases he with
  | call _ hwrapped hheld =>
    cases held with
    | call hn _ _ =>
      obtain ⟨n, hn, hkind, rfl, hlinked⟩ := hn
      have rule : typeByKind (typeWithin depth) id n = call (typeWithin depth) id n := by
        simp only [typeByKind, hkind]
      refine finds_typed hn hexpr ?_
      rw [rule]
      exact finds_call hs hn (hlinked.of_bare_eq hs.text.symm) hwrapped hheld hd harguments

end Constructs

/-- **Typing plays its transcript.** An expression that the tree holds without a node in two places
is typed, as deep as it goes. -/
theorem finds_typeWithin {e : Expr} {depth : Nat} (hs : s.Sees strict t Γ) (he : t.HasExpr e)
    (hd : e.ids.Nodup) (hdepth : e.ids.length ≤ depth) :
    Finds strict t Γ s (typeWithin depth e.id) (e.type Γ) (e.events Γ) := by
  induction e generalizing depth s with
  | literal l =>
    obtain ⟨depth, rfl⟩ := Expr.exists_depth hdepth
    exact finds_literal hs he
  | plain id access name =>
    obtain ⟨depth, rfl⟩ := Expr.exists_depth hdepth
    exact finds_plain hs he
  | element id access name index ih =>
    obtain ⟨depth, rfl⟩ := Expr.exists_depth hdepth
    have hi : t.HasExpr index := by cases he; assumption
    exact finds_element hs he hi
      (ih hs hi (List.nodup_cons.1 hd).2 (Nat.le_of_succ_le_succ hdepth))
  | unary id op arity operand ih =>
    obtain ⟨depth, rfl⟩ := Expr.exists_depth hdepth
    have ho : t.HasExpr operand := by cases he; assumption
    exact finds_unary hs he ho
      (ih hs ho (List.nodup_cons.1 hd).2 (Nat.le_of_succ_le_succ hdepth))
  | binary id op arity left right ihl ihr =>
    obtain ⟨depth, rfl⟩ := Expr.exists_depth hdepth
    obtain ⟨hleft, hright, -⟩ := List.nodup_append.1 (List.nodup_cons.1 hd).2
    have hdepth : left.ids.length + right.ids.length ≤ depth := by
      simp only [Expr.ids, List.length_cons, List.length_append] at hdepth
      omega
    have hl : t.HasExpr left := by cases he; assumption
    have hr : t.HasExpr right := by cases he; assumption
    exact finds_binary hs he hl hr (ihl hs hl hleft (by omega)) fun s₁ hs₁ =>
      ihr hs₁ hr hright (by omega)
  | call id name arguments ih =>
    obtain ⟨depth, rfl⟩ := Expr.exists_depth hdepth
    refine finds_callNode hs he hd fun a ha s₁ hs₁ => ?_
    cases he with
    | call _ hwrapped hheld =>
      -- an argument has a node more than its expression, so there is a step left for it
      have part := Expr.ids_sublist_argumentIds ha
      have hshort : a.2.ids.length + 1 ≤ depth :=
        Nat.le_trans part.length_le (Nat.le_of_succ_le_succ hdepth)
      obtain ⟨depth, rfl⟩ : ∃ d, depth = d + 1 := ⟨depth - 1, by omega⟩
      have hargument := part.nodup (List.nodup_cons.1 hd).2
      exact finds_argument hs₁ (hwrapped a ha) (ih a ha hs₁ (hheld a ha)
        (List.nodup_cons.1 hargument).2 (Nat.le_of_succ_le_succ hshort))

/-! ### At a context -/

section Contexts

variable {c : Context}

theorem plays_expect (hs : s.Stands t c) (wanted : Ty) (received : Option Ty)
    (h : id.index < t.size) :
    Plays t s (expect wanted received id) () (mismatch wanted received id) c :=
  (finds_expect (hs.sees true) wanted received h).plays hs (declared_mismatch ..)

/-- At a context the transcript of an expression is played. The tree is as deep as it has nodes. -/
theorem plays_expression {e : Expr} (hs : s.Stands t c) (he : t.HasExpr e) (hd : e.ids.Nodup)
    (hsize : e.ids.length ≤ t.size) :
    Plays t s (expression e.id) (e.type c.find?) (e.events c.find?) c := by
  refine .get ((finds_typeWithin (hs.sees true) he hd ?_).plays hs e.declared_events)
  rw [hs.size_eq]
  exact Nat.le_succ_of_le hsize

end Contexts

end Check

end DecafStatics
