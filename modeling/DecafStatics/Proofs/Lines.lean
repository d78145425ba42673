import DecafStatics.Tree.Dump

/-!
# Lines of a dump

The dump of an expression is a list of lines, each with a level and a heading, and the list can be
read off the text again: a line ends at the first line break, its level is the number of spaces in
front, and its heading begins with one of a few words, none of which begins another one.

## Main definitions

* `Mark`, `Heading`, `Line` — what a line begins with, what it says, and at which level
* `dumped` — the text of a list of lines
* `Writer.Says` — writing a text, unless there is a fault

## Main results

* `Mark.eq_of_prefix` — no word begins another one
* `dumped_injective` — lines without line breaks in them can be told from their text
-/

namespace DecafStatics

/-! ### Headings -/

/-- What stands on a line of the dump of an expression. -/
inductive Mark where
  | int
  | truth
  | string
  | name
  | operation
  | call
  | argument
  | openIndex
  | closeIndex
  | openArguments
  | closeArguments
  deriving DecidableEq

namespace Mark

/-- What the line begins with. -/
def word : Mark → String
  | int => "INT CONSTANT with value "
  | truth => "BOOL CONSTANT with value "
  | string => "STRING CONSTANT "
  | name => "Variable "
  | operation => "EXPR "
  | call => "METHOD CALL name: "
  | argument => "METHOD ARG"
  | openIndex => "["
  | closeIndex => "]"
  | openArguments => "("
  | closeArguments => ")"

/-- No word begins another one. -/
theorem eq_of_prefix {a b : Mark} (h : a.word.toList <+: b.word.toList) : a = b := by
  cases a <;> cases b <;> first | rfl | simp [word] at h

theorem not_mem_word (m : Mark) : '\n' ∉ m.word.toList := by
  cases m <;> simp [word]

theorem exists_word (m : Mark) : ∃ c rest, m.word.toList = c :: rest ∧ c ≠ ' ' := by
  cases m <;> exact ⟨_, _, rfl, by decide⟩

end Mark

/-- What a line says: a mark, and what is particular to the line. -/
structure Heading where
  mark : Mark
  content : String

def Heading.text (h : Heading) : String := h.mark.word ++ h.content

/-- A heading can be told from its text. -/
theorem Heading.text_injective : Function.Injective Heading.text := by
  rintro ⟨m, s⟩ ⟨m', s'⟩ h
  have chars : m.word.toList ++ s.toList = m'.word.toList ++ s'.toList := by
    simpa [text] using congrArg String.toList h
  obtain rfl : m = m' := by
    rcases List.append_eq_append_iff.1 chars with ⟨rest, heq, -⟩ | ⟨rest, heq, -⟩
    · exact Mark.eq_of_prefix ⟨rest, heq.symm⟩
    · exact (Mark.eq_of_prefix ⟨rest, heq.symm⟩).symm
  rw [String.toList_inj.1 (List.append_cancel_left chars)]

/-! ### Lines -/

theorem not_mem_toString (value : Int) : '\n' ∉ (toString value).toList := by
  have digits : ∀ n : Nat, '\n' ∉ n.repr.toList := by
    intro n hmem
    rw [Nat.toList_repr] at hmem
    exact absurd (Nat.isDigit_of_mem_toDigits (by decide) (by decide) hmem) (by decide)
  cases value with
  | ofNat n => exact digits n
  | negSucc n =>
    show '\n' ∉ ("-" ++ Nat.repr (n + 1)).toList
    rw [String.toList_append, List.mem_append]
    exact not_or.2 ⟨by decide, digits (n + 1)⟩

/-- A heading at a level. -/
structure Line where
  level : Nat
  heading : Heading

/-- There is no line break inside of the line. -/
def Line.Clean (line : Line) : Prop := '\n' ∉ line.heading.content.toList

/-- The text of the lines, one below the other. -/
def dumped : List Line → String
  | [] => ""
  | line :: rest =>
    String.ofList (List.replicate line.level ' ') ++ (line.heading.text ++ "\n") ++ dumped rest

theorem dumped_append (a b : List Line) : dumped (a ++ b) = dumped a ++ dumped b := by
  induction a with
  | nil => simp [dumped]
  | cons line rest ih =>
    rw [List.cons_append, dumped, dumped, ih]
    simp only [String.append_assoc]

/-- What is in front of the first character of another sort. -/
theorem takeWhile_of_stop {α : Type} {p : α → Bool} {x z : List α} {a : α}
    (hx : ∀ c ∈ x, p c = true) (ha : p a = false) : (x ++ a :: z).takeWhile p = x := by
  rw [List.takeWhile_append_of_pos hx, List.takeWhile_cons, ha]
  exact List.append_nil x

theorem toList_dumped_cons (line : Line) (rest : List Line) :
    (dumped (line :: rest)).toList =
      (List.replicate line.level ' ' ++ line.heading.text.toList) ++
        '\n' :: (dumped rest).toList := by
  simp [dumped]

/-- The level and the heading of a line can be told from the text in front of its line break. -/
theorem Line.eq_of_chars {a b : Line}
    (h : List.replicate a.level ' ' ++ a.heading.text.toList =
      List.replicate b.level ' ' ++ b.heading.text.toList) : a = b := by
  have level : ∀ line : Line, (List.replicate line.level ' ' ++ line.heading.text.toList).takeWhile
      (· == ' ') = List.replicate line.level ' ' := by
    intro line
    obtain ⟨c, rest, hword, hc⟩ := line.heading.mark.exists_word
    rw [Heading.text, String.toList_append, hword]
    exact takeWhile_of_stop (by simp) (by simpa using hc)
  have same : a.level = b.level := by
    simpa [level] using congrArg (fun chars => (chars.takeWhile (· == ' ')).length) h
  rw [same] at h
  obtain ⟨n, heading⟩ := a
  obtain ⟨n', heading'⟩ := b
  cases same
  exact congrArg (Line.mk n) (Heading.text_injective
    (String.toList_inj.1 (List.append_cancel_left h)))

/-- The characters of a line end before the first line break. -/
theorem takeWhile_dumped_cons {line : Line} (h : line.Clean) (rest : List Line) :
    (dumped (line :: rest)).toList.takeWhile (· != '\n') =
      List.replicate line.level ' ' ++ line.heading.text.toList := by
  rw [toList_dumped_cons]
  refine takeWhile_of_stop (fun c hc => ?_) (by simp)
  have hne : c ≠ '\n' := by
    rintro rfl
    rcases List.mem_append.1 hc with hc | hc
    · simp at hc
    · rw [Heading.text, String.toList_append, List.mem_append] at hc
      exact hc.elim (line.heading.mark.not_mem_word ·) h
  simpa using hne

theorem dumped_cons_ne_nil (line : Line) (rest : List Line) :
    dumped (line :: rest) ≠ dumped [] := by
  intro h
  have chars := congrArg String.toList h
  rw [toList_dumped_cons] at chars
  simp [dumped] at chars

/-- **Lines can be told from their text.** -/
theorem dumped_injective {a b : List Line} (ha : ∀ line ∈ a, line.Clean)
    (hb : ∀ line ∈ b, line.Clean) (h : dumped a = dumped b) : a = b := by
  induction a generalizing b with
  | nil =>
    cases b with
    | nil => rfl
    | cons line rest => exact (dumped_cons_ne_nil line rest h.symm).elim
  | cons line rest ih =>
    cases b with
    | nil => exact (dumped_cons_ne_nil line rest h).elim
    | cons line' rest' =>
      obtain ⟨hline, hrest⟩ := List.forall_mem_cons.1 ha
      obtain ⟨hline', hrest'⟩ := List.forall_mem_cons.1 hb
      have same : List.replicate line.level ' ' ++ line.heading.text.toList =
          List.replicate line'.level ' ' ++ line'.heading.text.toList := by
        rw [← takeWhile_dumped_cons hline rest, ← takeWhile_dumped_cons hline' rest', h]
      have chars := congrArg String.toList h
      rw [toList_dumped_cons, toList_dumped_cons, same] at chars
      have below := List.tail_eq_of_cons_eq (List.append_cancel_left chars)
      rw [Line.eq_of_chars same, ih hrest hrest' (String.toList_inj.1 below)]

/-! ### Writing lines -/

namespace Writer

/-- On a sink that takes everything the writer writes `text`, unless there is a fault. -/
def Says (w : Writer Unit) (text : String) : Prop :=
  ∀ sink : Sink, sink.room = none →
    w sink = .ok () { sink with text := sink.text ++ text } ∨
      ∃ fault sink', w sink = .error (.fault fault) sink'

variable {α : Type} {w w' : Writer Unit} {a b : String}

theorem says_pure : Says (pure ()) "" := by
  intro sink _
  left
  rw [String.append_empty]
  rfl

theorem says_throw (fault : Fault) (text : String) : Says (throw (.fault fault)) text :=
  fun sink _ => .inr ⟨fault, sink, rfl⟩

/-- A line is what is written at a level, unless that is too wide. -/
theorem says_writeLine (level : Nat) (h : Heading) :
    Says (Tree.writeLine level h.text) (dumped [⟨level, h⟩]) := by
  intro sink hroom
  by_cases hle : level ≤ Tree.maxIndent
  · left
    have written : Tree.writeLine level h.text =
        write (String.ofList (List.replicate level ' ') ++ (h.text ++ "\n")) := by
      simp only [Tree.writeLine, Tree.writeAt, Tree.indent, if_pos hle, read, pure_bind]
    rw [written, write_unlimited hroom, dumped, dumped, String.append_empty]
  · right
    refine ⟨.indentTooWide, sink, ?_⟩
    simp only [Tree.writeLine, Tree.writeAt, Tree.indent, if_neg hle, read]
    rfl

namespace Says

theorem bind (h : w.Says a) (h' : w'.Says b) : Says (w >>= fun _ => w') (a ++ b) := by
  intro sink hroom
  show EStateM.bind w (fun _ => w') sink = _ ∨ ∃ fault sink', EStateM.bind w (fun _ => w') sink = _
  rw [EStateM.bind]
  rcases h sink hroom with hrun | ⟨fault, sink', hrun⟩
  · rw [hrun]
    rcases h' { sink with text := sink.text ++ a } hroom with hrun' | hfault
    · left
      rw [← String.append_assoc]
      exact hrun'
    · exact .inr hfault
  · rw [hrun]
    exact .inr ⟨fault, sink', rfl⟩

/-- Reading what is there writes nothing. -/
theorem read {value : Except Fault α} {x : α} {f : α → Writer Unit} (hvalue : value = .ok x)
    (h : (f x).Says a) : Says (Writer.read value >>= f) a := by
  rw [hvalue, Writer.read, pure_bind]
  exact h

/-- If there is a text then it is that one. -/
theorem eq_of_toText (h : w.Says a) {text : String} (htext : w.toText = .ok text) : text = a := by
  rw [Writer.toText, EStateM.run] at htext
  rcases h .unlimited rfl with hrun | ⟨fault, sink, hrun⟩
  · rw [hrun] at htext
    cases htext
    exact String.empty_append
  · rw [hrun] at htext
    cases htext

end Says

end Writer

end DecafStatics
