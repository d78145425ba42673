import DecafStatics.Proofs.Depth
import DecafStatics.Proofs.Lines

/-!
# Scripts

What a dump writes at one level and what it writes at another one differ in their indentation only.
Both follow the same script, a list of pieces of text of which some stand behind an indentation; a
piece of that sort says how much further than the level it is indented.

A script does not show what becomes of the pieces, be it that a sink has no room for all of them or
that one of them cannot be indented that far.

## Implementation notes

There is no second description of what is to be written. `Writer.Follows` says of a family of
writers that all of them follow one script, and it is kept by whatever writers are put together
with. The family is indexed by the level and by one more parameter, which must not show.

Most of what is written is whole lines, but not all of it. Where the lines of a script are of
interest, a proposition `P` is carried along that says when they are to be expected.

## Main definitions

* `Unbroken` — texts without line breaks
* `Piece`, `Script` — what is written, apart from the level
* `Row`, `Script.Lined` — scripts that consist of indented lines
* `Writer.Follows` — following a script at every level

## Main results

* `Script.write_of_fits`, `Script.toText_write` — what a script reads
* `Writer.Follows.bind`, `Writer.Follows.below` — scripts one behind the other, and further to the
  right
-/

namespace DecafStatics

/-! ### Pieces -/

/-- An indentation. -/
def spaces (width : Nat) : String := String.ofList (List.replicate width ' ')

theorem spaces_add (a b : Nat) : spaces (a + b) = spaces a ++ spaces b := by
  rw [spaces, spaces, spaces, ← String.ofList_append, List.replicate_append_replicate]

/-- A text that is written in one go. -/
inductive Piece where
  /-- Behind an indentation that is so much wider than the level. -/
  | indented (offset : Nat) (text : String)
  | plain (text : String)

namespace Piece

/-- What the piece reads at a level. -/
def text (level : Nat) : Piece → String
  | indented offset text => spaces (level + offset) ++ text
  | plain text => text

/-- How much further than the level the piece is indented. -/
def offset : Piece → Nat
  | indented offset _ => offset
  | plain _ => 0

/-- The piece can be written at the level. -/
def Fits (level : Nat) : Piece → Prop
  | indented offset _ => level + offset ≤ Tree.maxIndent
  | plain _ => True

/-- Writes the piece at a level. -/
def write (level : Nat) : Piece → Writer Unit
  | indented offset text => Tree.writeAt (level + offset) text
  | plain text => Writer.write text

/-- The piece, to be written at a level that is lower by `k`. -/
def deeper (k : Nat) : Piece → Piece
  | indented offset text => indented (k + offset) text
  | plain text => plain text

variable {level : Nat} {p : Piece}

instance : Decidable (p.Fits level) := by
  cases p <;> unfold Fits <;> infer_instance

theorem fits_of_offset_le (h : level + p.offset ≤ Tree.maxIndent) : p.Fits level := by
  cases p with
  | indented offset text => exact h
  | plain text => trivial

theorem Fits.mono {level' : Nat} (h : p.Fits level') (hle : level ≤ level') : p.Fits level := by
  cases p with
  | indented offset text => exact Nat.le_trans (Nat.add_le_add_right hle offset) h
  | plain text => trivial

theorem write_of_fits (h : p.Fits level) : p.write level = Writer.write (p.text level) := by
  cases p with
  | indented offset text =>
    have narrow : level + offset ≤ Tree.maxIndent := h
    simp only [write, Tree.writeAt, Tree.indent, if_pos narrow, Writer.read, pure_bind, Piece.text,
      spaces]
  | plain text => rfl

theorem write_of_not_fits (h : ¬ p.Fits level) :
    p.write level = throw (.fault .indentTooWide) := by
  cases p with
  | indented offset text =>
    have wide : ¬ level + offset ≤ Tree.maxIndent := h
    simp only [write, Tree.writeAt, Tree.indent, if_neg wide, Writer.read]
    rfl
  | plain text => exact absurd trivial h

theorem write_deeper (k : Nat) : (p.deeper k).write level = p.write (level + k) := by
  cases p with
  | indented offset text => rw [deeper, write, write, Nat.add_assoc]
  | plain text => rfl

theorem text_deeper (k : Nat) : (p.deeper k).text level = p.text (level + k) := by
  cases p with
  | indented offset text => rw [deeper, Piece.text, Piece.text, Nat.add_assoc]
  | plain text => rfl

theorem offset_deeper_le (k : Nat) : (p.deeper k).offset ≤ p.offset + k := by
  cases p with
  | indented offset text => exact Nat.le_of_eq (Nat.add_comm k offset)
  | plain text => exact Nat.zero_le _

end Piece

/-! ### Texts without line breaks -/

/-- There is no line break in the text. -/
def Unbroken (text : String) : Prop := '\n' ∉ text.toList

instance (text : String) : Decidable (Unbroken text) :=
  inferInstanceAs (Decidable ('\n' ∉ text.toList))

@[simp] theorem unbroken_append {a b : String} : Unbroken (a ++ b) ↔ Unbroken a ∧ Unbroken b := by
  rw [Unbroken, String.toList_append, List.mem_append, not_or, Unbroken, Unbroken]

@[simp] theorem unbroken_typeLabel (ty : Option Ty) : Unbroken (typeLabel ty) := by
  rcases ty with _ | _ | _ | _ | _ <;> decide

@[simp] theorem unbroken_truthLabel (value : Int32) : Unbroken (truthLabel value) := by
  unfold truthLabel
  split <;> decide

@[simp] theorem unbroken_symbol (op : Operator) : Unbroken op.symbol := by
  cases op <;> decide

@[simp] theorem unbroken_toString (value : Int) : Unbroken (toString value) :=
  not_mem_toString value

/-! ### Scripts -/

/-- Pieces that are written one after the other. -/
abbrev Script := List Piece

/-- The line break at the end of each line. -/
def unlines : List String → String
  | [] => ""
  | line :: rest => line ++ "\n" ++ unlines rest

theorem unlines_append (a b : List String) : unlines (a ++ b) = unlines a ++ unlines b := by
  induction a with
  | nil => simp [unlines]
  | cons line rest ih => simp only [List.cons_append, unlines, ih, String.append_assoc]

/-- An indented line. -/
structure Row where
  /-- How much further than the level it is indented. -/
  offset : Nat
  content : String

/-- What the line reads at a level. -/
def Row.line (level : Nat) (r : Row) : String :=
  spaces (level + r.offset) ++ r.content

/-- Texts one behind the other. -/
theorem Writer.run_forM_write (texts : List String) {sink : Sink} (hroom : sink.room = none) :
    forM texts Writer.write sink = .ok () { sink with text := sink.text ++ String.join texts } := by
  induction texts generalizing sink with
  | nil =>
    show EStateM.Result.ok () sink = _
    simp [String.join]
  | cons text rest ih =>
    show EStateM.bind (write text) (fun _ => forM rest write) sink = _
    rw [EStateM.bind, write_unlimited hroom, String.join_cons, ← String.append_assoc]
    exact ih hroom

theorem Writer.toText_forM_write (texts : List String) :
    (forM texts Writer.write).toText = .ok (String.join texts) := by
  rw [toText, EStateM.run, run_forM_write texts rfl]
  exact congrArg Except.ok String.empty_append

namespace Script

/-- What the script reads at a level. -/
def text (level : Nat) (script : Script) : String := String.join (script.map (Piece.text level))

/-- Writes a script at a level. -/
def write (level : Nat) (script : Script) : Writer Unit := forM script (Piece.write level)

/-- Every piece can be written at the level. -/
def Fits (level : Nat) (script : Script) : Prop := ∀ p ∈ script, p.Fits level

instance (level : Nat) (script : Script) : Decidable (script.Fits level) :=
  inferInstanceAs (Decidable (∀ p ∈ script, p.Fits level))

/-- The script consists of indented lines, each of which ends with the first line break in it. -/
def Lined (script : Script) : Prop :=
  ∃ rows : List Row, (∀ r ∈ rows, Unbroken r.content) ∧
    ∀ level, script.text level = unlines (rows.map (Row.line level))

variable {level : Nat} {a b : Script}

@[simp] theorem text_cons (p : Piece) (rest : Script) :
    text level (p :: rest) = p.text level ++ text level rest := by
  rw [text, List.map_cons, String.join_cons, text]

theorem text_append (a b : Script) : text level (a ++ b) = text level a ++ text level b := by
  rw [text, List.map_append, String.join_append, text, text]

theorem write_append (a b : Script) :
    write level (a ++ b) = (write level a >>= fun _ => write level b) := List.forM_append

theorem text_deeper (k : Nat) (script : Script) :
    text level (script.map (Piece.deeper k)) = text (level + k) script := by
  rw [text, List.map_map, text]
  congr 2
  exact funext fun p => p.text_deeper k

theorem write_deeper (k : Nat) (script : Script) :
    write level (script.map (Piece.deeper k)) = write (level + k) script := by
  rw [write, List.forM_map]
  exact congrArg (forM script) (funext fun p => p.write_deeper k)

/-- Where every piece can be written the script is a list of texts. -/
theorem write_of_fits {script : Script} (h : script.Fits level) :
    script.write level = forM (script.map (Piece.text level)) Writer.write := by
  induction script with
  | nil => rfl
  | cons p rest ih =>
    obtain ⟨hp, hrest⟩ := List.forall_mem_cons.1 h
    rw [write, List.forM_cons, Piece.write_of_fits hp, List.map_cons, List.forM_cons]
    exact bind_congr fun _ => ih hrest

/-- A sink that takes everything gets what stands before the first piece that cannot be written. -/
theorem run_write_of_not_fits {script : Script} (h : ¬ script.Fits level) {sink : Sink}
    (hroom : sink.room = none) :
    ∃ sink', script.write level sink = .error (.fault .indentTooWide) sink' := by
  induction script generalizing sink with
  | nil => exact absurd (List.forall_mem_nil _) h
  | cons p rest ih =>
    show ∃ sink', EStateM.bind (p.write level) (fun _ => write level rest) sink = _
    rw [EStateM.bind]
    by_cases hp : p.Fits level
    · have hrest : ¬ Fits level rest := fun hrest => h (List.forall_mem_cons.2 ⟨hp, hrest⟩)
      rw [Piece.write_of_fits hp, Writer.write_unlimited hroom]
      exact ih hrest hroom
    · rw [Piece.write_of_not_fits hp]
      exact ⟨sink, rfl⟩

theorem write_plain (level : Nat) (texts : List String) :
    write level (texts.map .plain) = forM texts Writer.write := List.forM_map

/-- A script reads what its pieces read, unless one of them cannot be indented that far. -/
theorem toText_write (level : Nat) (script : Script) :
    if script.Fits level then (script.write level).toText = .ok (script.text level)
    else (script.write level).toText = .error .indentTooWide := by
  split
  · rename_i hfits
    rw [write_of_fits hfits, Writer.toText_forM_write, text]
  · rename_i hwide
    obtain ⟨sink, hrun⟩ : ∃ sink, script.write level .unlimited =
      .error (.fault .indentTooWide) sink := run_write_of_not_fits hwide rfl
    rw [Writer.toText, EStateM.run, hrun]

theorem Fits.mono {script : Script} {level' : Nat} (h : script.Fits level') (hle : level ≤ level') :
    script.Fits level := fun p hp => (h p hp).mono hle

/-- A script fits where there is room to the right of the level for its widest indentation. -/
theorem fits_of_offset_le {script : Script} {b : Nat} (h : ∀ p ∈ script, p.offset ≤ b)
    (hle : level + b ≤ Tree.maxIndent) : script.Fits level :=
  fun p hp => p.fits_of_offset_le (Nat.le_trans (Nat.add_le_add_left (h p hp) level) hle)

/-! ### Scripts of lines -/

theorem lined_nil : Lined [] := ⟨[], List.forall_mem_nil _, fun _ => rfl⟩

theorem Lined.append (ha : a.Lined) (hb : b.Lined) : (a ++ b).Lined := by
  obtain ⟨rows, hrows, htext⟩ := ha
  obtain ⟨more, hmore, htext'⟩ := hb
  refine ⟨rows ++ more, List.forall_mem_append.2 ⟨hrows, hmore⟩, fun level => ?_⟩
  rw [text_append, htext, htext', List.map_append, unlines_append]

theorem Lined.deeper (ha : a.Lined) (k : Nat) : Lined (a.map (Piece.deeper k)) := by
  obtain ⟨rows, hrows, htext⟩ := ha
  refine ⟨rows.map fun r => { r with offset := k + r.offset }, List.forall_mem_map.2 hrows,
    fun level => ?_⟩
  rw [text_deeper, htext, List.map_map]
  congr 2
  funext r
  simp only [Function.comp, Row.line, Nat.add_assoc]

/-- One line, in however many pieces. -/
theorem lined_of_join {offset : Nat} {head content : String} {rest : List String}
    (hjoin : head ++ String.join rest = content ++ "\n") (hclean : Unbroken content) :
    Lined (.indented offset head :: rest.map .plain) := by
  refine ⟨[⟨offset, content⟩], List.forall_mem_singleton.2 hclean, fun level => ?_⟩
  have plain : text level (rest.map .plain) = String.join rest := by
    rw [text, List.map_map]
    exact congrArg String.join (List.map_id rest)
  rw [text_cons, plain, Piece.text, String.append_assoc, hjoin]
  simp [unlines, Row.line, String.append_assoc]

end Script

/-! ### Following a script -/

namespace Writer

variable {ι κ α : Type} {P : Prop} {b : Nat} {w w' : ι → Nat → Writer Unit}

/-- At every level the same script is written, which is indented by no more than `b` and consists of
lines where `P` holds. The index `i` does not show. -/
def Follows (P : Prop) (b : Nat) (w : ι → Nat → Writer Unit) : Prop :=
  ∃ script : Script, (∀ i level, w i level = script.write level) ∧
    (∀ p ∈ script, p.offset ≤ b) ∧ (P → script.Lined)

/-- The same texts are written at every level, and where `P` holds they are the rest of a line. -/
def Finishes (P : Prop) (w : ι → Nat → Writer Unit) : Prop :=
  ∃ rest : List String, (∀ i level, w i level = forM rest write) ∧
    (P → ∃ content, String.join rest = content ++ "\n" ∧ Unbroken content)

theorem finishes_end {text : String} (content : String) (htext : text = content ++ "\n")
    (h : P → Unbroken content) : Finishes P fun (_ : ι) _ => write text := by
  refine ⟨[text], fun _ _ => (bind_pure _).symm, fun hP => ⟨content, ?_, h hP⟩⟩
  rw [String.join_cons, htext]
  exact String.append_empty

theorem Finishes.bind {text : String} (htext : P → Unbroken text) (h : Finishes P w) :
    Finishes P fun i level => write text >>= fun _ => w i level := by
  obtain ⟨rest, hw, hrest⟩ := h
  refine ⟨text :: rest, fun i level => ?_, fun hP => ?_⟩
  · show (write text >>= fun _ => w i level) = _
    rw [List.forM_cons, hw]
  · obtain ⟨content, hjoin, hclean⟩ := hrest hP
    refine ⟨text ++ content, ?_, unbroken_append.2 ⟨htext hP, hclean⟩⟩
    rw [String.join_cons, hjoin, String.append_assoc]

theorem Finishes.read {value : Except Fault α} {x : α} {f : ι → Nat → α → Writer Unit}
    (hvalue : value = .ok x) (h : Finishes P fun i level => f i level x) :
    Finishes P fun i level => Writer.read value >>= f i level := by
  simpa only [hvalue, Writer.read, pure_bind] using h

theorem follows_pure : Follows P b fun (_ : ι) _ => pure () :=
  ⟨[], fun _ _ => rfl, List.forall_mem_nil _, fun _ => Script.lined_nil⟩

/-- A line of several parts. -/
theorem Finishes.line {offset : Nat} (hle : offset ≤ b) {text : String} (htext : P → Unbroken text)
    (h : Finishes P w) :
    Follows P b fun i level => Tree.writeAt (level + offset) text >>= fun _ => w i level := by
  obtain ⟨rest, hw, hrest⟩ := h
  refine ⟨.indented offset text :: rest.map .plain, fun i level => ?_, ?_, fun hP => ?_⟩
  · show (Tree.writeAt (level + offset) text >>= fun _ => w i level) = _
    rw [hw, Script.write, List.forM_cons]
    exact bind_congr fun _ => (Script.write_plain level rest).symm
  · exact List.forall_mem_cons.2 ⟨hle, List.forall_mem_map.2 fun _ _ => Nat.zero_le b⟩
  · obtain ⟨content, hjoin, hclean⟩ := hrest hP
    refine Script.lined_of_join ?_ (unbroken_append.2 ⟨htext hP, hclean⟩)
    rw [hjoin, String.append_assoc]

theorem follows_writeLine {offset : Nat} (hle : offset ≤ b) {text : String}
    (htext : P → Unbroken text) :
    Follows P b fun (_ : ι) level => Tree.writeLine (level + offset) text := by
  refine ⟨[.indented offset (text ++ "\n")], fun _ _ => (bind_pure _).symm,
    List.forall_mem_singleton.2 hle, fun hP => ?_⟩
  have line : text ++ "\n" ++ String.join [] = text ++ "\n" := String.append_empty
  exact Script.lined_of_join line (htext hP)

/-- A text that is no line. -/
theorem follows_write (h : ¬ P) (text : String) : Follows P b fun (_ : ι) _ => write text :=
  ⟨[.plain text], fun _ _ => (bind_pure _).symm, List.forall_mem_singleton.2 (Nat.zero_le b),
    fun hP => (h hP).elim⟩

/-- A text that is no line, behind the spaces of the level. -/
theorem follows_writeAt (h : ¬ P) (text : String) :
    Follows P b fun (_ : ι) level => Tree.writeAt level text :=
  ⟨[.indented 0 text], fun _ _ => (bind_pure _).symm, List.forall_mem_singleton.2 (Nat.zero_le b),
    fun hP => (h hP).elim⟩

namespace Follows

theorem bind (h : Follows P b w) (h' : Follows P b w') :
    Follows P b fun i level => w i level >>= fun _ => w' i level := by
  obtain ⟨script, hw, hoffset, hlined⟩ := h
  obtain ⟨script', hw', hoffset', hlined'⟩ := h'
  refine ⟨script ++ script', fun i level => ?_, List.forall_mem_append.2 ⟨hoffset, hoffset'⟩,
    fun hP => (hlined hP).append (hlined' hP)⟩
  show (w i level >>= fun _ => w' i level) = _
  rw [hw, hw', Script.write_append]

theorem mono {c : Nat} (h : Follows P b w) (hle : b ≤ c) : Follows P c w := by
  obtain ⟨script, hw, hoffset, hlined⟩ := h
  exact ⟨script, hw, fun p hp => Nat.le_trans (hoffset p hp) hle, hlined⟩

/-- A part of the family follows the same script. -/
theorem reindex (h : Follows P b w) (f : κ → ι) : Follows P b fun i level => w (f i) level := by
  obtain ⟨script, hw, hscript⟩ := h
  exact ⟨script, fun i level => hw (f i) level, hscript⟩

/-- What is written further to the right. -/
theorem below (h : Follows P b w) {k c : Nat} (hle : b + k ≤ c) :
    Follows P c fun i level => w i (level + k) := by
  obtain ⟨script, hw, hoffset, hlined⟩ := h
  refine ⟨script.map (Piece.deeper k), fun i level => ?_, List.forall_mem_map.2 fun p hp => ?_,
    fun hP => (hlined hP).deeper k⟩
  · show w i (level + k) = _
    rw [hw, Script.write_deeper]
  · have hp := hoffset p hp
    have shifted := p.offset_deeper_le k
    omega

/-- Reading what is there writes nothing. -/
theorem read {value : Except Fault α} {x : α} {f : ι → Nat → α → Writer Unit}
    (hvalue : value = .ok x) (h : Follows P b fun i level => f i level x) :
    Follows P b fun i level => Writer.read value >>= f i level := by
  simpa only [hvalue, Writer.read, pure_bind] using h

end Follows

end Writer

end DecafStatics
