import DecafStatics.Proofs.Stanzas

/-!
# The margin of a dump

To dump a tree further to the right is to put as many spaces in front of each line of its dump. So
every line of a dump has the spaces of the level in front, and a subtree reads the same wherever it
stands, but for its margin.

That is a matter of each stanza keeping to the level it is given. It holds of any tree that consists
of nodes that are shown by lines, with any kind of node in any place.

## Main results

* `Tree.toText_dump_add` — dumping further to the right
-/

namespace DecafStatics

namespace Script

variable {script : Script}

/-- The lines of a script, as they read at a level and further to the right. -/
theorem Lined.exists_lines (h : script.Lined) (level k : Nat) : ∃ lines : List String,
    (∀ line ∈ lines, Unbroken line ∧ ∃ content, line = spaces level ++ content) ∧
      script.text level = unlines lines ∧
      script.text (level + k) = unlines (lines.map (spaces k ++ ·)) := by
  obtain ⟨rows, hclean, htext⟩ := h
  have unbroken : ∀ width, Unbroken (spaces width) := by simp [Unbroken, spaces]
  refine ⟨rows.map (Row.line level), List.forall_mem_map.2 fun r hr => ⟨?_, ?_⟩, htext level, ?_⟩
  · exact unbroken_append.2 ⟨unbroken _, hclean r hr⟩
  · exact ⟨spaces r.offset ++ r.content, by rw [Row.line, spaces_add, String.append_assoc]⟩
  · rw [htext, List.map_map]
    congr 2
    funext r
    show spaces (level + k + r.offset) ++ r.content = spaces k ++ (spaces (level + r.offset) ++ _)
    rw [← String.append_assoc, ← spaces_add]
    congr 2
    omega

end Script

namespace Tree

/-- **Dumping further to the right.** There is a text, unless an indentation becomes too wide, and
it is the text at the lower level with `k` spaces in front of each line. The lines at the lower
level have the spaces of that level in front. -/
theorem toText_dump_add {t : Tree} {head : Option NodeId} (hs : t.Sound head) (hl : t.Lined head)
    (level k : Nat) :
    ((∃ text, (t.dump (level + k) head).toText = .ok text) ∨
      (t.dump (level + k) head).toText = .error .indentTooWide ∧
        maxIndent < level + k + 3 * (t.size + 1)) ∧
    ∀ text, (t.dump (level + k) head).toText = .ok text → ∃ lines : List String,
      (∀ line ∈ lines, Unbroken line ∧ ∃ content, line = spaces level ++ content) ∧
      (t.dump level head).toText = .ok (unlines lines) ∧
      text = unlines (lines.map (spaces k ++ ·)) := by
  obtain ⟨script, hdump, hoffset, hlined⟩ := exists_script hs
  have shown := script.toText_write (level + k)
  rw [← hdump] at shown
  by_cases hfits : script.Fits (level + k)
  · rw [if_pos hfits] at shown
    refine ⟨.inl ⟨_, shown⟩, fun text htext => ?_⟩
    obtain ⟨lines, hlines, hbelow, habove⟩ := (hlined hl).exists_lines level k
    have here := script.toText_write level
    rw [if_pos (hfits.mono (Nat.le_add_right level k)), ← hdump, hbelow] at here
    rw [htext] at shown
    exact ⟨lines, hlines, here, (Except.ok.inj shown).trans habove⟩
  · rw [if_neg hfits] at shown
    refine ⟨.inr ⟨shown, ?_⟩, fun text htext => ?_⟩
    · exact Nat.lt_of_not_le fun hle => hfits (Script.fits_of_offset_le hoffset hle)
    · rw [shown] at htext
      cases htext

/-- A conditional whose branches are jumps, and a call behind it. -/
def detour : Tree where
  nodes := #[
    { Node.blank .conditional with first := some ⟨1⟩, second := some ⟨4⟩, next := some ⟨6⟩ },
    { Node.blank .thenBranch with first := some ⟨2⟩, second := some ⟨3⟩ },
    { Node.blank .reference with name := some "x" },
    Node.blank .breakLoop,
    { Node.blank .elseBranch with first := some ⟨5⟩ },
    Node.blank .continueLoop,
    { Node.blank .call with name := some "f" }]

theorem sound_detour : detour.Sound (some ⟨0⟩) :=
  .of_closed (closed_of_forall (by decide)) (acyclic_of_forall (by decide)) (by simp [detour, size])

/-- The detour at the levels 2 and 7. -/
theorem toText_dump_add_detour :
    (detour.dump 2 (some ⟨0⟩)).toText.toOption = some
      ("  IF STATEMENT\n   Variable x\n     BREAK STATEMENT\n    ELSE STATEMENT\n" ++
        "     CONTINUE STATEMENT\n  METHOD CALL name: f\n   (\n   )\n") ∧
    ∃ text, (detour.dump (2 + 5) (some ⟨0⟩)).toText = .ok text ∧ ∃ lines : List String,
      (∀ line ∈ lines, Unbroken line ∧ ∃ content, line = spaces 2 ++ content) ∧
      (detour.dump 2 (some ⟨0⟩)).toText = .ok (unlines lines) ∧
      text = unlines (lines.map (spaces 5 ++ ·)) := by
  refine ⟨by decide +kernel, ?_⟩
  obtain ⟨⟨text, htext⟩ | ⟨-, hwide⟩, hlines⟩ :=
    toText_dump_add sound_detour (.of_forall (by decide)) 2 5
  · exact ⟨text, htext, hlines text htext⟩
  · exact absurd hwide (by decide)

end Tree

end DecafStatics
