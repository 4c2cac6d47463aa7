/-
  HornClause.Proofs.RuleMatch

  Which rules are tried for a goal. The test looks for the text of the goal in the text of
  the conclusion. Texts forget how a formula is put together, so it has to be shown that
  the test neither finds a rule by accident nor misses one:

    * `Formula.BlockOf` — what the test means of letters.
    * `Rule.concludes_text_iff` — the test on texts is that relation, if the conclusion is
      a conjunction and the goal is one or is an implication between two.
    * `KnowledgeBase.rulesFor_by_letters` — the rules for a goal in a base that was read.
-/
import HornClause.Proofs.TriedLetters

namespace HornClause

-- ============================================================================
-- Blocks of letters
-- ============================================================================

namespace Formula

/-- The letters of a goal stand next to each other, in order, among the letters of a
    conclusion. An implication is no such block: an arrow stands between its letters. -/
def BlockOf (goal conclusion : Formula) : Prop :=
  goal.isConjunction = true ∧ goal.letters <:+: conclusion.letters

instance (goal conclusion : Formula) : Decidable (goal.BlockOf conclusion) :=
  inferInstanceAs (Decidable (_ ∧ _))

theorem equals_not_mem_chars {f : Formula} (h : f.isConjunction = true) : '=' ∉ f.chars := by
  rw [chars_of_isConjunction h]
  exact Letter.equals_not_mem f.letters

theorem equals_mem_chars (left right : Formula) :
    '=' ∈ (compound .implication left right).chars := by
  rw [chars_implication]
  exact List.mem_append_right _ List.mem_cons_self

theorem infix_chars_iff {goal conclusion : Formula} (hgoal : goal.isConjunction = true)
    (hconclusion : conclusion.isConjunction = true) :
    goal.chars <:+: conclusion.chars ↔ goal.letters <:+: conclusion.letters := by
  rw [chars_of_isConjunction hgoal, chars_of_isConjunction hconclusion, List.infix_map_iff]
  constructor
  · rintro ⟨ls, hblock, hls⟩
    rwa [Letter.map_char_inj hls]
  · intro hblock
    exact ⟨goal.letters, hblock, rfl⟩

/-- Only an atom has a single letter. -/
theorem blockOf_of_letter {goal conclusion : Formula} {l : Letter} (h : goal.letters = [l]) :
    goal.BlockOf conclusion ↔ l ∈ conclusion.letters := by
  cases goal with
  | atom a =>
    rw [BlockOf, h, List.singleton_infix_iff]
    exact and_iff_right rfl
  | compound c left right =>
    have hlength := congrArg List.length h
    have hleft := length_letters_pos left
    have hright := length_letters_pos right
    rw [letters_compound, List.length_append, List.length_singleton] at hlength
    omega

end Formula

/-- The test on texts finds the blocks of letters and nothing else. -/
theorem Rule.concludes_text_iff {r : Rule} {goal : Formula}
    (hr : r.conclusion.isConjunction = true)
    (hgoal : goal.isConjunction = true ∨ ∃ left right, goal = .compound .implication left right) :
    r.concludes goal.text = true ↔ goal.BlockOf r.conclusion := by
  rw [Rule.concludes_iff, Formula.toList_text]
  rcases hgoal with hconj | ⟨left, right, rfl⟩
  · rw [Formula.infix_chars_iff hconj hr, Formula.BlockOf, and_iff_right hconj]
  · -- The arrow of the goal would have to stand in the conclusion.
    refine iff_of_false (fun hfound => ?_) (fun hblock => Bool.false_ne_true hblock.1)
    exact Formula.equals_not_mem_chars hr (hfound.subset (Formula.equals_mem_chars left right))

-- ============================================================================
-- The rules for a goal
-- ============================================================================

namespace KnowledgeBase

variable {text query : String} {kb : KnowledgeBase} {reading : Formula.Reading} {goal : Formula}

/-- The rules for a goal are the rules, in their order and as often as they are declared,
    whose conclusion has the goal for a block of its letters. For a single letter these are
    the rules that conclude the letter among others, and for an implication there are
    none. -/
theorem rulesFor_by_letters (hkb : parse text = .ok kb)
    (hgoal : Formula.parse kb.known reading query = .ok goal) :
    (kb.rulesFor goal = kb.rules.filter fun r => goal.BlockOf r.conclusion) ∧
    (∀ l, goal.letters = [l] →
      kb.rulesFor goal = kb.rules.filter fun r => l ∈ r.conclusion.letters) ∧
    ∀ left right, goal = .compound .implication left right → kb.rulesFor goal = [] := by
  have hwf := wellFormed_of_parse hkb
  have hblocks : kb.rulesFor goal = kb.rules.filter fun r => goal.BlockOf r.conclusion := by
    refine List.filter_congr fun r hr => ?_
    have hconj := (hwf.rules r hr).conclusion_conjunction
    rw [Bool.eq_iff_iff, Rule.concludes_text_iff hconj (hwf.isConjunction_or hgoal),
      decide_eq_true_iff]
  refine ⟨hblocks, ?_, ?_⟩
  · intro l hl
    rw [hblocks]
    exact List.filter_congr fun r _ => decide_eq_decide.mpr (Formula.blockOf_of_letter hl)
  · rintro left right rfl
    rw [hblocks, List.filter_eq_nil_iff]
    intro r _ hblock
    exact Bool.false_ne_true (of_decide_eq_true hblock).1

/-- `CB` is found inside a conclusion, at its end and twice over, but not where the letters
    stand apart or the other way round; `B=>C` is found nowhere. -/
theorem rulesFor_by_letters_sample :
    ∃ kb goal implication,
      parse "A=>CBD, D=>BC, A, A=>BCB, C=>CAB, A=>CBD" = .ok kb ∧
      Formula.parse kb.known .query "CB" = .ok goal ∧
      Formula.parse kb.known .query "B=>C" = .ok implication ∧
      (kb.rulesFor goal).map Rule.text = ["A=>CBD", "A=>BCB", "A=>CBD"] ∧
      (kb.rules.filter fun r => goal.BlockOf r.conclusion).map Rule.text =
        ["A=>CBD", "A=>BCB", "A=>CBD"] ∧
      kb.rulesFor implication = [] := by
  obtain ⟨kb, hkb, hp⟩ := Except.exists_ok_of_any
    (x := parse "A=>CBD, D=>BC, A, A=>BCB, C=>CAB, A=>CBD")
    (p := fun kb => ((Formula.parse kb.known .query "CB").toOption.any fun goal =>
        (kb.rules.filter fun r => goal.BlockOf r.conclusion).map Rule.text ==
          ["A=>CBD", "A=>BCB", "A=>CBD"]) &&
      (Formula.parse kb.known .query "B=>C").toOption.any fun goal => !goal.isConjunction)
    (by decide +kernel)
  obtain ⟨hread, hread'⟩ := Bool.and_eq_true_iff.mp hp
  obtain ⟨goal, hgoal, htexts⟩ := Except.exists_ok_of_any hread
  obtain ⟨implication, himplication, hnot⟩ := Except.exists_ok_of_any hread'
  have htexts := eq_of_beq htexts
  obtain ⟨hblocks, -, -⟩ := rulesFor_by_letters hkb hgoal
  obtain ⟨-, -, hnone⟩ := rulesFor_by_letters hkb himplication
  refine ⟨kb, goal, implication, hkb, hgoal, himplication, ?_, htexts, ?_⟩
  · rw [hblocks]
    exact htexts
  · rcases (wellFormed_of_parse hkb).isConjunction_or himplication with
      hconj | ⟨left, right, heq⟩
    · rw [hconj] at hnot
      cases hnot
    · exact hnone left right heq

end KnowledgeBase

end HornClause
