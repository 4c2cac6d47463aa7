/-
  HornClause.Proofs.Completeness

  When a negative answer can be trusted. A rule whose premise is a single atom that
  is no fact *commits*: if the atom fails, the goal fails with it, and the rules after
  it are never tried. So a letter of the least model may be answered with false, but
  only where a rule that commits hides another rule for the same letter.

  Where no rule is hidden (`KnowledgeBase.HidesNoRule`), a goal that fails has failed
  by all of its rules (`premises_fail_of_tryRules`). Then the letters that do not fail
  are a model (`isModel_unfailed`), and the least model is contained in it: whatever
  fails is not in the least model. With soundness, every answer to a conjunction is
  exactly right.
-/
import HornClause.Proofs.Answer

namespace HornClause

-- ============================================================================
-- Rules that commit
-- ============================================================================

/-- The premise is a single atom, and no declared one. -/
def Rule.Commits (declared : List Letter) (r : Rule) : Prop :=
  ∃ a ∈ r.premise.asAtom?, a.letter ∉ declared

instance (declared : List Letter) (r : Rule) : Decidable (r.Commits declared) :=
  inferInstanceAs (Decidable (∃ a ∈ r.premise.asAtom?, _))

/-- No rule that commits is followed by another rule with a letter of its conclusion.
    The same rule may come again: it would fail again. -/
def KnowledgeBase.HidesNoRule (kb : KnowledgeBase) : Prop :=
  kb.rules.Pairwise fun r later => r.Commits kb.declared → later ≠ r →
    ∀ l ∈ r.conclusion.letters, l ∉ later.conclusion.letters

instance (kb : KnowledgeBase) : Decidable kb.HidesNoRule :=
  inferInstanceAs (Decidable (kb.rules.Pairwise _))

theorem Rule.WellFormed.commits {declared : List Letter} {r : Rule} (hr : r.WellFormed declared)
    (hatom : r.premise.isAtom = true) (hfacts : r.premise.evaluate = false) :
    r.Commits declared := by
  obtain ⟨a, ha⟩ := Option.isSome_iff_exists.mp hatom
  have hpremise := Formula.asAtom?_eq_some_iff.mp ha
  have hagrees := hr.premise_agrees
  rw [hpremise] at hagrees hfacts
  exact ⟨a, ha, (Formula.agreesWith_atom.mp hagrees).not_mem hfacts⟩

/-- Among the rules for one atom, a rule that commits is followed by nothing but
    itself. -/
theorem KnowledgeBase.HidesNoRule.rulesFor {kb : KnowledgeBase} (hkb : kb.WellFormed)
    (hhides : kb.HidesNoRule) (a : Atom) :
    (kb.rulesFor (.atom a)).Pairwise fun r later =>
      r.premise.isAtom = true → r.premise.evaluate = false → later = r := by
  have hpairs : (kb.rulesFor (.atom a)).Pairwise fun r later =>
      r.Commits kb.declared → later ≠ r →
        ∀ l ∈ r.conclusion.letters, l ∉ later.conclusion.letters := hhides.filter _
  refine hpairs.imp_of_mem fun {r later} hr hlater hdisjoint hatom hfacts => ?_
  obtain ⟨hmem, hletter⟩ := mem_rulesFor_atom.mp hr
  obtain ⟨-, hletter'⟩ := mem_rulesFor_atom.mp hlater
  by_contra hne
  exact hdisjoint ((hkb.rules r hmem).commits hatom hfacts) hne a.letter hletter hletter'

namespace Plain

variable {kb : KnowledgeBase} {f : Atom → Option Bool}

-- ============================================================================
-- What fails
-- ============================================================================

theorem exists_false_of_resolve {goal : Formula} (hconj : goal.isConjunction = true)
    (h : resolve f goal = some false) : ∃ a ∈ goal.atoms, f a = some false := by
  induction goal with
  | atom a => exact ⟨a, List.mem_cons_self, h⟩
  | compound c left right ihl ihr =>
    cases c with
    | implication => cases hconj
    | conjunction =>
      obtain ⟨hleft, hright⟩ := Bool.and_eq_true_iff.mp hconj
      obtain ⟨x, y, hx, hy, hxy⟩ := resolve_compound_eq_some_iff.mp h
      rcases Bool.and_eq_false_iff.mp hxy with rfl | rfl
      · obtain ⟨a, ha, hfalse⟩ := ihl hleft hx
        exact ⟨a, List.mem_append_left _ ha, hfalse⟩
      · obtain ⟨a, ha, hfalse⟩ := ihr hright hy
        exact ⟨a, List.mem_append_right _ ha, hfalse⟩

/-- Rules that fail a goal fail by the premise of every one of them, if none of them
    is hidden. -/
theorem premises_fail_of_tryRules {rules : List Rule}
    (hhides : rules.Pairwise fun r later =>
      r.premise.isAtom = true → r.premise.evaluate = false → later = r)
    (h : tryRules f rules = some false) : ∀ r ∈ rules, resolve f r.premise = some false := by
  induction rules with
  | nil => exact fun r hr => absurd hr List.not_mem_nil
  | cons rule rest ih =>
    obtain ⟨hrule, hrest⟩ := List.pairwise_cons.mp hhides
    rcases tryRules_cons_eq_some_iff.mp h with
      ⟨-, hv⟩ | ⟨hfacts, ⟨-, hv⟩ | ⟨hpremise, hatom, -⟩ | ⟨hpremise, -, hafter⟩⟩
    · cases hv
    · cases hv
    · -- The rule commits, so what comes after it is the rule again.
      intro r hr
      rcases List.mem_cons.mp hr with rfl | hr
      · exact hpremise
      · rw [hrule r hr hatom hfacts]
        exact hpremise
    · intro r hr
      rcases List.mem_cons.mp hr with rfl | hr
      · exact hpremise
      · exact ih hrest hafter r hr

/-- The letters that are declared or do not fail. -/
def unfailed (kb : KnowledgeBase) : Set Letter :=
  {l | l ∈ kb.declared ∨ value kb ⟨l, false⟩ ≠ some false}

theorem not_mem_unfailed {a : Atom} (ha : a.AgreesWith kb.declared)
    (h : value kb a = some false) : a.letter ∉ unfailed kb := by
  have hfalse : a.value = false := by
    by_contra htrue
    rw [value_of_value (Bool.eq_true_of_not_eq_false htrue)] at h
    cases h
  have hatom : a = ⟨a.letter, false⟩ := Atom.ext rfl hfalse
  rintro (hmem | hnot)
  · exact ha.not_mem hfalse hmem
  · rw [← hatom] at hnot
    exact hnot h

/-- The unfailed letters contain the facts and are closed under the rules. -/
theorem isModel_unfailed (hkb : kb.WellFormed) (hhides : kb.HidesNoRule) :
    kb.IsModel (unfailed kb) where
  facts l hl := Or.inl hl
  rules r hr hpremise l hl := by
    have hwf := hkb.rules r hr
    by_cases hdeclared : l ∈ kb.declared
    · exact Or.inl hdeclared
    refine Or.inr fun hfails => ?_
    -- If the letter failed, so did the premise, and with it one of its letters.
    have hfor : r ∈ kb.rulesFor (.atom ⟨l, false⟩) :=
      KnowledgeBase.mem_rulesFor_atom.mpr ⟨hr, hl⟩
    rw [value_eq_tryRules rfl] at hfails
    have hfalse := premises_fail_of_tryRules (hhides.rulesFor hkb _) hfails r hfor
    obtain ⟨b, hb, hvalue⟩ := exists_false_of_resolve hwf.premise_conjunction hfalse
    have hletter : b.letter ∈ r.premise.letters := Formula.mem_letters.mpr ⟨b, hb, rfl⟩
    exact not_mem_unfailed (hwf.premise_agrees b hb) hvalue (hpremise b.letter hletter)

theorem not_mem_leastModel_of_value (hkb : kb.WellFormed) (hhides : kb.HidesNoRule) {a : Atom}
    (ha : a.AgreesWith kb.declared) (h : value kb a = some false) :
    a.letter ∉ kb.leastModel :=
  fun hmem => not_mem_unfailed ha h
    (KnowledgeBase.leastModel_subset (isModel_unfailed hkb hhides) hmem)

end Plain

-- ============================================================================
-- Completeness
-- ============================================================================

/-- Answers are complete where no rule is hidden. If a letter or a conjunction of
    letters is answered at all, under any settings, it is answered with true exactly
    if all its letters are in the least set that contains the declared facts and is
    closed under the rules. -/
theorem result_iff_mem_leastModel {text : String} {kb : KnowledgeBase}
    (hkb : KnowledgeBase.parse text = .ok kb) (hhides : kb.HidesNoRule) (settings : Settings)
    {query : String} {goal : Formula} (hquery : Formula.parse kb.known .query query = .ok goal)
    (hconj : goal.isConjunction = true) {answer : Answer}
    (hask : (Session.install { settings } kb).ask query = .ok answer) :
    answer.result = true ↔ ∀ l ∈ goal.letters, l ∈ kb.leastModel := by
  have hwf := KnowledgeBase.wellFormed_of_parse hkb
  have hgoal := hwf.agreesWith hquery
  have hvalue := result_of_ask hwf hgoal hquery hask
  constructor
  · intro htrue
    rw [htrue] at hvalue
    exact Plain.mem_leastModel_of_resolve hwf hgoal hconj hvalue
  · intro hmem
    by_contra hresult
    rw [Bool.eq_false_of_not_eq_true hresult] at hvalue
    obtain ⟨a, ha, hfalse⟩ := Plain.exists_false_of_resolve hconj hvalue
    have hnot := Plain.not_mem_leastModel_of_value hwf hhides (hgoal a ha) hfalse
    exact hnot (hmem a.letter (Formula.mem_letters.mpr ⟨a, ha, rfl⟩))

/-- In the sample base, `FC` holds and `FE` does not. -/
theorem result_iff_mem_leastModel_sample :
    sample.HidesNoRule ∧
    (∃ goal answer, Formula.parse sample.known .query "FC" = .ok goal ∧
      (Session.install {} sample).ask "FC" = .ok answer ∧ answer.result = true ∧
      ∀ l ∈ goal.letters, l ∈ sample.leastModel) ∧
    ∃ goal answer, Formula.parse sample.known .query "FE" = .ok goal ∧
      (Session.install {} sample).ask "FE" = .ok answer ∧ answer.result = false ∧
      ¬ ∀ l ∈ goal.letters, l ∈ sample.leastModel := by
  have hhides : sample.HidesNoRule := by decide +kernel
  refine ⟨hhides, ?_, ?_⟩
  · obtain ⟨goal, hquery, hconj⟩ := Except.exists_ok_of_any
      (x := Formula.parse sample.known .query "FC") (p := Formula.isConjunction)
      (by decide +kernel)
    obtain ⟨answer, hask, htrue⟩ := Except.exists_ok_of_any
      (x := (Session.install {} sample).ask "FC") (p := Answer.result) (by decide +kernel)
    have hiff := result_iff_mem_leastModel parse_sample hhides {} hquery hconj hask
    exact ⟨goal, answer, hquery, hask, htrue, hiff.mp htrue⟩
  · obtain ⟨goal, hquery, hconj⟩ := Except.exists_ok_of_any
      (x := Formula.parse sample.known .query "FE") (p := Formula.isConjunction)
      (by decide +kernel)
    obtain ⟨answer, hask, hfalse⟩ := Except.exists_ok_of_any
      (x := (Session.install {} sample).ask "FE") (p := fun answer => !answer.result)
      (by decide +kernel)
    rw [Bool.not_eq_true'] at hfalse
    have hiff := result_iff_mem_leastModel parse_sample hhides {} hquery hconj hask
    refine ⟨goal, answer, hquery, hask, hfalse, fun hall => ?_⟩
    rw [hiff.mpr hall] at hfalse
    cases hfalse

end HornClause
