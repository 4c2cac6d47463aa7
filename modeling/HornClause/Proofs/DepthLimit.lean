/-
  HornClause.Proofs.DepthLimit

  The depth limit, against the same session with another limit. A limit only cuts
  derivations off: one that ends under it goes through the same steps under any
  higher limit, to the same answer and the same trace (`ask_of_limit_le`).

  Twenty-six levels are as good as any number. A query with an answer under some
  limit, however high, has a plain value, and the plain evaluator needs no more than
  one level for each letter; so the query is answered with twenty-six levels, and by
  monotonicity with the same answer (`ask_of_levels`).
-/
import HornClause.Proofs.CycleCheck

namespace HornClause

variable {kb : KnowledgeBase} {low high : Settings} {query : String} {answer : Answer}

theorem ask_of_limit_le (hcheck : low.cycleCheck.value = high.cycleCheck.value)
    (hle : low.depthLimit.value ≤ high.depthLimit.value)
    (h : (Session.install { settings := low } kb).ask query = .ok answer) :
    (Session.install { settings := high } kb).ask query = .ok answer := by
  obtain ⟨goal, hquery⟩ := exists_goal_of_ask h
  have hlimit : high.depthLimit.value =
      low.depthLimit.value + (high.depthLimit.value - low.depthLimit.value) := by omega
  have hkept : high.cycleCheck.value = (!false && low.cycleCheck.value) := hcheck.symm
  exact ask_relax _ false hlimit hkept hquery h

/-- What is answered under any limit is answered in the same way under every limit of
    twenty-six or more, also under a lower one. -/
theorem ask_of_levels (hkb : kb.WellFormed) {given enough : Settings}
    (hcheck : given.cycleCheck.value = enough.cycleCheck.value)
    (hlevels : 26 ≤ enough.depthLimit.value)
    (h : (Session.install { settings := given } kb).ask query = .ok answer) :
    (Session.install { settings := enough } kb).ask query = .ok answer := by
  obtain ⟨goal, hquery⟩ := exists_goal_of_ask h
  by_cases hle : given.depthLimit.value ≤ enough.depthLimit.value
  · exact ask_of_limit_le hcheck hle h
  · -- The lower limit gives some answer, and the higher one gives it again.
    have hgoal := hkb.agreesWith hquery
    have hvalue := result_of_ask hkb hgoal hquery h
    obtain ⟨found, hfound, -⟩ := (exists_answer_iff hkb hgoal hquery hlevels).mpr hvalue
    have hagain := ask_of_limit_le hcheck.symm (by omega) hfound
    rw [h] at hagain
    cases hagain
    exact hfound

-- ============================================================================
-- Limits that differ
-- ============================================================================

/-- The depth limit only ever cuts derivations off, and twenty-six levels are enough
    for every derivation that ends, with or without a check for cycles.

    A query that is answered under one limit is answered under every higher limit,
    with the same result and the same trace. Any two limits of twenty-six or more give
    the same answers. So a query that exceeds one of these is answered under no limit
    at all. -/
theorem ask_of_other_limit {text : String} {kb : KnowledgeBase}
    (hkb : KnowledgeBase.parse text = .ok kb) {low high : Settings}
    (hcheck : low.cycleCheck.value = high.cycleCheck.value) (query : String) :
    (low.depthLimit.value ≤ high.depthLimit.value → ∀ answer,
      (Session.install { settings := low } kb).ask query = .ok answer →
      (Session.install { settings := high } kb).ask query = .ok answer) ∧
    (26 ≤ low.depthLimit.value → 26 ≤ high.depthLimit.value → ∀ answer,
      ((Session.install { settings := low } kb).ask query = .ok answer ↔
        (Session.install { settings := high } kb).ask query = .ok answer)) ∧
    (26 ≤ low.depthLimit.value → ∀ limit,
      (Session.install { settings := low } kb).ask query = .error (.proof (.tooDeep limit)) →
      ∀ answer, (Session.install { settings := high } kb).ask query ≠ .ok answer) := by
  have hwf := KnowledgeBase.wellFormed_of_parse hkb
  refine ⟨?_, ?_, ?_⟩
  · intro hle answer h
    exact ask_of_limit_le hcheck hle h
  · intro hlow hhigh answer
    exact ⟨ask_of_levels hwf hcheck hhigh, ask_of_levels hwf hcheck.symm hlow⟩
  · intro hlow limit hdeep answer h
    have hanswer := ask_of_levels hwf hcheck.symm hlow h
    rw [hdeep] at hanswer
    cases hanswer

/-- The default settings, with another depth limit. -/
def Settings.limited (limit : Nat) : Settings :=
  { depthLimit := ⟨"depth_limit", 1, 4096, limit⟩ }

/-- Two levels are enough for `F`, and no number of levels is enough for `G`. -/
theorem ask_of_other_limit_sample :
    (∃ answer, (Session.install { settings := .limited 2 } sample).ask "F" = .ok answer ∧
      answer.result = true ∧ (Session.install {} sample).ask "F" = .ok answer) ∧
    (Session.install { settings := .limited 26 } sample).ask "AG" =
      .error (.proof (.tooDeep 26)) ∧
    ∀ answer, (Session.install {} sample).ask "AG" ≠ .ok answer := by
  have hcheck : ∀ limit, (Settings.limited limit).cycleCheck.value =
      ({} : Settings).cycleCheck.value := fun _ => rfl
  have hF := ask_of_other_limit parse_sample (hcheck 2) "F"
  have hG := ask_of_other_limit parse_sample (hcheck 26) "AG"
  obtain ⟨answer, hanswer, htrue⟩ := Except.exists_ok_of_any
    (x := (Session.install { settings := .limited 2 } sample).ask "F") (p := Answer.result)
    (by decide +kernel)
  have hdeep : (Session.install { settings := .limited 26 } sample).ask "AG" =
      .error (.proof (.tooDeep 26)) := Except.eq_error_of_reason? (by decide +kernel)
  refine ⟨⟨answer, hanswer, htrue, ?_⟩, hdeep, ?_⟩
  · exact hF.1 (by decide) answer hanswer
  · exact hG.2.2 (by decide) 26 hdeep

end HornClause
