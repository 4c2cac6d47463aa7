/-
  HornClause.Proofs.Answer

  What a session answers, in terms of the plain evaluator.

    * A query that has an answer has its plain value for a result, whatever the
      settings (`result_of_ask`).
    * From a depth limit of twenty-six on, a query has an answer exactly if it has a
      plain value (`exists_answer_iff`).

  Two results follow. A conjunction that is answered with true has all its letters
  in the least model, so answers are sound; and a session cannot be told apart from
  the plain evaluator by its results or its failures, so the cache is transparent.
-/
import HornClause.Proofs.Bookkeeping
import HornClause.Proofs.LeastModel
import HornClause.Proofs.TrueCache
import HornClause.Session

namespace HornClause

-- ============================================================================
-- Fresh contexts
-- ============================================================================

namespace Context

theorem trueTo_start (kb : KnowledgeBase) (settings : Settings) :
    (start settings).cache.TrueTo kb := Cache.trueTo_empty kb

theorem room_start (settings : Settings) :
    (start settings).room = settings.depthLimit.value := Nat.sub_zero _

/-- No goal is underway when a query is taken up. -/
theorem underway_start {settings : Settings} {goals : List Char}
    (h : (start settings).underway = some goals) : goals = [] := by
  rw [start] at h
  split at h
  · cases h
    rfl
  · cases h

theorem unsettled_start (kb : KnowledgeBase) (settings : Settings) (n : Nat) :
    (start settings).Unsettled kb n := by
  intro goals hgoals l hl
  rw [underway_start hgoals] at hl
  cases hl

end Context

-- ============================================================================
-- Replies
-- ============================================================================

namespace Session

variable {s s' : Session} {query query' : String}

theorem reply_eq_ok_iff {traced : Bool} {r : Reply} :
    s.reply query traced = .ok r ↔ ∃ answer, s.ask query = .ok answer ∧ answer.reply traced = r := by
  rw [reply]
  cases s.ask query <;> simp [Except.map]

/-- Whether a trace is asked for makes no difference to a failure. -/
theorem reply_eq_error_iff {traced : Bool} {e : AskError} :
    s.reply query traced = .error e ↔ s.ask query = .error e := by
  rw [reply]
  cases s.ask query <;> simp [Except.map]

/-- Answers are the same exactly if the replies are, with and without a trace. -/
theorem ask_eq_iff_reply_eq :
    s.ask query = s'.ask query' ↔ ∀ traced, s.reply query traced = s'.reply query' traced := by
  constructor
  · intro h traced
    rw [reply, reply, h]
  · intro h
    have htraced := h true
    cases hask : s'.ask query' with
    | error e => rwa [reply_eq_error_iff.mpr hask, reply_eq_error_iff] at htraced
    | ok answer =>
      rw [reply_eq_ok_iff.mpr ⟨answer, hask, rfl⟩, reply_eq_ok_iff] at htraced
      obtain ⟨⟨result, trace⟩, hanswer, hsame⟩ := htraced
      -- With a trace, a reply holds all of its answer.
      obtain ⟨result', trace'⟩ := answer
      cases hsame
      exact hanswer

end Session

-- ============================================================================
-- Answers and derivations
-- ============================================================================

section Ask

variable {kb : KnowledgeBase} {settings : Settings} {query : String} {goal : Formula}

theorem ask_of_ok {v : Bool} {t : Search} (hquery : Formula.parse kb.known .query query = .ok goal)
    (h : Derivation.resolveGoal kb goal { context := .start settings } = .ok v t) :
    (Session.install { settings } kb).ask query = .ok ⟨v, .settled query v t.trace.toList⟩ := by
  show (kb.consult settings query).1 = _
  rw [KnowledgeBase.consult, hquery]
  simp only [h]

theorem ask_of_error {e : ProofError} {t : Search}
    (hquery : Formula.parse kb.known .query query = .ok goal)
    (h : Derivation.resolveGoal kb goal { context := .start settings } = .error e t) :
    (Session.install { settings } kb).ask query = .error (.proof e) := by
  show (kb.consult settings query).1 = _
  rw [KnowledgeBase.consult, hquery]
  simp only [h]

theorem ask_of_parse_error {e : ParseError}
    (hquery : Formula.parse kb.known .query query = .error e) :
    (Session.install { settings } kb).ask query = .error (.parse e) := by
  show (kb.consult settings query).1 = _
  rw [KnowledgeBase.consult, hquery]

/-- Only a query that can be read has an answer. -/
theorem exists_goal_of_ask {answer : Answer}
    (h : (Session.install { settings } kb).ask query = .ok answer) :
    ∃ goal, Formula.parse kb.known .query query = .ok goal := by
  cases hquery : Formula.parse kb.known .query query with
  | ok goal => exact ⟨goal, rfl⟩
  | error e =>
    rw [ask_of_parse_error hquery] at h
    cases h

/-- Every answer comes from a derivation that ended in a fresh context. -/
theorem resolveGoal_of_ask {answer : Answer}
    (hquery : Formula.parse kb.known .query query = .ok goal)
    (h : (Session.install { settings } kb).ask query = .ok answer) :
    ∃ t, Derivation.resolveGoal kb goal { context := .start settings } = .ok answer.result t ∧
      answer.trace = .settled query answer.result t.trace.toList := by
  cases hr : Derivation.resolveGoal kb goal { context := .start settings } with
  | ok v t =>
    rw [ask_of_ok hquery hr] at h
    cases h
    exact ⟨t, rfl, rfl⟩
  | error e t =>
    rw [ask_of_error hquery hr] at h
    cases h

/-- Every failure to derive is that of a derivation in a fresh context. -/
theorem resolveGoal_of_ask_error {e : ProofError}
    (hquery : Formula.parse kb.known .query query = .ok goal)
    (h : (Session.install { settings } kb).ask query = .error (.proof e)) :
    ∃ t, Derivation.resolveGoal kb goal { context := .start settings } = .error e t := by
  cases hr : Derivation.resolveGoal kb goal { context := .start settings } with
  | ok v t =>
    rw [ask_of_ok hquery hr] at h
    cases h
  | error e' t =>
    rw [ask_of_error hquery hr] at h
    cases h
    exact ⟨t, rfl⟩

theorem result_of_ask (hkb : kb.WellFormed) (hgoal : goal.AgreesWith kb.declared)
    (hquery : Formula.parse kb.known .query query = .ok goal) {answer : Answer}
    (h : (Session.install { settings } kb).ask query = .ok answer) :
    Plain.resolve (Plain.value kb) goal = some answer.result := by
  obtain ⟨t, hr, -⟩ := resolveGoal_of_ask hquery h
  exact (Derivation.resolveGoal_ok hkb hgoal (Context.trueTo_start kb settings) hr).2

/-- With twenty-six levels, a query is answered exactly if it has a plain value, and
    with that value. -/
theorem exists_answer_iff (hkb : kb.WellFormed) (hgoal : goal.AgreesWith kb.declared)
    (hquery : Formula.parse kb.known .query query = .ok goal)
    (hlimit : 26 ≤ settings.depthLimit.value) {v : Bool} :
    (∃ answer, (Session.install { settings } kb).ask query = .ok answer ∧ answer.result = v) ↔
      Plain.resolve (Plain.value kb) goal = some v := by
  constructor
  · rintro ⟨answer, h, rfl⟩
    exact result_of_ask hkb hgoal hquery h
  · intro hvalue
    have htrue := Context.trueTo_start kb settings
    cases hr : Derivation.resolveGoal kb goal { context := .start settings } with
    | ok w t =>
      have hw := (Derivation.resolveGoal_ok hkb hgoal htrue hr).2
      rw [hvalue] at hw
      cases hw
      exact ⟨_, ask_of_ok hquery hr, rfl⟩
    | error e t =>
      -- A failure would leave no value within twenty-six levels.
      have hfailed := Derivation.resolveGoal_error hkb hgoal htrue hr
      have hconcerns : e.Concerns (Context.start settings).room 26 := by
        rw [Context.room_start]
        cases e with
        | tooDeep limit => exact hlimit
        | cycle symbol => trivial
      have hnone := hfailed.unfound 26 hconcerns (Context.unsettled_start kb settings 26)
      have hsome : Plain.resolve (Plain.prove kb 26) goal = some v := hvalue
      rw [hsome] at hnone
      cases hnone

/-- With twenty-six levels, a query fails exactly if it has no plain value. -/
theorem exists_failure_iff (hkb : kb.WellFormed) (hgoal : goal.AgreesWith kb.declared)
    (hquery : Formula.parse kb.known .query query = .ok goal)
    (hlimit : 26 ≤ settings.depthLimit.value) :
    (∃ e, (Session.install { settings } kb).ask query = .error (.proof e)) ↔
      Plain.resolve (Plain.value kb) goal = none := by
  constructor
  · rintro ⟨e, herror⟩
    cases hvalue : Plain.resolve (Plain.value kb) goal with
    | none => rfl
    | some v =>
      obtain ⟨answer, hask, -⟩ := (exists_answer_iff hkb hgoal hquery hlimit).mpr hvalue
      rw [herror] at hask
      cases hask
  · intro hnone
    cases hr : Derivation.resolveGoal kb goal { context := .start settings } with
    | ok v t =>
      rw [result_of_ask hkb hgoal hquery (ask_of_ok hquery hr)] at hnone
      cases hnone
    | error e t => exact ⟨e, ask_of_error hquery hr⟩

/-- Without a check for cycles, the only failure is to exceed the limit. -/
theorem ask_tooDeep_iff (hkb : kb.WellFormed) (hgoal : goal.AgreesWith kb.declared)
    (hquery : Formula.parse kb.known .query query = .ok goal)
    (hlimit : 26 ≤ settings.depthLimit.value) (hcheck : settings.cycleCheck.value = false) :
    (Session.install { settings } kb).ask query =
        .error (.proof (.tooDeep settings.depthLimit.value)) ↔
      Plain.resolve (Plain.value kb) goal = none := by
  rw [← exists_failure_iff hkb hgoal hquery hlimit]
  constructor
  · exact fun h => ⟨_, h⟩
  · rintro ⟨e, hask⟩
    obtain ⟨t, hr⟩ := resolveGoal_of_ask_error hquery hask
    cases e with
    | tooDeep limit =>
      rw [hask, (Derivation.resolveGoal_tooDeep hr).1]
      rfl
    | cycle symbol =>
      have hsome := Derivation.resolveGoal_cycle hr
      simp [Context.start, hcheck] at hsome

end Ask

-- ============================================================================
-- A sample base
-- ============================================================================

/-- A base in which `F` needs its second rule, `C` and `D` share a conclusion, and `G`
    and `H` need each other. -/
def sampleText : String := "A, A=>B, AB=>CD, BE=>F, D=>F, G=>H, H=>G"

/-- The base of `sampleText`. -/
def sample : KnowledgeBase := (KnowledgeBase.parse sampleText).toOption.getD {}

theorem parse_sample : KnowledgeBase.parse sampleText = .ok sample := by
  have hsome : (KnowledgeBase.parse sampleText).toOption.any (fun _ => true) = true := by
    decide +kernel
  obtain ⟨kb, hkb, -⟩ := Except.exists_ok_of_any hsome
  rw [sample, hkb]
  rfl

/-- The default settings, with the check for cycles. -/
def Settings.checked : Settings := { cycleCheck := ⟨"cycle_check", false, true, true⟩ }

-- ============================================================================
-- Soundness
-- ============================================================================

/-- Answers are sound. If a letter or a conjunction of letters is answered with true,
    under any settings, all its letters are in the least set that contains the
    declared facts and is closed under the rules. -/
theorem letters_mem_leastModel_of_ask {text : String} {kb : KnowledgeBase}
    (hkb : KnowledgeBase.parse text = .ok kb) (settings : Settings) {query : String}
    {goal : Formula} (hquery : Formula.parse kb.known .query query = .ok goal)
    (hconj : goal.isConjunction = true) {answer : Answer}
    (hask : (Session.install { settings } kb).ask query = .ok answer)
    (htrue : answer.result = true) :
    ∀ l ∈ goal.letters, l ∈ kb.leastModel := by
  have hwf := KnowledgeBase.wellFormed_of_parse hkb
  have hgoal := hwf.agreesWith hquery
  have hvalue := result_of_ask hwf hgoal hquery hask
  rw [htrue] at hvalue
  exact Plain.mem_leastModel_of_resolve hwf hgoal hconj hvalue

theorem letters_mem_leastModel_of_ask_sample :
    ∃ goal answer, Formula.parse sample.known .query "FC" = .ok goal ∧
      goal.isConjunction = true ∧
      (Session.install {} sample).ask "FC" = .ok answer ∧ answer.result = true ∧
      ∀ l ∈ goal.letters, l ∈ sample.leastModel := by
  obtain ⟨goal, hquery, hconj⟩ := Except.exists_ok_of_any
    (x := Formula.parse sample.known .query "FC") (p := Formula.isConjunction) (by decide +kernel)
  obtain ⟨answer, hask, htrue⟩ := Except.exists_ok_of_any
    (x := (Session.install {} sample).ask "FC") (p := Answer.result) (by decide +kernel)
  exact ⟨goal, answer, hquery, hconj, hask, htrue,
    letters_mem_leastModel_of_ask parse_sample {} hquery hconj hask htrue⟩

-- ============================================================================
-- Transparency of the cache
-- ============================================================================

/-- The cache is transparent. Where cycles are not checked for and the depth limit is
    at least twenty-six, a query is answered exactly as the plain evaluator answers
    it, and exceeds the limit exactly where the plain evaluator does. -/
theorem ask_iff_plain_evaluate {text : String} {kb : KnowledgeBase}
    (hkb : KnowledgeBase.parse text = .ok kb) {settings : Settings}
    (hlimit : 26 ≤ settings.depthLimit.value) (hcheck : settings.cycleCheck.value = false)
    {query : String} {goal : Formula} (hquery : Formula.parse kb.known .query query = .ok goal) :
    (∀ v, (∃ answer, (Session.install { settings } kb).ask query = .ok answer ∧
        answer.result = v) ↔
      Plain.evaluate kb settings.depthLimit.value goal = .ok v) ∧
    ((Session.install { settings } kb).ask query =
        .error (.proof (.tooDeep settings.depthLimit.value)) ↔
      Plain.evaluate kb settings.depthLimit.value goal =
        .error (.tooDeep settings.depthLimit.value)) := by
  have hwf := KnowledgeBase.wellFormed_of_parse hkb
  have hgoal := hwf.agreesWith hquery
  have hlevels : Plain.prove kb settings.depthLimit.value = Plain.value kb :=
    Plain.prove_eq_value hlimit
  constructor
  · intro v
    rw [exists_answer_iff hwf hgoal hquery hlimit, Plain.evaluate_eq_ok_iff, hlevels]
  · rw [ask_tooDeep_iff hwf hgoal hquery hlimit hcheck, Plain.evaluate_eq_error_iff, hlevels]

theorem ask_iff_plain_evaluate_sample :
    ∃ goal answer, Formula.parse sample.known .query "B=>FC" = .ok goal ∧
      (Session.install {} sample).ask "B=>FC" = .ok answer ∧ answer.result = true ∧
      Plain.evaluate sample 512 goal = .ok true := by
  obtain ⟨goal, hquery, -⟩ := Except.exists_ok_of_any
    (x := Formula.parse sample.known .query "B=>FC") (p := fun _ => true) (by decide +kernel)
  obtain ⟨answer, hask, htrue⟩ := Except.exists_ok_of_any
    (x := (Session.install {} sample).ask "B=>FC") (p := Answer.result) (by decide +kernel)
  have hlimit : 26 ≤ ({} : Settings).depthLimit.value := by decide
  have hplain := ask_iff_plain_evaluate parse_sample hlimit rfl hquery
  exact ⟨goal, answer, hquery, hask, htrue, (hplain.1 true).mp ⟨answer, hask, htrue⟩⟩

end HornClause
