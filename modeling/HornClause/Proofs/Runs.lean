/-
  HornClause.Proofs.Runs

  One context, used again and again. Goals are resolved in it one after the other,
  and a goal that is abandoned is no reason to throw the context away: the next goal
  finds whatever cache, depth and goals underway the failure left behind.

    * `Context.Call`: one goal, resolved or abandoned.
    * `Context.Reached`: all that any sequence of calls can make of a fresh context.
    * `Call.trueTo`, `Reached.trueTo`: a call keeps the cache true to the knowledge
      base, so every run does.

  Nothing is asked of the depth and of the goals underway, only of the cache, so
  what a failure leaves there does no harm.
-/
import HornClause.Proofs.Answer

/-! ## Steps that were abandoned -/

namespace EStateM.Result

variable {ε σ α : Type}

/-- The reason for which a step was abandoned and the state it left, if it was. -/
def failure? : EStateM.Result ε σ α → Option (ε × σ)
  | .error e t => some (e, t)
  | .ok _ _ => none

theorem exists_error_of_any {r : EStateM.Result ε σ α} {p : ε × σ → Bool}
    (h : r.failure?.any p = true) : ∃ e t, r = .error e t ∧ p (e, t) = true := by
  cases r with
  | error e t => exact ⟨e, t, rfl, h⟩
  | ok a t => cases h

end EStateM.Result

namespace HornClause

-- ============================================================================
-- Fresh answers
-- ============================================================================

/-- Whatever the settings, as long as they allow for twenty-six levels, a fresh
    session answers the query, with the value. -/
def KnowledgeBase.AnswersAfresh (kb : KnowledgeBase) (query : String) (v : Bool) : Prop :=
  ∀ settings : Settings, 26 ≤ settings.depthLimit.value →
    ∃ answer, (Session.install { settings } kb).ask query = .ok answer ∧ answer.result = v

theorem answersAfresh_of_resolve {kb : KnowledgeBase} {query : String} {goal : Formula} {v : Bool}
    (hkb : kb.WellFormed) (hgoal : goal.AgreesWith kb.declared)
    (hquery : Formula.parse kb.known .query query = .ok goal)
    (hvalue : Plain.resolve (Plain.value kb) goal = some v) : kb.AnswersAfresh query v :=
  fun _ hlimit => (exists_answer_iff hkb hgoal hquery hlimit).mpr hvalue

/-- The text of a letter that is not declared reads as a false atom. -/
theorem parse_text_of_not_declared {kb : KnowledgeBase} (hkb : kb.WellFormed) {l : Letter}
    (h : l ∉ kb.declared) : Formula.parse kb.known .query l.text = .ok (.atom ⟨l, false⟩) :=
  hkb.parse_letter (a := ⟨l, false⟩) (iff_of_false Bool.false_ne_true h)

-- ============================================================================
-- Calls
-- ============================================================================

namespace Context

/-- A goal is resolved in a context, beside any trace and log. The call ends or is
    abandoned, and leaves a context behind in both cases. -/
inductive Call (kb : KnowledgeBase) (goal : Formula) :
    Context → Except ProofError Bool → Context → Prop where
  | ended {s t : Search} {v : Bool} (h : Derivation.resolveGoal kb goal s = .ok v t) :
      Call kb goal s.context (.ok v) t.context
  | abandoned {s t : Search} {e : ProofError} (h : Derivation.resolveGoal kb goal s = .error e t) :
      Call kb goal s.context (.error e) t.context

/-- The contexts that a sequence of calls makes of a fresh one. The goals are read
    with the facts of the knowledge base, and each call may end or be abandoned. -/
inductive Reached (kb : KnowledgeBase) (settings : Settings) : Context → Prop where
  | start : Reached kb settings (.start settings)
  | call {c d : Context} {reading : Formula.Reading} {text : String} {goal : Formula}
      {outcome : Except ProofError Bool} (hc : Reached kb settings c)
      (hgoal : Formula.parse kb.known reading text = .ok goal)
      (hcall : Call kb goal c outcome d) : Reached kb settings d

variable {kb : KnowledgeBase} {settings : Settings} {c d : Context} {goal : Formula}
  {outcome : Except ProofError Bool}

/-- One call keeps the cache true, loses nothing of it, and gives no value but the
    plain one. -/
theorem Call.trueTo (hkb : kb.WellFormed) (hgoal : goal.AgreesWith kb.declared)
    (hc : c.cache.TrueTo kb) (h : Call kb goal c outcome d) :
    d.cache.TrueTo kb ∧ c.cache.KeptIn d.cache ∧
      ∀ v, outcome = .ok v → Plain.resolve (Plain.value kb) goal = some v := by
  cases h with
  | ended h =>
    obtain ⟨hgrown, hvalue⟩ := Derivation.resolveGoal_ok hkb hgoal hc h
    refine ⟨hgrown.trueTo, hgrown.kept, fun v hv => ?_⟩
    cases hv
    exact hvalue
  | abandoned h =>
    -- What an abandoned goal has saved on its way is as true as anything else.
    have hfailed := Derivation.resolveGoal_error hkb hgoal hc h
    refine ⟨hfailed.trueTo, hfailed.kept, fun v hv => ?_⟩
    cases hv

/-- A run of calls keeps the cache true. -/
theorem Reached.trueTo (hkb : kb.WellFormed) (h : Reached kb settings c) :
    c.cache.TrueTo kb := by
  induction h with
  | start => exact trueTo_start kb settings
  | call hc hgoal hcall ih =>
    have hagrees := hkb.agreesWith hgoal
    exact (hcall.trueTo hkb hagrees ih).1

end Context

-- ============================================================================
-- The cache over whole runs
-- ============================================================================

/-- The cache of a context that is used again and again, whether or not earlier calls
    were abandoned.

    Whatever it holds is the value of a letter that is not declared, and the value
    that a fresh session finds for that letter. The next call, ended or abandoned,
    changes none of these values, and if it ends with a value, a fresh session answers
    the same text with the same value. -/
theorem cache_of_reached {text : String} {kb : KnowledgeBase}
    (hkb : KnowledgeBase.parse text = .ok kb) {settings : Settings} {c : Context}
    (hc : Context.Reached kb settings c) :
    (∀ symbol v, c.cache.get? symbol = some v →
      ∃ l : Letter, l.char = symbol ∧ l ∉ kb.declared ∧ kb.AnswersAfresh l.text v) ∧
    ∀ reading query goal, Formula.parse kb.known reading query = .ok goal →
      ∀ outcome d, Context.Call kb goal c outcome d →
        c.cache.KeptIn d.cache ∧ ∀ v, outcome = .ok v → kb.AnswersAfresh query v := by
  have hwf := KnowledgeBase.wellFormed_of_parse hkb
  have htrue := hc.trueTo hwf
  constructor
  · intro symbol v hget
    obtain ⟨l, hl, hnot, hvalue⟩ := htrue symbol v hget
    refine ⟨l, hl, hnot, ?_⟩
    have hquery := parse_text_of_not_declared hwf hnot
    exact answersAfresh_of_resolve hwf (hwf.agreesWith hquery) hquery hvalue
  · intro reading query goal hgoal outcome d hcall
    have hagrees := hwf.agreesWith hgoal
    obtain ⟨-, hkept, hvalue⟩ := hcall.trueTo hwf hagrees htrue
    refine ⟨hkept, fun v hv => ?_⟩
    have hquery := Formula.parse_query_of_parse hgoal
    exact answersAfresh_of_resolve hwf hagrees hquery (hvalue v hv)

/-- The derivation of `CG` is abandoned over `G`, after it has found `B`. -/
theorem cache_of_reached_sample :
    ∃ goal e t, Formula.parse sample.known .query "CG" = .ok goal ∧
      Derivation.resolveGoal sample goal { context := .start .checked } = .error e t ∧
      t.context.cache.get? 'B' = some true ∧ sample.AnswersAfresh "B" true := by
  obtain ⟨goal, hgoal, hrun⟩ := Except.exists_ok_of_any
    (x := Formula.parse sample.known .query "CG")
    (p := fun goal => (Derivation.resolveGoal sample goal
      { context := .start .checked }).failure?.any fun left =>
        left.2.context.cache.get? 'B' == some true) (by decide +kernel)
  obtain ⟨e, t, hfail, hfound⟩ := EStateM.Result.exists_error_of_any hrun
  have hget : t.context.cache.get? 'B' = some true := by simpa using hfound
  have hreached : Context.Reached sample .checked t.context :=
    .call .start hgoal (.abandoned hfail)
  obtain ⟨l, hl, -, hafresh⟩ := (cache_of_reached parse_sample hreached).1 'B' true hget
  rw [Letter.text, hl] at hafresh
  exact ⟨goal, e, t, hgoal, hfail, hget, hafresh⟩

end HornClause
