/-
  HornClause.Proofs.CycleCheck

  The check for cycles, against the same session without it. A derivation that is
  not checked goes through the same steps, so it answers whatever the checked one
  answers, as a session with any looser settings does (`ask_relax`). The converse
  needs more: a goal that asks for itself, met while it is underway, never comes back
  with a value, although the second visit finds another cache than the first. It has
  none because a value found for the inner visit would be one for the outer visit too,
  with fewer levels than the outer visit needs.

  With the check, the goals underway are different letters, so a limit above
  twenty-six is never reached, and every failure is a cycle.
-/
import HornClause.Proofs.Answer
import HornClause.Proofs.Relaxation

namespace HornClause

variable {kb : KnowledgeBase} {on off : Settings} {query : String} {goal : Formula}

section Relax

variable {tight loose : Settings} (extra : Nat) (forget : Bool)

/-- A query begins under loose settings as it does under tight ones, relaxed. -/
theorem relax_start (hlimit : loose.depthLimit.value = tight.depthLimit.value + extra)
    (hcheck : loose.cycleCheck.value = (!forget && tight.cycleCheck.value)) :
    ({ context := .start tight } : Search).relax extra forget = { context := .start loose } := by
  cases forget <;> simp [Search.relax, Context.relax, Context.start, hcheck, hlimit]

/-- An answer that is found under tight settings is found under loose ones. -/
theorem ask_relax (hlimit : loose.depthLimit.value = tight.depthLimit.value + extra)
    (hcheck : loose.cycleCheck.value = (!forget && tight.cycleCheck.value))
    (hquery : Formula.parse kb.known .query query = .ok goal) {answer : Answer}
    (h : (Session.install { settings := tight } kb).ask query = .ok answer) :
    (Session.install { settings := loose } kb).ask query = .ok answer := by
  obtain ⟨t, hr, htrace⟩ := resolveGoal_of_ask hquery h
  have hrelax := (Derivation.resolveGoal_relax extra forget kb goal (Nat.zero_le _)).1 _ _ hr
  rw [relax_start extra forget hlimit hcheck] at hrelax
  rw [ask_of_ok hquery hrelax]
  -- Relaxing touches the context only, so the trace is the same one.
  have htrace' : Trace.settled query answer.result (t.relax extra forget).trace.toList =
      answer.trace := htrace.symm
  rw [htrace']

end Relax

/-- An answer that is found with the check is found without it. -/
theorem ask_unchecked_of_checked (hoff : off.cycleCheck.value = false)
    (hlimit : on.depthLimit.value = off.depthLimit.value)
    (hquery : Formula.parse kb.known .query query = .ok goal) {answer : Answer}
    (h : (Session.install { settings := on } kb).ask query = .ok answer) :
    (Session.install { settings := off } kb).ask query = .ok answer :=
  ask_relax 0 true hlimit.symm hoff hquery h

/-- An answer that is found without the check is found with it: a reported cycle
    would leave the query without a value. -/
theorem ask_checked_of_unchecked (hkb : kb.WellFormed) (hgoal : goal.AgreesWith kb.declared)
    (hoff : off.cycleCheck.value = false) (hlimit : on.depthLimit.value = off.depthLimit.value)
    (hquery : Formula.parse kb.known .query query = .ok goal) {answer : Answer}
    (h : (Session.install { settings := off } kb).ask query = .ok answer) :
    (Session.install { settings := on } kb).ask query = .ok answer := by
  cases hr : Derivation.resolveGoal kb goal { context := .start on } with
  | ok v t =>
    have hask := ask_of_ok hquery hr
    have hunchecked := ask_unchecked_of_checked hoff hlimit hquery hask
    rw [h] at hunchecked
    rw [hask, ← hunchecked]
  | error e t =>
    exfalso
    rcases (Derivation.resolveGoal_relax 0 true kb goal (Nat.zero_le _)).2 _ _ hr with
      hlifted | herror
    · cases e with
      | tooDeep limit => exact absurd hlifted (Nat.lt_irrefl 0)
      | cycle symbol =>
        have hfailed := Derivation.resolveGoal_error hkb hgoal (Context.trueTo_start kb on) hr
        have hnone := hfailed.unfound 26 trivial (Context.unsettled_start kb on 26)
        have hsome : Plain.resolve (Plain.prove kb 26) goal = some answer.result :=
          result_of_ask hkb hgoal hquery h
        rw [hsome] at hnone
        cases hnone
    · rw [relax_start 0 true hlimit.symm hoff] at herror
      rw [ask_of_error hquery herror] at h
      cases h

/-- With the check and more than twenty-six levels, the limit is never reached. -/
theorem resolveGoal_ne_tooDeep (hon : on.cycleCheck.value = true)
    (hlimit : 27 ≤ on.depthLimit.value) {limit : Nat} {t : Search} :
    Derivation.resolveGoal kb goal { context := .start on } ≠ .error (.tooDeep limit) t := by
  intro h
  have hle := (Derivation.resolveGoal_tooDeep h).2 (Context.tracked_start hon)
  have hle' : on.depthLimit.value ≤ 26 := hle
  omega

/-- With the check and more than twenty-six levels, a cycle is reported exactly where
    there is no plain value. -/
theorem ask_cycle_iff (hkb : kb.WellFormed) (hgoal : goal.AgreesWith kb.declared)
    (hquery : Formula.parse kb.known .query query = .ok goal)
    (hon : on.cycleCheck.value = true) (hlimit : 27 ≤ on.depthLimit.value) :
    (∃ symbol, (Session.install { settings := on } kb).ask query =
        .error (.proof (.cycle symbol))) ↔
      Plain.resolve (Plain.value kb) goal = none := by
  rw [← exists_failure_iff hkb hgoal hquery (show 26 ≤ on.depthLimit.value by omega)]
  constructor
  · rintro ⟨symbol, h⟩
    exact ⟨_, h⟩
  · rintro ⟨e, hask⟩
    obtain ⟨t, hr⟩ := resolveGoal_of_ask_error hquery hask
    cases e with
    | tooDeep limit => exact absurd hr (resolveGoal_ne_tooDeep hon hlimit)
    | cycle symbol => exact ⟨symbol, hask⟩

/-- The check for cycles changes no answer, and reports exactly the derivations that
    would otherwise run into the limit. Under one limit, the same queries are answered
    with and without the check, with the same result and the same trace. Above a limit
    of twenty-six, a query that can be read ends in a cycle with the check exactly if
    it exceeds the limit without, and never exceeds it with the check. Whether a trace is
    asked for changes none of this: the replies are the same under either setting, and the
    failures are those of the answer. -/
theorem ask_checked_iff_unchecked {text : String} {kb : KnowledgeBase}
    (hkb : KnowledgeBase.parse text = .ok kb) {on off : Settings}
    (hon : on.cycleCheck.value = true) (hoff : off.cycleCheck.value = false)
    (hlimit : on.depthLimit.value = off.depthLimit.value) (query : String) :
    (∀ answer, (Session.install { settings := on } kb).ask query = .ok answer ↔
      (Session.install { settings := off } kb).ask query = .ok answer) ∧
    (27 ≤ off.depthLimit.value → ∀ goal, Formula.parse kb.known .query query = .ok goal →
      ((∃ symbol, (Session.install { settings := on } kb).ask query =
          .error (.proof (.cycle symbol))) ↔
        (Session.install { settings := off } kb).ask query =
          .error (.proof (.tooDeep off.depthLimit.value))) ∧
      ∀ limit, (Session.install { settings := on } kb).ask query ≠
        .error (.proof (.tooDeep limit))) ∧
    ∀ traced,
      (∀ reply, (Session.install { settings := on } kb).reply query traced = .ok reply ↔
        (Session.install { settings := off } kb).reply query traced = .ok reply) ∧
      ∀ settings e, (Session.install { settings } kb).reply query traced = .error e ↔
        (Session.install { settings } kb).ask query = .error e := by
  have hwf := KnowledgeBase.wellFormed_of_parse hkb
  have hanswers : ∀ answer, (Session.install { settings := on } kb).ask query = .ok answer ↔
      (Session.install { settings := off } kb).ask query = .ok answer := by
    intro answer
    cases hquery : Formula.parse kb.known .query query with
    | error e =>
      rw [ask_of_parse_error hquery, ask_of_parse_error hquery]
    | ok goal =>
      have hgoal := hwf.agreesWith hquery
      exact ⟨ask_unchecked_of_checked hoff hlimit hquery,
        ask_checked_of_unchecked hwf hgoal hoff hlimit hquery⟩
  refine ⟨hanswers, ?_, fun traced => ⟨fun reply => ?_, fun _ _ => Session.reply_eq_error_iff⟩⟩
  · intro hlevels goal hquery
    have hgoal := hwf.agreesWith hquery
    have hlevels' : 27 ≤ on.depthLimit.value := by omega
    constructor
    · rw [ask_cycle_iff hwf hgoal hquery hon hlevels',
        ask_tooDeep_iff hwf hgoal hquery (by omega) hoff]
    · intro limit h
      obtain ⟨t, hr⟩ := resolveGoal_of_ask_error hquery h
      exact resolveGoal_ne_tooDeep hon hlevels' hr
  · simp only [Session.reply_eq_ok_iff, hanswers]

theorem ask_checked_iff_unchecked_sample :
    ∃ answer symbol,
      (Session.install { settings := .checked } sample).ask "BF" = .ok answer ∧
      (Session.install {} sample).ask "BF" = .ok answer ∧
      (∀ traced, (Session.install {} sample).reply "BF" traced = .ok (answer.reply traced)) ∧
      (Session.install { settings := .checked } sample).ask "AG" =
        .error (.proof (.cycle symbol)) ∧
      (Session.install {} sample).ask "AG" = .error (.proof (.tooDeep 512)) := by
  have hon : Settings.checked.cycleCheck.value = true := rfl
  have hoff : ({} : Settings).cycleCheck.value = false := rfl
  have hsame := ask_checked_iff_unchecked parse_sample hon hoff rfl
  obtain ⟨answer, hanswer, -⟩ := Except.exists_ok_of_any
    (x := (Session.install { settings := .checked } sample).ask "BF") (p := Answer.result)
    (by decide +kernel)
  obtain ⟨goal, hgoal, -⟩ := Except.exists_ok_of_any
    (x := Formula.parse sample.known .query "AG") (p := fun _ => true) (by decide +kernel)
  have hcycle : (match (Session.install { settings := .checked } sample).ask "AG" with
      | .error (.proof (.cycle _)) => true
      | _ => false) = true := by decide +kernel
  split at hcycle
  · rename_i symbol hsymbol
    have hdeep := ((hsame "AG").2.1 (by decide) goal hgoal).1.mp ⟨symbol, hsymbol⟩
    have hreply : ∀ traced,
        (Session.install {} sample).reply "BF" traced = .ok (answer.reply traced) := by
      intro traced
      rw [← ((hsame "BF").2.2 traced).1, Session.reply_eq_ok_iff]
      exact ⟨answer, hanswer, rfl⟩
    exact ⟨answer, symbol, hanswer, ((hsame "BF").1 answer).mp hanswer, hreply, hsymbol, hdeep⟩
  · cases hcycle

end HornClause
