/-
  HornClause.Proofs.TrueCache

  The invariant of the cache. A cache is *true* to a knowledge base if it holds
  nothing but letters that are no facts, each with its plain value. Every step of a
  derivation keeps the cache true and keeps what is in it, also on the way out of a
  derivation that is abandoned.

  Two things about outcomes are carried along, because the cache depends on the one
  and the other is what a failure means:

    * a derivation that ends gives the plain value (`Plain.value`);
    * a derivation that is abandoned at the limit has no plain value within the
      levels that were left, and one that is abandoned for a cycle has none at all,
      as long as no goal underway has one either.

  `resolveGoal_ok` and `resolveGoal_error` say this of a whole goal. The goals
  underway come in because a goal that asks for itself could only get a value from
  fewer levels than it needs itself.
-/
import HornClause.Proofs.Agreement
import HornClause.Proofs.PlainValue
import HornClause.Proofs.Steps

namespace HornClause

-- ============================================================================
-- True caches
-- ============================================================================

namespace Cache

/-- Every symbol of the cache is a letter that is not declared, and has its plain
    value. -/
def TrueTo (kb : KnowledgeBase) (c : Cache) : Prop :=
  ∀ symbol v, c.get? symbol = some v →
    ∃ l : Letter, l.char = symbol ∧ l ∉ kb.declared ∧ Plain.value kb ⟨l, false⟩ = some v

/-- Every value of one cache is a value of the other. -/
def KeptIn (c d : Cache) : Prop := ∀ symbol v, c.get? symbol = some v → d.get? symbol = some v

theorem KeptIn.refl (c : Cache) : c.KeptIn c := fun _ _ h => h

variable {kb : KnowledgeBase} {c d : Cache} {a : Atom} {v : Bool}

theorem trueTo_empty (kb : KnowledgeBase) : ({} : Cache).TrueTo kb := by
  intro symbol v h
  rw [get?_empty] at h
  cases h

/-- What a true cache holds for an atom that agrees with the facts is its value. -/
theorem TrueTo.value_eq (h : c.TrueTo kb) (ha : a.AgreesWith kb.declared)
    (hget : c.get? a.symbol = some v) : Plain.value kb a = some v := by
  obtain ⟨l, hl, hnot, hvalue⟩ := h a.symbol v hget
  have hletter : l = a.letter := Letter.ext hl
  have hfalse : a.value = false := by
    rw [Bool.eq_false_iff]
    exact fun htrue => hnot (hletter ▸ ha.mp htrue)
  have hatom : a = ⟨l, false⟩ := Atom.ext hletter.symm hfalse
  rw [hatom]
  exact hvalue

theorem TrueTo.insert (h : c.TrueTo kb) (hnot : a.letter ∉ kb.declared) (hfalse : a.value = false)
    (hvalue : Plain.value kb a = some v) : (c.insert a.symbol v).TrueTo kb := by
  intro symbol w hget
  rw [get?_insert] at hget
  split at hget
  · cases hget
    have hatom : a = ⟨a.letter, false⟩ := Atom.ext rfl hfalse
    exact ⟨a.letter, by subst symbol; rfl, hnot, hatom ▸ hvalue⟩
  · exact h symbol w hget

/-- A write of the plain value changes no value that was there. -/
theorem KeptIn.insert (h : c.KeptIn d) (htrue : d.TrueTo kb) (ha : a.AgreesWith kb.declared)
    (hvalue : Plain.value kb a = some v) : c.KeptIn (d.insert a.symbol v) := by
  intro symbol w hget
  have hd := h symbol w hget
  rw [get?_insert]
  split
  · subst symbol
    have hw := htrue.value_eq ha hd
    rw [← hw, hvalue]
  · exact hd

end Cache

-- ============================================================================
-- Contexts whose cache has grown
-- ============================================================================

/-- The second context is the first with a cache that has grown and is true. -/
structure Context.Grown (kb : KnowledgeBase) (c d : Context) : Prop extends c.SameGoals d where
  kept : c.cache.KeptIn d.cache
  trueTo : d.cache.TrueTo kb

namespace Context.Grown

variable {kb : KnowledgeBase} {c d : Context} {a : Atom} {v : Bool}

theorem refl (h : c.cache.TrueTo kb) : c.Grown kb c :=
  ⟨.refl c, .refl c.cache, h⟩

theorem save (h : c.Grown kb d) (hnot : a.letter ∉ kb.declared) (hfalse : a.value = false)
    (hvalue : Plain.value kb a = some v) : c.Grown kb (d.save a.symbol v) := by
  have ha : a.AgreesWith kb.declared := iff_of_false (by simp [hfalse]) hnot
  exact ⟨h.toSameGoals.save v, h.kept.insert h.trueTo ha hvalue,
    h.trueTo.insert hnot hfalse hvalue⟩

theorem within (h : c.Grown kb d) (symbol : Char) :
    (c.within symbol).Grown kb (d.within symbol) :=
  ⟨h.toSameGoals.within, h.kept, h.trueTo⟩

theorem leave_ascend {symbol : Char} (h : (c.within symbol).Grown kb d) :
    c.Grown kb d.leave.ascend :=
  ⟨h.toSameGoals.leave_ascend, h.kept, h.trueTo⟩

end Context.Grown

-- ============================================================================
-- What a failure means
-- ============================================================================

/-- The numbers of levels that a failure speaks for: the limit cuts off those within
    it, and a cycle all of them. -/
def ProofError.Concerns (room n : Nat) : ProofError → Prop
  | .tooDeep _ => n ≤ room
  | .cycle _ => True

/-- None of the goals underway has a plain value within `n` levels. -/
def Context.Unsettled (kb : KnowledgeBase) (c : Context) (n : Nat) : Prop :=
  ∀ goals, c.underway = some goals → ∀ l : Letter, l.char ∈ goals →
    Plain.prove kb n ⟨l, false⟩ = none

/-- A derivation that began in `c` was abandoned for `e` and left `d` behind: the
    cache has grown and is true, and where the goals underway have no plain value,
    neither has what was asked for, which is `found n` within `n` levels. -/
structure Context.Failed (kb : KnowledgeBase) (c : Context) (found : Nat → Option Bool)
    (e : ProofError) (d : Context) : Prop where
  kept : c.cache.KeptIn d.cache
  trueTo : d.cache.TrueTo kb
  unfound : ∀ n, e.Concerns c.room n → c.Unsettled kb n → found n = none

theorem Context.Failed.mono {kb : KnowledgeBase} {c d : Context} {found found' : Nat → Option Bool}
    {e : ProofError} (h : c.Failed kb found e d) (hnone : ∀ n, found n = none → found' n = none) :
    c.Failed kb found' e d :=
  ⟨h.kept, h.trueTo, fun n hn hunsettled => hnone n (h.unfound n hn hunsettled)⟩

theorem Context.Unsettled.mono {kb : KnowledgeBase} {c : Context} {m n : Nat} (hmn : m ≤ n)
    (h : c.Unsettled kb n) : c.Unsettled kb m := by
  intro goals hgoals l hl
  have hn := h goals hgoals l hl
  cases hm : Plain.prove kb m ⟨l, false⟩ with
  | none => rfl
  | some v =>
    rw [Plain.prove_mono hmn _ v hm] at hn
    cases hn

/-- Taking up a goal without a value leaves all goals underway without one. -/
theorem Context.Unsettled.within {kb : KnowledgeBase} {c : Context} {a : Atom} {n : Nat}
    (h : c.Unsettled kb n) (hfalse : a.value = false) (ha : Plain.prove kb n a = none) :
    (c.within a.symbol).Unsettled kb n := by
  intro goals hgoals l hl
  obtain ⟨outer, houter, rfl⟩ := Option.map_eq_some_iff.mp hgoals
  rcases List.mem_cons.mp hl with hl | hl
  · have hatom : a = ⟨l, false⟩ := Atom.ext (Letter.ext hl.symm) hfalse
    rw [← hatom]
    exact ha
  · exact h outer houter l hl

namespace Derivation

open SearchM

-- ============================================================================
-- Compound goals and rules
-- ============================================================================

variable {kb : KnowledgeBase} {c : Context} {prove : Atom → SearchM Bool}

/-- What is to be shown of the derivation of an atom. -/
def ProvesValue (kb : KnowledgeBase) (c : Context) (prove : Atom → SearchM Bool) (a : Atom) : Prop :=
  Keeps (c.Grown kb) (prove a) (fun v => Plain.value kb a = some v)
    (c.Failed kb fun n => Plain.prove kb n a)

theorem keeps_resolve_value {goal : Formula} (h : ∀ a ∈ goal.atoms, ProvesValue kb c prove a) :
    Keeps (c.Grown kb) (resolve prove goal) (fun v => Plain.resolve (Plain.value kb) goal = some v)
      (c.Failed kb fun n => Plain.resolve (Plain.prove kb n) goal) := by
  induction goal with
  | atom a =>
    rw [resolve_atom]
    exact h a List.mem_cons_self
  | compound connective left right ihl ihr =>
    rw [resolve_compound]
    have hleft := ihl fun a ha => h a (List.mem_append_left _ ha)
    have hright := ihr fun a ha => h a (List.mem_append_right _ ha)
    -- Either operand without a value leaves the whole without one.
    refine (hleft.mono (fun _ hv => hv) fun e d hd => hd.mono fun n hn => ?_).bind fun x hx => ?_
    · rw [Plain.resolve, hn]
      rfl
    refine (hright.mono (fun _ hv => hv) fun e d hd => hd.mono fun n hn => ?_).bind fun y hy => ?_
    · rw [Plain.resolve, hn]
      cases Plain.resolve (Plain.prove kb n) left <;> rfl
    exact keeps_pure (Plain.resolve_compound_eq_some_iff.mpr ⟨x, y, hx, hy, rfl⟩)

theorem keeps_saveConclusion_value {a : Atom} {rule : Rule} {E : ProofError → Context → Prop}
    (hnot : a.letter ∉ kb.declared) (hfalse : a.value = false)
    (hletter : a.letter ∈ rule.conclusion.letters) (htrue : Plain.value kb a = some true) :
    Keeps (c.Grown kb) (saveConclusion rule) (fun _ => True) E := by
  refine keeps_saveConclusion fun conclusion hconclusion d hd => ?_
  -- A conclusion that is one atom is the goal itself.
  rw [hconclusion, Formula.letters_atom, List.mem_singleton] at hletter
  have hsame : conclusion.symbol = a.symbol := congrArg Letter.char hletter.symm
  rw [hsame]
  exact hd.save hnot hfalse htrue

theorem keeps_savePremise_value {rule : Rule} {v : Bool} {E : ProofError → Context → Prop}
    (hagrees : rule.premise.AgreesWith kb.declared) (hfacts : rule.premise.evaluate = false)
    (hv : Plain.resolve (Plain.value kb) rule.premise = some v) :
    Keeps (c.Grown kb) (savePremise rule v) (fun _ => True) E := by
  refine keeps_savePremise fun premise hpremise d hd => ?_
  rw [hpremise] at hagrees hfacts hv
  have hatom := Formula.agreesWith_atom.mp hagrees
  have hfalse : premise.value = false := hfacts
  exact hd.save (hatom.not_mem hfalse) hfalse hv

/-- Rules give a goal its plain value. They may be those that are left after others
    have failed, as long as what they give is the value of the goal (`hvalue`): that
    is what may be written to the cache. -/
theorem keeps_tryRules_value (hkb : kb.WellFormed) {a : Atom} (hnot : a.letter ∉ kb.declared)
    (hfalse : a.value = false) (hprove : ∀ b, b.AgreesWith kb.declared → ProvesValue kb c prove b)
    {rules : List Rule} (hrules : ∀ r ∈ rules, r ∈ kb.rulesFor (.atom a))
    (hvalue : ∀ v, Plain.tryRules (Plain.value kb) rules = some v → Plain.value kb a = some v) :
    Keeps (c.Grown kb) (tryRules prove a.symbol rules)
      (fun v => Plain.tryRules (Plain.value kb) rules = some v)
      (c.Failed kb fun n => Plain.tryRules (Plain.prove kb n) rules) := by
  induction rules with
  | nil =>
    rw [tryRules]
    refine (keeps_note _).bind fun _ _ => (keeps_record _).bind fun _ _ => ?_
    refine (keeps_save fun d hd => ?_).bind fun _ _ => keeps_pure rfl
    exact hd.save hnot hfalse (hvalue false rfl)
  | cons rule rest ih =>
    rw [tryRules]
    obtain ⟨hmem, hletter⟩ := KnowledgeBase.mem_rulesFor_atom.mp (hrules rule List.mem_cons_self)
    have hwf := hkb.rules rule hmem
    have hsave : Plain.tryRules (Plain.value kb) (rule :: rest) = some true →
        Keeps (c.Grown kb) (saveConclusion rule) (fun _ => True)
          (c.Failed kb fun n => Plain.tryRules (Plain.prove kb n) (rule :: rest)) :=
      fun htrue => keeps_saveConclusion_value hnot hfalse hletter (hvalue true htrue)
    refine (keeps_note _).bind fun _ _ => ?_
    cases hfacts : rule.premise.evaluate with
    | true =>
      have htrue : Plain.tryRules (Plain.value kb) (rule :: rest) = some true :=
        Plain.tryRules_cons_eq_some_iff.mpr (Or.inl ⟨hfacts, rfl⟩)
      rw [if_pos rfl]
      refine (keeps_record _).bind fun _ _ => ?_
      exact (hsave htrue).bind fun _ _ => keeps_pure htrue
    | false =>
      rw [if_neg Bool.false_ne_true]
      have hresolve := keeps_resolve_value fun b hb => hprove b (hwf.premise_agrees b hb)
      refine (hresolve.below.mono (fun _ hv => hv) fun e d hd => hd.mono fun n hn => ?_).bind
        fun v hv => ?_
      · rw [Plain.tryRules, hfacts, hn]
        rfl
      refine (keeps_savePremise_value hwf.premise_agrees hfacts hv).bind fun _ _ => ?_
      cases v with
      | true =>
        have htrue : Plain.tryRules (Plain.value kb) (rule :: rest) = some true :=
          Plain.tryRules_cons_eq_some_iff.mpr (Or.inr ⟨hfacts, Or.inl ⟨hv, rfl⟩⟩)
        rw [if_pos rfl]
        exact (hsave htrue).bind fun _ _ => keeps_pure htrue
      | false =>
        rw [if_neg Bool.false_ne_true]
        cases hatom : rule.premise.isAtom with
        | true =>
          rw [if_pos rfl]
          exact keeps_pure (Plain.tryRules_cons_eq_some_iff.mpr
            (Or.inr ⟨hfacts, Or.inr (Or.inl ⟨hv, hatom, rfl⟩)⟩))
        | false =>
          rw [if_neg Bool.false_ne_true]
          -- The rules that are left decide, for the plain evaluator as well.
          have hrest : ∀ w, Plain.tryRules (Plain.value kb) rest = some w →
              Plain.tryRules (Plain.value kb) (rule :: rest) = some w :=
            fun w hw => Plain.tryRules_cons_eq_some_iff.mpr
              (Or.inr ⟨hfacts, Or.inr (Or.inr ⟨hv, hatom, hw⟩)⟩)
          have hkeeps := ih (fun r hr => hrules r (List.mem_cons_of_mem rule hr))
            fun w hw => hvalue w (hrest w hw)
          refine hkeeps.mono hrest fun e d hd => hd.mono fun n hn => ?_
          rw [Plain.tryRules, hfacts, if_neg Bool.false_ne_true]
          cases hpremise : Plain.resolve (Plain.prove kb n) rule.premise with
          | none => rfl
          | some w =>
            have hw := Plain.resolve_mono (Plain.prove_below_value n) hpremise
            rw [hv] at hw
            cases hw
            rw [Option.bind_some, if_neg Bool.false_ne_true, hatom, if_neg Bool.false_ne_true]
            exact hn

-- ============================================================================
-- Atoms and whole goals
-- ============================================================================

/-- The derivation of an atom in the room that the context leaves gives its plain
    value, keeps the cache true, and fails only where there is no value to find. -/
theorem provesValue_proveWithin (hkb : kb.WellFormed) {room : Nat} (hroom : c.room = room)
    {a : Atom} (ha : a.AgreesWith kb.declared) : ProvesValue kb c (proveWithin kb room) a := by
  have hcached : ∀ d v, c.Grown kb d → d.cache.get? a.symbol = some v →
      Plain.value kb a = some v :=
    fun d v hd hget => hd.trueTo.value_eq ha hget
  induction room generalizing c a with
  | zero =>
    refine keeps_settleOr hcached Plain.value_of_value fun hfalse => ?_
    refine keeps_goal_of_full (fun d hd => hd.limit_le_depth hroom) fun d hd =>
      ⟨hd.kept, hd.trueTo, fun n hn _ => ?_⟩
    have hzero : n = 0 := by
      have hle : n ≤ c.room := hn
      omega
    rw [hzero]
    exact Plain.prove_zero hfalse
  | succ room ih =>
    refine keeps_settleOr hcached Plain.value_of_value fun hfalse => ?_
    have hwithin : (c.within a.symbol).room = room := Context.room_within hroom
    have hrules := keeps_tryRules_value (c := c.within a.symbol) hkb (ha.not_mem hfalse) hfalse
      (fun b hb => ih hwithin hb fun d v hd hget => hd.trueTo.value_eq hb hget)
      (fun r hr => hr) fun v hv => (Plain.value_eq_tryRules hfalse).trans hv
    refine Keeps.goal
      (hrules.mono (fun v hv => (Plain.value_eq_tryRules hfalse).trans hv) fun _ _ h => h)
      ?_ ?_ ?_ ?_ ?_
    · exact fun d hd hle => absurd (hd.depth_lt hroom) (Nat.not_lt.mpr hle)
    · intro d goals hd hgoals hmem
      refine ⟨hd.kept, hd.trueTo, fun n _ hunsettled => ?_⟩
      have hatom : a = ⟨a.letter, false⟩ := Atom.ext rfl hfalse
      rw [hatom]
      exact hunsettled goals (hd.underway ▸ hgoals) a.letter hmem
    · exact fun d hd _ _ => hd.within a.symbol
    · exact fun d hd => hd.leave_ascend
    · intro e d hd
      refine ⟨hd.kept, hd.trueTo, fun n => ?_⟩
      -- On the levels: as long as the atom itself has no value, it may be underway.
      induction n with
      | zero => exact fun _ _ => Plain.prove_zero hfalse
      | succ n ihn =>
        intro hconcerns hunsettled
        have hbefore : Plain.prove kb n a = none := by
          refine ihn ?_ (hunsettled.mono (Nat.le_succ n))
          cases e with
          | tooDeep limit => exact Nat.le_of_succ_le hconcerns
          | cycle symbol => trivial
        rw [Plain.prove_succ hfalse]
        refine hd.unfound n ?_ ((hunsettled.mono (Nat.le_succ n)).within hfalse hbefore)
        cases e with
        | tooDeep limit =>
          show n ≤ (c.within a.symbol).room
          have hle : n + 1 ≤ c.room := hconcerns
          omega
        | cycle symbol => trivial

section Goal

variable {goal : Formula} {s t : Search}

theorem keeps_resolveGoal (hkb : kb.WellFormed) (hgoal : goal.AgreesWith kb.declared) :
    Keeps (s.context.Grown kb) (resolve (proveWithin kb s.context.room) goal)
      (fun v => Plain.resolve (Plain.value kb) goal = some v)
      (s.context.Failed kb fun n => Plain.resolve (Plain.prove kb n) goal) :=
  keeps_resolve_value fun a ha => provesValue_proveWithin hkb rfl (hgoal a ha)

/-- A goal that is resolved gets its plain value. -/
theorem resolveGoal_ok (hkb : kb.WellFormed) (hgoal : goal.AgreesWith kb.declared)
    (hs : s.context.cache.TrueTo kb) {v : Bool} (h : resolveGoal kb goal s = .ok v t) :
    s.context.Grown kb t.context ∧ Plain.resolve (Plain.value kb) goal = some v :=
  (keeps_resolveGoal hkb hgoal).of_ok (.refl hs) h

/-- A goal that is abandoned has no plain value within the levels that were left. -/
theorem resolveGoal_error (hkb : kb.WellFormed) (hgoal : goal.AgreesWith kb.declared)
    (hs : s.context.cache.TrueTo kb) {e : ProofError} (h : resolveGoal kb goal s = .error e t) :
    s.context.Failed kb (fun n => Plain.resolve (Plain.prove kb n) goal) e t.context :=
  (keeps_resolveGoal hkb hgoal).of_error (.refl hs) h

end Goal

end Derivation

end HornClause
