/-
  HornClause.Proofs.Relaxation

  Two runs of one derivation, the second under relaxed limits: with more depth, or
  without a record of the goals underway. Both runs go through the same steps, with
  the same values, traces and caches, until the first is abandoned for a reason
  that the relaxation lifts.

    * `Context.relax extra forget` — the relaxed context.
    * `ProofError.Lifted extra forget` — the failures that it may prevent.
    * `Follows` — the second run ends as the first does, in the relaxed state, unless
      the first ends in such a failure.

  `resolveGoal_relax` states this for whole goals, from any state and in any
  knowledge base.
-/
import HornClause.Proofs.Steps

namespace HornClause

-- ============================================================================
-- Relaxed contexts
-- ============================================================================

namespace Context

/-- The context with `extra` more levels and, if told to forget, without a record of
    the goals underway. -/
def relax (extra : Nat) (forget : Bool) (c : Context) : Context :=
  { c with limit := c.limit + extra, underway := if forget then none else c.underway }

variable {extra : Nat} {forget : Bool}

theorem relax_within (c : Context) (symbol : Char) :
    (c.within symbol).relax extra forget = (c.relax extra forget).within symbol := by
  cases forget <;> rfl

theorem relax_leave_ascend (c : Context) :
    c.leave.ascend.relax extra forget = (c.relax extra forget).leave.ascend := by
  cases forget <;> rfl

theorem room_relax (extra : Nat) (forget : Bool) {c : Context} (h : c.depth ≤ c.limit) :
    (c.relax extra forget).room = c.room + extra := by
  show c.limit + extra - c.depth = c.limit - c.depth + extra
  omega

end Context

/-- The state with a relaxed context. -/
def Search.relax (extra : Nat) (forget : Bool) (s : Search) : Search :=
  { s with context := s.context.relax extra forget }

/-- The failures that a relaxation may prevent. -/
def ProofError.Lifted (extra : Nat) (forget : Bool) : ProofError → Prop
  | .tooDeep _ => 0 < extra
  | .cycle _ => forget = true

namespace SearchM

-- ============================================================================
-- Runs that follow each other
-- ============================================================================

/-- From the relaxed state, the second step ends as the first does, unless the first
    fails for a reason that is lifted. -/
def Follows {α : Type} (extra : Nat) (forget : Bool) (m₁ m₂ : SearchM α) : Prop :=
  ∀ s : Search,
    match m₁ s with
    | .ok v t => m₂ (s.relax extra forget) = .ok v (t.relax extra forget)
    | .error e t =>
        e.Lifted extra forget ∨ m₂ (s.relax extra forget) = .error e (t.relax extra forget)

variable {α β : Type} {extra : Nat} {forget : Bool} {m₁ m₂ : SearchM α}

theorem Follows.of_ok (h : Follows extra forget m₁ m₂) {s t : Search} {v : α}
    (hr : m₁ s = .ok v t) : m₂ (s.relax extra forget) = .ok v (t.relax extra forget) := by
  have hm := h s
  rw [hr] at hm
  exact hm

theorem Follows.of_error (h : Follows extra forget m₁ m₂) {s t : Search} {e : ProofError}
    (hr : m₁ s = .error e t) :
    e.Lifted extra forget ∨ m₂ (s.relax extra forget) = .error e (t.relax extra forget) := by
  have hm := h s
  rw [hr] at hm
  exact hm

theorem follows_pure (v : α) : Follows extra forget (pure v) (pure v) := fun _ => rfl

theorem follows_note (e : Event) : Follows extra forget (note e) (note e) := fun _ => rfl

theorem follows_record (t : Trace) : Follows extra forget (record t) (record t) := fun _ => rfl

theorem follows_save (symbol : Char) (value : Bool) :
    Follows extra forget (save symbol value) (save symbol value) := fun _ => rfl

theorem Follows.bind {f₁ f₂ : α → SearchM β} (h : Follows extra forget m₁ m₂)
    (hf : ∀ v, Follows extra forget (f₁ v) (f₂ v)) :
    Follows extra forget (m₁ >>= f₁) (m₂ >>= f₂) := by
  intro s
  have hrun₁ : (m₁ >>= f₁) s = EStateM.bind m₁ f₁ s := rfl
  have hrun₂ : (m₂ >>= f₂) (s.relax extra forget) = EStateM.bind m₂ f₂ (s.relax extra forget) := rfl
  rw [hrun₁, hrun₂, EStateM.bind, EStateM.bind]
  cases hr : m₁ s with
  | ok v t =>
    rw [h.of_ok hr]
    exact hf v t
  | error e t =>
    rcases h.of_error hr with hlifted | herror
    · exact Or.inl hlifted
    · rw [herror]
      exact Or.inr rfl

theorem Follows.below {m₁ m₂ : SearchM Bool} {label : String} (h : Follows extra forget m₁ m₂) :
    Follows extra forget (below label m₁) (below label m₂) := by
  intro s
  have hstart : ({ s.relax extra forget with trace := #[] } : Search) =
      Search.relax extra forget { s with trace := #[] } := rfl
  rw [SearchM.below, SearchM.below, hstart]
  cases hr : m₁ { s with trace := #[] } with
  | ok v t =>
    rw [h.of_ok hr]
    rfl
  | error e t =>
    rcases h.of_error hr with hlifted | herror
    · exact Or.inl hlifted
    · rw [herror]
      exact Or.inr rfl

theorem Follows.closing {m₁ m₂ : SearchM Bool} (h : Follows extra forget m₁ m₂) :
    Follows extra forget (closing m₁) (closing m₂) := by
  intro s
  rw [SearchM.closing, SearchM.closing]
  cases hr : m₁ s with
  | ok v t =>
    rw [h.of_ok hr]
    simp only [Search.relax, Context.relax_leave_ascend]
  | error e t =>
    rcases h.of_error hr with hlifted | herror
    · exact Or.inl hlifted
    · rw [herror]
      simp only [Search.relax, Context.relax_leave_ascend, or_true]

/-- A goal that can be taken up can be taken up under relaxed limits, and one that
    cannot fails in the same way or for a reason that is lifted. -/
theorem Follows.goal {symbol : Char} {m₁ m₂ : SearchM Bool} (h : Follows extra forget m₁ m₂) :
    Follows extra forget (do descend; enter symbol; SearchM.closing m₁)
      (do descend; enter symbol; SearchM.closing m₂) := by
  intro s
  by_cases hlimit : s.context.limit ≤ s.context.depth
  · rw [goal_of_le hlimit]
    rcases Nat.eq_zero_or_pos extra with hextra | hextra
    · subst hextra
      right
      exact goal_of_le hlimit
    · exact Or.inl hextra
  have hlt : s.context.depth < s.context.limit := by omega
  have hlt' : (s.relax extra forget).context.depth < (s.relax extra forget).context.limit := by
    show s.context.depth < s.context.limit + extra
    omega
  rcases s.context.underway_cases symbol with ⟨goals, hgoals, hmem⟩ | hnot
  · rw [goal_of_mem hlt hgoals hmem]
    cases forget with
    | true => exact Or.inl rfl
    | false => exact Or.inr (goal_of_mem hlt' hgoals hmem)
  · have hnot' : ∀ goals, (s.relax extra forget).context.underway = some goals →
        symbol ∉ goals := by
      intro goals hgoals
      cases forget with
      | true => cases hgoals
      | false => exact hnot goals hgoals
    rw [goal_of_forall hlt hnot, goal_of_forall hlt' hnot']
    have hstart : ({ s.relax extra forget with
        context := (s.relax extra forget).context.within symbol } : Search) =
        Search.relax extra forget { s with context := s.context.within symbol } := by
      simp only [Search.relax, Context.relax_within]
    rw [hstart]
    exact h.closing { s with context := s.context.within symbol }

end SearchM

namespace Derivation

open SearchM

-- ============================================================================
-- Whole derivations
-- ============================================================================

variable {extra : Nat} {forget : Bool} {prove₁ prove₂ : Atom → SearchM Bool}

theorem follows_settleOr (a : Atom) {m₁ m₂ : SearchM Bool} (h : Follows extra forget m₁ m₂) :
    Follows extra forget (settleOr a m₁) (settleOr a m₂) := by
  intro s
  have hcache : (s.relax extra forget).context.cache = s.context.cache := rfl
  cases hget : s.context.cache.get? a.symbol with
  | some v =>
    rw [settleOr_of_cached hget, settleOr_of_cached (hcache ▸ hget)]
    rfl
  | none =>
    rw [settleOr_of_not_cached hget, settleOr_of_not_cached (hcache ▸ hget)]
    cases a.value with
    | true => rfl
    | false => exact h s

theorem follows_resolve (h : ∀ a, Follows extra forget (prove₁ a) (prove₂ a)) (goal : Formula) :
    Follows extra forget (resolve prove₁ goal) (resolve prove₂ goal) := by
  induction goal with
  | atom a =>
    rw [resolve_atom, resolve_atom]
    exact h a
  | compound c left right ihl ihr =>
    rw [resolve_compound, resolve_compound]
    exact ihl.bind fun x => ihr.bind fun y => follows_pure (c.apply x y)

theorem follows_tryRules (h : ∀ a, Follows extra forget (prove₁ a) (prove₂ a)) (symbol : Char)
    (rules : List Rule) :
    Follows extra forget (tryRules prove₁ symbol rules) (tryRules prove₂ symbol rules) := by
  have hconclusion : ∀ rule, Follows extra forget (saveConclusion rule) (saveConclusion rule) := by
    intro rule
    rw [saveConclusion]
    split
    · exact follows_save _ true
    · exact follows_pure ()
  have hpremise : ∀ rule value,
      Follows extra forget (savePremise rule value) (savePremise rule value) := by
    intro rule value
    rw [savePremise]
    split
    · exact follows_save _ value
    · exact follows_pure ()
  induction rules with
  | nil =>
    rw [tryRules, tryRules]
    refine (follows_note _).bind fun _ => (follows_record _).bind fun _ => ?_
    exact (follows_save symbol false).bind fun _ => follows_pure false
  | cons rule rest ih =>
    rw [tryRules, tryRules]
    refine (follows_note _).bind fun _ => ?_
    split
    · refine (follows_record _).bind fun _ => ?_
      exact (hconclusion rule).bind fun _ => follows_pure true
    · refine (follows_resolve h rule.premise).below.bind fun value => ?_
      refine (hpremise rule value).bind fun _ => ?_
      split
      · exact (hconclusion rule).bind fun _ => follows_pure true
      · split
        · exact follows_pure false
        · exact ih

theorem follows_proveBy (kb : KnowledgeBase)
    (h : ∀ a, Follows extra forget (prove₁ a) (prove₂ a)) (a : Atom) :
    Follows extra forget (proveBy kb prove₁ a) (proveBy kb prove₂ a) :=
  follows_settleOr a (follows_tryRules h a.symbol (kb.rulesFor (.atom a))).goal

/-- An atom is derived in the same way with more room. -/
theorem follows_proveWithin (extra : Nat) (forget : Bool) (kb : KnowledgeBase) (room : Nat)
    (a : Atom) :
    Follows extra forget (proveWithin kb room a) (proveWithin kb (room + extra) a) := by
  induction room generalizing a with
  | zero =>
    rcases Nat.eq_zero_or_pos extra with hextra | hextra
    · subst hextra
      exact follows_proveBy kb (fun b s => Or.inr rfl) a
    · obtain ⟨more, rfl⟩ : ∃ more, extra = more + 1 := ⟨extra - 1, by omega⟩
      rw [Nat.zero_add]
      exact follows_proveBy kb (fun b s => Or.inl hextra) a
  | succ room ih =>
    rw [show room + 1 + extra = room + extra + 1 by omega]
    exact follows_proveBy kb ih a

/-- From a state whose depth is within the limit, a goal is resolved in the same way
    under relaxed limits, unless it fails for a reason that is lifted. -/
theorem resolveGoal_relax (extra : Nat) (forget : Bool) (kb : KnowledgeBase) (goal : Formula)
    {s : Search} (hdepth : s.context.depth ≤ s.context.limit) :
    (∀ v t, resolveGoal kb goal s = .ok v t →
      resolveGoal kb goal (s.relax extra forget) = .ok v (t.relax extra forget)) ∧
    (∀ e t, resolveGoal kb goal s = .error e t → e.Lifted extra forget ∨
      resolveGoal kb goal (s.relax extra forget) = .error e (t.relax extra forget)) := by
  have hfollows := follows_resolve (follows_proveWithin extra forget kb s.context.room) goal
  have hrun : resolveGoal kb goal (s.relax extra forget) =
      resolve (proveWithin kb (s.context.room + extra)) goal (s.relax extra forget) := by
    rw [← Context.room_relax extra forget hdepth]
    rfl
  rw [hrun]
  exact ⟨fun v t h => hfollows.of_ok h, fun e t h => hfollows.of_error h⟩

end Derivation

end HornClause
