/-
  HornClause.Proofs.Balance

  What a call leaves of the depth and of the goals underway, from any context and in any
  knowledge base, and what follows for compound goals.

    * `Context.Balances`: the ways in which a call may leave both. They are as before
      where it ends or is abandoned at the limit. A cycle is met after a step down that
      nothing takes back, so the depth is one higher there, however deep the search was
      when it met the cycle: every goal on the way out is laid down and come back from.
    * `balances_resolveGoal`: every goal is resolved with such a balance.

  So a goal that ends leaves as much room as it found, and the bound on the recursion,
  which is that room, is never what decides. Two equations say so, step by step: in
  values and failures, contexts, traces and events.

    * `resolveGoal_eq`: the atoms of a goal are each proved as if asked for alone. With
      this, walking down the left operands of a goal and joining the values on the way
      back comes to the same as the recursion on both operands.
    * `proveAtom_eq`: an atom is proved by the recursion without a bound, in which only
      `descend` looks at the limit.
-/
import HornClause.Proofs.Bookkeeping

namespace HornClause

-- ============================================================================
-- Depth and goals underway
-- ============================================================================

/-- How a call that is made in the context `c` may leave the depth, the limit and the
    goals underway. -/
def Context.Balances (c : Context) : EStateM.Result ProofError Search Bool → Prop
  | .ok _ t => c.SameGoals t.context
  | .error (.tooDeep limit) t => limit = c.limit ∧ c.SameGoals t.context
  | .error (.cycle _) t =>
      { c with depth := c.depth + 1 }.SameGoals t.context ∧ t.context.depth ≤ c.limit

namespace Derivation

open SearchM

variable {kb : KnowledgeBase} {c : Context}

/-- A cycle is met one step down, and the limit has allowed that step. -/
theorem keeps_proveWithin_below_limit (a : Atom) :
    Keeps c.SameGoals (proveWithin kb c.room a) (fun _ => True)
      fun e _ => ∀ symbol, e = .cycle symbol → c.depth < c.limit := by
  cases hroom : c.room with
  | zero =>
    refine keeps_settleOr (fun _ _ _ _ => trivial) (fun _ => trivial) fun _ => ?_
    refine keeps_goal_of_full (fun d hd => hd.limit_le_depth hroom) fun _ _ symbol h => ?_
    cases h
  | succ room =>
    have hlt : c.depth < c.limit := (Context.SameGoals.refl c).depth_lt hroom
    exact (keeps_proveWithin hroom a).mono (fun _ h => h) fun _ _ _ _ _ => hlt

theorem balances_resolveGoal (kb : KnowledgeBase) (goal : Formula) (s : Search) :
    s.context.Balances (resolveGoal kb goal s) := by
  have hgoals : Keeps s.context.SameGoals (resolve (proveWithin kb s.context.room) goal)
      (fun _ => True) s.context.LeftBy :=
    keeps_resolveGoal_goals
  have hlimit : Keeps s.context.SameGoals (resolve (proveWithin kb s.context.room) goal)
      (fun _ => True) fun e _ => ∀ symbol, e = .cycle symbol → s.context.depth < s.context.limit :=
    keeps_resolve fun a _ => keeps_proveWithin_below_limit a
  cases hrun : resolveGoal kb goal s with
  | ok v t => exact (hgoals.of_ok (.refl s.context) hrun).1
  | error e t =>
    have hleft := hgoals.of_error (.refl s.context) hrun
    cases e with
    | tooDeep limit => exact ⟨hleft.1, hleft.2.1⟩
    | cycle symbol =>
      have hlt := hlimit.of_error (.refl s.context) hrun symbol rfl
      refine ⟨hleft.2, ?_⟩
      rw [hleft.2.depth]
      exact hlt

theorem resolveGoal_atom (kb : KnowledgeBase) (a : Atom) (s : Search) :
    resolveGoal kb (.atom a) s = proveAtom kb a s := by
  show resolve (proveWithin kb s.context.room) (.atom a) s = _
  rw [resolve_atom]
  rfl

/-- Depth and goals underway are balanced on every way out, whether a goal is resolved or
    an atom proved, from any context with any cache.

    If the call ends, or is abandoned at the limit, both are as before, and the limit
    that is reported is that of the context. If it is abandoned for a cycle, the goals
    underway are as before, and the depth is one higher than before and within the limit. -/
theorem balances_calls (kb : KnowledgeBase) (s : Search) :
    (∀ goal, s.context.Balances (resolveGoal kb goal s)) ∧
      ∀ a, s.context.Balances (proveAtom kb a s) := by
  refine ⟨fun goal => balances_resolveGoal kb goal s, fun a => ?_⟩
  rw [← resolveGoal_atom]
  exact balances_resolveGoal kb (.atom a) s

-- ============================================================================
-- Operands as goals of their own
-- ============================================================================

/-- Resolves a goal by recursion on it: the left operand, then the right one, and then
    the connective is applied to the two values. Atoms are proved by `prove`. -/
def recursively (prove : Atom → SearchM Bool) : Formula → SearchM Bool
  | .atom a => prove a
  | .compound connective left right => do
      let x ← recursively prove left
      let y ← recursively prove right
      return connective.apply x y

theorem resolve_eq_recursively (prove : Atom → SearchM Bool) (goal : Formula) :
    resolve prove goal = recursively prove goal := by
  induction goal with
  | atom a => exact resolve_atom prove a
  | compound connective left right ihl ihr => rw [resolve_compound, ihl, ihr, recursively]

-- ============================================================================
-- The recursion without a bound
-- ============================================================================

/-- Two steps do the same from every context that satisfies `I`. -/
def SameOn {α : Type} (I : Context → Prop) (m m' : SearchM α) : Prop :=
  ∀ s : Search, I s.context → m s = m' s

section SameOn

variable {α β : Type} {I : Context → Prop} {E : ProofError → Context → Prop}

theorem sameOn_refl (m : SearchM α) : SameOn I m m := fun _ _ => rfl

/-- What follows a step starts from a context that the step has kept. -/
theorem SameOn.bind {m m' : SearchM α} {f f' : α → SearchM β} {Q : α → Prop}
    (h : SameOn I m m') (hkeeps : Keeps I m Q E) (hf : ∀ v, SameOn I (f v) (f' v)) :
    SameOn I (m >>= f) (m' >>= f') := by
  intro s hs
  show EStateM.bind m f s = EStateM.bind m' f' s
  rw [EStateM.bind, EStateM.bind, ← h s hs]
  cases hr : m s with
  | error e t => rfl
  | ok v t => exact hf v t (hkeeps.of_ok hs hr).1

theorem SameOn.below {m m' : SearchM Bool} {label : String} (h : SameOn I m m') :
    SameOn I (below label m) (below label m') := by
  intro s hs
  rw [SearchM.below, SearchM.below, h { s with trace := #[] } hs]

variable {prove prove' : Atom → SearchM Bool} (h : ∀ a, SameOn I (prove a) (prove' a))
  (hkeeps : ∀ a, Keeps I (prove a) (fun _ => True) E)

include h hkeeps

theorem sameOn_resolve (goal : Formula) : SameOn I (resolve prove goal) (resolve prove' goal) := by
  induction goal with
  | atom a =>
    rw [resolve_atom, resolve_atom]
    exact h a
  | compound connective left right ihl ihr =>
    rw [resolve_compound, resolve_compound]
    refine ihl.bind (keeps_resolve fun a _ => hkeeps a) fun x => ?_
    exact ihr.bind (keeps_resolve fun a _ => hkeeps a) fun y => sameOn_refl _

theorem sameOn_tryRules (hsave : ∀ c key value, I c → I (c.save key value)) (symbol : Char)
    (rules : List Rule) :
    SameOn I (tryRules prove symbol rules) (tryRules prove' symbol rules) := by
  induction rules with
  | nil => exact sameOn_refl _
  | cons rule rest ih =>
    rw [tryRules, tryRules]
    refine (sameOn_refl _).bind (E := E) (keeps_note _) fun _ => ?_
    split
    · exact sameOn_refl _
    · refine (sameOn_resolve h hkeeps rule.premise).below.bind
        (keeps_resolve fun a _ => hkeeps a).below fun value => ?_
      refine (sameOn_refl _).bind (E := E)
        (keeps_savePremise fun a _ c hc => hsave c a.symbol value hc) fun _ => ?_
      split
      · exact sameOn_refl _
      · split
        · exact sameOn_refl _
        · exact ih

end SameOn

theorem sameOn_proveWithin (kb : KnowledgeBase) {room : Nat} (hroom : c.room = room) (a : Atom) :
    SameOn c.SameGoals (proveWithin kb room a) (proveAtom kb a) := by
  intro s hs
  have hsame : s.context.room = room := by
    rw [Context.room, hs.limit, hs.depth]
    exact hroom
  rw [← hsame]
  rfl

/-- Every atom of a goal finds the room that the first one has found, so each is proved
    as if it had been asked for on its own. -/
theorem resolveGoal_eq (kb : KnowledgeBase) (goal : Formula) :
    resolveGoal kb goal = resolve (proveAtom kb) goal := by
  funext s
  exact sameOn_resolve (sameOn_proveWithin kb rfl) (fun a => keeps_proveWithin rfl a) goal s
    (.refl s.context)

/-- The rules for an atom are tried in the room that is left one level deeper. -/
theorem derive_proveWithin (kb : KnowledgeBase) {room : Nat} (a : Atom) {s : Search}
    (hroom : s.context.room = room + 1) :
    derive kb (proveWithin kb room) a s = derive kb (proveAtom kb) a s := by
  have hlt : s.context.depth < s.context.limit := (Context.SameGoals.refl _).depth_lt hroom
  rcases s.context.underway_cases a.symbol with ⟨goals, hgoals, hmem⟩ | hnot
  · exact (goal_of_mem hlt hgoals hmem).trans (goal_of_mem hlt hgoals hmem).symm
  · have hwithin : (s.context.within a.symbol).room = room := Context.room_within hroom
    have hrules := sameOn_tryRules (sameOn_proveWithin kb hwithin)
      (fun b => keeps_proveWithin hwithin b) (fun d _ value hd => hd.save value) a.symbol
      (kb.rulesFor (.atom a)) { s with context := s.context.within a.symbol } (.refl _)
    rw [derive, derive, goal_of_forall hlt hnot, goal_of_forall hlt hnot, closing, closing,
      hrules]

/-- An atom is proved by a recursion without a bound: unless the cache or the facts settle
    it, one level deeper and by the rules for it, whose premises are proved in the same
    way. Where the limit is reached it is `descend` that gives up. -/
theorem proveAtom_eq (kb : KnowledgeBase) (a : Atom) :
    proveAtom kb a = settleOr a (do
      descend
      enter a.symbol
      closing (tryRules (proveAtom kb) a.symbol (kb.rulesFor (.atom a)))) := by
  funext s
  show proveWithin kb s.context.room a s = settleOr a (derive kb (proveAtom kb) a) s
  have hderive : ∃ prove, proveWithin kb s.context.room a = settleOr a (derive kb prove a) ∧
      derive kb prove a s = derive kb (proveAtom kb) a s := by
    cases hroom : s.context.room with
    | zero =>
      have hle := (Context.SameGoals.refl s.context).limit_le_depth hroom
      exact ⟨abandonGoal, rfl, (goal_of_le hle).trans (goal_of_le hle).symm⟩
    | succ room => exact ⟨proveWithin kb room, rfl, derive_proveWithin kb a hroom⟩
  obtain ⟨prove, hprove, hderive⟩ := hderive
  rw [hprove]
  cases hget : s.context.cache.get? a.symbol with
  | some v => rw [settleOr_of_cached hget, settleOr_of_cached hget]
  | none =>
    rw [settleOr_of_not_cached hget, settleOr_of_not_cached hget]
    cases a.value with
    | true => rfl
    | false => exact hderive

/-- The walk down the left operands of a goal is the recursion on both operands.

    For goals of any shape, from any state of the search, and however atoms are proved,
    both come to the same value or failure and leave the same context, the same traces
    and the same events behind. In a knowledge base, each operand is proved in the room
    that the context leaves when its turn has come. -/
theorem resolve_by_recursion :
    (∀ (prove : Atom → SearchM Bool) (goal : Formula) (s : Search),
      resolve prove goal s = recursively prove goal s) ∧
    ∀ (kb : KnowledgeBase) (goal : Formula) (s : Search),
      resolveGoal kb goal s = recursively (proveAtom kb) goal s := by
  constructor
  · intro prove goal s
    rw [resolve_eq_recursively]
  · intro kb goal s
    rw [resolveGoal_eq, resolve_eq_recursively]

end Derivation

end HornClause
