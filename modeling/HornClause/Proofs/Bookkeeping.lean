/-
  HornClause.Proofs.Bookkeeping

  The depth and the goals underway, over whole derivations from any context and in
  any knowledge base. A derivation that ends, or that is abandoned at the limit,
  leaves both as they were; one that is abandoned for a cycle leaves the depth one
  higher, because a goal that is underway is met after the step down and before it
  is taken up (`Context.LeftBy`).

  If the goals underway are recorded, they are pairwise different letters, and the
  depth is their number (`Context.Tracked`). So the depth is then at most
  twenty-six, and no limit above that is ever reached.
-/
import HornClause.Proofs.PlainValue
import HornClause.Proofs.Steps

namespace HornClause

namespace Context

-- ============================================================================
-- Recorded goals
-- ============================================================================

/-- The goals underway are recorded, are different letters, and are counted by the
    depth. -/
def Tracked (c : Context) : Prop :=
  ∃ goals : List Letter, c.underway = some (goals.map Letter.char) ∧ goals.Nodup ∧
    c.depth = goals.length

theorem Tracked.depth_le {c : Context} (h : c.Tracked) : c.depth ≤ 26 := by
  obtain ⟨goals, -, hnodup, hdepth⟩ := h
  rw [hdepth, ← Letter.card_eq]
  exact hnodup.length_le_card

theorem Tracked.within {c : Context} {a : Atom} (h : c.Tracked)
    (hnot : ∀ goals, c.underway = some goals → a.symbol ∉ goals) :
    (c.within a.symbol).Tracked := by
  obtain ⟨goals, hgoals, hnodup, hdepth⟩ := h
  refine ⟨a.letter :: goals, ?_, ?_, ?_⟩
  · rw [Context.within, hgoals]
    rfl
  · have hfresh : a.letter ∉ goals :=
      fun hmem => hnot _ hgoals (List.mem_map_of_mem hmem)
    exact List.nodup_cons.mpr ⟨hfresh, hnodup⟩
  · show c.depth + 1 = goals.length + 1
    rw [hdepth]

theorem tracked_start {settings : Settings} (h : settings.cycleCheck.value = true) :
    (start settings).Tracked :=
  ⟨[], by simp [start, h], List.nodup_nil, rfl⟩

-- ============================================================================
-- How a derivation is abandoned
-- ============================================================================

/-- What a derivation that began in `c` leaves behind where it is abandoned. -/
def LeftBy (c : Context) : ProofError → Context → Prop
  | .tooDeep limit, d => limit = c.limit ∧ c.SameGoals d ∧ (c.Tracked → c.limit ≤ 26)
  | .cycle _, d => c.underway.isSome = true ∧ { c with depth := c.depth + 1 }.SameGoals d

/-- A goal that was taken up passes on how its rules were abandoned. -/
theorem LeftBy.leave_ascend {c d : Context} {a : Atom} {e : ProofError}
    (hnot : c.Tracked → (c.within a.symbol).Tracked) (h : (c.within a.symbol).LeftBy e d) :
    c.LeftBy e d.leave.ascend := by
  cases e with
  | tooDeep limit =>
    obtain ⟨hlimit, hsame, htracked⟩ := h
    exact ⟨hlimit, hsame.leave_ascend, fun hc => htracked (hnot hc)⟩
  | cycle symbol =>
    obtain ⟨hsome, hsame⟩ := h
    have hunderway : c.underway.isSome = true := by
      simpa [Context.within] using hsome
    have hdeeper : ({ c with depth := c.depth + 1 }.within a.symbol).SameGoals d := hsame
    exact ⟨hunderway, hdeeper.leave_ascend⟩

end Context

namespace Derivation

open SearchM

variable {kb : KnowledgeBase} {c : Context}

/-- The derivation of an atom in the room that the context leaves keeps the goals
    underway, or is abandoned as `LeftBy` tells. -/
theorem keeps_proveWithin {room : Nat} (hroom : c.room = room) (a : Atom) :
    Keeps c.SameGoals (proveWithin kb room a) (fun _ => True) c.LeftBy := by
  induction room generalizing c a with
  | zero =>
    refine keeps_settleOr (fun _ _ _ _ => trivial) (fun _ => trivial) fun _ => ?_
    refine keeps_goal_of_full (fun d hd => hd.limit_le_depth hroom) fun d hd =>
      ⟨hd.limit, hd, fun htracked => ?_⟩
    have hsub : c.limit - c.depth = 0 := hroom
    have hdepth := htracked.depth_le
    omega
  | succ room ih =>
    refine keeps_settleOr (fun _ _ _ _ => trivial) (fun _ => trivial) fun _ => ?_
    have hdeep : ∀ d, c.SameGoals d → d.limit ≤ d.depth → c.LeftBy (.tooDeep d.limit) d :=
      fun d hd hle => absurd (hd.depth_lt hroom) (Nat.not_lt.mpr hle)
    have hcycle : ∀ d goals, c.SameGoals d → d.underway = some goals → a.symbol ∈ goals →
        c.LeftBy (.cycle a.symbol) { d with depth := d.depth + 1 } := by
      intro d goals hd hgoals _
      refine ⟨?_, hd.limit, congrArg (· + 1) hd.depth, hd.underway⟩
      rw [← hd.underway, hgoals]
      rfl
    rcases c.underway_cases a.symbol with ⟨goals, hgoals, hmem⟩ | hnot
    · -- The atom is underway, so its rules are never tried.
      refine Keeps.goal (keeps_false : Keeps _ _ _ fun _ _ => False) hdeep hcycle ?_
        (fun _ h => h.elim) (fun _ _ h => h.elim)
      exact fun d hd _ hnot => hnot goals (hd.underway.trans hgoals) hmem
    · have hwithin : (c.within a.symbol).room = room := Context.room_within hroom
      have hrules : Keeps (c.within a.symbol).SameGoals
          (tryRules (proveWithin kb room) a.symbol (kb.rulesFor (.atom a))) (fun _ => True)
          (c.within a.symbol).LeftBy :=
        keeps_tryRules (fun d _ value hd => hd.save value) fun r _ b _ => ih hwithin b
      refine hrules.goal hdeep hcycle (fun d hd _ _ => hd.within) (fun d hd => hd.leave_ascend) ?_
      exact fun e d hd => hd.leave_ascend fun htracked => htracked.within hnot

variable {goal : Formula} {s t : Search}

theorem keeps_resolveGoal_goals :
    Keeps s.context.SameGoals (resolve (proveWithin kb s.context.room) goal) (fun _ => True)
      s.context.LeftBy :=
  keeps_resolve fun a _ => keeps_proveWithin rfl a

/-- A goal that is abandoned at the limit reports the limit of its context. -/
theorem resolveGoal_tooDeep {limit : Nat} (h : resolveGoal kb goal s = .error (.tooDeep limit) t) :
    limit = s.context.limit ∧ (s.context.Tracked → s.context.limit ≤ 26) := by
  obtain ⟨hlimit, -, htracked⟩ := keeps_resolveGoal_goals.of_error (.refl s.context) h
  exact ⟨hlimit, htracked⟩

/-- Cycles are only reported where the goals underway are recorded. -/
theorem resolveGoal_cycle {symbol : Char} (h : resolveGoal kb goal s = .error (.cycle symbol) t) :
    s.context.underway.isSome = true :=
  (keeps_resolveGoal_goals.of_error (.refl s.context) h).1

end Derivation

end HornClause
