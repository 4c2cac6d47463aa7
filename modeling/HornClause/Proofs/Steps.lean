/-
  HornClause.Proofs.Steps

  Rules for reasoning about the steps of a derivation. `Keeps I m Q E` is a triple
  over contexts: from every context that satisfies `I`, the step `m` either ends in
  a value that satisfies `Q`, in a context that satisfies `I` again, or is abandoned
  for a reason and in a context that satisfy `E`. Traces and logs play no part.

  There is one rule for each kind of step. Taking up a goal is the only one that
  changes the invariant (`Keeps.goal`): its body runs in a context one goal deeper,
  and what the body leaves behind is laid down again on every way out.

  A compound goal is resolved as its operands are, the left one first
  (`resolve_compound`), so the left spine never has to be looked at again.
-/
import HornClause.Derivation.Backward
import HornClause.Proofs.Agreement

namespace HornClause

-- ============================================================================
-- Compound goals
-- ============================================================================

namespace Derivation

/-- What waits to the right of a goal is joined to its value. -/
theorem descendLeft_eq (prove : Atom → SearchM Bool) (goal : Formula)
    (pending : List (Connective × SearchM Bool)) :
    descendLeft prove goal pending =
      resolve prove goal >>= fun value => joinPending value pending := by
  induction goal generalizing pending with
  | atom a => simp [resolve, descendLeft, joinPending]
  | compound c left right ihl ihr =>
    rw [resolve, descendLeft, descendLeft, ihl, ihl [_]]
    simp only [joinPending, bind_assoc, pure_bind]

theorem resolve_atom (prove : Atom → SearchM Bool) (a : Atom) :
    resolve prove (.atom a) = prove a := by
  simp [resolve, descendLeft, joinPending]

theorem resolve_compound (prove : Atom → SearchM Bool) (c : Connective) (left right : Formula) :
    resolve prove (.compound c left right) = do
      let x ← resolve prove left
      let y ← resolve prove right
      return c.apply x y := by
  rw [resolve, descendLeft, descendLeft_eq]
  rfl

end Derivation

-- ============================================================================
-- Contexts
-- ============================================================================

namespace Context

/-- The context in which the rules for a goal are tried. -/
def within (c : Context) (symbol : Char) : Context :=
  { c with depth := c.depth + 1, underway := c.underway.map (symbol :: ·) }

/-- The rules for a goal are tried with one level less. -/
theorem room_within {c : Context} {symbol : Char} {room : Nat} (h : c.room = room + 1) :
    (c.within symbol).room = room := by
  have hsub : c.limit - c.depth = room + 1 := h
  show c.limit - (c.depth + 1) = room
  omega

theorem descend_of_le {c : Context} (h : c.limit ≤ c.depth) :
    c.descend = .error (.tooDeep c.limit) := by
  rw [descend, if_pos h]

theorem descend_of_lt {c : Context} (h : c.depth < c.limit) :
    c.descend = .ok { c with depth := c.depth + 1 } := by
  rw [descend, if_neg (by omega)]

theorem enter_of_mem {c : Context} {symbol : Char} {goals : List Char}
    (hgoals : c.underway = some goals) (h : symbol ∈ goals) :
    c.enter symbol = .error (.cycle symbol) := by
  rw [enter, hgoals]
  exact if_pos h

theorem enter_of_forall {c : Context} {symbol : Char}
    (h : ∀ goals, c.underway = some goals → symbol ∉ goals) :
    c.enter symbol = .ok { c with underway := c.underway.map (symbol :: ·) } := by
  rw [enter]
  cases hgoals : c.underway with
  | none =>
    rcases c with ⟨limit, depth, underway, cache⟩
    cases hgoals
    rfl
  | some goals => exact if_neg (h goals hgoals)

theorem underway_cases (c : Context) (symbol : Char) :
    (∃ goals, c.underway = some goals ∧ symbol ∈ goals) ∨
      ∀ goals, c.underway = some goals → symbol ∉ goals := by
  by_cases hmem : ∃ goals, c.underway = some goals ∧ symbol ∈ goals
  · exact Or.inl hmem
  · exact Or.inr fun goals hgoals hin => hmem ⟨goals, hgoals, hin⟩

/-- Two contexts with the same goals underway, to the same depth under the same limit. -/
structure SameGoals (c d : Context) : Prop where
  limit : d.limit = c.limit
  depth : d.depth = c.depth
  underway : d.underway = c.underway

namespace SameGoals

variable {c d : Context} {symbol : Char}

theorem refl (c : Context) : c.SameGoals c := ⟨rfl, rfl, rfl⟩

theorem depth_lt (h : c.SameGoals d) {room : Nat} (hroom : c.room = room + 1) :
    d.depth < d.limit := by
  have hsub : c.limit - c.depth = room + 1 := hroom
  rw [h.limit, h.depth]
  omega

theorem limit_le_depth (h : c.SameGoals d) (hroom : c.room = 0) : d.limit ≤ d.depth := by
  rw [h.limit, h.depth]
  exact Nat.sub_eq_zero_iff_le.mp hroom

theorem save (h : c.SameGoals d) (value : Bool) : c.SameGoals (d.save symbol value) :=
  ⟨h.limit, h.depth, h.underway⟩

theorem within (h : c.SameGoals d) : (c.within symbol).SameGoals (d.within symbol) where
  limit := h.limit
  depth := congrArg (· + 1) h.depth
  underway := congrArg (Option.map (symbol :: ·)) h.underway

theorem leave_ascend (h : (c.within symbol).SameGoals d) : c.SameGoals d.leave.ascend where
  limit := h.limit
  depth := by
    show d.depth - 1 = c.depth
    rw [h.depth]
    rfl
  underway := by
    show d.underway.map List.tail = c.underway
    rw [h.underway]
    cases hgoals : c.underway with
    | none => simp [Context.within, hgoals]
    | some goals => simp [Context.within, hgoals]

end SameGoals

end Context

namespace SearchM

-- ============================================================================
-- Triples over contexts
-- ============================================================================

/-- From a context that satisfies `I`, a step ends in a value that satisfies `Q` and
    in a context that satisfies `I`, or is abandoned as `E` tells. -/
def Keeps {α : Type} (I : Context → Prop) (m : SearchM α) (Q : α → Prop)
    (E : ProofError → Context → Prop) : Prop :=
  ∀ s : Search, I s.context →
    match m s with
    | .ok v t => I t.context ∧ Q v
    | .error e t => E e t.context

variable {α β : Type} {I I' : Context → Prop} {m : SearchM α} {Q Q' : α → Prop}
  {E E' : ProofError → Context → Prop}

theorem Keeps.of_ok (h : Keeps I m Q E) {s t : Search} {v : α} (hs : I s.context)
    (hr : m s = .ok v t) : I t.context ∧ Q v := by
  have hm := h s hs
  rw [hr] at hm
  exact hm

theorem Keeps.of_error (h : Keeps I m Q E) {s t : Search} {e : ProofError} (hs : I s.context)
    (hr : m s = .error e t) : E e t.context := by
  have hm := h s hs
  rw [hr] at hm
  exact hm

theorem Keeps.mono (h : Keeps I m Q E) (hQ : ∀ v, Q v → Q' v) (hE : ∀ e c, E e c → E' e c) :
    Keeps I m Q' E' := by
  intro s hs
  have hm := h s hs
  cases hr : m s with
  | ok v t =>
    rw [hr] at hm
    exact ⟨hm.1, hQ v hm.2⟩
  | error e t =>
    rw [hr] at hm
    exact hE e t.context hm

theorem keeps_false : Keeps (fun _ => False) m Q E := fun _ hs => hs.elim

theorem keeps_pure {v : α} (h : Q v) : Keeps I (pure v) Q E := fun _ hs => ⟨hs, h⟩

theorem Keeps.bind {f : α → SearchM β} {R : β → Prop} (h : Keeps I m Q E)
    (hf : ∀ v, Q v → Keeps I (f v) R E) : Keeps I (m >>= f) R E := by
  intro s hs
  have hm := h s hs
  have hrun : (m >>= f) s = EStateM.bind m f s := rfl
  rw [hrun, EStateM.bind]
  cases hr : m s with
  | ok v t =>
    rw [hr] at hm
    exact hf v hm.2 t hm.1
  | error e t =>
    rw [hr] at hm
    exact hm

theorem keeps_note (e : Event) : Keeps I (note e) (fun _ => True) E := fun _ hs => ⟨hs, trivial⟩

theorem keeps_record (t : Trace) : Keeps I (record t) (fun _ => True) E :=
  fun _ hs => ⟨hs, trivial⟩

theorem keeps_save {symbol : Char} {value : Bool} (h : ∀ c, I c → I (c.save symbol value)) :
    Keeps I (save symbol value) (fun _ => True) E :=
  fun s hs => ⟨h s.context hs, trivial⟩

theorem Keeps.below {step : SearchM Bool} {Q : Bool → Prop} {label : String}
    (h : Keeps I step Q E) : Keeps I (below label step) Q E := by
  intro s hs
  have hm := h { s with trace := #[] } hs
  rw [SearchM.below]
  cases hr : step { s with trace := #[] } with
  | ok v t =>
    rw [hr] at hm
    exact hm
  | error e t =>
    rw [hr] at hm
    exact hm

-- ============================================================================
-- Taking up a goal
-- ============================================================================

theorem change_eq (f : Context → Except ProofError Context) (s : Search) :
    change f s =
      match f s.context with
      | .ok c => .ok () { s with context := c }
      | .error e => .error e { s with log := s.log.push e.event } := by
  have hrun : change f s =
      (match f s.context with
        | .ok c => modify fun s => { s with context := c }
        | .error e => abandon e : SearchM Unit) s := rfl
  rw [hrun]
  cases f s.context <;> rfl

section Goal

variable {s : Search} {symbol : Char} {body : SearchM Bool}

theorem goal_of_le (h : s.context.limit ≤ s.context.depth) :
    (do descend; enter symbol; closing body : SearchM Bool) s =
      .error (.tooDeep s.context.limit)
        { s with log := s.log.push (.limitReached s.context.limit) } := by
  show EStateM.bind (change Context.descend) _ s = _
  rw [EStateM.bind, change_eq, Context.descend_of_le h]
  rfl

theorem goal_of_mem {goals : List Char} (hlt : s.context.depth < s.context.limit)
    (hgoals : s.context.underway = some goals) (h : symbol ∈ goals) :
    (do descend; enter symbol; closing body : SearchM Bool) s =
      .error (.cycle symbol)
        { s with
          context := { s.context with depth := s.context.depth + 1 }
          log := s.log.push (.cycleFound symbol) } := by
  show EStateM.bind (change Context.descend) _ s = _
  rw [EStateM.bind, change_eq, Context.descend_of_lt hlt]
  have henter := Context.enter_of_mem
    (c := { s.context with depth := s.context.depth + 1 }) hgoals h
  show EStateM.bind (change (·.enter symbol)) _ _ = _
  rw [EStateM.bind, change_eq, henter]
  rfl

theorem goal_of_forall (hlt : s.context.depth < s.context.limit)
    (h : ∀ goals, s.context.underway = some goals → symbol ∉ goals) :
    (do descend; enter symbol; closing body : SearchM Bool) s =
      closing body { s with context := s.context.within symbol } := by
  show EStateM.bind (change Context.descend) _ s = _
  rw [EStateM.bind, change_eq, Context.descend_of_lt hlt]
  have henter := Context.enter_of_forall
    (c := { s.context with depth := s.context.depth + 1 }) h
  show EStateM.bind (change (·.enter symbol)) _ _ = _
  rw [EStateM.bind, change_eq, henter]
  rfl

end Goal

/-- A goal is taken up, unless the limit is reached or the goal is underway, and laid
    down however its rules come out. -/
theorem Keeps.goal {symbol : Char} {body : SearchM Bool} {Q : Bool → Prop}
    (hbody : Keeps I' body Q E')
    (hdeep : ∀ c, I c → c.limit ≤ c.depth → E (.tooDeep c.limit) c)
    (hcycle : ∀ c goals, I c → c.underway = some goals → symbol ∈ goals →
      E (.cycle symbol) { c with depth := c.depth + 1 })
    (henter : ∀ c, I c → c.depth < c.limit → (∀ goals, c.underway = some goals → symbol ∉ goals) →
      I' (c.within symbol))
    (hleave : ∀ c, I' c → I c.leave.ascend)
    (hfail : ∀ e c, E' e c → E e c.leave.ascend) :
    Keeps I (do descend; enter symbol; closing body) Q E := by
  intro s hs
  by_cases hlimit : s.context.limit ≤ s.context.depth
  · rw [goal_of_le hlimit]
    exact hdeep s.context hs hlimit
  have hlt : s.context.depth < s.context.limit := by omega
  rcases s.context.underway_cases symbol with ⟨goals, hgoals, hmem⟩ | hnot
  · rw [goal_of_mem hlt hgoals hmem]
    exact hcycle s.context goals hs hgoals hmem
  · have hm := hbody { s with context := s.context.within symbol } (henter _ hs hlt hnot)
    rw [goal_of_forall hlt hnot, closing]
    cases hr : body { s with context := s.context.within symbol } with
    | ok v t =>
      rw [hr] at hm
      exact ⟨hleave t.context hm.1, hm.2⟩
    | error e t =>
      rw [hr] at hm
      exact hfail e t.context hm

/-- Where the limit is reached in every context, no goal is taken up at all. -/
theorem keeps_goal_of_full {symbol : Char} {body : SearchM Bool} {Q : Bool → Prop}
    (hfull : ∀ c, I c → c.limit ≤ c.depth) (hdeep : ∀ c, I c → E (.tooDeep c.limit) c) :
    Keeps I (do descend; enter symbol; closing body) Q E := by
  intro s hs
  rw [goal_of_le (hfull s.context hs)]
  exact hdeep s.context hs

end SearchM

namespace Derivation

open SearchM

variable {I : Context → Prop} {E : ProofError → Context → Prop}

section Settle

variable {a : Atom} {otherwise : SearchM Bool} {s : Search}

theorem settleOr_of_cached {v : Bool} (h : s.context.cache.get? a.symbol = some v) :
    settleOr a otherwise s =
      .ok v { s with
        trace := s.trace.push (.leaf a.text (.cached v))
        log := s.log.push (.recalled a.symbol v) } := by
  have hlook : lookUp a.symbol s = .ok (some v) s := by
    rw [← h]
    rfl
  rw [settleOr]
  show EStateM.bind (lookUp a.symbol) _ s = _
  rw [EStateM.bind, hlook]
  rfl

theorem settleOr_of_not_cached (h : s.context.cache.get? a.symbol = none) :
    settleOr a otherwise s =
      (if a.value then do
        note (.declared a.symbol)
        record (.leaf a.text .proved)
        return true
      else otherwise : SearchM Bool) s := by
  have hlook : lookUp a.symbol s = .ok none s := by
    rw [← h]
    rfl
  rw [settleOr]
  show EStateM.bind (lookUp a.symbol) _ s = _
  rw [EStateM.bind, hlook]

end Settle

/-- An atom is settled by the cache or by the facts, and otherwise as told. -/
theorem keeps_settleOr {a : Atom} {otherwise : SearchM Bool} {Q : Bool → Prop}
    (hcached : ∀ c v, I c → c.cache.get? a.symbol = some v → Q v)
    (hfact : a.value = true → Q true)
    (hotherwise : a.value = false → Keeps I otherwise Q E) :
    Keeps I (settleOr a otherwise) Q E := by
  intro s hs
  cases hget : s.context.cache.get? a.symbol with
  | some v =>
    rw [settleOr_of_cached hget]
    exact ⟨hs, hcached s.context v hs hget⟩
  | none =>
    rw [settleOr_of_not_cached hget]
    cases hvalue : a.value with
    | true => exact ⟨hs, hfact hvalue⟩
    | false => exact hotherwise hvalue s hs

/-- What every atom of a goal keeps, the goal keeps. -/
theorem keeps_resolve {prove : Atom → SearchM Bool} {goal : Formula}
    (h : ∀ a ∈ goal.atoms, Keeps I (prove a) (fun _ => True) E) :
    Keeps I (resolve prove goal) (fun _ => True) E := by
  induction goal with
  | atom a =>
    rw [resolve_atom]
    exact h a List.mem_cons_self
  | compound c left right ihl ihr =>
    rw [resolve_compound]
    refine (ihl fun a ha => h a (List.mem_append_left _ ha)).bind fun _ _ => ?_
    refine (ihr fun a ha => h a (List.mem_append_right _ ha)).bind fun _ _ => ?_
    exact keeps_pure trivial

theorem keeps_saveConclusion {rule : Rule}
    (h : ∀ a, rule.conclusion = .atom a → ∀ c, I c → I (c.save a.symbol true)) :
    Keeps I (saveConclusion rule) (fun _ => True) E := by
  rw [saveConclusion]
  split
  · rename_i a ha
    exact keeps_save (h a (Formula.asAtom?_eq_some_iff.mp ha))
  · exact keeps_pure trivial

theorem keeps_savePremise {rule : Rule} {value : Bool}
    (h : ∀ a, rule.premise = .atom a → ∀ c, I c → I (c.save a.symbol value)) :
    Keeps I (savePremise rule value) (fun _ => True) E := by
  rw [savePremise]
  split
  · rename_i a ha
    exact keeps_save (h a (Formula.asAtom?_eq_some_iff.mp ha))
  · exact keeps_pure trivial

/-- What every write and every atom of a premise keeps, some rules keep. -/
theorem keeps_tryRules {prove : Atom → SearchM Bool} {symbol : Char} {rules : List Rule}
    (hsave : ∀ c key value, I c → I (c.save key value))
    (h : ∀ r ∈ rules, ∀ a ∈ r.premise.atoms, Keeps I (prove a) (fun _ => True) E) :
    Keeps I (tryRules prove symbol rules) (fun _ => True) E := by
  have hconclusion : ∀ rule, Keeps I (saveConclusion rule) (fun _ => True) E :=
    fun rule => keeps_saveConclusion fun a _ c hc => hsave c a.symbol true hc
  induction rules with
  | nil =>
    rw [tryRules]
    refine (keeps_note _).bind fun _ _ => (keeps_record _).bind fun _ _ => ?_
    refine Keeps.bind (Q := fun _ => True) (keeps_save fun c hc => hsave c symbol false hc) ?_
    exact fun _ _ => keeps_pure trivial
  | cons rule rest ih =>
    rw [tryRules]
    refine (keeps_note _).bind fun _ _ => ?_
    split
    · refine (keeps_record _).bind fun _ _ => ?_
      exact (hconclusion rule).bind fun _ _ => keeps_pure trivial
    · refine (keeps_resolve (h rule List.mem_cons_self)).below.bind fun value _ => ?_
      refine (keeps_savePremise fun a _ c hc => hsave c a.symbol value hc).bind fun _ _ => ?_
      split
      · exact (hconclusion rule).bind fun _ _ => keeps_pure trivial
      · split
        · exact keeps_pure trivial
        · exact ih fun r hr => h r (List.mem_cons_of_mem rule hr)

end Derivation

end HornClause
