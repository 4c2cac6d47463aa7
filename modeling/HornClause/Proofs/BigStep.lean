/-
  HornClause.Proofs.BigStep

  Derivations that end, as a relation. `Derives kb task c v ts d` holds if `task`, taken
  up with the cache `c`, comes to the value `v`, adds the traces `ts` to the level it
  stands on, and leaves the cache `d` behind. The rules have no depth, no goals underway
  and no log: these decide whether a derivation ends, and nothing about one that does.

  A task is a goal, or an atom with the rules that are left to try for it. One relation
  covers both, so a property of derivations is proved by one induction, with a case for
  each way to settle a goal and one for each way a rule can come out.

  `derives_of_resolveGoal` says that every run that ends is such a derivation.
-/
import HornClause.Proofs.Steps

namespace HornClause

-- ============================================================================
-- The relation
-- ============================================================================

namespace Cache

/-- The cache once a formula has a value, which is only kept of an atom. -/
def learn (c : Cache) (f : Formula) (value : Bool) : Cache :=
  (f.asAtom?.map fun a => c.insert a.symbol value).getD c

theorem learn_of_not_isAtom {c : Cache} {f : Formula} {value : Bool} (h : f.isAtom = false) :
    c.learn f value = c := by
  rw [Formula.isAtom, Option.isSome_eq_false_iff, Option.isNone_iff_eq_none] at h
  rw [learn, h]
  rfl

end Cache

/-- What is to be resolved: a goal, or an atom by the rules that are left. -/
inductive Task where
  | goal (f : Formula)
  | byRules (a : Atom) (rules : List Rule)

/-- A task comes to a value, with the traces it records and the caches before and after. -/
inductive Derives (kb : KnowledgeBase) : Task → Cache → Bool → List Trace → Cache → Prop where
  | recalled {a : Atom} {c : Cache} {v : Bool} (hget : c.get? a.symbol = some v) :
      Derives kb (.goal (.atom a)) c v [.leaf a.text (.cached v)] c
  | declared {a : Atom} {c : Cache} (hget : c.get? a.symbol = none) (hfact : a.value = true) :
      Derives kb (.goal (.atom a)) c true [.leaf a.text .proved] c
  | derived {a : Atom} {c d : Cache} {v : Bool} {ts : List Trace}
      (hget : c.get? a.symbol = none) (hopen : a.value = false)
      (hrules : Derives kb (.byRules a (kb.rulesFor (.atom a))) c v ts d) :
      Derives kb (.goal (.atom a)) c v ts d
  | compound {k : Connective} {left right : Formula} {c d e : Cache} {x y : Bool}
      {ts us : List Trace} (hleft : Derives kb (.goal left) c x ts d)
      (hright : Derives kb (.goal right) d y us e) :
      Derives kb (.goal (.compound k left right)) c (k.apply x y) (ts ++ us) e
  | exhausted {a : Atom} {c : Cache} :
      Derives kb (.byRules a []) c false [.leaf a.text .failed] (c.insert a.symbol false)
  | byFacts {a : Atom} {rule : Rule} {rest : List Rule} {c : Cache}
      (hholds : rule.premise.evaluate = true) :
      Derives kb (.byRules a (rule :: rest)) c true [.leaf rule.text .proved]
        (c.learn rule.conclusion true)
  | proved {a : Atom} {rule : Rule} {rest : List Rule} {c d : Cache} {ts : List Trace}
      (hopen : rule.premise.evaluate = false)
      (hpremise : Derives kb (.goal rule.premise) c true ts d) :
      Derives kb (.byRules a (rule :: rest)) c true [.settled rule.text true ts]
        ((d.learn rule.premise true).learn rule.conclusion true)
  | committed {a : Atom} {rule : Rule} {rest : List Rule} {c d : Cache} {ts : List Trace}
      (hopen : rule.premise.evaluate = false) (hatom : rule.premise.isAtom = true)
      (hpremise : Derives kb (.goal rule.premise) c false ts d) :
      Derives kb (.byRules a (rule :: rest)) c false [.settled rule.text false ts]
        (d.learn rule.premise false)
  | next {a : Atom} {rule : Rule} {rest : List Rule} {c d e : Cache} {v : Bool}
      {ts us : List Trace} (hopen : rule.premise.evaluate = false)
      (hcompound : rule.premise.isAtom = false)
      (hpremise : Derives kb (.goal rule.premise) c false ts d)
      (hrest : Derives kb (.byRules a rest) d v us e) :
      Derives kb (.byRules a (rule :: rest)) c v (.settled rule.text false ts :: us) e

/-- Between two states of a search, a task came to a value. -/
def Settles (kb : KnowledgeBase) (task : Task) (s : Search) (v : Bool) (t : Search) : Prop :=
  ∃ ts, t.trace.toList = s.trace.toList ++ ts ∧
    Derives kb task s.context.cache v ts t.context.cache

-- ============================================================================
-- Steps that end
-- ============================================================================

namespace SearchM

variable {α β : Type} {s t u : Search}

theorem bind_eq_ok {m : SearchM α} {f : α → SearchM β} {b : β} :
    (m >>= f) s = .ok b u ↔ ∃ a t, m s = .ok a t ∧ f a t = .ok b u := by
  have hrun : (m >>= f) s = EStateM.bind m f s := rfl
  rw [hrun, EStateM.bind]
  cases m s <;> simp

theorem below_eq_ok {label : String} {step : SearchM Bool} {v : Bool}
    (h : below label step s = .ok v t) :
    ∃ u, step { s with trace := #[] } = .ok v u ∧ t.context = u.context ∧
      t.trace.toList = s.trace.toList ++ [.settled label v u.trace.toList] := by
  rw [below] at h
  cases hstep : step { s with trace := #[] } with
  | ok w u =>
    rw [hstep] at h
    cases h
    exact ⟨u, rfl, rfl, Array.toList_push⟩
  | error e u =>
    rw [hstep] at h
    cases h

/-- A goal that was taken up and laid down leaves what its rules have left, and nothing
    else that matters to a derivation. -/
theorem goal_eq_ok {symbol : Char} {body : SearchM Bool} {v : Bool}
    (h : (do descend; enter symbol; closing body : SearchM Bool) s = .ok v t) :
    ∃ c u, c.cache = s.context.cache ∧ body { s with context := c } = .ok v u ∧
      t.trace = u.trace ∧ t.context.cache = u.context.cache := by
  by_cases hlimit : s.context.limit ≤ s.context.depth
  · rw [goal_of_le hlimit] at h
    cases h
  have hlt : s.context.depth < s.context.limit := by omega
  rcases s.context.underway_cases symbol with ⟨goals, hgoals, hmem⟩ | hnot
  · rw [goal_of_mem hlt hgoals hmem] at h
    cases h
  · rw [goal_of_forall hlt hnot, closing] at h
    cases hbody : body { s with context := s.context.within symbol } with
    | ok w u =>
      rw [hbody] at h
      cases h
      exact ⟨s.context.within symbol, u, rfl, hbody, rfl, rfl⟩
    | error e u =>
      rw [hbody] at h
      cases h

end SearchM

-- ============================================================================
-- Runs that end
-- ============================================================================

namespace Derivation

open SearchM

variable {kb : KnowledgeBase} {s t : Search} {v : Bool}

theorem learn_of_save {f : Formula} {value : Bool} {step : SearchM Unit}
    (hatom : ∀ a, f.asAtom? = some a → step = save a.symbol value)
    (hcompound : f.asAtom? = none → step = pure ()) (h : step s = .ok () t) :
    t.trace = s.trace ∧ t.context.cache = s.context.cache.learn f value := by
  rw [Cache.learn]
  cases hf : f.asAtom? with
  | some a =>
    rw [hatom a hf] at h
    cases h
    exact ⟨rfl, rfl⟩
  | none =>
    rw [hcompound hf] at h
    cases h
    exact ⟨rfl, rfl⟩

theorem saveConclusion_eq_ok {rule : Rule} (h : saveConclusion rule s = .ok () t) :
    t.trace = s.trace ∧ t.context.cache = s.context.cache.learn rule.conclusion true :=
  learn_of_save (fun a ha => by rw [saveConclusion, ha])
    (fun hnone => by rw [saveConclusion, hnone]) h

theorem savePremise_eq_ok {rule : Rule} {value : Bool} (h : savePremise rule value s = .ok () t) :
    t.trace = s.trace ∧ t.context.cache = s.context.cache.learn rule.premise value :=
  learn_of_save (fun a ha => by rw [savePremise, ha])
    (fun hnone => by rw [savePremise, hnone]) h

section Atoms

variable {prove : Atom → SearchM Bool}
  (hprove : ∀ a s v t, prove a s = .ok v t → Settles kb (.goal (.atom a)) s v t)

include hprove

theorem settles_of_resolve {goal : Formula} (h : resolve prove goal s = .ok v t) :
    Settles kb (.goal goal) s v t := by
  induction goal generalizing s v t with
  | atom a =>
    rw [resolve_atom] at h
    exact hprove a s v t h
  | compound k left right ihl ihr =>
    rw [resolve_compound] at h
    obtain ⟨x, s₁, hleft, h⟩ := bind_eq_ok.mp h
    obtain ⟨y, s₂, hright, h⟩ := bind_eq_ok.mp h
    cases h
    obtain ⟨ts, hts, hx⟩ := ihl hleft
    obtain ⟨us, hus, hy⟩ := ihr hright
    exact ⟨ts ++ us, by rw [hus, hts, List.append_assoc], .compound hx hy⟩

/-- The premise of a rule is resolved on a level of its own, and leaves one node. -/
theorem premise_eq_ok {rule : Rule} {after : Bool → SearchM Bool}
    (h : (do
      let value ← below rule.text (resolve prove rule.premise)
      savePremise rule value
      after value : SearchM Bool) s = .ok v t) :
    ∃ value ts d u, Derives kb (.goal rule.premise) s.context.cache value ts d ∧
      u.trace.toList = s.trace.toList ++ [.settled rule.text value ts] ∧
      u.context.cache = d.learn rule.premise value ∧ after value u = .ok v t := by
  obtain ⟨value, s₁, hbelow, h⟩ := bind_eq_ok.mp h
  obtain ⟨_, u, hsave, h⟩ := bind_eq_ok.mp h
  obtain ⟨s₂, hpremise, hcontext, hnode⟩ := below_eq_ok hbelow
  obtain ⟨ts, hts, hderives⟩ := settles_of_resolve hprove hpremise
  obtain ⟨htrace, hcache⟩ := savePremise_eq_ok hsave
  have hts : s₂.trace.toList = ts := hts
  rw [hts] at hnode
  exact ⟨value, ts, s₂.context.cache, u, hderives, by rw [htrace, hnode],
    by rw [hcache, hcontext], h⟩

theorem settles_of_tryRules {a : Atom} {rules : List Rule}
    (h : tryRules prove a.symbol rules s = .ok v t) : Settles kb (.byRules a rules) s v t := by
  induction rules generalizing s v t with
  | nil =>
    cases h
    exact ⟨_, Array.toList_push, .exhausted⟩
  | cons rule rest ih =>
    rw [tryRules] at h
    obtain ⟨_, s₁, hnote, h⟩ := bind_eq_ok.mp h
    cases hnote
    by_cases hholds : rule.premise.evaluate = true
    · rw [if_pos hholds] at h
      obtain ⟨_, s₂, hrecord, h⟩ := bind_eq_ok.mp h
      cases hrecord
      obtain ⟨_, s₃, hsave, h⟩ := bind_eq_ok.mp h
      cases h
      obtain ⟨htrace, hcache⟩ := saveConclusion_eq_ok hsave
      refine ⟨[.leaf rule.text .proved], ?_, ?_⟩
      · rw [htrace]
        exact Array.toList_push
      · rw [hcache]
        exact .byFacts hholds
    · rw [if_neg hholds] at h
      obtain ⟨value, ts, d, u, hpremise, hnode, hcache, h⟩ := premise_eq_ok hprove h
      rw [Bool.not_eq_true] at hholds
      cases value with
      | true =>
        obtain ⟨_, s₂, hsave, h⟩ := bind_eq_ok.mp h
        cases h
        obtain ⟨htrace, hcache'⟩ := saveConclusion_eq_ok hsave
        refine ⟨[.settled rule.text true ts], by rw [htrace, hnode], ?_⟩
        rw [hcache', hcache]
        exact .proved hholds hpremise
      | false =>
        rw [if_neg Bool.false_ne_true] at h
        by_cases hatom : rule.premise.isAtom = true
        · rw [if_pos hatom] at h
          cases h
          refine ⟨[.settled rule.text false ts], hnode, ?_⟩
          rw [hcache]
          exact .committed hholds hatom hpremise
        · rw [if_neg hatom] at h
          rw [Bool.not_eq_true] at hatom
          obtain ⟨us, hus, hrest⟩ := ih h
          rw [hcache, Cache.learn_of_not_isAtom hatom] at hrest
          refine ⟨.settled rule.text false ts :: us, ?_, .next hholds hatom hpremise hrest⟩
          rw [hus, hnode, List.append_assoc]
          rfl

end Atoms

theorem settles_of_settleOr {a : Atom} {otherwise : SearchM Bool}
    (hotherwise : ∀ t, otherwise s = .ok v t →
      Settles kb (.byRules a (kb.rulesFor (.atom a))) s v t)
    (h : settleOr a otherwise s = .ok v t) : Settles kb (.goal (.atom a)) s v t := by
  cases hget : s.context.cache.get? a.symbol with
  | some w =>
    rw [settleOr_of_cached hget] at h
    cases h
    exact ⟨[.leaf a.text (.cached v)], Array.toList_push, .recalled hget⟩
  | none =>
    rw [settleOr_of_not_cached hget] at h
    cases hvalue : a.value with
    | true =>
      rw [hvalue] at h
      cases h
      exact ⟨[.leaf a.text .proved], Array.toList_push, .declared hget hvalue⟩
    | false =>
      rw [hvalue] at h
      obtain ⟨ts, hts, hderives⟩ := hotherwise t h
      exact ⟨ts, hts, .derived hget hvalue hderives⟩

theorem settles_of_proveBy {prove : Atom → SearchM Bool}
    (hprove : ∀ a s v t, prove a s = .ok v t → Settles kb (.goal (.atom a)) s v t) {a : Atom}
    (h : proveBy kb prove a s = .ok v t) : Settles kb (.goal (.atom a)) s v t := by
  refine settles_of_settleOr (fun u hgoal => ?_) h
  obtain ⟨c, w, hc, hbody, htrace, hcache⟩ := goal_eq_ok hgoal
  obtain ⟨ts, hts, hderives⟩ := settles_of_tryRules hprove hbody
  refine ⟨ts, by rw [htrace, hts], ?_⟩
  rw [hcache, ← hc]
  exact hderives

theorem settles_of_proveWithin (room : Nat) (a : Atom) (s : Search) (v : Bool) (t : Search)
    (h : proveWithin kb room a s = .ok v t) : Settles kb (.goal (.atom a)) s v t := by
  induction room generalizing a s v t with
  | zero =>
    refine settles_of_proveBy (fun b s v t hdeep => ?_) h
    cases hdeep
  | succ room ih => exact settles_of_proveBy ih h

/-- Every run that ends is a derivation. -/
theorem derives_of_resolveGoal {goal : Formula} (h : resolveGoal kb goal s = .ok v t) :
    ∃ ts, t.trace.toList = s.trace.toList ++ ts ∧
      Derives kb (.goal goal) s.context.cache v ts t.context.cache :=
  settles_of_resolve (settles_of_proveWithin s.context.room) h

end Derivation

end HornClause
