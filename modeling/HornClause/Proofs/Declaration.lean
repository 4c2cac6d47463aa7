/-
  HornClause.Proofs.Declaration

  How a knowledge base gathers its facts. The entries of facts are taken one after the
  other. Each puts its atom into the map, over whatever stood there, and its letter at
  the end of the list, but only if nothing stood there. So the two could come apart; that
  they do not is an invariant of the loop.

    * `Declares` — map and list after some letters: the map has exactly these, each as
      its own true atom, and the list has each once, where it first came up.
    * `Declares.declare` — what one entry does to it, and `Declares.foldl` what a whole
      run does, by induction over the entries.
    * `foldlM_declareEntry` — a run fails as the reading of all its entries does, and
      `readFact_eq_ok_iff` says what one entry is read as.
    * `factFor` — the look-up that a list of letters stands for. By `Declares.known_eq`
      the look-up in the map is that of the list.
-/
import HornClause.KnowledgeBase.Parse

/-! ## Chains of steps that may fail -/

namespace Except

variable {ε α β : Type}

theorem bind_eq_ok {x : Except ε α} {f : α → Except ε β} {b : β} :
    x >>= f = .ok b ↔ ∃ a, x = .ok a ∧ f a = .ok b := by
  cases x <;> simp [bind, Except.bind]

theorem mem_of_mapM_eq_ok {f : α → Except ε β} {xs : List α} {ys : List β} {y : β}
    (h : xs.mapM f = .ok ys) (hy : y ∈ ys) : ∃ x ∈ xs, f x = .ok y := by
  induction xs generalizing ys with
  | nil =>
    cases h
    cases hy
  | cons x xs ih =>
    rw [List.mapM_cons] at h
    obtain ⟨z, hz, h⟩ := bind_eq_ok.mp h
    obtain ⟨zs, hzs, h⟩ := bind_eq_ok.mp h
    cases h
    rcases List.mem_cons.mp hy with rfl | hy
    · exact ⟨x, List.mem_cons_self, hz⟩
    · obtain ⟨w, hw, hfw⟩ := ih hzs hy
      exact ⟨w, List.mem_cons_of_mem x hw, hfw⟩

theorem exists_ok_of_any {x : Except ε α} {p : α → Bool} (h : x.toOption.any p = true) :
    ∃ a, x = .ok a ∧ p a = true := by
  cases x with
  | error e => cases h
  | ok a => exact ⟨a, rfl, h⟩

/-- The reason for which a step failed, if it did. -/
def reason? : Except ε α → Option ε
  | .error e => some e
  | .ok _ => none

theorem eq_error_of_reason? {x : Except ε α} {e : ε} (h : x.reason? = some e) : x = .error e := by
  cases x with
  | error e' => exact congrArg Except.error (Option.some.inj h)
  | ok a => cases h

end Except

/-- Without repetitions, a list that grows by one element at its end grows if the element
    is new. -/
theorem List.eraseDups_concat {α : Type} [BEq α] [LawfulBEq α] [DecidableEq α] (xs : List α)
    (x : α) : (xs ++ [x]).eraseDups = if x ∈ xs then xs.eraseDups else xs.eraseDups ++ [x] := by
  rw [List.eraseDups_append]
  by_cases h : x ∈ xs
  · simp [List.removeAll, h]
  · simp [List.removeAll, h, List.eraseDups_cons]

namespace HornClause.KnowledgeBase

-- ============================================================================
-- Look-up in a list of letters
-- ============================================================================

/-- The true atom that each letter among some declared ones stands for. -/
def factFor (declared : List Letter) (c : Char) : Option Atom :=
  (Letter.ofChar? c).bind fun l => if l ∈ declared then some ⟨l, true⟩ else none

/-- Exactly the declared letters are known, and as true. -/
theorem factFor_eq_some_iff {declared : List Letter} {c : Char} {a : Atom} :
    factFor declared c = some a ↔ a.symbol = c ∧ a.letter ∈ declared ∧ a.value = true := by
  rcases a with ⟨l, v⟩
  simp only [factFor, Option.bind_eq_some_iff, Letter.ofChar?_eq_some_iff,
    Option.ite_none_right_eq_some, Option.some.injEq, Atom.mk.injEq, Atom.symbol]
  constructor
  · rintro ⟨k, rfl, hk, rfl, rfl⟩
    exact ⟨rfl, hk, rfl⟩
  · rintro ⟨rfl, hl, rfl⟩
    exact ⟨l, rfl, hl, rfl, rfl⟩

theorem factFor_char (declared : List Letter) (l : Letter) :
    factFor declared l.char = if l ∈ declared then some ⟨l, true⟩ else none := by
  rw [factFor, Letter.ofChar?_char, Option.bind_some]

-- ============================================================================
-- The entry of a fact
-- ============================================================================

theorem ofSymbol_eq_ok_iff {symbol : String} {l : Letter} :
    Letter.ofSymbol symbol = .ok l ↔ symbol.toList = [l.char] := by
  rw [Letter.ofSymbol]
  rcases symbol.toList with _ | ⟨c, _ | ⟨d, rest⟩⟩
  · simp
  · show Letter.ofChar c = .ok l ↔ _
    rw [Letter.ofChar, List.cons.injEq, eq_comm (b := l.char), ← Letter.ofChar?_eq_some_iff]
    cases Letter.ofChar? c <;> simp
  · simp

/-- A fact is read from its letter alone, and is true. -/
theorem readFact_eq_ok_iff {entry : List Char} {a : Atom} :
    readFact entry = .ok a ↔ [a.symbol] = entry ∧ a.value = true := by
  rw [readFact, Atom.ofSymbol]
  cases hletter : Letter.ofSymbol (String.ofList entry) with
  | error e =>
    have hnone : ∀ l : Letter, [l.char] ≠ entry := by
      rintro l rfl
      have hok := ofSymbol_eq_ok_iff.mpr (String.toList_ofList (l := [l.char]))
      rw [hletter] at hok
      cases hok
    simp [Except.map, hnone a.letter, Atom.symbol]
  | ok l =>
    have hl := ofSymbol_eq_ok_iff.mp hletter
    rw [String.toList_ofList] at hl
    subst hl
    constructor
    · intro h
      cases h
      exact ⟨rfl, rfl⟩
    · rintro ⟨hchar, htrue⟩
      rw [← Letter.ext (List.singleton_inj.mp hchar), ← htrue]
      rfl

-- ============================================================================
-- The loop over the entries of facts
-- ============================================================================

/-- Map and list are what comes of declaring some letters in turn. -/
structure Declares (letters : List Letter) (kb : KnowledgeBase) : Prop where
  get? : ∀ l, kb.facts.get? l = if l ∈ letters then some ⟨l, true⟩ else none
  declared : kb.declared = letters.eraseDups

variable {letters : List Letter} {kb base : KnowledgeBase}

theorem declares_nil : Declares [] {} := ⟨fun _ => rfl, rfl⟩

/-- One more true atom: under its letter stands the atom, whether or not it did before,
    and the list grows only if it did not. -/
theorem Declares.declare (h : Declares letters kb) {a : Atom} (ha : a.value = true) :
    Declares (letters ++ [a.letter]) (kb.declare a) := by
  have hself : a = ⟨a.letter, true⟩ := Atom.ext rfl ha
  constructor
  · intro l
    show (kb.facts.insert a.letter a).get? l = _
    rw [FactMap.get?_insert, h.get? l]
    by_cases hl : l = a.letter
    · rw [if_pos hl, if_pos (by simp [hl]), hl]
      exact congrArg some hself
    · simp [hl]
  · show (if (kb.facts.get? a.letter).isNone then kb.declared ++ [a.letter] else kb.declared) = _
    rw [List.eraseDups_concat, h.get? a.letter, h.declared]
    by_cases hmem : a.letter ∈ letters <;> simp [hmem]

/-- The whole loop, once the entries are read. -/
theorem Declares.foldl (h : Declares letters kb) {atoms : List Atom}
    (htrue : ∀ a ∈ atoms, a.value = true) :
    Declares (letters ++ atoms.map Atom.letter) (atoms.foldl KnowledgeBase.declare kb) := by
  induction atoms generalizing letters kb with
  | nil => simpa using h
  | cons a atoms ih =>
    have hstep := h.declare (htrue a List.mem_cons_self)
    have hrest := ih hstep fun b hb => htrue b (List.mem_cons_of_mem a hb)
    simpa using hrest

/-- To declare entries as they are read is to read them all and then to declare them. -/
theorem foldlM_declareEntry (kb : KnowledgeBase) (entries : List (List Char)) :
    entries.foldlM declareEntry kb = (do
      let atoms ← entries.mapM readFact
      return atoms.foldl declare kb) := by
  induction entries generalizing kb with
  | nil => rfl
  | cons entry entries ih =>
    rw [List.foldlM_cons, List.mapM_cons, declareEntry]
    cases readFact entry with
    | error e => rfl
    | ok a =>
      show entries.foldlM declareEntry (kb.declare a) = _
      rw [ih]
      cases entries.mapM readFact <;> rfl

/-- What is read from entries and declared, from the first to the last. -/
theorem declares_of_mapM {entries : List (List Char)} {atoms : List Atom}
    (h : entries.mapM readFact = .ok atoms) :
    Declares (atoms.map Atom.letter) (atoms.foldl declare {}) := by
  refine declares_nil.foldl fun a ha => ?_
  obtain ⟨entry, -, hentry⟩ := Except.mem_of_mapM_eq_ok h ha
  exact (readFact_eq_ok_iff.mp hentry).2

-- ============================================================================
-- Agreement of map and list
-- ============================================================================

/-- Whatever a character is known as is told by the list of what is declared. -/
theorem Declares.known_eq (h : Declares letters kb) : kb.known = factFor kb.declared := by
  funext c
  rw [known, factFor]
  refine congrArg _ (funext fun l => ?_)
  rw [h.get?, h.declared]
  simp only [List.mem_eraseDups]

-- Bases in which they do not agree exist, but are not what the loop makes.
example : ({ declared := [⟨'A', rfl⟩] } : KnowledgeBase).known 'A' = none := rfl

/-- Where map and list agree, an entry is a declared letter with its own true atom. -/
theorem mem_entries_iff (h : kb.known = factFor kb.declared) {l : Letter} {a : Atom} :
    (l, a) ∈ kb.facts.entries ↔ a.letter = l ∧ l ∈ kb.declared ∧ a.value = true := by
  rw [FactMap.mem_entries, ← known_char, h, factFor_eq_some_iff, Atom.symbol, ← Letter.ext_iff]
  exact and_congr_right fun hletter => by rw [hletter]

theorem mem_facts_iff (h : kb.known = factFor kb.declared) {a : Atom} :
    a ∈ kb.facts ↔ a.letter ∈ kb.declared ∧ a.value = true := by
  simp [FactMap.mem_iff, mem_entries_iff h]

/-- Bases in which the same is known have the same map. -/
theorem facts_eq_of_known_eq (h : kb.known = base.known) : kb.facts = base.facts := by
  refine FactMap.ext_get? fun l => ?_
  rw [← known_char, ← known_char, h]

end HornClause.KnowledgeBase
