/-
  HornClause.Proofs.Agreement

  What reading guarantees of the trees it makes. An atom carries a value of its
  own, which *agrees* with some declared letters if it is true exactly for them.
  Every atom that is read from text agrees, wherever its fact is declared, and
  both sides of every rule are conjunctions of such atoms.

  `KnowledgeBase.WellFormed` packages this with the agreement of the facts and the
  declared letters, and `wellFormed_of_parse` supplies it for every knowledge base
  that can be read. Everything proved about derivations rests on it and never looks
  at a text again.
-/
import Mathlib.Data.List.Infix
import HornClause.Proofs.Declaration

namespace HornClause

-- ============================================================================
-- Letters and atoms of a formula
-- ============================================================================

namespace Formula

/-- The atoms of a formula, from left to right. -/
def atoms : Formula → List Atom
  | .atom a => [a]
  | .compound _ left right => left.atoms ++ right.atoms

/-- The letters of a formula, from left to right. -/
def letters (f : Formula) : List Letter := f.atoms.map Atom.letter

/-- Whether a formula is an atom or built by conjunction alone. -/
def isConjunction : Formula → Bool
  | .atom _ => true
  | .compound .conjunction left right => left.isConjunction && right.isConjunction
  | .compound .implication _ _ => false

@[simp] theorem atoms_atom (a : Atom) : (atom a).atoms = [a] := rfl

@[simp] theorem atoms_compound (c : Connective) (left right : Formula) :
    (compound c left right).atoms = left.atoms ++ right.atoms := rfl

@[simp] theorem letters_atom (a : Atom) : (atom a).letters = [a.letter] := rfl

@[simp] theorem letters_compound (c : Connective) (left right : Formula) :
    (compound c left right).letters = left.letters ++ right.letters := by
  simp [letters]

theorem mem_letters {f : Formula} {l : Letter} : l ∈ f.letters ↔ ∃ a ∈ f.atoms, a.letter = l := by
  simp [letters]

theorem char_mem_chars {f : Formula} {l : Letter} : l.char ∈ f.chars ↔ l ∈ f.letters := by
  induction f with
  | atom a => simp [Atom.symbol, Letter.ext_iff]
  | compound c left right ihl ihr =>
    -- The arrow is not made of letters.
    have htoken : l.char ∉ c.token := by
      intro hmem
      have hupper := l.isUpper
      cases c with
      | conjunction => simp [Connective.token] at hmem
      | implication =>
        simp only [Connective.token, List.mem_cons, List.not_mem_nil, or_false] at hmem
        rcases hmem with h | h <;> rw [h] at hupper <;> exact absurd hupper (by decide)
    simp [htoken, ihl, ihr]

theorem asAtom?_eq_some_iff {f : Formula} {a : Atom} : f.asAtom? = some a ↔ f = .atom a := by
  cases f <;> simp [asAtom?]

end Formula

/-- The rules for an atom are those with its letter among the letters of their
    conclusion. -/
theorem KnowledgeBase.rulesFor_atom (kb : KnowledgeBase) (a : Atom) :
    kb.rulesFor (.atom a) = kb.rules.filter fun r => a.letter ∈ r.conclusion.letters := by
  refine List.filter_congr fun r _ => ?_
  rw [Bool.eq_iff_iff, Rule.concludes_iff, Formula.toList_text, Formula.chars_atom,
    List.singleton_infix_iff, Atom.symbol, Formula.char_mem_chars, decide_eq_true_iff]

theorem KnowledgeBase.mem_rulesFor_atom {kb : KnowledgeBase} {a : Atom} {r : Rule} :
    r ∈ kb.rulesFor (.atom a) ↔ r ∈ kb.rules ∧ a.letter ∈ r.conclusion.letters := by
  rw [rulesFor_atom, List.mem_filter, decide_eq_true_iff]

-- ============================================================================
-- Agreement with the declared facts
-- ============================================================================

/-- An atom agrees with some declared letters if its value tells whether its letter
    is one of them. -/
def Atom.AgreesWith (declared : List Letter) (a : Atom) : Prop :=
  a.value = true ↔ a.letter ∈ declared

theorem Atom.AgreesWith.not_mem {declared : List Letter} {a : Atom} (ha : a.AgreesWith declared)
    (hfalse : a.value = false) : a.letter ∉ declared := by
  intro hmem
  rw [ha.mpr hmem] at hfalse
  cases hfalse

/-- A formula agrees with some declared letters if all its atoms do. -/
def Formula.AgreesWith (declared : List Letter) (f : Formula) : Prop :=
  ∀ a ∈ f.atoms, a.AgreesWith declared

namespace Formula

variable {declared : List Letter}

theorem agreesWith_atom {a : Atom} : (atom a).AgreesWith declared ↔ a.AgreesWith declared := by
  simp [AgreesWith]

theorem agreesWith_compound {c : Connective} {left right : Formula} :
    (compound c left right).AgreesWith declared ↔
      left.AgreesWith declared ∧ right.AgreesWith declared := by
  simp only [AgreesWith, atoms_compound, List.forall_mem_append]

/-- A conjunction holds by the facts alone exactly if all its letters are declared. -/
theorem evaluate_eq_true_iff {f : Formula} (hconj : f.isConjunction = true)
    (hagrees : f.AgreesWith declared) : f.evaluate = true ↔ ∀ l ∈ f.letters, l ∈ declared := by
  induction f with
  | atom a => exact (agreesWith_atom.mp hagrees).trans List.forall_mem_singleton.symm
  | compound c left right ihl ihr =>
    cases c with
    | implication => cases hconj
    | conjunction =>
      obtain ⟨hleft, hright⟩ := Bool.and_eq_true_iff.mp hconj
      obtain ⟨hagreesl, hagreesr⟩ := agreesWith_compound.mp hagrees
      rw [evaluate_compound, Connective.apply, Bool.and_eq_true, ihl hleft hagreesl,
        ihr hright hagreesr, letters_compound, List.forall_mem_append]

theorem readAtom_agrees {c : Char} {a : Atom}
    (h : readAtom (KnowledgeBase.factFor declared) c = .ok a) : a.AgreesWith declared := by
  rw [readAtom] at h
  split at h
  · rename_i b hb
    cases h
    obtain ⟨-, hmem, hvalue⟩ := KnowledgeBase.factFor_eq_some_iff.mp hb
    exact iff_of_true hvalue hmem
  · rename_i hnone
    rw [Atom.ofChar, Letter.ofChar] at h
    split at h
    · rename_i l hl
      cases h
      -- A declared letter would have been known, so this one is not declared.
      refine iff_of_false Bool.false_ne_true fun hmem => ?_
      have hknown : KnowledgeBase.factFor declared c = some ⟨l, true⟩ :=
        KnowledgeBase.factFor_eq_some_iff.mpr ⟨Letter.ofChar?_eq_some_iff.mp hl, hmem, rfl⟩
      rw [hnone] at hknown
      cases hknown
    · cases h

theorem atoms_conjoin (first : Atom) (others : List Atom) :
    (conjoin first others).atoms = first :: others := by
  -- The fold starts from any formula, because its first operand grows.
  have hfold : ∀ (f : Formula) (rest : List Atom),
      (rest.foldl (fun g a => .compound .conjunction g (.atom a)) f).atoms = f.atoms ++ rest := by
    intro f rest
    induction rest generalizing f with
    | nil => simp
    | cons a rest ih => simp [ih]
  exact hfold (.atom first) others

theorem isConjunction_conjoin (first : Atom) (others : List Atom) :
    (conjoin first others).isConjunction = true := by
  have hfold : ∀ (f : Formula) (rest : List Atom), f.isConjunction = true →
      (rest.foldl (fun g a => .compound .conjunction g (.atom a)) f).isConjunction = true := by
    intro f rest hf
    induction rest generalizing f with
    | nil => exact hf
    | cons a rest ih => exact ih _ (by simp [isConjunction, hf])
  exact hfold (.atom first) others rfl

theorem readConjunction_agrees {chars : List Char} {f : Formula}
    (h : readConjunction (KnowledgeBase.factFor declared) chars = .ok f) :
    f.isConjunction = true ∧ f.AgreesWith declared := by
  cases chars with
  | nil => cases h
  | cons c rest =>
    simp only [readConjunction] at h
    obtain ⟨first, hfirst, h⟩ := Except.bind_eq_ok.mp h
    obtain ⟨others, hothers, h⟩ := Except.bind_eq_ok.mp h
    cases h
    refine ⟨isConjunction_conjoin first others, fun a ha => ?_⟩
    rw [atoms_conjoin, List.mem_cons] at ha
    rcases ha with rfl | ha
    · exact readAtom_agrees hfirst
    · obtain ⟨d, -, hd⟩ := Except.mem_of_mapM_eq_ok hothers ha
      exact readAtom_agrees hd

/-- The shapes of what is read: a conjunction from a text without an arrow, and an
    implication between two conjunctions from any other. -/
theorem parse_agrees {reading : Reading} {text : String} {f : Formula}
    (h : parse (KnowledgeBase.factFor declared) reading text = .ok f) :
    f.AgreesWith declared ∧
      (f.isConjunction = true ∨ ∃ left right, f = .compound .implication left right ∧
        left.isConjunction = true ∧ right.isConjunction = true) := by
  rw [parse] at h
  split at h
  · obtain ⟨g, hg, h⟩ := Except.bind_eq_ok.mp h
    split at h
    · cases h
    · cases h
      obtain ⟨hconj, hagrees⟩ := readConjunction_agrees hg
      exact ⟨hagrees, Or.inl hconj⟩
  · split at h
    · cases h
    · obtain ⟨left, hleft, h⟩ := Except.bind_eq_ok.mp h
      obtain ⟨right, hright, h⟩ := Except.bind_eq_ok.mp h
      cases h
      obtain ⟨hcl, hal⟩ := readConjunction_agrees hleft
      obtain ⟨hcr, har⟩ := readConjunction_agrees hright
      exact ⟨agreesWith_compound.mpr ⟨hal, har⟩, Or.inr ⟨left, right, rfl, hcl, hcr⟩⟩
  · cases h

/-- A text that can be read as an entry reads the same as a query. -/
theorem parse_query_of_parse {known : Char → Option Atom} {reading : Reading} {text : String}
    {f : Formula} (h : parse known reading text = .ok f) : parse known .query text = .ok f := by
  rw [parse] at h ⊢
  split at h
  · obtain ⟨g, hg, h⟩ := Except.bind_eq_ok.mp h
    split at h
    · cases h
    · cases h
      simp [*, bind, Except.bind, pure, Except.pure]
  · assumption
  · cases h

theorem readAtom_letter {a : Atom} (ha : a.AgreesWith declared) :
    readAtom (KnowledgeBase.factFor declared) a.letter.char = .ok a := by
  cases hvalue : a.value with
  | true =>
    have hknown : KnowledgeBase.factFor declared a.letter.char = some a :=
      KnowledgeBase.factFor_eq_some_iff.mpr ⟨rfl, ha.mp hvalue, hvalue⟩
    rw [readAtom, hknown]
  | false =>
    have hknown : KnowledgeBase.factFor declared a.letter.char = none := by
      rw [KnowledgeBase.factFor_char, if_neg (ha.not_mem hvalue)]
    have hatom : a = ⟨a.letter, false⟩ := Atom.ext rfl hvalue
    rw [readAtom, hknown, hatom]
    simp [Atom.ofChar, Letter.ofChar, Except.map]

/-- The text of a letter reads as the one atom of the letter that agrees with the
    declared facts. -/
theorem parse_letter {a : Atom} (ha : a.AgreesWith declared) :
    parse (KnowledgeBase.factFor declared) .query a.letter.text = .ok (.atom a) := by
  have hparts : Text.arrowParts a.letter.text.toList = [[a.letter.char]] := by
    have hchars : a.letter.text.toList = [a.letter.char] := by simp [Letter.text]
    rw [hchars, Text.arrowParts_cons (by simp)]
    simp
  rw [parse, hparts]
  simp [readConjunction, readAtom_letter ha, conjoin, bind, Except.bind, pure, Except.pure]

end Formula

-- ============================================================================
-- Well-formed knowledge bases
-- ============================================================================

/-- A rule joins two conjunctions that agree with the declared facts. -/
structure Rule.WellFormed (declared : List Letter) (r : Rule) : Prop where
  premise_conjunction : r.premise.isConjunction = true
  conclusion_conjunction : r.conclusion.isConjunction = true
  premise_agrees : r.premise.AgreesWith declared
  conclusion_agrees : r.conclusion.AgreesWith declared

namespace KnowledgeBase

/-- A knowledge base is well-formed if what is known in it is what is declared, and all
    its rules are well-formed for that. -/
structure WellFormed (kb : KnowledgeBase) : Prop where
  known_eq : kb.known = factFor kb.declared
  rules : ∀ r ∈ kb.rules, r.WellFormed kb.declared

theorem readRule_wellFormed {declared : List Letter} {entry : List Char} {r : Rule}
    (h : readRule (factFor declared) entry = .ok r) : r.WellFormed declared := by
  obtain ⟨f, hf, h⟩ := Except.bind_eq_ok.mp h
  obtain ⟨hagrees, hshape⟩ := Formula.parse_agrees hf
  rw [Rule.ofFormula.eq_def] at h
  split at h
  · rename_i premise conclusion
    cases h
    obtain ⟨hpremise, hconclusion⟩ := Formula.agreesWith_compound.mp hagrees
    rcases hshape with hconj | ⟨left, right, heq, hleft, hright⟩
    · cases hconj
    · cases heq
      exact ⟨hleft, hright, hpremise, hconclusion⟩
  · cases h

/-- Every knowledge base that can be read is well-formed: its rules are read after
    all of its facts. -/
theorem wellFormed_of_parse {text : String} {kb : KnowledgeBase} (h : parse text = .ok kb) :
    kb.WellFormed := by
  rw [parse] at h
  split at h
  · cases h
  · obtain ⟨base, hbase, h⟩ := Except.bind_eq_ok.mp h
    obtain ⟨rules, hrules, h⟩ := Except.bind_eq_ok.mp h
    cases h
    rw [foldlM_declareEntry] at hbase
    obtain ⟨atoms, hatoms, hbase⟩ := Except.bind_eq_ok.mp hbase
    cases hbase
    have hknown := (declares_of_mapM hatoms).known_eq
    refine ⟨hknown, fun r hr => ?_⟩
    obtain ⟨entry, -, hentry⟩ := Except.mem_of_mapM_eq_ok hrules hr
    rw [hknown] at hentry
    exact readRule_wellFormed hentry

namespace WellFormed

variable {kb : KnowledgeBase}

/-- What is read against a well-formed base agrees with its facts. -/
theorem agreesWith (hkb : kb.WellFormed) {reading : Formula.Reading} {text : String}
    {f : Formula} (h : Formula.parse kb.known reading text = .ok f) :
    f.AgreesWith kb.declared := by
  rw [hkb.known_eq] at h
  exact (Formula.parse_agrees h).1

theorem isConjunction_or (hkb : kb.WellFormed) {reading : Formula.Reading} {text : String}
    {f : Formula} (h : Formula.parse kb.known reading text = .ok f) :
    f.isConjunction = true ∨ ∃ left right, f = .compound .implication left right := by
  rw [hkb.known_eq] at h
  refine (Formula.parse_agrees h).2.imp_right ?_
  rintro ⟨left, right, hf, -, -⟩
  exact ⟨left, right, hf⟩

theorem parse_letter (hkb : kb.WellFormed) {a : Atom} (ha : a.AgreesWith kb.declared) :
    Formula.parse kb.known .query a.letter.text = .ok (.atom a) := by
  rw [hkb.known_eq]
  exact Formula.parse_letter ha

end WellFormed

end KnowledgeBase

end HornClause
