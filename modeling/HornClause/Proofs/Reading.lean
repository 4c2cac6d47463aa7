/-
  HornClause.Proofs.Reading

  What reading makes of a text, over all texts. A text is refused for one reason only, and
  which one it is follows an order: that it is empty, that its arrow is missing a side or
  is not the only one, that a character is no letter, and last, for an entry of a knowledge
  base, that it is a bare conjunction. What is not refused is read, and what is read is
  written as the very text it was read from.

    * `Text.arrowParts_of_no_arrow`, `Text.arrowParts_of_one_arrow`,
      `Text.two_lt_length_arrowParts_iff` — the parts of a text by the arrows that occur
      in it.
    * `Formula.Refused` — the reasons, one constructor each.
    * `Formula.parse_verdict` — reading fails for just these reasons, and otherwise
      succeeds.
    * `Formula.parse_inverts_text` — reading and writing undo each other.
-/
import HornClause.Proofs.Grammar

namespace HornClause

-- ============================================================================
-- Arrows that occur in a text
-- ============================================================================

namespace Text

/-- There is an arrow, and another one after it. -/
def SeveralArrows (chars : List Char) : Prop :=
  ∃ before between after, chars = before ++ '=' :: '>' :: (between ++ '=' :: '>' :: after)

/-- The first character that is no uppercase letter. -/
def firstNonLetter? (chars : List Char) : Option Char := chars.find? fun c => !c.isUpper

variable {chars premise conclusion : List Char}

theorem arrow_infix_iff :
    ['=', '>'] <:+: chars ↔ ∃ premise conclusion, chars = premise ++ '=' :: '>' :: conclusion := by
  refine exists₂_congr fun premise conclusion => ?_
  rw [List.append_assoc, eq_comm]
  rfl

/-- A text without an arrow is its only part. -/
theorem arrowParts_of_no_arrow (h : ¬ ['=', '>'] <:+: chars) : arrowParts chars = [chars] := by
  obtain ⟨part, parts, hparts⟩ := List.exists_cons_of_ne_nil (arrowParts_ne_nil chars)
  cases parts with
  | nil => rw [hparts, ← eq_of_arrowParts_one hparts]
  | cons second parts =>
    refine absurd (arrow_infix_iff.mpr ⟨part, ['=', '>'].intercalate (second :: parts), ?_⟩) h
    rw [← intercalate_arrowParts chars, hparts, List.intercalate_cons_cons, List.append_assoc]
    rfl

/-- Where there is one arrow only, the parts of the text are the two sides of it. -/
theorem arrowParts_of_one_arrow (h : ¬ SeveralArrows (premise ++ '=' :: '>' :: conclusion)) :
    arrowParts (premise ++ '=' :: '>' :: conclusion) = [premise, conclusion] := by
  have hpremise : ¬ ['=', '>'] <:+: premise := by
    intro harrow
    obtain ⟨before, between, rfl⟩ := arrow_infix_iff.mp harrow
    exact h ⟨before, between, conclusion, by simp⟩
  have hconclusion : ¬ ['=', '>'] <:+: conclusion := by
    intro harrow
    obtain ⟨between, after, rfl⟩ := arrow_infix_iff.mp harrow
    exact h ⟨premise, between, after, rfl⟩
  rw [arrowParts_append, arrowParts_of_no_arrow hpremise, arrowParts_of_no_arrow hconclusion]
  rfl

/-- There are three parts or more exactly where there are several arrows. -/
theorem two_lt_length_arrowParts_iff : 2 < (arrowParts chars).length ↔ SeveralArrows chars := by
  constructor
  · intro hlength
    by_contra hseveral
    by_cases harrow : ['=', '>'] <:+: chars
    · obtain ⟨premise, conclusion, rfl⟩ := arrow_infix_iff.mp harrow
      rw [arrowParts_of_one_arrow hseveral] at hlength
      exact absurd hlength (by simp)
    · rw [arrowParts_of_no_arrow harrow] at hlength
      exact absurd hlength (by simp)
  · rintro ⟨before, between, after, rfl⟩
    have hpos : ∀ part, 0 < (arrowParts part).length :=
      fun part => List.length_pos_of_ne_nil (arrowParts_ne_nil part)
    have hbefore := hpos before
    have hbetween := hpos between
    have hafter := hpos after
    rw [arrowParts_append, arrowParts_append, List.length_append, List.length_append]
    omega

instance (chars : List Char) : Decidable (SeveralArrows chars) :=
  decidable_of_iff (2 < (arrowParts chars).length) two_lt_length_arrowParts_iff

theorem isWord_iff : IsWord chars ↔ chars ≠ [] ∧ firstNonLetter? chars = none := by
  simp [IsWord, firstNonLetter?]

end Text

namespace Formula

variable {known : Char → Option Atom} {reading : Reading} {text : String}

-- ============================================================================
-- Why a text is refused
-- ============================================================================

/-- A text is refused for a reason. A text with an arrow is refused for the arrow before any
    of its characters is looked at, then for the first character of the premise that is no
    letter, and then for that of the conclusion. A text without an arrow is refused for a
    character before it is refused as an entry. -/
inductive Refused (reading : Reading) (text : String) : ParseError → Prop where
  | empty (htext : text = "") : Refused reading text .empty
  | badImplication {premise conclusion : List Char}
      (htext : text.toList = premise ++ '=' :: '>' :: conclusion)
      (hsides : Text.SeveralArrows text.toList ∨ premise = [] ∨ conclusion = []) :
      Refused reading text (.badImplication text)
  | badSide {premise conclusion : List Char} {c : Char}
      (htext : text.toList = premise ++ '=' :: '>' :: conclusion)
      (hsides : ¬ (Text.SeveralArrows text.toList ∨ premise = [] ∨ conclusion = []))
      (hfirst : (Text.firstNonLetter? premise).or (Text.firstNonLetter? conclusion) = some c) :
      Refused reading text (.badSymbol (String.singleton c))
  | badLetter {c : Char} (harrow : ¬ ['=', '>'] <:+: text.toList)
      (hfirst : Text.firstNonLetter? text.toList = some c) :
      Refused reading text (.badSymbol (String.singleton c))
  | bareConjunction (harrow : ¬ ['=', '>'] <:+: text.toList)
      (hletters : Text.firstNonLetter? text.toList = none) (hreading : reading = .entry)
      (hlength : 1 < text.toList.length) : Refused reading text (.bareConjunction text)

theorem readConjunction_of_nonLetter (hknown : Faithful known) {chars : List Char} {c : Char}
    (h : Text.firstNonLetter? chars = some c) :
    readConjunction known chars = .error (.badSymbol (String.singleton c)) := by
  have hfails : ¬ ∃ f, readConjunction known chars = .ok f := by
    rw [exists_readConjunction_iff hknown, Text.isWord_iff, h]
    exact fun hword => Option.some_ne_none c hword.2
  obtain ⟨e, he⟩ := Except.exists_error_of_not_ok hfails
  rcases readConjunction_eq_error hknown he with ⟨rfl, -⟩ | ⟨d, hd, rfl⟩
  · cases h
  · rw [he, Option.some.inj (hd.symm.trans h)]

theorem exists_readConjunction_of_letters (hknown : Faithful known) {chars : List Char}
    (hne : chars ≠ []) (h : Text.firstNonLetter? chars = none) :
    ∃ f, readConjunction known chars = .ok f :=
  (exists_readConjunction_iff hknown).mpr (Text.isWord_iff.mpr ⟨hne, h⟩)

theorem parse_of_several_arrows (h : Text.SeveralArrows text.toList) :
    parse known reading text = .error (.badImplication text) := by
  have hlength := Text.two_lt_length_arrowParts_iff.mpr h
  rw [parse]
  split
  · rename_i hparts
    rw [hparts] at hlength
    exact absurd hlength (by simp)
  · rename_i hparts
    rw [hparts] at hlength
    exact absurd hlength (by simp)
  · rfl

/-- Between two sides that are not empty, the premise is read first. -/
theorem parse_of_one_arrow {premise conclusion : List Char}
    (htext : text.toList = premise ++ '=' :: '>' :: conclusion)
    (hsides : ¬ (Text.SeveralArrows text.toList ∨ premise = [] ∨ conclusion = [])) :
    parse known reading text =
      (readConjunction known premise >>= fun left =>
        readConjunction known conclusion >>= fun right =>
          .ok (.compound .implication left right)) := by
  rw [htext, not_or, not_or] at hsides
  obtain ⟨hone, hpremise, hconclusion⟩ := hsides
  rw [parse, htext, Text.arrowParts_of_one_arrow hone]
  exact if_neg (by simp [hpremise, hconclusion])

theorem parse_of_no_arrow (harrow : ¬ ['=', '>'] <:+: text.toList) :
    parse known reading text =
      (readConjunction known text.toList >>= fun f =>
        if reading = .entry ∧ text.toList.length > 1 then .error (.bareConjunction text)
        else .ok f) := by
  rw [parse, Text.arrowParts_of_no_arrow harrow]
  rfl

/-- Every reason is one for which reading fails. -/
theorem parse_of_refused (hknown : Faithful known) {e : ParseError} (h : Refused reading text e) :
    parse known reading text = .error e := by
  cases h with
  | empty htext =>
    rw [htext]
    rfl
  | badImplication htext hsides =>
    by_cases hseveral : Text.SeveralArrows text.toList
    · exact parse_of_several_arrows hseveral
    · rw [parse, htext, Text.arrowParts_of_one_arrow (htext ▸ hseveral)]
      refine if_pos ?_
      simpa using hsides.resolve_left hseveral
  | @badSide premise conclusion c htext hsides hfirst =>
    rw [parse_of_one_arrow htext hsides]
    rcases Option.or_eq_some_iff.mp hfirst with hpremise | ⟨hletters, hconclusion⟩
    · rw [readConjunction_of_nonLetter hknown hpremise]
      rfl
    · rw [not_or, not_or] at hsides
      obtain ⟨left, hleft⟩ := exists_readConjunction_of_letters hknown hsides.2.1 hletters
      rw [hleft, readConjunction_of_nonLetter hknown hconclusion]
      rfl
  | badLetter harrow hfirst =>
    rw [parse_of_no_arrow harrow, readConjunction_of_nonLetter hknown hfirst]
    rfl
  | bareConjunction harrow hletters hreading hlength =>
    have hne := List.ne_nil_of_length_pos (by omega : 0 < text.toList.length)
    obtain ⟨f, hf⟩ := exists_readConjunction_of_letters hknown hne hletters
    rw [parse_of_no_arrow harrow, hf]
    exact if_pos ⟨hreading, hlength⟩

/-- A text that can be read: two words with an arrow between them, or one word, which for an
    entry has a single letter. -/
def Accepted (reading : Reading) (text : String) : Prop :=
  Text.IsImplication text.toList ∨
    Text.IsWord text.toList ∧ (reading = .entry → text.toList.length = 1)

theorem accepted_or_refused (reading : Reading) (text : String) :
    Accepted reading text ∨ ∃ e, Refused reading text e := by
  by_cases harrow : ['=', '>'] <:+: text.toList
  · obtain ⟨premise, conclusion, htext⟩ := Text.arrow_infix_iff.mp harrow
    by_cases hsides : Text.SeveralArrows text.toList ∨ premise = [] ∨ conclusion = []
    · exact Or.inr ⟨_, .badImplication htext hsides⟩
    · cases hfirst : (Text.firstNonLetter? premise).or (Text.firstNonLetter? conclusion) with
      | some c => exact Or.inr ⟨_, .badSide htext hsides hfirst⟩
      | none =>
        rw [not_or, not_or] at hsides
        obtain ⟨hpremise, hconclusion⟩ := Option.or_eq_none_iff.mp hfirst
        exact Or.inl (Or.inl ⟨premise, conclusion, Text.isWord_iff.mpr ⟨hsides.2.1, hpremise⟩,
          Text.isWord_iff.mpr ⟨hsides.2.2, hconclusion⟩, htext⟩)
  · cases hfirst : Text.firstNonLetter? text.toList with
    | some c => exact Or.inr ⟨_, .badLetter harrow hfirst⟩
    | none =>
      by_cases hne : text.toList = []
      · exact Or.inr ⟨_, .empty (String.toList_eq_nil_iff.mp hne)⟩
      · by_cases hbare : reading = .entry ∧ 1 < text.toList.length
        · exact Or.inr ⟨_, .bareConjunction harrow hfirst hbare.1 hbare.2⟩
        · refine Or.inl (Or.inr ⟨Text.isWord_iff.mpr ⟨hne, hfirst⟩, fun hreading => ?_⟩)
          have hpos := List.length_pos_of_ne_nil hne
          have hshort : ¬ 1 < text.toList.length := fun h => hbare ⟨hreading, h⟩
          omega

theorem exists_parse_of_accepted (hknown : Faithful known) (h : Accepted reading text) :
    ∃ f, parse known reading text = .ok f := by
  rcases h with himplication | ⟨hword, hentry⟩
  · obtain ⟨premise, conclusion, hparts, hp, hc⟩ := Text.isImplication_iff.mp himplication
    obtain ⟨left, hleft⟩ := (exists_readConjunction_iff hknown).mpr hp
    obtain ⟨right, hright⟩ := (exists_readConjunction_iff hknown).mpr hc
    obtain ⟨hnestedl, hcharsl, hl⟩ := (readConjunction_eq_ok_iff hknown).mp hleft
    obtain ⟨hnestedr, hcharsr, hr⟩ := (readConjunction_eq_ok_iff hknown).mp hright
    refine ⟨.compound .implication left right, (parse_eq_ok_iff hknown).mpr
      ⟨?_, knownBy_compound.mpr ⟨hl, hr⟩, .implication hnestedl hnestedr⟩⟩
    rw [chars_implication, hcharsl, hcharsr, Text.eq_of_arrowParts_two hparts]
  · obtain ⟨f, hf⟩ := (exists_readConjunction_iff hknown).mpr hword
    obtain ⟨hnested, hchars, hf⟩ := (readConjunction_eq_ok_iff hknown).mp hf
    refine ⟨f, (parse_eq_ok_iff hknown).mpr ⟨hchars, hf, .conjunction hnested fun hreading => ?_⟩⟩
    have hone := hentry hreading
    rw [hnested.isAtom_iff, hchars]
    omega

/-- Reading fails for the reasons for which a text is refused and for no others. -/
theorem parse_eq_error_iff (hknown : Faithful known) {e : ParseError} :
    parse known reading text = .error e ↔ Refused reading text e := by
  refine ⟨fun he => ?_, parse_of_refused hknown⟩
  rcases accepted_or_refused reading text with haccepted | ⟨e', he'⟩
  · obtain ⟨f, hf⟩ := exists_parse_of_accepted hknown haccepted
    rw [hf] at he
    cases he
  · have hsame := (parse_of_refused hknown he').symm.trans he
    cases hsame
    exact he'

/-- Reading fails for the reasons for which a text is refused and for no others, so it never
    asks for a rule or for a knowledge base; every other text is read. -/
theorem parse_verdict (hknown : Faithful known) (reading : Reading) (text : String) :
    (∀ e, parse known reading text = .error e ↔ Refused reading text e) ∧
    ((∃ f, parse known reading text = .ok f) ↔ Accepted reading text) ∧
    parse known reading text ≠ .error .emptyBase ∧
    ∀ rule, parse known reading text ≠ .error (.notARule rule) := by
  refine ⟨fun e => parse_eq_error_iff hknown, ⟨?_, exists_parse_of_accepted hknown⟩, ?_, ?_⟩
  · rintro ⟨f, hf⟩
    refine (accepted_or_refused reading text).resolve_right ?_
    rintro ⟨e, he⟩
    rw [parse_of_refused hknown he] at hf
    cases hf
  · intro h
    cases (parse_eq_error_iff hknown).mp h
  · intro rule h
    cases (parse_eq_error_iff hknown).mp h

/-- Two equals signs before one arrow; an arrow without a premise, and one arrow too many,
    both before a character that is no letter; a character on either side of an arrow; and
    three entries that are no implications. -/
theorem parse_verdict_samples :
    ∃ known, Faithful known ∧ known 'A' = some ⟨⟨'A', rfl⟩, true⟩ ∧
      parse known .query "A==>B" = .error (.badSymbol "=") ∧
      parse known .entry "=>a" = .error (.badImplication "=>a") ∧
      parse known .query "A=>b=>" = .error (.badImplication "A=>b=>") ∧
      parse known .entry "Ab=>c" = .error (.badSymbol "b") ∧
      parse known .entry "AB1" = .error (.badSymbol "1") ∧
      parse known .entry "AB" = .error (.bareConjunction "AB") ∧
      ∃ f, parse known .query "AB" = .ok f := by
  have hknown := KnowledgeBase.faithful_factFor [⟨'A', rfl⟩]
  have hrefused := fun reading text e => ((parse_verdict hknown reading text).1 e).mpr
  refine ⟨_, hknown, by decide +kernel, ?_, ?_, ?_, ?_, ?_, ?_, ?_⟩
  · have htext : "A==>B".toList = ['A', '='] ++ '=' :: '>' :: ['B'] := rfl
    exact hrefused _ _ _ (.badSide (c := '=') htext (by decide) rfl)
  · have htext : "=>a".toList = [] ++ '=' :: '>' :: ['a'] := rfl
    exact hrefused _ _ _ (.badImplication htext (Or.inr (Or.inl rfl)))
  · have htext : "A=>b=>".toList = ['A'] ++ '=' :: '>' :: ['b', '=', '>'] := rfl
    exact hrefused _ _ _ (.badImplication htext (Or.inl (by decide)))
  · have htext : "Ab=>c".toList = ['A', 'b'] ++ '=' :: '>' :: ['c'] := rfl
    exact hrefused _ _ _ (.badSide (c := 'b') htext (by decide) rfl)
  · exact hrefused _ _ _ (.badLetter (c := '1') (by decide) rfl)
  · exact hrefused _ _ _ (.bareConjunction (by decide) rfl rfl (by decide))
  · exact (parse_verdict hknown .query "AB").2.1.mpr (Or.inr ⟨by decide, nofun⟩)

-- ============================================================================
-- Writing and reading again
-- ============================================================================

/-- An atom is as its letter is read if it is what the letter is known as, or if the letter
    is not known and the atom is false. -/
theorem knownBy_iff {f : Formula} :
    f.KnownBy known ↔
      ∀ a ∈ f.atoms, known a.symbol = some a ∨ known a.symbol = none ∧ a.value = false := by
  refine forall₂_congr fun a _ => ?_
  show (known a.symbol).getD ⟨a.letter, false⟩ = a ↔ _
  cases known a.symbol with
  | some b => simp
  | none =>
    rw [Option.getD_none, Atom.ext_iff]
    constructor
    · rintro ⟨-, hvalue⟩
      exact Or.inr ⟨rfl, hvalue.symm⟩
    · rintro (h | ⟨-, hvalue⟩)
      · cases h
      · exact ⟨rfl, hvalue.symm⟩

/-- What can be read, and is as it is known, is read from its own text. -/
theorem parse_text (hknown : Faithful known) {f : Formula} (hreadable : f.Readable reading)
    (hf : f.KnownBy known) : parse known reading f.text = .ok f :=
  (parse_eq_ok_iff hknown).mpr ⟨(toList_text f).symm, hf, hreadable⟩

/-- Reading and writing undo each other. What is read has the text it was read from; an
    atom, a conjunction of atoms on a spine to the left, and an implication between two of
    these are read from their text, if their atoms are as they are known; so no two
    formulas that are read have the same text. -/
theorem parse_inverts_text (hknown : Faithful known) :
    (∀ reading text f, parse known reading text = .ok f → f.text = text) ∧
    (∀ f : Formula,
      (f.LeftSpine ∨ ∃ left right, f = .compound .implication left right ∧
        left.LeftSpine ∧ right.LeftSpine) →
      (∀ a ∈ f.atoms, known a.symbol = some a ∨ known a.symbol = none ∧ a.value = false) →
      parse known .query f.text = .ok f) ∧
    ∀ reading reading' text text' f g, parse known reading text = .ok f →
      parse known reading' text' = .ok g → f.text = g.text → f = g := by
  have hwritten : ∀ reading text f, parse known reading text = .ok f → f.text = text := by
    intro reading text f h
    obtain ⟨hchars, -, -⟩ := (parse_eq_ok_iff hknown).mp h
    exact String.toList_inj.mp ((toList_text f).trans hchars)
  refine ⟨hwritten, ?_, ?_⟩
  · intro f hshape hatoms
    refine parse_text hknown ?_ (knownBy_iff.mpr hatoms)
    rcases hshape with hspine | ⟨left, right, rfl, hleft, hright⟩
    · exact .conjunction hspine.leftNested nofun
    · exact .implication hleft.leftNested hright.leftNested
  · intro reading reading' text text' f g hf hg htext
    rw [hwritten _ _ _ hf, hwritten _ _ _ hg] at htext
    subst htext
    -- As queries both are read from the one text, whatever they were read for.
    have hsame := (parse_query_of_parse hf).symm.trans (parse_query_of_parse hg)
    exact Except.ok.inj hsame

/-- Where `A` is a fact, an implication with true and false atoms is read from its text, and
    nothing else is read from any text that has it. -/
theorem parse_inverts_text_sample :
    ∃ known f, Faithful known ∧ f.text = "BA=>B" ∧
      f.atoms.map Atom.value = [false, true, false] ∧ parse known .query "BA=>B" = .ok f ∧
      ∀ reading text g, parse known reading text = .ok g → text = "BA=>B" → g = f := by
  have hknown := KnowledgeBase.faithful_factFor [⟨'A', rfl⟩]
  obtain ⟨hwritten, hread, hinj⟩ := parse_inverts_text hknown
  let a : Atom := ⟨⟨'A', rfl⟩, true⟩
  let b : Atom := ⟨⟨'B', rfl⟩, false⟩
  let f : Formula := .compound .implication (.compound .conjunction (.atom b) (.atom a)) (.atom b)
  have hf := hread f (Or.inr ⟨_, _, rfl, .conjunction (.atom b) a, .atom b⟩) (by
    show ∀ x ∈ [b, a, b], _
    rw [List.forall_mem_cons, List.forall_mem_cons, List.forall_mem_singleton]
    decide +kernel)
  have htext : f.text = "BA=>B" := rfl
  refine ⟨_, f, hknown, htext, rfl, htext ▸ hf, ?_⟩
  rintro reading text g hg rfl
  exact hinj _ _ _ _ g f hg hf ((hwritten _ _ _ hg).trans htext.symm)

end Formula

end HornClause
