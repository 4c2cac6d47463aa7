/-
  HornClause.Proofs.Numbering

  The labels under which siblings are shown are all different. A label that has occurred
  to the left is followed by its number, and the numbers of one label grow from left to
  right. So two siblings could be shown alike only if one label, with a number, read as
  another label. It cannot if no label ends in a digit:

    * `numbered_inj` — a shown label tells the label and the number.
    * `nodup_numberLabels` — what is still to be numbered comes out with higher numbers.

  The labels of an answer are formulas, which end in a letter (`plainLabel_of_ask`).
-/
import HornClause.Proofs.Drawing

namespace HornClause

namespace Trace

section Numbers

variable {label label' : String} {labels : List String}

/-- Different numbers are written differently, and the first of its kind has none. -/
theorem number_of_numbered {m n : Nat} (h : numbered label m = numbered label n) : m = n := by
  have hdigits : ∀ k : Nat, (toString (k + 1)).toList = Nat.toDigits 10 (k + 1) := by
    intro k
    rw [Nat.toString_eq_ofList_toDigits, String.toList_ofList]
  have hbare : ∀ k : Nat, label ≠ label ++ toString (k + 1) := by
    intro k hk
    have hnil := List.self_eq_append_right.mp
      ((congrArg String.toList hk).trans String.toList_append)
    exact Nat.toDigits_ne_nil ((hdigits k).symm.trans hnil)
  cases m with
  | zero =>
    cases n with
    | zero => rfl
    | succ n => exact absurd h (hbare (n + 1))
  | succ m =>
    cases n with
    | zero => exact absurd h.symm (hbare (m + 1))
    | succ n =>
      have htext := congrArg String.toList ((String.append_right_inj label).mp h)
      rw [hdigits, hdigits] at htext
      have hread := congrArg (fun digits => Nat.ofDigitChars 10 digits 0) htext
      simp only [Nat.ofDigitChars_toDigits (by decide : 1 < 10) (Nat.le_refl 10)] at hread
      omega

/-- A shown label tells the label and how often it has occurred before. -/
theorem numbered_inj (h : EndsInNoDigit label) (h' : EndsInNoDigit label') {m n : Nat}
    (heq : numbered label m = numbered label' n) : label = label' ∧ m = n := by
  obtain rfl := label_of_numbered h h' heq
  exact ⟨rfl, number_of_numbered heq⟩

/-- Numbered labels are all different: what comes after a label counts it as seen. -/
theorem nodup_numberLabels (h : ∀ l ∈ labels, EndsInNoDigit l) (seen : List String) :
    (numberLabels seen labels).Nodup := by
  induction labels generalizing seen with
  | nil => exact List.nodup_nil
  | cons l rest ih =>
    obtain ⟨hl, hrest⟩ := List.forall_mem_cons.mp h
    rw [numberLabels, List.nodup_cons]
    refine ⟨fun hmem => ?_, ih hrest (l :: seen)⟩
    obtain ⟨k, hk, n, hn, heq⟩ := exists_label_of_mem_numberLabels hmem
    obtain ⟨rfl, rfl⟩ := numbered_inj hl (hrest k hk) heq
    rw [List.count_cons_self] at hn
    omega

/-- Without their numbers, shown labels are the labels they were made from. -/
theorem map_withoutNumber_numberLabels (h : ∀ l ∈ labels, EndsInNoDigit l)
    (seen : List String) : (numberLabels seen labels).map withoutNumber = labels := by
  induction labels generalizing seen with
  | nil => rfl
  | cons l rest ih =>
    obtain ⟨hl, hrest⟩ := List.forall_mem_cons.mp h
    rw [numberLabels, List.map_cons, withoutNumber_numbered hl, ih hrest]

end Numbers

section Siblings

variable {ts : List Trace} (h : ∀ t ∈ ts, EndsInNoDigit t.label)

include h

theorem nodup_siblingLabels : (siblingLabels ts).Nodup :=
  nodup_numberLabels (List.forall_mem_map.mpr h) []

theorem map_withoutNumber_siblingLabels :
    (siblingLabels ts).map withoutNumber = ts.map label :=
  map_withoutNumber_numberLabels (List.forall_mem_map.mpr h) []

end Siblings

mutual

/-- What holds of all labels of a trace holds of all labels below each of its nodes. -/
theorem everyLabel_of_mem {p : String → Prop} {u : Trace} : ∀ t : Trace,
    t.EveryLabel p → u ∈ t.preorder → u.EveryLabel p
  | .node label o ts, ht, hu => by
    rw [preorder, List.mem_cons] at hu
    rcases hu with rfl | hbelow
    · exact ht
    · exact everyLabel_of_mem_all ts (everyLabel_node.mp ht).2 hbelow

theorem everyLabel_of_mem_all {p : String → Prop} {u : Trace} : ∀ ts : List Trace,
    (∀ t ∈ ts, t.EveryLabel p) → u ∈ preorderAll ts → u.EveryLabel p
  | [], _, hu => by cases hu
  | t :: rest, hts, hu => by
    obtain ⟨ht, hrest⟩ := List.forall_mem_cons.mp hts
    rw [preorderAll, List.mem_append] at hu
    rcases hu with hfirst | hlater
    · exact everyLabel_of_mem t ht hfirst
    · exact everyLabel_of_mem_all rest hrest hlater

end

end Trace

/-- The labels under which siblings are shown are unambiguous. If the labels of some
    siblings do not end in a digit, there is one shown label for each sibling, in order;
    the shown labels are all different; and without the digits at its end, each is the
    label of its sibling. So below every node in the trace of an answer, different children
    are shown under different labels. -/
theorem siblingLabels_unambiguous :
    (∀ ts : List Trace, (∀ t ∈ ts, Trace.EndsInNoDigit t.label) →
      (Trace.siblingLabels ts).length = ts.length ∧ (Trace.siblingLabels ts).Nodup ∧
        (Trace.siblingLabels ts).map Trace.withoutNumber = ts.map Trace.label) ∧
    ∀ (session : Session) (query : String) (answer : Answer),
      session.ask query = .ok answer →
      ∀ u ∈ answer.trace.cursor.toList, (Trace.siblingLabels u.children).Nodup := by
  refine ⟨fun ts hts => ?_, fun session query answer hask u hu => ?_⟩
  · exact ⟨Trace.length_siblingLabels ts, Trace.nodup_siblingLabels hts,
      Trace.map_withoutNumber_siblingLabels hts⟩
  · rw [Trace.toList_cursor, ← Trace.preorder_eq] at hu
    obtain ⟨label, o, ts⟩ := u
    obtain ⟨-, hts⟩ := Trace.everyLabel_node.mp
      (Trace.everyLabel_of_mem answer.trace (plainLabel_of_ask hask) hu)
    exact Trace.nodup_siblingLabels fun t ht => (hts t ht).root.noDigit

/-- A label that occurs three times, with another one between; and an answer that has to
    look twice for a letter that fails. -/
theorem siblingLabels_unambiguous_sample :
    ∃ ts : List Trace, (∀ t ∈ ts, Trace.EndsInNoDigit t.label) ∧
      Trace.siblingLabels ts = ["B", "A=>C", "B2", "B3"] ∧
      (Trace.siblingLabels ts).Nodup ∧
      ∃ answer, (Session.install {} sample).ask "FEE" = .ok answer ∧
        Trace.siblingLabels answer.trace.children = ["BE=>F", "D=>F", "E", "E2"] ∧
        (Trace.siblingLabels answer.trace.children).Nodup := by
  have hplain : ∀ t ∈ ([.leaf "B" .failed, .leaf "A=>C" .proved, .leaf "B" .alreadyFailed,
      .leaf "B" .alreadyFailed] : List Trace), Trace.PlainLabel t.label := by
    decide +kernel
  have hlabels := fun t ht => (hplain t ht).noDigit
  obtain ⟨answer, hask, hshown⟩ := Except.exists_ok_of_any
    (x := (Session.install {} sample).ask "FEE")
    (p := fun answer =>
      Trace.siblingLabels answer.trace.children == ["BE=>F", "D=>F", "E", "E2"])
    (by decide +kernel)
  refine ⟨_, hlabels, by decide +kernel, (siblingLabels_unambiguous.1 _ hlabels).2.1, answer, hask,
    beq_iff_eq.mp hshown, siblingLabels_unambiguous.2 _ _ _ hask _ ?_⟩
  rw [Trace.toList_cursor]
  exact List.mem_cons_self

end HornClause
