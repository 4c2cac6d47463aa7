/-
  HornClause.Proofs.WalkOrder

  The walk through a trace and its drawing keep the same order. Equal subtrees may stand in
  several places of a trace, so a node is told by the path that leads to it: the number of
  the child to go on with, level by level. `located` lists the nodes with their paths, and
  is tied to both sides:

    * its paths are all that lead to a node, in lexicographic order (`mem_located`,
      `pairwise_located`), and its nodes are those the cursor visits, until there is none
      left (`map_snd_located`, `Cursor.visits_iff`);
    * the lines of a drawing show its nodes one by one (`shows_lines`).

  What a line shows of a node is said by `Shows`, from the path alone: the rails of the
  nodes passed on the way, the branch of the last step, the label with its number among the
  siblings, and the outcome of a leaf.
-/
import HornClause.Proofs.Colouring

namespace HornClause

namespace Trace

-- ============================================================================
-- The walk, step by step
-- ============================================================================

namespace Cursor

/-- A cursor visits nodes one by one until there is none left. -/
inductive Visits : Cursor → List Trace → Prop
  | done {c : Cursor} : c.next? = none → Visits c []
  | step {c d : Cursor} {t : Trace} {nodes : List Trace} :
      c.next? = some (t, d) → Visits d nodes → Visits c (t :: nodes)

theorem visits_toList (c : Cursor) : c.Visits c.toList := by
  fun_induction Cursor.toList c with
  | case1 c h => exact .done h
  | case2 c t d h ih => exact .step h ih

theorem Visits.unique {c : Cursor} {nodes nodes' : List Trace} (h : c.Visits nodes)
    (h' : c.Visits nodes') : nodes = nodes' := by
  induction h generalizing nodes' with
  | done hnone =>
    cases h' with
    | done _ => rfl
    | step hnext _ => cases hnone.symm.trans hnext
  | step hnext _ ih =>
    cases h' with
    | done hnone => cases hnone.symm.trans hnext
    | step hnext' hrest =>
      cases hnext.symm.trans hnext'
      rw [ih hrest]

/-- Whatever subtrees wait, the walk ends, and has then visited their nodes depth first. -/
theorem visits_iff {c : Cursor} {nodes : List Trace} :
    c.Visits nodes ↔ nodes = preorderAll c.pending := by
  rw [← toList_eq_preorderAll]
  constructor
  · intro h
    exact h.unique c.visits_toList
  · rintro rfl
    exact c.visits_toList

end Cursor

-- ============================================================================
-- Nodes and their paths
-- ============================================================================

/-- The node at the end of a path, which has the number of the child to go on with for each
    level. -/
def at? (t : Trace) : List Nat → Option Trace
  | [] => some t
  | k :: path => t.children[k]?.bind fun u => u.at? path

mutual

/-- The nodes of a trace with the paths to them, a node before those below it and these from
    left to right. -/
def located : Trace → List (List Nat × Trace)
  | .node label outcome children =>
      ([], .node label outcome children) :: locatedFrom 0 children

/-- The nodes of siblings with the paths to them, if the first sibling has the given
    number. -/
def locatedFrom (k : Nat) : List Trace → List (List Nat × Trace)
  | [] => []
  | t :: rest => t.located.map (Prod.map (k :: ·) id) ++ locatedFrom (k + 1) rest

end

theorem located_eq (t : Trace) : t.located = ([], t) :: locatedFrom 0 t.children := by
  cases t
  rw [located, children_node]

theorem at?_append (t : Trace) (path rest : List Nat) :
    t.at? (path ++ rest) = (t.at? path).bind fun u => u.at? rest := by
  induction path generalizing t with
  | nil => rfl
  | cons k path ih =>
    rw [List.cons_append, at?, at?]
    cases t.children[k]? with
    | none => rfl
    | some u => exact ih u

theorem at?_concat {t parent u : Trace} {path : List Nat} {k : Nat}
    (hparent : t.at? path = some parent) (hu : parent.children[k]? = some u) :
    t.at? (path ++ [k]) = some u := by
  rw [at?_append, hparent, Option.bind_some, at?, hu]
  rfl

theorem mem_locatedFrom {k : Nat} {ts : List Trace} {path : List Nat} {u : Trace} :
    (path, u) ∈ locatedFrom k ts ↔
      ∃ j rest t, path = (k + j) :: rest ∧ ts[j]? = some t ∧ (rest, u) ∈ t.located := by
  induction ts generalizing k with
  | nil => simp [locatedFrom]
  | cons t ts ih =>
    rw [locatedFrom, List.mem_append, ih]
    constructor
    · rintro (hfirst | ⟨j, rest, s, rfl, hs, hmem⟩)
      · obtain ⟨⟨rest, u⟩, hmem, heq⟩ := List.mem_map.mp hfirst
        cases heq
        exact ⟨0, rest, t, rfl, rfl, hmem⟩
      · exact ⟨j + 1, rest, s, by rw [Nat.add_right_comm, Nat.add_assoc], hs, hmem⟩
    · rintro ⟨_ | j, rest, s, rfl, hs, hmem⟩
      · cases hs
        exact Or.inl (List.mem_map.mpr ⟨(rest, u), hmem, rfl⟩)
      · exact Or.inr ⟨j, rest, s, by rw [Nat.add_right_comm, Nat.add_assoc], hs, hmem⟩

/-- The paths that lead to a node are those that are listed, and they are listed with it. -/
theorem mem_located {t : Trace} {path : List Nat} {u : Trace} :
    (path, u) ∈ t.located ↔ t.at? path = some u := by
  -- Along the path, not the trace: each step leaves all siblings but one behind.
  induction path generalizing t with
  | nil =>
    rw [located_eq, List.mem_cons, mem_locatedFrom]
    simp [at?, eq_comm]
  | cons k path ih =>
    rw [located_eq, List.mem_cons, mem_locatedFrom, at?, Option.bind_eq_some_iff]
    constructor
    · rintro (heq | ⟨j, rest, s, heq, hs, hmem⟩)
      · cases heq
      · rw [Nat.zero_add] at heq
        cases heq
        exact ⟨s, hs, ih.mp hmem⟩
    · rintro ⟨s, hs, hat⟩
      exact Or.inr ⟨k, path, s, by rw [Nat.zero_add], hs, ih.mpr hat⟩

mutual

/-- The nodes are listed in the order of the recursion. -/
theorem map_snd_located : ∀ t : Trace, t.located.map Prod.snd = t.preorder
  | .node label o ts => by
    rw [located, preorder, List.map_cons, map_snd_locatedFrom ts 0]

theorem map_snd_locatedFrom : ∀ (ts : List Trace) (k : Nat),
    (locatedFrom k ts).map Prod.snd = preorderAll ts
  | [], k => by rw [locatedFrom, preorderAll, List.map_nil]
  | t :: rest, k => by
    rw [locatedFrom, preorderAll, List.map_append, List.map_map, ← map_snd_located t,
      map_snd_locatedFrom rest (k + 1)]
    rfl

end

mutual

/-- The paths are listed in lexicographic order: a node before those below it, and those
    below a child before those below the next. So none is listed twice. -/
theorem pairwise_located : ∀ t : Trace, (t.located.map Prod.fst).Pairwise (List.Lex (· < ·))
  | .node label o ts => by
    rw [located, List.map_cons, List.pairwise_cons]
    refine ⟨List.forall_mem_map.mpr ?_, pairwise_locatedFrom ts 0⟩
    rintro ⟨path, u⟩ hmem
    obtain ⟨j, rest, s, rfl, -⟩ := mem_locatedFrom.mp hmem
    exact .nil

theorem pairwise_locatedFrom : ∀ (ts : List Trace) (k : Nat),
    ((locatedFrom k ts).map Prod.fst).Pairwise (List.Lex (· < ·))
  | [], k => by
    rw [locatedFrom]
    exact .nil
  | t :: rest, k => by
    have hfirst : (t.located.map (Prod.map (k :: ·) id)).map Prod.fst =
        (t.located.map Prod.fst).map (k :: ·) := by
      rw [List.map_map, List.map_map]
      rfl
    rw [locatedFrom, List.map_append, hfirst, List.pairwise_append]
    refine ⟨?_, pairwise_locatedFrom rest (k + 1), List.forall_mem_map.mpr fun path _ => ?_⟩
    · rw [List.pairwise_map]
      exact (pairwise_located t).imp .cons
    · refine List.forall_mem_map.mpr ?_
      rintro ⟨later, u⟩ hlater
      obtain ⟨j, below, s, rfl, -⟩ := mem_locatedFrom.mp hlater
      exact .rel (by omega)

end

-- ============================================================================
-- The line of a node
-- ============================================================================

/-- What stands to the left of all that is below a node: for each step on the path to it a
    rail if more children follow there, and else a blank. -/
def marginAt (t : Trace) : List Nat → String
  | [] => ""
  | k :: path => t.children[k]?.elim "" fun u =>
      (if k + 1 = t.children.length then "   " else "│  ") ++ u.marginAt path

/-- The line that shows a node. The root is shown by its label alone. A node below it is
    child number `k` of the node at the end of a path: it is shown after the margin of that
    path, by a branch that has a corner if no child follows, its label with a number if the
    label has occurred in the children before, and the outcome if it is a leaf that has one. -/
inductive Shows (t : Trace) : List Nat × Trace → String → Prop
  | root : Shows t ([], t) t.label
  | below {path : List Nat} {k : Nat} {parent u : Trace} :
      t.at? path = some parent → parent.children[k]? = some u →
      Shows t (path ++ [k], u)
        (t.marginAt path ++ (if k + 1 = parent.children.length then "└─ " else "├─ ") ++
          numbered u.label (((parent.children.take k).map label).count u.label) ++
          u.shownOutcome.elim "" fun o => ": " ++ o.text)

theorem marginAt_append {t u : Trace} {path : List Nat} (h : t.at? path = some u)
    (rest : List Nat) : t.marginAt (path ++ rest) = t.marginAt path ++ u.marginAt rest := by
  induction path generalizing t with
  | nil =>
    cases h
    rw [List.nil_append, marginAt, String.empty_append]
  | cons k path ih =>
    obtain ⟨s, hs, hat⟩ := Option.bind_eq_some_iff.mp h
    rw [List.cons_append, marginAt, marginAt, hs, Option.elim_some, Option.elim_some, ih hat,
      String.append_assoc]

/-- Each level takes three columns. -/
theorem length_marginAt {t u : Trace} {path : List Nat} (h : t.at? path = some u) :
    (t.marginAt path).length = 3 * path.length := by
  induction path generalizing t with
  | nil => rfl
  | cons k path ih =>
    obtain ⟨s, hs, hat⟩ := Option.bind_eq_some_iff.mp h
    have hstep : (if k + 1 = t.children.length then "   " else "│  ").length = 3 := by
      split <;> rfl
    rw [marginAt, hs, Option.elim_some, String.length_append, hstep, ih hat, List.length_cons]
    omega

theorem getElem?_numberLabels (labels seen : List String) (k : Nat) :
    (numberLabels seen labels)[k]? =
      labels[k]?.map fun l => numbered l (seen.count l + (labels.take k).count l) := by
  induction labels generalizing seen k with
  | nil => rfl
  | cons l rest ih =>
    cases k with
    | zero => rfl
    | succ k =>
      rw [numberLabels, List.getElem?_cons_succ, List.getElem?_cons_succ, ih, List.take_succ_cons]
      refine Option.map_congr fun x _ => ?_
      rw [List.count_cons, List.count_cons, Nat.add_right_comm, Nat.add_assoc]

/-- A sibling is shown under its label, with a number if it is not the first with it. -/
theorem getElem?_siblingLabels {ts : List Trace} {k : Nat} {u : Trace} (h : ts[k]? = some u) :
    (siblingLabels ts)[k]? = some (numbered u.label (((ts.take k).map label).count u.label)) := by
  rw [siblingLabels, getElem?_numberLabels, List.getElem?_map, h, Option.map_some, Option.map_some,
    List.count_nil, Nat.zero_add, List.map_take]

-- ============================================================================
-- The lines of a drawing, in the order of the walk
-- ============================================================================

theorem suffix_plain (t : Trace) :
    t.suffix false = t.shownOutcome.elim "" fun o => ": " ++ o.text := by
  rw [suffix_eq]
  simp only [Outcome.shown_plain]

/-- A child has no others after it exactly if its number is the last. -/
theorem isEmpty_of_drop {ts rest : List Trace} {k : Nat} {t : Trace}
    (h : ts.drop k = t :: rest) : rest.isEmpty = decide (k + 1 = ts.length) := by
  have hlength := congrArg List.length h
  rw [List.length_drop, List.length_cons] at hlength
  rw [Bool.eq_iff_iff, List.isEmpty_iff_length_eq_zero, decide_eq_true_iff]
  omega

/-- The nodes of siblings, below the end of a path: the first one, those below it, and those
    of the others. -/
theorem map_locatedFrom_cons (path : List Nat) (k : Nat) (t : Trace) (rest : List Trace) :
    (locatedFrom k (t :: rest)).map (Prod.map (path ++ ·) id) =
      (path ++ [k], t) :: ((locatedFrom 0 t.children).map (Prod.map (path ++ [k] ++ ·) id) ++
        (locatedFrom (k + 1) rest).map (Prod.map (path ++ ·) id)) := by
  have hpath : ∀ below : List Nat, path ++ [k] ++ below = path ++ k :: below :=
    fun below => List.append_assoc path [k] below
  simp only [locatedFrom, located_eq t, List.map_append, List.map_cons, List.map_map, hpath,
    List.cons_append]
  rfl

mutual

/-- The lines below the end of a path show the nodes there, in the order in which these are
    listed. The margin has grown with the path. -/
theorem shows_linesBelow (root : Trace) : ∀ (t : Trace) (path : List Nat),
    root.at? path = some t →
    List.Forall₂ root.Shows ((locatedFrom 0 t.children).map (Prod.map (path ++ ·) id))
      (t.linesBelow false (root.marginAt path))
  | .node label o ts, path, hat => by
    rw [linesBelow]
    exact shows_siblingLines root (.node label o ts) ts (siblingLabels ts) 0 path hat rfl rfl

/-- The same for the siblings from number `k` on, with the labels that are left for them. -/
theorem shows_siblingLines (root parent : Trace) :
    ∀ (ts : List Trace) (labels : List String) (k : Nat) (path : List Nat),
      root.at? path = some parent → parent.children.drop k = ts →
      (siblingLabels parent.children).drop k = labels →
      List.Forall₂ root.Shows ((locatedFrom k ts).map (Prod.map (path ++ ·) id))
        (siblingLines false (root.marginAt path) ts labels)
  | [], labels, k, path, _, _, _ => by
    rw [locatedFrom, siblingLines_nil]
    exact .nil
  | t :: rest, labels, k, path, hat, hts, hlabels => by
    have ht : parent.children[k]? = some t := by
      rw [← List.head?_drop, hts, List.head?_cons]
    have hshown := getElem?_siblingLabels ht
    rw [← List.head?_drop, hlabels] at hshown
    obtain ⟨labels, rfl⟩ := List.head?_eq_some_iff.mp hshown
    have hlast := isEmpty_of_drop hts
    have hbelow := shows_linesBelow root t (path ++ [k]) (at?_concat hat ht)
    have hlater := shows_siblingLines root parent rest labels (k + 1) path hat
      (by rw [← List.tail_drop, hts, List.tail_cons])
      (by rw [← List.tail_drop, hlabels, List.tail_cons])
    -- The step to the child adds to the margin of the path what its line leaves for those below.
    have hmargin : root.marginAt (path ++ [k]) = root.marginAt path ++ rail rest.isEmpty := by
      rw [marginAt_append hat, marginAt, ht, Option.elim_some, marginAt, String.append_empty,
        hlast, rail]
      simp only [decide_eq_true_eq]
    rw [map_locatedFrom_cons, siblingLines_cons, ← hmargin]
    refine .cons ?_ (List.rel_append hbelow hlater)
    rw [hlast, branch, suffix_plain]
    simp only [decide_eq_true_eq]
    exact .below hat ht

end

/-- The lines of a drawing show the nodes of the trace, in the order of their paths. -/
theorem shows_lines (t : Trace) : List.Forall₂ t.Shows t.located (t.lines false) := by
  have hbelow := shows_linesBelow t t [] rfl
  have hpaths : (locatedFrom 0 t.children).map (Prod.map ([] ++ ·) id) =
      locatedFrom 0 t.children := List.map_id _
  rw [hpaths, marginAt] at hbelow
  rw [located_eq, lines]
  exact .cons .root hbelow

end Trace

/-- The walk through a trace and its plain drawing keep the same order. The walk ends, and has
    then visited the nodes in the order of the recursion, which lists each node before those
    below it and these from child to child. With the paths to them, these are all nodes of
    the trace, and each of them once: the paths that lead to a node are in lexicographic
    order. If no label has a line break in it, the text has as many lines as there are nodes,
    and each line shows the node in its place. The root is shown by its label. A node below
    it is shown after three columns for each level between it and the root, by a branch of
    three columns, its label, with a number if it is not the first sibling with the label,
    and the outcome if it is a leaf that has one. -/
theorem render_plain_follows_walk (t : Trace) :
    (∀ nodes, t.cursor.Visits nodes ↔ nodes = t.preorder) ∧
    t.cursor.toList = t.preorder ∧
    t.cursor.toList = t.located.map Prod.snd ∧
    (∀ path u, (path, u) ∈ t.located ↔ t.at? path = some u) ∧
    (t.located.map Prod.fst).Pairwise (List.Lex (· < ·)) ∧
    (∀ path u, t.at? path = some u → (t.marginAt path).length = 3 * path.length) ∧
    (t.EveryLabel Trace.OneLine →
      (Trace.linesOf (t.render .plain)).length = t.cursor.toList.length ∧
      List.Forall₂ t.Shows t.located (Trace.linesOf (t.render .plain))) := by
  have hwalk : t.cursor.toList = t.preorder := by
    rw [Trace.toList_cursor, Trace.preorder_eq]
  have hnodes : t.cursor.toList = t.located.map Prod.snd := by
    rw [hwalk, Trace.map_snd_located]
  refine ⟨fun nodes => ?_, hwalk, hnodes, fun _ _ => Trace.mem_located, t.pairwise_located,
    fun _ _ => Trace.length_marginAt, fun ht => ?_⟩
  · rw [Trace.Cursor.visits_iff, ← Trace.Cursor.toList_eq_preorderAll, hwalk]
  · have hlines : Trace.linesOf (t.render .plain) = t.lines false := Trace.linesOf_drawing false ht
    rw [hlines, hnodes, List.length_map]
    exact ⟨t.shows_lines.length_eq.symm, t.shows_lines⟩

/-- A node with two leaves below it, one of them without an outcome, and after it a leaf that
    occurs twice. -/
theorem render_plain_follows_walk_sample :
    ∃ t : Trace, t.EveryLabel Trace.OneLine ∧
      t.located.map Prod.fst = [[], [0], [0, 0], [0, 1], [1], [2]] ∧
      Trace.linesOf (t.render .plain) = ["FBB", "├─ AE=>F", "│  ├─ A: true", "│  └─ E",
        "├─ B: false", "└─ B2: false (already proved)"] ∧
      t.cursor.toList.length = 6 ∧
      List.Forall₂ t.Shows t.located (Trace.linesOf (t.render .plain)) := by
  have hlabels : (Trace.node "FBB" (some .failed) [.node "AE=>F" (some .failed)
      [.leaf "A" .proved, .node "E" none []], .leaf "B" .failed,
      .leaf "B" .alreadyFailed]).EveryLabel Trace.OneLine := by
    decide +kernel
  obtain ⟨hlength, hshows⟩ := (render_plain_follows_walk _).2.2.2.2.2.2 hlabels
  have htext : Trace.linesOf (Trace.render _ .plain) = _ := Trace.linesOf_drawing false hlabels
  refine ⟨_, hlabels, by decide +kernel, htext.trans (by decide +kernel), ?_, hshows⟩
  rw [← hlength, htext]
  decide +kernel

end HornClause
