/-
  HornClause.Trace.Walk

  The nodes of a trace, depth first. `preorder` lists them by recursion; a
  `Cursor` yields them one at a time from the list of subtrees still to visit.
-/
import HornClause.Trace.Basic

namespace HornClause.Trace

/-! ## By recursion -/

mutual

/-- A node, then the nodes below each of its children from left to right. Each node
    is given as the subtree it is the root of. -/
def preorder : Trace → List Trace
  | .node label outcome children => .node label outcome children :: preorderAll children

/-- The nodes of several traces, one trace after the other. -/
def preorderAll : List Trace → List Trace
  | [] => []
  | t :: rest => t.preorder ++ preorderAll rest

end

/-- The number of nodes of some traces. -/
def countAll (ts : List Trace) : Nat := (preorderAll ts).length

@[simp]
theorem preorderAll_append (ts us : List Trace) :
    preorderAll (ts ++ us) = preorderAll ts ++ preorderAll us := by
  induction ts with
  | nil => simp [preorderAll]
  | cons t rest ih => simp [preorderAll, ih]

theorem mem_preorderAll {u : Trace} {ts : List Trace} :
    u ∈ preorderAll ts ↔ ∃ t ∈ ts, u ∈ t.preorder := by
  induction ts with
  | nil => simp [preorderAll]
  | cons t rest ih => simp [preorderAll, ih]

/-- A node comes before all that is below it. -/
theorem preorder_eq (t : Trace) : t.preorder = t :: preorderAll t.children := by
  cases t
  simp [preorder]

theorem preorderAll_node (label : String) (o : Option Outcome) (ts : List Trace) :
    preorderAll [.node label o ts] = .node label o ts :: preorderAll ts := by
  rw [preorderAll, preorderAll, List.append_nil, preorder]

/-! ## Step by step -/

/-- The subtrees still to visit, the next one first. -/
structure Cursor where
  pending : List Trace

namespace Cursor

/-- Visits the next node; the subtrees below it come before those that waited. -/
def next? (c : Cursor) : Option (Trace × Cursor) :=
  match c.pending with
  | [] => none
  | t :: rest => some (t, ⟨t.children ++ rest⟩)

/-- Every step leaves one node less to visit. -/
theorem countAll_lt_of_next? {c d : Cursor} {t : Trace} (h : c.next? = some (t, d)) :
    countAll d.pending < countAll c.pending := by
  rcases c with ⟨_ | ⟨u, rest⟩⟩
  · simp [next?] at h
  · simp only [next?, Option.some.injEq, Prod.mk.injEq] at h
    obtain ⟨rfl, rfl⟩ := h
    simp [countAll, preorderAll, preorder_eq u]

/-- The nodes in the order in which the cursor visits them. -/
def toList (c : Cursor) : List Trace :=
  match _h : c.next? with
  | none => []
  | some (t, d) => t :: d.toList
termination_by countAll c.pending
decreasing_by exact countAll_lt_of_next? (by assumption)

/-- The cursor visits the nodes of the subtrees that wait depth first, one subtree after
    the other. -/
theorem toList_eq_preorderAll (c : Cursor) : c.toList = preorderAll c.pending := by
  fun_induction Cursor.toList c with
  | case1 c h =>
    rcases c with ⟨_ | ⟨t, rest⟩⟩
    · rw [preorderAll]
    · cases h
  | case2 c t d h ih =>
    rcases c with ⟨_ | ⟨u, rest⟩⟩
    · cases h
    · cases h
      rw [ih, preorderAll_append, preorderAll, preorder_eq, List.cons_append]

end Cursor

/-- The cursor before the root of a trace. -/
def cursor (t : Trace) : Cursor := ⟨[t]⟩

/-- The cursor visits the root first, and then all that is below it. -/
theorem toList_cursor (t : Trace) : t.cursor.toList = t :: preorderAll t.children := by
  rw [Cursor.toList_eq_preorderAll, cursor, preorderAll, preorderAll, List.append_nil, preorder_eq]

end HornClause.Trace
