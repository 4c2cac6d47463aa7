/-
  HornClause.KnowledgeBase.FactMap

  The facts of a knowledge base, each under a letter: nothing but the symbols of
  atoms is ever put into the map. The entries stand in the order of the alphabet
  with each letter once, so a map is determined by what it has under every letter
  (`ext_get?`).

  Nothing here says which atom stands under a letter. That it is the letter's own,
  and true, is for those who fill the map to see to.
-/
import HornClause.Atom

namespace HornClause

/-- Letters and what each stands for. -/
@[ext]
structure FactMap where
  entries : List (Letter × Atom)
  ordered : entries.Pairwise fun e f => e.1.char < f.1.char
deriving DecidableEq

namespace FactMap

/-- The map without entries. -/
def empty : FactMap := ⟨[], .nil⟩

/-- What stands under a letter, if anything does. -/
def get? (m : FactMap) (l : Letter) : Option Atom := m.entries.lookup l

/-- The atoms of a map, in the order of their letters. -/
def atoms (m : FactMap) : List Atom := m.entries.map Prod.snd

/-- The number of letters that stand for something. -/
def size (m : FactMap) : Nat := m.entries.length

instance : Membership Atom FactMap where
  mem m a := a ∈ m.atoms

/-! ## Insertion -/

/-- Puts an entry in its place, or in the place of the one with its letter. -/
def place (l : Letter) (a : Atom) : List (Letter × Atom) → List (Letter × Atom)
  | [] => [(l, a)]
  | (k, b) :: rest =>
      if l.char < k.char then (l, a) :: (k, b) :: rest
      else if l = k then (l, a) :: rest
      else (k, b) :: place l a rest

theorem mem_place {l : Letter} {a : Atom} {entries : List (Letter × Atom)} {e : Letter × Atom}
    (h : e ∈ place l a entries) : e = (l, a) ∨ e ∈ entries := by
  induction entries with
  | nil => exact .inl (List.mem_singleton.mp h)
  | cons entry rest ih =>
    rw [place] at h
    split at h
    · exact List.mem_cons.mp h
    · split at h
      · exact (List.mem_cons.mp h).imp_right (List.mem_cons_of_mem entry)
      · rcases List.mem_cons.mp h with rfl | h
        · exact .inr List.mem_cons_self
        · exact (ih h).imp_right (List.mem_cons_of_mem entry)

theorem ordered_place (l : Letter) (a : Atom) {entries : List (Letter × Atom)}
    (h : entries.Pairwise fun e f => e.1.char < f.1.char) :
    (place l a entries).Pairwise fun e f => e.1.char < f.1.char := by
  induction entries with
  | nil => exact List.pairwise_singleton _ _
  | cons entry rest ih =>
    rcases entry with ⟨k, b⟩
    obtain ⟨hk, hrest⟩ := List.pairwise_cons.mp h
    rw [place]
    split
    · rename_i hless
      refine h.cons fun e he => ?_
      rcases List.mem_cons.mp he with rfl | he
      · exact hless
      · exact Char.lt_trans hless (hk e he)
    · rename_i hnot
      split
      · rename_i hsame
        subst hsame
        exact hrest.cons hk
      · rename_i hne
        have hless : k.char < l.char :=
          Std.lt_of_le_of_ne (Char.not_lt.mp hnot) fun heq => hne (Letter.ext heq.symm)
        refine (ih hrest).cons fun e he => ?_
        rcases mem_place he with rfl | he
        · exact hless
        · exact hk e he

theorem lookup_cons_ne {k m : Letter} (h : k ≠ m) (b : Atom) (rest : List (Letter × Atom)) :
    ((m, b) :: rest).lookup k = rest.lookup k := by
  simp [List.lookup_cons, beq_eq_false_iff_ne.mpr h]

theorem lookup_place (l : Letter) (a : Atom) (entries : List (Letter × Atom)) (k : Letter) :
    (place l a entries).lookup k = if k = l then some a else entries.lookup k := by
  by_cases h : k = l
  · subst h
    rw [if_pos rfl]
    induction entries with
    | nil => exact List.lookup_cons_self
    | cons entry rest ih =>
      rw [place]
      split
      · exact List.lookup_cons_self
      · split
        · exact List.lookup_cons_self
        · rename_i hne
          rw [lookup_cons_ne hne, ih]
  · rw [if_neg h]
    induction entries with
    | nil => exact lookup_cons_ne h a []
    | cons entry rest ih =>
      rcases entry with ⟨m, b⟩
      rw [place]
      split
      · exact lookup_cons_ne h a _
      · split
        · rename_i hsame
          rw [lookup_cons_ne h, lookup_cons_ne (hsame ▸ h)]
        · rw [List.lookup_cons, List.lookup_cons, ih]

/-- Puts an atom under a letter, in place of the one that may have been there. -/
def insert (m : FactMap) (l : Letter) (a : Atom) : FactMap :=
  ⟨place l a m.entries, ordered_place l a m.ordered⟩

@[simp]
theorem get?_empty (l : Letter) : empty.get? l = none := rfl

/-- The atom last put under a letter is the one found. -/
@[simp]
theorem get?_insert (m : FactMap) (l k : Letter) (a : Atom) :
    (m.insert l a).get? k = if k = l then some a else m.get? k :=
  lookup_place l a m.entries k

/-! ## Entries and look-up -/

/-- As letters do not repeat, the entries are what is found. -/
theorem mem_entries {m : FactMap} {l : Letter} {a : Atom} :
    (l, a) ∈ m.entries ↔ m.get? l = some a := by
  rcases m with ⟨entries, hordered⟩
  show (l, a) ∈ entries ↔ entries.lookup l = some a
  induction entries with
  | nil => simp
  | cons entry rest ih =>
    rcases entry with ⟨k, b⟩
    obtain ⟨hk, hrest⟩ := List.pairwise_cons.mp hordered
    rw [List.mem_cons, List.lookup_cons, ih hrest, Prod.mk.injEq]
    by_cases h : l = k
    · -- Nothing more stands under the first letter.
      subst h
      have hnot : rest.lookup l ≠ some a :=
        fun hmem => Char.lt_irrefl l.char (hk (l, a) ((ih hrest).mpr hmem))
      simp [hnot, eq_comm]
    · simp [h, beq_eq_false_iff_ne.mpr h]

theorem mem_iff {m : FactMap} {a : Atom} : a ∈ m ↔ ∃ l, (l, a) ∈ m.entries := by
  show a ∈ m.entries.map Prod.snd ↔ _
  simp

/-- Maps that have the same under every letter are the same. -/
theorem ext_get? {m n : FactMap} (h : ∀ l, m.get? l = n.get? l) : m = n := by
  have hnodup : ∀ m : FactMap, m.entries.Nodup := by
    intro m
    refine m.ordered.imp fun {e f} hless heq => ?_
    subst heq
    exact Char.lt_irrefl _ hless
  have hperm : m.entries.Perm n.entries := by
    refine (List.perm_ext_iff_of_nodup (hnodup m) (hnodup n)).mpr fun ⟨l, a⟩ => ?_
    rw [mem_entries, mem_entries, h]
  refine FactMap.ext (hperm.eq_of_pairwise ?_ m.ordered n.ordered)
  intro e f _ _ hef hfe
  exact absurd hfe (Char.lt_asymm hef)

end FactMap

end HornClause
