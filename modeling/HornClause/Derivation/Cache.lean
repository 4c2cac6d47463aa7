/-
  HornClause.Derivation.Cache

  The values found so far in a derivation, one for a symbol. Only `get?` and
  `size` see into a cache.
-/

namespace HornClause

/-- Symbols and their values, each symbol once. -/
structure Cache where
  entries : List (Char × Bool) := []

namespace Cache

/-- The value of a symbol, if one is known. -/
def get? (c : Cache) (symbol : Char) : Option Bool := c.entries.lookup symbol

/-- Gives a symbol a value, in place of the one it may have had. -/
def insert (c : Cache) (symbol : Char) (value : Bool) : Cache :=
  ⟨(symbol, value) :: c.entries.filter (·.1 != symbol)⟩

/-- The number of symbols with a value. -/
def size (c : Cache) : Nat := c.entries.length

@[simp]
theorem get?_empty (symbol : Char) : ({} : Cache).get? symbol = none := rfl

theorem lookup_filter_ne (entries : List (Char × Bool)) {symbol other : Char}
    (h : other ≠ symbol) :
    (entries.filter (·.1 != symbol)).lookup other = entries.lookup other := by
  induction entries with
  | nil => rfl
  | cons entry rest ih =>
    rcases entry with ⟨key, value⟩
    by_cases hk : key = symbol
    · subst hk
      simp [List.lookup_cons, ih, beq_eq_false_iff_ne.mpr h]
    · simp [List.lookup_cons, hk, ih]

/-- The value last given to a symbol is the one found. -/
@[simp]
theorem get?_insert (c : Cache) (symbol other : Char) (value : Bool) :
    (c.insert symbol value).get? other = if other = symbol then some value else c.get? other := by
  by_cases h : other = symbol
  · simp [get?, insert, h]
  · simp [get?, insert, List.lookup_cons, h, lookup_filter_ne, beq_eq_false_iff_ne.mpr h]

end Cache

end HornClause
