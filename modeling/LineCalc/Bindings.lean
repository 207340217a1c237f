import LineCalc.Number

/-!
# Bindings

The values of names. A name keeps the place of its first assignment and has the value of its last.
Nothing is ever removed.
-/

namespace LineCalc

/-- Names with their values, in the order in which the names were first assigned. -/
structure Bindings where
  entries : List (String × Number) := []
deriving Repr

namespace Bindings

/-- Overwrites the value of a name in place, or appends the name. -/
def setEntry (name : String) (value : Number) : List (String × Number) → List (String × Number)
  | [] => [(name, value)]
  | entry :: rest =>
    if entry.1 = name then (name, value) :: rest else entry :: setEntry name value rest

/-- Assigns a value to a name. -/
def set (b : Bindings) (name : String) (value : Number) : Bindings :=
  ⟨setEntry name value b.entries⟩

/-- The value of a name, if it has one. -/
def get? (b : Bindings) (name : String) : Option Number := b.entries.lookup name

/-- The number of names. -/
def size (b : Bindings) : Nat := b.entries.length

/-- Is no name assigned? -/
def isEmpty (b : Bindings) : Bool := b.entries.isEmpty

/-- The names in the order of their first assignments. -/
def names (b : Bindings) : List String := b.entries.map (·.1)

theorem lookup_setEntry (name other : String) (value : Number) (entries : List (String × Number)) :
    (setEntry name value entries).lookup other =
      if other = name then some value else entries.lookup other := by
  induction entries with
  | nil =>
    by_cases h : other = name
    · simp [setEntry, h]
    · have : (other == name) = false := by simpa using h
      simp [setEntry, List.lookup_cons, h, this]
  | cons entry rest ih =>
    obtain ⟨n, v⟩ := entry
    by_cases hn : n = name
    · subst hn
      by_cases h : other = n
      · simp [setEntry, h]
      · have : (other == n) = false := by simpa using h
        simp [setEntry, List.lookup_cons, h, this]
    · by_cases ho : other = n
      · subst ho
        simp [setEntry, hn]
      · have : (other == n) = false := by simpa using ho
        simp [setEntry, hn, List.lookup_cons, this, ih]

theorem get?_set (b : Bindings) (name other : String) (value : Number) :
    (b.set name value).get? other = if other = name then some value else b.get? other :=
  lookup_setEntry name other value b.entries

theorem names_setEntry (name : String) (value : Number) (entries : List (String × Number)) :
    (setEntry name value entries).map (·.1) =
      if name ∈ entries.map (·.1) then entries.map (·.1) else entries.map (·.1) ++ [name] := by
  induction entries with
  | nil => simp [setEntry]
  | cons entry rest ih =>
    by_cases h : entry.1 = name
    · simp [setEntry, h]
    · have h' : name ≠ entry.1 := fun e => h e.symm
      by_cases hr : name ∈ rest.map (·.1) <;> simp_all [setEntry]

/-- A new name comes last, and an old one keeps its place. -/
theorem names_set (b : Bindings) (name : String) (value : Number) :
    (b.set name value).names = if name ∈ b.names then b.names else b.names ++ [name] :=
  names_setEntry name value b.entries

/-- No name stands twice. -/
theorem nodup_names_set {b : Bindings} (h : b.names.Nodup) (name : String) (value : Number) :
    (b.set name value).names.Nodup := by
  rw [names_set]
  split
  · exact h
  · rename_i hn
    rw [List.nodup_append]
    refine ⟨h, by simp, ?_⟩
    intro a ha c hc
    rw [List.mem_singleton.mp hc]
    exact fun e => hn (e ▸ ha)

end Bindings

end LineCalc
