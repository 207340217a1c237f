import LineCalc.Script.Expression
import Mathlib.Data.Finset.Card

/-!
# Assignments one after the other

What bindings hold is told by the assignments that were made, one after the other: the names stand in
the order of their first assignments, each of them once, and have the values of their last ones. Two
assignments of different names that follow each other may change places, unless both names are new.
-/

namespace LineCalc

namespace Bindings

variable {b b' : Bindings} {stores : List (String × Number)} {name name' : String}
variable {value value' : Number}

/-- Makes assignments, one after the other. -/
def setAll (b : Bindings) (stores : List (String × Number)) : Bindings :=
  stores.foldl (fun b e => b.set e.1 e.2) b

@[simp] theorem setAll_nil (b : Bindings) : b.setAll [] = b := rfl

@[simp] theorem setAll_cons (b : Bindings) (e : String × Number) (stores : List (String × Number)) :
    b.setAll (e :: stores) = (b.set e.1 e.2).setAll stores := rfl

theorem setAll_append (b : Bindings) (stores stores' : List (String × Number)) :
    b.setAll (stores ++ stores') = (b.setAll stores).setAll stores' := List.foldl_append

/-- A name that is not assigned keeps its value. -/
theorem get?_setAll {name : String} (h : ∀ e ∈ stores, e.1 ≠ name) :
    (b.setAll stores).get? name = b.get? name := by
  induction stores generalizing b with
  | nil => rfl
  | cons e stores ih =>
    rw [List.forall_mem_cons] at h
    rw [setAll_cons, ih h.2, get?_set, if_neg (Ne.symm h.1)]

theorem isSome_get?_setAll {name : String} (stores : List (String × Number))
    (h : (b.get? name).isSome) : ((b.setAll stores).get? name).isSome := by
  induction stores generalizing b with
  | nil => exact h
  | cons e stores ih =>
    refine ih ?_
    rw [get?_set]
    split
    · rfl
    · exact h

theorem isSome_get?_of_mem {e : String × Number} (h : e ∈ stores) :
    ((b.setAll stores).get? e.1).isSome := by
  induction stores generalizing b with
  | nil => cases h
  | cons e' stores ih =>
    rcases List.mem_cons.mp h with rfl | h
    · refine isSome_get?_setAll stores ?_
      rw [get?_set, if_pos rfl]
      rfl
    · exact ih h

theorem filter_setEntry {p : String → Bool} {name : String} (h : p name = false) (value : Number)
    (entries : List (String × Number)) :
    (setEntry name value entries).filter (p ·.1) = entries.filter (p ·.1) := by
  induction entries with
  | nil => simp [setEntry, h]
  | cons entry rest ih =>
    rw [setEntry]
    split
    · rename_i hname
      simp [h, hname]
    · rw [List.filter_cons, List.filter_cons, ih]

theorem filter_setAll {p : String → Bool} (h : ∀ e ∈ stores, p e.1 = false) :
    (b.setAll stores).entries.filter (p ·.1) = b.entries.filter (p ·.1) := by
  induction stores generalizing b with
  | nil => rfl
  | cons e stores ih =>
    rw [List.forall_mem_cons] at h
    rw [setAll_cons, ih h.2]
    exact filter_setEntry h.1 e.2 b.entries

/-- New names come behind the others, in the order of their first assignments. -/
theorem names_setAll (b : Bindings) (stores : List (String × Number)) :
    (b.setAll stores).names =
      b.names ++ ((stores.map (·.1)).filter (· ∉ b.names)).eraseDups := by
  induction stores generalizing b with
  | nil => simp
  | cons e stores ih =>
    rw [setAll_cons, ih, names_set, List.map_cons]
    by_cases he : e.1 ∈ b.names
    · rw [if_pos he, List.filter_cons_of_neg (by simpa using he)]
    · have hlater : (stores.map (·.1)).filter (· ∉ b.names ++ [e.1]) =
          ((stores.map (·.1)).filter (· ∉ b.names)).filter (fun name => !name == e.1) := by
        rw [List.filter_filter]
        refine List.filter_congr fun name _ => ?_
        by_cases hn : name = e.1 <;> simp [hn]
      rw [if_neg he, List.filter_cons_of_pos (by simpa using he), List.eraseDups_cons, hlater,
        List.append_assoc]
      rfl

theorem nodup_names_setAll (h : b.names.Nodup) (stores : List (String × Number)) :
    (b.setAll stores).names.Nodup := by
  induction stores generalizing b with
  | nil => exact h
  | cons e stores ih => exact ih (nodup_names_set h e.1 e.2)

/-! ### Looking up names -/

/-- The value of a name, or what is wrong where it has none. -/
def lookup (b : Bindings) (name : String) : Except Problem Number :=
  match b.get? name with
  | some value => .ok value
  | none => .error (.undefined name)

theorem lookup_eq_ok_iff : b.lookup name = .ok value ↔ b.get? name = some value := by
  unfold lookup
  cases b.get? name <;> simp

theorem lookup_eq_error_iff {problem : Problem} :
    b.lookup name = .error problem ↔ b.get? name = none ∧ problem = .undefined name := by
  unfold lookup
  cases b.get? name <;> simp [eq_comm]

theorem get?_eq_none_iff : b.get? name = none ↔ name ∉ b.names := by
  rw [get?, List.lookup_eq_none_iff, names, List.mem_map]
  constructor
  · rintro h ⟨e, he, rfl⟩
    exact bne_iff_ne.mp (h e he) rfl
  · exact fun h e he => bne_iff_ne.mpr fun hn => h ⟨e, he, hn.symm⟩

/-! ### Names and values are all there is -/

/-- The entries that stand are those that are found, since no name stands twice. -/
theorem mem_entries_iff (h : b.names.Nodup) : (name, value) ∈ b.entries ↔ b.get? name = some value := by
  rw [get?, List.lookup_eq_some_iff]
  constructor
  · intro he
    obtain ⟨front, back, hsplit⟩ := List.append_of_mem he
    refine ⟨front, back, hsplit, fun e hmem => bne_iff_ne.mpr ?_⟩
    rw [names, hsplit, List.map_append, List.nodup_append] at h
    exact (h.2.2 e.1 (List.mem_map_of_mem hmem) name (by simp)).symm
  · rintro ⟨front, back, hsplit, -⟩
    rw [hsplit]
    exact List.mem_append_right _ List.mem_cons_self

theorem entries_eq (h : b.names.Nodup) :
    b.entries = b.names.filterMap fun name => (b.get? name).map (name, ·) := by
  rw [names, List.filterMap_map]
  symm
  rw [List.filterMap_congr (g := some), List.filterMap_some]
  intro e he
  show (b.get? e.1).map (e.1, ·) = some e
  rw [(mem_entries_iff h).mp he]
  rfl

/-- Bindings with the same names in the same order, and the same values, are the same. -/
theorem eq_of_names_eq (h : b.names.Nodup) (hnames : b'.names = b.names)
    (hget : ∀ name, b'.get? name = b.get? name) : b' = b := by
  have hentries : b'.entries = b.entries := by
    rw [entries_eq (hnames ▸ h), entries_eq h, hnames]
    simp only [hget]
  exact congrArg Bindings.mk hentries

/-! ### Two assignments that change places -/

/-- It does not matter which of two names is assigned first, if one of them was there. -/
theorem set_comm (h : b.names.Nodup) (hne : name ≠ name') (hmem : name ∈ b.names ∨ name' ∈ b.names)
    (value value' : Number) :
    (b.set name value).set name' value' = (b.set name' value').set name value := by
  refine eq_of_names_eq (nodup_names_set (nodup_names_set h _ _) _ _) ?_ fun other => ?_
  · simp only [names_set]
    rcases hmem with hmem | hmem
    · by_cases hmem' : name' ∈ b.names <;> simp [hmem, hmem']
    · by_cases hmem' : name ∈ b.names <;> simp [hmem, hmem']
  · simp only [get?_set]
    by_cases ho : other = name
    · rw [if_neg fun hn => hne (ho.symm.trans hn), if_pos ho, if_pos ho]
    · rw [if_neg ho, if_neg ho]

/-- Two names that are both new stand in the order in which they are assigned. -/
theorem names_set_set (hne : name ≠ name') (hnew : name ∉ b.names) (hnew' : name' ∉ b.names)
    (value value' : Number) :
    ((b.set name value).set name' value').names = b.names ++ [name, name'] := by
  have hn : name' ∉ b.names ++ [name] := by
    rw [List.mem_append, List.mem_singleton, not_or]
    exact ⟨hnew', hne.symm⟩
  rw [names_set, names_set, if_neg hnew, if_neg hn, List.append_assoc]
  rfl

theorem set_set_setAll_iff (h : b.names.Nodup) {e e' : String × Number} (hne : e.1 ≠ e'.1)
    (stores : List (String × Number)) :
    b.setAll (e :: e' :: stores) = b.setAll (e' :: e :: stores) ↔
      e.1 ∈ b.names ∨ e'.1 ∈ b.names := by
  constructor
  · intro heq
    by_contra hnew
    obtain ⟨hnew, hnew'⟩ := not_or.mp hnew
    have hnames := congrArg names heq
    simp only [setAll_cons, names_setAll _ stores, names_set_set hne hnew hnew',
      names_set_set hne.symm hnew' hnew, List.append_assoc, List.append_cancel_left_eq] at hnames
    exact hne (List.cons.inj hnames).1
  · intro hmem
    rw [setAll_cons, setAll_cons, set_comm h hne hmem]
    rfl

/-! ### What the assignments tell -/

/-- The last assignment of the name has the value. -/
def Last (stores : List (String × Number)) (name : String) (value : Number) : Prop :=
  ∃ before after, stores = before ++ (name, value) :: after ∧ name ∉ after.map (·.1)

theorem last_concat {e : String × Number} :
    Last (stores ++ [e]) name value ↔ if name = e.1 then e.2 = value else Last stores name value := by
  constructor
  · rintro ⟨before, after, hsplit, hafter⟩
    rcases List.eq_nil_or_concat' after with rfl | ⟨after, e', rfl⟩
    · obtain ⟨-, rfl⟩ := List.append_singleton_inj.mp hsplit
      rw [if_pos rfl]
    · rw [← List.cons_append, ← List.append_assoc] at hsplit
      obtain ⟨rfl, rfl⟩ := List.append_singleton_inj.mp hsplit
      rw [List.map_append, List.mem_append, not_or] at hafter
      rw [if_neg fun hn => hafter.2 (by simp [hn])]
      exact ⟨before, after, rfl, hafter.1⟩
  · split
    · rename_i hn
      rintro rfl
      exact ⟨stores, [], by rw [hn], List.not_mem_nil⟩
    · rename_i hn
      rintro ⟨before, after, rfl, hafter⟩
      refine ⟨before, after ++ [e], by simp, ?_⟩
      rw [List.map_append, List.mem_append, not_or]
      exact ⟨hafter, by simpa using hn⟩

theorem get?_setAll_eq_some_iff :
    (({} : Bindings).setAll stores).get? name = some value ↔ Last stores name value := by
  induction stores using List.reverseRecOn with
  | nil =>
    constructor
    · intro h
      cases h
    · rintro ⟨before, after, h, -⟩
      simp at h
  | append_singleton stores e ih =>
    rw [setAll_append, setAll_cons, setAll_nil, get?_set, last_concat]
    split
    · exact Option.some_inj
    · exact ih

theorem names_setAll_start (stores : List (String × Number)) :
    (({} : Bindings).setAll stores).names = (stores.map (·.1)).eraseDups := by
  rw [names_setAll]
  simp [names]

/-- What bindings hold behind the assignments `stores`, where nothing was assigned before. -/
structure Holds (stores : List (String × Number)) (b : Bindings) : Prop where
  /-- The names stand in the order of their first assignments. -/
  names_eq : b.names = (stores.map (·.1)).eraseDups
  /-- No name stands twice. -/
  nodup : b.names.Nodup
  /-- A name stands with the value of its last assignment. -/
  entries : ∀ name value, (name, value) ∈ b.entries ↔ Last stores name value
  /-- There are as many entries as there are different names. -/
  size_eq : b.size = (stores.map (·.1)).toFinset.card
  /-- Found is the value of the last assignment of just this name. -/
  get?_eq_some : ∀ name value, b.get? name = some value ↔ Last stores name value
  get?_eq_none : ∀ name, b.get? name = none ↔ name ∉ stores.map (·.1)
  lookup_eq_ok : ∀ name value, b.lookup name = .ok value ↔ b.get? name = some value
  /-- What is wrong tells the name that was asked for. -/
  lookup_eq_error : ∀ name problem,
    b.lookup name = .error problem ↔ b.get? name = none ∧ problem = .undefined name

theorem holds_start (stores : List (String × Number)) : Holds stores (({} : Bindings).setAll stores) := by
  have hnames := names_setAll_start stores
  have hnodup : (({} : Bindings).setAll stores).names.Nodup :=
    nodup_names_setAll (b := {}) List.nodup_nil stores
  refine ⟨hnames, hnodup, fun name value => ?_, ?_, fun name value => get?_setAll_eq_some_iff,
    fun name => ?_, fun name value => lookup_eq_ok_iff, fun name problem => lookup_eq_error_iff⟩
  · rw [mem_entries_iff hnodup, get?_setAll_eq_some_iff]
  · have hset : (({} : Bindings).setAll stores).names.toFinset = (stores.map (·.1)).toFinset := by
      ext name
      rw [List.mem_toFinset, List.mem_toFinset, hnames, List.mem_eraseDups]
    rw [← hset, List.toFinset_card_of_nodup hnodup, names, List.length_map, size]
  · rw [get?_eq_none_iff, hnames, List.mem_eraseDups]

/-- Bindings are kept in the order of the first assignments, and the last assignment counts. Of two
assignments of different names that follow each other it matters which comes first only where both
names are new. -/
theorem holds_setAll (stores : List (String × Number)) :
    Holds stores (({} : Bindings).setAll stores) ∧
    ∀ front e e' back, stores = front ++ e :: e' :: back → e.1 ≠ e'.1 →
      (({} : Bindings).setAll stores = ({} : Bindings).setAll (front ++ e' :: e :: back) ↔
        e.1 ∈ front.map (·.1) ∨ e'.1 ∈ front.map (·.1)) := by
  refine ⟨holds_start stores, ?_⟩
  rintro front e e' back rfl hne
  have hfront := holds_start front
  rw [setAll_append, setAll_append, set_set_setAll_iff hfront.nodup hne, hfront.names_eq,
    List.mem_eraseDups, List.mem_eraseDups]

/-- Two names that differ in case, each assigned twice. -/
theorem holds_setAll_swapped :
    "x" ≠ "X" ∧
    ({} : Bindings).setAll [("x", .int 1), ("X", .int 2), ("x", .int 3), ("X", .int 4)] =
      ({} : Bindings).setAll [("x", .int 1), ("X", .int 2), ("X", .int 4), ("x", .int 3)] := by
  have hne : "x" ≠ "X" := by decide
  exact ⟨hne, ((holds_setAll _).2 [("x", .int 1), ("X", .int 2)] ("x", .int 3) ("X", .int 4) [] rfl
    hne).mpr (.inl (by decide))⟩

end Bindings

namespace Eval

/-- A name is evaluated by looking it up: what is wrong is reported at its place, and it counts as
zero. -/
theorem name_eq_lookup (scope : Scope) : Eval.name scope = (do
    let t ← Feed.advance
    match t.payload with
    | .ident name =>
      match scope.bindings.lookup name with
      | .ok value => return value
      | .error problem =>
        modify (·.report ⟨problem, t.span⟩)
        return .int 0
    | _ => throw (.breach .payload)) := by
  unfold Eval.name Bindings.lookup
  congr 1
  funext t
  cases t.payload with
  | ident name => cases hv : scope.bindings.get? name <;> simp only [hv]
  | _ => rfl

end Eval

end LineCalc
