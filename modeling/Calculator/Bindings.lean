import Calculator.Fault
import Calculator.Function

/-!
Bindings: the variables and their values.

The entries are kept in the strict order of their names, so equal bindings have
equal entries. `get?` is the view through which everything else is stated:
`get?_set` says that writing a name changes that name and no other.
-/

namespace Calculator

/-- Variables with their values, in the order of the names' code points. -/
structure Bindings where
  entries : List (String × Float)
  sorted : entries.Pairwise fun a b => a.1 < b.1

namespace Bindings

/-- Writes a name into sorted entries, in place of the entry with that name. -/
def insertEntry (name : String) (value : Float) :
    List (String × Float) → List (String × Float)
  | [] => [(name, value)]
  | entry :: rest =>
    if name < entry.1 then (name, value) :: entry :: rest
    else if name = entry.1 then (name, value) :: rest
    else entry :: insertEntry name value rest

theorem mem_insertEntry {name : String} {value : Float}
    {entries : List (String × Float)} {e : String × Float}
    (h : e ∈ insertEntry name value entries) : e = (name, value) ∨ e ∈ entries := by
  induction entries with
  | nil => exact .inl (List.mem_singleton.mp h)
  | cons entry rest ih =>
    simp only [insertEntry] at h
    split at h
    · exact List.mem_cons.mp h
    · split at h
      · exact (List.mem_cons.mp h).imp id (List.mem_cons_of_mem _)
      · rcases List.mem_cons.mp h with rfl | h
        · exact .inr List.mem_cons_self
        · exact (ih h).imp id (List.mem_cons_of_mem _)

theorem fst_mem_insertEntry {name : String} {value : Float}
    {entries : List (String × Float)} {e : String × Float}
    (h : e ∈ insertEntry name value entries) : e.1 = name ∨ e ∈ entries :=
  (mem_insertEntry h).imp (congrArg Prod.fst) id

theorem pairwise_insertEntry {name : String} {value : Float}
    {entries : List (String × Float)} (sorted : entries.Pairwise fun a b => a.1 < b.1) :
    (insertEntry name value entries).Pairwise fun a b => a.1 < b.1 := by
  induction entries with
  | nil => simp [insertEntry]
  | cons entry rest ih =>
    have hrest := List.pairwise_cons.mp sorted
    simp only [insertEntry]
    split
    · rename_i hlt
      refine List.pairwise_cons.mpr ⟨fun e he => ?_, sorted⟩
      rcases List.mem_cons.mp he with rfl | he
      · exact hlt
      · exact String.lt_trans hlt (hrest.1 e he)
    · split
      · rename_i heq
        subst heq
        exact List.pairwise_cons.mpr ⟨hrest.1, hrest.2⟩
      · rename_i hlt hne
        refine List.pairwise_cons.mpr ⟨fun e he => ?_, ih hrest.2⟩
        rcases fst_mem_insertEntry he with h | he
        · rw [h]
          exact Std.lt_of_le_of_ne (String.not_lt.mp hlt) (Ne.symm hne)
        · exact hrest.1 e he

/-- No variables. -/
def empty : Bindings := ⟨[], List.Pairwise.nil⟩

/-- The value of a name, if it is bound. -/
def get? (b : Bindings) (name : String) : Option Float :=
  b.entries.lookup name

/-- Binds a name to a value, whatever it was bound to. -/
def set (b : Bindings) (name : String) (value : Float) : Bindings :=
  ⟨insertEntry name value b.entries, pairwise_insertEntry b.sorted⟩

/-- Whether a name is bound. -/
def contains (b : Bindings) (name : String) : Bool :=
  (b.get? name).isSome

/-- The number of names that are bound. -/
def size (b : Bindings) : Nat :=
  b.entries.length

/-- Whether no name is bound. -/
def isEmpty (b : Bindings) : Bool :=
  b.entries.isEmpty

/-- The value of a name that an expression reads. -/
def read (b : Bindings) (name : String) : Except Fault Float :=
  match b.get? name with
  | some value => .ok value
  | none => .error (.unknownVariable name)

/-- Binds several names in turn, so that the last value of a name stays. -/
def setAll (b : Bindings) (pairs : List (String × Float)) : Bindings :=
  pairs.foldl (fun b pair => b.set pair.1 pair.2) b

/-- The bindings that a calculation starts from: the constants. -/
def initial : Bindings :=
  empty.setAll constants

theorem lookup_insertEntry (name other : String) (value : Float)
    (entries : List (String × Float)) :
    (insertEntry name value entries).lookup other =
      if other = name then some value else entries.lookup other := by
  induction entries with
  | nil =>
    by_cases h : other = name
    · simp [insertEntry, h]
    · simp [insertEntry, List.lookup_cons, beq_false_of_ne h, h]
  | cons entry rest ih =>
    obtain ⟨n, v⟩ := entry
    simp only [insertEntry]
    split
    · by_cases h : other = name
      · simp [h]
      · simp [List.lookup_cons, beq_false_of_ne h, h]
    · split
      · rename_i heq
        subst heq
        by_cases h : other = name
        · simp [h]
        · simp [List.lookup_cons, beq_false_of_ne h, h]
      · rename_i hne
        by_cases h : other = n
        · subst h
          simp [Ne.symm hne]
        · simp [List.lookup_cons, beq_false_of_ne h, ih]

theorem read_eq_ok {b : Bindings} {name : String} {value : Float} :
    b.read name = .ok value ↔ b.get? name = some value := by
  unfold read
  cases b.get? name <;> simp

theorem read_eq_error {b : Bindings} {name : String} {fault : Fault} :
    b.read name = .error fault ↔ b.get? name = none ∧ fault = .unknownVariable name := by
  unfold read
  cases b.get? name <;> simp [eq_comm]

/-- Writing a name changes the value of that name and of no other. -/
theorem get?_set (b : Bindings) (name other : String) (value : Float) :
    (b.set name value).get? other = if other = name then some value else b.get? other :=
  lookup_insertEntry name other value b.entries

theorem insertEntry_insertEntry (name : String) (first second : Float)
    (entries : List (String × Float)) :
    insertEntry name second (insertEntry name first entries) =
      insertEntry name second entries := by
  induction entries with
  | nil => simp [insertEntry]
  | cons entry rest ih =>
    simp only [insertEntry]
    split
    · simp [insertEntry]
    · split
      · simp [insertEntry]
      · rename_i hlt hne
        rw [insertEntry, if_neg hlt, if_neg hne, ih]

/-- Of two values that a name is bound to in turn, the second one stays. -/
theorem set_set (b : Bindings) (name : String) (first second : Float) :
    (b.set name first).set name second = b.set name second := by
  simp only [set, insertEntry_insertEntry]

/-! ### Equal bindings -/

theorem lookup_eq_some_iff {name : String} {value : Float} {entries : List (String × Float)}
    (sorted : entries.Pairwise fun a b => a.1 < b.1) :
    entries.lookup name = some value ↔ (name, value) ∈ entries := by
  induction entries with
  | nil => simp
  | cons entry rest ih =>
    obtain ⟨n, v⟩ := entry
    obtain ⟨later, sorted⟩ := List.pairwise_cons.mp sorted
    by_cases h : name = n
    · subst h
      have once : (name, value) ∉ rest := fun mem => String.lt_irrefl name (later (name, value) mem)
      simp [once, eq_comm]
    · simp [List.lookup_cons, beq_false_of_ne h, h, ih sorted]

/-- The entries are the names that are bound, with their values. -/
theorem get?_eq_some_iff {b : Bindings} {name : String} {value : Float} :
    b.get? name = some value ↔ (name, value) ∈ b.entries :=
  lookup_eq_some_iff b.sorted

theorem nodup_entries (b : Bindings) : b.entries.Nodup := by
  refine b.sorted.imp ?_
  rintro entry _ less rfl
  exact String.lt_irrefl entry.1 less

/-- Bindings are equal if every name has the same value in both. -/
theorem ext_get? {a b : Bindings} (same : ∀ name, a.get? name = b.get? name) : a = b := by
  have mem (entry : String × Float) : entry ∈ a.entries ↔ entry ∈ b.entries := by
    rw [← get?_eq_some_iff, same, get?_eq_some_iff]
  have perm := (List.perm_ext_iff_of_nodup a.nodup_entries b.nodup_entries).mpr mem
  have entries : a.entries = b.entries :=
    perm.eq_of_pairwise (fun _ _ _ _ less more => absurd less (String.lt_asymm more))
      a.sorted b.sorted
  cases a
  cases entries
  rfl

/-- Two names can be bound in either order. -/
theorem set_comm (b : Bindings) {first second : String} (other : first ≠ second)
    (value value' : Float) :
    (b.set first value).set second value' = (b.set second value').set first value := by
  refine ext_get? fun name => ?_
  simp only [get?_set]
  by_cases isFirst : name = first
  · simp [isFirst, other]
  · simp [isFirst]

end Bindings

end Calculator
