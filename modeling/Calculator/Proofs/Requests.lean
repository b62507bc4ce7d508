import Calculator.Proofs.ByteOrder
import Calculator.Proofs.Reads
import Calculator.Proofs.Sampling
import Calculator.Requests

/-!
What stays of the writes to bindings.

Whatever is asked of bindings, it comes down to writes of single names, one after the other
(`Request.serve_eq_setAll`): a statement writes the name it assigns, and sampling writes the
variable at each point and then what the statement assigns there, up to the first failure. So a run
of requests leaves what a list of writes leaves (`serveAll_eq_setAll`), and of such a list only the
last write to each name matters (`Bindings.get?_setAll`). The bindings list these names, each
once and in the order of their bytes (`Bindings.Keeps`).
-/

namespace Calculator

/-! ### The last write -/

/-- The value of the last write to a name. -/
def lastWrite? (writes : List (String × Float)) (name : String) : Option Float :=
  writes.reverse.lookup name

theorem lastWrite?_append (first second : List (String × Float)) (name : String) :
    lastWrite? (first ++ second) name = (lastWrite? second name).or (lastWrite? first name) := by
  rw [lastWrite?, List.reverse_append, List.lookup_append]
  rfl

theorem lastWrite?_cons (write : String × Float) (writes : List (String × Float)) (name : String) :
    lastWrite? (write :: writes) name =
      (lastWrite? writes name).or (if name = write.1 then some write.2 else none) := by
  have one : lastWrite? [write] name = if name = write.1 then some write.2 else none := by
    obtain ⟨other, value⟩ := write
    by_cases same : name = other
    · simp [lastWrite?, same]
    · simp [lastWrite?, List.lookup_cons, beq_false_of_ne same, same]
  rw [← one, ← lastWrite?_append, List.singleton_append]

theorem lastWrite?_eq_none_iff {writes : List (String × Float)} {name : String} :
    lastWrite? writes name = none ↔ name ∉ writes.map Prod.fst := by
  induction writes with
  | nil => simp [lastWrite?]
  | cons write writes ih =>
    rw [lastWrite?_cons, Option.or_eq_none_iff, ih, List.map_cons, List.mem_cons, not_or]
    by_cases same : name = write.1
    · simp [same]
    · simp [same]

/-- Where each name is written once, the last write is the first one as well. -/
theorem lastWrite?_of_sorted {entries : List (String × Float)}
    (sorted : entries.Pairwise fun a b => a.1 < b.1) (name : String) :
    lastWrite? entries name = entries.lookup name := by
  induction entries with
  | nil => rfl
  | cons entry rest ih =>
    obtain ⟨later, sorted⟩ := List.pairwise_cons.mp sorted
    rw [lastWrite?_cons, ih sorted, List.lookup_cons]
    by_cases same : name = entry.1
    · have unbound : rest.lookup name = none := by
        rw [← ih sorted, lastWrite?_eq_none_iff, same]
        intro mem
        obtain ⟨other, mem, again⟩ := List.mem_map.mp mem
        exact String.lt_irrefl entry.1 (again ▸ later other mem)
      simp [same ▸ unbound, same]
    · simp [same, beq_false_of_ne same]

namespace Bindings

theorem setAll_cons (bindings : Bindings) (write : String × Float)
    (writes : List (String × Float)) :
    bindings.setAll (write :: writes) = (bindings.set write.1 write.2).setAll writes := rfl

theorem setAll_append (bindings : Bindings) (first second : List (String × Float)) :
    bindings.setAll (first ++ second) = (bindings.setAll first).setAll second :=
  List.foldl_append

/-- Of the writes to a name the last one stays, and where there is none, what was there before. -/
theorem get?_setAll (bindings : Bindings) (writes : List (String × Float)) (name : String) :
    (bindings.setAll writes).get? name = (lastWrite? writes name).or (bindings.get? name) := by
  induction writes generalizing bindings with
  | nil => rfl
  | cons write writes ih =>
    rw [setAll_cons, ih, get?_set, lastWrite?_cons]
    by_cases same : name = write.1
    · simp [same]
    · simp [same]

theorem lastWrite?_entries (bindings : Bindings) (name : String) :
    lastWrite? bindings.entries name = bindings.get? name :=
  lastWrite?_of_sorted bindings.sorted name

/-- The names that bindings bind are those of some writes, with their last values; they are listed
once each, in the order of their bytes, and looking up and counting agree with the list. -/
structure Keeps (bindings : Bindings) (writes : List (String × Float)) : Prop where
  ascending : bindings.entries.Pairwise fun a b => bytes a.1 < bytes b.1
  nodup : (bindings.entries.map Prod.fst).Nodup
  mem_entries_iff : ∀ name value,
    (name, value) ∈ bindings.entries ↔ lastWrite? writes name = some value
  read_eq : ∀ name, bindings.read name =
    match lastWrite? writes name with
    | some value => .ok value
    | none => .error (.unknownVariable name)
  contains_iff : ∀ name, bindings.contains name ↔ ∃ value, bindings.read name = .ok value
  size_eq : bindings.size = (writes.map Prod.fst).dedup.length
  size_eq_length : bindings.size = (bindings.entries.map Prod.fst).length
  isEmpty_iff : bindings.isEmpty ↔ bindings.size = 0

theorem keeps_of_get? {bindings : Bindings} {writes : List (String × Float)}
    (last : ∀ name, bindings.get? name = lastWrite? writes name) :
    bindings.Keeps writes := by
  have ascending : bindings.entries.Pairwise fun a b => bytes a.1 < bytes b.1 :=
    bindings.sorted.imp bytes_lt_bytes_iff.mpr
  have nodup : (bindings.entries.map Prod.fst).Nodup := by
    refine List.pairwise_map.mpr (bindings.sorted.imp ?_)
    intro a b less same
    exact String.lt_irrefl a.1 (same ▸ less)
  constructor
  case ascending => exact ascending
  case nodup => exact nodup
  case mem_entries_iff =>
    intro name value
    rw [← get?_eq_some_iff, last]
  case read_eq =>
    intro name
    have last := last name
    cases written : lastWrite? writes name with
    | some value => exact read_eq_ok.mpr (last.trans written)
    | none => exact read_eq_error.mpr ⟨last.trans written, rfl⟩
  case contains_iff =>
    intro name
    simp only [read_eq_ok, contains, Option.isSome_iff_exists]
  case size_eq =>
    have names (name : String) :
        name ∈ bindings.entries.map Prod.fst ↔ name ∈ (writes.map Prod.fst).dedup := by
      rw [List.mem_dedup, ← not_iff_not, ← lastWrite?_eq_none_iff, ← lastWrite?_eq_none_iff,
        lastWrite?_entries, last]
    have perm := (List.perm_ext_iff_of_nodup nodup (List.nodup_dedup _)).mpr names
    rw [← perm.length_eq, List.length_map, size]
  case size_eq_length => rw [List.length_map, size]
  case isEmpty_iff => rw [isEmpty, size, List.isEmpty_iff, List.length_eq_zero_iff]

end Bindings

/-! ### Requests -/

/-- What is written while a text is executed at points in turn, up to the first failure. -/
def sampleWrites (text : String) (bindings : Bindings) : List Float → List (String × Float)
  | [] => []
  | x :: points =>
    let start := bindings.set sampleVariable x
    let answer := evaluate text start
    (sampleVariable, x) :: ((written? answer).toList ++
      if answer.isOk then sampleWrites text (start.after answer) points else [])

/-- What a request writes, the first write first. -/
def Request.writes (bindings : Bindings) : Request → List (String × Float)
  | .set name value => [(name, value)]
  | .evaluate text => (written? (Calculator.evaluate text bindings)).toList
  | .sample text grid =>
    match scan text with
    | .ok _ => sampleWrites text bindings grid.points
    | .error _ => []

/-- What several requests write in turn. -/
def journal (bindings : Bindings) : List Request → List (String × Float)
  | [] => []
  | request :: requests =>
    request.writes bindings ++ journal (request.serve bindings) requests

theorem sampleAt_eq_setAll (text : String) (bindings : Bindings) (points : List Float) :
    (sampleAt text bindings points).2 = bindings.setAll (sampleWrites text bindings points) := by
  induction points generalizing bindings with
  | nil => rfl
  | cons x points ih =>
    simp only [sampleWrites, Bindings.setAll_cons, Bindings.setAll_append, ← after_eq_setAll]
    cases evaluated : evaluate text (bindings.set sampleVariable x) with
    | error e =>
      rw [sampleAt_of_error points evaluated]
      rfl
    | ok tree =>
      rw [sampleAt_of_ok points evaluated]
      exact ih _

/-- A request leaves what its writes leave, one after the other. -/
theorem Request.serve_eq_setAll (bindings : Bindings) (request : Request) :
    request.serve bindings = bindings.setAll (request.writes bindings) := by
  cases request with
  | set name value => rfl
  | evaluate text => exact after_eq_setAll _
  | sample text grid =>
    unfold serve writes
    cases scanned : scan text with
    | error e =>
      simp only [Calculator.sample, scanned]
      rfl
    | ok tokens =>
      simp only [sample_of_scan scanned, scanned]
      exact sampleAt_eq_setAll text bindings grid.points

/-- A run of requests leaves what all their writes leave. -/
theorem serveAll_eq_setAll (bindings : Bindings) (requests : List Request) :
    serveAll bindings requests = bindings.setAll (journal bindings requests) := by
  induction requests generalizing bindings with
  | nil => rfl
  | cons request requests ih =>
    have first : serveAll bindings (request :: requests) =
        serveAll (request.serve bindings) requests := rfl
    rw [first, ih, journal, Bindings.setAll_append, ← Request.serve_eq_setAll]

theorem get?_serveAll (bindings : Bindings) (requests : List Request) (name : String) :
    (serveAll bindings requests).get? name =
      lastWrite? (bindings.entries ++ journal bindings requests) name := by
  rw [serveAll_eq_setAll, Bindings.get?_setAll, lastWrite?_append, Bindings.lastWrite?_entries]

/-- After any requests the bindings keep the last write to each name, where what they began with,
be it nothing, the constants or anything else, counts as written first. Requests with the same last
writes leave the same list. -/
theorem serveAll_keeps (bindings : Bindings) (requests : List Request) :
    (serveAll bindings requests).Keeps (bindings.entries ++ journal bindings requests) ∧
    ∀ others, (∀ name, lastWrite? (bindings.entries ++ journal bindings requests) name =
        lastWrite? (bindings.entries ++ journal bindings others) name) →
      (serveAll bindings requests).entries = (serveAll bindings others).entries := by
  constructor
  · exact Bindings.keeps_of_get? (get?_serveAll bindings requests)
  · intro others same
    have equal : serveAll bindings requests = serveAll bindings others := by
      refine Bindings.ext_get? ?_
      intro name
      rw [get?_serveAll, get?_serveAll, same]
    rw [equal]

/-- An assignment that is sampled over three points, between two values for a letter outside ASCII,
comes to the last three writes. -/
theorem serveAll_keeps_sampled :
    ∃ grid : Grid,
      let requests := [.set "é" 1.0, .sample "a=x" grid, .set "é" 3.0]
      (serveAll .empty requests).Keeps (journal .empty requests) ∧
      (serveAll .empty requests).entries =
        (serveAll .empty [.set "é" 3.0, .set "x" 2.0, .set "a" 2.0]).entries := by
  let grid : Grid := ⟨0.0, 2.0, 1.0, by decide +kernel⟩
  have scanned : scan "a=x" = .ok [⟨.identifier "a", 0⟩, ⟨.assign, 1⟩, ⟨.identifier "x", 2⟩,
      ⟨.endOfInput, 3⟩] := by
    simp [scan, Token.scanFrom, Token.isBlank, Token.startsNumeral, Token.ofSymbol?]
  have points : grid.points = [0.0, 1.0, 2.0] := by decide +kernel
  have sampled : journal .empty [.set "é" 1.0, .sample "a=x" grid, .set "é" 3.0] =
      [("é", 1.0), ("x", 0.0), ("a", 0.0), ("x", 1.0), ("a", 1.0), ("x", 2.0), ("a", 2.0),
        ("é", 3.0)] := by
    simp only [journal, Request.writes, scanned, points, sampleWrites, evaluate_of_scan scanned]
    rfl
  obtain ⟨keeps, equal⟩ :=
    serveAll_keeps .empty [.set "é" 1.0, .sample "a=x" grid, .set "é" 3.0]
  refine ⟨grid, keeps, equal _ ?_⟩
  intro name
  have direct : journal .empty [.set "é" 3.0, .set "x" 2.0, .set "a" 2.0] =
      [("é", 3.0), ("x", 2.0), ("a", 2.0)] := rfl
  rw [sampled, direct]
  simp only [Bindings.empty, List.nil_append, lastWrite?_cons]
  by_cases accented : name = "é"
  · simp [accented]
  · by_cases isX : name = "x"
    · simp [isX]
    · by_cases isA : name = "a"
      · simp [isA]
      · simp [accented, isX, isA, lastWrite?]

end Calculator
