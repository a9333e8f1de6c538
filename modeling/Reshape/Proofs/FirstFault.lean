import Reshape.Proofs.Failure
import Reshape.Proofs.PathGrammar
import Reshape.Proofs.Rendering

/-!
# The first fault of a rule document

Reading goes through a document in a fixed order. `Rule.visits` lists what it comes across as if
nothing could go wrong, and `Visit.fault?` is the check that is made at each place, on its own. The
document is read exactly if all checks pass, and otherwise the error is that of the first check that
does not (`Rule.failure?_ofJsonAt`). So a value that lies too deep hides its other faults and its
parts, the path of a repeating rule comes before its entries, and nothing is visited inside the
entries that a repeating rule ignores. The path of a repeating rule is no rule and has no depth.

* `Rule.ofJson_reports_first_fault`: single rules and rule sets report their first fault.
-/

namespace Reshape

/-- A place that reading comes to. -/
inductive Visit where
  /-- A value that should be a rule, with its depth. -/
  | rule (depth : Nat) (value : Json)
  /-- A value that should be the path of a repeating rule. -/
  | source (value : Json)
  /-- A value that should be a rule set. -/
  | rules (value : Json)
deriving DecidableEq

namespace Visit

/-- The fault of a value as a rule, apart from its depth and its parts. -/
def ruleFault? : Json → Option Error
  | .string text =>
    if beginsWithDollar text ∧ ¬ Path.Grammatical text then some (.malformedPath text) else none
  | .object _ => none
  | value => some (.notARule value.kind)

/-- What is at fault at a place, if anything is. -/
def fault? (limit : Nat) : Visit → Option Error
  | .rule depth value => if limit < depth then some (.tooDeep limit) else ruleFault? value
  | .source (.string text) =>
    if Path.Grammatical text then none else some (.malformedPath text)
  | .source value => some (.malformedPath value.text)
  | .rules (.object _) => none
  | .rules value => some (.notARule value.kind)

/-- All checks pass. -/
def Pass (limit : Nat) (visits : List Visit) : Prop := ∀ visit ∈ visits, visit.fault? limit = none

/-- The error is that of the first check that does not pass. -/
def FailFirst (limit : Nat) (visits : List Visit) (error : Error) : Prop :=
  ∃ before visit after, visits = before ++ visit :: after ∧ Pass limit before ∧
    visit.fault? limit = some error

end Visit

namespace Rule

/-- Whether an entry of a repeating rule is read as a rule. -/
def heeded (key : String) : Bool := !isReserved key || key == keyEntry || key == indexEntry

mutual

/-- The places that reading a rule comes to, in order. -/
def visits (depth : Nat) : Json → List Visit
  | .object entries =>
    .rule depth (.object entries) ::
      match Entries.get? entries eachEntry with
      | some source => .source source :: visitsEntries heeded (depth + 1) entries
      | none => visitsEntries (fun _ => true) (depth + 1) entries
  | value => [.rule depth value]

/-- The same for the entries under the keys that are read. -/
def visitsEntries (read : String → Bool) (depth : Nat) : List (String × Json) → List Visit
  | [] => []
  | (key, value) :: rest =>
    if read key then visits depth value ++ visitsEntries read depth rest
    else visitsEntries read depth rest

end

end Rule

/-- The places that reading a rule set comes to, in order. -/
def RuleSet.visits : Json → List Visit
  | .object entries => .rules (.object entries) :: Rule.visitsEntries (fun _ => true) 1 entries
  | value => [.rules value]

namespace Rule

variable {limit depth : Nat} {entries : List (String × Json)}

/-! ## Entries -/

/-- If values fail by their visits, the entries that are read fail by theirs. -/
theorem findSome?_visitsEntries (read : String → Bool)
    (parts : ∀ entry ∈ entries, failure? (ofJsonAt limit depth entry.2).result =
      (visits depth entry.2).findSome? (Visit.fault? limit)) :
    (visitsEntries read depth entries).findSome? (Visit.fault? limit) =
      (Entries.restrict read entries).findSome? fun entry =>
        failure? (ofJsonAt limit depth entry.2).result := by
  induction entries with
  | nil => rfl
  | cons entry rest ih =>
    obtain ⟨key, value⟩ := entry
    obtain ⟨here, parts⟩ := List.forall_mem_cons.mp parts
    rw [visitsEntries]
    split
    · next kept =>
      rw [List.findSome?_append, ih parts, ← here, Entries.restrict_cons_of_pos kept,
        findSome?_cons_eq_or]
    · next dropped =>
      rw [ih parts, Entries.restrict_cons_of_neg (Bool.eq_false_iff.mpr dropped)]

/-- Entries fail with the first of them that does. -/
theorem failure?_ofJsonEntries (entries : List (String × Json)) :
    failure? (ofJsonEntries limit depth entries).result =
      entries.findSome? fun entry => failure? (ofJsonAt limit depth entry.2).result := by
  induction entries with
  | nil => rw [result_ofJsonEntries_nil, failure?_ok, List.findSome?_nil]
  | cons entry rest ih =>
    obtain ⟨key, value⟩ := entry
    rw [result_ofJsonEntries_cons, failure?_bind fun rule => failure?_bind_of_ok fun rules => rfl,
      ih, findSome?_cons_eq_or]

theorem heeded_of_not_isReserved {key : String} (plain : ¬ isReserved key = true) :
    heeded key = true := by
  rw [heeded, Bool.eq_false_iff.mpr plain]
  rfl

theorem heeded_eq_false {key : String} (reserved : isReserved key = true)
    (notKey : key ≠ keyEntry) (notIndex : key ≠ indexEntry) : heeded key = false := by
  rw [heeded, reserved, beq_false_of_ne notKey, beq_false_of_ne notIndex]
  rfl

/-- The entries of a repeating rule fail with the first of those that are read as rules. -/
theorem failure?_ofJsonBody (entries : List (String × Json)) :
    failure? (ofJsonBody limit depth entries).result =
      (Entries.restrict heeded entries).findSome? fun entry =>
        failure? (ofJsonAt limit depth entry.2).result := by
  induction entries with
  | nil => rw [result_ofJsonBody_nil, failure?_ok]; rfl
  | cons entry rest ih =>
    obtain ⟨key, value⟩ := entry
    -- a rule that is read stands in front of what follows, whatever it is built into
    have step (read : heeded key = true) (build : Rule → Body → Body) :
        failure? ((ofJsonAt limit depth value).result >>= fun rule =>
          (ofJsonBody limit depth rest).result >>= fun body => pure (build rule body)) =
        (Entries.restrict heeded ((key, value) :: rest)).findSome? fun entry =>
          failure? (ofJsonAt limit depth entry.2).result := by
      rw [failure?_bind fun rule => failure?_bind_of_ok fun body => rfl, ih,
        Entries.restrict_cons_of_pos read, findSome?_cons_eq_or]
    rw [result_ofJsonBody_cons]
    split_ifs with each named placed reserved
    · rw [ih, Entries.restrict_cons_of_neg (each ▸ by decide)]
    · exact step (named ▸ by decide) _
    · exact step (placed ▸ by decide) _
    · rw [ih, Entries.restrict_cons_of_neg (heeded_eq_false reserved named placed)]
    · exact step (heeded_of_not_isReserved reserved) _

/-! ## Rules -/

theorem failure?_ofText (text : String) :
    failure? (Path.ofText text) =
      if Path.Grammatical text then none else some (.malformedPath text) := by
  split
  · next grammatical => exact failure?_eq_none_iff.mpr (Path.exists_ofText_iff.mpr grammatical)
  · next other => exact failure?_eq_some_iff.mpr (Path.ofText_eq_error_iff.mpr ⟨other, rfl⟩)

theorem failure?_eachPath (source : Json) :
    failure? (eachPath source) = (Visit.source source).fault? limit := by
  cases source with
  | string text => exact failure?_ofText text
  | null => rfl
  | bool value => rfl
  | number value => rfl
  | array items => rfl
  | object entries => rfl

theorem failure?_ofJsonAt_string (shallow : ¬ limit < depth) (text : String) :
    failure? (ofJsonAt limit depth (.string text)).result = Visit.ruleFault? (.string text) := by
  rw [result_ofJsonAt_string shallow, Visit.ruleFault?]
  split
  · next dollar =>
    have read := failure?_ofText text
    cases parsed : Path.ofText text with
    | ok path =>
      have grammatical := Path.exists_ofText_iff.mp ⟨path, parsed⟩
      rw [if_neg fun fault => fault.2 grammatical]
      rfl
    | error error =>
      obtain ⟨other, rfl⟩ := Path.ofText_eq_error_iff.mp parsed
      rw [if_pos ⟨dollar, other⟩]
      rfl
  · next plain =>
    rw [if_neg fun fault => plain fault.1]
    rfl

theorem visits_object (absent : Entries.get? entries eachEntry = none) :
    visits depth (.object entries) =
      .rule depth (.object entries) :: visitsEntries (fun _ => true) (depth + 1) entries := by
  rw [visits, absent]

theorem visits_each {source : Json} (found : Entries.get? entries eachEntry = some source) :
    visits depth (.object entries) =
      .rule depth (.object entries) :: .source source ::
        visitsEntries heeded (depth + 1) entries := by
  rw [visits, found]

theorem fault?_rule (shallow : ¬ limit < depth) (value : Json) :
    (Visit.rule depth value).fault? limit = Visit.ruleFault? value := if_neg shallow

/-- Whatever a value is, it is visited first, and its depth is checked before anything else. -/
theorem failure?_ofJsonAt_deep (deep : limit < depth) (value : Json) :
    failure? (ofJsonAt limit depth value).result =
      (visits depth value).findSome? (Visit.fault? limit) := by
  have first : ∃ rest, visits depth value = .rule depth value :: rest := by
    cases value <;> exact ⟨_, rfl⟩
  obtain ⟨rest, first⟩ := first
  rw [result_ofJsonAt_deep deep, first, findSome?_cons_eq_or, Visit.fault?, if_pos deep]
  rfl

theorem failure?_ofJsonAt_other {value : Json} (notString : value.kind ≠ .string)
    (notObject : value.kind ≠ .object) :
    failure? (ofJsonAt limit depth value).result =
      (visits depth value).findSome? (Visit.fault? limit) := by
  by_cases deep : limit < depth
  · exact failure?_ofJsonAt_deep deep value
  have alone : visits depth value = [.rule depth value] ∧
      Visit.ruleFault? value = some (.notARule value.kind) := by
    cases value with
    | string text => exact absurd rfl notString
    | object entries => exact absurd rfl notObject
    | null => exact ⟨rfl, rfl⟩
    | bool value => exact ⟨rfl, rfl⟩
    | number value => exact ⟨rfl, rfl⟩
    | array items => exact ⟨rfl, rfl⟩
  rw [result_ofJsonAt_other deep notString notObject, alone.1, List.findSome?_singleton,
    fault?_rule deep, alone.2, failure?_error]

/-- A document is read unless one of the checks fails, and the first one that does is reported. -/
theorem failure?_ofJsonAt (value : Json) :
    failure? (ofJsonAt limit depth value).result =
      (visits depth value).findSome? (Visit.fault? limit) := by
  induction value generalizing depth with
  | null => exact failure?_ofJsonAt_other nofun nofun
  | bool value => exact failure?_ofJsonAt_other nofun nofun
  | number value => exact failure?_ofJsonAt_other nofun nofun
  | array items _ => exact failure?_ofJsonAt_other nofun nofun
  | string text =>
    by_cases deep : limit < depth
    · exact failure?_ofJsonAt_deep deep _
    have alone : visits depth (.string text) = [.rule depth (.string text)] := rfl
    rw [failure?_ofJsonAt_string deep, alone, List.findSome?_singleton, fault?_rule deep]
  | object entries ih =>
    by_cases deep : limit < depth
    · exact failure?_ofJsonAt_deep deep _
    have parts : ∀ entry ∈ entries, failure? (ofJsonAt limit (depth + 1) entry.2).result =
        (visits (depth + 1) entry.2).findSome? (Visit.fault? limit) :=
      fun entry member => ih entry member
    cases found : Entries.get? entries eachEntry with
    | none =>
      have all : Entries.restrict (fun _ => true) entries = entries := List.filter_true entries
      rw [result_ofJsonAt_object deep found, failure?_bind_of_ok fun rules => rfl,
        failure?_ofJsonEntries, visits_object found, findSome?_cons_eq_or, fault?_rule deep,
        findSome?_visitsEntries _ parts, all]
      rfl
    | some source =>
      rw [result_ofJsonAt_each deep found,
        failure?_bind fun path => failure?_bind_of_ok fun body => rfl, failure?_ofJsonBody,
        failure?_eachPath, visits_each found, findSome?_cons_eq_or, findSome?_cons_eq_or,
        fault?_rule deep, findSome?_visitsEntries _ parts]
      rfl

end Rule

/-- The same for a rule set, which is an object whatever its entries are. -/
theorem RuleSet.failure?_ofJson (limit : Nat) (value : Json) :
    failure? (RuleSet.ofJson limit value).result =
      (RuleSet.visits value).findSome? (Visit.fault? limit) := by
  cases value with
  | object entries =>
    have all : Entries.restrict (fun _ => true) entries = entries := List.filter_true entries
    rw [Rule.result_ofJson_ruleSet, failure?_bind_of_ok fun rules => rfl,
      Rule.failure?_ofJsonEntries, RuleSet.visits, findSome?_cons_eq_or,
      Rule.findSome?_visitsEntries _ fun entry _ => Rule.failure?_ofJsonAt entry.2, all]
    rfl
  | null => rfl
  | bool value => rfl
  | number value => rfl
  | string text => rfl
  | array items => rfl

/-! ## The first fault -/

section Reports

variable {α : Type} {limit : Nat} {visits : List Visit} {result : Except Error α}

theorem exists_ok_iff_pass (reports : failure? result = visits.findSome? (Visit.fault? limit)) :
    (∃ value, result = .ok value) ↔ Visit.Pass limit visits := by
  rw [← failure?_eq_none_iff, reports, List.findSome?_eq_none_iff]
  rfl

theorem eq_error_iff_failFirst
    (reports : failure? result = visits.findSome? (Visit.fault? limit)) (error : Error) :
    result = .error error ↔ Visit.FailFirst limit visits error := by
  rw [← failure?_eq_some_iff, reports, List.findSome?_eq_some_iff]
  constructor
  · rintro ⟨before, visit, after, split, fault, pass⟩
    exact ⟨before, visit, after, split, pass, fault⟩
  · rintro ⟨before, visit, after, split, pass, fault⟩
    exact ⟨before, visit, after, split, fault, pass⟩

end Reports

/-- A document is read as a rule exactly if every check on the way passes, and otherwise the error
is that of the first check that does not; so it is for rule sets. -/
theorem Rule.ofJson_reports_first_fault (limit : Nat) (value : Json) :
    ((∃ rule, Eval.result (ofJson limit value) = .ok rule) ↔ Visit.Pass limit (visits 0 value)) ∧
      (∀ error, Eval.result (ofJson limit value) = .error error ↔
        Visit.FailFirst limit (visits 0 value) error) ∧
      ((∃ rules, Eval.result (RuleSet.ofJson limit value) = .ok rules) ↔
        Visit.Pass limit (RuleSet.visits value)) ∧
      ∀ error, Eval.result (RuleSet.ofJson limit value) = .error error ↔
        Visit.FailFirst limit (RuleSet.visits value) error := by
  have rule : failure? (ofJson limit value).result =
      (visits 0 value).findSome? (Visit.fault? limit) := failure?_ofJsonAt value
  have rules := RuleSet.failure?_ofJson limit value
  exact ⟨exists_ok_iff_pass rule, eq_error_iff_failFirst rule, exists_ok_iff_pass rules,
    eq_error_iff_failFirst rules⟩

-- the path is no path, the entry before it is nested too deep, and the ignored one is no rule
example : Eval.result (Rule.ofJson 1 (.object [("a", .object [("b", .string "t")]),
    ("$note", .null), ("$each", .string "rows")])) = .error (.malformedPath "rows") := by
  decide +kernel

end Reshape
