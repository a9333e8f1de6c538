import Reshape.Proofs.FirstFault
import Reshape.Proofs.WellFormed

/-!
# The limit of nesting

A smaller limit cuts reading off and changes nothing else. At every place the check comes out the
same under both limits unless it finds the place too deep (`Visit.fault?_of_le`), so the first fault
is the same one or that of a place that is too deep (`Visit.findSome?_fault?_of_le`). A rule that was
read fits any limit that leaves room for its nesting (`Rule.reads_of_nesting`).

* `Rule.limit_cuts_off`: all this for single rules and for rule sets.
-/

namespace Reshape

/-! ## Faults under two limits -/

namespace Visit

variable {n m : Nat}

theorem fault?_of_le (le : n ≤ m) (visit : Visit) :
    visit.fault? n = visit.fault? m ∨ visit.fault? n = some (.tooDeep n) := by
  cases visit with
  | rule depth value =>
    by_cases deep : n < depth
    · exact Or.inr (if_pos deep)
    · have shallow : ¬ m < depth := by omega
      exact Or.inl ((Rule.fault?_rule deep value).trans (Rule.fault?_rule shallow value).symm)
  | source value => exact Or.inl (by cases value <;> rfl)
  | rules value => exact Or.inl (by cases value <;> rfl)

/-- The first fault under the smaller limit is the first fault under the larger one, or it comes
before and is that of a place that is too deep. -/
theorem findSome?_fault?_of_le (le : n ≤ m) (visits : List Visit) :
    visits.findSome? (fault? n) = visits.findSome? (fault? m) ∨
      visits.findSome? (fault? n) = some (.tooDeep n) := by
  induction visits with
  | nil => exact Or.inl rfl
  | cons visit rest ih =>
    rw [findSome?_cons_eq_or, findSome?_cons_eq_or]
    rcases fault?_of_le le visit with same | deep
    · rw [same]
      cases visit.fault? m with
      | none => exact ih
      | some error => exact Or.inl rfl
    · rw [deep]
      exact Or.inr rfl

end Visit

/-! ## Rules under two limits -/

/-- A smaller limit only cuts off what is read; `root` is the rule that this comes to. -/
structure CutsOff {α : Type} (read : Nat → Except Error α) (root : α → Rule) (n m : Nat) :
    Prop where
  same_or_tooDeep : read n = read m ∨ read n = .error (.tooDeep n)
  within : ∀ whole, read n = .ok whole → ∀ depth part, (root whole).HasPart depth part → depth ≤ n
  exactly : ∀ whole k, read m = .ok whole → (root whole).nesting = k →
    ((∃ other, read n = .ok other) ↔ k ≤ n)

theorem eq_of_failure?_eq {α : Type} {first second : Except Error α}
    (same : failure? first = failure? second)
    (unique : ∀ x y, first = .ok x → second = .ok y → x = y) : first = second := by
  cases first with
  | error error => exact (failure?_eq_some_iff.mp same.symm).symm
  | ok x =>
    obtain ⟨y, rfl⟩ := failure?_eq_none_iff.mp same.symm
    rw [unique x y rfl rfl]

/-- What is found out by visiting places, comes to one thing at most, and fits the limits that leave
room for it, is cut off by a smaller limit. -/
theorem cutsOff_of_reports {α : Type} {read : Nat → Except Error α} {root : α → Rule}
    {visits : List Visit}
    (reports : ∀ limit, failure? (read limit) = visits.findSome? (Visit.fault? limit))
    (unique : ∀ limit limit' x y, read limit = .ok x → read limit' = .ok y → x = y)
    (fits : ∀ limit x, read limit = .ok x → ∀ limit',
      read limit' = .ok x ↔ (root x).nesting ≤ limit')
    {n m : Nat} (le : n ≤ m) : CutsOff read root n m := by
  refine ⟨?_, fun whole succeeds depth part inside => ?_, fun whole k succeeds nested => ?_⟩
  · rcases Visit.findSome?_fault?_of_le le visits with same | deep
    · rw [← reports n, ← reports m] at same
      exact Or.inl (eq_of_failure?_eq same (unique n m))
    · rw [← reports n] at deep
      exact Or.inr (failure?_eq_some_iff.mp deep)
  · exact (Rule.le_nesting_of_hasPart inside).trans ((fits n whole succeeds n).mp succeeds)
  · rw [← nested, ← fits m whole succeeds n]
    constructor
    · rintro ⟨other, cut⟩
      rwa [unique n m other whole cut succeeds] at cut
    · exact fun cut => ⟨whole, cut⟩

namespace Rule

variable {limit limit' depth : Nat} {value : Json} {rule : Rule}

/-- A rule that was read is read under every limit that leaves room for it. -/
theorem reads_of_nesting (distinct : value.DistinctKeys) (read : Reads limit depth value rule)
    (room : depth + rule.nesting ≤ limit') : Reads limit' depth value rule := by
  have again : Reads limit' depth rule.render rule :=
    reads_render (every_regular_of_reads distinct read) room
  rw [render_of_reads distinct read] at again
  exact (reads_normalRule_iff distinct).mp again

theorem entryOf_of_nesting {entries : List (String × Json)} {rules : List (String × Rule)}
    (distinct : ∀ entry ∈ entries, entry.2.DistinctKeys)
    (read : List.Forall₂ (EntryOf limit depth) entries rules)
    (room : ∀ rule ∈ rules, depth + rule.2.nesting ≤ limit') :
    List.Forall₂ (EntryOf limit' depth) entries rules := by
  induction read with
  | nil => exact .nil
  | cons first _ ih =>
    obtain ⟨here, distinct⟩ := List.forall_mem_cons.mp distinct
    obtain ⟨fits, room⟩ := List.forall_mem_cons.mp room
    exact .cons ⟨first.1, reads_of_nesting here first.2 fits⟩ (ih distinct room)

/-- A rule that was read is read under the limits that leave room for it. -/
theorem ofJson_iff_nesting_le (distinct : value.DistinctKeys)
    (read : Eval.result (ofJson limit value) = .ok rule) :
    Eval.result (ofJson limit' value) = .ok rule ↔ rule.nesting ≤ limit' := by
  constructor
  · intro again
    have room := nesting_of_reads again
    omega
  · exact fun room => reads_of_nesting distinct read (by omega)

end Rule

/-! ## Rule sets under two limits -/

namespace RuleSet

variable {limit limit' : Nat} {value : Json} {rules : RuleSet}

theorem ofJson_eq_ok_iff : Eval.result (ofJson limit value) = .ok rules ↔
    ∃ entries, value = .object entries ∧
      List.Forall₂ (Rule.EntryOf limit 1) entries rules.entries := by
  cases value with
  | object entries =>
    rw [Rule.result_ofJson_ruleSet]
    constructor
    · intro read
      obtain ⟨read', inner, same⟩ := of_bind_eq_ok read
      cases same
      exact ⟨entries, rfl, Rule.entryOf_of_ofJsonEntries inner⟩
    · rintro ⟨_, ⟨rfl⟩, related⟩
      rw [Rule.ofJsonEntries_of_entryOf related]
      rfl
  | null => exact ⟨nofun, nofun⟩
  | bool value => exact ⟨nofun, nofun⟩
  | number value => exact ⟨nofun, nofun⟩
  | string text => exact ⟨nofun, nofun⟩
  | array items => exact ⟨nofun, nofun⟩

/-- No two rule sets are read from one value. -/
theorem ofJson_unique {rules' : RuleSet} (read : Eval.result (ofJson limit value) = .ok rules)
    (read' : Eval.result (ofJson limit' value) = .ok rules') : rules = rules' := by
  obtain ⟨entries, rfl, related⟩ := ofJson_eq_ok_iff.mp read
  obtain ⟨_, ⟨rfl⟩, related'⟩ := ofJson_eq_ok_iff.mp read'
  have same := Rule.entries_unique (fun entry _ => Rule.unambiguous entry.2) related related'
  obtain ⟨rules⟩ := rules
  obtain ⟨rules'⟩ := rules'
  exact congrArg RuleSet.mk same

/-- A rule set that was read is read under the limits that leave room for it. -/
theorem ofJson_iff_nesting_le (distinct : value.DistinctKeys)
    (read : Eval.result (ofJson limit value) = .ok rules) :
    Eval.result (ofJson limit' value) = .ok rules ↔
      (Rule.object rules.entries).nesting ≤ limit' := by
  obtain ⟨entries, rfl, related⟩ := ofJson_eq_ok_iff.mp read
  have values := Json.distinctKeysEntries_iff.mp distinct.2
  rw [Rule.nesting_le_iff, Rule.parts, List.forall_mem_map, ofJson_eq_ok_iff]
  constructor
  · rintro ⟨_, ⟨rfl⟩, related'⟩ entry member
    obtain ⟨_, _, _, read⟩ := Rule.mem_of_entryOf related' member
    have room := Rule.nesting_of_reads read
    omega
  · intro room
    refine ⟨entries, rfl, Rule.entryOf_of_nesting values related fun rule member => ?_⟩
    have less := room rule member
    omega

end RuleSet

/-- A smaller limit gives the same result or the error that it was exceeded. What is read under it
is not nested deeper, and what is read under a larger limit is read under it exactly if it is not
nested deeper. So it is for single rules and for rule sets. -/
theorem Rule.limit_cuts_off {n m : Nat} (le : n ≤ m) {value : Json}
    (distinct : value.DistinctKeys) :
    CutsOff (fun limit => Eval.result (Rule.ofJson limit value)) id n m ∧
      CutsOff (fun limit => Eval.result (RuleSet.ofJson limit value))
        (fun rules => .object rules.entries) n m := by
  constructor
  · refine cutsOff_of_reports (fun limit => failure?_ofJsonAt value) ?_ ?_ le
    · exact fun limit limit' x y => unambiguous value
    · exact fun limit x read limit' => ofJson_iff_nesting_le distinct read
  · refine cutsOff_of_reports (fun limit => RuleSet.failure?_ofJson limit value) ?_ ?_ le
    · exact fun limit limit' x y => RuleSet.ofJson_unique
    · exact fun limit x read limit' => RuleSet.ofJson_iff_nesting_le distinct read

/-- Three objects around a path: it is read under the limit three, so the limit two can only cut it
off. -/
theorem Rule.limit_cuts_off_nested :
    let value : Json := .object [("a", .object [("b", .object [("c", .string "$")])])]
    let rule : Rule := .object [("a", .object [("b", .object [("c", .path ⟨[]⟩)])])]
    Eval.result (Rule.ofJson 3 value) = .ok rule ∧ rule.nesting = 3 ∧
      Eval.result (Rule.ofJson 2 value) = .error (.tooDeep 2) ∧
      Eval.result (RuleSet.ofJson 2 value) = .error (.tooDeep 2) := by
  intro value rule
  have distinct : value.DistinctKeys := by
    simp only [value, Json.DistinctKeys, Json.DistinctKeysEntries]
    decide
  have read : Eval.result (Rule.ofJson 3 value) = .ok rule := by decide +kernel
  have readSet : Eval.result (RuleSet.ofJson 3 value) =
      .ok ⟨[("a", .object [("b", .object [("c", .path ⟨[]⟩)])])]⟩ := by decide +kernel
  have nested : rule.nesting = 3 := by decide
  obtain ⟨single, set⟩ := Rule.limit_cuts_off (by decide : 2 ≤ 3) distinct
  refine ⟨read, nested, ?_, ?_⟩
  · rcases single.same_or_tooDeep with same | deep
    · have fits := (single.exactly rule 3 read nested).mp ⟨rule, same.trans read⟩
      exact absurd fits (by decide)
    · exact deep
  · rcases set.same_or_tooDeep with same | deep
    · have fits := (set.exactly _ 3 readSet nested).mp ⟨_, same.trans readSet⟩
      exact absurd fits (by decide)
    · exact deep

end Reshape
