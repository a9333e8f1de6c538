import Mathlib.Data.Finset.Dedup
import Mathlib.Data.Finset.Insert
import Reshape.Proofs.Failure
import Reshape.Proofs.Listing

/-!
# Repeating rules inside a rule

Evaluation fails in one way only: the items of a path are asked for while several of its variables
are unbound. Which variables are bound for a repeating rule can be read off the rules around it,
because the names that an item binds depend on its path and not on the document. `Rule.repetitions`
lists the repeating rules inside a rule together with these names.

* `Path.names_of_items`: the names that are bound for the items of a path.
* `Rule.repetition_of_eval`: an error tells of a repetition that leaves several variables unbound.
* `Rule.not_offends_of_eval`: where evaluation succeeds, no repetition that it comes across does so,
  and in the document `null` it comes across all of them.
-/

namespace Reshape

/-! ## Names of bound variables -/

/-- The names that are bound. -/
def Env.names (env : Env) : Finset String := (Entries.keys env.bindings).toFinset

/-- The variables of a path that are not among the names, as often as they occur. -/
def Path.unbound (path : Path) (names : Finset String) : List String :=
  (Token.variableNames path.tokens).filter (· ∉ names)

/-- The names that are bound for the items of a path if `names` are bound around it. -/
def Path.innerNames (path : Path) (names : Finset String) : Finset String :=
  match path.unbound names with
  | [name] => insert name names
  | _ => names

namespace Env

theorem mem_names_iff {env : Env} {name : String} : name ∈ env.names ↔ env.get? name ≠ none := by
  rw [names, List.mem_toFinset, get?, ne_eq, Entries.get?_eq_none_iff, not_not]

theorem names_bind (env : Env) (name : String) (value : Json) :
    (env.bind name value).names = insert name env.names := by
  ext other
  rw [Finset.mem_insert, mem_names_iff, mem_names_iff, get?_bind]
  by_cases same : name = other
  · simp [same]
  · simp [same, Ne.symm same]

/-- The variables left among filled tokens are those that are not bound. -/
theorem variableNames_fill (env : Env) (path : Path) :
    Token.variableNames (env.fill path.tokens) = path.unbound env.names := by
  rw [Path.unbound, Token.variableNames, Token.variableNames, fill, List.filterMap_map,
    List.filter_filterMap]
  refine List.filterMap_congr fun token _ => ?_
  cases token with
  | key text => rfl
  | var name =>
    rw [Function.comp_apply, fillToken]
    cases found : env.get? name with
    | none =>
      have unbound : name ∉ env.names := fun member => mem_names_iff.mp member found
      rw [Option.filter_some, if_pos (by simp [unbound])]
    | some value =>
      have bound : name ∈ env.names := mem_names_iff.mpr (by simp [found])
      rw [Option.filter_some, if_neg (by simp [bound])]

end Env

namespace Path

/-- The names that are bound for an item do not depend on the document. -/
theorem names_of_items {path : Path} {root : Json} {env : Env} {items : List Item}
    (listed : Eval.result (path.items root env) = .ok items) {item : Item} (member : item ∈ items) :
    item.env.names = path.innerNames env.names := by
  rcases env_of_items listed item member with ⟨closed, same⟩ | ⟨name, value, one, _, same⟩
  · rw [innerNames, ← Env.variableNames_fill, closed, same]
  · rw [innerNames, ← Env.variableNames_fill, one, same, Env.names_bind]

/-- The document `null` gives an item to every path that can be listed. -/
theorem exists_item_of_null {path : Path} {env : Env} {items : List Item}
    (listed : Eval.result (path.items .null env) = .ok items) : ∃ item, item ∈ items := by
  have single : ∀ tokens, Json.candidates (Json.null.follow tokens).value = [.null] ∧
      Json.parts (Json.null.follow tokens).value = [.null] := by
    intro tokens
    cases tokens with
    | nil => exact ⟨rfl, rfl⟩
    | cons token rest => exact ⟨rfl, rfl⟩
  rw [result_items] at listed
  split at listed
  · cases listed
    exact ⟨_, List.mem_map.mpr ⟨.null, (single _).2 ▸ List.mem_singleton_self _, rfl⟩⟩
  · cases listed
    rw [value_itemsAlong, (single _).1, List.flatMap_singleton]
    exact ⟨_, List.mem_map.mpr ⟨.null, (single _).2 ▸ List.mem_singleton_self _, rfl⟩⟩
  · cases listed

end Path

/-! ## Repetitions -/

/-- A repeating rule inside a rule: its path, the names that are bound there, and the number of
repeating rules around it. -/
structure Repetition where
  path : Path
  names : Finset String
  depth : Nat
deriving DecidableEq

namespace Repetition

/-- The number of places where the path has a variable that is not bound. -/
def count (repetition : Repetition) : Nat := (repetition.path.unbound repetition.names).length

/-- The items of the path cannot be listed. -/
def Offends (repetition : Repetition) : Prop := 2 ≤ repetition.count

instance (repetition : Repetition) : Decidable repetition.Offends :=
  inferInstanceAs (Decidable (_ ≤ _))

/-- The error of a repetition whose items cannot be listed. -/
def error (repetition : Repetition) : Error :=
  .severalVariables repetition.path.text repetition.count

/-- The items of a path can be listed unless several variables are left. -/
theorem result_items (path : Path) (root : Json) (env : Env) (depth : Nat) :
    (¬ Offends ⟨path, env.names, depth⟩ ∧
      ∃ items, Eval.result (path.items root env) = .ok items) ∨
    (Offends ⟨path, env.names, depth⟩ ∧
      Eval.result (path.items root env) = .error (error ⟨path, env.names, depth⟩)) := by
  unfold Offends error count
  rw [Path.result_items, Env.variableNames_fill]
  rcases path.unbound env.names with _ | ⟨name, _ | ⟨other, rest⟩⟩
  · exact Or.inl ⟨by simp, _, rfl⟩
  · exact Or.inl ⟨by simp, _, rfl⟩
  · exact Or.inr ⟨by simp, rfl⟩

end Repetition

namespace Rule

mutual

/-- The repeating rules inside a rule that stands below `depth` others, where `names` are bound. -/
def repetitions (names : Finset String) (depth : Nat) : Rule → List Repetition
  | .text _ => []
  | .path _ => []
  | .object entries => repetitionsEntries names depth entries
  | .each source key index fields =>
    ⟨source, names, depth⟩ :: (repetitionsOption (source.innerNames names) (depth + 1) key ++
      (repetitionsOption (source.innerNames names) (depth + 1) index ++
        repetitionsEntries (source.innerNames names) (depth + 1) fields))

/-- The same for a rule that may be absent. -/
def repetitionsOption (names : Finset String) (depth : Nat) : Option Rule → List Repetition
  | none => []
  | some rule => repetitions names depth rule

/-- The same for the rules of all entries. -/
def repetitionsEntries (names : Finset String) (depth : Nat) :
    List (String × Rule) → List Repetition
  | [] => []
  | (_, rule) :: rest => repetitions names depth rule ++ repetitionsEntries names depth rest

end

variable {names : Finset String} {depth : Nat} {repetition : Repetition}

theorem repetitionsOption_eq (rule : Option Rule) :
    repetitionsOption names depth rule = rule.toList.flatMap (repetitions names depth) := by
  cases rule with
  | none => rfl
  | some rule => rw [repetitionsOption, Option.toList_some, List.flatMap_singleton]

theorem repetitionsEntries_eq (entries : List (String × Rule)) :
    repetitionsEntries names depth entries =
      (entries.map Prod.snd).flatMap (repetitions names depth) := by
  induction entries with
  | nil => rfl
  | cons entry rest ih =>
    obtain ⟨key, rule⟩ := entry
    rw [repetitionsEntries, ih, List.map_cons, List.flatMap_cons]

theorem mem_repetitions_object_iff {entries : List (String × Rule)} :
    repetition ∈ (Rule.object entries).repetitions names depth ↔
      ∃ part ∈ (Rule.object entries).parts, repetition ∈ part.repetitions names depth := by
  rw [repetitions, repetitionsEntries_eq, List.mem_flatMap, parts]

theorem mem_repetitions_each_iff {source : Path} {key index : Option Rule}
    {fields : List (String × Rule)} :
    repetition ∈ (Rule.each source key index fields).repetitions names depth ↔
      repetition = ⟨source, names, depth⟩ ∨
        ∃ part ∈ (Rule.each source key index fields).parts,
          repetition ∈ part.repetitions (source.innerNames names) (depth + 1) := by
  rw [repetitions, repetitionsOption_eq, repetitionsOption_eq, repetitionsEntries_eq,
    ← List.append_assoc, ← List.flatMap_append, ← List.flatMap_append, List.mem_cons,
    List.mem_flatMap, parts]

/-- Inside a rule there are no fewer repeating rules around than around the rule. -/
theorem depth_le_of_mem_repetitions {rule : Rule}
    (member : repetition ∈ rule.repetitions names depth) : depth ≤ repetition.depth := by
  induction rule using inductOnParts generalizing names depth with
  | step rule ih =>
    cases rule with
    | text source => cases member
    | path source => cases member
    | object entries =>
      obtain ⟨part, inside, member⟩ := mem_repetitions_object_iff.mp member
      exact ih part inside member
    | each source key index fields =>
      rcases mem_repetitions_each_iff.mp member with rfl | ⟨part, inside, member⟩
      · exact Nat.le_refl _
      · exact Nat.le_of_succ_le (ih part inside member)

/-! ## Failures -/

variable {missing : Missing} {context : Context} {rule : Rule}

/-- An error tells of a repetition whose items cannot be listed. -/
theorem repetition_of_eval {error : Error}
    (failed : failure? (eval missing rule context).result = some error) :
    ∃ repetition ∈ rule.repetitions context.env.names depth,
      repetition.Offends ∧ error = repetition.error := by
  induction rule using inductOnParts generalizing context depth with
  | step rule ih =>
    cases rule with
    | text source =>
      rw [failure?_eval_text] at failed
      cases failed
    | path source =>
      rw [failure?_eval_path] at failed
      cases failed
    | object entries =>
      rw [failure?_eval_object] at failed
      obtain ⟨part, inside, failed⟩ := List.exists_of_findSome?_eq_some failed
      obtain ⟨repetition, member, offends⟩ := ih part inside failed
      exact ⟨repetition, mem_repetitions_object_iff.mpr ⟨part, inside, member⟩, offends⟩
    | each source key index fields =>
      rw [failure?_eval_each] at failed
      rcases Repetition.result_items source context.root context.env depth with
        ⟨_, items, listed⟩ | ⟨offends, fails⟩
      · rw [listed] at failed
        obtain ⟨item, listedItem, failed⟩ := List.exists_of_findSome?_eq_some failed
        obtain ⟨part, inside, failed⟩ := List.exists_of_findSome?_eq_some failed
        have names : (context.enter item).env.names = source.innerNames context.env.names :=
          Path.names_of_items listed listedItem
        obtain ⟨repetition, member, offends⟩ : ∃ repetition ∈
            part.repetitions (context.enter item).env.names (depth + 1),
              repetition.Offends ∧ error = repetition.error := ih part inside failed
        rw [names] at member
        exact ⟨repetition, mem_repetitions_each_iff.mpr (Or.inr ⟨part, inside, member⟩), offends⟩
      · rw [fails] at failed
        have here : ⟨source, context.env.names, depth⟩ ∈
            (each source key index fields).repetitions context.env.names depth :=
          mem_repetitions_each_iff.mpr (Or.inl rfl)
        exact ⟨_, here, offends, (Option.some.inj failed).symm⟩

/-- Where evaluation succeeds, the items of all repetitions that it comes across can be listed:
those below no other repeating rule, and all of them if the root is `null`. -/
theorem not_offends_of_eval (succeeds : failure? (eval missing rule context).result = none)
    (member : repetition ∈ rule.repetitions context.env.names depth)
    (met : repetition.depth = depth ∨ context.root = .null) : ¬ repetition.Offends := by
  induction rule using inductOnParts generalizing context depth with
  | step rule ih =>
    cases rule with
    | text source => cases member
    | path source => cases member
    | object entries =>
      rw [failure?_eval_object, List.findSome?_eq_none_iff] at succeeds
      obtain ⟨part, inside, member⟩ := mem_repetitions_object_iff.mp member
      exact ih part inside (succeeds part inside) member met
    | each source key index fields =>
      rw [failure?_eval_each] at succeeds
      rcases Repetition.result_items source context.root context.env depth with
        ⟨fine, items, listed⟩ | ⟨_, fails⟩
      · rcases mem_repetitions_each_iff.mp member with rfl | ⟨part, inside, member⟩
        · exact fine
        · -- below this rule only the root `null` is left, which has an item to go on with
          have deeper : depth < repetition.depth := depth_le_of_mem_repetitions member
          have bare : context.root = .null := met.resolve_left (Nat.ne_of_gt deeper)
          obtain ⟨item, listedItem⟩ := Path.exists_item_of_null (bare ▸ listed)
          have names : (context.enter item).env.names = source.innerNames context.env.names :=
            Path.names_of_items listed listedItem
          rw [listed, List.findSome?_eq_none_iff] at succeeds
          have part := List.findSome?_eq_none_iff.mp (succeeds item listedItem) _ inside
          exact ih _ inside part (names ▸ member) (Or.inr bare)
      · rw [fails] at succeeds
        cases succeeds

end Rule

namespace Reshaper

/-- Whether a rule can fail is decided by the rule and the names that are bound around it. It
succeeds on all documents exactly if every path of a repeating rule inside it leaves at most one of
its variables unbound. If it fails, it is with the path and the number of unbound variables of a
repeating rule that leaves several. A rule in which such a repeating rule is below no other one
fails on every document. -/
theorem eval_fails_by_repetitions (reshaper : Reshaper) (rule : Rule) (env : Env) :
    ((∀ document, ∃ value, Eval.result (reshaper.eval rule document env) = .ok value) ↔
      ∀ repetition ∈ rule.repetitions env.names 0, ¬ repetition.Offends) ∧
    (∀ document error, Eval.result (reshaper.eval rule document env) = .error error →
      ∃ repetition ∈ rule.repetitions env.names 0, repetition.Offends ∧
        error = .severalVariables repetition.path.text repetition.count) ∧
    ((∃ repetition ∈ rule.repetitions env.names 0, repetition.depth = 0 ∧ repetition.Offends) →
      ∀ document, ∃ error, Eval.result (reshaper.eval rule document env) = .error error) := by
  have fails : ∀ document error, Eval.result (reshaper.eval rule document env) = .error error →
      ∃ repetition ∈ rule.repetitions env.names 0, repetition.Offends ∧
        error = .severalVariables repetition.path.text repetition.count :=
    fun document error failed => Rule.repetition_of_eval (failure?_eq_some_iff.mpr failed)
  refine ⟨⟨fun succeeds repetition member => ?_, fun fine document => ?_⟩, fails, ?_⟩
  · exact Rule.not_offends_of_eval (failure?_eq_none_iff.mpr (succeeds .null)) member (Or.inr rfl)
  · cases result : Eval.result (reshaper.eval rule document env) with
    | ok value => exact ⟨value, rfl⟩
    | error error =>
      obtain ⟨repetition, member, offends, _⟩ := fails document error result
      exact absurd offends (fine repetition member)
  · rintro ⟨repetition, member, outer, offends⟩ document
    cases result : Eval.result (reshaper.eval rule document env) with
    | ok value =>
      have succeeds := failure?_eq_none_iff.mpr ⟨value, result⟩
      exact absurd offends (Rule.not_offends_of_eval succeeds member (Or.inl outer))
    | error error => exact ⟨error, rfl⟩

/-- The cells of rows can be listed below the rows and nowhere else; a variable that occurs twice
counts twice. -/
theorem eval_fails_by_repetitions_cells :
    let cells : Rule := .each ⟨[.key "rows", .var ":row", .var ":cell"]⟩ none none []
    let rows : Rule := .each ⟨[.key "rows", .var ":row"]⟩ (some (.text ":row")) (some cells)
      [("cells", cells)]
    let twice : Rule := .object [("cells", rows),
      ("twice", .each ⟨[.var ":a", .var ":a"]⟩ none none [])]
    (∀ document, ∃ value, Eval.result ((default : Reshaper).eval rows document .empty) =
      .ok value) ∧
    (∀ document, Eval.result ((default : Reshaper).eval cells document .empty) =
      .error (.severalVariables "$.rows.:row.:cell" 2)) ∧
    ∀ document, Eval.result ((default : Reshaper).eval twice document
      ⟨[(":row", .null)]⟩) = .error (.severalVariables "$.:a.:a" 2) := by
  intro cells rows twice
  have only : ∀ rule env error, (∃ repetition ∈ Rule.repetitions (Env.names env) 0 rule,
        repetition.depth = 0 ∧ repetition.Offends) →
      (∀ repetition ∈ Rule.repetitions (Env.names env) 0 rule, repetition.Offends →
        Error.severalVariables repetition.path.text repetition.count = error) →
      ∀ document, Eval.result ((default : Reshaper).eval rule document env) = .error error := by
    intro rule env error outer unique document
    obtain ⟨_, blames, fails⟩ := eval_fails_by_repetitions default rule env
    obtain ⟨found, failed⟩ := fails outer document
    obtain ⟨repetition, member, offends, same⟩ := blames document found failed
    rw [failed, same, unique repetition member offends]
  refine ⟨?_, only cells .empty _ (by decide) (by decide), only twice _ _ (by decide) (by decide)⟩
  exact (eval_fails_by_repetitions default rows .empty).1.mpr (by decide)

end Reshaper

end Reshape
