import Reshape.Proofs.Preservation
import Reshape.Proofs.Reading

/-!
# Values that substitution leaves alone

Substitution does not search the values that it puts in, so that it may bring references into a
value. Where no bound value holds one (`Env.Closed`), no reference is left after a substitution, and
there is nothing to do for a second one.

* `Env.value_subst_eq_self_iff`: where the environment is closed, the values left alone are those
  that hold no reference.
* `Env.subst_settles`: what comes out of a substitution, and what a second one makes of it.
* `Reshaper.root_copies_iff`: the path `$` gives the document itself if it holds no reference.
-/

namespace Reshape

namespace Env

/-- No variable is bound to a value that refers to a variable. -/
def Closed (env : Env) : Prop := ∀ name, ∀ value ∈ env.get? name, value.ReferenceFree

theorem closed_empty : empty.Closed := nofun

variable {env : Env} {missing : Missing}

theorem holds_get?_of_bindings {holds : Json → Prop}
    (all : ∀ binding ∈ env.bindings, holds binding.2) :
    ∀ name, ∀ value ∈ env.get? name, holds value := by
  intro name value found
  exact all (name, value) (Entries.mem_of_get?_eq_some found)

/-- No reference is left after a substitution, neither one of the value nor one that was put in. -/
theorem Closed.referenceFree_of_subst (closed : env.Closed) {value result : Json}
    (substituted : (env.subst missing value).value = some result) : result.ReferenceFree := by
  let free : Json.Family := Json.avoiding (fun text => isReference text = true) fun _ same => same
  have bound : free.HoldsEnv env := closed
  exact Json.Family.holds_subst bound value result substituted

/-- The values that a substitution leaves alone. References in keys that are dropped, in items that
become `null` and in entries that are omitted count as well. -/
theorem value_subst_eq_self_iff (closed : env.Closed) {value : Json}
    (distinct : value.DistinctKeys) :
    (env.subst missing value).value = some value ↔ value.ReferenceFree := by
  constructor
  · exact closed.referenceFree_of_subst
  · intro free
    have settled : value.Settled := ⟨free, distinct⟩
    exact settled.value_subst

/-- Only a reference that is not bound is missing after a substitution. -/
theorem value_subst_eq_none_iff {value : Json} :
    (env.subst missing value).value = none ↔
      ∃ name, value = .string name ∧ isReference name = true ∧ env.get? name = none := by
  constructor
  · intro absent
    cases value with
    | string text =>
      change (env.substText text).value = none at absent
      rw [value_substText] at absent
      split at absent
      · next reference => exact ⟨text, rfl, reference, absent⟩
      · cases absent
    | array items =>
      rw [value_subst_array] at absent
      cases absent
    | object entries =>
      rw [value_subst_object] at absent
      cases absent
    | null => cases absent
    | bool value => cases absent
    | number value => cases absent
  · intro ⟨name, same, reference, unbound⟩
    rw [same]
    change (env.substText name).value = none
    rw [value_substText, if_pos reference, unbound]

/-- Where no bound value holds a reference, none is left after a substitution, and a second one
changes nothing, whatever is bound then. Only a reference that is not bound makes a value missing.
The items of an array keep their places, a missing one as `null`. -/
theorem subst_settles (closed : env.Closed)
    (distinct : ∀ name, ∀ value ∈ env.get? name, value.DistinctKeys) (missing : Missing) :
    (∀ value result, (env.subst missing value).value = some result →
      result.ReferenceFree ∧
        ∀ (other : Env) (setting : Missing), (other.subst setting result).value = some result) ∧
    (∀ value, (env.subst missing value).value = none ↔
      ∃ name, value = .string name ∧ isReference name = true ∧ env.get? name = none) ∧
    ∀ items, ∃ results, (env.subst missing (.array items)).value = some (.array results) ∧
      results.length = items.length ∧
        ∀ (position : Nat) (item : Json), items[position]? = some item →
          results[position]? = some (Json.orNull (env.subst missing item).value) := by
  refine ⟨fun value result substituted => ?_, fun value => value_subst_eq_none_iff, fun items => ?_⟩
  · have bound : Json.settled.HoldsEnv env := fun name value found =>
      ⟨closed name value found, distinct name value found⟩
    have settled : result.Settled := Json.Family.holds_subst bound value result substituted
    exact ⟨settled.free, fun other setting => settled.value_subst⟩
  · refine ⟨_, env.value_subst_array missing items, List.length_map _, fun position item found => ?_⟩
    rw [List.getElem?_map, found]
    rfl

/-- Two keys become one, the key of an unbound variable is dropped, and an unbound item is `null`. -/
theorem subst_settles_row :
    let env : Env := ⟨[(":row", .object [("k", .array [.ofNat 1])]), (":name", .string "x")]⟩
    let value : Json := .object [(":name", .ofNat 7), (":row", .string ":name"),
      (":other", .string ":row"), ("x", .array [.string ":other", .string ":row"])]
    let result : Json := .object
      [("x", .array [.null, .object [("k", .array [.ofNat 1])]]), ("\x7b\"k\":[1]\x7d", .string "x")]
    (env.Closed ∧ ∀ name, ∀ value ∈ env.get? name, value.DistinctKeys) ∧
      (env.subst .omitted value).value = some result ∧ result.ReferenceFree ∧
      ((Env.mk [(":name", .null)]).subst .asNull result).value = some result := by
  intro env value result
  have closed : env.Closed := holds_get?_of_bindings (by decide +kernel)
  have distinct : ∀ name, ∀ value ∈ env.get? name, value.DistinctKeys :=
    holds_get?_of_bindings (by decide +kernel)
  have substituted : (env.subst .omitted value).value = some result := by decide +kernel
  obtain ⟨free, again⟩ := (subst_settles closed distinct .omitted).1 value result substituted
  exact ⟨⟨closed, distinct⟩, substituted, free, again _ _⟩

end Env

/-! ## The root of a document -/

namespace Reshaper

/-- The path `$` gives the document after a substitution where nothing is bound. -/
theorem result_evalJson_root (reshaper : Reshaper) (document : Json) :
    Eval.result (reshaper.evalJson (.string "$") document) =
      .ok (Env.empty.subst reshaper.config.missing document).value := by
  have read : Eval.result (reshaper.readRule (.string "$")) = .ok (.path ⟨[]⟩) := by
    unfold readRule Rule.ofJson
    rw [Rule.result_ofJsonAt_string (Nat.not_lt_zero _)]
    rfl
  unfold evalJson
  rw [Eval.result_bind, read]
  exact Rule.result_eval_path _ _ _

/-- The path `$` gives the document itself exactly if no string and no key in it refers to a
variable. A document without references is left alone by every substitution. -/
theorem root_copies_iff {document : Json} (distinct : document.DistinctKeys) :
    (∀ reshaper : Reshaper,
      Eval.result (reshaper.evalJson (.string "$") document) = .ok (some document) ↔
        document.ReferenceFree) ∧
    (document.ReferenceFree → ∀ (env : Env) (missing : Missing),
      (env.subst missing document).value = some document) := by
  constructor
  · intro reshaper
    rw [result_evalJson_root, Except.ok.injEq]
    exact Env.value_subst_eq_self_iff Env.closed_empty distinct
  · intro free env missing
    have settled : document.Settled := ⟨free, distinct⟩
    exact settled.value_subst

/-- A document without references, and one whose only reference is in a key of an object that is an
item. -/
theorem root_copies_iff_items :
    let plain : Json := .object [("a", .array [.null, .string ":", .string "$"]), (": b", .object [])]
    let row : Json := .object [("a", .array [.null, .object [(":row", .null)]])]
    plain.DistinctKeys ∧ row.DistinctKeys ∧
      Eval.result ((default : Reshaper).evalJson (.string "$") plain) = .ok (some plain) ∧
      ((Env.mk [(":", .null), ("a", .string ":b")]).subst .omitted plain).value = some plain ∧
      Eval.result ((default : Reshaper).evalJson (.string "$") row) ≠ .ok (some row) := by
  intro plain row
  have distinctPlain : plain.DistinctKeys := by decide +kernel
  have distinctRow : row.DistinctKeys := by decide +kernel
  have free : plain.ReferenceFree := by decide +kernel
  have reference : ¬ row.ReferenceFree := by decide +kernel
  obtain ⟨copied, left⟩ := root_copies_iff distinctPlain
  obtain ⟨changed, _⟩ := root_copies_iff distinctRow
  exact ⟨distinctPlain, distinctRow, (copied default).mpr free, left free _ _,
    fun same => reference ((changed default).mp same)⟩

end Reshaper

end Reshape
