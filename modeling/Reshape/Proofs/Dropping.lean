import Mathlib.Data.List.Basic
import Reshape.Proofs.Preservation

/-!
# Fields that are dropped

When an environment is substituted in an object, the entry of a bound key moves to the text of the
value that is bound, and the entries of other references are dropped. Where the variable is no
longer bound, its entry is dropped as well. `Env.Redundant` is the exact condition under which both
leave the same entries (`Env.insertAll_rekey_eq_visible_iff`): the entry that moves must go
unnoticed, and `Entries.insertAll_insert_eq_append_iff` says when a write in the middle of a list
does.
-/

namespace Reshape

/-! ## Writes that go unnoticed -/

namespace Entries

variable {α : Type}

theorem insert_eq_self_iff {entries : Entries α} {key : String} {value : α} :
    insert entries key value = entries ↔ get? entries key = some value := by
  induction entries with
  | nil => simp [insert]
  | cons pair rest ih =>
    obtain ⟨k, v⟩ := pair
    by_cases same : k = key
    · rw [insert, if_pos same, get?, if_pos same, List.cons_eq_cons, Option.some_inj]
      exact ⟨fun eq => (congrArg Prod.snd eq.1).symm, fun eq => ⟨by rw [eq], rfl⟩⟩
    · rw [insert, if_neg same, get?, if_neg same, List.cons_eq_cons, ih]
      exact ⟨fun eq => eq.2, fun eq => ⟨rfl, eq⟩⟩

theorem insert_append_of_notMem {before : Entries α} {key : String} (absent : key ∉ keys before)
    (after : Entries α) (value : α) :
    insert (before ++ after) key value = before ++ insert after key value := by
  induction before with
  | nil => rfl
  | cons pair rest ih =>
    obtain ⟨k, v⟩ := pair
    rw [keys_cons, List.mem_cons, not_or] at absent
    rw [List.cons_append, insert, if_neg (Ne.symm absent.1), ih absent.2, List.cons_append]

/-- A write between entries of other keys and those behind them goes unnoticed only in two cases:
the key has the value already, or its value is overwritten right away. -/
theorem insertAll_insert_eq_append_iff {before after : Entries α}
    (distinct : (keys (before ++ after)).Nodup) (key : String) (value : α) :
    insertAll (insert before key value) after = before ++ after ↔
      get? before key = some value ∨ (keys after).head? = some key := by
  have apart := distinct
  rw [keys_append, List.nodup_append] at apart
  by_cases known : key ∈ keys before
  · -- the key keeps its place, and what is behind stays behind
    have kept : (keys (insert before key value ++ after)).Nodup := by
      rw [keys_append, keys_insert, if_pos known, ← keys_append]
      exact distinct
    have elsewhere : (keys after).head? ≠ some key := fun head =>
      apart.2.2 key known key (List.mem_of_mem_head? head) rfl
    rw [insertAll_of_nodup_keys kept, List.append_cancel_right_eq, insert_eq_self_iff]
    exact ⟨Or.inl, fun either => either.resolve_right elsewhere⟩
  · have unknown : get? before key = none := get?_eq_none_iff.mpr known
    rw [insert_of_notMem known, unknown]
    rcases after with _ | ⟨⟨k, v⟩, rest⟩
    · simp [insertAll]
    · by_cases same : k = key
      · subst same
        have overwritten : insert (before ++ [(k, value)]) k v = before ++ [(k, v)] := by
          rw [insert_append_of_notMem known, insert, if_pos rfl]
        have moved : before ++ (k, v) :: rest = before ++ [(k, v)] ++ rest := by simp
        rw [insertAll_cons, overwritten, moved, insertAll_of_nodup_keys (moved ▸ distinct)]
        exact ⟨fun _ => Or.inr rfl, fun _ => rfl⟩
      · -- the new key stands where the first key behind it should stand
        have front := keys_prefix_keys_insertAll (before ++ [(key, value)]) ((k, v) :: rest)
        have impossible : insertAll (before ++ [(key, value)]) ((k, v) :: rest) ≠
            before ++ (k, v) :: rest := by
          intro eq
          rw [eq, keys_append, keys_append, List.prefix_append_right_inj] at front
          obtain ⟨_, front⟩ := front
          exact same (List.cons.inj front).1.symm
        refine ⟨fun eq => absurd eq impossible, fun either => ?_⟩
        rcases either with none | head
        · cases none
        · exact absurd (Option.some.inj head) same

end Entries

/-! ## Keys under substitution -/

namespace Env

/-- The entries that are left where no variable is bound. -/
def visible (entries : Entries Json) : Entries Json :=
  entries.filter fun entry => !isReference entry.1

theorem visible_append (before after : Entries Json) :
    visible (before ++ after) = visible before ++ visible after := List.filter_append before after

theorem rekey_append (env : Env) (before after : Entries Json) :
    env.rekey (before ++ after) = env.rekey before ++ env.rekey after :=
  List.filterMap_append

/-- Where no key is bound, substitution drops all references. -/
theorem rekey_of_unbound {env : Env} {entries : Entries Json}
    (unbound : ∀ entry ∈ entries, isReference entry.1 = true → env.get? entry.1 = none) :
    env.rekey entries = visible entries := by
  induction entries with
  | nil => rfl
  | cons entry rest ih =>
    obtain ⟨first, unbound⟩ := List.forall_mem_cons.mp unbound
    have rest := ih unbound
    unfold rekey visible at *
    rw [List.filterMap_cons, List.filter_cons, value_substKey, rest]
    cases reference : isReference entry.1 with
    | false => rfl
    | true => rw [if_pos rfl, first reference]; rfl

theorem rekey_cons_of_bound {env : Env} {name : String} {bound : Json}
    (reference : isReference name = true) (found : env.get? name = some bound) (value : Json)
    (rest : Entries Json) :
    env.rekey ((name, value) :: rest) = (bound.asKey, value) :: env.rekey rest := by
  unfold rekey
  rw [List.filterMap_cons, value_substKey, if_pos reference, found]
  rfl

/-- Not more than one variable is bound. -/
def BindsOne (env : Env) : Prop :=
  ∀ name other, env.binds name = true → env.binds other = true → name = other

/-- A field under a bound variable is lost without a trace: the fields before it already have its
value under the text of the variable, or the field behind it stands under this text. -/
def Redundant (env : Env) (fields : Entries Json) : Prop :=
  ∀ before name value after bound, fields = before ++ (name, value) :: after →
    isReference name = true → env.get? name = some bound →
    Entries.get? (visible before) bound.asKey = some value ∨
      (Entries.keys (visible after)).head? = some bound.asKey

theorem unbound_of_notMem {env : Env} (one : env.BindsOne) {name : String} {bound : Json}
    (found : env.get? name = some bound) {entries : Entries Json}
    (absent : name ∉ Entries.keys entries) :
    ∀ entry ∈ entries, isReference entry.1 = true → env.get? entry.1 = none := by
  intro entry member _
  cases other : env.get? entry.1 with
  | none => rfl
  | some value =>
    have same : entry.1 = name := one _ _ (by rw [binds, other]; rfl) (by rw [binds, found]; rfl)
    exact absurd (same ▸ List.mem_map_of_mem member) absent

/-- Where no key is bound, there is no such field. -/
theorem redundant_of_unbound {env : Env} {fields : Entries Json}
    (unbound : ∀ field ∈ fields, isReference field.1 = true → env.get? field.1 = none) :
    env.Redundant fields := by
  intro before name value after bound shape reference found
  have member : (name, value) ∈ fields := shape ▸ List.mem_append_right before List.mem_cons_self
  rw [unbound _ member reference] at found
  cases found

/-- The field that `Redundant` speaks of is the only one of its name. -/
theorem redundant_iff {env : Env} (one : env.BindsOne) {before after : Entries Json} {name : String}
    {bound value : Json} (notBefore : name ∉ Entries.keys before)
    (notAfter : name ∉ Entries.keys after) (reference : isReference name = true)
    (found : env.get? name = some bound) :
    env.Redundant (before ++ (name, value) :: after) ↔
      Entries.get? (visible before) bound.asKey = some value ∨
        (Entries.keys (visible after)).head? = some bound.asKey := by
  constructor
  · intro redundant
    exact redundant before name value after bound rfl reference found
  · intro lost before' name' value' after' bound' shape _ found'
    obtain rfl : name' = name := one _ _ (by rw [binds, found']; rfl) (by rw [binds, found]; rfl)
    obtain rfl : bound' = bound := Option.some.inj (found'.symm.trans found)
    have outside : ∀ {entries : Entries Json}, name' ∉ Entries.keys entries →
        (name', value') ∉ entries := fun absent member =>
      absent (List.mem_map_of_mem member)
    obtain ⟨rfl, same, rfl⟩ :=
      (List.append_cons_inj_of_notMem (outside notBefore) (outside notAfter)).mp shape
    obtain rfl : value = value' := congrArg Prod.snd same
    exact lost

/-- Substitution in the keys and dropping come to the same exactly if all that is dropped is
redundant. -/
theorem insertAll_rekey_eq_visible_iff {env : Env} (one : env.BindsOne) {fields : Entries Json}
    (distinct : (Entries.keys fields).Nodup) :
    Entries.insertAll [] (env.rekey fields) = visible fields ↔ env.Redundant fields := by
  have kept : (Entries.keys (visible fields)).Nodup :=
    (List.filter_sublist.map Prod.fst).nodup distinct
  by_cases present : ∃ name bound, name ∈ Entries.keys fields ∧ isReference name = true ∧
      env.get? name = some bound
  · obtain ⟨name, bound, member, reference, found⟩ := present
    obtain ⟨value, member⟩ := Entries.mem_keys_iff.mp member
    obtain ⟨before, after, rfl⟩ := List.append_of_mem member
    have split := distinct
    rw [Entries.keys_append, Entries.keys_cons, List.nodup_append, List.nodup_cons] at split
    have notBefore : name ∉ Entries.keys before := fun inside =>
      split.2.2 name inside name List.mem_cons_self rfl
    have notAfter : name ∉ Entries.keys after := split.2.1.1
    have dropped : visible ((name, value) :: after) = visible after :=
      List.filter_cons_of_neg (by simp [reference])
    rw [visible_append, dropped] at kept
    have front : (Entries.keys ([] ++ visible before)).Nodup := by
      rw [Entries.keys_append] at kept
      exact (List.nodup_append.mp kept).1
    rw [redundant_iff one notBefore notAfter reference found,
      ← Entries.insertAll_insert_eq_append_iff kept, rekey_append,
      rekey_cons_of_bound reference found,
      rekey_of_unbound (unbound_of_notMem one found notBefore),
      rekey_of_unbound (unbound_of_notMem one found notAfter), visible_append, dropped,
      Entries.insertAll_append, Entries.insertAll_cons, Entries.insertAll_of_nodup_keys front]
    rfl
  · have unbound : ∀ field ∈ fields, isReference field.1 = true → env.get? field.1 = none := by
      intro field member reference
      cases found : env.get? field.1 with
      | none => rfl
      | some bound =>
        exact absurd ⟨field.1, bound, List.mem_map_of_mem member, reference, found⟩ present
    have written : Entries.insertAll [] (visible fields) = [] ++ visible fields :=
      Entries.insertAll_of_nodup_keys kept
    rw [rekey_of_unbound unbound, written]
    exact ⟨fun _ => redundant_of_unbound unbound, fun _ => rfl⟩

end Env

end Reshape
