import Mathlib.Data.List.Dedup
import Reshape.Entries

/-!
# Several writes

Pairs that are written one after another leave one entry for each key: it stands where the key was
written first and has the value that was written last. `Entries.keys_insertAll_nil` and
`Entries.get?_insertAll` say so for the two views of entries, `Entries.insertAll_nil` gives the
entries themselves, and `Entries.insertAll_insertAll` says that it makes no difference whether pairs
are written at once or collected on the way.
-/

namespace Reshape

namespace Entries

variable {α : Type}

/-! ## Keys and values -/

theorem get?_append (first second : Entries α) (key : String) :
    get? (first ++ second) key = (get? first key).or (get? second key) := by
  induction first with
  | nil => rfl
  | cons pair rest ih =>
    obtain ⟨k, v⟩ := pair
    rw [List.cons_append, get?, get?, ih]
    split
    · rfl
    · rfl

/-- After several writes a key has the value written last, or else the one it had. -/
theorem get?_insertAll (entries : Entries α) (pairs : List (String × α)) (key : String) :
    get? (insertAll entries pairs) key = (get? pairs.reverse key).or (get? entries key) := by
  induction pairs generalizing entries with
  | nil => rfl
  | cons pair rest ih =>
    obtain ⟨k, v⟩ := pair
    have written : get? (insert entries k v) key = (get? [(k, v)] key).or (get? entries key) := by
      rw [get?_insert, get?, get?_nil]
      split
      · rfl
      · rfl
    rw [insertAll_cons, ih, written, List.reverse_cons, get?_append, Option.or_assoc]

/-- The keys that were there come first, and then the new ones in the order of their first
writes. -/
theorem keys_insertAll (entries : Entries α) (pairs : List (String × α)) :
    keys (insertAll entries pairs) =
      keys entries ++ ((keys pairs).filter (· ∉ keys entries)).eraseDups := by
  induction pairs generalizing entries with
  | nil => exact (List.append_nil _).symm
  | cons pair rest ih =>
    obtain ⟨k, v⟩ := pair
    rw [insertAll_cons, ih, keys_insert, keys_cons, List.filter_cons]
    by_cases known : k ∈ keys entries
    · rw [if_pos known, if_neg (by simpa using known)]
    · have others : (keys rest).filter (· ∉ keys entries ++ [k]) =
          ((keys rest).filter (· ∉ keys entries)).filter fun other => !other == k := by
        rw [List.filter_filter]
        refine List.filter_congr fun other _ => ?_
        rw [Bool.eq_iff_iff]
        simp [and_comm]
      rw [if_neg known, if_pos (by simpa using known), List.eraseDups_cons, others,
        List.append_assoc]
      rfl

/-- Writes into nothing leave the keys in the order of their first writes. -/
theorem keys_insertAll_nil (pairs : List (String × α)) :
    keys (insertAll [] pairs) = (keys pairs).eraseDups := by
  have all : (keys pairs).filter (· ∉ keys ([] : Entries α)) = keys pairs :=
    List.filter_eq_self.mpr fun _ _ => rfl
  rw [keys_insertAll, all]
  rfl

theorem nodup_keys_insertAll {entries : Entries α} (distinct : (keys entries).Nodup)
    (pairs : List (String × α)) : (keys (insertAll entries pairs)).Nodup := by
  induction pairs generalizing entries with
  | nil => exact distinct
  | cons pair rest ih => exact ih (nodup_keys_insert distinct pair.1 pair.2)

theorem nodup_keys_insertAll_nil (pairs : List (String × α)) :
    (keys (insertAll [] pairs)).Nodup := by
  have nothing : (keys ([] : Entries α)).Nodup := List.nodup_nil
  exact nodup_keys_insertAll nothing pairs

/-- Writes into nothing leave as many entries as there are different keys. -/
theorem length_insertAll_nil (pairs : List (String × α)) :
    (insertAll [] pairs).length = (keys pairs).dedup.length := by
  have distinct := nodup_keys_insertAll_nil pairs
  have perm : (keys (insertAll [] pairs)).Perm (keys pairs).dedup := by
    refine (List.perm_ext_iff_of_nodup distinct (List.nodup_dedup _)).mpr fun key => ?_
    rw [keys_insertAll_nil, List.mem_eraseDups, List.mem_dedup]
  exact (List.length_map _).symm.trans perm.length_eq

/-! ## What writes leave -/

/-- Entries of different keys are known by their keys and the values under them. -/
theorem filterMap_keys_get? {entries : Entries α} (distinct : (keys entries).Nodup) :
    (keys entries).filterMap (fun key => (get? entries key).map fun value => (key, value)) =
      entries := by
  induction entries with
  | nil => rfl
  | cons pair rest ih =>
    obtain ⟨k, v⟩ := pair
    obtain ⟨absent, distinct⟩ := List.nodup_cons.mp distinct
    have first : get? ((k, v) :: rest) k = some v := if_pos rfl
    have later : ∀ key ∈ keys rest, get? ((k, v) :: rest) key = get? rest key := by
      intro key member
      exact if_neg fun same : k = key => absent (same ▸ member)
    have others : (keys rest).filterMap (fun key =>
        (get? ((k, v) :: rest) key).map fun value => (key, value)) = rest := by
      rw [List.filterMap_congr fun key member => by rw [later key member]]
      exact ih distinct
    rw [keys_cons, List.filterMap_cons, first, others]
    rfl

theorem find?_eq_get? (pairs : List (String × α)) (key : String) :
    (pairs.find? fun pair => pair.1 = key) = (get? pairs key).map fun value => (key, value) := by
  induction pairs with
  | nil => rfl
  | cons pair rest ih =>
    obtain ⟨k, v⟩ := pair
    rw [List.find?_cons, get?]
    by_cases same : k = key
    · rw [decide_eq_true same, if_pos same, same]
      rfl
    · rw [decide_eq_false same, if_neg same]
      exact ih

/-- The last pair of a key is the first one from behind. -/
theorem getLast?_filter_eq (pairs : List (String × α)) (key : String) :
    (pairs.filter fun pair => pair.1 = key).getLast? =
      (get? pairs.reverse key).map fun value => (key, value) := by
  rw [List.getLast?_filter, find?_eq_get?]

/-- What is left of pairs of which several may have one key: each key once, in the order in which
the keys come up first, with the last pair that has it. -/
def ofWrites (pairs : List (String × α)) : Entries α :=
  (keys pairs).eraseDups.filterMap fun key => (pairs.filter fun pair => pair.1 = key).getLast?

theorem insertAll_nil (pairs : List (String × α)) : insertAll [] pairs = ofWrites pairs := by
  rw [← filterMap_keys_get? (nodup_keys_insertAll_nil pairs), keys_insertAll_nil, ofWrites]
  refine List.filterMap_congr fun key _ => ?_
  rw [getLast?_filter_eq, get?_insertAll, get?_nil, Option.or_none]

theorem keys_ofWrites (pairs : List (String × α)) :
    keys (ofWrites pairs) = (keys pairs).eraseDups := by
  rw [← insertAll_nil, keys_insertAll_nil]

theorem nodup_keys_ofWrites (pairs : List (String × α)) : (keys (ofWrites pairs)).Nodup := by
  rw [← insertAll_nil]
  exact nodup_keys_insertAll_nil pairs

theorem get?_ofWrites (pairs : List (String × α)) (key : String) :
    get? (ofWrites pairs) key =
      (pairs.filter fun pair => pair.1 = key).getLast?.map Prod.snd := by
  rw [← insertAll_nil, get?_insertAll, get?_nil, Option.or_none, getLast?_filter_eq,
    Option.map_map]
  exact Option.map_id_apply.symm

/-! ## Writes that change places -/

theorem insert_insert_same (entries : Entries α) (key : String) (first second : α) :
    insert (insert entries key first) key second = insert entries key second := by
  induction entries with
  | nil => exact if_pos rfl
  | cons pair rest ih =>
    obtain ⟨k, v⟩ := pair
    by_cases same : k = key
    · rw [insert, if_pos same, insert, if_pos same, insert, if_pos same]
    · rw [insert, if_neg same, insert, if_neg same, insert, if_neg same, ih]

/-- A known key can be written before or after another one. -/
theorem insert_insert_comm {entries : Entries α} {key other : String}
    (known : key ∈ keys entries) (apart : other ≠ key) (value second : α) :
    insert (insert entries other second) key value =
      insert (insert entries key value) other second := by
  induction entries with
  | nil => cases known
  | cons pair rest ih =>
    obtain ⟨k, v⟩ := pair
    by_cases same : k = key
    · have elsewhere : k ≠ other := fun eq => apart (eq.symm.trans same)
      rw [insert, if_neg elsewhere, insert, if_pos same, insert, if_pos same, insert,
        if_neg elsewhere]
    · have later : key ∈ keys rest := (List.mem_cons.mp known).resolve_left (Ne.symm same)
      by_cases eq : k = other
      · rw [insert, if_pos eq, insert, if_neg same, insert, if_neg same, insert, if_pos eq]
      · rw [insert, if_neg eq, insert, if_neg same, insert, if_neg same, insert, if_neg eq,
          ih later]

/-- A known key can be written before or after pairs of other keys. -/
theorem insert_insertAll_comm {entries : Entries α} {pairs : List (String × α)} {key : String}
    (known : key ∈ keys entries) (apart : key ∉ keys pairs) (value : α) :
    insert (insertAll entries pairs) key value = insertAll (insert entries key value) pairs := by
  induction pairs generalizing entries with
  | nil => rfl
  | cons pair rest ih =>
    obtain ⟨other, second⟩ := pair
    rw [keys_cons, List.mem_cons, not_or] at apart
    have kept : key ∈ keys (insert entries other second) := by
      rw [keys_insert]
      split
      · exact known
      · exact List.mem_append_left _ known
    rw [insertAll_cons, insertAll_cons, ih kept apart.2,
      insert_insert_comm known (Ne.symm apart.1)]

/-- Entries that are written with one pair more are written, and then the pair. -/
theorem insertAll_insert {written : Entries α} (distinct : (keys written).Nodup)
    (entries : Entries α) (key : String) (value : α) :
    insertAll entries (insert written key value) = insert (insertAll entries written) key value := by
  induction written generalizing entries with
  | nil => rfl
  | cons pair rest ih =>
    obtain ⟨k, v⟩ := pair
    obtain ⟨absent, distinct⟩ := List.nodup_cons.mp distinct
    by_cases same : k = key
    · subst same
      have known : k ∈ keys (insert entries k v) := by
        rw [keys_insert]
        split
        · next known => exact known
        · exact List.mem_append_right _ List.mem_cons_self
      rw [insert, if_pos rfl, insertAll_cons, insertAll_cons, insert_insertAll_comm known absent,
        insert_insert_same]
    · rw [insert, if_neg same, insertAll_cons, insertAll_cons, ih distinct]

/-- Pairs can be collected before they are written. -/
theorem insertAll_insertAll {written : Entries α} (distinct : (keys written).Nodup)
    (entries : Entries α) (pairs : List (String × α)) :
    insertAll entries (insertAll written pairs) = insertAll (insertAll entries written) pairs := by
  induction pairs generalizing written with
  | nil => rfl
  | cons pair rest ih =>
    rw [insertAll_cons, insertAll_cons, ih (nodup_keys_insert distinct pair.1 pair.2),
      insertAll_insert distinct]

end Entries

end Reshape
