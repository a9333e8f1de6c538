/-!
# Entries: keyed data in the order it was written

The fields of an object, the bindings of a scope and the entries of a rule set are all lists of
key-value pairs. Their order is part of the data: `Entries.insert` writes a new key behind all
others and leaves a known key where it is, so that a key keeps the place of its first write and
the value of its last.

`Entries.get?_insert` and `Entries.keys_insert` say what a write does to the two views, the value
found under a key and the list of keys.
-/

namespace Reshape

universe u

/-- Key-value pairs in the order they were written. -/
abbrev Entries (α : Type u) := List (String × α)

namespace Entries

variable {α : Type u}

/-- The keys, in order. -/
def keys (entries : Entries α) : List String := entries.map Prod.fst

/-- The value under `key`: that of its first entry. -/
def get? : Entries α → String → Option α
  | [], _ => none
  | (k, v) :: rest, key => if k = key then some v else get? rest key

/-- Write `value` under `key`, in place if the key is known and at the end if it is new. -/
def insert : Entries α → String → α → Entries α
  | [], key, value => [(key, value)]
  | (k, v) :: rest, key, value =>
    if k = key then (k, value) :: rest else (k, v) :: insert rest key value

/-- Write all pairs one after another into `entries`. -/
def insertAll (entries : Entries α) (pairs : List (String × α)) : Entries α :=
  pairs.foldl (fun written pair => insert written pair.1 pair.2) entries

/-! ## Views of a write -/

@[simp] theorem keys_nil : keys ([] : Entries α) = [] := rfl

@[simp] theorem keys_cons (pair : String × α) (rest : Entries α) :
    keys (pair :: rest) = pair.1 :: keys rest := rfl

@[simp] theorem keys_append (left right : Entries α) :
    keys (left ++ right) = keys left ++ keys right := List.map_append

theorem mem_keys_iff {entries : Entries α} {key : String} :
    key ∈ keys entries ↔ ∃ value, (key, value) ∈ entries := by
  simp [keys]

@[simp] theorem get?_nil (key : String) : get? ([] : Entries α) key = none := rfl

theorem get?_eq_none_iff {entries : Entries α} {key : String} :
    get? entries key = none ↔ key ∉ keys entries := by
  induction entries with
  | nil => simp
  | cons pair rest ih =>
    obtain ⟨k, v⟩ := pair
    by_cases same : k = key
    · simp [get?, same]
    · simp [get?, same, ih, Ne.symm same]

theorem mem_of_get?_eq_some {entries : Entries α} {key : String} {value : α}
    (found : get? entries key = some value) : (key, value) ∈ entries := by
  induction entries with
  | nil => cases found
  | cons pair rest ih =>
    obtain ⟨k, v⟩ := pair
    by_cases same : k = key
    · rw [get?, if_pos same] at found
      cases found
      rw [same]
      exact List.mem_cons_self
    · rw [get?, if_neg same] at found
      exact List.mem_cons_of_mem _ (ih found)

theorem get?_eq_some_of_mem {entries : Entries α} (distinct : (keys entries).Nodup)
    {pair : String × α} (member : pair ∈ entries) : get? entries pair.1 = some pair.2 := by
  induction entries with
  | nil => cases member
  | cons first rest ih =>
    obtain ⟨k, v⟩ := first
    obtain ⟨absent, distinct⟩ := List.nodup_cons.mp distinct
    rcases List.mem_cons.mp member with rfl | later
    · exact if_pos rfl
    · have other : k ≠ pair.1 := fun same => absent (same ▸ mem_keys_iff.mpr ⟨pair.2, later⟩)
      rw [get?, if_neg other, ih distinct later]

/-- A write is found under its own key and changes nothing under the others. -/
theorem get?_insert (entries : Entries α) (key other : String) (value : α) :
    get? (insert entries key value) other =
      if key = other then some value else get? entries other := by
  induction entries with
  | nil => simp [insert, get?]
  | cons pair rest ih =>
    obtain ⟨k, v⟩ := pair
    by_cases same : k = key
    · subst same
      by_cases eq : k = other <;> simp [insert, get?, eq]
    · by_cases eq : k = other
      · subst eq
        simp [insert, get?, same, Ne.symm same]
      · simp [insert, get?, same, eq, ih]

/-- A write keeps the list of keys, or appends a new one. -/
theorem keys_insert (entries : Entries α) (key : String) (value : α) :
    keys (insert entries key value) =
      if key ∈ keys entries then keys entries else keys entries ++ [key] := by
  induction entries with
  | nil => simp [insert]
  | cons pair rest ih =>
    obtain ⟨k, v⟩ := pair
    by_cases same : k = key
    · simp [insert, same]
    · have ne : ¬ key = k := fun h => same h.symm
      by_cases mem : key ∈ keys rest <;> simp [insert, same, ne, ih, mem]

/-- A new key is written behind all others. -/
theorem insert_of_notMem {entries : Entries α} {key : String} (absent : key ∉ keys entries)
    (value : α) : insert entries key value = entries ++ [(key, value)] := by
  induction entries with
  | nil => rfl
  | cons pair rest ih =>
    obtain ⟨k, v⟩ := pair
    rw [keys_cons, List.mem_cons, not_or] at absent
    rw [insert, if_neg (Ne.symm absent.1), ih absent.2]
    rfl

/-- After a write there is nothing but the pair written and what was there before. -/
theorem mem_of_mem_insert {entries : Entries α} {key : String} {value : α} {pair : String × α}
    (member : pair ∈ insert entries key value) : pair = (key, value) ∨ pair ∈ entries := by
  induction entries with
  | nil => exact Or.inl (List.mem_singleton.mp member)
  | cons first rest ih =>
    obtain ⟨k, v⟩ := first
    by_cases same : k = key
    · rw [insert, if_pos same, same] at member
      rcases List.mem_cons.mp member with written | old
      · exact Or.inl written
      · exact Or.inr (List.mem_cons_of_mem _ old)
    · rw [insert, if_neg same] at member
      rcases List.mem_cons.mp member with first | later
      · exact Or.inr (first ▸ List.mem_cons_self)
      · rcases ih later with written | old
        · exact Or.inl written
        · exact Or.inr (List.mem_cons_of_mem _ old)

/-- Writes never make two entries of one key. -/
theorem nodup_keys_insert {entries : Entries α} (distinct : (keys entries).Nodup)
    (key : String) (value : α) : (keys (insert entries key value)).Nodup := by
  rw [keys_insert]
  split
  · exact distinct
  · next absent =>
    rw [List.nodup_append]
    refine ⟨distinct, by simp, ?_⟩
    intro a ha b hb eq
    rw [List.mem_singleton] at hb
    exact absent (hb ▸ eq ▸ ha)

/-! ## Several writes -/

theorem insertAll_cons (entries : Entries α) (pair : String × α) (pairs : List (String × α)) :
    insertAll entries (pair :: pairs) = insertAll (insert entries pair.1 pair.2) pairs := rfl

theorem insertAll_append (entries : Entries α) (first second : List (String × α)) :
    insertAll entries (first ++ second) = insertAll (insertAll entries first) second :=
  List.foldl_append

/-- Pairs of new keys are written behind the entries as they are. -/
theorem insertAll_of_nodup_keys {entries : Entries α} {pairs : List (String × α)}
    (distinct : (keys (entries ++ pairs)).Nodup) : insertAll entries pairs = entries ++ pairs := by
  induction pairs generalizing entries with
  | nil => exact (List.append_nil entries).symm
  | cons pair rest ih =>
    have moved : entries ++ pair :: rest = entries ++ [pair] ++ rest := by simp
    have absent : pair.1 ∉ keys entries := by
      rw [keys_append, List.nodup_append] at distinct
      exact fun member => distinct.2.2 _ member _ List.mem_cons_self rfl
    rw [insertAll_cons, insert_of_notMem absent, moved]
    exact ih (moved ▸ distinct)

/-- Writes leave the keys in front as they are. -/
theorem keys_prefix_keys_insertAll (entries : Entries α) (pairs : List (String × α)) :
    keys entries <+: keys (insertAll entries pairs) := by
  induction pairs generalizing entries with
  | nil => exact List.prefix_refl _
  | cons pair rest ih =>
    refine List.IsPrefix.trans ?_ (ih _)
    rw [keys_insert]
    split
    · exact List.prefix_refl _
    · exact List.prefix_append _ _

end Entries

end Reshape
