import Reshape.Config.Reader
import Reshape.Proofs.SourceText
import Reshape.Reshaper

/-!
# Settings in texts

A configuration that is written as a text is read back from it, as far as it is valid. Of an object
only the entries of the settings are heeded (`Config.findSettings?_perm`): where they stand
and what stands between them makes no difference, and a setting that is absent has its default.
Whatever is read, and whatever a reshaper is made of, allows a depth in range. All this together is
`Config.ofText_reads_settings`.
-/

namespace Reshape

/-- A reshaper keeps the configuration that it is made of. -/
theorem Reshaper.config_of_ofConfig {config : Config} {reshaper : Reshaper}
    (made : ofConfig config = .ok reshaper) : reshaper.config = config := by
  unfold ofConfig at made
  split at made
  · cases made
    rfl
  · cases made

namespace Config

/-! ## The check -/

/-- The configuration, if the depth that it allows is in range. -/
def checked (config : Config) : Except ConfigFault Config :=
  if 1 ≤ config.maxDepth ∧ config.maxDepth ≤ 4096 then .ok config
  else .error (.outOfRange "max_depth" "1" "4096" (toString config.maxDepth))

theorem check_bind_eq_checked (config : Config) :
    (config.check >>= fun _ => pure config) = config.checked := by
  unfold check inRange checked
  by_cases valid : 1 ≤ config.maxDepth ∧ config.maxDepth ≤ 4096
  · have inside : ¬ (config.maxDepth < leastDepth ∨ greatestDepth < config.maxDepth) := by
      unfold leastDepth greatestDepth
      omega
    rw [if_pos valid, if_neg inside]
    rfl
  · have outside : config.maxDepth < leastDepth ∨ greatestDepth < config.maxDepth := by
      unfold leastDepth greatestDepth
      omega
    rw [if_neg valid, if_pos outside]
    rfl

theorem of_checked_eq_ok {config other : Config} (accepted : config.checked = .ok other) :
    config = other ∧ 1 ≤ other.maxDepth ∧ other.maxDepth ≤ 4096 := by
  unfold checked at accepted
  split at accepted
  · next valid =>
    cases accepted
    exact ⟨rfl, valid⟩
  · cases accepted

/-- What is read are settings, which are filled up by defaults and checked. -/
theorem ofText_eq (text : String) :
    ofText text = ((Source.ofText? text).bind settingsOfSource?).elim (.error .unreadable)
      fun settings => (ofSettings settings).checked := by
  unfold ofText
  cases (Source.ofText? text).bind settingsOfSource? with
  | none => rfl
  | some settings => exact check_bind_eq_checked (ofSettings settings)

theorem valid_of_ofText {text : String} {config : Config} (read : ofText text = .ok config) :
    1 ≤ config.maxDepth ∧ config.maxDepth ≤ 4096 := by
  rw [ofText_eq] at read
  cases found : (Source.ofText? text).bind settingsOfSource? with
  | none =>
    rw [found] at read
    cases read
  | some settings =>
    rw [found] at read
    exact (of_checked_eq_ok read).2

/-! ## Settings among entries -/

/-- The values that stand under a key. -/
def valuesUnder (key : String) (entries : List (Option String × Source)) : List Source :=
  entries.filterMap fun entry => if entry.1 = some key then some entry.2 else none

section Values

variable {α : Type} (read : Source → Option α)

/-- The reading of a setting from the values under its key. It may be absent, but no value may be
read where one was found before, and no two. -/
def setting? (found : Option α) : List Source → Option (Option α)
  | [] => some found
  | [value] => if found.isSome then none else (read value).map some
  | _ :: _ :: _ => none

theorem setting?_cons (found : Option α) (value : Source) (rest : List Source) :
    setting? read found (value :: rest) =
      if found.isSome then none
      else (read value).bind fun value => setting? read (some value) rest := by
  rcases rest with _ | ⟨second, _ | ⟨third, rest⟩⟩
  · rw [setting?]
    exact congrArg (ite _ none) Option.map_eq_bind
  · cases found with
    | none => exact (Option.bind_fun_none (read value)).symm
    | some found => rfl
  · cases found with
    | none => exact (Option.bind_fun_none (read value)).symm
    | some found => rfl

/-- The order of the values makes no difference. -/
theorem setting?_perm (found : Option α) {values others : List Source}
    (perm : values.Perm others) : setting? read found values = setting? read found others := by
  have same := perm.length_eq
  rcases values with _ | ⟨first, _ | ⟨second, rest⟩⟩
  · rw [List.nil_perm.mp perm]
  · rw [List.singleton_perm.mp perm]
  · rcases others with _ | ⟨first, _ | ⟨second, rest⟩⟩
    · cases same
    · cases same
    · rfl

end Values

theorem valuesUnder_cons_self (key : String) (value : Source)
    (rest : List (Option String × Source)) :
    valuesUnder key ((some key, value) :: rest) = value :: valuesUnder key rest :=
  List.filterMap_cons_some (if_pos rfl)

theorem valuesUnder_cons_of_ne {key : String} {other : Option String} (apart : other ≠ some key)
    (value : Source) (rest : List (Option String × Source)) :
    valuesUnder key ((other, value) :: rest) = valuesUnder key rest :=
  List.filterMap_cons_none (if_neg apart)

/-- A key without a text cannot be read. -/
theorem findSettings?_of_nameless {entries : List (Option String × Source)}
    (nameless : none ∈ entries.map Prod.fst) (found : Settings) :
    findSettings? found entries = none := by
  induction entries generalizing found with
  | nil => cases nameless
  | cons entry rest ih =>
    obtain ⟨key, value⟩ := entry
    cases key with
    | none => rfl
    | some key =>
      have later : none ∈ rest.map Prod.fst := (List.mem_cons.mp nameless).resolve_left nofun
      rw [findSettings?]
      simp only [ih later, Option.bind_fun_none, ite_self]

/-- Otherwise both settings are searched for apart. -/
theorem findSettings?_eq {entries : List (Option String × Source)}
    (named : none ∉ entries.map Prod.fst) (found : Settings) :
    findSettings? found entries =
      (setting? missingOfSource? found.missing (valuesUnder "missing" entries)).bind
        fun missing =>
          (setting? depthOfSource? found.maxDepth (valuesUnder "max_depth" entries)).map
            fun maxDepth => { missing, maxDepth } := by
  induction entries generalizing found with
  | nil => rfl
  | cons entry rest ih =>
    obtain ⟨key, value⟩ := entry
    rw [List.map_cons, List.mem_cons, not_or] at named
    have ih := ih named.2
    cases key with
    | none => exact absurd rfl named.1
    | some key =>
      rw [findSettings?]
      by_cases isMissing : key = "missing"
      · subst isMissing
        have apart : (some "missing" : Option String) ≠ some "max_depth" := by decide
        rw [if_pos rfl, valuesUnder_cons_self, valuesUnder_cons_of_ne apart, setting?_cons]
        split
        · rfl
        · rw [Option.bind_assoc]
          exact congrArg _ (funext fun missing => ih _)
      · have noMissing : (some key : Option String) ≠ some "missing" :=
          isMissing ∘ Option.some.inj
        rw [if_neg isMissing, valuesUnder_cons_of_ne noMissing]
        by_cases isDepth : key = "max_depth"
        · subst isDepth
          rw [if_pos rfl, valuesUnder_cons_self, setting?_cons]
          split
          · exact (Option.bind_fun_none _).symm
          · cases depthOfSource? value with
            | none => exact (Option.bind_fun_none _).symm
            | some depth => exact ih _
        · have noDepth : (some key : Option String) ≠ some "max_depth" :=
            isDepth ∘ Option.some.inj
          rw [if_neg isDepth, valuesUnder_cons_of_ne noDepth]
          exact ih found

/-! ## Entries that are heeded -/

/-- The keys of the settings. -/
def settingKeys : List String := ["missing", "max_depth"]

/-- Whether an entry makes a difference: its key is that of a setting, or has no text and cannot be
read. -/
def heeded (entry : Option String × Source) : Bool := entry.1.all settingKeys.contains

theorem valuesUnder_filter_heeded {key : String} (isSetting : settingKeys.contains key = true)
    (entries : List (Option String × Source)) :
    valuesUnder key (entries.filter heeded) = valuesUnder key entries := by
  unfold valuesUnder
  rw [List.filterMap_filter]
  refine List.filterMap_congr fun entry _ => ?_
  by_cases same : entry.1 = some key
  · have inside : heeded entry = true := by
      unfold heeded
      rw [same]
      exact isSetting
    rw [if_pos inside]
  · rw [if_neg same, ite_self]

theorem nameless_filter_heeded (entries : List (Option String × Source)) :
    none ∈ (entries.filter heeded).map Prod.fst ↔ none ∈ entries.map Prod.fst := by
  simp only [List.mem_map, List.mem_filter]
  constructor
  · rintro ⟨entry, ⟨member, _⟩, nameless⟩
    exact ⟨entry, member, nameless⟩
  · rintro ⟨entry, member, nameless⟩
    refine ⟨entry, ⟨member, ?_⟩, nameless⟩
    unfold heeded
    rw [nameless]
    rfl

/-- What is found does not depend on entries that are not heeded, nor on the order of the others. -/
theorem findSettings?_perm {entries others : List (Option String × Source)}
    (perm : (entries.filter heeded).Perm (others.filter heeded)) (found : Settings) :
    findSettings? found entries = findSettings? found others := by
  have nameless : none ∈ entries.map Prod.fst ↔ none ∈ others.map Prod.fst := by
    rw [← nameless_filter_heeded entries, ← nameless_filter_heeded others]
    exact (perm.map Prod.fst).mem_iff
  by_cases unreadable : none ∈ entries.map Prod.fst
  · rw [findSettings?_of_nameless unreadable,
      findSettings?_of_nameless (nameless.mp unreadable)]
  · have values : ∀ key, settingKeys.contains key = true →
        (valuesUnder key entries).Perm (valuesUnder key others) := by
      intro key isSetting
      rw [← valuesUnder_filter_heeded isSetting entries,
        ← valuesUnder_filter_heeded isSetting others]
      exact perm.filterMap _
    rw [findSettings?_eq unreadable, findSettings?_eq (unreadable ∘ nameless.mpr),
      setting?_perm _ _ (values "missing" (by decide)),
      setting?_perm _ _ (values "max_depth" (by decide))]

theorem ofText_perm {text other : String} {entries others : List (Option String × Source)}
    (reads : Source.ofText? text = some (.object entries))
    (readsOther : Source.ofText? other = some (.object others))
    (perm : (entries.filter heeded).Perm (others.filter heeded)) :
    ofText text = ofText other := by
  rw [ofText_eq, ofText_eq, reads, readsOther]
  change (findSettings? {} entries).elim _ _ = (findSettings? {} others).elim _ _
  rw [findSettings?_perm perm]

/-! ## Defaults -/

/-- The configuration of the values that stand under the keys of the settings. A setting without a
value has its default. -/
def ofValues (missing maxDepth : Option Source) : Except ConfigFault Config :=
  match missing.elim (some .asNull) missingOfSource?,
    maxDepth.elim (some Rule.defaultLimit) depthOfSource? with
  | some missing, some maxDepth => checked { missing, maxDepth }
  | _, _ => .error .unreadable

theorem valuesUnder_of_nodup {entries : List (Option String × Source)}
    (distinct : (entries.map Prod.fst).Nodup) (key : String) :
    valuesUnder key entries = (entries.lookup (some key)).toList := by
  induction entries with
  | nil => rfl
  | cons entry rest ih =>
    obtain ⟨other, value⟩ := entry
    obtain ⟨absent, restDistinct⟩ := List.nodup_cons.mp distinct
    by_cases same : other = some key
    · subst same
      have nothing : rest.lookup (some key) = none := by
        rw [List.lookup_eq_none_iff]
        intro entry member
        have elsewhere : entry.1 ∈ rest.map Prod.fst := List.mem_map_of_mem member
        exact bne_iff_ne.mpr fun same => absent (same ▸ elsewhere)
      rw [valuesUnder_cons_self, ih restDistinct, nothing, List.lookup_cons_self]
      rfl
    · have apart : (some key == other) = false := beq_eq_false_iff_ne.mpr (Ne.symm same)
      rw [valuesUnder_cons_of_ne same, ih restDistinct, List.lookup_cons, apart]

/-- The reading of a setting that has one value at most, with a default for none. -/
theorem map_setting?_toList {α : Type} (read : Source → Option α) (default : α)
    (value : Option Source) :
    (setting? read none value.toList).map (·.getD default) = value.elim (some default) read := by
  cases value with
  | none => rfl
  | some value =>
    change ((read value).map some).map (·.getD default) = read value
    rw [Option.map_map]
    exact Option.map_id_apply

/-- The configuration of an object in which no key is repeated. -/
theorem ofText_of_nodup {text : String} {entries : List (Option String × Source)}
    (reads : Source.ofText? text = some (.object entries))
    (distinct : (entries.map Prod.fst).Nodup) (named : none ∉ entries.map Prod.fst) :
    ofText text =
      ofValues (entries.lookup (some "missing")) (entries.lookup (some "max_depth")) := by
  unfold ofValues
  rw [ofText_eq, reads, ← map_setting?_toList, ← map_setting?_toList]
  change (findSettings? {} entries).elim _ _ = _
  rw [findSettings?_eq named, valuesUnder_of_nodup distinct, valuesUnder_of_nodup distinct]
  dsimp only
  cases setting? missingOfSource? none (entries.lookup (some "missing")).toList with
  | none => rfl
  | some missing =>
    cases setting? depthOfSource? none (entries.lookup (some "max_depth")).toList with
    | none => rfl
    | some maxDepth => rfl

/-! ## Written configurations -/

/-- The entries of a configuration that is written. -/
def fields (config : Config) : List (String × Json) :=
  [("missing", .string config.missing.name), ("max_depth", .ofNat config.maxDepth)]

theorem filter_heeded_entrySources (entries : List (String × Json)) :
    (Json.entrySources entries).filter heeded =
      Json.entrySources (entries.filter fun entry => settingKeys.contains entry.1) := by
  rw [Json.entrySources_eq, Json.entrySources_eq, List.filter_map]
  rfl

/-- A depth that fits 64 bits is read as it is written. -/
theorem depthOfSource?_ofNat {n : Nat} (fits : n < Nat.pow 2 64) :
    depthOfSource? (Json.ofNat n).source = some n := by
  have written : (Number.integer n).numeral = ⟨.absent, Nat.toDigits 10 n, none, none⟩ := by
    have positive : ¬ (n : Int) < 0 := by omega
    unfold Number.numeral
    dsimp only
    rw [decide_eq_false positive]
    rfl
  have digits : Numeral.digitsValue (Nat.toDigits 10 n) = n := Nat.ofDigitChars_ten_toDigits
  have integer : (Number.integer n).numeral.integer? = some (n : Int) := by
    rw [written]
    unfold Numeral.integer?
    dsimp only
    rw [digits]
    exact if_pos fits
  unfold Json.ofNat Json.source depthOfSource?
  dsimp only
  rw [integer]
  exact if_pos (Int.natCast_nonneg n)

theorem findSettings?_fields {config : Config} (fits : config.maxDepth < Nat.pow 2 64) :
    findSettings? {} (Json.entrySources config.fields) =
      some ⟨some config.missing, some config.maxDepth⟩ := by
  have missing : missingOfSource? (Json.string config.missing.name).source =
      some config.missing := Missing.ofName?_name config.missing
  have depth := depthOfSource?_ofNat fits
  unfold fields
  rw [Json.entrySources, Json.entrySources, findSettings?, if_pos rfl, missing]
  change findSettings? _ _ = _
  rw [findSettings?, if_neg (by decide), if_pos rfl, depth]
  rfl

/-- An object that holds the entries of a configuration, in any order and among any others, is read
as the configuration, if that is valid. -/
theorem ofText_object_text {config : Config} (fits : config.maxDepth < Nat.pow 2 64)
    {entries : List (String × Json)}
    (perm : (entries.filter fun entry => settingKeys.contains entry.1).Perm config.fields) :
    ofText (Json.object entries).text = config.checked := by
  have heededPerm : ((Json.entrySources entries).filter heeded).Perm
      ((Json.entrySources config.fields).filter heeded) := by
    rw [filter_heeded_entrySources, filter_heeded_entrySources, Json.entrySources_eq,
      Json.entrySources_eq]
    exact perm.map _
  rw [ofText_eq, Source.ofText?_text]
  change (findSettings? {} (Json.entrySources entries)).elim _ _ = _
  rw [findSettings?_perm heededPerm, findSettings?_fields fits]
  rfl

/-- A configuration whose depth fits 64 bits is read back from its text if it is valid, and its
depth is reported as out of range otherwise; so it is for every object that holds its entries, in
any order and among any others. The text of an object in which no key is repeated is read as the
values of the settings say, with a default for each that is absent, and any two texts of objects
are read alike whose entries with the keys of settings, or with keys that have no text, are the
same but for their order. Every configuration that is read or that a reshaper is made of allows
between 1 and 4096 levels. -/
theorem ofText_reads_settings :
    (∀ config : Config, config.maxDepth < Nat.pow 2 64 →
      ofText config.text = config.checked ∧
      ∀ entries : List (String × Json),
        (entries.filter fun entry => settingKeys.contains entry.1).Perm config.fields →
          ofText (Json.object entries).text = config.checked) ∧
    (∀ text entries, Source.ofText? text = some (.object entries) →
      (entries.map Prod.fst).Nodup → none ∉ entries.map Prod.fst →
        ofText text =
          ofValues (entries.lookup (some "missing")) (entries.lookup (some "max_depth"))) ∧
    (∀ text other entries others, Source.ofText? text = some (.object entries) →
      Source.ofText? other = some (.object others) →
      (entries.filter heeded).Perm (others.filter heeded) → ofText text = ofText other) ∧
    (∀ text config, ofText text = .ok config → 1 ≤ config.maxDepth ∧ config.maxDepth ≤ 4096) ∧
    ∀ config reshaper, Reshaper.ofConfig config = .ok reshaper →
      reshaper.config = config ∧ 1 ≤ config.maxDepth ∧ config.maxDepth ≤ 4096 := by
  refine ⟨fun config fits => ⟨?_, fun entries perm => ofText_object_text fits perm⟩, ?_, ?_, ?_, ?_⟩
  · exact ofText_object_text fits (List.Perm.refl config.fields)
  · exact fun text entries reads distinct named => ofText_of_nodup reads distinct named
  · exact fun text other entries others reads readsOther perm =>
      ofText_perm reads readsOther perm
  · exact fun text config read => valid_of_ofText read
  · intro config reshaper made
    have same := Reshaper.config_of_ofConfig made
    exact ⟨same, same ▸ reshaper.valid⟩

/-- Settings in another order, with a note between them and without one of them. -/
theorem ofText_reads_settings_note :
    let config : Config := { missing := .omitted, maxDepth := 7 }
    let note : String × Json := ("note", .array [.null, .number (.double .zero)])
    let turned := ("max_depth", .ofNat 7) :: note :: [("missing", .string "omit")]
    let single := [note, ("missing", .string "omit")]
    let faulty : Config := { maxDepth := 4097 }
    ofText config.text = .ok config ∧
      ofText (Json.object turned).text = .ok config ∧
      ofText faulty.text = .error (.outOfRange "max_depth" "1" "4096" "4097") ∧
      ofText (Json.object single).text = .ok { missing := .omitted } ∧
      ofText (Json.object single).text = ofText (Json.object single.tail).text ∧
      (1 ≤ config.maxDepth ∧ config.maxDepth ≤ 4096) ∧
      ∃ reshaper, Reshaper.ofConfig config = .ok reshaper ∧ reshaper.config = config := by
  intro config note turned single faulty
  obtain ⟨written, read, alike, valid, made⟩ := ofText_reads_settings
  obtain ⟨back, among⟩ := written config (by decide)
  have single_reads := Source.ofText?_text (.object single)
  refine ⟨back, ?_, ?_, ?_, ?_, valid _ _ back, ⟨config, by decide⟩, rfl, (made config _ rfl).1⟩
  · refine among turned ?_
    exact List.Perm.swap _ _ _
  · rw [(written faulty (by decide)).1]
    decide +kernel
  · rw [read _ _ single_reads (by decide) (by decide)]
    rfl
  · exact alike _ _ _ _ single_reads (Source.ofText?_text (.object single.tail)) (List.Perm.refl _)

end Config

end Reshape
