import Mathlib.Tactic.SplitIfs
import Reshape.Proofs.KeyText
import Reshape.Proofs.Parts
import Reshape.Proofs.Related
import Reshape.Rule.OfJson

/-!
# Rules that were read

Equations for the results of reading rules, and what a rule that was read has to do with the
document that it was read from: its entries come from the entries of the document one by one, its
`$key` and `$index` rules from entries of these names, and its fields from the entries that are not
reserved (`Rule.BodyOf`). `Rule.every_of_ofJson` carries a property of all objects of a document
over to all rules read from it.
-/

namespace Reshape

/-- A path is known as one by its text. -/
theorem Path.beginsWithDollar_text (path : Path) : beginsWithDollar path.text = true := by
  unfold beginsWithDollar Path.text
  rw [String.toList_append]
  rfl

namespace Rule

variable {limit depth : Nat}

/-! ## Results -/

theorem result_ofJsonAt_deep (deep : limit < depth) (value : Json) :
    Eval.result (ofJsonAt limit depth value) = .error (.tooDeep limit) := by
  unfold ofJsonAt
  rw [if_pos deep]
  rfl

theorem result_ofJsonAt_string (within : ¬ limit < depth) (source : String) :
    Eval.result (ofJsonAt limit depth (.string source)) =
      if beginsWithDollar source then (Path.ofText source).map .path else .ok (.text source) := by
  rw [ofJsonAt, if_neg within]
  split
  · rw [Eval.result_bind, Eval.result_ofExcept]
    cases Path.ofText source with
    | ok path => rfl
    | error error => rfl
  · rfl

theorem result_ofJsonAt_each (within : ¬ limit < depth) {entries : List (String × Json)}
    {source : Json} (found : Entries.get? entries eachEntry = some source) :
    Eval.result (ofJsonAt limit depth (.object entries)) = do
      let path ← eachPath source
      let body ← (ofJsonBody limit (depth + 1) entries).result
      return .each path body.key body.index body.fields := by
  rw [ofJsonAt, if_neg within]
  rw [found]
  simp only [Eval.result_bind, Eval.result_ofExcept, Eval.result_pure]
  rfl

theorem result_ofJsonAt_object (within : ¬ limit < depth) {entries : List (String × Json)}
    (absent : Entries.get? entries eachEntry = none) :
    Eval.result (ofJsonAt limit depth (.object entries)) = do
      let entries ← (ofJsonEntries limit (depth + 1) entries).result
      return .object entries := by
  rw [ofJsonAt, if_neg within]
  rw [absent]
  simp only [Eval.result_bind, Eval.result_pure]
  rfl

theorem result_ofJsonAt_other (within : ¬ limit < depth) {value : Json}
    (notString : value.kind ≠ .string) (notObject : value.kind ≠ .object) :
    Eval.result (ofJsonAt limit depth value) = .error (.notARule value.kind) := by
  unfold ofJsonAt
  rw [if_neg within]
  cases value with
  | string source => exact absurd rfl notString
  | object entries => exact absurd rfl notObject
  | null => rfl
  | bool value => rfl
  | number value => rfl
  | array items => rfl

theorem result_ofJsonEntries_nil : Eval.result (ofJsonEntries limit depth []) = .ok [] := by
  rw [ofJsonEntries]
  rfl

theorem result_ofJsonEntries_cons (key : String) (value : Json) (rest : List (String × Json)) :
    Eval.result (ofJsonEntries limit depth ((key, value) :: rest)) = do
      let rule ← (ofJsonAt limit depth value).result
      let rules ← (ofJsonEntries limit depth rest).result
      return (key, rule) :: rules := by
  rw [ofJsonEntries]
  simp only [Eval.result_bind, Eval.result_pure]
  rfl

theorem result_ofJsonBody_nil : Eval.result (ofJsonBody limit depth []) = .ok ⟨none, none, []⟩ := by
  rw [ofJsonBody]
  rfl

theorem result_ofJsonBody_cons (key : String) (value : Json) (rest : List (String × Json)) :
    Eval.result (ofJsonBody limit depth ((key, value) :: rest)) =
      if key = eachEntry then (ofJsonBody limit depth rest).result
      else if key = keyEntry then do
        let rule ← (ofJsonAt limit depth value).result
        let body ← (ofJsonBody limit depth rest).result
        return { body with key := body.key <|> some rule }
      else if key = indexEntry then do
        let rule ← (ofJsonAt limit depth value).result
        let body ← (ofJsonBody limit depth rest).result
        return { body with index := body.index <|> some rule }
      else if isReserved key then (ofJsonBody limit depth rest).result
      else do
        let rule ← (ofJsonAt limit depth value).result
        let body ← (ofJsonBody limit depth rest).result
        return { body with fields := (key, rule) :: body.fields } := by
  rw [ofJsonBody]
  split
  · rfl
  · split
    · simp only [Eval.result_bind, Eval.result_pure]
      rfl
    · split
      · simp only [Eval.result_bind, Eval.result_pure]
        rfl
      · split
        · simp only [Eval.result_bind]
          rfl
        · simp only [Eval.result_bind, Eval.result_pure]
          rfl

theorem result_ofJson_ruleSet (limit : Nat) (entries : List (String × Json)) :
    Eval.result (RuleSet.ofJson limit (.object entries)) = do
      let rules ← (ofJsonEntries limit 1 entries).result
      return ⟨rules⟩ := by
  unfold RuleSet.ofJson
  simp only [Eval.result_bind, Eval.result_pure]
  rfl

/-! ## What was read -/

/-- An entry of a document and the entry of a rule read from it. -/
def EntryOf (limit depth : Nat) (entry : String × Json) (rule : String × Rule) : Prop :=
  rule.1 = entry.1 ∧ Eval.result (ofJsonAt limit depth entry.2) = .ok rule.2

theorem entryOf_of_ofJsonEntries {entries : List (String × Json)} {rules : List (String × Rule)}
    (read : Eval.result (ofJsonEntries limit depth entries) = .ok rules) :
    List.Forall₂ (EntryOf limit depth) entries rules := by
  induction entries generalizing rules with
  | nil =>
    rw [result_ofJsonEntries_nil] at read
    cases read
    exact .nil
  | cons entry rest ih =>
    obtain ⟨key, value⟩ := entry
    rw [result_ofJsonEntries_cons] at read
    obtain ⟨rule, first, read⟩ := of_bind_eq_ok read
    obtain ⟨rules, later, read⟩ := of_bind_eq_ok read
    cases read
    exact .cons ⟨rfl, first⟩ (ih later)

theorem ofJsonEntries_of_entryOf {entries : List (String × Json)} {rules : List (String × Rule)}
    (related : List.Forall₂ (EntryOf limit depth) entries rules) :
    Eval.result (ofJsonEntries limit depth entries) = .ok rules := by
  induction related with
  | nil => exact result_ofJsonEntries_nil
  | @cons entry rule rest others first _ ih =>
    rw [result_ofJsonEntries_cons, first.2, ih, ← first.1]
    rfl

/-- A rule that was read from an entry of the name. -/
def ReadFrom (limit depth : Nat) (entries : List (String × Json)) (name : String) (rule : Rule) :
    Prop :=
  ∃ value, (name, value) ∈ entries ∧ Eval.result (ofJsonAt limit depth value) = .ok rule

theorem ReadFrom.cons {entries : List (String × Json)} {name : String} {rule : Rule}
    (read : ReadFrom limit depth entries name rule) (entry : String × Json) :
    ReadFrom limit depth (entry :: entries) name rule := by
  obtain ⟨value, member, read⟩ := read
  exact ⟨value, List.mem_cons_of_mem _ member, read⟩

/-- Of several entries of one name the last one counts. -/
theorem ReadFrom.of_orElse {entries : List (String × Json)} {name : String} {value : Json}
    {later : Option Rule} {rule : Rule}
    (rest : ∀ r ∈ later, ReadFrom limit depth entries name r)
    (first : Eval.result (ofJsonAt limit depth value) = .ok rule) :
    ∀ r ∈ later <|> some rule, ReadFrom limit depth ((name, value) :: entries) name r := by
  intro r found
  cases later with
  | some other => exact (rest r found).cons _
  | none =>
    cases found
    exact ⟨value, List.mem_cons_self, first⟩

/-- What the parts of a repeating rule have to do with the entries that they were read from. -/
structure BodyOf (limit depth : Nat) (entries : List (String × Json)) (body : Body) : Prop where
  key : ∀ rule ∈ body.key, ReadFrom limit depth entries keyEntry rule
  index : ∀ rule ∈ body.index, ReadFrom limit depth entries indexEntry rule
  fields : List.Forall₂ (EntryOf limit depth)
    (entries.filter fun entry => !isReserved entry.1) body.fields

/-- The fields do not come from reserved entries. -/
theorem fields_cons_of_isReserved {entries : List (String × Json)} {key : String}
    (reserved : isReserved key = true) (value : Json) :
    ((key, value) :: entries).filter (fun entry => !isReserved entry.1) =
      entries.filter fun entry => !isReserved entry.1 :=
  List.filter_cons_of_neg (by simp [reserved])

theorem BodyOf.skip {entries : List (String × Json)} {body : Body}
    (rest : BodyOf limit depth entries body) {key : String} (reserved : isReserved key = true)
    (value : Json) : BodyOf limit depth ((key, value) :: entries) body := by
  refine ⟨fun r found => (rest.key r found).cons _, fun r found => (rest.index r found).cons _, ?_⟩
  rw [fields_cons_of_isReserved reserved]
  exact rest.fields

theorem bodyOf_of_ofJsonBody {entries : List (String × Json)} {body : Body}
    (read : Eval.result (ofJsonBody limit depth entries) = .ok body) :
    BodyOf limit depth entries body := by
  induction entries generalizing body with
  | nil =>
    rw [result_ofJsonBody_nil] at read
    cases read
    exact ⟨nofun, nofun, .nil⟩
  | cons entry rest ih =>
    obtain ⟨key, value⟩ := entry
    rw [result_ofJsonBody_cons] at read
    split at read
    · next same => exact (ih read).skip (same ▸ isReserved_eachEntry) value
    split at read
    · next same =>
      subst same
      obtain ⟨rule, first, read⟩ := of_bind_eq_ok read
      obtain ⟨others, later, read⟩ := of_bind_eq_ok read
      cases read
      have skipped := (ih later).skip isReserved_keyEntry value
      exact ⟨ReadFrom.of_orElse (ih later).key first, skipped.index, skipped.fields⟩
    split at read
    · next same =>
      subst same
      obtain ⟨rule, first, read⟩ := of_bind_eq_ok read
      obtain ⟨others, later, read⟩ := of_bind_eq_ok read
      cases read
      have skipped := (ih later).skip isReserved_indexEntry value
      exact ⟨skipped.key, ReadFrom.of_orElse (ih later).index first, skipped.fields⟩
    split at read
    · next reserved => exact (ih read).skip reserved value
    · next plain =>
      obtain ⟨rule, first, read⟩ := of_bind_eq_ok read
      obtain ⟨others, later, read⟩ := of_bind_eq_ok read
      cases read
      have others := ih later
      refine ⟨fun r found => (others.key r found).cons _,
        fun r found => (others.index r found).cons _, ?_⟩
      rw [List.filter_cons_of_pos (by simp [plain])]
      exact .cons ⟨rfl, first⟩ others.fields

/-- What a rule has to do with the value that it was read from, one level deep. -/
inductive RuleOf (limit depth : Nat) : Json → Rule → Prop where
  | text {source : String} : beginsWithDollar source = false →
    RuleOf limit depth (.string source) (.text source)
  | path {source : String} {path : Path} : Path.ofText source = .ok path →
    RuleOf limit depth (.string source) (.path path)
  | object {entries : List (String × Json)} {rules : List (String × Rule)} :
    List.Forall₂ (EntryOf limit (depth + 1)) entries rules →
    RuleOf limit depth (.object entries) (.object rules)
  | each {entries : List (String × Json)} {source : Json} {path : Path} {body : Body} :
    Entries.get? entries eachEntry = some source → eachPath source = .ok path →
    BodyOf limit (depth + 1) entries body →
    RuleOf limit depth (.object entries) (.each path body.key body.index body.fields)

theorem ruleOf_of_ofJsonAt {value : Json} {rule : Rule}
    (read : Eval.result (ofJsonAt limit depth value) = .ok rule) :
    RuleOf limit depth value rule := by
  by_cases deep : limit < depth
  · rw [result_ofJsonAt_deep deep] at read
    cases read
  cases value with
  | string source =>
    rw [result_ofJsonAt_string deep] at read
    split at read
    · cases parsed : Path.ofText source with
      | error error =>
        rw [parsed] at read
        cases read
      | ok path =>
        rw [parsed] at read
        cases read
        exact .path parsed
    · next plain =>
      cases read
      exact .text (Bool.eq_false_iff.mpr plain)
  | object entries =>
    cases found : Entries.get? entries eachEntry with
    | some source =>
      rw [result_ofJsonAt_each deep found] at read
      obtain ⟨path, parsed, read⟩ := of_bind_eq_ok read
      obtain ⟨body, inner, read⟩ := of_bind_eq_ok read
      cases read
      exact .each found parsed (bodyOf_of_ofJsonBody inner)
    | none =>
      rw [result_ofJsonAt_object deep found] at read
      obtain ⟨rules, inner, read⟩ := of_bind_eq_ok read
      cases read
      exact .object (entryOf_of_ofJsonEntries inner)
  | null =>
    rw [result_ofJsonAt_other deep (by simp [Json.kind]) (by simp [Json.kind])] at read
    cases read
  | bool value =>
    rw [result_ofJsonAt_other deep (by simp [Json.kind]) (by simp [Json.kind])] at read
    cases read
  | number value =>
    rw [result_ofJsonAt_other deep (by simp [Json.kind]) (by simp [Json.kind])] at read
    cases read
  | array items =>
    rw [result_ofJsonAt_other deep (by simp [Json.kind]) (by simp [Json.kind])] at read
    cases read

/-! ## Keys -/

theorem keys_of_entryOf {entries : List (String × Json)} {rules : List (String × Rule)}
    (related : List.Forall₂ (EntryOf limit depth) entries rules) :
    Entries.keys rules = Entries.keys entries := by
  induction related with
  | nil => rfl
  | cons first _ ih => rw [Entries.keys_cons, Entries.keys_cons, first.1, ih]

/-- The keys of a rule are keys of the object that it was read from, in the same order. -/
theorem RuleOf.keys_sublist {value : Json} {rule : Rule} (read : RuleOf limit depth value rule) :
    rule.keys.Sublist value.keys := by
  cases read with
  | text _ => exact .refl _
  | path _ => exact .refl _
  | object entries =>
    rw [Rule.keys, keys_of_entryOf entries]
    exact .refl _
  | each _ _ body =>
    rw [Rule.keys, keys_of_entryOf body.fields]
    exact List.filter_sublist.map Prod.fst

theorem mem_of_entryOf {entries : List (String × Json)} {rules : List (String × Rule)}
    (related : List.Forall₂ (EntryOf limit depth) entries rules) {rule : String × Rule}
    (member : rule ∈ rules) : ∃ entry ∈ entries, EntryOf limit depth entry rule := by
  induction related with
  | nil => cases member
  | cons first _ ih =>
    rcases List.mem_cons.mp member with rfl | later
    · exact ⟨_, List.mem_cons_self, first⟩
    · obtain ⟨entry, member, read⟩ := ih later
      exact ⟨entry, List.mem_cons_of_mem _ member, read⟩

/-! ## Depths and limits -/

section Unique

variable {limit' depth' : Nat} {entries : List (String × Json)}

theorem shallow_of_ofJsonAt {value : Json} {rule : Rule}
    (read : Eval.result (ofJsonAt limit depth value) = .ok rule) : ¬ limit < depth := by
  intro deep
  rw [result_ofJsonAt_deep deep] at read
  cases read

/-- Reading comes to one rule at most, whatever the limit and the depth. -/
abbrev Unambiguous (value : Json) : Prop :=
  ∀ {limit depth limit' depth' : Nat} {rule rule' : Rule},
    Eval.result (ofJsonAt limit depth value) = .ok rule →
    Eval.result (ofJsonAt limit' depth' value) = .ok rule' → rule = rule'

theorem entries_unique {rules rules' : List (String × Rule)}
    (parts : ∀ entry ∈ entries, Unambiguous entry.2)
    (read : List.Forall₂ (EntryOf limit depth) entries rules)
    (read' : List.Forall₂ (EntryOf limit' depth') entries rules') : rules = rules' := by
  induction read generalizing rules' with
  | nil =>
    cases read'
    rfl
  | @cons entry rule rest others first _ ih =>
    obtain ⟨part, parts⟩ := List.forall_mem_cons.mp parts
    rcases read' with _ | ⟨first', later'⟩
    have key := first.1.trans first'.1.symm
    have value := part first.2 first'.2
    rw [Prod.ext key value, ih parts later']

theorem body_unique {body body' : Body} (parts : ∀ entry ∈ entries, Unambiguous entry.2)
    (read : Eval.result (ofJsonBody limit depth entries) = .ok body)
    (read' : Eval.result (ofJsonBody limit' depth' entries) = .ok body') : body = body' := by
  induction entries generalizing body body' with
  | nil =>
    rw [result_ofJsonBody_nil] at read read'
    cases read
    cases read'
    rfl
  | cons entry rest ih =>
    obtain ⟨key, value⟩ := entry
    obtain ⟨part, parts⟩ := List.forall_mem_cons.mp parts
    -- an entry with a rule is the same in both, and so is what follows it
    have step : ∀ {build : Rule → Body → Body},
        ((ofJsonAt limit depth value).result >>= fun rule =>
          (ofJsonBody limit depth rest).result >>= fun body => .ok (build rule body)) = .ok body →
        ((ofJsonAt limit' depth' value).result >>= fun rule =>
          (ofJsonBody limit' depth' rest).result >>= fun body => .ok (build rule body)) =
            .ok body' →
        body = body' := by
      intro build read read'
      obtain ⟨rule, first, read⟩ := of_bind_eq_ok read
      obtain ⟨others, later, read⟩ := of_bind_eq_ok read
      obtain ⟨rule', first', read'⟩ := of_bind_eq_ok read'
      obtain ⟨others', later', read'⟩ := of_bind_eq_ok read'
      obtain rfl := part first first'
      obtain rfl := ih parts later later'
      exact Except.ok.inj (read.symm.trans read')
    rw [result_ofJsonBody_cons] at read read'
    split_ifs at read read'
    · exact ih parts read read'
    · exact step read read'
    · exact step read read'
    · exact ih parts read read'
    · exact step read read'

/-- No two rules are read from one value, at whatever depths. -/
theorem unambiguous (value : Json) : Unambiguous value := by
  induction value with
  | null => exact fun read => nomatch ruleOf_of_ofJsonAt read
  | bool value => exact fun read => nomatch ruleOf_of_ofJsonAt read
  | number value => exact fun read => nomatch ruleOf_of_ofJsonAt read
  | array items _ => exact fun read => nomatch ruleOf_of_ofJsonAt read
  | string source =>
    intro limit depth limit' depth' rule rule' read read'
    rw [result_ofJsonAt_string (shallow_of_ofJsonAt read)] at read
    rw [result_ofJsonAt_string (shallow_of_ofJsonAt read')] at read'
    exact Except.ok.inj (read.symm.trans read')
  | object entries ih =>
    intro limit depth limit' depth' rule rule' read read'
    have shallow := shallow_of_ofJsonAt read
    have shallow' := shallow_of_ofJsonAt read'
    cases found : Entries.get? entries eachEntry with
    | none =>
      rw [result_ofJsonAt_object shallow found] at read
      rw [result_ofJsonAt_object shallow' found] at read'
      obtain ⟨rules, inner, read⟩ := of_bind_eq_ok read
      obtain ⟨rules', inner', read'⟩ := of_bind_eq_ok read'
      obtain rfl := entries_unique ih (entryOf_of_ofJsonEntries inner)
        (entryOf_of_ofJsonEntries inner')
      exact Except.ok.inj (read.symm.trans read')
    | some source =>
      rw [result_ofJsonAt_each shallow found] at read
      rw [result_ofJsonAt_each shallow' found] at read'
      obtain ⟨path, parsed, read⟩ := of_bind_eq_ok read
      obtain ⟨body, inner, read⟩ := of_bind_eq_ok read
      obtain ⟨path', parsed', read'⟩ := of_bind_eq_ok read'
      obtain ⟨body', inner', read'⟩ := of_bind_eq_ok read'
      obtain rfl := Except.ok.inj (parsed.symm.trans parsed')
      obtain rfl := body_unique ih inner inner'
      exact Except.ok.inj (read.symm.trans read')

end Unique

/-- What goes from each value to the rule read from it goes from a document to all its rules. -/
theorem every_of_ofJson {written : Json → Prop} {node : Rule → Prop}
    (step : ∀ {depth : Nat} {value : Json} {rule : Rule}, written value →
      RuleOf limit depth value rule → node rule)
    {value : Json} (every : value.Every written) {rule : Rule}
    (read : Eval.result (ofJsonAt limit depth value) = .ok rule) : rule.Every node := by
  induction value generalizing depth rule with
  | null => cases ruleOf_of_ofJsonAt read
  | bool value => cases ruleOf_of_ofJsonAt read
  | number value => cases ruleOf_of_ofJsonAt read
  | array items _ => cases ruleOf_of_ofJsonAt read
  | string source =>
    have here := step every (ruleOf_of_ofJsonAt read)
    cases ruleOf_of_ofJsonAt read with
    | text _ => exact here
    | path _ => exact here
  | object entries ih =>
    obtain ⟨here, parts⟩ := Json.every_object_iff.mp every
    have shape := ruleOf_of_ofJsonAt read
    have inside : ∀ {name : String} {value : Json} {r : Rule}, (name, value) ∈ entries →
        Eval.result (ofJsonAt limit (depth + 1) value) = .ok r → r.Every node :=
      fun member read => ih _ member (parts _ member) read
    cases shape with
    | object related =>
      refine every_object_iff.mpr ⟨step here (.object related), fun entry member => ?_⟩
      obtain ⟨source, origin, _, read⟩ := mem_of_entryOf related member
      exact inside origin read
    | each found parsed body =>
      refine every_each_iff.mpr ⟨step here (.each found parsed body), fun r same => ?_,
        fun r same => ?_, fun field member => ?_⟩
      · obtain ⟨source, origin, read⟩ := body.key r same
        exact inside origin read
      · obtain ⟨source, origin, read⟩ := body.index r same
        exact inside origin read
      · obtain ⟨source, origin, _, read⟩ := mem_of_entryOf body.fields member
        exact inside (List.mem_filter.mp origin).1 read

end Rule

end Reshape
