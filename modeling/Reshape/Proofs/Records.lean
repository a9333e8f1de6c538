import Reshape.Proofs.Failure
import Reshape.Proofs.Quiet
import Reshape.Proofs.Related

/-!
# Records of listings and collections

A repeating rule reports when its items are listed, and again when what became of them is about to
be collected. In between it evaluates its body for each item, and so the records of a run nest like
brackets. `openAfter` reads them from the left and keeps the listings that are open, each of which
has to be closed by a collection of the same path and the same number of items.

Evaluation fails where items cannot be listed. `Rule.FailsAt` finds this place from outside: it goes
down from item to part, always to the first that fails, and notes each repetition that it enters.

* `Eval.Mirrors` ties both together for one computation, with a rule for each way to put
  computations together.
* `Reshaper.records_of_transform`: the records are those of balanced brackets, and where evaluation
  fails they break off inside the repetitions around the rule that fails.
-/

namespace Reshape

/-! ## Open listings -/

/-- The listings that are open after an event, the innermost one first. A collection closes the
innermost one, which has to be of the same path and of as many items. -/
def Event.openAfter (opened : List (Path × Nat)) : Event → Option (List (Path × Nat))
  | .listed path count => some ((path, count) :: opened)
  | .collecting count path _ =>
    match opened with
    | innermost :: around => if innermost = (path, count) then some around else none
    | [] => none
  | _ => some opened

/-- The listings that are open after a log. -/
def openAfter (opened : List (Path × Nat)) (log : List Event) : Option (List (Path × Nat)) :=
  log.foldlM Event.openAfter opened

theorem openAfter_append (opened : List (Path × Nat)) (first second : List Event) :
    openAfter opened (first ++ second) =
      (openAfter opened first).bind fun opened => openAfter opened second :=
  List.foldlM_append

theorem openAfter_cons (opened : List (Path × Nat)) (event : Event) (rest : List Event) :
    openAfter opened (event :: rest) =
      (event.openAfter opened).bind fun opened => openAfter opened rest :=
  List.foldlM_cons

theorem Event.openAfter_of_not_isRecord {event : Event} (other : event.isRecord = false)
    (opened : List (Path × Nat)) : event.openAfter opened = some opened := by
  cases event with
  | listed path count => cases other
  | collecting count path keyed => cases other
  | _ => rfl

theorem Event.openAfter_collecting (path : Path) (count : Nat) (keyed : Bool)
    (opened : List (Path × Nat)) :
    (collecting count path keyed).openAfter ((path, count) :: opened) = some opened :=
  if_pos rfl

theorem openAfter_of_quiet {log : List Event} (quiet : Quiet log) (opened : List (Path × Nat)) :
    openAfter opened log = some opened := by
  induction log with
  | nil => rfl
  | cons event rest ih =>
    obtain ⟨here, rest⟩ := List.forall_mem_cons.mp quiet
    rw [openAfter_cons, event.openAfter_of_not_isRecord here, Option.bind_some, ih rest]

/-- Only records open and close. -/
theorem openAfter_filter_isRecord (opened : List (Path × Nat)) (log : List Event) :
    openAfter opened (log.filter Event.isRecord) = openAfter opened log := by
  induction log generalizing opened with
  | nil => rfl
  | cons event rest ih =>
    cases kind : event.isRecord with
    | true =>
      rw [List.filter_cons_of_pos kind, openAfter_cons, openAfter_cons]
      simp only [ih]
    | false =>
      rw [List.filter_cons_of_neg (Bool.eq_false_iff.mp kind), openAfter_cons,
        event.openAfter_of_not_isRecord kind, Option.bind_some, ih]

/-- Whatever is open can be closed. -/
theorem openAfter_closing (opened : List (Path × Nat)) (keyed : Bool) :
    openAfter opened (opened.map fun listing => .collecting listing.2 listing.1 keyed) =
      some [] := by
  induction opened with
  | nil => rfl
  | cons listing around ih =>
    rw [List.map_cons, openAfter_cons, Event.openAfter_collecting, Option.bind_some, ih]

/-! ## Where a rule fails -/

namespace Rule

/-- Whether the evaluation of a rule fails. -/
def fails (missing : Missing) (context : Context) (rule : Rule) : Bool :=
  (failure? (eval missing rule context).result).isSome

/-- The rule fails because the items of `path` cannot be listed, in the first of its parts that
fails, for the first item for which one does. The repetitions `around` the place, from the outside
in, are given by their paths and numbers of items. -/
inductive FailsAt (missing : Missing) :
    Rule → Context → List (Path × Nat) → Path → Error → Prop
  | listing {source : Path} {key index : Option Rule} {fields : List (String × Rule)}
    {context : Context} {error : Error} :
    (source.items context.root context.env).result = .error error →
    FailsAt missing (.each source key index fields) context [] source error
  | entry {entries : List (String × Rule)} {context : Context} {part : Rule}
    {around : List (Path × Nat)} {path : Path} {error : Error} :
    (Rule.object entries).parts.find? (fails missing context) = some part →
    FailsAt missing part context around path error →
    FailsAt missing (.object entries) context around path error
  | item {source : Path} {key index : Option Rule} {fields : List (String × Rule)}
    {context : Context} {items : List Item} {item : Item} {part : Rule}
    {around : List (Path × Nat)} {path : Path} {error : Error} :
    (source.items context.root context.env).result = .ok items →
    items.find? (fun item => (Rule.each source key index fields).parts.any
      (fails missing (context.enter item))) = some item →
    (Rule.each source key index fields).parts.find? (fails missing (context.enter item)) =
      some part →
    FailsAt missing part (context.enter item) around path error →
    FailsAt missing (.each source key index fields) context
      ((source, items.length) :: around) path error

/-- The first of the rules that fails does so for want of the items of `path`. -/
def FailsFirst (missing : Missing) (context : Context) (rules : List Rule)
    (around : List (Path × Nat)) (path : Path) (error : Error) : Prop :=
  ∃ rule, rules.find? (fails missing context) = some rule ∧
    rule.FailsAt missing context around path error

variable {missing : Missing} {context : Context} {around : List (Path × Nat)} {path : Path}
  {error : Error}

theorem FailsFirst.append_right {first : List Rule}
    (failure : FailsFirst missing context first around path error) (second : List Rule) :
    FailsFirst missing context (first ++ second) around path error := by
  obtain ⟨rule, found, failure⟩ := failure
  exact ⟨rule, by rw [List.find?_append, found, Option.some_or], failure⟩

theorem FailsFirst.append_left {first second : List Rule}
    (fine : first.find? (fails missing context) = none)
    (failure : FailsFirst missing context second around path error) :
    FailsFirst missing context (first ++ second) around path error := by
  obtain ⟨rule, found, failure⟩ := failure
  exact ⟨rule, by rw [List.find?_append, fine, Option.none_or, found], failure⟩

end Rule

/-- Items that cannot be listed have a path with several unbound variables. -/
theorem Path.error_of_items {path : Path} {root : Json} {env : Env} {error : Error}
    (unlisted : (path.items root env).result = .error error) :
    ∃ count, error = .severalVariables path.text count := by
  rw [result_items] at unlisted
  split at unlisted
  · cases unlisted
  · cases unlisted
  · exact ⟨_, (Except.error.inj unlisted).symm⟩

theorem Rule.FailsAt.error_eq {missing : Missing} {rule : Rule} {context : Context}
    {around : List (Path × Nat)} {path : Path} {error : Error}
    (failure : rule.FailsAt missing context around path error) :
    ∃ count, error = .severalVariables path.text count := by
  induction failure with
  | listing unlisted => exact Path.error_of_items unlisted
  | entry _ _ ih => exact ih
  | item _ _ _ _ ih => exact ih

/-- A rule fails in one place. -/
theorem Rule.FailsAt.unique {missing : Missing} {rule : Rule} {context : Context}
    {around others : List (Path × Nat)} {path other : Path} {error another : Error}
    (failure : rule.FailsAt missing context around path error)
    (again : rule.FailsAt missing context others other another) :
    others = around ∧ other = path ∧ another = error := by
  induction failure generalizing others with
  | listing unlisted =>
    cases again with
    | listing unlisted' => exact ⟨rfl, rfl, Except.error.inj (unlisted'.symm.trans unlisted)⟩
    | item listed => cases listed.symm.trans unlisted
  | entry found _ ih =>
    cases again with
    | entry found' failure =>
      obtain rfl := Option.some.inj (found'.symm.trans found)
      exact ih failure
  | item listed first found _ ih =>
    cases again with
    | listing unlisted => cases unlisted.symm.trans listed
    | item listed' first' found' failure =>
      obtain rfl := Except.ok.inj (listed'.symm.trans listed)
      obtain rfl := Option.some.inj (first'.symm.trans first)
      obtain rfl := Option.some.inj (found'.symm.trans found)
      obtain ⟨rfl, same⟩ := ih failure
      exact ⟨rfl, same⟩

/-! ## Computations and their records -/

/-- The records of a computation mirror it: they are balanced if it succeeds, and if it fails they
leave the repetitions open that are around the place to blame. -/
structure Eval.Mirrors {α : Type} (blame : List (Path × Nat) → Path → Error → Prop)
    (x : Eval α) : Prop where
  balanced : ∀ value, x.result = .ok value → ∀ opened, openAfter opened x.log = some opened
  broken : ∀ error, x.result = .error error → ∃ around path, blame around path error ∧
    ∀ opened, openAfter opened x.log = some (around.reverse ++ opened)

namespace Eval

variable {α β : Type} {blame blame' : List (Path × Nat) → Path → Error → Prop}

theorem mirrors_pure (value : α) : Mirrors blame (pure value : Eval α) where
  balanced _ _ _ := rfl
  broken _ failed := by cases failed

theorem mirrors_lift {x : Logged α} (quiet : Quiet x.log) : Mirrors blame (liftM x : Eval α) where
  balanced _ _ opened := openAfter_of_quiet quiet opened
  broken _ failed := by cases failed

theorem Mirrors.mono {x : Eval α} (mirrors : Mirrors blame x)
    (weaker : ∀ around path error, x.result = .error error → blame around path error →
      blame' around path error) : Mirrors blame' x where
  balanced := mirrors.balanced
  broken error failed := by
    obtain ⟨around, path, blamed, left⟩ := mirrors.broken error failed
    exact ⟨around, path, weaker around path error failed blamed, left⟩

section Bind

variable {first : Eval α} {next : α → Eval β}

theorem result_bind_of_ok {value : α} (succeeds : first.result = .ok value) :
    result (first >>= next) = (next value).result := by
  rw [result_bind, succeeds]
  rfl

theorem log_bind_of_ok {value : α} (succeeds : first.result = .ok value) :
    log (first >>= next) = first.log ++ (next value).log := by
  rw [log_bind, succeeds]

theorem result_bind_of_error {error : Error} (fails : first.result = .error error) :
    result (first >>= next) = .error error := by
  rw [result_bind, fails]
  rfl

theorem log_bind_of_error {error : Error} (fails : first.result = .error error) :
    log (first >>= next) = first.log := by
  rw [log_bind, fails, List.append_nil]

end Bind

/-- What is known of a computation that fails. -/
theorem mirrors_of_error {x : Eval α} {error : Error} (fails : x.result = .error error)
    (broken : ∃ around path, blame around path error ∧
      ∀ opened, openAfter opened x.log = some (around.reverse ++ opened)) : Mirrors blame x where
  balanced value succeeds := by
    rw [fails] at succeeds
    cases succeeds
  broken other failed := by
    obtain rfl := Except.error.inj (fails.symm.trans failed)
    exact broken

theorem Mirrors.bind {first : Eval α} {next : α → Eval β} (mirrors : Mirrors blame first)
    (later : ∀ value, first.result = .ok value → Mirrors blame (next value)) :
    Mirrors blame (first >>= next) := by
  cases evaluated : first.result with
  | error error =>
    refine mirrors_of_error (result_bind_of_error evaluated) ?_
    rw [log_bind_of_error evaluated]
    exact mirrors.broken error evaluated
  | ok value =>
    have result : Eval.result (first >>= next) = (next value).result := result_bind_of_ok evaluated
    have left : ∀ opened, openAfter opened (Eval.log (first >>= next)) =
        openAfter opened (next value).log := by
      intro opened
      rw [log_bind_of_ok evaluated, openAfter_append, mirrors.balanced value evaluated,
        Option.bind_some]
    obtain ⟨balanced, broken⟩ := later value evaluated
    refine ⟨fun final succeeds opened => ?_, fun error fails => ?_⟩
    · rw [left]
      exact balanced final (result.symm.trans succeeds) opened
    · obtain ⟨around, path, blamed, others⟩ := broken error (result.symm.trans fails)
      exact ⟨around, path, blamed, fun opened => (left opened).trans (others opened)⟩

/-- Computations in a row: the first input that fails is to blame. -/
theorem mirrors_mapM {next : α → Eval β} {blame : α → List (Path × Nat) → Path → Error → Prop}
    (mirrors : ∀ input, Mirrors (blame input) (next input)) (inputs : List α) :
    Mirrors (fun around path error => ∃ input,
      inputs.find? (fun input => (failure? (next input).result).isSome) = some input ∧
        blame input around path error) (inputs.mapM next) := by
  induction inputs with
  | nil => exact mirrors_pure []
  | cons input rest ih =>
    rw [List.mapM_cons]
    refine Mirrors.bind ((mirrors input).mono fun around path error failed blamed => ?_) ?_
    · refine ⟨input, List.find?_cons_of_pos ?_, blamed⟩
      rw [failed]
      rfl
    · intro value fine
      refine Mirrors.bind (ih.mono fun around path error _ found => ?_) fun _ _ => mirrors_pure _
      obtain ⟨later, found, blamed⟩ := found
      refine ⟨later, ?_, blamed⟩
      rw [List.find?_cons_of_neg (by rw [fine]; exact Bool.false_ne_true), found]

end Eval

/-! ## Rules -/

/-- Items are listed with one record, the last event, or there is none. -/
theorem Path.openAfter_items (path : Path) (root : Json) (env : Env)
    (opened : List (Path × Nat)) :
    openAfter opened (path.items root env).log =
      some (match (path.items root env).result with
        | .ok items => (path, items.length) :: opened
        | .error _ => opened) := by
  have report (items : Logged (List Item)) (quiet : Quiet items.log) :
      openAfter opened (items.log ++ [.listed path items.value.length]) =
        some ((path, items.value.length) :: opened) := by
    rw [openAfter_append, openAfter_of_quiet quiet]
    rfl
  unfold items
  dsimp only
  split
  · exact report ((fun value => env.itemsOf value) <$> root.follow _) (root.quiet_follow _)
  · exact report (itemsAlong root env _ _ _) (quiet_itemsAlong root env _ _ _)
  · rfl

namespace Rule

variable {missing : Missing}

/-- The body of a repeating rule, evaluated for one item. -/
def evalBody (missing : Missing) (key index : Option Rule) (fields : List (String × Rule))
    (context : Context) : Eval Outcome := do
  let key ← evalOption missing key context
  let index ← evalOption missing index context
  let fields ← evalEntries missing fields context []
  return { key, index, fields }

theorem result_evalBody (key index : Option Rule) (fields : List (String × Rule))
    (context : Context) :
    (evalBody missing key index fields context).result =
      resultBody missing key index fields context := by
  unfold evalBody resultBody
  simp only [Eval.result_bind, Eval.result_pure]
  rfl

theorem isSome_failure?_evalBody (source : Path) (key index : Option Rule)
    (fields : List (String × Rule)) (context : Context) :
    (failure? (evalBody missing key index fields context).result).isSome =
      (each source key index fields).parts.any (fails missing context) := by
  rw [result_evalBody, failure?_resultBody missing context source, List.isSome_findSome?]
  rfl

theorem mirrors_evalOption {rule : Option Rule} {context : Context}
    (part : ∀ r ∈ rule, (eval missing r context).Mirrors (r.FailsAt missing context)) :
    (evalOption missing rule context).Mirrors (FailsFirst missing context rule.toList) := by
  cases rule with
  | none =>
    rw [evalOption]
    exact Eval.mirrors_pure none
  | some rule =>
    rw [evalOption]
    refine Eval.Mirrors.bind ((part rule rfl).mono fun around path error failed failure => ?_)
      fun value _ => Eval.mirrors_lift (context.env.quiet_substOption missing value)
    exact ⟨rule, List.find?_cons_of_pos (by rw [fails, failed]; rfl), failure⟩

theorem mirrors_evalEntries {entries : List (String × Rule)} {context : Context}
    (parts : ∀ entry ∈ entries,
      (eval missing entry.2 context).Mirrors (entry.2.FailsAt missing context))
    (written : Entries Json) :
    (evalEntries missing entries context written).Mirrors
      (FailsFirst missing context (entries.map Prod.snd)) := by
  induction entries generalizing written with
  | nil =>
    rw [evalEntries]
    exact Eval.mirrors_pure written
  | cons entry rest ih =>
    obtain ⟨key, rule⟩ := entry
    obtain ⟨first, parts⟩ := List.forall_mem_cons.mp parts
    rw [evalEntries]
    refine Eval.Mirrors.bind (first.mono fun around path error failed failure => ?_) ?_
    · exact ⟨rule, List.find?_cons_of_pos (by rw [fails, failed]; rfl), failure⟩
    intro value fine
    refine Eval.Mirrors.bind (Eval.mirrors_lift (context.env.quiet_substOption missing value)) ?_
    intro value _
    refine Eval.Mirrors.bind (Eval.mirrors_lift (missing.quiet_put written key value)) ?_
    intro written _
    refine (ih parts written).mono fun around path error _ failure => ?_
    have none : [rule].find? (fails missing context) = none := by
      rw [List.find?_singleton, fails, fine]
      rfl
    exact failure.append_left none

/-- No rule is found to fail where the first error is none. -/
theorem find?_fails_eq_none {rules : List Rule} {context : Context}
    (fine : rules.findSome? (fun rule => failure? (eval missing rule context).result) = none) :
    rules.find? (fails missing context) = none := by
  rw [List.find?_eq_none]
  intro rule member failed
  rw [fails, List.findSome?_eq_none_iff.mp fine rule member] at failed
  cases failed

theorem mirrors_evalBody {source : Path} {key index : Option Rule}
    {fields : List (String × Rule)} {context : Context}
    (part : ∀ rule ∈ (each source key index fields).parts,
      (eval missing rule context).Mirrors (rule.FailsAt missing context)) :
    (evalBody missing key index fields context).Mirrors
      (FailsFirst missing context (each source key index fields).parts) := by
  simp only [parts, List.mem_append, Option.mem_toList, List.mem_map] at part
  have fine {rule : Option Rule} {value : Option Json}
      (succeeds : (evalOption missing rule context).result = .ok value) :
      rule.toList.find? (fails missing context) = none := by
    refine find?_fails_eq_none ?_
    rw [← failure?_evalOption, succeeds, failure?_ok]
  have keyPart : (evalOption missing key context).Mirrors (FailsFirst missing context key.toList) :=
    mirrors_evalOption fun rule same => part rule (Or.inl (Or.inl same))
  have indexPart : (evalOption missing index context).Mirrors
      (FailsFirst missing context index.toList) :=
    mirrors_evalOption fun rule same => part rule (Or.inl (Or.inr same))
  have fieldPart : (evalEntries missing fields context []).Mirrors
      (FailsFirst missing context (fields.map Prod.snd)) :=
    mirrors_evalEntries (fun field member => part field.2 (Or.inr ⟨field, member, rfl⟩)) []
  unfold evalBody
  rw [parts, List.append_assoc]
  refine (keyPart.mono fun _ _ _ _ failure => ?_).bind fun _ keyFine => ?_
  · exact failure.append_right _
  refine (indexPart.mono fun _ _ _ _ failure => ?_).bind fun _ indexFine => ?_
  · exact (failure.append_right _).append_left (fine keyFine)
  refine (fieldPart.mono fun _ _ _ _ failure => ?_).bind fun _ _ => Eval.mirrors_pure _
  exact (failure.append_left (fine indexFine)).append_left (fine keyFine)

/-- Collect the outcomes of a repeating rule, and report it. -/
def gather (source : Path) (keyed : Bool) (outcomes : List Outcome) : Eval (Option Json) := do
  Logged.emit (.collecting outcomes.length source keyed)
  let value ← if keyed then Outcome.toObject outcomes else Outcome.toArray outcomes
  return some value

theorem eval_each (source : Path) (key index : Option Rule) (fields : List (String × Rule))
    (context : Context) :
    eval missing (.each source key index fields) context =
      source.items context.root context.env >>= fun items =>
        (items.mapM fun item => evalBody missing key index fields (context.enter item)) >>=
          gather source key.isSome := by
  rw [eval]
  rfl

theorem openAfter_gather (source : Path) (keyed : Bool) (outcomes : List Outcome)
    (opened : List (Path × Nat)) :
    openAfter ((source, outcomes.length) :: opened) (gather source keyed outcomes).log =
      some opened := by
  have log : (gather source keyed outcomes).log = .collecting outcomes.length source keyed ::
      if keyed then (Outcome.toObject outcomes).log else (Outcome.toArray outcomes).log := by
    cases keyed with
    | true => exact congrArg _ (List.append_nil _)
    | false => exact congrArg _ (List.append_nil _)
  have quiet : Quiet
      (if keyed then (Outcome.toObject outcomes).log else (Outcome.toArray outcomes).log) := by
    cases keyed with
    | true => exact Outcome.quiet_toObject outcomes
    | false => exact Outcome.quiet_toArray outcomes
  rw [log, openAfter_cons, Event.openAfter_collecting, Option.bind_some, openAfter_of_quiet quiet]

theorem failure?_gather (source : Path) (keyed : Bool) (outcomes : List Outcome) :
    failure? (gather source keyed outcomes).result = none := by
  cases keyed with
  | true => rfl
  | false => rfl

/-- The records of a repeating rule enclose those of its items. -/
theorem mirrors_eval_each {source : Path} {key index : Option Rule}
    {fields : List (String × Rule)} {context : Context}
    (part : ∀ rule ∈ (each source key index fields).parts, ∀ context,
      (eval missing rule context).Mirrors (rule.FailsAt missing context)) :
    (eval missing (.each source key index fields) context).Mirrors
      ((each source key index fields).FailsAt missing context) := by
  let body (item : Item) : Eval Outcome := evalBody missing key index fields (context.enter item)
  let rest (items : List Item) : Eval (Option Json) :=
    items.mapM body >>= gather source key.isSome
  have opens := source.openAfter_items context.root context.env
  have whole : eval missing (.each source key index fields) context =
      source.items context.root context.env >>= rest := eval_each source key index fields context
  rw [whole]
  cases listed : (source.items context.root context.env).result with
  | error error =>
    refine Eval.mirrors_of_error (Eval.result_bind_of_error listed)
      ⟨[], source, .listing listed, fun opened => ?_⟩
    rw [Eval.log_bind_of_error listed, opens, listed]
    rfl
  | ok items =>
    have within : ∀ opened, openAfter opened (Eval.log
        (source.items context.root context.env >>= rest)) =
          openAfter ((source, items.length) :: opened) (rest items).log := by
      intro opened
      rw [Eval.log_bind_of_ok listed, openAfter_append, opens, listed, Option.bind_some]
    have inside : (items.mapM body).Mirrors _ := Eval.mirrors_mapM (fun item =>
      mirrors_evalBody fun rule member => part rule member (context.enter item)) items
    cases evaluated : (items.mapM body).result with
    | error error =>
      refine Eval.mirrors_of_error ((Eval.result_bind_of_ok listed).trans
        (Eval.result_bind_of_error evaluated)) ?_
      obtain ⟨around, path, ⟨item, first, rule, found, failure⟩, left⟩ :=
        inside.broken error evaluated
      simp only [isSome_failure?_evalBody source] at first
      refine ⟨(source, items.length) :: around, path, .item listed first found failure, ?_⟩
      intro opened
      rw [within, Eval.log_bind_of_error evaluated, left, List.reverse_cons, List.append_assoc]
      rfl
    | ok outcomes =>
      have length : items.length = outcomes.length :=
        (forall₂_of_mapM_eq_ok ((Eval.result_mapM body items).symm.trans evaluated)).length_eq
      refine ⟨fun _ _ opened => ?_, fun error fails => ?_⟩
      · rw [within, Eval.log_bind_of_ok evaluated, openAfter_append,
          inside.balanced outcomes evaluated, Option.bind_some, length, openAfter_gather]
      · have fine := failure?_gather source key.isSome outcomes
        rw [Eval.result_bind_of_ok listed, Eval.result_bind_of_ok evaluated] at fails
        rw [fails] at fine
        cases fine

/-- The records of a rule are balanced, or they break off in the repetitions around its failure. -/
theorem mirrors_eval (missing : Missing) (rule : Rule) (context : Context) :
    (eval missing rule context).Mirrors (rule.FailsAt missing context) := by
  induction rule using inductOnParts generalizing context with
  | step rule ih =>
    cases rule with
    | text source =>
      rw [eval]
      exact Eval.mirrors_lift (context.env.quiet_substText source)
    | path source =>
      rw [eval]
      refine Eval.Mirrors.bind (Eval.mirrors_lift (context.current.quiet_follow _)) ?_
      intro value _
      cases value with
      | some value => exact Eval.mirrors_lift (context.env.quiet_subst missing value)
      | none =>
        exact Eval.Mirrors.bind (Eval.mirrors_lift (Logged.quiet_emit rfl))
          fun _ _ => Eval.mirrors_pure none
    | object entries =>
      rw [eval]
      refine Eval.Mirrors.bind ((mirrors_evalEntries (fun entry member =>
        ih entry.2 (List.mem_map_of_mem member) context) []).mono ?_) fun _ _ =>
          Eval.mirrors_pure _
      intro around path error _ failure
      obtain ⟨part, found, failure⟩ := failure
      exact .entry found failure
    | each source key index fields => exact mirrors_eval_each ih

end Rule

/-! ## Transformations -/

namespace Reshaper

variable (reshaper : Reshaper)

theorem mirrors_apply (rules : RuleSet) (input : Json) :
    (reshaper.apply rules input).Mirrors
      ((Rule.object rules.entries).FailsAt reshaper.config.missing (.ofDocument input .empty)) := by
  have entries := Rule.mirrors_evalEntries (fun entry (_ : entry ∈ rules.entries) =>
    Rule.mirrors_eval reshaper.config.missing entry.2 (.ofDocument input .empty)) []
  unfold apply
  refine Eval.Mirrors.bind (entries.mono ?_) fun _ _ => Eval.mirrors_pure _
  intro around path error _ failure
  obtain ⟨part, found, failure⟩ := failure
  exact .entry found failure

/-- For every configuration, input document and rules, the records of a transformation mirror its
evaluation. There are none if the rules cannot be read. If the transformation succeeds, every
listing is closed by a collection of the same path and the same number of items, and they nest. If
evaluation fails, the listings that are still open are, from the outside in, those of the
repetitions around the rule that fails, and the records can be completed to balanced ones. -/
theorem records_of_transform (input rules : Json) :
    let records := (reshaper.transform input rules).log.filter Event.isRecord
    match (reshaper.readRules rules).result with
    | .error error =>
      (reshaper.transform input rules).result = .error error ∧ records = []
    | .ok read =>
      match (reshaper.transform input rules).result with
      | .ok _ => openAfter [] records = some []
      | .error error => ∃ around path count,
        error = .severalVariables path.text count ∧
        (Rule.object read.entries).FailsAt reshaper.config.missing (.ofDocument input .empty)
          around path error ∧
        openAfter [] records = some around.reverse ∧
        ∃ closing, openAfter [] (records ++ closing) = some [] := by
  intro records
  have quiet : Quiet (reshaper.readRules rules).log := RuleSet.quiet_ofJson _ rules
  split
  · next error unread =>
    refine ⟨Eval.result_bind_of_error unread, ?_⟩
    have log : (reshaper.transform input rules).log = (reshaper.readRules rules).log :=
      Eval.log_bind_of_error unread
    refine List.filter_eq_nil_iff.mpr fun event member => ?_
    rw [quiet event (log ▸ member)]
    exact Bool.false_ne_true
  · next read fine =>
    have result : (reshaper.transform input rules).result = (reshaper.apply read input).result :=
      Eval.result_bind_of_ok fine
    have left : openAfter [] records = openAfter [] (reshaper.apply read input).log := by
      have log : (reshaper.transform input rules).log =
          (reshaper.readRules rules).log ++ (reshaper.apply read input).log :=
        Eval.log_bind_of_ok fine
      rw [openAfter_filter_isRecord, log, openAfter_append, openAfter_of_quiet quiet,
        Option.bind_some]
    obtain ⟨balanced, broken⟩ := reshaper.mirrors_apply read input
    split
    · next value succeeds => exact left.trans (balanced value (result.symm.trans succeeds) [])
    · next error fails =>
      obtain ⟨around, path, failure, opened⟩ := broken error (result.symm.trans fails)
      obtain ⟨count, same⟩ := failure.error_eq
      have opened : openAfter [] records = some around.reverse := by
        rw [left, opened, List.append_nil]
      refine ⟨around, path, count, same, failure, opened,
        around.reverse.map fun listing => .collecting listing.2 listing.1 false, ?_⟩
      rw [openAfter_append, opened, Option.bind_some, openAfter_closing]

-- the repetition over "a" is over when the cells of "b" cannot be listed
example :
    let group (name : String) (rest : List (String × Json)) : String × Json :=
      (name, .object (("$each", .string ("$." ++ name)) :: rest))
    let run := (default : Reshaper).transform
      (.object [("a", .array [.null, .null]), ("b", .array [.null])])
      (.object [group "a" [("$key", .string "x")],
        group "b" [("c", .object [("$each", .string "$.:row.:cell")])]])
    run.log.filter Event.isRecord = [.listed ⟨[.key "a"]⟩ 2, .collecting 2 ⟨[.key "a"]⟩ true,
        .listed ⟨[.key "b"]⟩ 1] ∧
      run.result = .error (.severalVariables "$.:row.:cell" 2) := by decide +kernel

end Reshaper

end Reshape
