import Reshape.Proofs.Dropping
import Reshape.Proofs.Failure
import Reshape.Proofs.Outputs

/-!
# Rule sets in parts

The entries of a rule set do not meet while they are evaluated: an entry is written behind those
before it, and nothing is read from what was written. So a rule set can be cut anywhere, and the
outputs of the parts are put together again. Faults do meet: all entries are read before the first
one is evaluated, so a fault of a later part that is found in reading is reported before one that an
earlier part has in evaluation.

* `Rule.result_evalEntries_append_of_disjoint`: two lists of entries under different keys.
* `Reshaper.ok_transform_append_iff` and `Reshaper.failure?_transform_append`: the outputs and the
  errors of a rule set by those of its parts.
* `Reshaper.perm_of_transform`: rules in another order.
-/

namespace Reshape

/-- A value is written behind entries of other keys. -/
theorem Missing.value_put_append (missing : Missing) {before : Entries Json} {key : String}
    (absent : key ∉ Entries.keys before) (written : Entries Json) (value : Option Json) :
    (missing.put (before ++ written) key value).value =
      before ++ (missing.put written key value).value := by
  cases value with
  | some value => exact Entries.insert_append_of_notMem absent written value
  | none =>
    cases missing with
    | asNull => exact Entries.insert_append_of_notMem absent written .null
    | omitted => rfl

namespace Rule

variable {missing : Missing} {context : Context} {limit depth : Nat}

/-- Entries are read one part after the other. -/
theorem result_ofJsonEntries_append (first second : List (String × Json)) :
    Eval.result (ofJsonEntries limit depth (first ++ second)) = do
      let rules ← (ofJsonEntries limit depth first).result
      let others ← (ofJsonEntries limit depth second).result
      return rules ++ others := by
  induction first with
  | nil =>
    rw [result_ofJsonEntries_nil]
    exact (bind_pure _).symm
  | cons entry rest ih =>
    obtain ⟨key, value⟩ := entry
    rw [List.cons_append, result_ofJsonEntries_cons, result_ofJsonEntries_cons, ih]
    simp only [bind_assoc, pure_bind, List.cons_append]

/-- Entries are evaluated one part after the other. -/
theorem result_evalEntries_append (first second : List (String × Rule)) (written : Entries Json) :
    Eval.result (evalEntries missing (first ++ second) context written) =
      (evalEntries missing first context written).result >>= fun fields =>
        (evalEntries missing second context fields).result := by
  induction first generalizing written with
  | nil =>
    rw [result_evalEntries_nil]
    rfl
  | cons entry rest ih =>
    obtain ⟨key, rule⟩ := entry
    rw [List.cons_append, result_evalEntries_cons, result_evalEntries_cons, bind_assoc]
    exact bind_congr fun value => ih _

/-- Entries in front, under other keys, are carried along. -/
theorem result_evalEntries_behind {rules : List (String × Rule)} {before : Entries Json}
    (apart : ∀ key ∈ Entries.keys rules, key ∉ Entries.keys before) (written : Entries Json) :
    Eval.result (evalEntries missing rules context (before ++ written)) =
      (evalEntries missing rules context written).result >>= fun fields =>
        .ok (before ++ fields) := by
  induction rules generalizing written with
  | nil =>
    rw [result_evalEntries_nil, result_evalEntries_nil]
    rfl
  | cons entry rest ih =>
    obtain ⟨key, rule⟩ := entry
    obtain ⟨absent, apart⟩ := List.forall_mem_cons.mp apart
    rw [result_evalEntries_cons, result_evalEntries_cons, bind_assoc]
    refine bind_congr fun value => ?_
    rw [missing.value_put_append absent]
    exact ih apart _

/-- Entries under different keys are evaluated in parts, which are written one behind the other. -/
theorem result_evalEntries_append_of_disjoint {first second : List (String × Rule)}
    (distinct : (Entries.keys first ++ Entries.keys second).Nodup) :
    Eval.result (evalEntries missing (first ++ second) context []) = do
      let fields ← (evalEntries missing first context []).result
      let others ← (evalEntries missing second context []).result
      return fields ++ others := by
  obtain ⟨firstDistinct, _, disjoint⟩ := List.nodup_append.mp distinct
  have fromNothing : (Entries.keys ([] : Entries Json) ++ Entries.keys first).Nodup := firstDistinct
  rw [result_evalEntries_append]
  cases evaluated : Eval.result (evalEntries missing first context []) with
  | error error => rfl
  | ok fields =>
    obtain ⟨kept, keys, sublist, _⟩ := keys_of_evalEntries fromNothing evaluated
    have apart : ∀ key ∈ Entries.keys second, key ∉ Entries.keys fields := by
      intro key member written
      rw [keys] at written
      exact disjoint key (sublist.mem written) key member rfl
    have behind : Eval.result (evalEntries missing second context (fields ++ [])) = _ :=
      result_evalEntries_behind apart []
    rw [List.append_nil] at behind
    exact behind

end Rule

namespace Reshaper

variable (reshaper : Reshaper) (input : Json) {first second : List (String × Json)}

/-- Rule sets are read one part after the other. -/
theorem result_readRules_append (first second : List (String × Json)) :
    Eval.result (reshaper.readRules (.object (first ++ second))) = do
      let rules ← (reshaper.readRules (.object first)).result
      let others ← (reshaper.readRules (.object second)).result
      return ⟨rules.entries ++ others.entries⟩ := by
  unfold readRules
  rw [Rule.result_ofJson_ruleSet, Rule.result_ofJson_ruleSet, Rule.result_ofJson_ruleSet,
    Rule.result_ofJsonEntries_append]
  simp only [bind_assoc, pure_bind]

variable {reshaper} in
theorem keys_of_readRules {entries : List (String × Json)} {rules : RuleSet}
    (read : Eval.result (reshaper.readRules (.object entries)) = .ok rules) :
    Entries.keys rules.entries = Entries.keys entries := by
  unfold readRules at read
  rw [Rule.result_ofJson_ruleSet] at read
  obtain ⟨rules, inner, same⟩ := of_bind_eq_ok read
  obtain rfl := Except.ok.inj same
  exact Rule.keys_of_entryOf (Rule.entryOf_of_ofJsonEntries inner)

/-- The entries that rules write for a document. -/
def entriesOf (rules : RuleSet) : Except Error (Entries Json) :=
  (Rule.evalEntries reshaper.config.missing rules.entries (.ofDocument input .empty) []).result

theorem result_apply_eq (rules : RuleSet) :
    Eval.result (reshaper.apply rules input) =
      reshaper.entriesOf input rules >>= fun fields => .ok (.object fields) :=
  reshaper.result_apply rules input

/-- All parts of a rule set are read before the first one is applied. -/
theorem result_transform_append (distinct : (Entries.keys (first ++ second)).Nodup) :
    Eval.result (reshaper.transform input (.object (first ++ second))) = do
      let rules ← (reshaper.readRules (.object first)).result
      let others ← (reshaper.readRules (.object second)).result
      let fields ← reshaper.entriesOf input rules
      let more ← reshaper.entriesOf input others
      return .object (fields ++ more) := by
  rw [result_transform, result_readRules_append]
  cases read : Eval.result (reshaper.readRules (.object first)) with
  | error error => rfl
  | ok rules =>
    cases readSecond : Eval.result (reshaper.readRules (.object second)) with
    | error error => rfl
    | ok others =>
      have apart : (Entries.keys rules.entries ++ Entries.keys others.entries).Nodup := by
        rw [keys_of_readRules read, keys_of_readRules readSecond, ← Entries.keys_append]
        exact distinct
      change Eval.result (reshaper.apply ⟨rules.entries ++ others.entries⟩ input) = _
      rw [result_apply, Rule.result_evalEntries_append_of_disjoint apart, bind_assoc]
      refine bind_congr fun fields => ?_
      rw [bind_assoc]
      rfl

variable {reshaper input}

theorem transform_eq_ok_iff {entries : List (String × Json)} {output : Json} :
    Eval.result (reshaper.transform input (.object entries)) = .ok output ↔
      ∃ rules fields, Eval.result (reshaper.readRules (.object entries)) = .ok rules ∧
        reshaper.entriesOf input rules = .ok fields ∧ output = .object fields := by
  rw [result_transform]
  constructor
  · intro transformed
    obtain ⟨rules, read, applied⟩ := of_bind_eq_ok transformed
    rw [result_apply_eq] at applied
    obtain ⟨fields, written, same⟩ := of_bind_eq_ok applied
    exact ⟨rules, fields, read, written, (Except.ok.inj same).symm⟩
  · rintro ⟨rules, fields, read, written, rfl⟩
    rw [read]
    change Eval.result (reshaper.apply rules input) = _
    rw [result_apply_eq, written]
    rfl

/-- A rule set succeeds exactly if both parts do, and then its output is that of the first part
followed by that of the second. -/
theorem ok_transform_append_iff (distinct : (Entries.keys (first ++ second)).Nodup)
    {output : Json} :
    Eval.result (reshaper.transform input (.object (first ++ second))) = .ok output ↔
      ∃ fields more, Eval.result (reshaper.transform input (.object first)) = .ok (.object fields) ∧
        Eval.result (reshaper.transform input (.object second)) = .ok (.object more) ∧
        output = .object (fields ++ more) := by
  rw [result_transform_append reshaper input distinct]
  constructor
  · intro transformed
    obtain ⟨rules, read, transformed⟩ := of_bind_eq_ok transformed
    obtain ⟨others, readSecond, transformed⟩ := of_bind_eq_ok transformed
    obtain ⟨fields, written, transformed⟩ := of_bind_eq_ok transformed
    obtain ⟨more, writtenSecond, same⟩ := of_bind_eq_ok transformed
    exact ⟨fields, more, transform_eq_ok_iff.mpr ⟨rules, fields, read, written, rfl⟩,
      transform_eq_ok_iff.mpr ⟨others, more, readSecond, writtenSecond, rfl⟩,
      (Except.ok.inj same).symm⟩
  · rintro ⟨fields, more, transformed, transformedSecond, rfl⟩
    obtain ⟨rules, _, read, written, ⟨rfl⟩⟩ := transform_eq_ok_iff.mp transformed
    obtain ⟨others, _, readSecond, writtenSecond, ⟨rfl⟩⟩ :=
      transform_eq_ok_iff.mp transformedSecond
    rw [read, readSecond]
    change (reshaper.entriesOf input rules >>= fun fields => reshaper.entriesOf input others >>=
      fun more => Except.ok (Json.object (fields ++ more))) = _
    rw [written, writtenSecond]
    rfl

/-- The error of a rule set: faults of the rules of both parts come before errors of evaluation,
and those of the first part before those of the second. -/
theorem failure?_transform_append (distinct : (Entries.keys (first ++ second)).Nodup) :
    failure? (reshaper.transform input (.object (first ++ second))).result =
      ((failure? (reshaper.readRules (.object first)).result).or
        (failure? (reshaper.readRules (.object second)).result)).or
      ((failure? (reshaper.transform input (.object first)).result).or
        (failure? (reshaper.transform input (.object second)).result)) := by
  rw [result_transform_append reshaper input distinct, result_transform, result_transform]
  cases read : Eval.result (reshaper.readRules (.object first)) with
  | error error => rfl
  | ok rules =>
    cases readSecond : Eval.result (reshaper.readRules (.object second)) with
    | error error => rfl
    | ok others =>
      have applied : ∀ rules, failure? (reshaper.apply rules input).result =
          failure? (reshaper.entriesOf input rules) := by
        intro rules
        rw [result_apply_eq, failure?_bind_of_ok fun fields => rfl]
      change failure? (reshaper.entriesOf input rules >>= fun fields =>
        reshaper.entriesOf input others >>= fun more => Except.ok (Json.object (fields ++ more))) =
          (failure? (reshaper.apply rules input).result).or
            (failure? (reshaper.apply others input).result)
      rw [applied, applied]
      exact failure?_bind fun fields => failure?_bind_of_ok fun more => rfl

/-- The first entry of a rule set is a part of its own. -/
theorem ok_transform_cons_iff {entry : String × Json} {rest : List (String × Json)}
    (distinct : (Entries.keys (entry :: rest)).Nodup) {output : Json} :
    Eval.result (reshaper.transform input (.object (entry :: rest))) = .ok output ↔
      ∃ own more, Eval.result (reshaper.transform input (.object [entry])) = .ok (.object own) ∧
        Eval.result (reshaper.transform input (.object rest)) = .ok (.object more) ∧
        output = .object (own ++ more) := by
  have split : entry :: rest = [entry] ++ rest := rfl
  rw [split] at distinct ⊢
  exact ok_transform_append_iff distinct

/-- Rules in another order have the same entries in their outputs. -/
theorem perm_of_transform {entries reordered : List (String × Json)}
    (perm : reordered.Perm entries) (distinct : (Entries.keys entries).Nodup)
    {fields : Entries Json}
    (transformed : Eval.result (reshaper.transform input (.object entries)) =
      .ok (.object fields)) :
    ∃ moved, Eval.result (reshaper.transform input (.object reordered)) = .ok (.object moved) ∧
      moved.Perm fields := by
  have keys_nodup : ∀ {entries others : List (String × Json)}, others.Perm entries →
      (Entries.keys entries).Nodup → (Entries.keys others).Nodup :=
    fun perm distinct => (perm.map Prod.fst).nodup_iff.mpr distinct
  induction perm generalizing fields with
  | nil => exact ⟨fields, transformed, .refl _⟩
  | @cons entry before after perm ih =>
    obtain ⟨own, others, ownOk, othersOk, ⟨rfl⟩⟩ := (ok_transform_cons_iff distinct).mp transformed
    obtain ⟨moved, movedOk, same⟩ := ih (List.nodup_cons.mp distinct).2 othersOk
    have whole := (ok_transform_cons_iff (keys_nodup (perm.cons entry) distinct)).mpr
      ⟨own, moved, ownOk, movedOk, rfl⟩
    exact ⟨own ++ moved, whole, same.append_left own⟩
  | @swap one other rest =>
    have swapped : (Entries.keys (other :: one :: rest)).Nodup :=
      keys_nodup (.swap one other rest) distinct
    obtain ⟨ones, _, onesOk, laterOk, ⟨rfl⟩⟩ := (ok_transform_cons_iff distinct).mp transformed
    obtain ⟨others, more, othersOk, moreOk, ⟨rfl⟩⟩ :=
      (ok_transform_cons_iff (List.nodup_cons.mp distinct).2).mp laterOk
    have later := (ok_transform_cons_iff (List.nodup_cons.mp swapped).2).mpr
      ⟨ones, more, onesOk, moreOk, rfl⟩
    have whole := (ok_transform_cons_iff swapped).mpr ⟨others, ones ++ more, othersOk, later, rfl⟩
    refine ⟨others ++ (ones ++ more), whole, ?_⟩
    rw [← List.append_assoc, ← List.append_assoc]
    exact List.perm_append_comm.append_right more
  | trans _ later ih ihLater =>
    obtain ⟨middle, middleOk, same⟩ := ihLater distinct transformed
    obtain ⟨moved, movedOk, same'⟩ := ih (keys_nodup later distinct) middleOk
    exact ⟨moved, movedOk, same'.trans same⟩

/-- The keys of an output are keys of the rules, in order. -/
theorem keys_sublist_of_transform {entries : List (String × Json)} {fields : Entries Json}
    (distinct : (Entries.keys entries).Nodup)
    (transformed : Eval.result (reshaper.transform input (.object entries)) =
      .ok (.object fields)) : (Entries.keys fields).Sublist (Entries.keys entries) := by
  obtain ⟨rules, _, read, written, ⟨rfl⟩⟩ := transform_eq_ok_iff.mp transformed
  have fromNothing : (Entries.keys ([] : Entries Json) ++ Entries.keys rules.entries).Nodup := by
    rw [keys_of_readRules read]
    exact distinct
  obtain ⟨kept, keys, sublist, _⟩ := Rule.keys_of_evalEntries fromNothing written
  rw [keys, ← keys_of_readRules read]
  exact sublist

/-- A rule set is evaluated entry by entry. It succeeds exactly if both of its parts do, and its
output is that of the first part followed by that of the second. Where it fails, faults of the rules
come before errors of evaluation, and among these the first part before the second. In another order
the rules write the same entries, in that order. -/
theorem transform_append (reshaper : Reshaper) (input : Json) {first second : List (String × Json)}
    (distinct : (Entries.keys (first ++ second)).Nodup) :
    (∀ output, Eval.result (reshaper.transform input (.object (first ++ second))) = .ok output ↔
      ∃ fields more, Eval.result (reshaper.transform input (.object first)) = .ok (.object fields) ∧
        Eval.result (reshaper.transform input (.object second)) = .ok (.object more) ∧
        output = .object (fields ++ more)) ∧
    failure? (reshaper.transform input (.object (first ++ second))).result =
      ((failure? (reshaper.readRules (.object first)).result).or
        (failure? (reshaper.readRules (.object second)).result)).or
      ((failure? (reshaper.transform input (.object first)).result).or
        (failure? (reshaper.transform input (.object second)).result)) ∧
    ∀ reordered, reordered.Perm (first ++ second) → ∀ fields,
      Eval.result (reshaper.transform input (.object (first ++ second))) = .ok (.object fields) →
      ∃ moved, Eval.result (reshaper.transform input (.object reordered)) = .ok (.object moved) ∧
        moved.Perm fields ∧ (Entries.keys moved).Sublist (Entries.keys reordered) := by
  refine ⟨fun output => ok_transform_append_iff distinct, failure?_transform_append distinct, ?_⟩
  intro reordered perm fields transformed
  obtain ⟨moved, movedOk, same⟩ := perm_of_transform perm distinct transformed
  have reorderedDistinct : (Entries.keys reordered).Nodup :=
    (perm.map Prod.fst).nodup_iff.mpr distinct
  exact ⟨moved, movedOk, same, keys_sublist_of_transform reorderedDistinct movedOk⟩

/-- Two rule sets with an output each, in both orders; and two faulty ones, of which the second is
reported because its fault is found in reading. -/
theorem transform_append_rows :
    let input : Json := .object [("a", .ofNat 1), ("r", .object [("k", .null)])]
    let first : List (String × Json) := [("a", .string "$.a"), ("none", .string "$.none")]
    let second : List (String × Json) :=
      [("rows", .object [("$each", .string "$.r.:k"), ("name", .string ":k")])]
    let fields : Entries Json := [("a", .ofNat 1), ("none", .null)]
    let more : Entries Json := [("rows", .array [.object [("name", .string "k")]])]
    let several : List (String × Json) := [("x", .object [("$each", .string "$.:a.:b")])]
    let number : List (String × Json) := [("y", .ofNat 1)]
    (Entries.keys (first ++ second)).Nodup ∧
      Eval.result ((default : Reshaper).transform input (.object (first ++ second))) =
        .ok (.object (fields ++ more)) ∧
      (∃ moved, Eval.result ((default : Reshaper).transform input (.object (second ++ first))) =
          .ok (.object moved) ∧
        moved.Perm (fields ++ more) ∧
        (Entries.keys moved).Sublist (Entries.keys (second ++ first))) ∧
      failure? ((default : Reshaper).transform input (.object (several ++ number))).result =
        some (.notARule .number) := by
  intro input first second fields more several number
  have distinct : (Entries.keys (first ++ second)).Nodup := by decide
  obtain ⟨succeeds, _, reorders⟩ := transform_append default input distinct
  have whole : Eval.result ((default : Reshaper).transform input (.object (first ++ second))) =
      .ok (.object (fields ++ more)) :=
    (succeeds _).mpr ⟨fields, more, by decide +kernel, by decide +kernel, rfl⟩
  obtain ⟨_, fails, _⟩ := transform_append default input
    (by decide : (Entries.keys (several ++ number)).Nodup)
  refine ⟨distinct, whole, reorders _ List.perm_append_comm _ whole, ?_⟩
  rw [fails]
  decide +kernel

end Reshaper

end Reshape
