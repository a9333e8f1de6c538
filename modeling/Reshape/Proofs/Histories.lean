import Mathlib.Data.List.Induction
import Reshape.Proofs.Routes

/-!
# Histories of sessions

What a session answers can be read off the calls before. The settings are those of the last calls
that set them, each setting for itself. The program that is run is the one that was made last, and
it was made under the settings that stood when it was made: later changes of settings, calls that
failed and documents transformed by other rules leave no trace in what it answers.

* `Session.config_after` and `Session.program_after`: settings and program after a history of
  calls, by the last call that matters.
* `Session.answer_run_of_history`: what a call that runs the kept program is answered.
-/

namespace Reshape

namespace Session

/-! ## Calls one after another -/

/-- Calls are answered in parts, the second part in the session that the first one leaves. -/
theorem answerAll_append (session : Session) (first second : List Call) :
    session.answerAll (first ++ second) =
      ((session.answerAll first).1 ++ ((session.answerAll first).2.answerAll second).1,
        ((session.answerAll first).2.answerAll second).2) := by
  induction first generalizing session with
  | nil => rfl
  | cons call rest ih =>
    rw [List.cons_append, answerAll, answerAll]
    dsimp only
    rw [ih]
    rfl

theorem length_answerAll (session : Session) (calls : List Call) :
    (session.answerAll calls).1.length = calls.length := by
  induction calls generalizing session with
  | nil => rfl
  | cons call rest ih => exact congrArg Nat.succ (ih _)

/-- The answer to a call is found at the place of the call. -/
theorem getElem?_answerAll (session : Session) (before : List Call) (call : Call)
    (later : List Call) :
    (session.answerAll (before ++ call :: later)).1[before.length]? =
      some ((session.answerAll before).2.answer call).1 := by
  rw [answerAll_append, ← length_answerAll session before,
    List.getElem?_append_right (Nat.le_refl _), Nat.sub_self]
  rfl

/-- The session that a history of calls leaves. -/
def after (history : List Call) : Session := (answerAll {} history).2

theorem after_concat (history : List Call) (call : Call) :
    after (history ++ [call]) = ((after history).answer call).2 := by
  unfold after
  rw [answerAll_append]
  rfl

/-! ## Settings -/

namespace Call

/-- The configuration that a call puts in place of all settings. -/
def base? : Call → Option Config
  | .reset => some {}
  | .setConfig config => some config
  | _ => none

/-- The value that a call sets for missing values alone. -/
def missing? : Call → Option Missing
  | .setMissing missing => some missing
  | _ => none

/-- The value that a call sets for the depth alone. -/
def maxDepth? : Call → Option Nat
  | .setMaxDepth depth => some depth
  | _ => none

end Call

/-- The settings by a history of calls: for each of them the last value set since all settings were
last replaced, or else the value that they were replaced by. -/
def configOf (history : List Call) : Config :=
  let lastFirst := history.reverse
  let base := (lastFirst.findSome? Call.base?).getD {}
  let later := lastFirst.takeWhile fun call => call.base?.isNone
  { missing := (later.findSome? Call.missing?).getD base.missing
    maxDepth := (later.findSome? Call.maxDepth?).getD base.maxDepth }

/-- What a call makes of settings. -/
def Call.settle (call : Call) (config : Config) : Config :=
  call.base?.getD
    { missing := call.missing?.getD config.missing
      maxDepth := call.maxDepth?.getD config.maxDepth }

theorem configOf_concat (history : List Call) (call : Call) :
    configOf (history ++ [call]) = call.settle (configOf history) := by
  unfold configOf Call.settle
  rw [List.reverse_concat]
  dsimp only
  rw [List.findSome?_cons, List.takeWhile_cons]
  cases call.base? with
  | some config => rfl
  | none =>
    rw [Option.isNone_none, if_pos rfl, List.findSome?_cons, List.findSome?_cons]
    cases call.missing? with
    | none =>
      cases call.maxDepth? with
      | none => rfl
      | some depth => rfl
    | some missing =>
      cases call.maxDepth? with
      | none => rfl
      | some depth => rfl

/-! ## Single calls -/

/-- What a call does: it keeps a program that it made, or it changes settings, or it leaves the
session as it was. -/
theorem answer_cases (session : Session) (call : Call) :
    (∃ rules program, call = .keep rules ∧
      (session.config.program rules).result = .ok program ∧
      session.answer call = (.ok (.kept program), { session with program := some program })) ∨
    session.answer call = session.configure (call.settle session.config) ∨
    call.settle session.config = session.config ∧ (session.answer call).2 = session := by
  cases call with
  | reset => exact Or.inr (Or.inl rfl)
  | setMissing missing => exact Or.inr (Or.inl rfl)
  | setMaxDepth depth => exact Or.inr (Or.inl rfl)
  | setConfig config => exact Or.inr (Or.inl rfl)
  | build => exact Or.inr (Or.inr ⟨rfl, rfl⟩)
  | keep rules =>
    unfold answer
    dsimp only
    cases made : (session.config.program rules).result with
    | ok program => exact Or.inl ⟨rules, program, rfl, made, rfl⟩
    | error error => exact Or.inr (Or.inr ⟨rfl, rfl⟩)
  | run input =>
    refine Or.inr (Or.inr ⟨rfl, ?_⟩)
    unfold answer
    dsimp only
    split
    · rfl
    · rfl
  | transform input rules => exact Or.inr (Or.inr ⟨rfl, rfl⟩)
  | inspect => exact Or.inr (Or.inr ⟨rfl, rfl⟩)

/-- A call that fails leaves the session as it was. -/
theorem answer_of_error {session : Session} {call : Call} {error : Error}
    (failed : (session.answer call).1 = .error error) : (session.answer call).2 = session := by
  rcases session.answer_cases call with ⟨rules, program, _, _, kept⟩ | changed | ⟨_, same⟩
  · rw [kept] at failed
    cases failed
  · rw [changed] at failed
    cases failed
  · exact same

theorem config_answer (session : Session) (call : Call) :
    (session.answer call).2.config = call.settle session.config := by
  rcases session.answer_cases call with ⟨rules, program, rfl, _, kept⟩ | changed | ⟨settled, same⟩
  · rw [kept]
    rfl
  · rw [changed]
    rfl
  · rw [same, settled]

/-- A call that keeps no program leaves the one that is there. -/
theorem program_answer {session : Session} {call : Call}
    (fails : ∀ rules, call = .keep rules →
      ¬ ∃ program, (session.answer (.keep rules)).1 = .ok (.kept program)) :
    (session.answer call).2.program = session.program := by
  rcases session.answer_cases call with ⟨rules, program, rfl, _, kept⟩ | changed | ⟨_, same⟩
  · exact absurd ⟨program, congrArg Prod.fst kept⟩ (fails rules rfl)
  · rw [changed]
    rfl
  · rw [same]

/-! ## Settings and programs of a history -/

/-- The settings of a session are those that its history sets. -/
theorem config_after (history : List Call) : (after history).config = configOf history := by
  induction history using List.reverseRecOn with
  | nil => rfl
  | append_singleton history call ih =>
    rw [after_concat, config_answer, ih, configOf_concat]

/-- A call behind a history makes a program of rules and keeps it. -/
def Keeps (history : List Call) (rules : Json) : Prop :=
  ∃ program, ((after history).answer (.keep rules)).1 = .ok (.kept program)

/-- No program is made and kept by calls that follow on others. -/
def NoneKept (earlier calls : List Call) : Prop :=
  ∀ before rules rest, calls = before ++ .keep rules :: rest → ¬ Keeps (earlier ++ before) rules

theorem NoneKept.nil (earlier : List Call) : NoneKept earlier [] := by
  intro before rules rest split
  cases before with
  | nil => cases split
  | cons call before => cases split

theorem NoneKept.concat {earlier calls : List Call} (none : NoneKept earlier calls) {call : Call}
    (fails : ∀ rules, call = .keep rules → ¬ Keeps (earlier ++ calls) rules) :
    NoneKept earlier (calls ++ [call]) := by
  intro before rules rest split
  rcases List.eq_nil_or_concat rest with rfl | ⟨rest, last, rfl⟩
  · obtain ⟨rfl, same⟩ := List.append_inj' split rfl
    exact fails rules (List.singleton_inj.mp same)
  · have moved : calls ++ [call] = (before ++ .keep rules :: rest) ++ [last] := by
      rw [split, List.concat_eq_append, List.append_assoc]
      rfl
    exact none before rules rest (List.append_inj' moved rfl).1

/-- A call keeps a program exactly if its rules make one under the settings of the session. -/
theorem keeps_iff {history : List Call} {rules : Json} :
    Keeps history rules ↔ ∃ program, ((configOf history).program rules).result = .ok program := by
  unfold Keeps answer
  rw [config_after]
  dsimp only
  cases ((configOf history).program rules).result with
  | ok program => exact ⟨fun _ => ⟨program, rfl⟩, fun _ => ⟨program, rfl⟩⟩
  | error error => exact ⟨nofun, nofun⟩

/-- The program of a session is the one that was kept last, made under the settings that stood
then, and there is none as long as none was kept. -/
theorem program_after (history : List Call) :
    (∃ earlier rules later program, history = earlier ++ .keep rules :: later ∧
      ((configOf earlier).program rules).result = .ok program ∧
      NoneKept (earlier ++ [.keep rules]) later ∧ (after history).program = some program) ∨
    (NoneKept [] history ∧ (after history).program = none) := by
  induction history using List.reverseRecOn with
  | nil => exact Or.inr ⟨.nil [], rfl⟩
  | append_singleton history call ih =>
    rw [after_concat]
    by_cases kept : ∃ rules, call = .keep rules ∧ Keeps history rules
    · obtain ⟨rules, rfl, keeps⟩ := kept
      obtain ⟨program, made⟩ := keeps_iff.mp keeps
      refine Or.inl ⟨history, rules, [], program, rfl, made, .nil _, ?_⟩
      unfold answer
      rw [config_after]
      dsimp only
      rw [made]
    · have fails : ∀ rules, call = .keep rules → ¬ Keeps history rules :=
        fun rules same keeps => kept ⟨rules, same, keeps⟩
      rw [program_answer fails]
      rcases ih with ⟨earlier, rules, later, program, rfl, made, fresh, found⟩ | ⟨fresh, nothing⟩
      · have moved : earlier ++ .keep rules :: later = earlier ++ [.keep rules] ++ later := by simp
        refine Or.inl ⟨earlier, rules, later ++ [call], program, by simp, made, ?_, found⟩
        exact fresh.concat (moved ▸ fails)
      · exact Or.inr ⟨fresh.concat fails, nothing⟩

/-- The answer to a call that runs the kept program. -/
theorem answer_run {session : Session} {program : Program} (found : session.program = some program)
    (input : Json) :
    (session.answer (.run input)).1 = (program.run input).result.map .output := by
  unfold answer
  dsimp only
  rw [found]

/-- Running a program is transforming by a reshaper of the configuration that it was made under. -/
theorem result_run_of_program {config : Config} {rules : Json} {program : Program}
    (made : (config.program rules).result = .ok program) (input : Json) :
    (program.run input).result =
      Reshaper.ofConfig config >>= fun reshaper => (reshaper.transform input rules).result := by
  rw [Config.result_reshaper_transform, ← Config.result_program_run, made]
  rfl

/-- A call that runs the kept program is answered by what the rules of the last call that kept one
come to under the settings of that time, whatever calls came between; without such a call there is
no program. The settings after any history are for each of them the last value set, in whatever
order the two were set, and calls that fail change nothing. -/
theorem answer_run_of_history (before later : List Call) (input : Json) :
    ((∃ earlier rules between, before = earlier ++ .keep rules :: between ∧
        Keeps earlier rules ∧ NoneKept (earlier ++ [.keep rules]) between ∧
        (answerAll {} (before ++ .run input :: later)).1[before.length]? =
          some ((Reshaper.ofConfig (configOf earlier) >>= fun reshaper =>
            (reshaper.transform input rules).result).map .output)) ∨
      NoneKept [] before ∧
        (answerAll {} (before ++ .run input :: later)).1[before.length]? =
          some (.ok (.program none))) ∧
    (∀ history, (after history).config = configOf history) ∧
    (∀ history missing depth rest,
      answerAll {} (history ++ .setMissing missing :: .setMaxDepth depth :: rest) =
        answerAll {} (history ++ .setMaxDepth depth :: .setMissing missing :: rest)) ∧
    ∀ history call error, ((after history).answer call).1 = .error error →
      after (history ++ [call]) = after history := by
  rw [getElem?_answerAll]
  refine ⟨?_, config_after, fun history missing depth rest => ?_,
    fun history call error failed => ?_⟩
  · rcases program_after before with
      ⟨earlier, rules, between, program, split, made, fresh, found⟩ | ⟨fresh, nothing⟩
    · refine Or.inl ⟨earlier, rules, between, split, keeps_iff.mpr ⟨program, made⟩, fresh, ?_⟩
      exact congrArg some ((answer_run found input).trans
        (congrArg (Except.map Answer.output) (result_run_of_program made input)))
    · refine Or.inr ⟨fresh, congrArg some ?_⟩
      change ((after before).answer (.run input)).1 = _
      unfold answer
      dsimp only
      rw [nothing]
  · rw [answerAll_append, answerAll_append]
    rfl
  · rw [after_concat]
    exact answer_of_error failed

/-- A program made where missing values are omitted, run after a return to the default settings and
after a call that failed to make another one. -/
theorem answer_run_of_history_reset :
    let rules : Json := .object [("a", .string "$.a"), ("b", .string "$.b")]
    let input : Json := .object [("b", .ofNat 1)]
    let before : List Call := [.setMissing .omitted, .keep rules, .reset, .keep .null]
    (answerAll {} (before ++ [.run input])).1[4]? =
        some (.ok (.output (.object [("b", .ofNat 1)]))) ∧
      configOf before = {} ∧
      after (before ++ [.setMaxDepth 0] ++ [.build]) = after (before ++ [.setMaxDepth 0]) := by
  intro rules input before
  obtain ⟨answered, settings, _, unchanged⟩ := answer_run_of_history before [] input
  refine ⟨?_, (settings before).symm.trans (by decide +kernel), ?_⟩
  · have keeps : Keeps [.setMissing .omitted] rules := keeps_iff.mpr ⟨_, rfl⟩
    rcases answered with ⟨earlier, kept, between, split, last, _, answer⟩ | ⟨fresh, _⟩
    · -- only two calls try to make a program, and the second of them has no rules to make it of
      change [Call.setMissing .omitted, .keep rules, .reset, .keep .null] = _ at split
      rcases earlier with _ | ⟨first, _ | ⟨second, _ | ⟨third, _ | ⟨fourth, _⟩⟩⟩⟩
      · cases split
      · cases split
        exact answer.trans (by decide +kernel)
      · cases split
      · cases split
        obtain ⟨program, made⟩ := keeps_iff.mp last
        cases made
      · simp at split
    · exact absurd keeps (fresh [.setMissing .omitted] rules [.reset, .keep .null] rfl)
  · exact unchanged _ .build (.badConfig (.outOfRange "max_depth" "1" "4096" "0"))
      (by decide +kernel)

end Session

end Reshape
