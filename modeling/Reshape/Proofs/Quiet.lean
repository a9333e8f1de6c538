import Reshape.Proofs.Parts
import Reshape.Reshaper

/-!
# Computations without records

Two kinds of events make up the records of a run: one for each listing of items, and one for each
collection of their outcomes. All other functions keep them out of the log: following paths,
substituting, writing into objects, collecting outcomes and reading rules. `Quiet` says so of a
log; it goes through `bind`, so that each function needs one step for each of its parts.
-/

namespace Reshape

/-- Whether an event tells that items were listed or that their outcomes will be collected. -/
def Event.isRecord : Event → Bool
  | .listed .. | .collecting .. => true
  | _ => false

/-- The log holds no records. -/
def Quiet (log : List Event) : Prop := ∀ event ∈ log, event.isRecord = false

theorem quiet_append_iff {first second : List Event} :
    Quiet (first ++ second) ↔ Quiet first ∧ Quiet second := List.forall_mem_append

/-! ## Steps -/

namespace Logged

variable {α β : Type}

theorem quiet_pure (value : α) : Quiet (pure value : Logged α).log := nofun

theorem quiet_emit {event : Event} (other : event.isRecord = false) : Quiet (emit event).log :=
  List.forall_mem_singleton.mpr other

theorem quiet_bind {first : Logged α} {next : α → Logged β} (quiet : Quiet first.log)
    (later : ∀ value, Quiet (next value).log) : Quiet (first >>= next).log :=
  quiet_append_iff.mpr ⟨quiet, later first.value⟩

theorem quiet_mapM {next : α → Logged β} (quiet : ∀ input, Quiet (next input).log)
    (inputs : List α) : Quiet (inputs.mapM next).log := by
  induction inputs with
  | nil => exact quiet_pure []
  | cons input rest ih =>
    rw [List.mapM_cons]
    exact quiet_bind (quiet input) fun first => quiet_bind ih fun others => quiet_pure _

end Logged

namespace Eval

variable {α β : Type}

theorem quiet_bind {first : Eval α} {next : α → Eval β} (quiet : Quiet first.log)
    (later : ∀ value, Quiet (next value).log) : Quiet (first >>= next).log := by
  rw [log_bind]
  refine quiet_append_iff.mpr ⟨quiet, ?_⟩
  cases first.result with
  | ok value => exact later value
  | error error => exact nofun

theorem quiet_pure (value : α) : Quiet (log (pure value)) := nofun

theorem quiet_throw (error : Error) : Quiet (log (throw error : Eval α)) := nofun

theorem quiet_lift {x : Logged α} (quiet : Quiet x.log) : Quiet (log (liftM x)) := quiet

theorem quiet_ofExcept (x : Except Error α) : Quiet (log (ofExcept x)) := by
  cases x with
  | ok value => exact quiet_pure value
  | error error => exact quiet_throw error

end Eval

/-! ## Paths and substitution -/

theorem Json.quiet_follow (document : Json) (tokens : List Token) :
    Quiet (document.follow tokens).log := by
  induction tokens generalizing document with
  | nil => exact Logged.quiet_pure _
  | cons token rest ih =>
    rw [follow]
    cases document.child? token with
    | some value => exact ih value
    | none => exact Logged.quiet_bind (Logged.quiet_emit rfl) fun _ => Logged.quiet_pure _

theorem Missing.quiet_put (missing : Missing) (written : Entries Json) (key : String)
    (value : Option Json) : Quiet (missing.put written key value).log := by
  unfold put
  split
  · exact Logged.quiet_pure _
  · exact Logged.quiet_bind (Logged.quiet_emit rfl) fun _ => Logged.quiet_pure _

namespace Env

variable (env : Env) (missing : Missing)

theorem quiet_substText (text : String) : Quiet (env.substText text).log := by
  unfold substText read
  split
  · split
    · exact Logged.quiet_pure _
    · exact Logged.quiet_bind (Logged.quiet_emit rfl) fun _ => Logged.quiet_pure _
  · exact Logged.quiet_pure _

theorem quiet_substKey (key : String) : Quiet (env.substKey key).log := by
  unfold substKey
  split
  · split
    · exact Logged.quiet_pure _
    · exact Logged.quiet_bind (Logged.quiet_emit rfl) fun _ => Logged.quiet_pure _
  · exact Logged.quiet_pure _

variable {env missing}

theorem quiet_substItems {items : List Json}
    (parts : ∀ item ∈ items, Quiet (env.subst missing item).log) :
    Quiet (env.substItems missing items).log := by
  induction items with
  | nil => exact Logged.quiet_pure _
  | cons item rest ih =>
    obtain ⟨first, parts⟩ := List.forall_mem_cons.mp parts
    rw [substItems]
    exact Logged.quiet_bind first fun _ =>
      Logged.quiet_bind (ih parts) fun _ => Logged.quiet_pure _

theorem quiet_substEntries {entries : List (String × Json)}
    (parts : ∀ entry ∈ entries, Quiet (env.subst missing entry.2).log) (written : Entries Json) :
    Quiet (env.substEntries missing written entries).log := by
  induction entries generalizing written with
  | nil => exact Logged.quiet_pure _
  | cons entry rest ih =>
    obtain ⟨key, value⟩ := entry
    obtain ⟨first, parts⟩ := List.forall_mem_cons.mp parts
    rw [substEntries]
    refine Logged.quiet_bind (env.quiet_substKey key) fun moved => ?_
    cases moved with
    | none => exact ih parts written
    | some key =>
      exact Logged.quiet_bind first fun value =>
        Logged.quiet_bind (missing.quiet_put written key value) fun written => ih parts written

variable (env missing)

theorem quiet_subst (value : Json) : Quiet (env.subst missing value).log := by
  induction value with
  | null => exact Logged.quiet_pure _
  | bool value => exact Logged.quiet_pure _
  | number value => exact Logged.quiet_pure _
  | string text => exact env.quiet_substText text
  | array items ih =>
    rw [subst]
    exact Logged.quiet_bind (quiet_substItems ih) fun _ => Logged.quiet_pure _
  | object entries ih =>
    rw [subst]
    exact Logged.quiet_bind (quiet_substEntries ih []) fun _ => Logged.quiet_pure _

theorem quiet_substOption (value : Option Json) : Quiet (env.substOption missing value).log := by
  cases value with
  | none => exact Logged.quiet_pure _
  | some value => exact env.quiet_subst missing value

end Env

theorem Path.quiet_itemsAlong (root : Json) (env : Env) (before : List Token) (name : String)
    (after : List Token) : Quiet (itemsAlong root env before name after).log := by
  unfold itemsAlong
  refine Logged.quiet_bind (root.quiet_follow before) fun place => ?_
  refine Logged.quiet_bind (Logged.quiet_mapM (fun candidate => ?_) _) fun _ => Logged.quiet_pure _
  exact Logged.quiet_bind (root.quiet_follow _) fun _ => Logged.quiet_pure _

/-! ## Outcomes -/

namespace Outcome

theorem quiet_putAll (written : Entries Json) (outcomes : List Outcome) :
    Quiet (putAll written outcomes).log := by
  induction outcomes generalizing written with
  | nil => exact Logged.quiet_pure _
  | cons outcome rest ih =>
    rw [putAll]
    split
    · exact ih _
    · exact Logged.quiet_bind (Logged.quiet_emit rfl) fun _ => ih written

theorem quiet_toObject (outcomes : List Outcome) : Quiet (toObject outcomes).log :=
  Logged.quiet_bind (quiet_putAll [] outcomes) fun _ => Logged.quiet_pure _

theorem quiet_place (index : Option Json) (position : Nat) : Quiet (place index position).log := by
  unfold place
  dsimp only
  split
  · exact Logged.quiet_pure _
  · split
    · exact Logged.quiet_pure _
    · exact Logged.quiet_bind (Logged.quiet_emit rfl) fun _ => Logged.quiet_pure _
  · exact Logged.quiet_pure _
  · exact Logged.quiet_pure _
  · exact Logged.quiet_bind (Logged.quiet_emit rfl) fun _ => Logged.quiet_pure _

theorem quiet_placeAll (position : Nat) (outcomes : List Outcome) :
    Quiet (placeAll position outcomes).log := by
  induction outcomes generalizing position with
  | nil => exact Logged.quiet_pure _
  | cons outcome rest ih =>
    rw [placeAll]
    exact Logged.quiet_bind (quiet_place outcome.index position) fun _ =>
      Logged.quiet_bind (ih _) fun _ => Logged.quiet_pure _

theorem quiet_toArray (outcomes : List Outcome) : Quiet (toArray outcomes).log :=
  Logged.quiet_bind (quiet_placeAll 0 outcomes) fun _ => Logged.quiet_pure _

end Outcome

/-! ## Reading rules -/

namespace Rule

variable {limit depth : Nat}

theorem quiet_ofJsonEntries {entries : List (String × Json)}
    (parts : ∀ entry ∈ entries, Quiet (ofJsonAt limit depth entry.2).log) :
    Quiet (ofJsonEntries limit depth entries).log := by
  induction entries with
  | nil => exact Eval.quiet_pure _
  | cons entry rest ih =>
    obtain ⟨key, value⟩ := entry
    obtain ⟨first, parts⟩ := List.forall_mem_cons.mp parts
    rw [ofJsonEntries]
    exact Eval.quiet_bind first fun _ => Eval.quiet_bind (ih parts) fun _ => Eval.quiet_pure _

theorem quiet_ofJsonBody {entries : List (String × Json)}
    (parts : ∀ entry ∈ entries, Quiet (ofJsonAt limit depth entry.2).log) :
    Quiet (ofJsonBody limit depth entries).log := by
  induction entries with
  | nil => exact Eval.quiet_pure _
  | cons entry rest ih =>
    obtain ⟨key, value⟩ := entry
    obtain ⟨first, parts⟩ := List.forall_mem_cons.mp parts
    have read : ∀ build : Rule → Body → Body, Quiet (Eval.log do
        let rule ← ofJsonAt limit depth value
        let body ← ofJsonBody limit depth rest
        return build rule body) := fun build =>
      Eval.quiet_bind first fun _ => Eval.quiet_bind (ih parts) fun _ => Eval.quiet_pure _
    rw [ofJsonBody]
    split
    · exact ih parts
    · split
      · exact read _
      · split
        · exact read _
        · split
          · exact Eval.quiet_bind (Eval.quiet_lift (Logged.quiet_emit rfl)) fun _ => ih parts
          · exact read _

/-- Reading a rule lists and collects nothing. -/
theorem quiet_ofJsonAt (depth : Nat) (value : Json) : Quiet (ofJsonAt limit depth value).log := by
  induction value generalizing depth with
  | string source =>
    rw [ofJsonAt]
    split
    · exact Eval.quiet_throw _
    · split
      · exact Eval.quiet_bind (Eval.quiet_ofExcept _) fun _ => Eval.quiet_pure _
      · exact Eval.quiet_pure _
  | object entries ih =>
    have parts : ∀ entry ∈ entries, Quiet (ofJsonAt limit (depth + 1) entry.2).log :=
      fun entry member => ih entry member (depth + 1)
    rw [ofJsonAt]
    split
    · exact Eval.quiet_throw _
    · split
      · exact Eval.quiet_bind (Eval.quiet_ofExcept _) fun _ =>
          Eval.quiet_bind (quiet_ofJsonBody parts) fun _ => Eval.quiet_pure _
      · exact Eval.quiet_bind (quiet_ofJsonEntries parts) fun _ => Eval.quiet_pure _
  | null => unfold ofJsonAt; split <;> exact Eval.quiet_throw _
  | bool value => unfold ofJsonAt; split <;> exact Eval.quiet_throw _
  | number value => unfold ofJsonAt; split <;> exact Eval.quiet_throw _
  | array items ih => unfold ofJsonAt; split <;> exact Eval.quiet_throw _

end Rule

theorem RuleSet.quiet_ofJson (limit : Nat) (rules : Json) : Quiet (ofJson limit rules).log := by
  unfold ofJson
  split
  · exact Eval.quiet_bind (Rule.quiet_ofJsonEntries fun entry _ => Rule.quiet_ofJsonAt 1 entry.2)
      fun _ => Eval.quiet_pure _
  · exact Eval.quiet_throw _

end Reshape
