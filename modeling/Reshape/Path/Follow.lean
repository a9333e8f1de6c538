import Reshape.Logged

/-!
# Following a path

The value reached so far decides what a token means: every token is a key of an object, a token in
digits is a position of an array, and nothing leads into any other value. A path is followed up to
the first token that leads nowhere, which is reported; then the value is missing.
-/

namespace Reshape

namespace Json

/-- The value one token further. -/
def child? (document : Json) (token : Token) : Option Json :=
  match document with
  | .object entries => Entries.get? entries token.text
  | .array items => token.position?.bind fun position => items[position]?
  | _ => none

/-- The value that tokens lead to. -/
def follow (document : Json) : List Token → Logged (Option Json)
  | [] => pure (some document)
  | token :: rest =>
    match document.child? token with
    | some value => value.follow rest
    | none => do
      Logged.emit (.leadsNowhere token)
      return none

/-- Following two lists of tokens is following one after the other. -/
theorem value_follow_append (document : Json) (first second : List Token) :
    (document.follow (first ++ second)).value =
      (document.follow first).value.bind fun value => (value.follow second).value := by
  induction first generalizing document with
  | nil => rfl
  | cons token rest ih =>
    rw [List.cons_append, follow, follow]
    cases document.child? token with
    | none => rfl
    | some value => exact ih value

end Json

end Reshape
