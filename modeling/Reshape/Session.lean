import Reshape.Program

/-!
# Sessions

A session is a configuration in use: settings are changed, programs are made and kept, and documents
are transformed, in any order. A program that is kept remembers the configuration under which it was
made. A call that fails is answered by its error and leaves the session as it was.
-/

namespace Reshape

/-- The current settings, and the program that was made last. -/
structure Session where
  config : Config := {}
  program : Option Program := none
deriving DecidableEq

namespace Session

/-- What can be asked of a session. -/
inductive Call where
  /-- Return to the default settings. -/
  | reset
  /-- Set what happens to missing values. -/
  | setMissing (missing : Missing)
  /-- Set how deep rules may be nested. -/
  | setMaxDepth (depth : Nat)
  /-- Replace all settings. -/
  | setConfig (config : Config)
  /-- Make a reshaper. -/
  | build
  /-- Make a program and keep it. -/
  | keep (rules : Json)
  /-- Run the program that is kept. -/
  | run (input : Json)
  /-- Make a program and run it, without keeping it. -/
  | transform (input rules : Json)
  /-- Show the program that is kept. -/
  | inspect
deriving DecidableEq

/-- How a call is answered. -/
inductive Answer where
  | done
  | built (reshaper : Reshaper)
  | kept (program : Program)
  | output (document : Json)
  | program (program : Option Program)
deriving DecidableEq

/-- Change the settings. -/
def configure (session : Session) (config : Config) : Except Error Answer × Session :=
  (.ok .done, { session with config })

/-- Answer a call. -/
def answer (session : Session) : Call → Except Error Answer × Session
  | .reset => session.configure {}
  | .setMissing missing => session.configure { session.config with missing }
  | .setMaxDepth depth => session.configure { session.config with maxDepth := depth }
  | .setConfig config => session.configure config
  | .build => ((Reshaper.ofConfig session.config).map .built, session)
  | .keep rules =>
    match (session.config.program rules).result with
    | .ok program => (.ok (.kept program), { session with program := some program })
    | .error error => (.error error, session)
  | .run input =>
    match session.program with
    | some program => ((program.run input).result.map .output, session)
    | none => (.ok (.program none), session)
  | .transform input rules => ((session.config.transform input rules).result.map .output, session)
  | .inspect => (.ok (.program session.program), session)

/-- Answer calls one after another. -/
def answerAll (session : Session) : List Call → List (Except Error Answer) × Session
  | [] => ([], session)
  | call :: rest =>
    let (first, session) := session.answer call
    let (others, session) := answerAll session rest
    (first :: others, session)

end Session

end Reshape
