import BeamJS.Core.Sessions

/-!
# The REPL

`BeamjsCli.Repl`, which evaluates the inputs in one context until it is told to clear it, and the
sessions of a virtual machine, of which a REPL is one.
-/

namespace BeamJS

open Lib

variable {W : Type}

/-- The terminal, and the functions of Elixir that the REPL uses. -/
structure Terminal (W : Type) where
  /-- The standard output. -/
  stdout : Bytes → W → W
  stderr : Bytes → W → W
  /-- `String.trim`. -/
  trim : Bytes → Bytes
  /-- String interpolation. -/
  interpolate : Term → Except Term Bytes
  /-- `inspect`. -/
  inspect : Term → Bytes
  /-- `System.otp_release()`. -/
  otpRelease : Bytes

/-- What `IO.gets` returns. -/
inductive ReplInput where
  | eof
  | error
  | line (text : Bytes)

namespace Repl

/-! ## `inspect_js` -/

section Inspect

variable (interpolate : Term → Except Term Bytes) (inspect : Term → Bytes)

mutual

/-- `inspect_js`. -/
def inspectJs : Term → Except Term Bytes
  | .binary b => .ok (bytes "\"" ++ b ++ bytes "\"")
  | .int n => interpolate (.int n)
  | .float d => interpolate (.float d)
  | .atom name =>
    if name = "true" then .ok (bytes "true") else if name = "false" then .ok (bytes "false")
    else if name = "nil" then .ok (bytes "null")
    else if name = "undefined" then .ok (bytes "undefined")
    else .ok (inspect (.atom name))
  | .list elems => do
    let items ← inspectItems elems
    return bytes "[" ++ (bytes ", ").intercalate items ++ bytes "]"
  | .map entries => do
    let items ← inspectEntries entries
    return bytes "\x7b " ++ (bytes ", ").intercalate items ++ bytes " \x7d"
  | t => .ok (inspect t)

/-- `Enum.map(value, &inspect_js/1)`. -/
def inspectItems : List Term → Except Term (List Bytes)
  | [] => .ok []
  | t :: ts => do
    let item ← inspectJs t
    let items ← inspectItems ts
    return item :: items

/-- The entries of a map. -/
def inspectEntries : List (Term × Term) → Except Term (List Bytes)
  | [] => .ok []
  | (k, v) :: entries => do
    let key ← interpolate k
    let value ← inspectJs v
    let items ← inspectEntries entries
    return (key ++ bytes ": " ++ value) :: items

end

end Inspect

/-! ## The loop -/

variable (con : Terminal W)

/-- Write to the terminal. -/
def put (write : Bytes → W → W) (text : Bytes) (next : SessionProgram W) : SessionProgram W :=
  .perform (.env fun w => ((), write text w)) fun _ => next

/-- `IO.puts(text)`. -/
def puts (text : Bytes) (next : SessionProgram W) : SessionProgram W :=
  put con.stdout (text ++ bytes "\n") next

/-- `IO.puts(:stderr, text)`, with a text that may fail to be one. -/
def putsError (text : Except Term Bytes) (next : SessionProgram W) : SessionProgram W :=
  match text with
  | .ok text => put con.stderr (text ++ bytes "\n") next
  | .error e => .raise e

/-- The text of `print_help`. -/
def helpText : Bytes :=
  bytes ("\nBeamJS REPL Commands:\n  .help    Show this help\n" ++
    "  .clear   Clear the JS context (reset all state)\n  .exit    Exit the REPL\n" ++
    "  .quit    Exit the REPL\n\nYou can evaluate any JavaScript expression:\n" ++
    "  beamjs(1)> 1 + 2\n  => 3\n  beamjs(2)> const x = [1, 2, 3].map(n => n * 2)\n" ++
    "  beamjs(3)> x\n  => [2, 4, 6]\n")

/-- The `case` of `loop` on the result of the evaluation. -/
def report (result : Term) (next : SessionProgram W) : SessionProgram W :=
  match result with
  | .tuple [.atom "ok", .atom "undefined"] | .tuple [.atom "ok", .atom "nil"] => next
  | .tuple [.atom "ok", value] =>
    match inspectJs con.interpolate con.inspect value with
    | .ok text => puts con (bytes "=> " ++ text) next
    | .error e => .raise e
  | .tuple [.atom "error", .tuple [.atom "js_exception", message, stack]] =>
    putsError con ((con.interpolate message).map (bytes "Error: " ++ ·)) <|
      match stack with
      | .binary [] | .atom "nil" => next
      | stack => putsError con (con.interpolate stack) next
  | .tuple [.atom "error", reason] =>
    putsError con (.ok (bytes "Error: " ++ con.inspect reason)) next
  | result => .raise (.tuple [.atom "case_clause", result])

/-- `loop`, with the inputs that are still to come. -/
def loop (h lineNum : ℕ) : List ReplInput → SessionProgram W
  | [] => put con.stdout (bytes ("beamjs(" ++ toString lineNum ++ ")> ")) (.ret .ok)
  | input :: inputs =>
    put con.stdout (bytes ("beamjs(" ++ toString lineNum ++ ")> ")) <|
      match input with
      | .eof | .error => puts con (bytes "\nBye!") (.ret .ok)
      | .line text =>
        let input := con.trim text
        if input = [] then loop h lineNum inputs
        else if input = bytes ".exit" ∨ input = bytes ".quit" then
          puts con (bytes "Bye!") (.ret .ok)
        else if input = bytes ".help" then puts con helpText (loop h lineNum inputs)
        else if input = bytes ".clear" then
          destroyContext h <| newContext fun h =>
            puts con (bytes "Context cleared.") (loop h 1 inputs)
        else
          .perform (.use h (.eval input (bytes ("<repl:" ++ toString lineNum ++ ">")))) fun
            | .ok result => report con result (loop h (lineNum + 1) inputs)
            | .error e => .raise e

/-- `start`. -/
def start (inputs : List ReplInput) : SessionProgram W :=
  newContext fun h =>
    puts con (bytes "BeamJS v0.1.0 (QuickJS on BEAM/OTP " ++ con.otpRelease ++ bytes ")") <|
      puts con (bytes "Type .help for help, .exit to quit\n") (loop con h 1 inputs)

/-! ## What a REPL is to remember -/

section Replay

variable {G : Type} (engine : Runtime G)

/-- The number of the next line and the engine after an input. An input that stops the REPL changes
neither. -/
def replayInput (st : ℕ × G) : ReplInput → ℕ × G
  | .eof | .error => st
  | .line text =>
    let input := con.trim text
    if input = [] ∨ input = bytes ".exit" ∨ input = bytes ".quit" ∨ input = bytes ".help" then st
    else if input = bytes ".clear" then (1, engine.fresh)
    else (st.1 + 1, (engine.eval input (bytes ("<repl:" ++ toString st.1 ++ ">")) st.2).2)

/-- The two after some inputs. -/
def replay (inputs : List ReplInput) : ℕ × G :=
  inputs.foldl (replayInput con engine) (1, engine.fresh)

end Replay

end Repl

/-! ## The sessions of a virtual machine -/

/-- A piece of Elixir code that creates contexts, with what it is given. -/
inductive Session where
  | process (opts : InitOpts) (messages : List Message)
  | evalSync (source filename : Bytes)
  | task (source : Bytes)
  | agentUpdate (fnSource : Bytes) (current : Term)
  | repl (inputs : List ReplInput)

/-- Its code. -/
def Session.program (sys : Otp W) (con : Terminal W) : Session → SessionProgram W
  | .process opts messages => processSession sys opts messages
  | .evalSync source filename => evalSyncSession source filename
  | .task source => taskSession source
  | .agentUpdate fnSource current => agentUpdateSession fnSource current
  | .repl inputs => Repl.start con inputs

/-- It evaluates one source in a context of its own. -/
def Session.isTemporary : Session → Bool
  | .evalSync _ _ | .task _ | .agentUpdate _ _ => true
  | .process _ _ | .repl _ => false

section Sessions

variable {G : Type}

/-- The runs of any number of sessions. -/
def sessionsOf (engine : Runtime G) (sys : Otp W) (con : Terminal W) (sessions : ℕ → Session)
    (world : W) :
    Lts (Pool ℕ ContextUse (Except Term Term) (BeamjsContext × G) W Term Term) (PoolAct ℕ) :=
  pool (contexts engine) (fun i => (sessions i).program sys con) world

end Sessions

end BeamJS
