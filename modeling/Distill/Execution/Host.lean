import Distill.Execution.Environment
import Distill.Shell.Run
import Distill.Step.Invocation

/-!
# Hosts

A host runs the commands of steps in a tree of files: a shell is started in the directory
of the files of an archive, and its output is the value.

## Main definitions

* `Host` — the shell, the limit of time and the sites of archives.
* `Host.command` — the output of a command.
* `Host.environment` — steps whose commands are run by a host.
-/

namespace Distill

/-- What runs commands. -/
structure Host where
  dialect : Shell.Dialect := .standard
  /-- The limit of time of commands without one of their own, in milliseconds. -/
  timeout : Option Nat := none
  /-- Where the commands of an archive run. -/
  site : (archive : String) → CommandSite

namespace Host

/-- A limit of time as messages show it. -/
def shownDuration (milliseconds : Nat) : String :=
  if milliseconds = 0 then "0ns"
  else if milliseconds < 1000 then toString milliseconds ++ "ms"
  else
    let rest := milliseconds % 1000
    let digits := (toString (1000 + rest)).toList.drop 1
    let fraction := dropEndWhile (· == '0') digits
    let whole := toString (milliseconds / 1000)
    (if fraction.isEmpty then whole else whole ++ "." ++ String.ofList fraction) ++ "s"

/-- The failure of a command that takes too long. -/
def lateFailure (milliseconds : Nat) : Failure :=
  ⟨.cancelled, "command timed out after " ++ shownDuration milliseconds⟩

/-- The failure of a command, with what it wrote to its error output. -/
def commandFailure (how : String) (errors : Bytes) : Failure :=
  let text := trimBlank (Bytes.lossyText errors)
  let message := "command failed with " ++ how
  ⟨.exec, if text = "" then message else message ++ ": " ++ Command.excerpt text⟩

/-- The value of a command that has ended. -/
def valueOf (limit : Option Nat) : Shell.Result → Except Failure ArtifactValue
  | .ended 0 output _ => .ok (.bytes output)
  | .ended status _ errors => .error (commandFailure ("exit status " ++ toString status) errors)
  | .killed errors => .error (commandFailure "terminated by signal" errors)
  | .expired => .error (lateFailure (limit.getD 0))

/-- The state of a shell that is started in a directory of a tree. -/
def shellState (h : Host) (i : Invocation) (limit : Option Nat) (directory : List String)
    (files : FileTree) : Shell.State :=
  { dialect := h.dialect, name := i.name, params := i.params, files, current := directory
    deadline := limit.map (· * 1000) }

/-- Start a shell and wait for its end, unless the run is cancelled. -/
def launch (h : Host) (cancelled : Bool) (site : CommandSite) (limit : Option Nat)
    (i : Invocation) : Step.Doing FileTree ArtifactValue := fun files =>
  let files := FileTree.makeDirectory (pathComponents site.workDirectory) files
  match files.resolve (pathComponents site.files) with
  | .error e => (.error (.launch e.message), files)
  | .ok directory =>
    if !files.hasDirectory directory then (.error (.launch FileError.notDirectory.message), files)
    else if cancelled then (.error .runCancelled, files)
    else if limit = some 0 then (.error (lateFailure 0), files)
    else
      let (result, files) := Shell.run (h.shellState i limit directory files) i.script
      (valueOf limit result, files)

/-- The output of a command of a node. -/
def command (h : Host) (cancelled : Bool) (archive node : String) (e : ExecStep) :
    Step.Doing FileTree ArtifactValue := do
  let site := h.site archive
  let i ← Step.Doing.lift (e.invocation site node)
  h.launch cancelled site (e.timeout.orElse fun _ => h.timeout) i

/-- Steps whose commands are run by a host. -/
def environment (h : Host) (clock : StateM FileTree Elapsed) : Environment FileTree :=
  Environment.ofCommands (h.command false) clock

end Host

end Distill
