import Distill.Cache.Basic
import Distill.Step.Command

/-!
# Invocations of shells

The command of a step becomes a script with a name and parameters for a shell.

## Main definitions

* `CommandSite` — where the commands of an archive run.
* `CommandSite.render` — a command or parameter with its placeholders replaced.
* `Invocation`, `ExecStep.invocation` — what a shell is started with.
-/

namespace Distill

/-- Where the commands of an archive run. -/
structure CommandSite where
  archive : String
  /-- The directory of the files of the archive. -/
  files : String
  /-- The location of the cache. -/
  cache : String
  deriving DecidableEq, Repr, Inhabited

namespace CommandSite

/-- The directory that commands may use for files of their own. -/
def workDirectory (site : CommandSite) : String :=
  site.cache ++ "/" ++ Cache.encodeName site.archive

/-- What a token stands for in the commands of a node. -/
def placeholder? (site : CommandSite) (node token : String) : Option String :=
  match token with
  | "files" => some site.files
  | "archive" => some site.archive
  | "workdir" => some site.workDirectory
  | "name" => some node
  | _ => none

/-- A command or parameter of a node with its placeholders replaced. -/
def render (site : CommandSite) (node template : String) : Except Failure String :=
  match Template.parse template with
  | .ok t => .ok (t.render (site.placeholder? node))
  | .error e => .error ⟨.exec, "invalid command template: " ++ e.display⟩

end CommandSite

/-- What a shell is started with. -/
structure Invocation where
  script : String
  name : String
  params : List String
  deriving DecidableEq, Repr, Inhabited

/-- The failure of a command that cannot be started. -/
def Failure.launch (reason : String) : Failure := ⟨.exec, "failed to launch command: " ++ reason⟩

/-- Whether a text can be handed to a program: the zero character would end it. -/
def isPassable (s : String) : Bool := !s.toList.contains '\x00'

namespace ExecStep

/-- The command and the parameters of a node with their placeholders replaced. -/
def rendered (e : ExecStep) (site : CommandSite) (node : String) :
    Except Failure (String × List String) := do
  return (← site.render node e.command, ← e.params.mapM (site.render node))

/-- What a shell is started with for a node. -/
def invocation (e : ExecStep) (site : CommandSite) (node : String) : Except Failure Invocation := do
  let (command, params) ← e.rendered site node
  if FileTree.maxNameLength < (Cache.encodeName site.archive).utf8ByteSize then
    throw ⟨.exec, "failed to create work directory " ++ site.workDirectory ++ ": " ++
      FileError.nameTooLong.message⟩
  let script ←
    if params.isEmpty then pure command
    else (Command.withParams command).mapError fun e => ⟨.exec, e.message⟩
  if ¬(site.files :: script :: node :: params).all isPassable then
    throw (.launch "nul byte found in provided data")
  return { script, name := node, params }

end ExecStep

end Distill
