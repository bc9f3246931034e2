import ApiTypes.CommandLine.Outcome

/-!
# The program

Looks at the files that the arguments name, runs the command line on what is there, and prints and
writes what comes of it.
-/

open ApiTypes

def lookAt (path : String) : IO Found := do
  try
    let real ← IO.FS.realPath path
    if ← real.isDir then return .directory
    return .file (← IO.FS.readBinFile real).toList
  catch _ => return .missing

def lookAtAll (paths : List String) : IO Look := do
  let found ← paths.mapM fun path => do return (path, ← lookAt path)
  return fun path => (found.lookup path).getD .missing

def usage : String :=
  "Usage: [-v] generate -i INPUT [-o OUTPUT] [-k] [-z] [--format auto|yaml|json]"

def main (args : List String) : IO UInt32 := do
  let environment : CommandLine.Environment :=
    ⟨← IO.getEnv "OPENAPI_TYPINGS_KEEP", ← IO.getEnv "OPENAPI_TYPINGS_ZOD"⟩
  let paths := match CommandLine.Invocation.ofList? args with
    | some (.generate arguments) => arguments.paths
    | _ => []
  let look ← lookAtAll paths
  let outcome := CommandLine.run (fun _ => usage ++ "\n") look environment args
  IO.eprint outcome.messages
  IO.print outcome.output
  if let some (path, text) := outcome.written then
    IO.FS.createDirAll path.parent.text
    IO.FS.writeFile path.text text
  if let some failure := outcome.failure then IO.eprintln failure.message
  if outcome.exitCode = 2 then IO.eprintln usage
  return UInt32.ofNat outcome.exitCode
