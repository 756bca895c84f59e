import Retrofit.Command

/-!
# Main

The command at work: it takes in the part of the file system that its options name, runs on that,
and writes out the files that the run has written.
-/

namespace Retrofit.Main

def usage : String := "\n".intercalate [
  "Replaces factory calls in compiled classes by forms that older runtimes understand.",
  "",
  "Options:",
  "  --input DIR             directory of compiled classes to work on; repeatable",
  "  --classpath PATH        more directories or archives to look classes up in; repeatable",
  "  --boot-classpath PATH   archive of the platform's library; repeatable",
  "  --output DIR            where the classes are written",
  "  --target-class NAME     class of the factory method (java.util.List)",
  "  --target-method NAME    name of the factory method (of)",
  "  --max-fixed-arity N     most arguments passed one by one (10)",
  "  -v, --verbose           tell more",
  "  -h, --help              print this help",
  "  -V, --version           print the version"]

def version : String := "retrofit 0.1.0"

/-- The names on the way from the root to the working directory. -/
def currentPlace : IO Place := do
  let directory ← IO.currentDir
  return (Path.split directory.toString.toList).filterMap fun p =>
    if p.isEmpty then none else some (String.ofList p)

/-- Take in a file or directory with all that is below it. -/
partial def capture (s : Store) (path : String) (place : Place) : IO Store := do
  let here := (← IO.currentDir) / path
  if ← here.isDir then
    let entries ← here.readDir
    entries.foldlM (fun s entry => capture s (Path.below path entry.fileName)
      (place ++ [entry.fileName])) (s.put place .directory)
  else if ← here.pathExists then
    return s.put place (.file (← IO.FS.readBinFile here).toList)
  else return s

/-- Take in the directories on the way along a path, and what the path leads to. -/
def captureAlong (s : Store) (path : String) : IO Store := do
  let mut s := s
  let mut place := if Path.isAbsolute path.toList then [] else s.workingDirectory
  for piece in (Path.split path.toList).map String.ofList do
    if piece = ".." then place := place.dropLast
    else if piece ≠ "" ∧ piece ≠ "." then
      place := place ++ [piece]
      if ← ((← IO.currentDir) / ("/" ++ "/".intercalate place)).isDir then
        s := s.put place .directory
  capture s path place

/-- Write out the files that are new or different. -/
def writeOut (before after : Store) : IO Unit := do
  for (place, item) in after.items.toList do
    if before.items[place]? ≠ some item then
      let target := (← IO.currentDir) / ("/" ++ "/".intercalate place)
      match item with
      | .directory => IO.FS.createDirAll target
      | .file bytes =>
        if let some directory := target.parent then IO.FS.createDirAll directory
        IO.FS.writeBinFile target ⟨bytes.toArray⟩

/-- Tell the events that are not too fine. -/
def tell (verbose : Bool) (events : List Event) : IO Unit := do
  for e in events do
    match e.level with
    | .debug => if verbose then IO.eprintln s!"[DEBUG] {e.message}"
    | .info => IO.eprintln s!"[INFO] {e.message}"
    | .warn => IO.eprintln s!"[WARN] {e.message}"

/-- Say what went wrong, and end with the exit code. -/
def conclude (outcome : Command.Outcome) : IO UInt32 := do
  if let some message := outcome.message? then IO.eprintln s!"[ERROR] {message}"
  return outcome.exitCode.toUInt32

/-- Run with the given options. -/
def execute (o : Options) : IO UInt32 := do
  let mut s := Store.empty (← currentPlace)
  for path in o.inputs ++ (o.classPath ++ o.bootClassPath) do
    s ← captureAlong s path
  let result := Command.execute o s
  tell o.verbose result.events
  writeOut s result.store
  conclude result.outcome

end Retrofit.Main

def main (arguments : List String) : IO UInt32 :=
  match Retrofit.Options.parse arguments with
  | .error e => Retrofit.Main.conclude (.misused e)
  | .ok .help => do
    IO.println Retrofit.Main.usage
    Retrofit.Main.conclude .complete
  | .ok .version => do
    IO.println Retrofit.Main.version
    Retrofit.Main.conclude .complete
  | .ok (.run o) => Retrofit.Main.execute o
