/-
The program: what a command can look at is read from the real disk, the command is carried out, and what it changed
is written back. A link is known by the place it leads to; one that moved is renamed.
-/
import Isolation.CommandLine.Reply

namespace Isolation.Program

/-! ## Reading -/

/-- the names of an absolute path -/
def locationOf (path : String) : Location :=
  (Path.components (Path.normalize path)).filterMap fun
    | .normal name => some name
    | _ => none

/-- the directories above a location -/
def withAncestors (d : Disk) (l : Location) : Disk :=
  (List.range l.length).foldl (fun d n => if (d.get? (l.take n)).isSome then d else d.set (l.take n) .directory) d

/-- reads the entry of a directory, with everything below it -/
partial def load (d : Disk) (l : Location) (entry : IO.FS.DirEntry) : IO Disk := do
  let .ok metadata ← entry.path.symlinkMetadata.toBaseIO | return d
  match metadata.type with
  | .dir =>
    let mut d := d.set l .directory
    for e in ← entry.path.readDir do
      d ← load d (l ++ [e.fileName]) e
    return d
  | .symlink =>
    let .ok target ← (IO.FS.realPath entry.path).toBaseIO | return d
    return d.set l (.link target.toString)
  | _ => return d.set l (.file (← IO.FS.readBinFile entry.path).toList)

/-- reads what is at a path; if the path leads through links, it is a link to where they lead -/
def loadPath (d : Disk) (path : String) : IO Disk := do
  let .ok real ← (IO.FS.realPath path).toBaseIO | return d
  let target := locationOf real.toString
  let d ← load (withAncestors d target) target ⟨"/", real.toString⟩
  let typed := locationOf (Path.join (Disk.pathOf d.current) path)
  return if typed = target then d else (withAncestors d typed).set typed (.link real.toString)

/-- the project and the settings file that a command names -/
def wanted : CommandLine.Command → Option String × Option String
  | .isolate project .. => (some project.directory, project.configFile)
  | .refreshCache project => (some project.directory, project.configFile)
  | .discover project .. => (some project.directory, project.configFile)
  | .showDefaults => (none, none)
  | .checkConfig path => (none, some path)

/-- reads a project; its vendor directory and its packages may be elsewhere -/
def loadProject (d : Disk) (directory : String) : IO Disk := do
  let d ← loadPath d directory
  let .ok root := d.canonicalize directory | return d
  let loadOutside (d : Disk) (path : String) : IO Disk :=
    if (Path.relativeTo? path root).isSome then pure d else loadPath d path
  let .ok manifest := Project.readManifest d (Path.join root "composer.json") | return d
  let d ← loadOutside d (Path.normalize (Path.join root (Project.vendorDirOf manifest)))
  let .ok project := Project.openAt d directory | return d
  (project.packages.map project.installDir).foldlM loadOutside d

/-- everything a command can look at -/
def loadFor (request : CommandLine.Request) : IO Disk := do
  let current := locationOf (← IO.currentDir).toString
  let d := (withAncestors { current } current).set current .directory
  match request with
  | .run command =>
    let (project, settings) := wanted command
    let d ← match project with
      | some directory => loadProject d directory
      | none => pure d
    match settings with
    | some path => loadPath d path
    | none => return d
  | _ => return d

/-! ## Writing -/

/-- puts one changed entry in its place; a link is taken from where one to the same place vanished -/
def store (gone : List (Location × Entry)) (change : Location × Entry) : IO Unit := do
  let path := Disk.pathOf change.1
  IO.FS.createDirAll (Disk.pathOf change.1.dropLast)
  match change.2 with
  | .file bytes => IO.FS.writeBinFile path (ByteArray.mk bytes.toArray)
  | .directory => IO.FS.createDirAll path
  | .link _ =>
    match gone.find? (·.2 == change.2) with
    | some (source, _) => IO.FS.rename (Disk.pathOf source) path
    | none => return

/-- removes one entry that vanished -/
def remove (change : Location × Entry) : IO Unit := do
  let path := Disk.pathOf change.1
  let attempt := match change.2 with
    | .directory => IO.FS.removeDir path
    | _ => IO.FS.removeFile path
  discard attempt.toBaseIO

/-- writes what changed; what vanished is removed from the bottom up -/
def storeChanges (before after : Disk) : IO Unit := do
  let gone := before.entries.filter fun e => (after.get? e.1).isNone
  let changed := after.entries.filter fun e => before.get? e.1 != some e.2
  changed.forM (store gone)
  (gone.mergeSort fun a b => b.1.length ≤ a.1.length).forM remove

end Isolation.Program

open Isolation

def main (args : List String) : IO UInt32 := do
  let start ← IO.monoNanosNow
  let environmentPrefix ← IO.getEnv "VENDOR_ISOLATOR_PREFIX"
  let before ← Program.loadFor (CommandLine.readRequest environmentPrefix args)
  let reply ← IO.lazyPure fun _ => CommandLine.reply before environmentPrefix args
  Program.storeChanges before reply.disk
  let stop ← IO.monoNanosNow
  IO.print (reply.output.render (stop - start))
  IO.eprint (CommandLine.unlines reply.errors)
  return reply.code.toUInt32
