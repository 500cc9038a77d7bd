import ModuleLowering.Command.Fault
import ModuleLowering.Command.FileTree
import ModuleLowering.Lowering.Basic

/-!
The files that the inputs of a run stand for, and what lowering makes of each. A file keeps the contents
that it had when it was found, so nothing that a run writes can change what it reads. These contents are
always there, so all that keeps a file from being read is that they are no text.
-/

namespace ModuleLowering.Command

structure SourceFile where
  path : String
  relative : String
  contents : ByteArray

inductive FileFault
  | undecodable
  | rejected (diagnostic : LocatedDiagnostic)

structure FileFailure where
  path : String
  fault : FileFault

namespace SourceFile

def ofFile (input : String) (contents : ByteArray) : SourceFile :=
  ⟨input, Path.fileName input, contents⟩

def ofFolder (input : String) (found : List (Trail × ByteArray)) : List SourceFile :=
  let sources := found.filter fun (names, _) => Path.isSource (names.getLastD "")
  (sources.mergeSort fun a b => !b.1.isBefore a.1).map fun (names, contents) =>
    let relative := Path.ofSegments names
    ⟨Path.join input relative, relative, contents⟩

def lower (options : Options) (f : SourceFile) : Except (Failure Fault) (Except FileFailure String) :=
  match String.fromUTF8? f.contents with
  | none => .ok (.error ⟨f.path, .undecodable⟩)
  | some text =>
    match ModuleLowering.lower text.toList options with
    | .ok output => .ok (.ok output)
    | .error (.rejected d) => .ok (.error ⟨f.path, .rejected d⟩)
    | .error (.splitCharacter offset) => .error (.splitCharacter offset)

end SourceFile

namespace FileTree

def sources (t : FileTree) (input : String) : Except Fault (List SourceFile) :=
  match t.locate? input with
  | none => .error (.inputNotFound input)
  | some place =>
    if t.isFolder place then .ok (SourceFile.ofFolder input (t.below place))
    else
      match t.file? place with
      | some contents => .ok [SourceFile.ofFile input contents]
      | none => .error (.inputNotFound input)

def collect (t : FileTree) (inputs : List String) : Except Fault (List SourceFile) :=
  (inputs.mapM t.sources).map List.flatten

end FileTree

end ModuleLowering.Command
