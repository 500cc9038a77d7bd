import ModuleLowering.Command.Source
import ModuleLowering.Command.Style

namespace ModuleLowering.Command

open Text

namespace Report

structure Entry where
  path : String
  location : Option Location
  message : String
  deriving DecidableEq

def Entry.of (f : FileFailure) : Entry :=
  match f.fault with
  | .undecodable => ⟨f.path, none, "failed to read file: stream did not contain valid UTF-8"⟩
  | .rejected d => ⟨f.path, some d.location, d.problem.message⟩

def paint (colour : Bool) (style : Style) (text : String) : String :=
  if colour then style.paint text else text

def Entry.place (e : Entry) : String :=
  match e.location with
  | none => e.path
  | some l => e.path ++ ":" ++ l.render

def Entry.render (colour : Bool) (e : Entry) : String :=
  paint colour .bold e.place ++ ": " ++ paint colour .boldRed "error" ++ ": " ++ e.message

def render (colour : Bool) (entries : List Entry) : String :=
  "\n".intercalate (entries.map (Entry.render colour))

def summary (colour : Bool) (files failed : Nat) : String :=
  paint colour .red (s!"{failed} of {files} file" ++ (if files = 1 then "" else "s") ++ " failed")

end Report

end ModuleLowering.Command
