/-!
Styles of text on a terminal. A style lasts until the next reset, so in a styled text it begins anew
after every reset that the text itself holds.
-/

namespace ModuleLowering.Command

inductive Style
  | bold
  | red
  | boldRed
  deriving DecidableEq

namespace Style

def code : Style → List Char
  | bold => ['1']
  | red => ['3', '1']
  | boldRed => ['1', ';', '3', '1']

def start (s : Style) : List Char := '\x1b' :: '[' :: s.code ++ ['m']

def reset : List Char := ['\x1b', '[', '0', 'm']

def resume (s : Style) : List Char → List Char
  | '\x1b' :: '[' :: '0' :: 'm' :: rest => reset ++ s.start ++ s.resume rest
  | c :: rest => c :: s.resume rest
  | [] => []

def paint (s : Style) (text : String) : String :=
  String.ofList (s.start ++ s.resume text.toList ++ reset)

end Style

end ModuleLowering.Command
