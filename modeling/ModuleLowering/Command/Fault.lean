namespace ModuleLowering.Command

inductive Fault
  | settingsUnreadable (path : String)
  | settingsMalformed (path : String)
  | unknownPass (token : String)
  | inputNotFound (path : String)
  | folderNotCreated (path : String)
  | fileNotWritten (path : String)
  deriving DecidableEq

def Fault.message : Fault → String
  | settingsUnreadable path => "failed to read config: " ++ path
  | settingsMalformed path => "failed to parse config: " ++ path
  | unknownPass _ => "invalid --transforms"
  | inputNotFound path => "input not found: " ++ path
  | folderNotCreated path => "failed to create directory " ++ path
  | fileNotWritten path => "failed to write " ++ path

end ModuleLowering.Command
