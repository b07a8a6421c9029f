import Errand.Board.Error
import Errand.World.Grid

namespace Errand

inductive Error where
  | script (cause : ScriptError)
  | board (cause : BoardError)
  | settings (cause : SettingsError)
  | grid (cause : GridError)
  | unopened
  | unreadableFile
  | unreadableText
  deriving DecidableEq, Repr

def Error.message (label : TaskId → String) : Error → String
  | script e => "AST error: " ++ e.message
  | board e => "Scheduler error: " ++ e.message label
  | settings e => "Invalid config: " ++ e.message
  | grid e => "Internal error: " ++ e.message
  | unopened => "Internal error: Failed to open config file"
  | unreadableFile => "Internal error: Failed to parse config file"
  | unreadableText => "Internal error: Failed to parse config"

end Errand
