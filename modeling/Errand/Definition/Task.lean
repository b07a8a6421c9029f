import Errand.Definition.Statement

namespace Errand

structure TaskSpec where
  name : String
  priority : Option Int32 := none
  activities : Statement
  selected : Option Position := none
  deriving Repr, Inhabited

end Errand
