import Errand.Script.Basic

namespace Errand

structure Ancestor where
  id : Nat
  isLoop : Bool
  deriving DecidableEq, Repr

/-- The innermost loop among the statements around a place. -/
def nearestLoop? (above : List Ancestor) : Option Nat :=
  (above.find? (·.isLoop)).map (·.id)

/-- The statements between a place and the innermost loop around it. -/
def withinLoop (above : List Ancestor) : List Nat :=
  (above.takeWhile (!·.isLoop)).map (·.id)

/-- A statement with its number and those around it, from the innermost to the root. -/
structure Site where
  id : Nat
  script : Script
  above : List Ancestor

namespace Site

def parent? (s : Site) : Option Nat := s.above.head?.map (·.id)

def children (s : Site) : List Nat := Script.numbered (s.id + 1) s.script.children

def loop? (s : Site) : Option Nat := nearestLoop? s.above

end Site

namespace Script

mutual

def sitesFrom (id : Nat) (above : List Ancestor) : Script → List Site
  | s@(sequence _ body) => ⟨id, s, above⟩ :: sitesAll (id + 1) (⟨id, false⟩ :: above) body
  | s@(branch _ _ yes no) =>
    ⟨id, s, above⟩ :: (sitesFrom (id + 1) (⟨id, false⟩ :: above) yes ++
      sitesFrom (id + 1 + yes.size) (⟨id, false⟩ :: above) no)
  | s@(loop _ _ body) => ⟨id, s, above⟩ :: sitesFrom (id + 1) (⟨id, true⟩ :: above) body
  | s => [⟨id, s, above⟩]

def sitesAll (first : Nat) (above : List Ancestor) : List Script → List Site
  | [] => []
  | s :: ss => sitesFrom first above s ++ sitesAll (first + s.size) above ss

end

/-- Every statement of a script; the one with number `id` stands at place `id`. -/
def sites (s : Script) : List Site := s.sitesFrom 0 []

def site? (s : Script) (id : Nat) : Option Site := s.sites[id]?

def parent? (s : Script) (id : Nat) : Option Nat := (s.site? id).bind (·.parent?)

def childIds (s : Script) (id : Nat) : List Nat :=
  match s.site? id with
  | some site => site.children
  | none => []

def loopAround? (s : Script) (id : Nat) : Option Nat := (s.site? id).bind (·.loop?)

/-- A number that no statement has is its own only descendant. -/
def descendantIds (s : Script) (id : Nat) : List Nat :=
  match s.site? id with
  | some site => site.script.descendants id
  | none => [id]

end Script

end Errand
