import Errand.Proofs.Script.Layout

namespace Errand

variable {α ε : Type}

def first : List ε → Except ε Unit
  | [] => .ok ()
  | e :: _ => .error e

theorem first_append (xs ys : List ε) : first (xs ++ ys) = (do first xs; first ys) := by
  cases xs <;> rfl

theorem first_eq_ok {xs : List ε} : first xs = .ok () ↔ xs = [] := by
  cases xs <;> simp [first]

theorem forM_eq_first {f : α → Except ε Unit} {g : α → List ε} {xs : List α}
    (h : ∀ x ∈ xs, f x = first (g x)) : forM xs f = first (xs.flatMap g) := by
  induction xs with
  | nil => rfl
  | cons x xs ih =>
    obtain ⟨hx, hxs⟩ := List.forall_mem_cons.1 h
    rw [List.forM_cons, List.flatMap_cons, first_append, hx, ih hxs]

structure Place where
  slot : Kind
  expr : Expr

/-- What is wrong with an expression in its slot, its operands apart. -/
def Place.faults (loc : Location) (p : Place) : List ScriptError :=
  (if p.slot.accepts p.expr.kind then [] else [.kindMismatch p.slot p.expr.kind loc]) ++
    match p.expr with
    | .position q => if q.nonnegative then [] else [.negativeCoordinate q loc]
    | _ => []

/-- The expression has the kind that its slot takes, and is no literal with a negative coordinate. -/
def Place.Fits (p : Place) : Prop :=
  p.slot.accepts p.expr.kind = true ∧ ∀ q, p.expr = .position q → q.nonnegative = true

theorem Place.faults_eq_nil {loc : Location} {p : Place} : p.faults loc = [] ↔ p.Fits := by
  rcases p with ⟨slot, e⟩
  rw [Place.faults, List.append_eq_nil_iff, Place.Fits]
  cases e <;> simp

namespace Expr

/-- An expression in its slot, followed by everything inside it, left before right. -/
def places (e : Expr) (slot : Kind) : List Place :=
  ⟨slot, e⟩ :: match e with
    | not a => a.places .boolean
    | and a b | or a b => a.places .boolean ++ b.places .boolean
    | isPassable p | isSolid p | nextTo p => p.places .position
    | isAlive u | isFriend u | isEnemy u | carriesItem u | positionOf u => u.places .unit
    | boolean _ | position _ | here | resource _ | selected | self | friend | enemy | any | var _ => []

theorem places_eq (e : Expr) (slot : Kind) :
    e.places slot = ⟨slot, e⟩ :: e.operands.flatMap fun o ↦ o.1.places o.2 := by
  cases e <;> simp [places, operands]

theorem operandInduction {motive : Expr → Prop} (h : ∀ e, (∀ o ∈ e.operands, motive o.1) → motive e)
    (e : Expr) : motive e := by
  induction e with
  | and a b iha ihb | or a b iha ihb =>
    apply h
    simp [operands, iha, ihb]
  | not a ih | isPassable a ih | isSolid a ih | isAlive a ih | isFriend a ih | isEnemy a ih
  | carriesItem a ih | nextTo a ih | positionOf a ih =>
    apply h
    simpa [operands] using ih
  | boolean | position | here | resource | selected | self | friend | enemy | any | var =>
    apply h
    simp [operands]

theorem check_eq (loc : Location) (e : Expr) (slot : Kind) :
    e.check loc slot = (do
      first (Place.faults loc ⟨slot, e⟩)
      forM e.operands fun o ↦ o.1.check loc o.2) := by
  rw [Place.faults]
  cases hkind : slot.accepts e.kind with
  | false =>
    rw [if_neg Bool.false_ne_true, first_append]
    cases e <;> simp only [check, hkind] <;> rfl
  | true =>
    rw [if_pos rfl, List.nil_append]
    cases e with
    | position p =>
      simp only [check, hkind]
      cases p.nonnegative <;> rfl
    | and a b | or a b =>
      simp only [check, hkind, operands, List.forM_cons, List.forM_nil]
      cases a.check loc .boolean <;> cases b.check loc .boolean <;> rfl
    | not a | isPassable a | isSolid a | isAlive a | isFriend a | isEnemy a | carriesItem a | nextTo a
    | positionOf a =>
      simp only [check, hkind, operands, List.forM_cons, List.forM_nil]
      cases a.check loc _ <;> rfl
    | boolean | here | resource | selected | self | friend | enemy | any | var =>
      simp only [check, hkind]
      rfl

theorem check_eq_first (loc : Location) (e : Expr) (slot : Kind) :
    e.check loc slot = first ((e.places slot).flatMap (Place.faults loc)) := by
  induction e using operandInduction generalizing slot with
  | h e ih =>
    rw [check_eq, places_eq, List.flatMap_cons, first_append, List.flatMap_assoc,
      forM_eq_first fun o ho ↦ ih o ho o.2]

def Fits (e : Expr) (slot : Kind) : Prop := ∀ p ∈ e.places slot, p.Fits

theorem faults_eq_nil (loc : Location) {e : Expr} {slot : Kind} :
    (e.places slot).flatMap (Place.faults loc) = [] ↔ e.Fits slot := by
  simp only [List.flatMap_eq_nil_iff, Place.faults_eq_nil, Fits]

end Expr

/-- A statement of a script, and whether there is a loop around it. -/
structure Part where
  inLoop : Bool
  statement : Statement

namespace Statement

mutual

def parts (inLoop : Bool) : Statement → List Part
  | s@(sequence _ body) => ⟨inLoop, s⟩ :: partsAll inLoop body
  | s@(branch _ _ yes no) => ⟨inLoop, s⟩ :: (yes.parts inLoop ++ partsElse inLoop no)
  | s@(loop _ _ body) => ⟨inLoop, s⟩ :: body.parts true
  | s => [⟨inLoop, s⟩]

def partsAll (inLoop : Bool) : List Statement → List Part
  | [] => []
  | s :: ss => s.parts inLoop ++ partsAll inLoop ss

def partsElse (inLoop : Bool) : Option Statement → List Part
  | none => []
  | some s => s.parts inLoop

end

def places : Statement → List Place
  | branch _ c _ _ | loop _ c _ => c.places .boolean
  | assign _ _ e | print _ e => e.places .any
  | action _ a e => e.places a.targetKind
  | sequence _ _ | leave _ | void _ => []

end Statement

def Part.faults (p : Part) : List ScriptError :=
  (match p.statement with
    | .leave loc => if p.inLoop then [] else [.breakOutsideLoop loc]
    | _ => []) ++ p.statement.places.flatMap (Place.faults p.statement.location)

namespace Statement

/-- All that is wrong with a script, in the order of the text. -/
def faults (d : Statement) : List ScriptError := (d.parts false).flatMap Part.faults

mutual

/-- Every `break` has a loop around it, be it one around the whole, and every expression fits. -/
def WellFormed (inLoop : Bool) : Statement → Prop
  | sequence _ body => WellFormedAll inLoop body
  | branch _ c yes no => c.Fits .boolean ∧ yes.WellFormed inLoop ∧ WellFormedElse inLoop no
  | loop _ c body => c.Fits .boolean ∧ body.WellFormed true
  | leave _ => inLoop = true
  | assign _ _ e | print _ e => e.Fits .any
  | void _ => True
  | action _ a e => e.Fits a.targetKind

def WellFormedAll (inLoop : Bool) : List Statement → Prop
  | [] => True
  | s :: ss => s.WellFormed inLoop ∧ WellFormedAll inLoop ss

def WellFormedElse (inLoop : Bool) : Option Statement → Prop
  | none => True
  | some s => s.WellFormed inLoop

end

theorem faultsAll_eq_nil {ds : List Statement}
    (h : ∀ d ∈ ds, ∀ b, (d.parts b).flatMap Part.faults = [] ↔ d.WellFormed b) (b : Bool) :
    (partsAll b ds).flatMap Part.faults = [] ↔ WellFormedAll b ds := by
  induction ds with
  | nil => simp [partsAll, WellFormedAll]
  | cons d ds ih =>
    obtain ⟨hd, hds⟩ := List.forall_mem_cons.1 h
    rw [partsAll, List.flatMap_append, List.append_eq_nil_iff, hd, ih hds, WellFormedAll]

theorem faults_eq_nil (d : Statement) (b : Bool) :
    (d.parts b).flatMap Part.faults = [] ↔ d.WellFormed b := by
  induction d generalizing b with
  | sequence loc body ih =>
    rw [parts, WellFormed, List.flatMap_cons, ← faultsAll_eq_nil ih]
    rfl
  | branch loc c yes no ihy ihn =>
    have hno : (partsElse b no).flatMap Part.faults = [] ↔ WellFormedElse b no := by
      cases no with
      | none => simp [partsElse, WellFormedElse]
      | some no => exact ihn no rfl b
    rw [parts, WellFormed, List.flatMap_cons, List.flatMap_append, List.append_eq_nil_iff,
      List.append_eq_nil_iff, ihy, hno, ← Expr.faults_eq_nil loc]
    rfl
  | loop loc c body ih =>
    rw [parts, WellFormed, List.flatMap_cons, List.append_eq_nil_iff, ih, ← Expr.faults_eq_nil loc]
    rfl
  | leave loc => cases b <;> simp [parts, Part.faults, places, WellFormed]
  | assign loc name e | print loc e | action loc a e =>
    simp [parts, Part.faults, places, WellFormed, location, ← Expr.faults_eq_nil loc]
  | void loc => simp [parts, Part.faults, places, WellFormed]

end Statement

namespace Script

open Statement

theorem check_site (d : Statement) (id : Nat) (above : List Ancestor) :
    Site.check ⟨id, ofStatement d, above⟩ =
      first (Part.faults ⟨(nearestLoop? above).isSome, d⟩) := by
  cases d with
  | leave loc =>
    change (if (nearestLoop? above).isSome then pure () else throw (ScriptError.breakOutsideLoop loc)) = _
    rw [Part.faults]
    cases nearestLoop? above <;> rfl
  | branch | loop | assign | print | action => exact Expr.check_eq_first _ _ _
  | sequence | void => rfl

theorem check_leaf {d : Statement} {id : Nat} {above : List Ancestor}
    (hsites : (ofStatement d).sitesFrom id above = [⟨id, ofStatement d, above⟩])
    (hparts : ∀ b, d.parts b = [⟨b, d⟩]) :
    forM ((ofStatement d).sitesFrom id above) Site.check =
      first ((d.parts (nearestLoop? above).isSome).flatMap Part.faults) := by
  rw [hsites, hparts, List.forM_cons, List.forM_nil, bind_pure_unit, check_site,
    List.flatMap_singleton]

theorem check_sitesAll {ds : List Statement}
    (h : ∀ d ∈ ds, ∀ id above, forM ((ofStatement d).sitesFrom id above) Site.check =
      first ((d.parts (nearestLoop? above).isSome).flatMap Part.faults))
    (id : Nat) (above : List Ancestor) :
    forM (sitesAll id above (ofStatements ds)) Site.check =
      first ((partsAll (nearestLoop? above).isSome ds).flatMap Part.faults) := by
  induction ds generalizing id with
  | nil => rfl
  | cons d ds ih =>
    obtain ⟨hd, hds⟩ := List.forall_mem_cons.1 h
    rw [ofStatements, sitesAll, List.forM_append, hd, ih hds, partsAll, List.flatMap_append,
      first_append]

theorem check_sitesFrom (d : Statement) (id : Nat) (above : List Ancestor) :
    forM ((ofStatement d).sitesFrom id above) Site.check =
      first ((d.parts (nearestLoop? above).isSome).flatMap Part.faults) := by
  induction d generalizing id above with
  | sequence loc body ih =>
    have hbody := check_sitesAll ih (id + 1) (⟨id, false⟩ :: above)
    have hsite := check_site (.sequence loc body) id above
    rw [ofStatement] at hsite ⊢
    rw [sitesFrom, List.forM_cons, hsite, hbody, parts, List.flatMap_cons, first_append]
    rfl
  | branch loc c yes no ihy ihn =>
    have hno : forM ((ofBranch loc no).sitesFrom (id + 1 + (ofStatement yes).size)
        (⟨id, false⟩ :: above)) Site.check =
        first ((partsElse (nearestLoop? above).isSome no).flatMap Part.faults) := by
      cases no with
      | none => rfl
      | some no => exact ihn no rfl _ _
    have hsite := check_site (.branch loc c yes no) id above
    rw [ofStatement] at hsite ⊢
    rw [sitesFrom, List.forM_cons, List.forM_append, hsite, ihy, hno, parts, List.flatMap_cons,
      List.flatMap_append, first_append, first_append]
    rfl
  | loop loc c body ih =>
    have hsite := check_site (.loop loc c body) id above
    rw [ofStatement] at hsite ⊢
    rw [sitesFrom, List.forM_cons, hsite, ih, parts, List.flatMap_cons, first_append]
    rfl
  | leave | assign | print | void | action =>
    exact check_leaf rfl fun _ ↦ rfl

theorem build_eq (d : Statement) :
    build d = (do first d.faults; return ofStatement d) := by
  have hcheck : (ofStatement d).sites.forM Site.check = first d.faults := check_sitesFrom d 0 []
  rw [build_eq_check, hcheck]

/-- A script may run exactly when it is well-formed. What is reported of one that may not is the first
of its faults. -/
theorem build_accepts_wellFormed (d : Statement) :
    ((∃ s, build d = .ok s) ↔ d.WellFormed false) ∧
      ∀ e, build d = .error e ↔ d.faults.head? = some e := by
  have hfaults : d.faults = [] ↔ d.WellFormed false := faults_eq_nil d false
  rw [build_eq, ← hfaults]
  cases d.faults with
  | nil => simp [first, bind, Except.bind, pure, Except.pure]
  | cons e es => simp [first, bind, Except.bind]

example : build (.sequence {} [.print ⟨2, 1⟩ (.and (.boolean true) .here), .leave ⟨3, 1⟩]) =
    .error (.kindMismatch .boolean .position ⟨2, 1⟩) := rfl

end Script

end Errand
