import Errand.Proofs.Script.Faults
import Errand.Proofs.Script.Placement

namespace Errand

namespace Statement

mutual

/-- The script with a `void` for each missing branch, at the place of its `if`. -/
def filled : Statement → Statement
  | sequence l body => sequence l (filledAll body)
  | branch l c yes no => branch l c yes.filled (some (filledElse l no))
  | loop l c body => loop l c body.filled
  | s => s

def filledAll : List Statement → List Statement
  | [] => []
  | s :: ss => s.filled :: filledAll ss

def filledElse (l : Location) : Option Statement → Statement
  | none => void l
  | some s => s.filled

end

def lacksElse : Statement → Bool
  | branch _ _ _ none => true
  | _ => false

theorem filledAll_filledAll {ds : List Statement} (h : ∀ d ∈ ds, d.filled.filled = d.filled) :
    filledAll (filledAll ds) = filledAll ds := by
  induction ds with
  | nil => rfl
  | cons d ds ih =>
    obtain ⟨hd, hds⟩ := List.forall_mem_cons.1 h
    rw [filledAll, filledAll, hd, ih hds]

theorem filled_filled (d : Statement) : d.filled.filled = d.filled := by
  induction d with
  | sequence loc body ih => rw [filled, filled, filledAll_filledAll ih]
  | branch loc c yes no ihy ihn =>
    have hno : (filledElse loc no).filled = filledElse loc no := by
      cases no with
      | none => rfl
      | some no => exact ihn no rfl
    rw [filled, filled, ihy, filledElse, hno]
  | loop loc c body ih => rw [filled, filled, ih]
  | leave | assign | print | void | action => rfl

theorem filled_partsAll {ds : List Statement} {b : Bool}
    (h : ∀ d ∈ ds, ∀ p ∈ d.filled.parts b, p.statement.filled = p.statement) :
    ∀ p ∈ partsAll b (filledAll ds), p.statement.filled = p.statement := by
  induction ds with
  | nil => exact List.forall_mem_nil _
  | cons d ds ih =>
    obtain ⟨hd, hds⟩ := List.forall_mem_cons.1 h
    rw [filledAll, partsAll]
    exact List.forall_mem_append.2 ⟨hd, ih hds⟩

theorem filled_parts (d : Statement) (b : Bool) :
    ∀ p ∈ d.filled.parts b, p.statement.filled = p.statement := by
  induction d generalizing b with
  | sequence loc body ih =>
    have hself := filled_filled (.sequence loc body)
    rw [filled] at hself ⊢
    rw [parts]
    exact List.forall_mem_cons.2 ⟨hself, filled_partsAll fun d hd ↦ ih d hd b⟩
  | branch loc c yes no ihy ihn =>
    have hself := filled_filled (.branch loc c yes no)
    have hno : ∀ p ∈ (filledElse loc no).parts b, p.statement.filled = p.statement := by
      cases no with
      | none => exact List.forall_mem_singleton.2 rfl
      | some no => exact ihn no rfl b
    rw [filled] at hself ⊢
    rw [parts, partsElse]
    exact List.forall_mem_cons.2 ⟨hself, List.forall_mem_append.2 ⟨ihy b, hno⟩⟩
  | loop loc c body ih =>
    have hself := filled_filled (.loop loc c body)
    rw [filled] at hself ⊢
    rw [parts]
    exact List.forall_mem_cons.2 ⟨hself, ih true⟩
  | leave | assign | print | void | action => exact List.forall_mem_singleton.2 rfl

end Statement

namespace Script

open Statement

theorem ofStatements_filledAll {ds : List Statement}
    (h : ∀ d ∈ ds, ofStatement d.filled = ofStatement d) :
    ofStatements (filledAll ds) = ofStatements ds := by
  induction ds with
  | nil => rfl
  | cons d ds ih =>
    obtain ⟨hd, hds⟩ := List.forall_mem_cons.1 h
    rw [filledAll, ofStatements, hd, ih hds, ofStatements]

theorem ofStatement_filled (d : Statement) : ofStatement d.filled = ofStatement d := by
  induction d with
  | sequence loc body ih => rw [filled, ofStatement, ofStatements_filledAll ih, ofStatement]
  | branch loc c yes no ihy ihn =>
    have hno : ofStatement (filledElse loc no) = ofBranch loc no := by
      cases no with
      | none => rfl
      | some no => exact ihn no rfl
    rw [filled, ofStatement, ihy, ofBranch, hno, ofStatement]
  | loop loc c body ih => rw [filled, ofStatement, ih, ofStatement]
  | leave | assign | print | void | action => rfl

theorem map_script_sitesAll {ds : List Statement} {b : Bool}
    (h : ∀ d ∈ ds, ∀ id above, ((ofStatement d).sitesFrom id above).map (·.script) =
      (d.filled.parts b).map fun p ↦ ofStatement p.statement)
    (first : Nat) (above : List Ancestor) :
    (sitesAll first above (ofStatements ds)).map (·.script) =
      (partsAll b (filledAll ds)).map fun p ↦ ofStatement p.statement := by
  induction ds generalizing first with
  | nil => rfl
  | cons d ds ih =>
    obtain ⟨hd, hds⟩ := List.forall_mem_cons.1 h
    rw [ofStatements, sitesAll, filledAll, partsAll, List.map_append, List.map_append, hd, ih hds]

theorem map_script_sitesFrom (d : Statement) (b : Bool) (id : Nat) (above : List Ancestor) :
    ((ofStatement d).sitesFrom id above).map (·.script) =
      (d.filled.parts b).map fun p ↦ ofStatement p.statement := by
  induction d generalizing b id above with
  | sequence loc body ih =>
    have hself := ofStatement_filled (.sequence loc body)
    have hbody := map_script_sitesAll (fun d hd ↦ ih d hd b) (id + 1) (⟨id, false⟩ :: above)
    rw [filled] at hself ⊢
    rw [parts, List.map_cons, hself, ← hbody]
    rfl
  | branch loc c yes no ihy ihn =>
    have hself := ofStatement_filled (.branch loc c yes no)
    have hno : ∀ id above, ((ofBranch loc no).sitesFrom id above).map (·.script) =
        ((filledElse loc no).parts b).map fun p ↦ ofStatement p.statement := by
      cases no with
      | none => exact fun _ _ ↦ rfl
      | some no => exact ihn no rfl b
    rw [filled] at hself ⊢
    rw [parts, List.map_cons, hself, partsElse, List.map_append,
      ← ihy b (id + 1) (⟨id, false⟩ :: above),
      ← hno (id + 1 + (ofStatement yes).size) (⟨id, false⟩ :: above), ← List.map_append]
    rfl
  | loop loc c body ih =>
    have hself := ofStatement_filled (.loop loc c body)
    rw [filled] at hself ⊢
    rw [parts, List.map_cons, hself, ← ih true (id + 1) (⟨id, true⟩ :: above)]
    rfl
  | leave | assign | print | void | action => rfl

theorem sizeAll_ofStatements {ds : List Statement} {b : Bool}
    (h : ∀ d ∈ ds, (ofStatement d).size =
      (d.parts b).length + (d.parts b).countP (·.statement.lacksElse)) :
    sizeAll (ofStatements ds) =
      (partsAll b ds).length + (partsAll b ds).countP (·.statement.lacksElse) := by
  induction ds with
  | nil => rfl
  | cons d ds ih =>
    obtain ⟨hd, hds⟩ := List.forall_mem_cons.1 h
    rw [ofStatements, sizeAll, partsAll, List.length_append, List.countP_append, hd, ih hds]
    omega

theorem size_ofStatement (d : Statement) (b : Bool) :
    (ofStatement d).size = (d.parts b).length + (d.parts b).countP (·.statement.lacksElse) := by
  induction d generalizing b with
  | sequence loc body ih =>
    rw [ofStatement, size, sizeAll_ofStatements fun d hd ↦ ih d hd b]
    simp only [parts, List.length_cons, List.countP_cons, lacksElse, Bool.false_eq_true, if_false]
    omega
  | branch loc c yes no ihy ihn =>
    cases no with
    | none =>
      simp only [ofStatement, ofBranch, size, ihy b, parts, partsElse, List.append_nil,
        List.length_cons, List.countP_cons, lacksElse, if_true]
      omega
    | some no =>
      simp only [ofStatement, ofBranch, size, ihy b, ihn no rfl b, parts, partsElse,
        List.length_cons, List.length_append, List.countP_cons, List.countP_append, lacksElse,
        Bool.false_eq_true, if_false]
      omega
  | loop loc c body ih =>
    simp only [ofStatement, size, ih true, parts, List.length_cons, List.countP_cons, lacksElse,
      Bool.false_eq_true, if_false]
    omega
  | leave | assign | print | void | action => rfl

variable {s : Script}

theorem exists_block {id : Nat} (hid : id < s.size) :
    ∃ n, (s.descendantIds id).Perm (List.range' id n) ∧ ∀ j, s.Spans id j ↔ id ≤ j ∧ j < id + n := by
  obtain ⟨q, hq, hsite, rfl⟩ := exists_site hid
  refine ⟨q.script.size, ?_, fun j ↦ spans_iff hq⟩
  rw [descendantIds, hsite]
  exact descendants_perm _ _

theorem exists_parent {c : Nat} (hpos : 0 < c) (hc : c < s.size) :
    ∃ p, (s.childIds p).count c = 1 ∧ ∀ p', p' ≠ p → c ∉ s.childIds p' := by
  obtain ⟨q, hq, b, hb, rfl⟩ := exists_below_of_pos hpos hc
  have hparent := parent?_of_below hq hb
  refine ⟨q.id, ?_, fun p' hne hmem ↦ hne ?_⟩
  · rw [(s.nodup_childIds q.id).count, if_pos (mem_childIds_iff_parent?.2 hparent)]
  · rw [mem_childIds_iff_parent?, hparent] at hmem
    exact (Option.some.inj hmem).symm

end Script

/-- A statement put together from what its slot says and from what its children were read as. -/
def Slot.assemble (slot : Slot) (below : List Statement) : Option Statement :=
  match slot.node, below with
  | .sequence _, body => some (.sequence slot.location body)
  | .branch c _ _, [yes, no] => some (.branch slot.location c yes (some no))
  | .loop c _, [body] => some (.loop slot.location c body)
  | .leave, [] => some (.leave slot.location)
  | .assign n e, [] => some (.assign slot.location n e)
  | .print e, [] => some (.print slot.location e)
  | .void, [] => some (.void slot.location)
  | .action a e, [] => some (.action slot.location a e)
  | _, _ => none

namespace Arena

open Statement
open Script (ofStatements sizeAll numbered neighbours)

/-- Reads a statement through the links to children, at most `depth` of them deep. -/
def readFrom (a : Arena) : (depth id : Nat) → Option Statement
  | 0, _ => none
  | depth + 1, id => do
    let slot ← a.slot? id
    slot.assemble (← slot.node.children.mapM (a.readFrom depth))

def readBack (a : Arena) : Option Statement := a.readFrom a.size a.root

def LoopAt (a : Arena) (id : Nat) : Prop := ∃ slot, a.slot? id = some slot ∧ slot.node.isLoop = true

variable {a : Arena} {s : Script} {q : Site}

/-- From a site of the statement `d` on, the slots tell `d`. -/
def Tells (a : Arena) (s : Script) (d : Statement) : Prop :=
  ∀ q ∈ s.sites, q.script = Script.ofStatement d → ∀ depth, q.script.size ≤ depth →
    a.readFrom depth q.id = some d.filled

theorem readFrom_neighbours {ds : List Statement} (h : ∀ d ∈ ds, a.Tells s d) {first depth : Nat}
    {above : List Ancestor} (hsites : neighbours first above (ofStatements ds) ⊆ s.sites)
    (hdepth : sizeAll (ofStatements ds) ≤ depth) :
    (numbered first (ofStatements ds)).mapM (a.readFrom depth) = some (filledAll ds) := by
  induction ds generalizing first with
  | nil => rfl
  | cons d ds ih =>
    obtain ⟨hd, hds⟩ := List.forall_mem_cons.1 h
    rw [ofStatements, neighbours, List.cons_subset] at hsites
    rw [ofStatements, sizeAll] at hdepth
    have hhead := hd _ hsites.1 rfl depth (by simp only; omega)
    have htail := ih hds hsites.2 (by omega)
    rw [ofStatements, numbered, List.mapM_cons, hhead, htail]
    rfl

theorem tells_of_children (hlays : a.Lays s) {d : Statement} (ds : List Statement)
    (hchildren : (Script.ofStatement d).children = ofStatements ds) (h : ∀ d ∈ ds, a.Tells s d)
    (hassemble : ∀ id above,
      (Site.slot ⟨id, Script.ofStatement d, above⟩).assemble (filledAll ds) = some d.filled) :
    a.Tells s d := by
  rintro ⟨id, script, above⟩ hq rfl depth hdepth
  have hsites : neighbours (id + 1) (⟨id, (Script.ofStatement d).isLoop⟩ :: above) (ofStatements ds) ⊆
      s.sites := by
    rw [← hchildren]
    exact fun c hc ↦ Script.mem_sites_of_below hq hc
  have hids : (Site.slot ⟨id, Script.ofStatement d, above⟩).node.children =
      numbered (id + 1) (ofStatements ds) := by
    rw [← hchildren]
    exact Site.children_node _
  rw [Script.size_eq, hchildren] at hdepth
  cases depth with
  | zero => omega
  | succ depth =>
    have hread := readFrom_neighbours h hsites (Nat.le_of_succ_le_succ hdepth)
    rw [readFrom, hlays.slot?_of_mem hq, Option.bind_eq_bind, Option.bind_some, hids, hread]
    exact hassemble id above

theorem tells (hlays : a.Lays s) (d : Statement) : a.Tells s d := by
  induction d with
  | sequence loc body ih => exact tells_of_children hlays body rfl ih fun _ _ ↦ rfl
  | branch loc c yes no ihy ihn =>
    have hvoid : a.Tells s (.void loc) :=
      tells_of_children hlays [] rfl (List.forall_mem_nil _) fun _ _ ↦ rfl
    cases no with
    | none =>
      exact tells_of_children hlays [yes, .void loc] rfl (by simp [ihy, hvoid]) fun _ _ ↦ rfl
    | some no =>
      exact tells_of_children hlays [yes, no] rfl (by simp [ihy, ihn no rfl]) fun _ _ ↦ rfl
  | loop loc c body ih => exact tells_of_children hlays [body] rfl (by simp [ih]) fun _ _ ↦ rfl
  | leave | assign | print | void | action =>
    exact tells_of_children hlays [] rfl (List.forall_mem_nil _) fun _ _ ↦ rfl

theorem map_readFrom (d : Statement) :
    (List.range (ofStatement d).size).map ((ofStatement d).readFrom (ofStatement d).size) =
      (d.filled.parts false).map fun p ↦ some p.statement := by
  have hlays := lays_ofStatement d
  have hscripts := Script.map_script_sitesFrom d false 0 []
  have hids : List.range (ofStatement d).size = (Script.ofStatement d).sites.map (·.id) := by
    rw [hlays.size, Script.sites, Script.sitesFrom_ids, List.range_eq_range']
  rw [hids, List.map_map]
  refine List.ext_getElem? fun i ↦ ?_
  have hi := congrArg (·[i]?) hscripts
  simp only [List.getElem?_map] at hi ⊢
  change ((Script.ofStatement d).sites[i]?).map _ = _ at hi
  cases hq : (Script.ofStatement d).sites[i]? with
  | none =>
    rw [hq, Option.map_none, eq_comm, Option.map_eq_none_iff] at hi
    rw [hi]
    rfl
  | some q =>
    rw [hq, Option.map_some, eq_comm, Option.map_eq_some_iff] at hi
    obtain ⟨p, hp, hscript⟩ := hi
    have hmem := List.mem_of_getElem? hq
    have hend := Script.end_le_size _ q hmem
    have hfilled := filled_parts d false p (List.mem_of_getElem? hp)
    have hread := tells hlays p.statement q hmem hscript.symm (ofStatement d).size
      (by rw [hlays.size]; omega)
    rw [hfilled] at hread
    rw [hp, Option.map_some, Option.map_some]
    exact congrArg some hread

theorem Lays.loopAt (h : a.Lays s) : a.LoopAt = s.LoopAt := by
  funext id
  rw [LoopAt, Script.LoopAt, h.slot?]
  cases s.site? id with
  | none => simp
  | some q => simp [Site.slot]

/-- The slots of an arena are the statements of a script laid flat. -/
structure Flattens (a : Arena) (d : Statement) : Prop where
  root : a.root = 0 ∧ a.parent? 0 = none
  readBack : a.readBack = some d.filled
  order : (List.range a.size).map (a.readFrom a.size) =
    (d.filled.parts false).map fun p ↦ some p.statement
  length : a.size = (d.parts false).length + (d.parts false).countP (·.statement.lacksElse)
  linked : ∀ p c, c ∈ a.childIds p ↔ a.parent? c = some p
  once : ∀ c, 0 < c → c < a.size →
    ∃ p, (a.childIds p).count c = 1 ∧ ∀ p', p' ≠ p → c ∉ a.childIds p'
  increasing : ∀ p c, c ∈ a.childIds p → p < c
  /-- What the links lead to from a statement is a block of numbers, and the stack goes through it. -/
  block : ∀ id, id < a.size → ∃ n, (a.descendantIds id).Perm (List.range' id n) ∧
    (∀ fuel, a.size < fuel → a.gather fuel [id] = some (a.descendantIds id)) ∧
    ∀ j, Spanned a.childIds id j ↔ id ≤ j ∧ j < id + n
  loop : ∀ id, id < a.size → NearestLoop a.parent? a.LoopAt id (a.loopAround? id) ∧
    ∀ fuel, a.size ≤ fuel → a.loopFrom fuel (a.parent? id) = some (a.loopAround? id)

/-- The arena and the script give every number the same links. -/
structure Agrees (a : Arena) (s : Script) : Prop where
  size : a.size = s.size
  parent? : a.parent? = s.parent?
  childIds : a.childIds = s.childIds
  descendantIds : a.descendantIds = s.descendantIds
  loopAround? : a.loopAround? = s.loopAround?

theorem flattens_ofStatement (d : Statement) : (ofStatement d).Flattens d := by
  have hlays := lays_ofStatement d
  constructor
  · exact ⟨hlays.root, by rw [hlays.parent?, Script.parent?_zero]⟩
  · rw [Arena.readBack, hlays.root]
    exact tells hlays d _ (Script.root_mem_sites _) rfl _ (Nat.le_of_eq hlays.size.symm)
  · exact map_readFrom d
  · exact hlays.size.trans (Script.size_ofStatement d false)
  · rw [hlays.childIds, hlays.parent?]
    exact fun p c ↦ Script.mem_childIds_iff_parent?
  · rw [hlays.childIds, hlays.size]
    exact fun c ↦ Script.exists_parent
  · rw [hlays.childIds]
    exact fun p c ↦ Script.lt_of_mem_childIds
  · intro id hid
    rw [hlays.size] at hid
    obtain ⟨n, hperm, hspans⟩ := Script.exists_block hid
    rw [hlays.childIds, hlays.descendantIds]
    exact ⟨n, hperm, fun fuel ↦ hlays.gather_singleton id, hspans⟩
  · intro id hid
    rw [hlays.size] at hid
    obtain ⟨q, hq, -, rfl⟩ := Script.exists_site hid
    rw [hlays.loopAround?]
    refine ⟨?_, fun fuel ↦ hlays.loopFrom_parent? q.id⟩
    rw [hlays.parent?, hlays.loopAt]
    exact Script.isNearestLoop_loopAround? _ q hq

/-- A script that is accepted lies flat in its arena, and has the links that are stored there. -/
theorem build_flattens {d : Statement} {s : Script} (h : Script.build d = .ok s) :
    (ofStatement d).Flattens d ∧ (ofStatement d).Agrees s := by
  obtain ⟨rfl, -⟩ := Script.check_of_build h
  have hlays := lays_ofStatement d
  exact ⟨flattens_ofStatement d, hlays.size, hlays.parent?, hlays.childIds, hlays.descendantIds,
    hlays.loopAround?⟩

/-- The `if` has no `else`, and a statement of its own is made up for it. -/
theorem build_flattens_watch :
    let watch : Statement := .loop {} (.boolean true) (.sequence {}
      [.branch ⟨2, 5⟩ (.boolean false) (.leave ⟨3, 9⟩) none, .action {} .moveTo (.position ⟨1, 0, 0⟩)])
    let a := ofStatement watch
    a.slots.toList.map (fun slot ↦ (slot.node.children, slot.parent)) =
        [([1], none), ([2, 5], some 0), ([3, 4], some 1), ([], some 2), ([], some 2), ([], some 1)] ∧
      a.slot? 4 = some ⟨.void, ⟨2, 5⟩, some 2⟩ ∧ a.descendantIds 1 = [1, 5, 2, 4, 3] ∧
      a.loopAround? 3 = some 0 ∧ ∃ s, Script.build watch = .ok s ∧ a.Flattens watch ∧ a.Agrees s :=
  ⟨rfl, rfl, rfl, rfl, _, rfl, build_flattens rfl⟩

end Arena

end Errand
