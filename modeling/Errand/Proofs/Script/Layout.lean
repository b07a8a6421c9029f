import Errand.Proofs.Effect
import Errand.Proofs.Script.Links
import Errand.Script.Arena

namespace Errand

namespace Site

def node (q : Site) : Node :=
  match q.script with
  | .sequence _ _ => .sequence q.children
  | .branch _ c yes _ => .branch c (q.id + 1) (q.id + 1 + yes.size)
  | .loop _ c _ => .loop c (q.id + 1)
  | .leave _ => .leave
  | .assign _ n e => .assign n e
  | .print _ e => .print e
  | .void _ => .void
  | .action _ a e => .action a e

def slot (q : Site) : Slot := ⟨q.node, q.script.location, q.parent?⟩

@[simp]
theorem children_node (q : Site) : q.node.children = q.children := by
  rcases q with ⟨id, s, above⟩
  cases s <;> rfl

@[simp]
theorem isLoop_node (q : Site) : q.node.isLoop = q.script.isLoop := by
  rcases q with ⟨id, s, above⟩
  cases s <;> rfl

def check (q : Site) : Except ScriptError Unit := q.slot.check q.loop?.isSome

end Site

namespace Arena

open Script (sitesFrom sitesAll ofStatements ofBranch numbered)

theorem modify_append_cons (l : List Slot) (x : Slot) (rest : List Slot) (f : Slot → Slot) :
    (l ++ x :: rest).modify l.length f = l ++ f x :: rest := by
  induction l with
  | nil => rfl
  | cons y l ih => rw [List.cons_append, List.length_cons, List.modify_succ_cons, ih, List.cons_append]

theorem run_bind {α β : Type} {x : StateM (Array Slot) α} {f : α → StateM (Array Slot) β}
    {slots slots' : Array Slot} {a : α} (h : x.run slots = (a, slots')) :
    (x >>= f).run slots = (f a).run slots' := by
  rw [StateT.run_bind, h]
  rfl

theorem place_run {parent : Option Nat} {loc : Location} {node : Nat → StateM (Array Slot) Node}
    {l rest : List Slot} {n : Node}
    (h : (node l.length).run (l ++ [Slot.mk .void loc parent]).toArray =
      (n, (l ++ [Slot.mk .void loc parent] ++ rest).toArray)) :
    (place parent loc node).run l.toArray = (l.length, (l ++ ⟨n, loc, parent⟩ :: rest).toArray) := by
  have htake : (modifyGet fun slots ↦ (slots.size, slots.push ⟨.void, loc, parent⟩) :
      StateM (Array Slot) Nat).run l.toArray =
      (l.length, (l ++ [Slot.mk .void loc parent]).toArray) := by
    rw [← List.push_toArray]
    rfl
  rw [place, run_bind htake, run_bind h]
  change (l.length, (l ++ [Slot.mk .void loc parent] ++ rest).toArray.modify l.length _) = _
  rw [List.append_assoc, List.singleton_append, List.modify_toArray, modify_append_cons]

theorem place_leaf_run (parent : Option Nat) (loc : Location) (n : Node) (l : List Slot) :
    (place parent loc fun _ ↦ return n).run l.toArray =
      (l.length, (l ++ [Slot.mk n loc parent]).toArray) := by
  apply place_run
  rw [List.append_nil]
  rfl

/-- The script takes a slot for each of its sites, behind the slots that are taken. -/
def Takes (x : StateM (Array Slot) Nat) (s : Script) (above : List Ancestor) : Prop :=
  ∀ l : List Slot, x.run l.toArray =
    (l.length, (l ++ (s.sitesFrom l.length above).map Site.slot).toArray)

theorem length_append_sites (l : List Slot) (s : Script) (above : List Ancestor) :
    (l ++ (s.sitesFrom l.length above).map Site.slot).length = l.length + s.size := by
  rw [List.length_append, List.length_map, Script.length_sitesFrom]

theorem Takes.both {x y : StateM (Array Slot) Nat} {s t : Script} {above : List Ancestor}
    (hx : Takes x s above) (hy : Takes y t above) (f : Nat → Nat → Node) (l : List Slot) :
    (do let i ← x; return f i (← y) : StateM (Array Slot) Node).run l.toArray =
      (f l.length (l.length + s.size), (l ++ (s.sitesFrom l.length above ++
        t.sitesFrom (l.length + s.size) above).map Site.slot).toArray) := by
  have hsecond := hy (l ++ (s.sitesFrom l.length above).map Site.slot)
  rw [length_append_sites, List.append_assoc, ← List.map_append] at hsecond
  rw [run_bind (hx l), run_bind hsecond]
  rfl

theorem insertAll_run {ds : List Statement} {parent : Ancestor} {above : List Ancestor}
    (h : ∀ d ∈ ds, Takes (insert (some parent.id) d) (Script.ofStatement d) (parent :: above))
    (l : List Slot) :
    (insertAll parent.id ds).run l.toArray =
      (numbered l.length (ofStatements ds),
        (l ++ (sitesAll l.length (parent :: above) (ofStatements ds)).map Site.slot).toArray) := by
  induction ds generalizing l with
  | nil =>
    rw [ofStatements, sitesAll, List.map_nil, List.append_nil]
    rfl
  | cons d ds ih =>
    obtain ⟨hd, hds⟩ := List.forall_mem_cons.1 h
    have hrest := ih hds
      (l ++ ((Script.ofStatement d).sitesFrom l.length (parent :: above)).map Site.slot)
    rw [length_append_sites, List.append_assoc, ← List.map_append] at hrest
    rw [insertAll, run_bind (hd l), run_bind hrest]
    rfl

theorem takes_insert (d : Statement) (above : List Ancestor) :
    Takes (insert (above.head?.map (·.id)) d) (Script.ofStatement d) above := by
  induction d generalizing above with
  | sequence loc body ih =>
    intro l
    have hbody := insertAll_run (fun d hd ↦ ih d hd (⟨l.length, false⟩ :: above))
      (l ++ [⟨.void, loc, above.head?.map (·.id)⟩])
    rw [List.length_append, List.length_singleton] at hbody
    rw [insert]
    exact place_run ((run_bind hbody).trans rfl)
  | branch loc c yes no ihy ihn =>
    intro l
    have helse : Takes (insertElse l.length loc no) (ofBranch loc no) (⟨l.length, false⟩ :: above) := by
      cases no with
      | none => exact place_leaf_run _ loc .void
      | some no => exact ihn no rfl (⟨l.length, false⟩ :: above)
    have hboth := (ihy (⟨l.length, false⟩ :: above)).both helse (.branch c)
      (l ++ [⟨.void, loc, above.head?.map (·.id)⟩])
    rw [List.length_append, List.length_singleton] at hboth
    rw [insert]
    exact place_run hboth
  | loop loc c body ih =>
    intro l
    have hbody := ih (⟨l.length, true⟩ :: above) (l ++ [⟨.void, loc, above.head?.map (·.id)⟩])
    rw [List.length_append, List.length_singleton] at hbody
    rw [insert]
    exact place_run ((run_bind hbody).trans rfl)
  | leave | assign | print | void | action => exact place_leaf_run _ _ _

/-- The arena holds the sites of a script, each in the slot that has its number. -/
structure Lays (a : Arena) (s : Script) : Prop where
  root : a.root = 0
  slots : a.slots.toList = s.sites.map Site.slot

theorem lays_ofStatement (d : Statement) : (ofStatement d).Lays (Script.ofStatement d) := by
  have hrun : (insert none d).run #[] = (0, ((Script.ofStatement d).sites.map Site.slot).toArray) :=
    takes_insert d [] []
  rw [ofStatement, hrun]
  exact ⟨rfl, rfl⟩

namespace Lays

variable {a : Arena} {s : Script} {q c : Site}

theorem size (h : a.Lays s) : a.size = s.size := by
  rw [Arena.size, ← Array.length_toList, h.slots, List.length_map, Script.sites_length]

theorem slot? (h : a.Lays s) (id : Nat) : a.slot? id = (s.site? id).map Site.slot := by
  rw [Arena.slot?, ← Array.getElem?_toList, h.slots, List.getElem?_map, Script.site?]

theorem slot?_of_mem (h : a.Lays s) (hq : q ∈ s.sites) : a.slot? q.id = some q.slot := by
  rw [h.slot?, Script.site?_of_mem hq, Option.map_some]

theorem parent? (h : a.Lays s) : a.parent? = s.parent? := by
  funext id
  rw [Arena.parent?, h.slot?, Script.parent?]
  cases s.site? id <;> rfl

theorem childIds (h : a.Lays s) : a.childIds = s.childIds := by
  funext id
  rw [Arena.childIds, h.slot?, Script.childIds]
  cases s.site? id with
  | none => rfl
  | some q => exact q.children_node

-- A parent's number is smaller than its child's, and so is the fuel that the rest of the way takes.
theorem loopFrom (h : a.Lays s) : ∀ c ∈ s.sites, ∀ fuel, c.id < fuel →
    a.loopFrom fuel (s.parent? c.id) = some (s.loopAround? c.id) := by
  apply Script.sitesInduction
  · intro fuel hfuel
    obtain ⟨fuel, rfl⟩ := Nat.exists_eq_add_one_of_ne_zero (Nat.ne_of_gt hfuel)
    rw [Script.parent?_zero, Script.loopAround?_root, Arena.loopFrom]
  · intro q hq ih c hc fuel hfuel
    obtain ⟨fuel, rfl⟩ := Nat.exists_eq_add_one_of_ne_zero (Nat.ne_zero_of_lt hfuel)
    have hlt : q.id < c.id := (Script.of_mem_below hc).2.2.1
    have hup : q.slot.parent = s.parent? q.id := by
      rw [Script.parent?, Script.site?_of_mem hq]
      rfl
    rw [Script.parent?_of_below hq hc, Script.loopAround?_below hq hc, Arena.loopFrom,
      h.slot?_of_mem hq]
    simp only [hup, ih fuel (by omega)]
    change (if q.node.isLoop then some (some q.id) else _) = _
    rw [q.isLoop_node]
    split <;> rfl

theorem gather_stack (h : a.Lays s) (fuel : Nat) (stack : List Site) (hstack : ∀ q ∈ stack, q ∈ s.sites)
    (hfuel : Script.sizeAll (stack.map (·.script)) < fuel) :
    a.gather fuel (stack.map (·.id)) = some (stack.flatMap fun q ↦ q.script.descendants q.id) := by
  induction fuel generalizing stack with
  | zero => omega
  | succ fuel ih =>
    cases stack with
    | nil => rfl
    | cons q stack =>
      obtain ⟨hq, hstack⟩ := List.forall_mem_cons.1 hstack
      have hids : (a.childIds q.id).reverse ++ stack.map (·.id) =
          (q.below.reverse ++ stack).map (·.id) := by
        rw [h.childIds, Script.childIds_eq hq, ← List.map_reverse, List.map_append]
      have hbelow := ih (q.below.reverse ++ stack) ?_ ?_
      · rw [List.map_cons, Arena.gather, hids, hbelow, List.flatMap_cons, List.flatMap_append,
          q.script.descendants_eq, Script.descendantsAll_eq _ (q.ancestor :: q.above)]
        rfl
      · intro c hc
        rcases List.mem_append.1 hc with hc | hc
        · exact Script.mem_sites_of_below hq (List.mem_reverse.1 hc)
        · exact hstack c hc
      · rw [List.map_cons, Script.sizeAll, q.script.size_eq] at hfuel
        rw [List.map_append, Script.sizeAll_append, List.map_reverse, Script.sizeAll_reverse,
          Site.below, Script.map_script_neighbours]
        omega

theorem gather (h : a.Lays s) (hq : q ∈ s.sites) {fuel : Nat} (hfuel : q.script.size < fuel) :
    a.gather fuel [q.id] = some (q.script.descendants q.id) := by
  have hstack := h.gather_stack fuel [q] (List.forall_mem_singleton.2 hq) hfuel
  rwa [List.map_singleton, List.flatMap_singleton] at hstack

theorem loopFrom_parent? (h : a.Lays s) (id : Nat) {fuel : Nat} (hfuel : a.size ≤ fuel) :
    a.loopFrom fuel (a.parent? id) = some (s.loopAround? id) := by
  rw [h.parent?]
  rw [h.size] at hfuel
  by_cases hid : id < s.size
  · obtain ⟨q, hq, -, rfl⟩ := Script.exists_site hid
    exact h.loopFrom q hq fuel (by omega)
  · have hnone := Script.site?_eq_none (Nat.le_of_not_lt hid)
    have hpos := s.size_pos
    obtain ⟨fuel, rfl⟩ := Nat.exists_eq_add_one_of_ne_zero (Nat.ne_of_gt (Nat.lt_of_lt_of_le hpos hfuel))
    rw [Script.parent?, Script.loopAround?, hnone, Option.bind_none, Option.bind_none, Arena.loopFrom]

theorem gather_singleton (h : a.Lays s) (id : Nat) {fuel : Nat} (hfuel : a.size < fuel) :
    a.gather fuel [id] = some (s.descendantIds id) := by
  rw [h.size] at hfuel
  by_cases hid : id < s.size
  · obtain ⟨q, hq, hsite, rfl⟩ := Script.exists_site hid
    have hend := s.end_le_size q hq
    rw [h.gather hq (by omega), Script.descendantIds, hsite]
  · have hnone := Script.site?_eq_none (Nat.le_of_not_lt hid)
    have hpos := s.size_pos
    obtain ⟨fuel, rfl⟩ : ∃ n, fuel = n + 2 := ⟨fuel - 2, by omega⟩
    rw [Arena.gather, h.childIds, Script.childIds, Script.descendantIds, hnone]
    rfl

theorem loopAround? (h : a.Lays s) : a.loopAround? = s.loopAround? := by
  funext id
  rw [Arena.loopAround?, h.loopFrom_parent? id (Nat.le_succ _), Option.join_some]

theorem descendantIds (h : a.Lays s) : a.descendantIds = s.descendantIds := by
  funext id
  rw [Arena.descendantIds, h.gather_singleton id (Nat.lt_succ_self _), Option.getD_some]

theorem check (h : a.Lays s) : a.check = s.sites.forM Site.check := by
  have hids : List.range a.size = s.sites.map (·.id) := by
    rw [h.size, Script.sites, Script.sitesFrom_ids, List.range_eq_range']
  rw [Arena.check, hids, List.forM_eq_forM, List.forM_map]
  refine forM_congr fun q hq ↦ ?_
  rw [h.slot?_of_mem hq, h.loopAround?, Script.loopAround?, Script.site?_of_mem hq]
  rfl

end Lays

end Arena

theorem Script.build_eq_check (d : Statement) :
    build d = (do (ofStatement d).sites.forM Site.check; return ofStatement d) := by
  rw [build, (Arena.lays_ofStatement d).check]

end Errand
