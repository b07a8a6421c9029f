import Errand.Proofs.Run.Breaks
import Errand.Proofs.Run.Steps
import Errand.Proofs.Script.Layout

namespace Errand

variable {ω ρ α β : Type}

/-- Steps of a script that may run out of fuel. A walk that goes on for ever runs out of any. -/
abbrev Walk (ω ρ : Type) := ExceptT EvalError (StateT (Machine ω ρ) Option)

def Node.isAction : Node → Bool
  | action _ _ => true
  | _ => false

namespace Walk

open Exec

def result : EStateM.Result EvalError (Machine ω ρ) α → Except EvalError α × Machine ω ρ
  | .ok a m => (.ok a, m)
  | .error e m => (.error e, m)

def ofExec (x : Exec ω ρ α) : Walk ω ρ α := fun m ↦ some (result (x m))

def ofOption (x : Option α) : Walk ω ρ α := fun m ↦ x.map fun a ↦ (.ok a, m)

/-- Goes from a number up to `target`, and clears every mark before it. -/
def clearUpTo (a : Arena) (target : Nat) :
    (fuel : Nat) → Marks → (cursor : Option Nat) → Option Marks
  | 0, _, _ => none
  | _ + 1, k, none => some k
  | fuel + 1, k, some id =>
    if id = target then some k else clearUpTo a target fuel (k.set id {}) (a.parent? id)

/-- Goes down from one started statement to the next, and asks whether the last one is an action
whose command has gone out. -/
def awaits (a : Arena) (k : Marks) : (fuel id : Nat) → Option Bool
  | 0, _ => none
  | fuel + 1, id =>
    if k.pending id then
      match (a.childIds id).find? k.pending with
      | some next => awaits a k fuel next
      | none => some ((a.slot? id).any (·.node.isAction) && (k.get id).issued)
    else some false

def performBreak (a : Arena) (fuel id : Nat) : Walk ω ρ Outcome := do
  if ← ofExec spend then
    match ← ofOption (a.loopFrom fuel (a.parent? id)) with
    | none => throw (.malformed (.loneBreak id))
    | some target =>
      let m ← get
      set { m with marks := ← ofOption (clearUpTo a target fuel m.marks (some id)) }
      return .broke target
  else return .suspended

variable [World ω] [Chance ρ]

def release (a : Arena) (actor : Actor) (fuel id : Nat) (side : Branch → Nat) : Walk ω ρ Unit := do
  match (← ofExec (mark id)).branch with
  | none => return
  | some b =>
    let m ← get
    let waits ← ofOption (awaits a m.marks fuel (side b))
    if waits && World.helpless m.world actor.unit then
      ofExec (clearMarks (← ofOption (a.gather fuel [side b])))
      ofExec (updateMark id ({ · with branch := none }))

mutual

def perform (a : Arena) (actor : Actor) : (fuel id : Nat) → Walk ω ρ Outcome
  | 0, _ => ofOption none
  | fuel + 1, id =>
    match a.slot? id with
    | none => throw (.malformed (.unknownStatement id))
    | some slot => do
      ofExec (updateMark id ({ · with pending := true }))
      let outcome ← performNode a actor fuel id slot.node
      if outcome = .completed then
        ofExec (clearMarks [id])
      return outcome

def performNode (a : Arena) (actor : Actor) : (fuel id : Nat) → Node → Walk ω ρ Outcome
  | 0, _, _ => ofOption none
  | fuel + 1, id, .sequence children => performChildren a actor fuel id children
  | fuel + 1, id, .branch c yes no => do
    release a actor fuel id fun
      | .yes => yes
      | .no => no
    match ← ofExec (chosenBranch actor id c) with
    | none => return .suspended
    | some .yes => perform a actor fuel yes
    | some .no => perform a actor fuel no
  | fuel + 1, id, .loop c body => performTurns a actor fuel id c body
  | fuel + 1, id, .leave => performBreak a fuel id
  | _ + 1, _, .assign name e => ofExec (assignment actor name e)
  | _ + 1, _, .print e => ofExec (printing actor e)
  | _ + 1, _, .void => return .completed
  | _ + 1, id, .action command target => ofExec (act actor id command target)

def performChildren (a : Arena) (actor : Actor) :
    (fuel id : Nat) → (children : List Nat) → Walk ω ρ Outcome
  | 0, _, _ => ofOption none
  | fuel + 1, id, children => do
    let own ← ofExec (mark id)
    match children[own.cursor]? with
    | none => return .completed
    | some child =>
      match ← perform a actor fuel child with
      | .completed =>
        ofExec (updateMark id ({ · with cursor := own.cursor + 1 }))
        performChildren a actor fuel id children
      | other => return other

def performTurns (a : Arena) (actor : Actor) :
    (fuel id : Nat) → (condition : Expr) → (body : Nat) → Walk ω ρ Outcome
  | 0, _, _, _ => ofOption none
  | fuel + 1, id, condition, body => do
    match ← ofExec (nextTurn actor id condition) with
    | none => return .suspended
    | some false => return .completed
    | some true =>
      match ← perform a actor fuel body with
      | .completed =>
        ofExec (updateMark id ({ · with owesTurn := false }))
        performTurns a actor fuel id condition body
      | .suspended => return .suspended
      | .broke loop => return if loop = id then .completed else .broke loop

end

end Walk

/-- With fuel enough there is an answer, and it is this one. -/
def Settles (x : Nat → Option β) (b : β) : Prop := ∃ least, ∀ fuel, least ≤ fuel → x fuel = some b

namespace Settles

variable {x : Nat → Option β} {b : β}

theorem const (b : β) : Settles (fun _ ↦ some b) b := ⟨0, fun _ _ ↦ rfl⟩

theorem of_succ (h : Settles (fun fuel ↦ x (fuel + 1)) b) : Settles x b := by
  obtain ⟨least, h⟩ := h
  refine ⟨least + 1, fun fuel hfuel ↦ ?_⟩
  obtain ⟨n, rfl⟩ := Nat.exists_eq_add_of_le' (Nat.le_of_add_left_le hfuel)
  exact h n (Nat.le_of_succ_le_succ hfuel)

theorem bind {γ : Type} {f : Nat → β → Option γ} {c : γ} (h : Settles x b) (hf : Settles (f · b) c) :
    Settles (fun fuel ↦ (x fuel).bind (f fuel)) c := by
  obtain ⟨least, h⟩ := h
  obtain ⟨least', hf⟩ := hf
  refine ⟨max least least', fun fuel hfuel ↦ ?_⟩
  have hx : x fuel = some b := h fuel (by omega)
  have hc : f fuel b = some c := hf fuel (by omega)
  simp only [hx, Option.bind_some, hc]

end Settles

namespace Script

open Walk

variable {a : Arena} {s : Script} {q c : Site} {k : Marks}

theorem settles_loopFrom (ha : a.Lays s) (id : Nat) :
    Settles (a.loopFrom · (a.parent? id)) (s.loopAround? id) :=
  ⟨a.size, fun _ hfuel ↦ ha.loopFrom_parent? id hfuel⟩

theorem ne_loopAround? (hc : c ∈ s.sites) (hloop : c.script.isLoop = false) {target : Nat}
    (h : s.loopAround? c.id = some target) : c.id ≠ target := by
  rintro rfl
  have hnear := isNearestLoop_loopAround? s c hc
  rw [h] at hnear
  obtain ⟨-, hat, -⟩ := hnear
  rw [loopAt_iff hc, hloop] at hat
  cases hat

theorem settles_clearUpTo (ha : a.Lays s) (target : Nat) :
    ∀ c ∈ s.sites, c.script.isLoop = false → s.loopAround? c.id = some target → ∀ k,
      Settles (clearUpTo a target · k (some c.id)) (k.clear (c.id :: withinLoop c.above)) := by
  apply sitesInduction
  · intro _ h
    rw [loopAround?_root] at h
    cases h
  · intro q hq ih c hc hloop h k
    apply Settles.of_succ
    simp only [clearUpTo, ne_loopAround? (mem_sites_of_below hq hc) hloop h, if_false]
    rw [ha.parent?, parent?_of_below hq hc, (of_mem_below hc).1, Site.ancestor]
    rw [loopAround?_below hq hc] at h
    cases hup : q.script.isLoop with
    | true =>
      -- The way ends at the parent.
      rw [hup, if_pos rfl, Option.some.injEq] at h
      apply Settles.of_succ
      simp only [clearUpTo, h, if_true]
      exact .const (k.set c.id {})
    | false =>
      rw [hup, if_neg Bool.false_ne_true] at h
      rw [withinLoop_cons_false]
      exact ih hup h (k.set c.id {})

theorem awaitsAmong_eq (k : Marks) (first : Nat) (above : List Ancestor) (ss : List Script) :
    awaitsAmong k ss first =
      ((neighbours first above ss).find? (k.pending ·.id)).any (fun c ↦ c.script.awaits k c.id) := by
  induction ss generalizing first with
  | nil => rfl
  | cons s ss ih =>
    rw [awaitsAmong, neighbours, List.find?_cons]
    cases hp : k.pending first with
    | true => simp
    | false => simp [ih]

theorem awaits_eq (hp : k.pending q.id = true) :
    q.script.awaits k q.id =
      match q.below.find? (k.pending ·.id) with
      | some c => c.script.awaits k c.id
      | none => q.sent k := by
  rcases q with ⟨id, t, above⟩
  have hp : k.pending id = true := hp
  -- A child that is not started awaits nothing.
  have hchild : ∀ (c : Script) (j : Nat), k.pending j = false → c.awaits k j = false :=
    fun c j ↦ awaits_of_not_pending c
  cases t with
  | sequence loc body =>
    rw [Site.below, awaits, hp, Bool.true_and, awaitsAmong_eq k _ (⟨id, false⟩ :: above)]
    simp only [children, Site.ancestor, isLoop, Site.sent]
    cases (neighbours (id + 1) (⟨id, false⟩ :: above) body).find? (k.pending ·.id) <;> rfl
  | branch loc c yes no =>
    simp only [Site.below, awaits, hp, Bool.true_and, children, neighbours, List.find?_cons, List.find?_nil]
    cases hy : k.pending (id + 1) with
    | true => simp
    | false =>
      cases hn : k.pending (id + 1 + yes.size) with
      | true => simp
      | false => simp [hchild no _ hn, Site.sent]
  | loop loc c body =>
    simp only [Site.below, awaits, hp, Bool.true_and, children, neighbours, List.find?_cons, List.find?_nil]
    cases hb : k.pending (id + 1) with
    | true => simp
    | false => simp [hchild body _ hb, Site.sent]
  | action loc a e => simp [Site.below, awaits, hp, children, neighbours, Site.sent]
  | leave | assign | print | void => simp [Site.below, awaits, children, neighbours, Site.sent]

theorem find?_childIds (ha : a.Lays s) (k : Marks) (hq : q ∈ s.sites) :
    (a.childIds q.id).find? k.pending = (q.below.find? (k.pending ·.id)).map (·.id) := by
  rw [ha.childIds, childIds_eq hq, List.find?_map]
  rfl

theorem sent_eq (ha : a.Lays s) (k : Marks) (hq : q ∈ s.sites) :
    ((a.slot? q.id).any (·.node.isAction) && (k.get q.id).issued) = q.sent k := by
  rw [ha.slot?_of_mem hq, Option.any_some, Site.slot, Site.sent, Site.node]
  cases q.script <;> simp [Node.isAction]

theorem settles_awaits (ha : a.Lays s) (k : Marks) (t : Script) (id : Nat) (above : List Ancestor)
    (hq : ⟨id, t, above⟩ ∈ s.sites) : Settles (Walk.awaits a k · id) (t.awaits k id) := by
  induction t using childrenInduction generalizing id above with
  | h t ih =>
    apply Settles.of_succ
    cases hp : k.pending id with
    | false =>
      simp only [Walk.awaits, hp, Bool.false_eq_true, if_false, awaits_of_not_pending t hp]
      exact .const false
    | true =>
      have hdown := awaits_eq (q := ⟨id, t, above⟩) hp
      have hnext := find?_childIds ha k hq
      have hsent := sent_eq ha k hq
      simp only at hdown hnext hsent
      cases hfind : (Site.below ⟨id, t, above⟩).find? (k.pending ·.id) with
      | none =>
        rw [hfind] at hdown hnext
        simp only [Walk.awaits, hp, if_true, hnext, Option.map_none, hsent, hdown]
        exact .const _
      | some c =>
        have hc := List.mem_of_find?_eq_some hfind
        rw [hfind] at hdown hnext
        simp only [Walk.awaits, hp, if_true, hnext, Option.map_some, hdown]
        exact ih c.script (of_mem_below hc).2.1 c.id c.above (mem_sites_of_below hq hc)

theorem settles_gather (ha : a.Lays s) (hq : q ∈ s.sites) :
    Settles (a.gather · [q.id]) (q.script.descendants q.id) :=
  ⟨q.script.size + 1, fun _ hfuel ↦ ha.gather hq hfuel⟩

end Script

namespace Walk

open Exec

theorem bind_apply (x : Walk ω ρ α) (f : α → Walk ω ρ β) (m : Machine ω ρ) :
    (x >>= f) m = (x m).bind fun
      | (.ok a, m') => f a m'
      | (.error e, m') => some (.error e, m') := by
  change (x m).bind _ = _
  congr 1
  funext r
  rcases r with ⟨_ | _, _⟩ <;> rfl

/-- From `m`, and with fuel enough, the walk ends, and as the steps `y` do. -/
structure Ends (x : Nat → Walk ω ρ α) (y : Exec ω ρ α) (m : Machine ω ρ) : Prop where
  settles : Settles (x · m) (result (y m))

variable {x : Nat → Walk ω ρ α} {y : Exec ω ρ α} {m : Machine ω ρ}

theorem ends_ofExec (y : Exec ω ρ α) (m : Machine ω ρ) : Ends (fun _ ↦ ofExec y) y m := ⟨.const _⟩

theorem ends_pure (a : α) (m : Machine ω ρ) : Ends (fun _ ↦ pure a) (pure a) m := ⟨.const _⟩

theorem Ends.of_succ (h : Ends (fun fuel ↦ x (fuel + 1)) y m) : Ends x y m := ⟨.of_succ h.settles⟩

theorem Ends.bind (h : Ends x y m) {f : Nat → α → Walk ω ρ β} {g : α → Exec ω ρ β}
    (hf : ∀ a m', y m = .ok a m' → Ends (f · a) (g a) m') :
    Ends (fun fuel ↦ x fuel >>= f fuel) (y >>= g) m := by
  constructor
  simp only [bind_apply]
  apply h.settles.bind
  rw [Errand.bind_apply]
  cases hy : y m with
  | ok a m' => exact (hf a m' hy).settles
  | error e m' => exact .const _

theorem Ends.get_bind {f : Nat → Machine ω ρ → Walk ω ρ α} (h : Ends (f · m) y m) :
    Ends (fun fuel ↦ get >>= f fuel) y m :=
  ⟨h.settles⟩

theorem Ends.mark_bind {id : Nat} {f : Nat → Mark → Walk ω ρ α} (h : Ends (f · (m.marks.get id)) y m) :
    Ends (fun fuel ↦ ofExec (mark id) >>= f fuel) y m :=
  ⟨h.settles⟩

theorem Ends.bind_mark {id : Nat} {g : Mark → Exec ω ρ α} (h : Ends x (g (m.marks.get id)) m) :
    Ends x (mark id >>= g) m :=
  ⟨h.settles⟩

theorem Ends.ofOption_bind {o : Nat → Option β} {b : β} (ho : Settles o b)
    {f : Nat → β → Walk ω ρ α} (h : Ends (f · b) y m) :
    Ends (fun fuel ↦ ofOption (o fuel) >>= f fuel) y m := by
  constructor
  obtain ⟨least, ho⟩ := ho
  have hoption : Settles (fun fuel ↦ ofOption (o fuel) m) (.ok b, m) :=
    ⟨least, fun fuel hfuel ↦ by simp only [ofOption, ho fuel hfuel, Option.map_some]⟩
  simp only [bind_apply]
  exact hoption.bind h.settles

end Walk

namespace Script

open Exec Walk

variable {a : Arena} {s : Script} {actor : Actor}

theorem ends_break (ha : a.Lays s) {loc : Location} {id : Nat} {above : List Ancestor}
    (m : Machine ω ρ) (hq : ⟨id, .leave loc, above⟩ ∈ s.sites) :
    Ends (performBreak a · id) (charged (leaveLoop id above)) m := by
  simp only [performBreak]
  apply (ends_ofExec spend m).bind
  intro paid m' _
  cases paid with
  | false => exact ends_pure _ m'
  | true =>
    have hnear := loopAround?_eq (site?_of_mem hq)
    simp only at hnear
    apply Ends.ofOption_bind (settles_loopFrom ha id)
    rw [hnear, leaveLoop]
    cases hl : nearestLoop? above with
    | none => exact ⟨.const _⟩
    | some target =>
      apply Ends.get_bind
      apply Ends.ofOption_bind (settles_clearUpTo ha target _ hq rfl (hnear.trans hl) m'.marks)
      exact ⟨.const _⟩

theorem ends_release [World ω] (ha : a.Lays s) {id : Nat} (above : List Ancestor)
    {side : Branch → Script × Nat} {number : Branch → Nat} (hnumber : ∀ b, number b = (side b).2)
    (hside : ∀ b, ⟨(side b).2, (side b).1, above⟩ ∈ s.sites) (m : Machine ω ρ) :
    Ends (release a actor · id number) (releaseBranch actor id side) m := by
  simp only [release, hnumber]
  apply (ends_ofExec (mark id) m).bind
  intro k m _
  cases k.branch with
  | none => exact ends_pure _ m
  | some b =>
    apply (⟨.const _⟩ : Ends (fun _ ↦ get) get m).bind
    rintro _ _ ⟨⟩
    apply Ends.ofOption_bind (settles_awaits ha m.marks _ _ _ (hside b))
    split
    · apply Ends.ofOption_bind (settles_gather ha (hside b))
      exact (ends_ofExec _ m).bind fun _ m _ ↦ ends_ofExec _ m
    · exact ends_pure _ m

theorem releaseBranch_size [World ω] {id : Nat} {side : Branch → Script × Nat} {m m' : Machine ω ρ}
    (h : releaseBranch actor id side m = .ok () m') :
    m'.marks.table.size = m.marks.table.size := by
  simp only [releaseBranch, mark, Errand.bind_apply, get_apply, pure_apply] at h
  cases hb : (m.marks.get id).branch with
  | none =>
    rw [hb] at h
    cases h
    rfl
  | some b =>
    rw [hb] at h
    simp only [Errand.bind_apply, get_apply] at h
    split at h
    · cases h
      simp
    · cases h
      rfl

variable [World ω] [Chance ρ]

variable (ω ρ a s actor) in
/-- Wherever it stands in the script, this statement may be performed by its number. -/
def Walkable (t : Script) : Prop :=
  ∀ (id : Nat) (above : List Ancestor) (m : Machine ω ρ), ⟨id, t, above⟩ ∈ s.sites →
    m.marks.table.size = s.size → Ends (Walk.perform a actor · id) (t.perform actor id above) m

theorem Walkable.of_node (ha : a.Lays s) {t : Script} {x : Nat → List Ancestor → Exec ω ρ Outcome}
    (hperform : ∀ id above, t.perform actor id above = enter id (x id above))
    (h : ∀ id above (m : Machine ω ρ), ⟨id, t, above⟩ ∈ s.sites → m.marks.table.size = s.size →
      Ends (fun fuel ↦ performNode a actor (fuel + 1) id (Site.node ⟨id, t, above⟩)) (x id above) m) :
    Walkable ω ρ a s actor t := by
  intro id above m hq hm
  have hslot := ha.slot?_of_mem hq
  apply Ends.of_succ
  rw [hperform, enter]
  simp only at hslot
  simp only [Walk.perform, hslot, Site.slot]
  apply (ends_ofExec _ m).bind
  rintro _ _ ⟨⟩
  apply (Ends.of_succ (h id above _ hq (by simpa using hm))).bind
  intro outcome m _
  split
  · exact (ends_ofExec _ m).bind fun _ m _ ↦ ends_pure outcome m
  · exact ends_pure outcome m

theorem within_of_completed (hs : s.Placed false) {t : Script} {id : Nat} {above : List Ancestor}
    (hq : ⟨id, t, above⟩ ∈ s.sites) {m m' : Machine ω ρ} (hm : m.marks.table.size = s.size)
    (h : t.perform actor id above m = .ok .completed m') : m.Within actor.unit id t.size m' := by
  have hconfined := performAt_confined hs hq rfl actor hm
  simp only [h] at hconfined
  exact hconfined.1

theorem ends_children (hs : s.Placed false) {id : Nat} {above : List Ancestor} {rest : List Script}
    (h : ∀ t ∈ rest, Walkable ω ρ a s actor t) {ids : List Nat} {index first : Nat}
    (hids : ids.drop index = numbered first rest)
    (hsites : ∀ c ∈ neighbours first above rest, c ∈ s.sites) (m : Machine ω ρ) (hid : id < s.size)
    (hm : m.marks.table.size = s.size) (hcursor : index ≤ (m.marks.get id).cursor) :
    Ends (performChildren a actor · id ids) (performRest actor rest id index first above) m := by
  induction rest generalizing index first m with
  | nil =>
    have hend : ids[(m.marks.get id).cursor]? = none := by
      rw [numbered, List.drop_eq_nil_iff] at hids
      exact List.getElem?_eq_none (Nat.le_trans hids hcursor)
    apply Ends.of_succ
    simp only [performChildren]
    apply Ends.mark_bind
    simp only [hend]
    exact ends_pure _ m
  | cons t rest ih =>
    obtain ⟨ht, hrest⟩ := List.forall_mem_cons.1 h
    rw [numbered] at hids
    have hnext : ids[index]? = some first := by
      rw [← Nat.add_zero index, ← List.getElem?_drop, hids, List.getElem?_cons_zero]
    have hids' : ids.drop (index + 1) = numbered (first + t.size) rest := by
      rw [← List.drop_drop, hids, List.drop_one, List.tail_cons]
    obtain ⟨hq, hsites⟩ := List.forall_mem_cons.1 hsites
    have ih := ih hrest hids' hsites
    apply Ends.bind_mark
    split
    · next hlt => exact ih m hm hlt
    · next hge =>
      -- The cursor is at this child.
      obtain rfl : index = (m.marks.get id).cursor := by omega
      apply Ends.of_succ
      simp only [performChildren]
      apply Ends.mark_bind
      simp only [hnext]
      apply (ht first above m hq hm).bind
      intro outcome m' hrun
      cases outcome with
      | completed =>
        have hsize := (within_of_completed hs hq hm hrun).marks.size.trans hm
        apply (ends_ofExec _ m').bind
        rintro _ _ ⟨⟩
        apply ih
        · rwa [Marks.size_update]
        · apply Nat.le_of_eq
          rw [Marks.get_update (by omega), if_pos rfl]
      | suspended => exact ends_pure _ m'
      | broke l => exact ends_pure _ m'

theorem ends_turns (hs : s.Placed false) {body : Script} (h : Walkable ω ρ a s actor body)
    {id : Nat} {c : Expr} {above : List Ancestor} (hq : ⟨id + 1, body, above⟩ ∈ s.sites)
    (hid : id < s.size) (n : Nat) (m : Machine ω ρ)
    (hn : m.state.timer + (m.marks.get id).owesTurn.toNat < n) (hm : m.marks.table.size = s.size) :
    Ends (performTurns a actor · id c (id + 1))
      (turnsWithin actor id c (body.perform actor (id + 1) above) n) m := by
  induction n generalizing m with
  | zero => omega
  | succ n ih =>
    apply Ends.of_succ
    simp only [performTurns]
    apply (ends_ofExec (nextTurn actor id c) m).bind
    intro turn m₁ hturn
    have hnext := nextTurn_within actor id c Nat.one_pos m
    rw [hturn] at hnext
    rcases turn with _ | _ | _
    · exact ends_pure _ m₁
    · exact ends_pure _ m₁
    obtain ⟨hchecked, -, hpaid⟩ := hnext
    have hsize := hchecked.marks.size.trans hm
    apply (h (id + 1) above m₁ hq hsize).bind
    intro outcome m₂ hrun
    cases outcome with
    | suspended => exact ends_pure _ m₂
    | broke l => exact ends_pure _ m₂
    | completed =>
      -- No turn is owed now, and there is less time than there was.
      have hw := within_of_completed hs hq hsize hrun
      have hroom := hw.marks.size.trans hsize
      have htime := hw.timer
      apply (ends_ofExec _ m₂).bind
      rintro _ _ ⟨⟩
      apply ih
      · rw [Marks.get_update (by omega), if_pos rfl, Bool.toNat_false]
        simp only
        omega
      · rwa [Marks.size_update]

theorem ends_branch (ha : a.Lays s) {loc : Location} {c : Expr} {yes no : Script}
    (hyes : Walkable ω ρ a s actor yes) (hno : Walkable ω ρ a s actor no) :
    Walkable ω ρ a s actor (.branch loc c yes no) := by
  apply Walkable.of_node ha (perform_branch actor loc c yes no)
  intro id above m hq hm
  have hbelow : (⟨id, .branch loc c yes no, above⟩ : Site).below =
      [⟨id + 1, yes, ⟨id, false⟩ :: above⟩, ⟨id + 1 + yes.size, no, ⟨id, false⟩ :: above⟩] := rfl
  have hyesAt : ⟨id + 1, yes, ⟨id, false⟩ :: above⟩ ∈ s.sites :=
    mem_sites_of_below hq (by simp [hbelow])
  have hnoAt : ⟨id + 1 + yes.size, no, ⟨id, false⟩ :: above⟩ ∈ s.sites :=
    mem_sites_of_below hq (by simp [hbelow])
  simp only [Site.node, performNode, branchOn]
  refine (ends_release ha (⟨id, false⟩ :: above) (fun b ↦ ?_) (fun b ↦ ?_) m).bind ?_
  · cases b <;> rfl
  · cases b with
    | yes => exact hyesAt
    | no => exact hnoAt
  intro _ m₁ hm₁
  have hm₁ := (releaseBranch_size hm₁).trans hm
  apply (ends_ofExec _ m₁).bind
  intro b m₂ hchosen
  have hw := chosenBranch_within actor id c Nat.one_pos m₁
  rw [hchosen] at hw
  rcases b with _ | _ | _
  · exact ends_pure _ m₂
  · exact hyes _ _ m₂ hyesAt (hw.1.marks.size.trans hm₁)
  · exact hno _ _ m₂ hnoAt (hw.1.marks.size.trans hm₁)

theorem ends_loop (ha : a.Lays s) (hs : s.Placed false) {loc : Location} {c : Expr} {body : Script}
    (h : Walkable ω ρ a s actor body) : Walkable ω ρ a s actor (.loop loc c body) := by
  apply Walkable.of_node ha (perform_loop actor loc c body)
  intro id above m hq hm
  have hbelow : (⟨id, .loop loc c body, above⟩ : Site).below =
      [⟨id + 1, body, ⟨id, true⟩ :: above⟩] := rfl
  have hid : id < s.size := id_lt_size hq
  have howes := Bool.toNat_le (m.marks.get id).owesTurn
  simp only [Site.node, performNode]
  constructor
  exact (ends_turns hs h (mem_sites_of_below hq (hbelow ▸ List.mem_cons_self)) hid
    (m.state.timer + 2) m (by omega) hm).settles

/-- Performing by the numbers in the arena comes to the same end. -/
theorem ends_perform (ha : a.Lays s) (hs : s.Placed false) (t : Script) :
    Walkable ω ρ a s actor t := by
  induction t with
  | sequence loc body ih =>
    apply Walkable.of_node ha (perform_sequence actor loc body)
    intro id above m hq hm
    simp only [Site.node, performNode]
    exact ends_children hs ih (List.drop_zero) (fun c ↦ mem_sites_of_below hq) m (id_lt_size hq) hm
      (Nat.zero_le _)
  | branch loc c yes no ihy ihn => exact ends_branch ha ihy ihn
  | loop loc c body ih => exact ends_loop ha hs ih
  | leave loc =>
    apply Walkable.of_node ha (perform_leave actor loc)
    intro id above m hq _
    simp only [Site.node, performNode]
    exact ends_break ha m hq
  | assign loc name e =>
    apply Walkable.of_node ha (perform_assign actor loc name e)
    intro id above m _ _
    simp only [Site.node, performNode]
    exact ends_ofExec _ m
  | print loc e =>
    apply Walkable.of_node ha (perform_print actor loc e)
    intro id above m _ _
    simp only [Site.node, performNode]
    exact ends_ofExec _ m
  | action loc command e =>
    apply Walkable.of_node ha (perform_action actor loc command e)
    intro id above m _ _
    simp only [Site.node, performNode]
    exact ends_ofExec _ m
  | void loc =>
    apply Walkable.of_node ha (perform_void actor loc)
    intro id above m _ _
    simp only [Site.node, performNode]
    exact ends_pure _ m

end Script

end Errand
