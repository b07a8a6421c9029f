import Errand.Proofs.Run.Reach

namespace Errand

def Statement.itinerary (loc : Location) (stops : List (Location × Position)) : Statement :=
  .sequence loc (stops.map fun s ↦ .action s.1 .moveTo (.position s.2))

namespace Script

def moves (stops : List (Location × Position)) : List Script :=
  stops.map fun s ↦ .action s.1 .moveTo (.position s.2)

theorem ofStatement_itinerary (loc : Location) (stops : List (Location × Position)) :
    ofStatement (.itinerary loc stops) = .sequence loc (moves stops) := by
  have hall : ofStatements (stops.map fun s ↦ .action s.1 .moveTo (.position s.2)) = moves stops := by
    induction stops with
    | nil => rfl
    | cons s stops ih => rw [List.map_cons, ofStatements, ih, ofStatement]; rfl
  rw [Statement.itinerary, ofStatement, hall]

theorem build_itinerary {loc : Location} {stops : List (Location × Position)}
    (h : ∀ s ∈ stops, s.2.nonnegative = true) :
    build (.itinerary loc stops) = .ok (.sequence loc (moves stops)) := by
  have hmoves : ∀ (above : List Ancestor) (first : Nat),
      ∀ site ∈ sitesAll first above (moves stops), site.check = .ok () := by
    intro above
    induction stops with
    | nil => simp [moves, sitesAll]
    | cons s stops ih =>
      intro first site hsite
      obtain ⟨hs, hstops⟩ := List.forall_mem_cons.1 h
      rcases List.mem_cons.1 hsite with rfl | hsite
      · change (Expr.position s.2).check s.1 .position = .ok ()
        simp only [Expr.check, hs]
        rfl
      · exact ih hstops _ site hsite
  have hcheck : (Script.sequence loc (moves stops)).sites.forM Site.check = .ok () := by
    rw [sites, sitesFrom, forM_eq_ok]
    exact List.forall_mem_cons.2 ⟨rfl, hmoves _ _⟩
  rw [build_eq_check, ofStatement_itinerary, hcheck]
  rfl

open Exec

variable {ω ρ : Type} [World ω] [Chance ρ] {actor : Actor} {m : Machine ω ρ}

section Neighbours

variable {s : Location × Position} {rest : List (Location × Position)} (i : Nat)

theorem resumeRest_moves_nil (q : Option Point) (m : Machine ω ρ) :
    resumeRest actor (moves []) 0 i q m = .ok .done m := by
  rw [moves, List.map_nil, resumeRest]
  rfl

theorem resumeRest_moves_busy (hbusy : World.busy m.world actor.unit = true) :
    resumeRest actor (moves (s :: rest)) 0 i (some .sent) m = .ok (.paused (.inside i .sent)) m := by
  have hawait : (action s.1 .moveTo (.position s.2)).resume actor (some .sent) m =
      .ok (.paused .sent) m := by
    rw [resume, if_pos rfl, await, bind_apply, get_apply]
    simp only [hbusy, if_true]
    rfl
  rw [moves, List.map_cons, resumeRest, bind_of_ok hawait]
  rfl

theorem resumeRest_moves_idle (hidle : World.busy m.world actor.unit = false) :
    resumeRest actor (moves (s :: rest)) 0 i (some .sent) m =
      resumeRest actor (moves rest) 0 (i + 1) none m := by
  have hawait : (action s.1 .moveTo (.position s.2)).resume actor (some .sent) m = .ok .done m := by
    rw [resume, if_pos rfl, await, bind_apply, get_apply]
    simp only [hidle]
    rfl
  rw [moves, List.map_cons, resumeRest, bind_of_ok hawait]
  rfl

theorem resumeRest_moves_none {n : Nat} (htime : m.state.timer = n + 1)
    (hbusy : World.busy (World.issue m.world actor.unit (.moveTo s.2)) actor.unit = true) :
    resumeRest actor (moves (s :: rest)) 0 i none m =
      .ok (.paused (.inside i .sent))
        { m with
          state := { m.state with timer := n }
          world := World.issue m.world actor.unit (.moveTo s.2) } := by
  have hsend : (action s.1 .moveTo (.position s.2)).resume actor none m =
      .ok (.paused .sent) { m with
        state := { m.state with timer := n }
        world := World.issue m.world actor.unit (.moveTo s.2) } := by
    rw [resume, if_neg (by simp), pay_succ htime]
    have heval : ∀ m : Machine ω ρ, evaluate actor (commandOf · .moveTo (.position s.2)) m =
        .ok (.moveTo s.2) m := fun _ ↦ rfl
    rw [bind_of_ok (heval _), issue, bind_of_ok (modify_apply _ _), await, bind_apply, get_apply]
    simp only [hbusy, if_true]
    rfl
  rw [moves, List.map_cons, resumeRest, bind_of_ok hsend]
  rfl

end Neighbours

theorem placed_moves (loc : Location) (stops : List (Location × Position)) :
    (Script.sequence loc (moves stops)).Placed false := by
  rw [Placed]
  induction stops with
  | nil => trivial
  | cons s stops ih => exact ⟨trivial, ih⟩

end Script

namespace Program

open Script

variable {ω ρ : Type}

structure Step.Waits (st : Step ω ρ) (s : Script) (i : Nat) (world : ω) : Prop where
  result : st.result = .ok (.suspended .awaitingAction)
  stands : st.program.StandsAt s (some (.inside i .sent))
  running : st.program.stopped = false
  world_eq : st.world = world

variable [World ω] [Chance ρ] {p : Program} {s : Script} {loc : Location}
  {before rest : List (Location × Position)} {stop : Location × Position} {actor : Actor} {world : ω}

theorem advance_waits {q : Option Point} {i : Nat} (hs : s.Placed false) (hp : p.StandsAt s q)
    (hrun : p.stopped = false) {budget : Nat} {source : ρ} {m : Machine ω ρ}
    (h : s.resume actor q ⟨p.state.grant budget, p.marks, world, source⟩ =
      .ok (.paused (.inside i .sent)) m) (hm : m.state.depleted = false) :
    (p.advance budget actor world source).Waits s i m.world := by
  have hleaves := advance_leaves hs hp hrun budget actor
    (⟨p.state.grant budget, p.marks, world, source⟩ : Machine ω ρ) rfl
  rw [h] at hleaves
  obtain ⟨k, hstep, hstands⟩ := hleaves
  refine ⟨?_, hstands, ?_, ?_⟩
  · rw [hstep]
    simp [hm]
  · rw [hstep]
    exact hrun
  · rw [hstep]

theorem advance_finishes {q : Option Point} (hs : s.Placed false) (hp : p.StandsAt s q)
    (hrun : p.stopped = false) {budget : Nat} {source : ρ} {m : Machine ω ρ}
    (h : s.resume actor q ⟨p.state.grant budget, p.marks, world, source⟩ = .ok .done m) :
    (p.advance budget actor world source).result = .ok .finished ∧
      (p.advance budget actor world source).world = m.world := by
  have hleaves := advance_leaves hs hp hrun budget actor
    (⟨p.state.grant budget, p.marks, world, source⟩ : Machine ω ρ) rfl
  rw [h] at hleaves
  have hstep : p.advance budget actor world source = _ := hleaves
  rw [hstep]
  exact ⟨rfl, rfl⟩

theorem resume_moves_inside (q : Point) (m : Machine ω ρ) :
    (Script.sequence loc (moves (before ++ rest))).resume actor (some (.inside before.length q)) m =
      resumeRest actor (moves rest) 0 before.length (some q) m := by
  have hlen : (moves before).length = before.length := by rw [moves, List.length_map]
  have happend : moves (before ++ rest) = moves before ++ moves rest := by
    rw [moves, List.map_append]
    rfl
  rw [resume, happend, ← hlen]
  exact congrFun ((resumeRest_skip (moves before) (moves rest) 0 (some q)).trans
    (by rw [Nat.zero_add])) m

theorem advance_moves_busy
    (hp : p.StandsAt (.sequence loc (moves (before ++ stop :: rest)))
      (some (.inside before.length .sent)))
    (hrun : p.stopped = false) (hbusy : World.busy world actor.unit = true) (budget : Nat)
    (source : ρ) :
    (p.advance budget actor world source).Waits (.sequence loc (moves (before ++ stop :: rest)))
      before.length world := by
  refine advance_waits (placed_moves _ _) hp hrun (m := ⟨p.state.grant budget, p.marks, world, source⟩) ?_ rfl
  rw [resume_moves_inside]
  exact resumeRest_moves_busy before.length hbusy

/-- In a world the script comes to the stops that are left, with no command on its way. -/
def ComesTo (loc : Location) (stops : List (Location × Position)) (actor : Actor) (world : ω) (ρ : Type)
    [Chance ρ] (q : Option Point) (i : Nat) (rest : List (Location × Position)) : Prop :=
  ∀ m : Machine ω ρ, m.world = world → (Script.sequence loc (moves stops)).resume actor q m =
    resumeRest actor (moves rest) 0 i none m

theorem comesTo_start (loc : Location) (stops : List (Location × Position)) (actor : Actor)
    (world : ω) : ComesTo loc stops actor world ρ none 0 stops := by
  intro m _
  rw [resume]
  rfl

theorem comesTo_of_idle (hidle : World.busy world actor.unit = false) :
    ComesTo loc (before ++ stop :: rest) actor world ρ (some (.inside before.length .sent))
      (before.length + 1) rest := by
  intro m hm
  rw [resume_moves_inside]
  exact resumeRest_moves_idle before.length (by rw [hm, hidle])

variable {stops : List (Location × Position)} {q : Option Point} {i : Nat}

theorem ComesTo.advance_next (h : ComesTo loc stops actor world ρ q i (stop :: rest))
    (hp : p.StandsAt (.sequence loc (moves stops)) q) (hrun : p.stopped = false) {budget : Nat}
    (hbudget : 1 ≤ budget)
    (hbusy : World.busy (World.issue world actor.unit (.moveTo stop.2)) actor.unit = true)
    (source : ρ) :
    (p.advance budget actor world source).Waits (.sequence loc (moves stops)) i
      (World.issue world actor.unit (.moveTo stop.2)) := by
  obtain ⟨n, rfl⟩ : ∃ n, budget = n + 1 := ⟨budget - 1, by omega⟩
  have hsent : resumeRest actor (moves (stop :: rest)) 0 i none
      (⟨p.state.grant (n + 1), p.marks, world, source⟩ : Machine ω ρ) = _ :=
    resumeRest_moves_none i rfl hbusy
  exact advance_waits (placed_moves loc stops) hp hrun ((h _ rfl).trans hsent) rfl

theorem ComesTo.advance_last (h : ComesTo loc stops actor world ρ q i [])
    (hp : p.StandsAt (.sequence loc (moves stops)) q) (hrun : p.stopped = false) (budget : Nat)
    (source : ρ) :
    (p.advance budget actor world source).result = .ok .finished ∧
      (p.advance budget actor world source).world = world :=
  advance_finishes (placed_moves loc stops) hp hrun ((h _ rfl).trans (resumeRest_moves_nil i none _))

end Program

end Errand
