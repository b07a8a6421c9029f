import Errand.Proofs.Board.Scripted
import Errand.Proofs.Run.Breaks
import Errand.Proofs.World.Evolution

namespace Errand

namespace Board

variable {b b' b'' : Board} {s : PoolId} {t : TaskId} {x : Task} {u : UnitId}
  {side : UnitId → Option FactionId}

def poolFaction? (b : Board) (s : PoolId) : Option FactionId := (b.pool? s).map (·.faction)

theorem poolFaction?_mapPool {f : Pool → Pool} (hf : ∀ p, (f p).faction = p.faction) (b : Board)
    (s s' : PoolId) : (b.mapPool s f).poolFaction? s' = b.poolFaction? s' := by
  rw [poolFaction?, poolFaction?, pool?_mapPool]
  split
  · subst s'
    cases b.pool? s with
    | none => rfl
    | some p => exact congrArg some (hf p)
  · rfl

theorem poolFaction?_mapPools {f : Pool → Pool} (hf : ∀ p, (f p).faction = p.faction) (b : Board)
    (l : List PoolId) (s : PoolId) : (b.mapPools l f).poolFaction? s = b.poolFaction? s := by
  induction l generalizing b with
  | nil => rfl
  | cons s' l ih => exact (ih (b.mapPool s' f)).trans (poolFaction?_mapPool hf b s' s)

theorem poolFaction?_started (b : Board) (s : PoolId) (t : TaskId) (u : UnitId) (s' : PoolId) :
    (b.started s t u).poolFaction? s' = b.poolFaction? s' :=
  poolFaction?_mapPool (f := (·.take t)) (fun _ ↦ rfl) b s s'

theorem poolFaction?_endedTask (b : Board) (t : TaskId) (x : Task) (s : PoolId) :
    (b.endedTask t x).poolFaction? s = b.poolFaction? s :=
  poolFaction?_mapPools (f := (·.drop t)) (fun _ ↦ rfl) _ x.pools.toList s

theorem poolFaction?_handedBack (b : Board) (s : PoolId) (t : TaskId) (x : Task) (priority : Int32)
    (s' : PoolId) : (b.handedBack s t x priority).poolFaction? s' = b.poolFaction? s' := by
  have hmoved : ∀ (ahead : TaskId → Bool) (p : Pool), (moved ahead t p).faction = p.faction := by
    intro ahead p
    rw [moved]
    split <;> rfl
  calc (b.handedBack s t x priority).poolFaction? s'
      = (b.resorted s t x priority).poolFaction? s' :=
        poolFaction?_mapPool (f := (·.enqueue _ t)) (fun _ ↦ rfl) _ s s'
    _ = (b.freed s t priority).poolFaction? s' := poolFaction?_mapPools (hmoved _) _ _ s'
    _ = b.poolFaction? s' := poolFaction?_mapPool (f := (·.unassign t)) (fun _ ↦ rfl) b s s'

/-- Every assigned task is carried out by a unit of the faction of the pool that holds it. -/
def Manned (b : Board) (side : UnitId → Option FactionId) : Prop :=
  ∀ s t x u, t ∈ b.assignedIn s → b.tasks[t]? = some x → x.executor = some u →
    side u = b.poolFaction? s

namespace Manned

theorem of_touches (h : b.Manned side) (ht : Touches t b b')
    (hfaction : ∀ s, b'.poolFaction? s = b.poolFaction? s)
    (hnew : ∀ s x u, t ∈ b'.assignedIn s → b'.tasks[t]? = some x → x.executor = some u →
      side u = b'.poolFaction? s) : b'.Manned side := by
  intro s t' x u hmem hx hu
  by_cases he : t' = t
  · subst he
    exact hnew s x u hmem hx hu
  · rw [ht.tasks t' he] at hx
    have hmem' : t' ∈ b.assignedIn s := by
      rw [← List.count_pos_iff] at hmem ⊢
      change 0 < b'.holds t' s at hmem
      rwa [ht.holds_eq he] at hmem
    rw [hfaction s]
    exact h s t' x u hmem' hx hu

theorem of_unmanned (h : b.Manned side) (ht : Touches t b b')
    (hfaction : ∀ s, b'.poolFaction? s = b.poolFaction? s) (hx : b'.tasks[t]? = some x)
    (hexec : x.executor = none) : b'.Manned side := by
  refine h.of_touches ht hfaction fun s y u _ hy hu ↦ ?_
  cases hx.symm.trans hy
  rw [hexec] at hu
  cases hu

theorem removeEnded (h : b.Manned side) : b.removeEnded.2.Manned side :=
  fun s t x u hmem hx hu ↦ h s t x u hmem (of_getElem?_removeEnded hx) hu

end Manned

theorem Sound.manned_started (hb : b.Sound) (h : b.Manned side) {p : Pool}
    (hx : b.tasks[t]? = some x) (hp : b.pool? s = some p) (ht : t ∈ p.waiting)
    (hidle : b.taskOf? u = none) (hexec : x.executor = none) (hside : side u = b.poolFaction? s) :
    (b.started s t u).Manned side := by
  have hlinked := (hb.assign hx hp ht hidle hexec).sound.toLinked
  refine h.of_touches (started_touches b s t u) (poolFaction?_started b s t u) fun s' y v hmem hy hv ↦ ?_
  cases (getElem?_started hx s u).symm.trans hy
  cases hv
  have hhere : t ∈ (b.started s t u).assignedIn s := by
    rw [assignedIn_of_pool? (pool?_started hp t u)]
    simp [Pool.take]
  -- no other pool can hold the task too
  have hsame : s' = s :=
    (hlinked.fits t).once s' s (List.count_pos_iff.2 hmem) (List.count_pos_iff.2 hhere)
  rw [hsame, poolFaction?_started, hside]

structure Steady (side : UnitId → Option FactionId) (b b' : Board) : Prop where
  sound : b'.Sound
  manned : b'.Manned side
  faction : ∀ s, b'.poolFaction? s = b.poolFaction? s

theorem dispatch_steady (hb : b.Sound) (h : b.Manned side) {us : List UnitId}
    (hside : ∀ u ∈ us, side u = b.poolFaction? s) : Steady side b (after (dispatch s us) b) := by
  have hrel := after_dispatch_of_mem
    (r := fun b₁ b₂ ↦ b₁.Sound → b₁.Manned side → (∀ u ∈ us, side u = b₁.poolFaction? s) →
      Steady side b₁ b₂)
    (fun _ hb h _ ↦ ⟨hb, h, fun _ ↦ rfl⟩)
    (fun {b₁ b₂ b₃} h₁ h₂ hb h hs ↦ by
      have hfirst := h₁ hb h hs
      have hsecond := h₂ hfirst.sound hfirst.manned fun u hu ↦ (hs u hu).trans (hfirst.faction s).symm
      exact ⟨hsecond.sound, hsecond.manned, fun s ↦ (hsecond.faction s).trans (hfirst.faction s)⟩)
    s us (fun u hu b hb h hs ↦ by
      refine (assignNext_yields b s u).holds_after ⟨hb, h, fun _ ↦ rfl⟩ ?_
      rintro _ _ (rfl | ⟨t, x, p, hx, hp, ht, hidle, hexec, rfl⟩)
      · exact ⟨hb, h, fun _ ↦ rfl⟩
      · exact ⟨(hb.assign hx hp ht hidle hexec).sound,
          hb.manned_started h hx hp ht hidle hexec (hs u hu), poolFaction?_started b s t u⟩) b
  exact hrel hb h hside

end Board

theorem Grid.evolves_of_commanded {g g' : Grid} {u : UnitId} (h : Commanded u g g') : g.Evolves g' := by
  induction h with
  | refl => exact .refl g
  | tail _ hissue ih =>
    obtain ⟨c, rfl⟩ := hissue
    exact ih.trans (Grid.evolves_issue _ u c)

namespace Simulation

open Board

variable {ρ : Type} [Chance ρ] {sim sim' : Simulation Grid ρ} {report report' : Report} {s : PoolId}
  {t : TaskId} {x : Task} {u : UnitId} {q : Program} {side : UnitId → Option FactionId}

theorem Turn.evolves (turn : Turn s t x u q report sim report' sim')
    (hc : sim.board.Carries s t x u q) (hs : sim.board.Scripted) : sim.world.Evolves sim'.world := by
  have hx := hs t x hc.task
  obtain ⟨d, hd⟩ := hx.accepted
  obtain ⟨capacity, hq⟩ := hx.program q hc.program
  have hplaced := Script.placed_of_build hd
  obtain ⟨hscript, hsize⟩ := hq.size_eq hplaced
  rw [← hscript] at hplaced hsize
  have hstep : sim.world.Evolves (sim.stepOf x u q).world :=
    Grid.evolves_of_commanded (Program.advance_confined hplaced hsize _ _ _ _).2
  cases turn with
  | bereft => exact .refl _
  | waits | finishes | fails => exact hstep

theorem Turn.manned (turn : Turn s t x u q report sim report' sim')
    (hc : sim.board.Carries s t x u q) (h : sim.board.Manned side) : sim'.board.Manned side := by
  have htouches := turn.touches
  have hx' := getElem?_advanced hc.task (sim.stepOf x u q)
  cases turn with
  | bereft =>
    exact h.of_unmanned htouches (poolFaction?_handedBack _ s t x _) (getElem?_handedBack hc.task _) rfl
  | waits =>
    refine h.of_touches htouches (fun _ ↦ rfl) fun s' y v hmem hy hv ↦ ?_
    cases hx'.symm.trans hy
    exact h s' t x v hmem hc.task hv
  | finishes =>
    exact h.of_unmanned htouches (poolFaction?_endedTask _ t _) (getElem?_endedTask hx') rfl
  | fails =>
    exact h.of_unmanned htouches (poolFaction?_handedBack _ s t _ _) (getElem?_handedBack hx' _) rfl

theorem Turns.evolves {l : List (PoolId × TaskId)} (h : Turns l report sim report' sim')
    (hs : sim.board.Scripted) : sim.world.Evolves sim'.world := by
  induction h with
  | nil => exact .refl _
  | cons _ hc _ turn _ ih => exact (turn.evolves hc hs).trans (ih (turn.scripted hc hs))

theorem Turns.manned {l : List (PoolId × TaskId)} (h : Turns l report sim report' sim')
    (hm : sim.board.Manned side) : sim'.board.Manned side := by
  induction h with
  | nil => exact hm
  | cons _ hc _ turn _ ih => exact ih (turn.manned hc hm)

end Simulation

end Errand
