import Errand.Proofs.Board.Refusal
import Mathlib.Data.List.Nodup

namespace Errand

namespace Board

variable {b b' b'' : Board} {s : PoolId} {t : TaskId} {x : Task} {f : FactionId}

def owners (b : Board) : List FactionId := b.pools.map (·.faction)

structure Frame (b b' : Board) : Prop where
  execution : b'.execution = b.execution
  scheduler : b'.scheduler = b.scheduler
  owners : b'.owners = b.owners

namespace Frame

theorem refl (b : Board) : Frame b b := ⟨rfl, rfl, rfl⟩

theorem trans (h : Frame b b') (h' : Frame b' b'') : Frame b b'' :=
  ⟨h'.execution.trans h.execution, h'.scheduler.trans h.scheduler, h'.owners.trans h.owners⟩

theorem mapPool (b : Board) (s : PoolId) {f : Pool → Pool} (hf : ∀ p, (f p).faction = p.faction) :
    Frame b (b.mapPool s f) where
  execution := rfl
  scheduler := rfl
  owners := by
    apply List.ext_getElem?
    intro i
    simp only [Board.owners, Board.mapPool, List.getElem?_map, List.getElem?_modify]
    cases b.pools[i]? with
    | none => rfl
    | some p =>
      split
      · exact congrArg some (hf p)
      · rfl

theorem mapTask (b : Board) (t : TaskId) (f : Task → Task) : Frame b (b.mapTask t f) := ⟨rfl, rfl, rfl⟩

theorem mapPools (b : Board) (l : List PoolId) {f : Pool → Pool}
    (hf : ∀ p, (f p).faction = p.faction) : Frame b (b.mapPools l f) := by
  induction l generalizing b with
  | nil => exact .refl b
  | cons s l ih => exact (mapPool b s hf).trans (ih _)

theorem change (b : Board) (s : PoolId) (t : TaskId) {f : Pool → Pool} {g : Task → Task}
    (hf : ∀ p, (f p).faction = p.faction) : Frame b ((b.mapPool s f).mapTask t g) :=
  (mapPool b s hf).trans (mapTask _ t g)

theorem scheduled (b : Board) (s : PoolId) (t : TaskId) (priority : Int32) :
    Frame b (b.scheduled s t priority) := change b s t fun _ ↦ rfl

theorem unscheduled (b : Board) (s : PoolId) (t : TaskId) : Frame b (b.unscheduled s t) :=
  change b s t fun _ ↦ rfl

theorem started (b : Board) (s : PoolId) (t : TaskId) (u : UnitId) : Frame b (b.started s t u) :=
  change b s t fun _ ↦ rfl

theorem restored (b : Board) (s : PoolId) (t : TaskId) (place : Nat) :
    Frame b (b.restored s t place) := (unscheduled b s t).trans (change _ s t fun _ ↦ rfl)

theorem endedTask (b : Board) (t : TaskId) (x : Task) : Frame b (b.endedTask t x) :=
  (mapTask b t _).trans (mapPools _ _ fun _ ↦ rfl)

theorem handedBack (b : Board) (s : PoolId) (t : TaskId) (x : Task) (priority : Int32) :
    Frame b (b.handedBack s t x priority) := by
  have hfreed : Frame b (b.freed s t priority) := change b s t fun _ ↦ rfl
  have hresorted : Frame b (b.resorted s t x priority) := by
    refine hfreed.trans (mapPools _ x.pools.toList fun p ↦ ?_)
    rw [moved]
    split <;> rfl
  exact hresorted.trans (mapPool _ s fun _ ↦ rfl)

theorem assignNext (b : Board) (s : PoolId) (u : UnitId) :
    Frame b (after (Board.assignNext s u) b) := by
  refine (assignNext_yields b s u).holds_after (.refl b) ?_
  rintro _ _ (rfl | ⟨t, x, p, -, -, -, -, -, rfl⟩)
  · exact .refl _
  · exact started b s t u

theorem replace (b : Board) (s : PoolId) (old new : TaskId) :
    Frame b (after (Board.replace s old new) b) := by
  have hcases := replace_cases b s old new
  rw [after]
  cases hr : Board.replace s old new b with
  | ok _ b' =>
    rw [hr] at hcases
    obtain ⟨b₁, hout, hin⟩ := hcases
    have htaken := unschedule_yields b s old
    rw [Yields, hout] at htaken
    obtain ⟨p, -, -, rfl⟩ := htaken
    have hput := schedule_yields (b.unscheduled s old) s new
    rw [Yields, hin] at hput
    obtain ⟨x, q, -, -, -, -, rfl⟩ := hput
    exact (unscheduled b s old).trans (scheduled _ s new _)
  | error e b' =>
    rw [hr] at hcases
    obtain rfl | ⟨p, -, -, rfl⟩ := hcases
    · exact .refl _
    · exact restored b s old _

end Frame

end Board

namespace Simulation

open Board

variable {ω ρ : Type} [World ω] [Chance ρ] {sim sim' : Simulation ω ρ} {report report' : Report}

theorem Turn.frame {s : PoolId} {t : TaskId} {x : Task} {u : UnitId} {q : Program}
    (turn : Turn s t x u q report sim report' sim') : Frame sim.board sim'.board := by
  have hrun : Frame sim.board (sim.advanced t (sim.stepOf x u q)).board := .mapTask _ t _
  cases turn with
  | bereft => exact .handedBack _ s t x _
  | waits => exact hrun
  | finishes => exact hrun.trans (.endedTask _ t _)
  | fails => exact hrun.trans (.handedBack _ s t _ _)

theorem Turns.frame {l : List (PoolId × TaskId)} (h : Turns l report sim report' sim') :
    Frame sim.board sim'.board := by
  induction h with
  | nil => exact .refl _
  | cons _ _ _ turn _ ih => exact turn.frame.trans ih

end Simulation

namespace Board

variable {b b' : Board} {s : PoolId} {f : FactionId} {admits : TaskId → Task → Prop}

theorem poolOf?_eq_none : b.poolOf? f = none ↔ f ∉ b.owners := by
  simp [poolOf?, owners, List.findIdx?_eq_none_iff]

theorem poolOf?_eq_some (h : b.owners.Nodup) : b.poolOf? f = some s ↔ b.owners[s.val]? = some f := by
  have howner : ∀ {s}, b.poolOf? f = some s → b.owners[s.val]? = some f := by
    intro s hs
    obtain ⟨i, hi, rfl⟩ := Option.map_eq_some_iff.mp hs
    obtain ⟨hlt, hf, -⟩ := List.findIdx?_eq_some_iff_getElem.mp hi
    simp only [owners, List.getElem?_map, List.getElem?_eq_getElem hlt, Option.map_some]
    exact congrArg some (of_decide_eq_true hf)
  refine ⟨howner, fun hs ↦ ?_⟩
  cases hfound : b.poolOf? f with
  | none => exact absurd (List.mem_of_getElem? hs) (poolOf?_eq_none.mp hfound)
  | some s' =>
    have hval : s'.val = s.val := by
      have hlt := (List.getElem?_eq_some_iff.mp (howner hfound)).1
      exact (List.getElem?_inj hlt h).mp ((howner hfound).trans hs.symm)
    exact congrArg some (congrArg PoolId.mk hval)

theorem addPool_of_poolOf? {s : PoolId} (h : b.poolOf? f = some s) :
    addPool f b = .error (.duplicateFaction f) b := by
  simp only [addPool, bind_apply, get_apply, h]
  rfl

theorem addPool_of_none (h : b.poolOf? f = none) :
    addPool f b = .ok ⟨b.pools.length⟩ (b.withPool f) := by
  simp only [addPool, bind_apply, get_apply, h]
  rfl

theorem owners_withPool (b : Board) (f : FactionId) : (b.withPool f).owners = b.owners ++ [f] := by
  simp [owners, withPool]

theorem nodup_owners_withPool (hb : b.owners.Nodup) (h : b.poolOf? f = none) :
    (b.withPool f).owners.Nodup := by
  rw [owners_withPool, List.nodup_append_comm]
  exact List.nodup_cons.mpr ⟨poolOf?_eq_none.mp h, hb⟩

theorem Move.frame (h : Move admits b b') (hb : b.Sound) :
    Frame b b' ∨ ∃ f, b.poolOf? f = none ∧ b' = b.withPool f := by
  cases h with
  | addPool _ f =>
    cases hf : b.poolOf? f with
    | none => exact .inr ⟨f, hf, by rw [after, addPool_of_none hf]⟩
    | some s =>
      rw [after, addPool_of_poolOf? hf]
      exact .inl (.refl b)
  | putTask _ t x => exact .inl ⟨rfl, rfl, rfl⟩
  | schedule _ s t =>
    refine .inl ((schedule_yields b s t).holds_after (.refl b) ?_)
    rintro _ _ ⟨x, p, -, -, -, -, rfl⟩
    exact .scheduled b s t _
  | unschedule _ s t =>
    refine .inl ((unschedule_yields b s t).holds_after (.refl b) ?_)
    rintro _ _ ⟨p, -, -, rfl⟩
    exact .unscheduled b s t
  | assign _ s t u =>
    refine .inl ((assign_yields b s t u).holds_after (.refl b) ?_)
    rintro _ _ ⟨x, p, -, -, -, -, -, rfl⟩
    exact .started b s t u
  | assignNext _ s u => exact .inl (.assignNext b s u)
  | reclaim _ s t =>
    refine .inl ((reclaim_yields b s t hb.toLinked.exists_of_assigned).holds_after (.refl b) ?_)
    rintro _ _ ⟨x, p, -, -, -, -, rfl⟩
    exact .handedBack b s t x _
  | replace _ s old new => exact .inl (.replace b s old new)
  | terminate _ t =>
    refine .inl ((terminate_yields b t).holds_after (.refl b) ?_)
    rintro _ _ ⟨x, -, ⟨-, rfl⟩ | ⟨-, rfl⟩⟩
    · exact .refl _
    · exact .endedTask b t x
  | removeEnded => exact .inl ⟨rfl, rfl, rfl⟩
  | dispatch _ s us =>
    exact .inl (after_dispatch .refl .trans s (fun b u ↦ .assignNext b s u) us b)
  | tick sim =>
    obtain ⟨report, sim', hok, hturns⟩ := Simulation.exists_tick hb
    rw [after, hok]
    exact .inl hturns.frame

theorem Run.nodup_owners (h : Run admits b b') (hb : b.Sound) (hd : b.owners.Nodup) :
    b'.owners.Nodup := by
  induction h with
  | refl => exact hd
  | tail hrun hmove ih =>
    rcases hmove.frame (Run.sound hrun hb) with hframe | ⟨f, hf, rfl⟩
    · exact hframe.owners ▸ ih
    · exact nodup_owners_withPool ih hf

theorem Run.scheduler (h : Run admits b b') (hb : b.Sound) : b'.scheduler = b.scheduler := by
  induction h with
  | refl => rfl
  | tail hrun hmove ih =>
    rcases hmove.frame (Run.sound hrun hb) with hframe | ⟨f, -, rfl⟩
    · exact hframe.scheduler.trans ih
    · exact ih

theorem Reached.nodup_owners (h : Reached b) : b.owners.Nodup := by
  obtain ⟨st, b₀, hst, hrun⟩ := h
  refine hrun.nodup_owners (sound_of_ofSettings hst) ?_
  rw [eq_of_ofSettings hst]
  exact List.nodup_nil

theorem Reached.exists_settings (h : Reached b) :
    ∃ st : Settings, st.check = .ok () ∧ b.scheduler = st.scheduler := by
  obtain ⟨st, b₀, hst, hrun⟩ := h
  have hsame := hrun.scheduler (sound_of_ofSettings hst)
  refine ⟨st, ?_, hsame.trans (by rw [eq_of_ofSettings hst])⟩
  cases hc : st.check with
  | ok _ => rfl
  | error e => simp [ofSettings, hc, bind, Except.bind] at hst

end Board

end Errand
