import Errand.Proofs.Run.Steps
import Errand.Proofs.Run.Walk
import Errand.World.Canned

namespace Errand

variable {ω ρ α : Type}

def Machine.flagged (m : Machine ω ρ) (b : Bool) : Machine ω ρ :=
  { m with state := { m.state with depleted := b } }

namespace Exec

def flaggedResult (b : Bool) :
    EStateM.Result EvalError (Machine ω ρ) α → EStateM.Result EvalError (Machine ω ρ) α
  | .ok a m => .ok a (m.flagged b)
  | .error e m => .error e (m.flagged b)

/-- With another flag at the start the steps do the same, but for the flag. -/
structure Blind (x : Exec ω ρ α) : Prop where
  alike : ∀ m b, ∃ b', x (m.flagged b) = flaggedResult b' (x m)

theorem blind_spend : Blind (spend : Exec ω ρ Bool) := by
  constructor
  intro m b
  cases ht : m.state.timer with
  | zero =>
    have hflagged : (m.flagged b).state.timer = 0 := ht
    exact ⟨true, by rw [spend_of_zero ht, spend_of_zero hflagged]; rfl⟩
  | succ t =>
    have hflagged : (m.flagged b).state.timer = t + 1 := ht
    exact ⟨b, by rw [spend_of_succ ht, spend_of_succ hflagged]; rfl⟩

theorem blind_write (line : String) : Blind (write line : Exec ω ρ Unit) := by
  constructor
  intro m b
  refine ⟨b, ?_⟩
  rw [write, modify_apply, modify_apply, RunState.write, RunState.write]
  by_cases hkept : m.state.capacity = 0
  · simp [Machine.flagged, flaggedResult, hkept]
  · simp [Machine.flagged, flaggedResult, hkept]

theorem blind_evaluate (actor : Actor) (x : View ω → Draw ρ α) : Blind (evaluate actor x) := by
  constructor
  intro m b
  refine ⟨b, ?_⟩
  simp only [evaluate, Machine.flagged]
  cases x ⟨m.world, m.state.env, actor⟩ m.source <;> rfl

variable [World ω]

theorem closed_blind : Closed fun (α : Type) (x : Exec ω ρ α) ↦ Blind x where
  pure _ := ⟨fun _ b ↦ ⟨b, rfl⟩⟩
  bind {α β x f} hx hf := by
    constructor
    intro m b
    obtain ⟨b', hb⟩ := hx.alike m b
    rw [Errand.bind_apply, Errand.bind_apply, hb]
    cases x m with
    | ok a m' => exact (hf a).alike m' b'
    | error e m' => exact ⟨b', rfl⟩
  malformed _ := ⟨fun _ b ↦ ⟨b, rfl⟩⟩
  look _ := ⟨fun _ b ↦ ⟨b, rfl⟩⟩
  changeMarks _ := ⟨fun _ b ↦ ⟨b, rfl⟩⟩
  spend := blind_spend
  assign _ _ := ⟨fun _ b ↦ ⟨b, rfl⟩⟩
  write := blind_write
  issue _ _ := ⟨fun _ b ↦ ⟨b, rfl⟩⟩

/-- The steps note a want of time: after them the flag is set, be it clear before. -/
def SetsFlag (x : Exec ω ρ α) (m : Machine ω ρ) : Prop :=
  (after x (m.flagged false)).state.depleted = true

end Exec

namespace Script

open Exec

variable [World ω] [Chance ρ]

theorem blind_perform (actor : Actor) (s : Script) (id : Nat) (above : List Ancestor) :
    Blind (s.perform actor id above : Exec ω ρ Outcome) := by
  apply closed_perform closed_blind _ s (every_of_forall (fun _ _ ↦ trivial) s)
  constructor
  all_goals exact fun _ ↦ blind_evaluate actor _

theorem suspended_of_setsFlag {s : Script} {q : Site} (hs : s.Placed false) (hq : q ∈ s.sites)
    {actor : Actor} {m : Machine ω ρ} (hm : m.marks.table.size = s.size)
    (h : SetsFlag (q.script.perform actor q.id q.above) m) :
    ∃ m', q.script.perform actor q.id q.above m = .ok .suspended m' := by
  have hconfined := performAt_confined hs hq rfl actor (m := m.flagged false) hm
  obtain ⟨b, hb⟩ := (blind_perform actor q.script q.id q.above).alike m false
  rw [SetsFlag, after, hb] at h
  rw [hb] at hconfined
  generalize q.script.perform actor q.id q.above m = r at h hconfined
  rcases r with ⟨_ | _ | l, m'⟩ | ⟨e, m'⟩
  · cases h.symm.trans hconfined.2
  · exact ⟨m', rfl⟩
  · cases h.symm.trans hconfined.2.2
  · cases h.symm.trans hconfined.2.2

theorem timer_perform_le {s : Script} {q : Site} (hs : s.Placed false) (hq : q ∈ s.sites)
    (actor : Actor) {m : Machine ω ρ} (hm : m.marks.table.size = s.size) :
    (Walk.result (q.script.perform actor q.id q.above m)).2.state.timer ≤ m.state.timer := by
  have hconfined := performAt_confined hs hq rfl actor hm
  generalize q.script.perform actor q.id q.above m = r at hconfined
  rcases r with ⟨_ | _ | l, m'⟩ | ⟨e, m'⟩
  · exact hconfined.1.timer
  · exact Machine.Within.timer hconfined
  · exact hconfined.2.1.timer
  · exact hconfined.2.1.timer

/-- Performing a statement of a script that was built comes to an end, whatever the marks say and
however long its loops might go on. No time is gained by it, and a statement that notes a want of time
is suspended. -/
theorem perform_halts {d : Statement} {s : Script} (hs : build d = .ok s) (actor : Actor) {id : Nat}
    (hid : id < s.size) (m : Machine ω ρ) (hm : m.marks.table.size = s.size) :
    ∃ r m', Settles (fun fuel ↦ Walk.perform (Arena.ofStatement d) actor fuel id m) (r, m') ∧
      Walk.result (s.performAt actor id m) = (r, m') ∧ m'.state.timer ≤ m.state.timer ∧
      (SetsFlag (s.performAt actor id) m → r = .ok .suspended) := by
  have hplaced := placed_of_build hs
  obtain ⟨rfl, -⟩ := check_of_build hs
  obtain ⟨q, hq, hsite, rfl⟩ := exists_site hid
  have hwalk : Walk.Ends (Walk.perform (Arena.ofStatement d) actor · q.id)
      (q.script.perform actor q.id q.above) m :=
    ends_perform (Arena.lays_ofStatement d) hplaced q.script q.id q.above m hq hm
  rw [performAt_eq hsite]
  refine ⟨_, _, hwalk.settles, rfl, timer_perform_le hplaced hq actor hm, fun hflag ↦ ?_⟩
  obtain ⟨m', hsuspended⟩ := suspended_of_setsFlag hplaced hq hm hflag
  rw [hsuspended]

/-- A loop without end around nothing, with a turn owed from no run that led there. It takes all the
time there is. -/
theorem perform_halts_idle :
    let d : Statement := .loop {} (.boolean true) (.void {})
    let s := ofStatement d
    let m : Machine Canned WordSource :=
      ⟨{ capacity := 4, timer := 5, depleted := true }, ⟨#[{ owesTurn := true, cursor := 3 }, {}]⟩, {}, {}⟩
    SetsFlag (s.performAt ⟨⟨1⟩, none⟩ 0) m ∧ ∃ m', m'.state.timer = 0 ∧
      Settles (fun fuel ↦ Walk.perform (Arena.ofStatement d) ⟨⟨1⟩, none⟩ fuel 0 m)
        (.ok .suspended, m') := by
  intro d s m
  have hroot : 0 < s.size := by decide
  have hbuild : build d = .ok s := rfl
  have hflag : SetsFlag (s.performAt ⟨⟨1⟩, none⟩ 0) m := by
    rw [SetsFlag]
    decide +kernel
  obtain ⟨r, m', hwalk, hresult, -, hsuspended⟩ :=
    perform_halts hbuild ⟨⟨1⟩, none⟩ hroot m rfl
  rw [hsuspended hflag] at hwalk
  have htime : (Walk.result (s.performAt ⟨⟨1⟩, none⟩ 0 m)).2.state.timer = 0 := by
    decide +kernel
  rw [hresult] at htime
  exact ⟨hflag, m', htime, hwalk⟩

end Script

end Errand
