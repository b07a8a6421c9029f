import Errand.Proofs.Run.Reach
import Errand.Proofs.Script.Trail
import Errand.World.Canned

namespace Errand.Program

open Script

variable {ω ρ : Type} [World ω] [Chance ρ]

theorem Reached.oneChain {s : Script} {capacity : Nat} {p : Program} (hs : s.Placed false)
    (hp : p.Reached s capacity) : s.OneChain p.marks := by
  obtain ⟨q, hq⟩ := hp.standsAt hs
  exact hq.stands.oneChain hq.size

theorem StandsAt.trail_eq_nil {s : Script} {p : Program} (h : p.StandsAt s none) :
    s.trail p.marks = [] :=
  trailFrom_of_not_pending s (not_pending_of_blank h.stands s.size_pos)

theorem StandsAt.current {s : Script} {p : Program} {q : Point} (h : p.StandsAt s (some q)) :
    ∃ site, s.site? site.id = some site ∧ p.current? = some site.id ∧
      (if q.awaits then site.sent p.marks else site.untaken p.marks) = true := by
  obtain ⟨site, hsite, hlast, hstep⟩ := Holds.current h.stands []
  refine ⟨site, site?_of_mem hsite, ?_, hstep⟩
  rw [current?, h.script]
  exact hlast

/-- The started statements of a program are one chain, and a tick leaves it where it stopped. -/
theorem Reached.chain_advance {d : Statement} {s : Script} {capacity : Nat} {p : Program}
    (hs : Script.build d = .ok s) (hp : p.Reached s capacity) (budget : Nat) (actor : Actor)
    (world : ω) (source : ρ) :
    let step := p.advance budget actor world source
    s.OneChain p.marks ∧ s.OneChain step.program.marks ∧
      (step.result = .ok (.suspended .awaitingAction) →
        ∃ site, s.site? site.id = some site ∧ step.program.current? = some site.id ∧
          site.sent step.program.marks = true) ∧
      (step.result = .ok (.suspended .timeDepleted) →
        step.program.state.timer = 0 ∧
        ∃ site, s.site? site.id = some site ∧ step.program.current? = some site.id ∧
          site.untaken step.program.marks = true) ∧
      (step.result = .ok .finished ∨ (∃ e, step.result = .error e) →
        s.trail step.program.marks = []) := by
  intro step
  have hplaced := placed_of_build hs
  refine ⟨hp.oneChain hplaced, (hp.advance budget actor world source).oneChain hplaced, ?_⟩
  obtain ⟨q, hq⟩ := hp.standsAt hplaced
  cases hrun : p.stopped with
  | true =>
    have hstep : step = ⟨.ok .stopped, p, world, source⟩ :=
      advance_stopped hrun budget actor world source
    simp [hstep]
  | false =>
    let m : Machine ω ρ := ⟨p.state.grant budget, p.marks, world, source⟩
    have hleaves : p.Leaves s step (s.resume actor q m) :=
      advance_leaves hplaced hq hrun budget actor m rfl
    have hclock : Exec.ClockedAt m (s.resume actor q m) := clocked_resume s q m rfl
    generalize s.resume actor q m = r at hleaves hclock
    rcases r with ⟨_ | _ | q', m'⟩ | ⟨e, m'⟩
    · obtain ⟨hresult, hend⟩ := hleaves.finished hq.script
      simp [hresult, hend.trail_eq_nil]
    · exact hleaves.elim
    · obtain ⟨hresult, hstate, hq'⟩ := hleaves.suspended
      obtain ⟨-, hawaits, hzero⟩ := hclock
      obtain ⟨site, hsite, hcurrent, hstep⟩ := hq'.current
      rw [hawaits] at hstep
      cases hd : m'.state.depleted with
      | true =>
        rw [hd] at hresult hstep
        have hempty : step.program.state.timer = 0 := by rw [hstate, hzero hd]
        simpa [hresult, hempty] using ⟨site, hsite, hcurrent, hstep⟩
      | false =>
        rw [hd] at hresult hstep
        simpa [hresult] using ⟨site, hsite, hcurrent, hstep⟩
    · obtain ⟨hresult, hend⟩ := hleaves.failed hq.script
      simp [hresult, hend.trail_eq_nil]

def station : Statement :=
  .loop {} (.boolean true) (.branch {} (.carriesItem .self) (.leave {})
    (some (.action {} .moveTo .selected)))

theorem chain_advance_station :
    let world : Canned := { rows := [{ id := ⟨1⟩, busy := true }] }
    let step := (start (ofStatement station) 4).advance 5 ⟨⟨1⟩, some ⟨2, 0, 0⟩⟩ world ({} : WordSource)
    step.result = .ok (.suspended .awaitingAction) ∧
      (ofStatement station).trail step.program.marks = [0, 1, 3] ∧
      (ofStatement station).OneChain step.program.marks ∧
      ∃ site : Site, step.program.current? = some site.id ∧ site.sent step.program.marks = true := by
  have hbuild : build station = .ok (ofStatement station) := rfl
  obtain ⟨-, hchain, hawaiting, -⟩ :=
    Reached.chain_advance hbuild (.start : Reached _ 4 _) 5 ⟨⟨1⟩, some ⟨2, 0, 0⟩⟩
      ({ rows := [{ id := ⟨1⟩, busy := true }] } : Canned) ({} : WordSource)
  obtain ⟨site, -, hcurrent, hsent⟩ := hawaiting (by decide +kernel)
  exact ⟨by decide +kernel, by decide +kernel, hchain, site, hcurrent, hsent⟩

end Errand.Program
