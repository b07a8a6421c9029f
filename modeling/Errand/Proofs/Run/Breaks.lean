import Errand.Proofs.Run.Chain
import Errand.Proofs.Run.Confined

namespace Errand

namespace Script

/-- A statement and everything below it have their numbers inside the script's own block, and its
breaks have a loop around them. -/
def FitsIn (site : Site) (id n : Nat) : Prop :=
  site.script.Placed (nearestLoop? site.above).isSome ∧ site.id + site.script.size ≤ id + n

theorem fitsIn_of_mem_sitesAll {ss : List Script}
    (h : ∀ s ∈ ss, ∀ id above, s.Placed (nearestLoop? above).isSome →
      ∀ site ∈ s.sitesFrom id above, FitsIn site id s.size)
    (first : Nat) (above : List Ancestor) (hplaced : PlacedAll (nearestLoop? above).isSome ss) :
    ∀ site ∈ sitesAll first above ss, FitsIn site first (sizeAll ss) := by
  induction ss generalizing first with
  | nil =>
    intro site hm
    cases hm
  | cons s ss ih =>
    intro site hm
    rw [sizeAll]
    rcases List.mem_append.mp hm with hm | hm
    · obtain ⟨hp, hle⟩ := h s List.mem_cons_self first above hplaced.1 site hm
      exact ⟨hp, by omega⟩
    · obtain ⟨hp, hle⟩ := ih (fun t ht ↦ h t (List.mem_cons_of_mem s ht)) _ hplaced.2 site hm
      exact ⟨hp, by omega⟩

theorem fitsIn_of_mem_sitesFrom (s : Script) (id : Nat) (above : List Ancestor)
    (hplaced : s.Placed (nearestLoop? above).isSome) :
    ∀ site ∈ s.sitesFrom id above, FitsIn site id s.size := by
  induction s generalizing id above with
  | sequence loc body ih =>
    intro site hm
    rcases List.mem_cons.mp hm with rfl | hm
    · exact ⟨hplaced, Nat.le_refl _⟩
    · obtain ⟨hp, hle⟩ := fitsIn_of_mem_sitesAll ih (id + 1) (⟨id, false⟩ :: above) hplaced site hm
      exact ⟨hp, by rw [size]; omega⟩
  | branch loc c yes no ihy ihn =>
    intro site hm
    rcases List.mem_cons.mp hm with rfl | hm
    · exact ⟨hplaced, Nat.le_refl _⟩
    · rw [size]
      rcases List.mem_append.mp hm with hm | hm
      · obtain ⟨hp, hle⟩ := ihy (id + 1) (⟨id, false⟩ :: above) hplaced.1 site hm
        exact ⟨hp, by omega⟩
      · obtain ⟨hp, hle⟩ := ihn (id + 1 + yes.size) (⟨id, false⟩ :: above) hplaced.2 site hm
        exact ⟨hp, by omega⟩
  | loop loc c body ih =>
    intro site hm
    rcases List.mem_cons.mp hm with rfl | hm
    · exact ⟨hplaced, Nat.le_refl _⟩
    · obtain ⟨hp, hle⟩ := ih (id + 1) (⟨id, true⟩ :: above) hplaced site hm
      exact ⟨hp, by rw [size]; omega⟩
  | leave | assign | print | void | action =>
    intro site hm
    obtain rfl := List.mem_singleton.mp hm
    exact ⟨hplaced, Nat.le_refl _⟩

variable {ω ρ : Type} [World ω] [Chance ρ] {s : Script} {id : Nat} {site : Site}

theorem performAt_eq (h : s.site? id = some site) (actor : Actor) :
    (s.performAt actor id : Exec ω ρ Outcome) = site.script.perform actor id site.above := by
  rw [performAt, h]

theorem loopAround?_eq (h : s.site? id = some site) : s.loopAround? id = nearestLoop? site.above := by
  rw [loopAround?, h]
  rfl

theorem fitsIn_of_mem_sites (hs : s.Placed false) (hsite : site ∈ s.sites) : FitsIn site 0 s.size :=
  fitsIn_of_mem_sitesFrom s 0 [] hs site hsite

theorem performAt_confined (hs : s.Placed false) (hsite : site ∈ s.sites) (hid : site.id = id)
    (actor : Actor) {m : Machine ω ρ} (hm : m.marks.table.size = s.size) :
    Exec.Confined actor.unit id site.script.size site.above m
      (site.script.perform actor id site.above m) := by
  obtain ⟨hplaced, hroom⟩ := fitsIn_of_mem_sites hs hsite
  exact perform_confined site.script id site.above m hplaced (by omega)

theorem performAt_loop_ne_broke (hs : s.Placed false) (hsite : site ∈ s.sites) (hid : site.id = id)
    (hloop : site.script.isLoop = true) (actor : Actor) {m : Machine ω ρ}
    (hm : m.marks.table.size = s.size) (l : Nat) (m' : Machine ω ρ) :
    site.script.perform actor id site.above m ≠ .ok (.broke l) m' := by
  obtain ⟨hplaced, hroom⟩ := fitsIn_of_mem_sites hs hsite
  intro hbroke
  cases hscript : site.script with
  | loop loc c body =>
    rw [hscript] at hplaced hroom hbroke
    have hbody : Contained ω ρ actor body := perform_confined body
    have hconfined : Exec.Confined actor.unit id _ [] m (.ok (.broke l) m') :=
      hbroke ▸ loop_confined loc c hbody hplaced (by omega)
    cases hconfined.1
  | sequence | branch | leave | assign | print | void | action => rw [hscript] at hloop; cases hloop

end Script

namespace Program

open Script

variable {ω ρ : Type} [World ω] [Chance ρ]

theorem advance_confined {p : Program} (hs : p.script.Placed false)
    (hsize : p.marks.table.size = p.script.size) (budget : Nat) (actor : Actor) (world : ω)
    (source : ρ) :
    (∀ c, (p.advance budget actor world source).result ≠ .error (.interrupted (.malformed c))) ∧
      Commanded actor.unit world (p.advance budget actor world source).world := by
  have hcontained : Contained ω ρ actor p.script := perform_confined p.script
  have hconfined := hcontained 0 [] ⟨p.state.grant budget, p.marks, world, source⟩ hs
    (by simp [hsize])
  rw [advance]
  split
  · exact ⟨fun c h ↦ (by cases h), .refl⟩
  · generalize p.script.perform actor 0 []
      (⟨p.state.grant budget, p.marks, world, source⟩ : Machine ω ρ) = r at hconfined
    rcases r with ⟨_ | _ | l, m⟩ | ⟨e, m⟩
    · exact ⟨fun c h ↦ (by cases h), hconfined.1.world⟩
    · exact ⟨fun c h ↦ (by cases h), hconfined.world⟩
    · cases hconfined.1
    · refine ⟨fun c h ↦ ?_, hconfined.2.1.world⟩
      cases h
      cases hconfined.1

theorem Reached.size_eq {s : Script} {capacity : Nat} {p : Program} (hs : s.Placed false)
    (hp : p.Reached s capacity) : p.script = s ∧ p.marks.table.size = s.size := by
  obtain ⟨q, hq⟩ := hp.standsAt hs
  exact ⟨hq.script, hq.size⟩

end Program

namespace Script

open Program

variable {ω ρ : Type} [World ω] [Chance ρ]

/-- Whatever the marks of a script that was built say, none of its statements turns out malformed, a
`break` that comes out of a statement is on its way to the innermost loop around it, and none comes
out of a loop. So no program of the script is ever interrupted as malformed, be it one that the
script comes to or not. -/
theorem perform_never_malformed {d : Statement} {s : Script} (hs : build d = .ok s) :
    (∀ (id : Nat) (actor : Actor) (m : Machine ω ρ), id < s.size → m.marks.table.size = s.size →
      (∀ c m', s.performAt actor id m ≠ .error (.malformed c) m') ∧
      (∀ l m', s.performAt actor id m = .ok (.broke l) m' → s.loopAround? id = some l) ∧
      ∀ site, s.site? id = some site → site.script.isLoop = true →
        ∀ l m', s.performAt actor id m ≠ .ok (.broke l) m') ∧
    (∀ p : Program, p.script = s → p.marks.table.size = s.size →
      ∀ (budget : Nat) (actor : Actor) (world : ω) (source : ρ) (c : Malformation),
        (p.advance budget actor world source).result ≠ .error (.interrupted (.malformed c))) ∧
    ∀ (capacity : Nat) (p : Program), p.Reached s capacity →
      ∀ (budget : Nat) (actor : Actor) (world : ω) (source : ρ) (c : Malformation),
        (p.advance budget actor world source).result ≠ .error (.interrupted (.malformed c)) := by
  have hplaced := placed_of_build hs
  have hprogram : ∀ p : Program, p.script = s → p.marks.table.size = s.size →
      ∀ (budget : Nat) (actor : Actor) (world : ω) (source : ρ) (c : Malformation),
        (p.advance budget actor world source).result ≠ .error (.interrupted (.malformed c)) := by
    intro p hscript hsize
    rw [← hscript] at hplaced hsize
    exact fun budget actor world source ↦ (advance_confined hplaced hsize budget actor world source).1
  refine ⟨fun id actor m hid hm ↦ ?_, hprogram, fun capacity p hp ↦ ?_⟩
  · obtain ⟨site, hmem, hsite, rfl⟩ := exists_site hid
    have hconfined := performAt_confined hplaced hmem rfl actor hm
    rw [performAt_eq hsite, loopAround?_eq hsite]
    refine ⟨fun c m' h ↦ ?_, fun l m' h ↦ ?_, fun site' hsite' hloop ↦ ?_⟩
    · rw [h] at hconfined
      cases hconfined.1
    · rw [h] at hconfined
      exact hconfined.1
    · cases hsite.symm.trans hsite'
      exact performAt_loop_ne_broke hplaced hmem rfl hloop actor hm
  · obtain ⟨hscript, hsize⟩ := hp.size_eq hplaced
    exact hprogram p hscript hsize

/-- The marks of a patrol at its station that no run leads to: the branch of the `if` is that of the
`break`, and the loop does not know that it has begun. -/
theorem perform_never_malformed_station :
    let s := ofStatement station
    let m : Machine Canned WordSource :=
      ⟨{ capacity := 4, timer := 1 },
        ⟨#[{ owesTurn := true }, { branch := some .yes, cursor := 7 }, {}, {}]⟩, {}, {}⟩
    (∃ l m', s.performAt ⟨⟨1⟩, none⟩ 1 m = .ok (.broke l) m' ∧ s.loopAround? 1 = some l) ∧
      ∀ l m', s.performAt ⟨⟨1⟩, none⟩ 0 m ≠ .ok (.broke l) m' := by
  intro s m
  have hbuild : build station = .ok s := rfl
  obtain ⟨hperform, -⟩ := @perform_never_malformed Canned WordSource _ _ _ _ hbuild
  obtain ⟨-, hbroke, -⟩ := hperform 1 ⟨⟨1⟩, none⟩ m (by decide) rfl
  obtain ⟨-, -, hloop⟩ := hperform 0 ⟨⟨1⟩, none⟩ m (by decide) rfl
  have hout : (s.performAt ⟨⟨1⟩, none⟩ 1).run' m = some (.broke 0) := by decide +kernel
  cases h : s.performAt ⟨⟨1⟩, none⟩ 1 m with
  | ok outcome m' =>
    delta EStateM.run' EStateM.run at hout
    rw [h] at hout
    cases hout
    exact ⟨⟨0, m', rfl, hbroke 0 m' h⟩, hloop _ rfl rfl⟩
  | error e m' =>
    delta EStateM.run' EStateM.run at hout
    rw [h] at hout
    cases hout

end Script

end Errand
