import Errand.Proofs.Run.Walk
import Errand.World.Canned

namespace Errand

namespace Script

variable {s : Script} {q : Site} {a l j : Nat}

/-- The links to parents lead from `id` to `j`, which may be `id` itself, and on from there to `a`. -/
def OnWay (s : Script) (id a j : Nat) : Prop := (j = id ∨ s.Above j id) ∧ s.Above a j

theorem lt_of_above (h : s.Above a j) : a < j := by
  induction h with
  | single hparent => exact lt_of_mem_childIds (mem_childIds_iff_parent?.2 hparent)
  | tail _ hparent ih =>
    exact Nat.lt_trans ih (lt_of_mem_childIds (mem_childIds_iff_parent?.2 hparent))

theorem above_of_loopAround? (hq : q ∈ s.sites) (h : s.loopAround? q.id = some l) :
    s.Above l q.id := by
  have hnear := isNearestLoop_loopAround? s q hq
  rw [h] at hnear
  exact hnear.1

theorem mem_withinLoop (s : Script) (l j : Nat) :
    ∀ c ∈ s.sites, s.loopAround? c.id = some l →
      (j ∈ withinLoop c.above ↔ s.Above j c.id ∧ s.Above l j) := by
  apply sitesInduction
  · intro h
    rw [loopAround?_root] at h
    cases h
  · intro q hq ih c hc h
    rw [(of_mem_below hc).1, Site.ancestor, above_below hq hc]
    rw [loopAround?_below hq hc] at h
    cases hloop : q.script.isLoop with
    | true =>
      -- The parent is the loop, and nothing is between it and its child.
      rw [hloop, if_pos rfl, Option.some.injEq] at h
      subst h
      constructor
      · intro hj
        cases hj
      · rintro ⟨rfl | hj, hl⟩
        · exact absurd (lt_of_above hl) (Nat.lt_irrefl _)
        · exact absurd (lt_of_above hl) (Nat.lt_asymm (lt_of_above hj))
    | false =>
      rw [hloop, if_neg Bool.false_ne_true] at h
      have hl := above_of_loopAround? hq h
      rw [withinLoop_cons_false, List.mem_cons, ih h]
      constructor
      · rintro (rfl | ⟨hj, hlj⟩)
        · exact ⟨.inl rfl, hl⟩
        · exact ⟨.inr hj, hlj⟩
      · rintro ⟨rfl | hj, hlj⟩
        · exact .inl rfl
        · exact .inr ⟨hj, hlj⟩

theorem onWay_iff (hq : q ∈ s.sites) (h : s.loopAround? q.id = some l) :
    s.OnWay q.id l j ↔ j = q.id ∨ j ∈ withinLoop q.above := by
  rw [OnWay, mem_withinLoop s l j q hq h]
  constructor
  · rintro ⟨rfl | hj, hl⟩
    · exact .inl rfl
    · exact .inr ⟨hj, hl⟩
  · rintro (rfl | ⟨hj, hl⟩)
    · exact ⟨.inl rfl, above_of_loopAround? hq h⟩
    · exact ⟨.inr hj, hl⟩

end Script

variable {ω ρ : Type} [World ω]

namespace Exec

open Marks

variable {u : UnitId} {first n l j : Nat} {above : List Ancestor} {m m' : Machine ω ρ}

theorem Confined.get_of_broke (h : Confined u first n above m (.ok (.broke l) m'))
    (hj : j < first ∨ first + n ≤ j) :
    m'.marks.get j = if j ∈ withinLoop above then {} else m.marks.get j := by
  rw [h.2.1.marks.get j hj, Machine.withMarks, get_clear]

omit [World ω] in
theorem broke_of_enter (id : Nat) {x : Exec ω ρ Outcome} (h : enter id x m = .ok (.broke l) m') :
    x (m.withMarks (started m.marks id)) = .ok (.broke l) m' := by
  obtain ⟨_, _, hstart, h⟩ := exists_of_bind_eq_ok h
  cases hstart
  obtain ⟨outcome, m₁, hx, h⟩ := exists_of_bind_eq_ok h
  cases outcome with
  | completed => cases h
  | suspended => cases h
  | broke l' =>
    cases h
    exact hx

end Exec

namespace Script

open Exec Marks

variable [Chance ρ] {actor : Actor} {l : Nat} {m' : Machine ω ρ}

theorem parent_blank {c : Script} {id first : Nat} {above : List Ancestor}
    (hplaced : c.Placed (nearestLoop? above).isSome) (hid : id < first) {m : Machine ω ρ}
    (hsize : first + c.size ≤ m.marks.table.size)
    (h : c.perform actor first (⟨id, false⟩ :: above) m = .ok (.broke l) m') :
    m'.marks.get id = {} := by
  have hconfined : Confined actor.unit first c.size (⟨id, false⟩ :: above) m (.ok (.broke l) m') :=
    h ▸ perform_confined c first (⟨id, false⟩ :: above) m hplaced hsize
  rw [hconfined.get_of_broke (.inl hid), withinLoop_cons_false, if_pos List.mem_cons_self]

theorem performRest_blank {ss : List Script} {above : List Ancestor}
    (hplaced : PlacedAll (nearestLoop? above).isSome ss) {owner index first : Nat}
    (howner : owner < first) {m : Machine ω ρ} (hsize : first + sizeAll ss ≤ m.marks.table.size)
    (h : performRest actor ss owner index first (⟨owner, false⟩ :: above) m = .ok (.broke l) m') :
    m'.marks.get owner = {} := by
  induction ss generalizing index first m with
  | nil => cases h
  | cons s ss ih =>
    rw [sizeAll] at hsize
    rw [performRest_cons, childThen, bind_apply] at h
    simp only [mark, bind_apply, get_apply, pure_apply] at h
    split at h
    · exact ih hplaced.2 (by omega) (by omega) h
    · obtain ⟨outcome, m₁, hrun, h⟩ := exists_of_bind_eq_ok h
      cases outcome with
      | completed =>
        have hconfined : Confined actor.unit first s.size _ m (.ok .completed m₁) :=
          hrun ▸ perform_confined s first (⟨owner, false⟩ :: above) m hplaced.1 (by omega)
        refine ih hplaced.2 (by omega) ?_ h
        simp only [size_update, hconfined.1.marks.size]
        omega
      | suspended => cases h
      | broke l' =>
        cases h
        exact parent_blank hplaced.1 howner (by omega) hrun

theorem branch_blank {loc : Location} {c : Expr} {yes no : Script} {id : Nat} {above : List Ancestor}
    (hplaced : (branch loc c yes no).Placed (nearestLoop? above).isSome) {m : Machine ω ρ}
    (hsize : id + (branch loc c yes no).size ≤ m.marks.table.size)
    (h : (branch loc c yes no).perform actor id above m = .ok (.broke l) m') :
    m'.marks.get id = {} := by
  rw [size] at hsize
  rw [perform_branch] at h
  have h := broke_of_enter id h
  have hsize : id + (yes.size + no.size + 1) ≤
      (m.withMarks (started m.marks id)).marks.table.size := by
    simpa only [Machine.withMarks, started, size_update] using hsize
  generalize m.withMarks (started m.marks id) = m at h hsize
  obtain ⟨_, m₁, hreleased, h⟩ := exists_of_bind_eq_ok h
  obtain ⟨chosen, m₂, hchosen, h⟩ := exists_of_bind_eq_ok h
  have hwithin := chosenBranch_within actor id c Nat.one_pos m₁
  simp only [hchosen] at hwithin
  rcases chosen with _ | _ | _
  · cases h
  · rw [← releaseBranch_size hreleased, ← hwithin.1.marks.size] at hsize
    exact parent_blank hplaced.1 (Nat.lt_succ_self id) (by omega) h
  · rw [← releaseBranch_size hreleased, ← hwithin.1.marks.size] at hsize
    exact parent_blank hplaced.2 (by omega) (by omega) h

theorem perform_blank (s : Script) {id : Nat} {above : List Ancestor}
    (hplaced : s.Placed (nearestLoop? above).isSome) {m : Machine ω ρ}
    (hsize : id + s.size ≤ m.marks.table.size)
    (h : s.perform actor id above m = .ok (.broke l) m') : m'.marks.get id = {} := by
  -- A loop, and a leaf that is no break, do the same below nothing, and no break comes out there.
  have hnone : Confined actor.unit id s.size [] m (.ok (.broke l) m') → m'.marks.get id = {} := by
    intro hconfined
    cases hconfined.1
  cases s with
  | sequence loc body =>
    have h := broke_of_enter id h
    refine performRest_blank hplaced (Nat.lt_succ_self id) ?_ h
    rw [size] at hsize
    simp only [Machine.withMarks, started, size_update]
    omega
  | branch loc c yes no => exact branch_blank hplaced hsize h
  | loop loc c body =>
    exact hnone (h ▸ loop_confined loc c (perform_confined body) hplaced hsize)
  | leave loc =>
    obtain ⟨paid, m₁, -, h⟩ := exists_of_bind_eq_ok (broke_of_enter id h)
    obtain ⟨loop, hloop⟩ := Option.isSome_iff_exists.mp hplaced
    cases paid with
    | false => cases h
    | true =>
      rw [if_pos rfl, leaveLoop, hloop] at h
      cases h
      simp [get_clear]
  | assign loc name e => exact hnone (h ▸ perform_confined (assign loc name e) id [] m trivial hsize)
  | print loc e => exact hnone (h ▸ perform_confined (print loc e) id [] m trivial hsize)
  | void loc => exact hnone (h ▸ perform_confined (void loc) id [] m trivial hsize)
  | action loc a e => exact hnone (h ▸ perform_confined (action loc a e) id [] m trivial hsize)

/-- Outside a statement and what is below it, the marks are the same. -/
structure KeepsOutside (s : Script) (id : Nat) (k k' : Marks) : Prop where
  size : k'.table.size = k.table.size
  get : ∀ j, ¬ s.Spans id j → k'.get j = k.get j

/-- On the way from a statement up to `l` the marks are blank. All others outside the statement are
the same. -/
structure Unwinds (s : Script) (id l : Nat) (k k' : Marks) : Prop where
  above : s.Above l id
  size : k'.table.size = k.table.size
  blank : ∀ j, s.OnWay id l j → k'.get j = {}
  get : ∀ j, ¬ s.Spans id j → ¬ s.OnWay id l j → k'.get j = k.get j

/-- What has become of the marks `k` when a statement ends. -/
def Frames (s : Script) (id : Nat) (k : Marks) :
    EStateM.Result EvalError (Machine ω ρ) Outcome → Prop
  | .ok .completed m => s.KeepsOutside id k m.marks
  | .ok .suspended m => s.KeepsOutside id k m.marks
  | .ok (.broke l) m => s.Unwinds id l k m.marks
  | .error _ m => s.KeepsOutside id k m.marks

variable {s : Script} {q : Site} {m : Machine ω ρ}

theorem off_block_of_not_spans (hq : q ∈ s.sites) {j : Nat} (h : ¬ s.Spans q.id j) :
    j < q.id ∨ q.id + q.script.size ≤ j := by
  rw [spans_iff hq] at h
  omega

omit [Chance ρ] in
theorem keepsOutside_of_within (hq : q ∈ s.sites)
    (h : m.Within actor.unit q.id q.script.size m') : s.KeepsOutside q.id m.marks m'.marks :=
  ⟨h.marks.size, fun j hj ↦ h.marks.get j (off_block_of_not_spans hq hj)⟩

theorem unwinds_of_broke (hs : s.Placed false) (hq : q ∈ s.sites)
    (hm : m.marks.table.size = s.size)
    (h : q.script.perform actor q.id q.above m = .ok (.broke l) m') :
    s.Unwinds q.id l m.marks m'.marks := by
  obtain ⟨hplaced, hroom⟩ := fitsIn_of_mem_sites hs hq
  have hconfined : Confined actor.unit q.id q.script.size q.above m (.ok (.broke l) m') :=
    h ▸ performAt_confined hs hq rfl actor hm
  have hloop : s.loopAround? q.id = some l :=
    (loopAround?_eq (site?_of_mem hq)).trans hconfined.1
  refine ⟨above_of_loopAround? hq hloop, ?_, fun j hj ↦ ?_, fun j hj hway ↦ ?_⟩
  · exact hconfined.2.1.marks.size.trans (size_clear _ _)
  · rcases (onWay_iff hq hloop).1 hj with rfl | hj
    · exact perform_blank q.script hplaced (by omega) h
    · have habove := ((mem_withinLoop s l j q hq hloop).1 hj).1
      rw [hconfined.get_of_broke (.inl (lt_of_above habove)), if_pos hj]
  · have hcleared : j ∉ withinLoop q.above := fun hj ↦ hway ((onWay_iff hq hloop).2 (.inr hj))
    rw [hconfined.get_of_broke (off_block_of_not_spans hq hj), if_neg hcleared]

/-- Performing a statement of a script that was built changes no mark outside the statement and what
is below it, whatever the marks say and also when it fails, but for a `break` that comes out of it:
then the marks on the way up to its loop are blank, and every other one outside is as it was. -/
theorem performAt_frames {d : Statement} (hs : build d = .ok s) (actor : Actor) {id : Nat}
    (hid : id < s.size) (m : Machine ω ρ) (hm : m.marks.table.size = s.size) :
    s.Frames id m.marks (s.performAt actor id m) := by
  have hplaced := placed_of_build hs
  obtain ⟨q, hq, hsite, rfl⟩ := exists_site hid
  have hconfined := performAt_confined hplaced hq rfl actor hm
  rw [performAt_eq hsite]
  cases hrun : q.script.perform actor q.id q.above m with
  | ok outcome m' =>
    rw [hrun] at hconfined
    cases outcome with
    | completed => exact keepsOutside_of_within hq hconfined.1
    | suspended => exact keepsOutside_of_within hq hconfined
    | broke l => exact unwinds_of_broke hplaced hq hm hrun
  | error e m' =>
    rw [hrun] at hconfined
    exact keepsOutside_of_within hq hconfined.2.1

/-- The `break` has number 5. It clears the marks with numbers 4, 3 and 1, and not that of the loop. -/
theorem performAt_frames_nested :
    let d : Statement := .loop {} (.boolean true) (.sequence {} [.void {},
      .branch {} (.boolean true) (.sequence {} [.leave {}]) none, .print {} .self])
    let s := ofStatement d
    let m : Machine Canned WordSource :=
      ⟨{ capacity := 4, timer := 1 },
        ⟨#[{ cursor := 9 }, { pending := true, cursor := 1 }, { issued := true },
          { pending := true, branch := some .yes }, {}, {}, { cursor := 2 }, { pending := true }]⟩,
        {}, {}⟩
    ∃ m', s.performAt ⟨⟨1⟩, none⟩ 4 m = .ok (.broke 0) m' ∧ s.Unwinds 4 0 m.marks m'.marks ∧
      m'.marks.table =
        #[{ cursor := 9 }, {}, { issued := true }, {}, {}, {}, { cursor := 2 }, { pending := true }] := by
  intro d s m
  have hbuild : build d = .ok s := rfl
  have hid : 4 < s.size := by decide
  have hframes := performAt_frames hbuild ⟨⟨1⟩, none⟩ hid m rfl
  exact ⟨_, rfl, hframes, by decide +kernel⟩

end Script

end Errand
