import Errand.Proofs.Run.Resume
import Errand.Proofs.Run.Steps
import Errand.Proofs.Script.Placement

namespace Errand

variable {ω ρ : Type}

def Machine.withMarks (m : Machine ω ρ) (k : Marks) : Machine ω ρ := { m with marks := k }

namespace Exec

variable {α : Type}

theorem mark_apply (m : Machine ω ρ) (k : Marks) (id : Nat) :
    mark id (m.withMarks k) = .ok (k.get id) (m.withMarks k) := rfl

theorem updateMark_apply (m : Machine ω ρ) (k : Marks) (id : Nat) (f : Mark → Mark) :
    updateMark id f (m.withMarks k) = .ok () (m.withMarks (k.update id f)) := rfl

theorem spend_zero {m : Machine ω ρ} (h : m.state.timer = 0) (k : Marks) :
    spend (m.withMarks k) =
      .ok false (({ m with state := { m.state with depleted := true } } : Machine ω ρ).withMarks k) :=
  spend_of_zero (m := m.withMarks k) h

theorem spend_succ {m : Machine ω ρ} {n : Nat} (h : m.state.timer = n + 1) (k : Marks) :
    spend (m.withMarks k) =
      .ok true (({ m with state := { m.state with timer := n } } : Machine ω ρ).withMarks k) :=
  spend_of_succ (m := m.withMarks k) h

theorem evaluate_withMarks (actor : Actor) (x : View ω → Draw ρ α) (m : Machine ω ρ) (k : Marks) :
    evaluate actor x (m.withMarks k) =
      match evaluate actor x m with
      | .ok a m' => .ok a (m'.withMarks k)
      | .error e m' => .error e (m'.withMarks k) := by
  simp only [evaluate, Machine.withMarks]
  cases x ⟨m.world, m.state.env, actor⟩ m.source <;> rfl

theorem evaluate_state {actor : Actor} {x : View ω → Draw ρ α} {m m' : Machine ω ρ} {a : α}
    (h : evaluate actor x m = .ok a m') : m'.state = m.state := by
  simp only [evaluate] at h
  split at h
  · cases h; rfl
  · cases h

def started (k : Marks) (id : Nat) : Marks := k.update id ({ · with pending := true })

theorem enter_apply (id : Nat) (x : Exec ω ρ Outcome) (m : Machine ω ρ) (k : Marks) :
    enter id x (m.withMarks k) =
      match x (m.withMarks (started k id)) with
      | .ok .completed m' => .ok .completed (m'.withMarks (m'.marks.clear [id]))
      | r => r := by
  rw [enter, bind_apply, updateMark_apply]
  simp only [bind_apply, started]
  rcases x (m.withMarks (k.update id ({ · with pending := true }))) with ⟨_ | _ | l, m'⟩ | ⟨e, m'⟩ <;>
    rfl

end Exec

namespace Script

open Exec Marks

/-- What performing a statement comes to when the run without marks ends so. A completed statement
leaves blank marks from number `lo` of its block on; a `break` has also cleared the statements up to
its loop. -/
def Tracks (s : Script) (id : Nat) (above : List Ancestor) (lo : Nat) (k : Marks) :
    EStateM.Result EvalError (Machine ω ρ) Pause →
    EStateM.Result EvalError (Machine ω ρ) Outcome → Prop
  | .ok .done m, r => ∃ k', r = .ok .completed (m.withMarks k') ∧
      k'.BlankOn lo (id + s.size - lo) ∧ SameOff id s.size k k'
  | .ok .broke m, r => ∃ loop k', nearestLoop? above = some loop ∧
      r = .ok (.broke loop) (m.withMarks k') ∧ k'.BlankOn id s.size ∧
      k'.table.size = k.table.size ∧
      ∀ j, j < id ∨ id + s.size ≤ j → k'.get j = if j ∈ withinLoop above then {} else k.get j
  | .ok (.paused p) m, r => ∃ k', r = .ok .suspended (m.withMarks k') ∧
      s.Holds k' id p ∧ SameOff id s.size k k'
  | .error e m, r => ∃ k', r = .error e (m.withMarks k') ∧ k'.table.size = k.table.size

variable {s : Script} {id lo : Nat} {above : List Ancestor} {k k' : Marks}
  {R : EStateM.Result EvalError (Machine ω ρ) Pause}
  {r : EStateM.Result EvalError (Machine ω ρ) Outcome}

theorem Tracks.of_sameOff (h : Tracks s id above lo k' R r) (hk : SameOff id s.size k k') :
    Tracks s id above lo k R r := by
  rcases R with ⟨_ | _ | p, m⟩ | ⟨e, m⟩
  · obtain ⟨n, hr, hb, hn⟩ := h
    exact ⟨n, hr, hb, hk.trans hn⟩
  · obtain ⟨l, n, hl, hr, hb, hn, hg⟩ := h
    refine ⟨l, n, hl, hr, hb, hn.trans hk.size, fun j hj ↦ ?_⟩
    rw [hg j hj, hk.get j hj]
  · obtain ⟨n, hr, hp, hn⟩ := h
    exact ⟨n, hr, hp, hk.trans hn⟩
  · obtain ⟨n, hr, hn⟩ := h
    exact ⟨n, hr, hn.trans hk.size⟩

def Opened (k : Marks) (s : Script) (id : Nat) : Option Point → Prop
  | none => k.get id = { pending := true } ∧ k.BlankOn (id + 1) (s.size - 1)
  | some p => s.Holds k id p

theorem started_sameOff (k : Marks) (s : Script) (id : Nat) : SameOff id s.size k (started k id) := by
  have := s.size_pos
  exact sameOff_update k (Nat.le_refl id) (by omega) _

theorem opened_started {q : Option Point} (h : s.Stands k id q) (hid : id < k.table.size) :
    Opened (started k id) s id q := by
  have hpos := s.size_pos
  cases q with
  | none =>
    refine ⟨?_, fun j hj hj' ↦ ?_⟩
    · rw [started, get_update hid, if_pos rfl, h id (Nat.le_refl id) (by omega)]
    · rw [started, get_update hid, if_neg (by omega), h j (by omega) (by omega)]
  | some p =>
    refine Holds.congr h fun j hj hj' ↦ ?_
    rw [started, get_update hid]
    split
    · next hj =>
      -- It was marked as started already.
      have hp : (k.get id).pending = true := Holds.pending h
      rw [hj, ← hp]
    · rfl

theorem Tracks.enter {m : Machine ω ρ} {x : Exec ω ρ Outcome}
    (h : Tracks s id above (id + 1) (started k id) R (x (m.withMarks (started k id)))) :
    Tracks s id above id k R (enter id x (m.withMarks k)) := by
  have hpos := s.size_pos
  refine Tracks.of_sameOff ?_ (started_sameOff k s id)
  rw [enter_apply]
  rcases R with ⟨_ | _ | p, m'⟩ | ⟨e, m'⟩
  · obtain ⟨n, hr, hb, hn⟩ := h
    refine ⟨n.clear [id], by rw [hr]; rfl, fun j hj hj' ↦ ?_, ?_⟩
    · rw [get_clear]
      split
      · rfl
      · next hne => exact hb j (by simp at hne; omega) (by omega)
    · refine ⟨(size_clear n [id]).trans hn.size, fun j hj ↦ ?_⟩
      rw [get_clear, if_neg (by simp; omega), hn.get j hj]
  · obtain ⟨l, n, hl, hr, hb⟩ := h
    exact ⟨l, n, hl, by rw [hr], hb⟩
  · obtain ⟨n, hr, hp⟩ := h
    exact ⟨n, by rw [hr], hp⟩
  · obtain ⟨n, hr, hp⟩ := h
    exact ⟨n, by rw [hr], hp⟩

theorem nearestLoop?_cons_false (id : Nat) (above : List Ancestor) :
    nearestLoop? (⟨id, false⟩ :: above) = nearestLoop? above := rfl

theorem withinLoop_cons_false (id : Nat) (above : List Ancestor) :
    withinLoop (⟨id, false⟩ :: above) = id :: withinLoop above := rfl

theorem Tracks.inside {child : Script} {c i : Nat} {x : Exec ω ρ Pause} {m : Machine ω ρ}
    (h : Tracks child c (⟨id, false⟩ :: above) c k (x m) r) (hc : id < c)
    (hc' : c + child.size ≤ id + s.size)
    (hblank : ∀ j, id < j → j < id + s.size → j < c ∨ c + child.size ≤ j → k.get j = {})
    (hheld : ∀ n p, child.Holds n c p → SameOff c child.size k n → s.Holds n id (.inside i p)) :
    Tracks s id above (id + 1) k ((do return (← x).inside i : Exec ω ρ Pause) m) r := by
  rw [bind_apply]
  generalize x m = R at h
  rcases R with ⟨_ | _ | p, m⟩ | ⟨e, m⟩
  · obtain ⟨n, hr, hb, hn⟩ := h
    refine ⟨n, hr, fun j hj hj' ↦ ?_, hn.size, fun j hj ↦ hn.get j (by omega)⟩
    by_cases hin : j < c ∨ c + child.size ≤ j
    · rw [hn.get j hin, hblank j (by omega) (by omega) hin]
    · exact hb j (by omega) (by omega)
  · obtain ⟨l, n, hl, hr, hb, hn, hg⟩ := h
    rw [nearestLoop?_cons_false] at hl
    refine ⟨l, n, hl, hr, fun j hj hj' ↦ ?_, hn, fun j hj ↦ ?_⟩
    · by_cases hin : j < c ∨ c + child.size ≤ j
      · rw [hg j hin, withinLoop_cons_false]
        split
        · rfl
        · next hne =>
          simp only [List.mem_cons, not_or] at hne
          exact hblank j (by omega) hj' hin
      · exact hb j (by omega) (by omega)
    · have hne : j ≠ id := by have := s.size_pos; omega
      simp [hg j (by omega), withinLoop_cons_false, hne]
  · obtain ⟨n, hr, hp, hn⟩ := h
    exact ⟨n, hr, hheld n p hp hn, hn.size, fun j hj ↦ hn.get j (by omega)⟩
  · exact h

theorem Tracks.error {m : Machine ω ρ} (e : EvalError) :
    Tracks s id above lo k (.error e m) (.error e (m.withMarks k)) := ⟨k, rfl, rfl⟩

theorem Tracks.suspend {m : Machine ω ρ} {p : Point} (h : s.Holds k id p) :
    Tracks s id above lo k (.ok (.paused p) m) (.ok .suspended (m.withMarks k)) :=
  ⟨k, rfl, h, rfl, fun _ _ ↦ rfl⟩

theorem Tracks.finish {m : Machine ω ρ} (h : s.size = 1) :
    Tracks s id above (id + 1) k (.ok .done m) (.ok .completed (m.withMarks k)) :=
  ⟨k, rfl, fun j hj hj' ↦ by omega, rfl, fun _ _ ↦ rfl⟩

theorem Tracks.charged {x : Exec ω ρ Pause} {y : Exec ω ρ Outcome} (hstep : s.Holds k id .step)
    (h : ∀ m, Tracks s id above lo k (x m) (y (m.withMarks k))) (m : Machine ω ρ) :
    Tracks s id above lo k (pay x m) (charged y (m.withMarks k)) := by
  rw [Exec.charged, bind_apply]
  cases ht : m.state.timer with
  | zero =>
    rw [pay_zero ht, spend_zero ht]
    exact .suspend hstep
  | succ t =>
    rw [pay_succ ht, spend_succ ht]
    exact h _

theorem Tracks.evaluate {α : Type} {actor : Actor} {x : View ω → Draw ρ α} {f : α → Exec ω ρ Pause}
    {g : α → Exec ω ρ Outcome} (h : ∀ a m, Tracks s id above lo k (f a m) (g a (m.withMarks k)))
    (m : Machine ω ρ) :
    Tracks s id above lo k ((evaluate actor x >>= f) m) ((evaluate actor x >>= g) (m.withMarks k)) := by
  rw [bind_apply, bind_apply, evaluate_withMarks]
  cases Exec.evaluate actor x m with
  | ok a m' => exact h a m'
  | error e m' => exact .error e

theorem Opened.step {q : Option Point} (h : Opened k s id q)
    (hstep : k.get id = { pending := true } → s.Holds k id .step)
    (honly : ∀ p, s.Holds k id p → p = .step) : s.Holds k id .step := by
  cases q with
  | none => exact hstep h.1
  | some p => exact honly p h ▸ h

variable [World ω] [Chance ρ] {actor : Actor}

theorem performRest_skip {before : List Script} (ss : List Script) {index first : Nat}
    {m : Machine ω ρ} (h : (k.get id).cursor = index + before.length) :
    performRest actor (before ++ ss) id index first above (m.withMarks k) =
      performRest actor ss id (index + before.length) (first + sizeAll before) above
        (m.withMarks k) := by
  induction before generalizing index first with
  | nil => rfl
  | cons s before ih =>
    rw [List.length_cons] at h
    have hlt : index < (k.get id).cursor := by omega
    rw [List.cons_append, performRest_cons, childThen, bind_apply, mark_apply]
    simp only [hlt, if_true]
    rw [ih (by omega), List.length_cons, sizeAll]
    congr 1 <;> omega

theorem resumeRest_skip (before ss : List Script) (index : Nat) (q : Option Point) :
    (resumeRest actor (before ++ ss) before.length index q : Exec ω ρ Pause) =
      resumeRest actor ss 0 (index + before.length) q := by
  induction before generalizing index with
  | nil => rfl
  | cons s before ih =>
    rw [List.cons_append, List.length_cons, resumeRest, ih]
    congr 1
    omega

variable (ω ρ actor) in
/-- Performing the statement, wherever it stands, tracks its run without marks. -/
def Tracked (s : Script) : Prop :=
  ∀ (id : Nat) (above : List Ancestor) (k : Marks) (q : Option Point) (m : Machine ω ρ),
    s.Placed (nearestLoop? above).isSome → s.Stands k id q → id + s.size ≤ k.table.size →
    m.state.depleted = false →
    Tracks s id above id k (s.resume actor q m) (s.perform actor id above (m.withMarks k))

def StandsFirst (k : Marks) (first : Nat) (q : Option Point) : List Script → Prop
  | [] => True
  | s :: ss => s.Stands k first q ∧ k.BlankOn (first + s.size) (sizeAll ss)

theorem standsFirst_none {ss : List Script} {first : Nat} (h : k.BlankOn first (sizeAll ss)) :
    StandsFirst k first none ss := by
  cases ss with
  | nil => trivial
  | cons s ss =>
    rw [sizeAll] at h
    exact ⟨h.mono (Nat.le_refl _) (by omega), h.mono (by omega) (by omega)⟩

theorem performRest_tracks {loc : Location} {ss : List Script} (h : ∀ s ∈ ss, Tracked ω ρ actor s)
    (hplaced : PlacedAll (nearestLoop? above).isSome ss) (pre : List Script) (k : Marks)
    (q : Option Point) (m : Machine ω ρ) (hm : m.state.depleted = false)
    (hsize : id + 1 + sizeAll (pre ++ ss) ≤ k.table.size)
    (hid : k.get id = { pending := true, cursor := pre.length })
    (hpre : k.BlankOn (id + 1) (sizeAll pre)) (hq : StandsFirst k (id + 1 + sizeAll pre) q ss) :
    Tracks (.sequence loc (pre ++ ss)) id above (id + 1) k (resumeRest actor ss 0 pre.length q m)
      (performRest actor ss id pre.length (id + 1 + sizeAll pre) (⟨id, false⟩ :: above)
        (m.withMarks k)) := by
  induction ss generalizing pre k q m with
  | nil =>
    rw [resumeRest]
    refine ⟨k, rfl, ?_, rfl, fun _ _ ↦ rfl⟩
    have he : id + (sequence loc (pre ++ [])).size - (id + 1) = sizeAll pre := by
      rw [size, List.append_nil]
      omega
    rw [he]
    exact hpre
  | cons s ss ih =>
    obtain ⟨hs, hss⟩ := hq
    rw [sizeAll_append, sizeAll] at hsize
    have hsz : (sequence loc (pre ++ s :: ss)).size = sizeAll pre + (s.size + sizeAll ss) + 1 := by
      rw [size, sizeAll_append, sizeAll]
    have hchild := h s List.mem_cons_self (id + 1 + sizeAll pre) (⟨id, false⟩ :: above) k q m
      hplaced.1 hs (by omega) hm
    have hclock : ClockedAt m (s.resume actor q m) := clocked_resume s q m hm
    have hblank : ∀ j, id < j → j < id + (sequence loc (pre ++ s :: ss)).size →
        j < id + 1 + sizeAll pre ∨ id + 1 + sizeAll pre + s.size ≤ j → k.get j = {} := by
      intro j hj hj' hout
      rcases hout with hout | hout
      · exact hpre j (by omega) (by omega)
      · exact hss j (by omega) (by omega)
    have hheld : ∀ n p, s.Holds n (id + 1 + sizeAll pre) p →
        SameOff (id + 1 + sizeAll pre) s.size k n →
        (sequence loc (pre ++ s :: ss)).Holds n id (.inside pre.length p) := by
      intro n p hp hn
      exact .child rfl rfl ((hn.get id (by omega)).trans hid)
        (hpre.congr (hn.sameOn (by omega))) hp (hss.congr (hn.sameOn (by omega)))
    have hinside := hchild.inside (by omega) (by omega) hblank hheld
    rw [bind_apply] at hinside
    rw [resumeRest, performRest_cons, childThen, bind_apply, bind_apply, mark_apply]
    simp only [hid, Nat.lt_irrefl, if_false, bind_apply]
    generalize s.resume actor q m = R at hchild hclock hinside ⊢
    rcases R with ⟨_ | _ | p, m'⟩ | ⟨e, m'⟩
    · -- The child is done: the cursor moves on and the next child begins.
      obtain ⟨n, hr, hb, hn⟩ := hchild
      have hpos : id < n.table.size := by rw [hn.size]; omega
      have hown : SameOff id 1 n (n.update id ({ · with cursor := pre.length + 1 })) :=
        sameOff_update n (Nat.le_refl id) (by omega) _
      have hid' : (n.update id ({ · with cursor := pre.length + 1 })).get id =
          { pending := true, cursor := pre.length + 1 } := by
        rw [get_update hpos, if_pos rfl, hn.get id (by omega), hid]
      have hdone : n.BlankOn (id + 1) (sizeAll pre + s.size) :=
        (hpre.congr (hn.sameOn (by omega))).append (hb.mono (Nat.le_refl _) (by omega))
      have hleft : n.BlankOn (id + 1 + sizeAll pre + s.size) (sizeAll ss) :=
        hss.congr (hn.sameOn (by omega))
      have hrest := ih (fun t ht ↦ h t (List.mem_cons_of_mem s ht)) hplaced.2 (pre ++ [s])
        (n.update id ({ · with cursor := pre.length + 1 })) none m' hclock.2
        (by simp [sizeAll_append, sizeAll, hn.size]; omega) (by simp [hid'])
        (by simpa [sizeAll_append, sizeAll] using hdone.congr (hown.sameOn (by omega)))
        (standsFirst_none (by
          simpa [sizeAll_append, sizeAll, ← Nat.add_assoc] using
            hleft.congr (hown.sameOn (by omega))))
      simp only [List.append_assoc, List.singleton_append, List.length_append, List.length_singleton,
        sizeAll_append, sizeAll, Nat.add_zero, ← Nat.add_assoc] at hrest
      simp only [hr, bind_apply, updateMark_apply]
      exact hrest.of_sameOff ((hn.mono (by omega) (by omega)).trans
        (hown.mono (Nat.le_refl id) (by omega)))
    · obtain ⟨l, n, hl, hr, hb⟩ := hchild
      rw [hr] at hinside ⊢
      exact hinside
    · obtain ⟨n, hr, hb⟩ := hchild
      rw [hr] at hinside ⊢
      exact hinside
    · obtain ⟨n, hr, hb⟩ := hchild
      rw [hr] at hinside ⊢
      exact hinside

theorem sequence_tracks {loc : Location} {body : List Script} (h : ∀ s ∈ body, Tracked ω ρ actor s) :
    Tracked ω ρ actor (.sequence loc body) := by
  intro id above k q m hplaced hk hsize hm
  rw [size] at hsize
  have hopen := opened_started hk (by omega)
  have hsame := started_sameOff k (.sequence loc body) id
  rw [perform_sequence, resume]
  refine Tracks.enter ?_
  cases q with
  | none =>
    obtain ⟨hid, hb⟩ := hopen
    exact performRest_tracks h hplaced [] _ none m hm (by rw [hsame.size]; simp; omega) hid
      (fun j hj hj' ↦ by simp [sizeAll] at hj'; omega) (standsFirst_none hb)
  | some p =>
    cases hopen with
    | @child _ _ before after s _ i p hb hi hid hbefore hs hafter =>
      subst hb hi
      have hskip : ((started k id).get id).cursor = 0 + before.length := by simp [hid]
      rw [performRest_skip _ hskip]
      change Tracks _ _ _ _ _ (resumeRest actor (before ++ s :: after) before.length 0 (some p) m) _
      rw [resumeRest_skip, Nat.zero_add]
      rw [Placed, placedAll_append] at hplaced
      exact performRest_tracks (fun t ht ↦ h t (List.mem_append_right before ht)) hplaced.2 before _
        (some p) m hm (by rw [hsame.size]; omega) hid hbefore ⟨hs, hafter⟩

theorem leave_tracks (loc : Location) : Tracked ω ρ actor (.leave loc) := by
  intro id above k q m hplaced hk hsize hm
  have hstep := (opened_started hk hsize).step .leave fun p hp ↦ by cases hp; rfl
  rw [perform_leave, resume]
  refine Tracks.enter (Tracks.charged hstep (fun m ↦ ?_) m)
  obtain ⟨l, hl⟩ := Option.isSome_iff_exists.mp hplaced
  rw [leaveLoop, hl]
  refine ⟨l, (started k id).clear (id :: withinLoop above), hl, rfl, fun j hj hj' ↦ ?_,
    size_clear _ _, fun j hj ↦ ?_⟩
  · rw [size] at hj'
    rw [get_clear, if_pos (by simp; omega)]
  · rw [size] at hj
    have hne : j ≠ id := by omega
    simp [get_clear, hne]

theorem assign_tracks (loc : Location) (name : String) (e : Expr) :
    Tracked ω ρ actor (.assign loc name e) := by
  intro id above k q m hplaced hk hsize hm
  have hstep := (opened_started hk hsize).step .assign fun p hp ↦ by cases hp; rfl
  rw [perform_assign, assignment, resume]
  refine Tracks.enter (Tracks.charged hstep (fun m ↦ Tracks.evaluate (fun x m ↦ ?_) m) m)
  exact .finish rfl

theorem print_tracks (loc : Location) (e : Expr) : Tracked ω ρ actor (.print loc e) := by
  intro id above k q m hplaced hk hsize hm
  have hstep := (opened_started hk hsize).step .print fun p hp ↦ by cases hp; rfl
  rw [perform_print, printing, resume]
  refine Tracks.enter (Tracks.charged hstep (fun m ↦ Tracks.evaluate (fun x m ↦ ?_) m) m)
  exact .finish rfl

theorem void_tracks (loc : Location) : Tracked ω ρ actor (.void loc) := by
  intro id above k q m hplaced hk hsize hm
  rw [perform_void, resume]
  exact Tracks.enter (.finish rfl)

omit [Chance ρ] in
theorem await_tracks {loc : Location} {a : Action} {e : Expr}
    (h : (action loc a e).Holds k id .sent) (m : Machine ω ρ) :
    Tracks (.action loc a e) id above (id + 1) k (await actor m)
      (.ok (if World.busy m.world actor.unit then .suspended else .completed) (m.withMarks k)) := by
  simp only [await, bind_apply, get_apply, pure_apply]
  cases World.busy m.world actor.unit with
  | true => exact .suspend h
  | false => exact .finish rfl

theorem act_of_issued {a : Action} {e : Expr} (h : (k.get id).issued = true) (m : Machine ω ρ) :
    act actor id a e (m.withMarks k) =
      .ok (if World.busy m.world actor.unit then .suspended else .completed) (m.withMarks k) := by
  rw [act, sendCommand]
  simp only [bind_apply, mark_apply, h, if_true, pure_apply, get_apply]
  rfl

theorem act_of_not_issued {a : Action} {e : Expr} (h : (k.get id).issued = false)
    (m : Machine ω ρ) :
    act actor id a e (m.withMarks k) =
      charged (do
        issue actor.unit (← evaluate actor (commandOf · a e))
        updateMark id ({ · with issued := true })
        return if World.busy (← get).world actor.unit then .suspended else .completed)
        (m.withMarks k) := by
  rw [act, sendCommand, charged]
  simp only [bind_apply, mark_apply, h, Bool.false_eq_true, if_false]
  cases hs : spend (m.withMarks k) with
  | error e m' => rfl
  | ok paid m' =>
    cases paid with
    | false => rfl
    | true =>
      simp only [if_true, bind_apply]
      cases Exec.evaluate actor (commandOf · a e) m' <;> rfl

theorem action_tracks (loc : Location) (a : Action) (e : Expr) :
    Tracked ω ρ actor (.action loc a e) := by
  intro id above k q m hplaced hk hsize hm
  have hid : id < (started k id).table.size := by
    rw [(started_sameOff k (.action loc a e) id).size]
    exact hsize
  have hopen := opened_started hk hsize
  rw [perform_action, resume]
  refine Tracks.enter ?_
  by_cases hq : q = some .sent
  · subst hq
    cases hopen with
    | sent hmark =>
      rw [act_of_issued (by rw [hmark]), if_pos rfl]
      exact await_tracks (.sent hmark) m
  · have hmark : (started k id).get id = { pending := true } := by
      cases q with
      | none => exact hopen.1
      | some p =>
        cases hopen with
        | unsent hmark => exact hmark
        | sent => exact absurd rfl hq
    have hsent : (action loc a e).Holds ((started k id).update id ({ · with issued := true })) id
        .sent := .sent (by rw [get_update hid, if_pos rfl, hmark])
    have hout : SameOff id (action loc a e).size (started k id)
        ((started k id).update id ({ · with issued := true })) :=
      sameOff_update _ (Nat.le_refl id) (by rw [size]; omega) _
    rw [if_neg hq, act_of_not_issued (by rw [hmark])]
    refine Tracks.charged (.unsent hmark) (fun m ↦ Tracks.evaluate (fun c m ↦ ?_) m) m
    exact (await_tracks hsent _).of_sameOff hout

theorem turn_tracks {loc : Location} {c : Expr} {body : Script} (hbody : Tracked ω ρ actor body)
    (hplaced : body.Placed true) {q : Option Point} {m : Machine ω ρ}
    (hm : m.state.depleted = false) (hsize : id + 1 + body.size ≤ k.table.size)
    (hid : k.get id = { pending := true, owesTurn := true }) (hq : body.Stands k (id + 1) q)
    {rest : Exec ω ρ Pause} {next : Exec ω ρ Outcome}
    (hrest : ∀ (n : Marks) (m' : Machine ω ρ), m'.state.depleted = false →
      m'.state.timer ≤ m.state.timer → n.table.size = k.table.size → n.get id = { pending := true } →
      n.BlankOn (id + 1) body.size →
      Tracks (.loop loc c body) id above (id + 1) n (rest m') (next (m'.withMarks n))) :
    Tracks (.loop loc c body) id above (id + 1) k ((body.resume actor q >>= afterTurn rest) m)
      ((do
        match ← body.perform actor (id + 1) (⟨id, true⟩ :: above) with
        | .completed =>
          updateMark id ({ · with owesTurn := false })
          next
        | .suspended => return .suspended
        | .broke l => return if l = id then .completed else .broke l) (m.withMarks k)) := by
  have hchild := hbody (id + 1) (⟨id, true⟩ :: above) k q m hplaced hq hsize hm
  have hclock : ClockedAt m (body.resume actor q m) := clocked_resume body q m hm
  have hsz : (loop loc c body).size = body.size + 1 := by rw [size]
  rw [bind_apply, bind_apply]
  generalize body.resume actor q m = R at hchild hclock ⊢
  rcases R with ⟨_ | _ | p, m'⟩ | ⟨e, m'⟩
  · obtain ⟨n, hr, hb, hn⟩ := hchild
    have hpos : id < n.table.size := by rw [hn.size]; omega
    have hown : SameOff id 1 n (n.update id ({ · with owesTurn := false })) :=
      sameOff_update n (Nat.le_refl id) (by omega) _
    have hid' : (n.update id ({ · with owesTurn := false })).get id = { pending := true } := by
      rw [get_update hpos, if_pos rfl, hn.get id (by omega), hid]
    have hblank : n.BlankOn (id + 1) body.size := hb.mono (Nat.le_refl _) (by omega)
    have hnext := hrest _ m' hclock.2 hclock.1 (hown.size.trans hn.size) hid'
      (hblank.congr (hown.sameOn (by omega)))
    rw [hr]
    exact hnext.of_sameOff ((hn.mono (by omega) (by omega)).trans
      (hown.mono (Nat.le_refl id) (by omega)))
  · -- The break was on its way to this loop, and has cleared nothing outside its body.
    obtain ⟨l, n, hl, hr, hb, hn, hg⟩ := hchild
    have hl : id = l := Option.some.inj hl
    subst hl
    rw [hr]
    refine ⟨n, by simp [pure_apply], fun j hj hj' ↦ hb j (by omega) (by omega), hn, fun j hj ↦ ?_⟩
    rw [hg j (by omega)]
    rfl
  · obtain ⟨n, hr, hp, hn⟩ := hchild
    rw [hr]
    exact ⟨n, rfl, .turn ((hn.get id (by omega)).trans hid) hp, hn.size,
      fun j hj ↦ hn.get j (by omega)⟩
  · obtain ⟨n, hr, hn⟩ := hchild
    rw [hr]
    exact ⟨n, rfl, hn⟩

theorem turns_tracks {loc : Location} {c : Expr} {body : Script} (hbody : Tracked ω ρ actor body)
    (hplaced : body.Placed true) (n : Nat) (q : Option Point) (k : Marks) (m : Machine ω ρ)
    (hm : m.state.depleted = false) (hn : m.state.timer + q.toList.length < n)
    (hsize : id + 1 + body.size ≤ k.table.size)
    (hid : k.get id = { pending := true, owesTurn := q.isSome }) (hq : body.Stands k (id + 1) q) :
    Tracks (.loop loc c body) id above (id + 1) k (rounds actor c (body.resume actor) n q m)
      (turnsWithin actor id c (body.perform actor (id + 1) (⟨id, true⟩ :: above)) n (m.withMarks k)) := by
  induction n generalizing q k m with
  | zero => omega
  | succ n ih =>
    rw [rounds, turnsWithin, bind_apply, nextTurn, bind_apply, mark_apply]
    cases q with
    | some p =>
      simp only [hid, Option.isSome_some, if_true, pure_apply]
      exact turn_tracks hbody hplaced hm hsize hid hq fun k' m' hm' ht hk hid' hb ↦
        ih none k' m' hm' (by simp at hn ⊢; omega) (by omega) hid' hb
    | none =>
      simp only [hid, Option.isSome_none, Bool.false_eq_true, if_false, bind_apply, Exec.round]
      cases ht : m.state.timer with
      | zero =>
        rw [pay_zero ht, spend_zero ht]
        exact .suspend (.check hid hq)
      | succ t =>
        rw [pay_succ ht, spend_succ ht]
        simp only [if_true, bind_apply, evaluate_withMarks]
        cases he : Exec.evaluate actor (c.evalBoolean ·)
            ({ m with state := { m.state with timer := t } } : Machine ω ρ) with
        | error e m' => exact .error e
        | ok b m' =>
          have hstate : m'.state = { m.state with timer := t } := evaluate_state he
          have hsz : (loop loc c body).size = body.size + 1 := by rw [size]
          cases b with
          | false => exact ⟨k, rfl, hq.mono (Nat.le_refl _) (by omega), rfl, fun _ _ ↦ rfl⟩
          | true =>
            have hpos : id < k.table.size := by omega
            have hown : SameOff id 1 k (k.update id ({ · with owesTurn := true })) :=
              sameOff_update k (Nat.le_refl id) (by omega) _
            have hid' : (k.update id ({ · with owesTurn := true })).get id =
                { pending := true, owesTurn := true } := by
              rw [get_update hpos, if_pos rfl, hid]
            have hblank : body.Stands (k.update id ({ · with owesTurn := true })) (id + 1) none :=
              BlankOn.congr hq (hown.sameOn (by omega))
            refine Tracks.of_sameOff (turn_tracks hbody hplaced (by rw [hstate]; exact hm)
              (by rw [size_update]; exact hsize) hid' hblank ?_)
              (hown.mono (Nat.le_refl id) (by omega))
            intro k' n' hm' ht' hk hid' hb
            refine ih none k' n' hm' ?_ (by rw [hk, size_update]; exact hsize) hid' hb
            simp only [hstate, Option.toList_none, List.length_nil] at hn ht' ⊢
            omega

theorem loop_tracks (loc : Location) (c : Expr) {body : Script} (h : Tracked ω ρ actor body) :
    Tracked ω ρ actor (.loop loc c body) := by
  intro id above k q m hplaced hk hsize hm
  rw [size] at hsize
  have hopen := opened_started hk (by omega)
  have hsame := started_sameOff k (.loop loc c body) id
  have hsize' : id + 1 + body.size ≤ (started k id).table.size := by rw [hsame.size]; omega
  rw [perform_loop, resume]
  refine Tracks.enter ?_
  change Tracks _ _ _ _ _ (rounds actor c (body.resume actor) (m.state.timer + 2) _ m)
    (turnsWithin actor id c _ (m.state.timer + 2) (m.withMarks (started k id)))
  cases q with
  | none => exact turns_tracks h hplaced _ none _ m hm (by simp) hsize' hopen.1 hopen.2
  | some p =>
    cases hopen with
    | check hid hb => exact turns_tracks h hplaced _ none _ m hm (by simp) hsize' hid hb
    | @turn _ _ _ _ p hid hb =>
      exact turns_tracks h hplaced _ (some p) _ m hm (by simp) hsize' hid hb

omit [Chance ρ] in
theorem releaseBranch_held {loc : Location} {cond : Expr} {yes no t : Script} {c i : Nat} {p : Point}
    {b : Branch} {side : Branch → Script × Nat} (hid : id < k.table.size)
    (hmark : k.get id = { pending := true, branch := some b }) (hside : side b = (t, c))
    (hp : t.Holds k c p) (hheld : (branch loc cond yes no).Holds k id (.inside i p)) (hc : id < c)
    (hc' : c + t.size ≤ id + (branch loc cond yes no).size)
    (hblank : ∀ j, id < j → j < id + (branch loc cond yes no).size →
      j < c ∨ c + t.size ≤ j → k.get j = {}) (m : Machine ω ρ) :
    ∃ n q, kept actor (some (.inside i p)) m = .ok q m ∧
      Opened n (.branch loc cond yes no) id q ∧ SameOff id (branch loc cond yes no).size k n ∧
      releaseBranch actor id side (m.withMarks k) = .ok () (m.withMarks n) := by
  have hkept : kept actor (some (.inside i p)) m = .ok
      (if p.awaits && World.helpless m.world actor.unit then none else some (.inside i p)) m := rfl
  have hrelease : releaseBranch actor id side (m.withMarks k) = .ok () (m.withMarks
      (if p.awaits && World.helpless m.world actor.unit then
        (k.clear (t.descendants c)).update id ({ · with branch := none }) else k)) := by
    rw [releaseBranch, bind_apply, mark_apply]
    simp only [hmark, hside, bind_apply, get_apply]
    have ha : t.awaits (m.withMarks k).marks c = p.awaits := hp.awaits
    have hw : (m.withMarks k).world = m.world := rfl
    rw [ha, hw]
    cases p.awaits && World.helpless m.world actor.unit <;> rfl
  rw [hkept, hrelease]
  cases p.awaits && World.helpless m.world actor.unit with
  | false => exact ⟨k, some (.inside i p), rfl, hheld, ⟨rfl, fun _ _ ↦ rfl⟩, rfl⟩
  | true =>
    have hpos : id < (k.clear (t.descendants c)).table.size := by rwa [size_clear]
    have hget : ∀ j, ((k.clear (t.descendants c)).update id ({ · with branch := none })).get j =
        if j = id then { pending := true }
        else if c ≤ j ∧ j < c + t.size then {} else k.get j := by
      intro j
      rw [get_update hpos, get_clear, get_clear]
      simp only [mem_descendants, if_neg (show ¬ (c ≤ id ∧ id < c + t.size) by omega), hmark]
    have hsz := (branch loc cond yes no).size_pos
    refine ⟨_, none, rfl, ⟨by rw [if_pos rfl, hget, if_pos rfl], fun j hj hj' ↦ ?_⟩,
      ⟨by simp, fun j hj ↦ ?_⟩, rfl⟩
    · rw [if_pos rfl, hget, if_neg (by omega)]
      split
      · rfl
      · exact hblank j (by omega) (by omega) (by omega)
    · rw [if_pos rfl, hget, if_neg (by omega), if_neg (by omega)]

omit [Chance ρ] in
theorem releaseBranch_tracks {loc : Location} {c : Expr} {yes no : Script} {q : Option Point}
    {side : Branch → Script × Nat} (h : Opened k (.branch loc c yes no) id q)
    (hid : id < k.table.size) (hyes : side .yes = (yes, id + 1))
    (hno : side .no = (no, id + 1 + yes.size)) (m : Machine ω ρ) :
    ∃ n q', kept actor q m = .ok q' m ∧ Opened n (.branch loc c yes no) id q' ∧
      SameOff id (branch loc c yes no).size k n ∧
      releaseBranch actor id side (m.withMarks k) = .ok () (m.withMarks n) := by
  have hsz : (branch loc c yes no).size = yes.size + no.size + 1 := by rw [size]
  have hnone : (k.get id).branch = none →
      releaseBranch actor id side (m.withMarks k) = .ok () (m.withMarks k) := by
    intro hb
    rw [releaseBranch, bind_apply, mark_apply]
    simp only [hb]
    rfl
  cases q with
  | none => exact ⟨k, none, rfl, h, ⟨rfl, fun _ _ ↦ rfl⟩, hnone (by rw [h.1])⟩
  | some p =>
    cases h with
    | undecided hmark hb =>
      exact ⟨k, some .step, rfl, .undecided hmark hb, ⟨rfl, fun _ _ ↦ rfl⟩, hnone (by rw [hmark])⟩
    | yes hmark hp hb =>
      exact releaseBranch_held hid hmark hyes hp (.yes hmark hp hb) (by omega) (by omega)
        (fun j hj hj' hout ↦ hb j (by omega) (by omega)) m
    | no hmark hb hp =>
      exact releaseBranch_held hid hmark hno hp (.no hmark hb hp) (by omega) (by omega)
        (fun j hj hj' hout ↦ hb j (by omega) (by omega)) m

omit [Chance ρ] in
theorem Tracks.release {loc : Location} {c : Expr} {yes no : Script} {q : Option Point}
    {side : Branch → Script × Nat} (h : Opened k (.branch loc c yes no) id q)
    (hid : id < k.table.size) (hyes : side .yes = (yes, id + 1))
    (hno : side .no = (no, id + 1 + yes.size)) {f : Option Point → Exec ω ρ Pause}
    {y : Exec ω ρ Outcome} {m : Machine ω ρ}
    (hnext : ∀ n q', Opened n (.branch loc c yes no) id q' →
      SameOff id (branch loc c yes no).size k n →
      Tracks (.branch loc c yes no) id above (id + 1) n (f q' m) (y (m.withMarks n))) :
    Tracks (.branch loc c yes no) id above (id + 1) k ((kept actor q >>= f) m)
      ((do releaseBranch actor id side; y) (m.withMarks k)) := by
  obtain ⟨n, q', hkept, hq, hsame, hrel⟩ := releaseBranch_tracks h hid hyes hno m
  rw [bind_apply, bind_apply, hkept, hrel]
  exact (hnext n q' hq hsame).of_sameOff hsame

theorem yes_tracks {loc : Location} {c : Expr} {yes no : Script} (h : Tracked ω ρ actor yes)
    (hplaced : yes.Placed (nearestLoop? above).isSome) {q : Option Point} (m : Machine ω ρ)
    (hm : m.state.depleted = false)
    (hsize : id + (branch loc c yes no).size ≤ k.table.size)
    (hmark : k.get id = { pending := true, branch := some .yes }) (hq : yes.Stands k (id + 1) q)
    (hno : k.BlankOn (id + 1 + yes.size) no.size) :
    Tracks (.branch loc c yes no) id above (id + 1) k
      ((do return (← yes.resume actor q).inside 0 : Exec ω ρ Pause) m)
      (yes.perform actor (id + 1) (⟨id, false⟩ :: above) (m.withMarks k)) := by
  have hsz : (branch loc c yes no).size = yes.size + no.size + 1 := by rw [size]
  have hchild := h (id + 1) (⟨id, false⟩ :: above) k q m hplaced hq (by omega) hm
  have hblank : ∀ j, id < j → j < id + (branch loc c yes no).size →
      j < id + 1 ∨ id + 1 + yes.size ≤ j → k.get j = {} :=
    fun j hj hj' hout ↦ hno j (by omega) (by omega)
  have hheld : ∀ n p, yes.Holds n (id + 1) p → SameOff (id + 1) yes.size k n →
      (branch loc c yes no).Holds n id (.inside 0 p) := fun n p hp hn ↦
    .yes ((hn.get id (by omega)).trans hmark) hp (hno.congr (hn.sameOn (by omega)))
  exact hchild.inside (by omega) (by omega) hblank hheld

theorem no_tracks {loc : Location} {c : Expr} {yes no : Script} (h : Tracked ω ρ actor no)
    (hplaced : no.Placed (nearestLoop? above).isSome) {q : Option Point} (m : Machine ω ρ)
    (hm : m.state.depleted = false)
    (hsize : id + (branch loc c yes no).size ≤ k.table.size)
    (hmark : k.get id = { pending := true, branch := some .no }) (hyes : k.BlankOn (id + 1) yes.size)
    (hq : no.Stands k (id + 1 + yes.size) q) :
    Tracks (.branch loc c yes no) id above (id + 1) k
      ((do return (← no.resume actor q).inside 1 : Exec ω ρ Pause) m)
      (no.perform actor (id + 1 + yes.size) (⟨id, false⟩ :: above) (m.withMarks k)) := by
  have hsz : (branch loc c yes no).size = yes.size + no.size + 1 := by rw [size]
  have hchild := h (id + 1 + yes.size) (⟨id, false⟩ :: above) k q m hplaced hq (by omega) hm
  have hblank : ∀ j, id < j → j < id + (branch loc c yes no).size →
      j < id + 1 + yes.size ∨ id + 1 + yes.size + no.size ≤ j → k.get j = {} :=
    fun j hj hj' hout ↦ hyes j (by omega) (by omega)
  have hheld : ∀ n p, no.Holds n (id + 1 + yes.size) p → SameOff (id + 1 + yes.size) no.size k n →
      (branch loc c yes no).Holds n id (.inside 1 p) := fun n p hp hn ↦
    .no ((hn.get id (by omega)).trans hmark) (hyes.congr (hn.sameOn (by omega))) hp
  exact hchild.inside (by omega) (by omega) hblank hheld

theorem choice_tracks {loc : Location} {c : Expr} {yes no : Script} (hyes : Tracked ω ρ actor yes)
    (hno : Tracked ω ρ actor no)
    (hplaced : (branch loc c yes no).Placed (nearestLoop? above).isSome) (m : Machine ω ρ)
    (hm : m.state.depleted = false) (hsize : id + (branch loc c yes no).size ≤ k.table.size)
    (hmark : k.get id = { pending := true })
    (hblank : k.BlankOn (id + 1) (yes.size + no.size)) :
    Tracks (.branch loc c yes no) id above (id + 1) k
      (pay (do
        if ← evaluate actor (c.evalBoolean ·) then return (← yes.resume actor none).inside 0
        else return (← no.resume actor none).inside 1) m)
      ((do
        match ← chosenBranch actor id c with
        | none => return .suspended
        | some .yes => yes.perform actor (id + 1) (⟨id, false⟩ :: above)
        | some .no => no.perform actor (id + 1 + yes.size) (⟨id, false⟩ :: above) :
          Exec ω ρ Outcome) (m.withMarks k)) := by
  have hsz : (branch loc c yes no).size = yes.size + no.size + 1 := by rw [size]
  have hpos : id < k.table.size := by omega
  rw [bind_apply, chosenBranch, bind_apply, mark_apply]
  simp only [hmark, bind_apply]
  cases ht : m.state.timer with
  | zero =>
    rw [pay_zero ht, spend_zero ht]
    exact .suspend (.undecided hmark hblank)
  | succ t =>
    rw [pay_succ ht, spend_succ ht]
    simp only [if_true, bind_apply, evaluate_withMarks]
    cases he : Exec.evaluate actor (c.evalBoolean ·)
        ({ m with state := { m.state with timer := t } } : Machine ω ρ) with
    | error e m' => exact .error e
    | ok b m' =>
      have hm' : m'.state.depleted = false := by rw [evaluate_state he]; exact hm
      have hget : ∀ (b : Branch) (j : Nat), (k.update id ({ · with branch := some b })).get j =
          if j = id then { pending := true, branch := some b } else k.get j := by
        intro b j
        rw [get_update hpos, hmark]
      have hsame : ∀ b : Branch, SameOff id (branch loc c yes no).size k
          (k.update id ({ · with branch := some b })) := by
        intro b
        exact ⟨size_update _ _ _, fun j hj ↦ by rw [hget, if_neg (by omega)]⟩
      have hsame' : ∀ b : Branch, SameOn (id + 1) (yes.size + no.size) k
          (k.update id ({ · with branch := some b })) := by
        intro b j hj hj'
        rw [hget, if_neg (by omega)]
      have hy : ∀ b : Branch, yes.Stands (k.update id ({ · with branch := some b })) (id + 1) none :=
        fun b ↦ (hblank.congr (hsame' b)).mono (Nat.le_refl _) (by omega)
      have hn : ∀ b : Branch, no.Stands (k.update id ({ · with branch := some b }))
          (id + 1 + yes.size) none :=
        fun b ↦ (hblank.congr (hsame' b)).mono (by omega) (by omega)
      cases b with
      | true =>
        exact (yes_tracks hyes hplaced.1 m' hm' (by rwa [size_update]) (by rw [hget, if_pos rfl])
          (hy .yes) (hn .yes)).of_sameOff (hsame .yes)
      | false =>
        exact (no_tracks hno hplaced.2 m' hm' (by rwa [size_update]) (by rw [hget, if_pos rfl])
          (hy .no) (hn .no)).of_sameOff (hsame .no)

theorem held_tracks {loc : Location} {c : Expr} {yes no : Script} (hyes : Tracked ω ρ actor yes)
    (hno : Tracked ω ρ actor no)
    (hplaced : (branch loc c yes no).Placed (nearestLoop? above).isSome) {q : Option Point}
    (hq : Opened k (.branch loc c yes no) id q) (m : Machine ω ρ) (hm : m.state.depleted = false)
    (hsize : id + (branch loc c yes no).size ≤ k.table.size) :
    Tracks (.branch loc c yes no) id above (id + 1) k
      ((match Point.childPoint q with
        | some p =>
          if Point.childIndex q = 0 then do return (← yes.resume actor (some p)).inside 0
          else do return (← no.resume actor (some p)).inside 1
        | none => pay do
          if ← evaluate actor (c.evalBoolean ·) then return (← yes.resume actor none).inside 0
          else return (← no.resume actor none).inside 1 : Exec ω ρ Pause) m)
      ((do
        match ← chosenBranch actor id c with
        | none => return .suspended
        | some .yes => yes.perform actor (id + 1) (⟨id, false⟩ :: above)
        | some .no => no.perform actor (id + 1 + yes.size) (⟨id, false⟩ :: above) :
          Exec ω ρ Outcome) (m.withMarks k)) := by
  have hsz : (branch loc c yes no).size = yes.size + no.size + 1 := by rw [size]
  have hchosen : ∀ b, (k.get id).branch = some b →
      chosenBranch actor id c (m.withMarks k) = .ok (some b) (m.withMarks k) := by
    intro b hb
    rw [chosenBranch, bind_apply, mark_apply]
    simp only [hb]
    rfl
  cases q with
  | none =>
    exact choice_tracks hyes hno hplaced m hm hsize hq.1 (hq.2.mono (Nat.le_refl _) (by omega))
  | some p =>
    cases hq with
    | undecided hmark hb => exact choice_tracks hyes hno hplaced m hm hsize hmark hb
    | yes hmark hp hb =>
      rw [bind_apply, hchosen .yes (by rw [hmark])]
      exact yes_tracks hyes hplaced.1 m hm hsize hmark hp hb
    | no hmark hb hp =>
      rw [bind_apply, hchosen .no (by rw [hmark])]
      exact no_tracks hno hplaced.2 m hm hsize hmark hb hp

theorem branch_tracks (loc : Location) (c : Expr) {yes no : Script} (hyes : Tracked ω ρ actor yes)
    (hno : Tracked ω ρ actor no) : Tracked ω ρ actor (.branch loc c yes no) := by
  intro id above k q m hplaced hk hsize hm
  have hid : id < k.table.size := by have := (branch loc c yes no).size_pos; omega
  have hin := started_sameOff k (.branch loc c yes no) id
  rw [perform_branch, branchOn, resume]
  refine Tracks.enter (Tracks.release (opened_started hk hid) (by rwa [hin.size]) rfl rfl ?_)
  intro n q' hq hsame
  exact held_tracks hyes hno hplaced hq m hm (by rwa [hsame.size, hin.size])

/-- Performing a placed script tracks its run without marks, wherever it stands. -/
theorem perform_tracks (s : Script) : Tracked ω ρ actor s := by
  induction s with
  | sequence loc body ih => exact sequence_tracks ih
  | branch loc c yes no ihy ihn => exact branch_tracks loc c ihy ihn
  | loop loc c body ih => exact loop_tracks loc c ih
  | leave loc => exact leave_tracks loc
  | assign loc name e => exact assign_tracks loc name e
  | print loc e => exact print_tracks loc e
  | void loc => exact void_tracks loc
  | action loc a e => exact action_tracks loc a e

end Script

end Errand
