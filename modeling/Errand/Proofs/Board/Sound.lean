import Errand.Proofs.Board.Upkeep

namespace Errand.Board

variable {α : Type} {b b' b'' : Board} {s : PoolId} {t : TaskId} {x : Task} {p : Pool}

structure Sound (b : Board) : Prop extends Linked b where
  running : ∀ (t : TaskId) (x : Task) (q : Program), b.tasks[t]? = some x → x.program = some q →
    q.stopped = false

def Ended (b : Board) (t : TaskId) : Prop := ∀ x, b.tasks[t]? = some x → x.terminated = true

theorem Sound.of_touches (h : b.Sound) (ht : Touches t b b') (hl : b'.Linked)
    (hrun : ∀ x' q, b'.tasks[t]? = some x' → x'.program = some q → q.stopped = false) : b'.Sound where
  toLinked := hl
  running t' x' q hx' hq := by
    by_cases he : t' = t
    · rw [he] at hx'
      exact hrun x' q hx' hq
    · rw [ht.tasks t' he] at hx'
      exact h.running t' x' q hx' hq

structure Kept (b b' : Board) : Prop where
  sound : b'.Sound
  tasks : ∀ t, b.Ended t → b'.tasks[t]? = b.tasks[t]?

theorem Kept.refl (h : b.Sound) : Kept b b := ⟨h, fun _ _ ↦ rfl⟩

theorem Kept.ended (h : Kept b b') (hend : b.Ended t) : b'.Ended t := by
  rw [Ended, h.tasks t hend]
  exact hend

theorem Kept.trans (h : Kept b b') (h' : Kept b' b'') : Kept b b'' :=
  ⟨h'.sound, fun t hend ↦ (h'.tasks t (h.ended hend)).trans (h.tasks t hend)⟩

def Keeps (b b' : Board) : Prop := b.Sound → Kept b b'

theorem Keeps.refl (b : Board) : Keeps b b := Kept.refl

theorem Keeps.trans (h : Keeps b b') (h' : Keeps b' b'') : Keeps b b'' :=
  fun hb ↦ (h hb).trans (h' (h hb).sound)

theorem Kept.of_touches (ht : Touches t b b') (hx : b.tasks[t]? = some x) (hx' : x.terminated = false)
    (hs : b'.Sound) : Kept b b' where
  sound := hs
  tasks t' hend := by
    refine ht.tasks t' fun he ↦ ?_
    rw [he] at hend
    simp [hend x hx] at hx'

theorem Sound.kept (h : b.Sound) (ht : Touches t b b') (hx : b.tasks[t]? = some x)
    (hend : x.terminated = false) (hl : b'.Linked) {x' : Task} (hx' : b'.tasks[t]? = some x')
    (hprog : x'.program = x.program ∨ x'.program = none) : Kept b b' := by
  refine .of_touches ht hx hend (h.of_touches ht hl ?_)
  intro y q hy hq
  cases hx'.symm.trans hy
  rcases hprog with hprog | hprog
  · exact h.running t x q hx (hprog ▸ hq)
  · simp [hprog] at hq

theorem Yields.keeps {x : BoardM α} (h : Yields x b fun _ ↦ Keeps b) : Keeps b (after x b) :=
  h.holds_after (.refl b) fun _ _ hkeeps ↦ hkeeps

theorem addPool_keeps (b : Board) (f : FactionId) : Yields (addPool f) b fun _ ↦ Keeps b := by
  refine (addPool_yields b f).mono ?_
  rintro _ _ rfl h
  exact ⟨⟨h.toLinked.withPool f, h.running⟩, fun _ _ ↦ rfl⟩

theorem schedule_keeps (b : Board) (s : PoolId) (t : TaskId) :
    Yields (schedule s t) b fun _ ↦ Keeps b := by
  refine (schedule_yields b s t).mono ?_
  rintro _ _ ⟨x, p, hx, hend, hp, hs, rfl⟩ h
  exact h.kept (scheduled_touches b s t _) hx hend (h.toLinked.schedule hx hend hp hs)
    (getElem?_scheduled hx s _) (.inl rfl)

theorem unschedule_keeps (b : Board) (s : PoolId) (t : TaskId) :
    Yields (unschedule s t) b fun _ ↦ Keeps b := by
  refine (unschedule_yields b s t).mono ?_
  rintro _ _ ⟨p, hp, ht, rfl⟩ h
  have hpos := waits_pos hp ht
  obtain ⟨x, hx, -, hend⟩ := h.toLinked.exists_task (s := s) (t := t) (by omega)
  exact h.kept (unscheduled_touches b s t) hx hend (h.toLinked.unschedule hp ht)
    (getElem?_unscheduled hx s) (.inl rfl)

theorem Sound.assign (h : b.Sound) (hx : b.tasks[t]? = some x) (hp : b.pool? s = some p)
    (ht : t ∈ p.waiting) {u : UnitId} (hu : b.taskOf? u = none) (hexec : x.executor = none) :
    Kept b (b.started s t u) := by
  have htouch := started_touches b s t u
  have hl := h.toLinked.assign hx hp ht hu hexec
  refine .of_touches htouch hx (h.toLinked.not_ended hx (.inl (waits_pos hp ht)))
    (h.of_touches htouch hl ?_)
  intro y q hy hq
  cases (getElem?_started hx s u).symm.trans hy
  cases hq
  rfl

theorem assign_keeps (b : Board) (s : PoolId) (t : TaskId) (u : UnitId) :
    Yields (assign s t u) b fun _ ↦ Keeps b := by
  refine (assign_yields b s t u).mono ?_
  rintro _ _ ⟨x, p, hx, hp, ht, hu, hexec, rfl⟩ h
  exact h.assign hx hp ht hu hexec

theorem assignNext_keeps (b : Board) (s : PoolId) (u : UnitId) :
    Yields (assignNext s u) b fun _ ↦ Keeps b := by
  refine (assignNext_yields b s u).mono ?_
  rintro _ _ (rfl | ⟨t, x, p, hx, hp, ht, hu, hexec, rfl⟩)
  · exact .refl _
  · exact fun h ↦ h.assign hx hp ht hu hexec

theorem Sound.reclaim (h : b.Sound) (hx : b.tasks[t]? = some x) (hp : b.pool? s = some p)
    (ht : t ∈ p.assigned) (priority : Int32) : Kept b (b.handedBack s t x priority) :=
  h.kept (handedBack_touches b s t x priority) hx
    (h.toLinked.not_ended hx (.inr (holds_pos hp ht))) (h.toLinked.reclaim hx hp ht priority)
    (getElem?_handedBack hx priority) (.inr rfl)

theorem reclaim_keeps (b : Board) (s : PoolId) (t : TaskId) : Keeps b (after (reclaim s t) b) := by
  intro h
  refine (reclaim_yields b s t h.toLinked.exists_of_assigned).holds_after (.refl h) ?_
  rintro _ _ ⟨x, p, hx, hp, ht, rfl, rfl⟩
  exact h.reclaim hx hp ht _

theorem terminate_keeps (b : Board) (t : TaskId) :
    Yields (terminate t) b fun _ ↦ Keeps b := by
  refine (terminate_yields b t).mono ?_
  rintro _ _ ⟨x, hx, ⟨-, rfl⟩ | ⟨hend, rfl⟩⟩
  · exact .refl _
  · intro h
    exact h.kept (endedTask_touches b t x) hx hend (h.toLinked.terminate hx) (getElem?_endedTask hx)
      (.inr rfl)

theorem Linked.restored_same (h : b.Linked) (hp : b.pool? s = some p) (ht : t ∈ p.waiting) :
    Same b (b.restored s t (p.waiting.idxOf t)) := by
  have hpos := waits_pos hp ht
  obtain ⟨x, hx, hs, -⟩ := h.exists_task (s := s) (t := t) (by omega)
  exact Board.restored_same hp ht hx hs

theorem Sound.restored (h : b.Sound) (hp : b.pool? s = some p) (ht : t ∈ p.waiting) :
    Kept b (b.restored s t (p.waiting.idxOf t)) := by
  have hpos := waits_pos hp ht
  obtain ⟨x, hx, -, hend⟩ := h.toLinked.exists_task (s := s) (t := t) (by omega)
  apply h.kept (restored_touches b s t _) hx hend
  · exact (h.toLinked.restored_same hp ht).linked h.toLinked
  · exact getElem?_restored hx s _
  · exact .inl rfl

theorem replace_keeps (b : Board) (s : PoolId) (old new : TaskId) :
    Keeps b (after (replace s old new) b) := by
  have hcases := replace_cases b s old new
  rw [after]
  cases hr : replace s old new b with
  | ok _ b' =>
    rw [hr] at hcases
    obtain ⟨b₁, hout, hin⟩ := hcases
    have hkeeps := (unschedule_keeps b s old).keeps
    have hkeeps' := (schedule_keeps b₁ s new).keeps
    rw [after, hout] at hkeeps
    rw [after, hin] at hkeeps'
    exact hkeeps.trans hkeeps'
  | error e b' =>
    rw [hr] at hcases
    obtain rfl | ⟨p, hp, hmem, rfl⟩ := hcases
    · exact .refl _
    · exact fun h ↦ h.restored hp hmem

theorem dispatch_keeps (b : Board) (s : PoolId) (us : List UnitId) :
    Keeps b (after (dispatch s us) b) :=
  after_dispatch .refl .trans s (fun b u ↦ (assignNext_keeps b s u).keeps) us b

theorem Sound.withTask (h : b.Sound) (hx : b.tasks[t]? = none) (x : Task) :
    (b.withTask t x).Sound := by
  refine h.of_touches (withTask_touches b t x) (h.toLinked.withTask hx x) ?_
  intro y q hy hq
  cases (getElem?_withTask b t x).symm.trans hy
  cases hq

theorem Sound.removeEnded (h : b.Sound) : b.removeEnded.2.Sound where
  toLinked := h.toLinked.removeEnded
  running t x q hx := h.running t x q (of_getElem?_removeEnded hx)

end Errand.Board
