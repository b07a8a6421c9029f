import Errand.Proofs.Board.Integrity

namespace Errand.Board

variable {α : Type} {b b' : Board} {s : PoolId} {t : TaskId} {u : UnitId} {x : Task} {p : Pool}
  {e : BoardError}

/-- The operations that can be refused. -/
inductive Call where
  | addPool (f : FactionId)
  | schedule (s : PoolId) (t : TaskId)
  | unschedule (s : PoolId) (t : TaskId)
  | assign (s : PoolId) (t : TaskId) (u : UnitId)
  | assignNext (s : PoolId) (u : UnitId)
  | reclaim (s : PoolId) (t : TaskId)
  | replace (s : PoolId) (old new : TaskId)
  | terminate (t : TaskId)
  | dispatch (s : PoolId) (us : List UnitId)
  deriving DecidableEq, Repr

def Call.run : Call → BoardM Unit
  | addPool f => discard (Board.addPool f)
  | schedule s t => Board.schedule s t
  | unschedule s t => Board.unschedule s t
  | assign s t u => Board.assign s t u
  | assignNext s u => discard (Board.assignNext s u)
  | reclaim s t => discard (Board.reclaim s t)
  | replace s old new => Board.replace s old new
  | terminate t => Board.terminate t
  | dispatch s us => discard (Board.dispatch s us)

def Call.isReplace : Call → Bool
  | replace .. => true
  | _ => false

theorem Yields.eq_of_error {x : BoardM α} {post : α → Board → Prop} (h : Yields x b post)
    (hx : x b = .error e b') : b' = b := by
  rw [Yields, hx] at h
  exact h

theorem requireIdle_of_none (hu : b.taskOf? u = none) : requireIdle u b = .ok () b := by
  simp only [requireIdle, bind_apply, get_apply, hu, pure_apply]

theorem assign_of_free (hp : b.pool? s = some p) (ht : t ∈ p.waiting) (hu : b.taskOf? u = none)
    (hx : b.tasks[t]? = some x) (hexec : x.executor = none) :
    assign s t u b = .ok () (b.started s t u) := by
  have hw : ¬ (!p.waiting.contains t) = true := by simpa using ht
  rw [assign, getPool_bind hp]
  simp only [if_neg hw]
  rw [bind_of_ok (requireIdle_of_none hu), getTask_bind hx, hexec]
  rfl

theorem exists_of_isFree (h : b.isFree t = true) : ∃ x, b.tasks[t]? = some x ∧ x.executor = none := by
  obtain ⟨x, hx, hfree⟩ := (Option.any_eq_true _ _).mp h
  exact ⟨x, hx, by simpa using hfree⟩

theorem assignNext_of_none_free (hp : b.pool? s = some p) (hu : b.taskOf? u = none)
    (hfind : p.waiting.find? b.isFree = none) : assignNext s u b = .ok none b := by
  rw [assignNext, getPool_bind hp]
  by_cases hempty : p.waiting.isEmpty = true
  · rw [if_pos hempty]
    rfl
  · rw [if_neg hempty, bind_of_ok (requireIdle_of_none hu), bind_of_ok (get_apply b), hfind]
    rfl

theorem assignNext_of_first_free (hp : b.pool? s = some p) (hu : b.taskOf? u = none)
    (hfind : p.waiting.find? b.isFree = some t) :
    assignNext s u b = .ok (some t) (b.started s t u) := by
  have hmem := List.mem_of_find?_eq_some hfind
  have hempty : ¬ p.waiting.isEmpty = true := by
    rw [List.isEmpty_iff]
    exact List.ne_nil_of_mem hmem
  obtain ⟨x, hx, hexec⟩ := exists_of_isFree (List.find?_some hfind)
  rw [assignNext, getPool_bind hp, if_neg hempty, bind_of_ok (requireIdle_of_none hu),
    bind_of_ok (get_apply b), hfind]
  exact bind_of_ok (assign_of_free hp hmem hu hx hexec) _

theorem assignNext_of_idle (hp : b.pool? s = some p) (hu : b.taskOf? u = none) :
    ∃ taken b' p', assignNext s u b = .ok taken b' ∧ b'.pool? s = some p' := by
  cases hfind : p.waiting.find? b.isFree with
  | none => exact ⟨none, b, p, assignNext_of_none_free hp hu hfind, hp⟩
  | some t => exact ⟨some t, _, _, assignNext_of_first_free hp hu hfind, pool?_started hp t u⟩

theorem dispatch_of_pool (us : List UnitId) (hp : b.pool? s = some p) :
    ∃ taken b', dispatch s us b = .ok taken b' := by
  induction us generalizing b p with
  | nil => exact ⟨[], b, rfl⟩
  | cons u us ih =>
    rw [dispatch, bind_of_ok (get_apply b)]
    by_cases hu : (b.taskOf? u).isSome = true
    · rw [if_pos hu]
      exact ih hp
    · rw [if_neg hu]
      obtain ⟨taken, b₁, p₁, hok, hp₁⟩ := assignNext_of_idle hp (by simpa using hu)
      rw [bind_of_ok hok]
      cases taken with
      | none => exact ⟨[], b₁, rfl⟩
      | some t =>
        obtain ⟨rest, b₂, hrest⟩ := ih hp₁
        exact ⟨(u, t) :: rest, b₂, bind_of_ok hrest _⟩

theorem dispatch_yields (b : Board) (s : PoolId) (us : List UnitId) :
    Yields (dispatch s us) b fun _ _ ↦ True := by
  cases hp : b.pool? s with
  | some p =>
    obtain ⟨taken, b', hok⟩ := dispatch_of_pool us hp
    exact .of_eq hok trivial
  | none =>
    have hnext : ∀ u, assignNext s u b = .error (.unknownPool s) b := by
      intro u
      simp only [assignNext, getPool, bind_apply, get_apply, hp]
      rfl
    induction us with
    | nil => trivial
    | cons u us ih =>
      refine .get ?_
      by_cases hu : (b.taskOf? u).isSome = true
      · rw [if_pos hu]
        exact ih
      · rw [if_neg hu, Yields, bind_apply, hnext]

theorem Linked.replace_same_of_error (hb : b.Linked) {old new : TaskId}
    (h : replace s old new b = .error e b') : Same b b' := by
  have hcases := replace_cases b s old new
  rw [h] at hcases
  obtain rfl | ⟨p, hp, hmem, rfl⟩ := hcases
  · exact .refl _
  · exact hb.restored_same hp hmem

theorem Linked.call_eq_of_error (hb : b.Linked) {c : Call} (hc : c.isReplace = false)
    (h : c.run b = .error e b') : b' = b := by
  cases c with
  | addPool f => exact (addPool_yields b f).discard.eq_of_error h
  | schedule s t => exact (schedule_yields b s t).eq_of_error h
  | unschedule s t => exact (unschedule_yields b s t).eq_of_error h
  | assign s t u => exact (assign_yields b s t u).eq_of_error h
  | assignNext s u => exact (assignNext_yields b s u).discard.eq_of_error h
  | reclaim s t => exact (reclaim_yields b s t hb.exists_of_assigned).discard.eq_of_error h
  | replace s old new => cases hc
  | terminate t => exact (terminate_yields b t).eq_of_error h
  | dispatch s us => exact (dispatch_yields b s us).discard.eq_of_error h

/-- A refused operation leaves the board as it was. A replacement may store the pools of the task that
it puts back in another shape; they are the same set. -/
theorem Reached.same_of_refused (h : Reached b) (c : Call) (hr : c.run b = .error e b') :
    Same b b' ∧ (c.isReplace = false → b' = b) := by
  have hb := h.sound.toLinked
  refine ⟨?_, fun hc ↦ hb.call_eq_of_error hc hr⟩
  cases hc : c.isReplace with
  | false =>
    rw [hb.call_eq_of_error hc hr]
    exact .refl b
  | true =>
    cases c with
    | replace s old new => exact hb.replace_same_of_error hr
    | _ => cases hc

theorem reached_empty : Reached {} := ⟨{}, {}, rfl, .refl⟩

theorem Reached.move (h : Reached b) (hmove : Move (fun _ _ ↦ True) b b') : Reached b' := by
  obtain ⟨st, b₀, hst, hrun⟩ := h
  exact ⟨st, b₀, hst, hrun.tail hmove⟩

def refusal? {ε σ α : Type} : EStateM.Result ε σ α → Option (ε × σ)
  | .ok _ _ => none
  | .error e s => some (e, s)

theorem refusal?_eq_some {ε σ α : Type} {r : EStateM.Result ε σ α} {e : ε} {s : σ} :
    refusal? r = some (e, s) ↔ r = .error e s := by
  cases r <;> simp [refusal?]

def lineup : Board := after (schedule ⟨0⟩ ⟨2⟩) (after (putTask ⟨2⟩ rally) camp)

theorem reached_lineup : Reached lineup := by
  have hpool : Reached _ := reached_empty.move (.addPool _ ⟨0⟩)
  have hwaits := (hpool.move (.putTask _ ⟨0⟩ rally rfl trivial)).move (.schedule _ ⟨0⟩ ⟨0⟩)
  have hended := (hwaits.move (.putTask _ ⟨1⟩ rally rfl trivial)).move (.terminate _ ⟨1⟩)
  exact (hended.move (.putTask _ ⟨2⟩ rally rfl trivial)).move (.schedule _ ⟨0⟩ ⟨2⟩)

theorem same_of_refused_lineup :
    ∃ b', (Call.replace ⟨0⟩ ⟨0⟩ ⟨1⟩).run lineup = .error (.taskTerminated ⟨1⟩) b' ∧
      Same lineup b' ∧ b'.waitingIn ⟨0⟩ = [⟨0⟩, ⟨2⟩] := by
  have hrefused : (refusal? ((Call.replace ⟨0⟩ ⟨0⟩ ⟨1⟩).run lineup)).map
      (fun r ↦ (r.1, r.2.waitingIn ⟨0⟩)) = some (.taskTerminated ⟨1⟩, [⟨0⟩, ⟨2⟩]) := by
    decide +kernel
  obtain ⟨⟨e, b'⟩, hr, heq⟩ := Option.map_eq_some_iff.mp hrefused
  rw [refusal?_eq_some] at hr
  obtain ⟨rfl, hwaiting⟩ := Prod.mk.inj heq
  exact ⟨b', hr, (Reached.same_of_refused reached_lineup _ hr).1, hwaiting⟩

end Errand.Board
