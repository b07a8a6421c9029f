import Errand.Proofs.Board.Scripted
import Mathlib.Data.List.Forall2

namespace Errand

theorem Task.exists_eq_of_make {name : String} {priority : Int32} {activities : Statement} {x : Task}
    (h : Task.make name priority activities = .ok x) :
    ∃ script, Script.build activities = .ok script ∧ x = { name, priority, script } := by
  cases hbuild : Script.build activities with
  | error e =>
    simp only [make, hbuild, bind, Except.bind] at h
    split at h <;> cases h
  | ok script =>
    simp only [make, hbuild, bind, Except.bind, pure, Except.pure] at h
    split at h <;> cases h
    exact ⟨script, rfl, rfl⟩

theorem Task.eq_of_aimedAt {x y : Task} {selected : Option Position}
    (h : x.aimedAt selected = .ok y) : y = { x with selected } := by
  cases selected with
  | none =>
    cases h
    rfl
  | some p =>
    simp only [aimedAt] at h
    split at h <;> cases h
    rfl

theorem Task.exists_eq_of_ofSpec {d : TaskSpec} {priority : Int32} {x : Task}
    (h : Task.ofSpec d priority = .ok x) : ∃ script, Script.build d.activities = .ok script ∧
      x = { name := d.name, priority := d.priority.getD priority, script, selected := d.selected } := by
  rw [ofSpec] at h
  cases hmake : Task.make d.name (d.priority.getD priority) d.activities with
  | error e =>
    rw [hmake] at h
    cases h
  | ok y =>
    rw [hmake] at h
    obtain ⟨script, hbuild, rfl⟩ := exists_eq_of_make hmake
    exact ⟨script, hbuild, eq_of_aimedAt h⟩

theorem Task.accepted_of_ofSpec {d : TaskSpec} {priority : Int32} {x : Task}
    (h : Task.ofSpec d priority = .ok x) : x.Accepted := by
  obtain ⟨script, hbuild, rfl⟩ := exists_eq_of_ofSpec h
  exact ⟨d.activities, hbuild⟩

namespace Board

/-- Numbers for tasks that are to come: they differ, and no task on the board has one of them. -/
structure Fresh (b : Board) (ids : List TaskId) : Prop where
  nodup : ids.Nodup
  unused : ∀ t ∈ ids, b.tasks[t]? = none

/-- Accepted tasks have been put on the board, and nobody carries out any of them. The numbers `ids`
are left for more of them. -/
structure Posted (ids : List TaskId) (b : Board) : Prop where
  reached : ReachedByAccepted b
  idle : ∀ (t : TaskId) (x : Task), b.tasks[t]? = some x → x.executor = none
  fresh : b.Fresh ids

theorem ReachedByAccepted.move {b b' : Board} (h : ReachedByAccepted b)
    (hmove : Move (fun _ x ↦ x.Accepted) b b') : ReachedByAccepted b' := by
  obtain ⟨st, b₀, hst, hrun⟩ := h
  exact ⟨st, b₀, hst, hrun.tail hmove⟩

/-- An operation after which, if it is not refused, the board is still being set up. -/
def Posts {α : Type} (ids : List TaskId) (x : BoardM α) : Prop :=
  ∀ b a b', Posted ids b → x b = .ok a b' → Posted ids b'

section Posts

variable {α β : Type} {b b' : Board} {t : TaskId} {ids : List TaskId}

theorem posts_pure (a : α) : Posts ids (pure a) := by
  intro b _ b' hb h
  cases h
  exact hb

theorem Posts.bind {x : BoardM α} {f : α → BoardM β} (hx : Posts ids x) (hf : ∀ a, Posts ids (f a)) :
    Posts ids (x >>= f) := by
  intro b c b' hb h
  obtain ⟨a, b₁, hok, h⟩ := exists_of_bind_eq_ok h
  exact hf a b₁ c b' (hx b a b₁ hb hok) h

theorem Posts.get {f : Board → BoardM β} (hf : ∀ b₀, Posts ids (f b₀)) :
    Posts ids (MonadState.get >>= f) :=
  fun b c b' hb h ↦ hf b b c b' hb h

theorem Posts.forM {f : α → BoardM Unit} {as : List α} (hf : ∀ a ∈ as, Posts ids (f a)) :
    Posts ids (as.forM f) := by
  induction as with
  | nil => exact posts_pure ()
  | cons a as ih =>
    obtain ⟨ha, has⟩ := List.forall_mem_cons.1 hf
    exact ha.bind fun _ ↦ ih has

theorem posts_of_move {x : BoardM α} (hmove : ∀ b, Move (fun _ x ↦ x.Accepted) b (after x b))
    (hkept : ∀ b a b', x b = .ok a b' → ∀ (t : TaskId) (y : Task), b'.tasks[t]? = some y →
      ∃ z, b.tasks[t]? = some z ∧ y.executor = z.executor) : Posts ids x := by
  intro b a b' hb h
  have hafter : after x b = b' := by rw [after, h]
  refine ⟨hb.reached.move (hafter ▸ hmove b), fun t y hy ↦ ?_, hb.fresh.nodup, fun t ht ↦ ?_⟩
  · obtain ⟨z, hz, hexec⟩ := hkept b a b' h t y hy
    rw [hexec, hb.idle t z hz]
  · by_contra hsome
    obtain ⟨y, hy⟩ := Option.ne_none_iff_exists'.1 hsome
    obtain ⟨z, hz, -⟩ := hkept b a b' h t y hy
    cases hz.symm.trans (hb.fresh.unused t ht)

theorem posts_addPool (f : FactionId) : Posts ids (addPool f) := by
  refine posts_of_move (.addPool · f) fun b a b' h t y hy ↦ ?_
  have hyields := addPool_yields b f
  rw [Yields, h] at hyields
  subst hyields
  exact ⟨y, hy, rfl⟩

theorem posts_schedule (s : PoolId) (t : TaskId) : Posts ids (schedule s t) := by
  refine posts_of_move (.schedule · s t) fun b a b' h t' y hy ↦ ?_
  have hyields := schedule_yields b s t
  rw [Yields, h] at hyields
  obtain ⟨x, p, hx, -, -, -, rfl⟩ := hyields
  by_cases ht : t' = t
  · subst ht
    cases (getElem?_scheduled hx s x.priority).symm.trans hy
    exact ⟨x, hx, rfl⟩
  · exact ⟨y, ((scheduled_touches b s t x.priority).tasks t' ht).symm.trans hy, rfl⟩

theorem Posted.putTask {x : Task} (hb : Posted (t :: ids) b) (hx : x.Accepted) :
    Posted ids (b.withTask t x) := by
  obtain ⟨hnot, hnodup⟩ := List.nodup_cons.1 hb.fresh.nodup
  obtain ⟨hnew, hunused⟩ := List.forall_mem_cons.1 hb.fresh.unused
  have htouches := withTask_touches b t x
  refine ⟨hb.reached.move (.putTask b t x hnew hx), fun t' y hy ↦ ?_, hnodup, fun t' ht' ↦ ?_⟩
  · by_cases ht : t' = t
    · subst ht
      cases (getElem?_withTask b t' x).symm.trans hy
      rfl
    · exact hb.idle t' y ((htouches.tasks t' ht).symm.trans hy)
  · have ht : t' ≠ t := fun e ↦ hnot (e ▸ ht')
    rw [htouches.tasks t' ht, hunused t' ht']

end Posts

end Board

namespace Scenario

open Board

variable {ids : List TaskId} {b b' : Board}

theorem posts_ensurePool (f : FactionId) : Posts ids (ensurePool f) := by
  refine .get fun b ↦ ?_
  cases b.poolOf? f with
  | some s => exact posts_pure s
  | none => exact posts_addPool f

theorem posted_of_enlist {t a : TaskId} {x : Task} {fs : List FactionId} (hb : Posted (t :: ids) b)
    (hx : x.Accepted) (h : enlist t x fs b = .ok a b') : Posted ids b' := by
  have hrest : Posts ids (do
      fs.forM fun f ↦ do schedule (← ensurePool f) t
      return t) :=
    (Posts.forM fun f _ ↦ (posts_ensurePool f).bind fun s ↦ posts_schedule s t).bind fun _ ↦ posts_pure t
  exact hrest (b.withTask t x) a b' (hb.putTask hx) h

theorem posted_of_mapM_enlist {tasks : List (Task × List FactionId)} {answer : List TaskId}
    (hlen : tasks.length = ids.length) (hb : Posted ids b) (hx : ∀ r ∈ tasks, r.1.Accepted)
    (h : (tasks.zip ids).mapM (fun e ↦ enlist e.2 e.1.1 e.1.2) b = .ok answer b') : Posted [] b' := by
  induction tasks generalizing ids b answer with
  | nil =>
    cases h
    exact ⟨hb.reached, hb.idle, List.nodup_nil, List.forall_mem_nil _⟩
  | cons r tasks ih =>
    cases ids with
    | nil => cases hlen
    | cons t ids =>
      obtain ⟨hr, hx⟩ := List.forall_mem_cons.1 hx
      rw [List.zip_cons_cons, List.mapM_cons] at h
      obtain ⟨_, b₁, hfirst, h⟩ := exists_of_bind_eq_ok h
      obtain ⟨_, b₂, hrest, h⟩ := exists_of_bind_eq_ok h
      cases h
      exact ih (Nat.succ.inj hlen) (posted_of_enlist hb hr hfirst) hx hrest

def numbers (s : Scenario) (number : Nat → TaskId) : List TaskId :=
  (List.range s.tasks.length).map number

theorem mapM_enlist_zipIdx (g : Grid) (number : Nat → TaskId) (tasks : List (Task × List FactionId)) :
    (tasks.zipIdx.mapM fun e ↦ enlist (number e.2) e.1.1 (g.audience e.1.2)) =
      ((tasks.map fun r ↦ (r.1, g.audience r.2)).zip ((List.range tasks.length).map number)).mapM
        fun e ↦ enlist e.2 e.1.1 e.1.2 := by
  rw [List.zip_map, List.mapM_map, List.zipIdx_eq_zip_range', List.range_eq_range']
  rfl

theorem length_of_readyTasks {s : Scenario} {priority : Int32} {tasks : List (Task × List FactionId)}
    (h : s.readyTasks priority = .ok tasks) : tasks.length = s.tasks.length :=
  (forall₂_of_mapM h).length_eq.symm

theorem accepted_of_readyTasks {s : Scenario} {priority : Int32} {tasks : List (Task × List FactionId)}
    (h : s.readyTasks priority = .ok tasks) : ∀ e ∈ tasks, e.1.Accepted := by
  refine forall_mem_of_mapM (fun entry e he ↦ ?_) h
  cases hx : Task.ofSpec entry.task priority with
  | error e => simp [hx, bind, Except.bind] at he
  | ok x =>
    rw [hx] at he
    cases he
    exact Task.accepted_of_ofSpec hx

theorem of_onBoard_eq_ok {α : Type} {x : BoardM α} {b b' : Board} {a : α}
    (h : onBoard x b = .ok a b') : x b = .ok a b' := by
  rw [onBoard] at h
  split at h
  · next hx =>
    cases h
    exact hx
  · cases h

theorem post_posted {s : Scenario} {g : Grid} {number : Nat → TaskId}
    (hb : Posted (s.numbers number) b) (h : s.post g number b = .ok ids b') : Posted [] b' := by
  have hpools : Posts (s.numbers number) (g.factions.forM fun f ↦ discard (ensurePool f)) :=
    .forM fun f _ ↦ (posts_ensurePool f).bind fun _ ↦ posts_pure ()
  obtain ⟨_, b₁, hfirst, h⟩ := exists_of_bind_eq_ok h
  have hb₁ : Posted (s.numbers number) b₁ := hpools b _ b₁ hb (of_onBoard_eq_ok hfirst)
  simp only [bind_apply, get_apply] at h
  cases hready : s.readyTasks b₁.scheduler.defaultPriority with
  | error e =>
    rw [hready] at h
    cases h
  | ok tasks =>
    rw [hready] at h
    have htasks := accepted_of_readyTasks hready
    have hlen := length_of_readyTasks hready
    have hmapM := of_onBoard_eq_ok h
    rw [mapM_enlist_zipIdx, hlen] at hmapM
    refine posted_of_mapM_enlist ?_ hb₁ ?_ hmapM
    · simp [numbers, hlen]
    · exact List.forall_mem_map.2 htasks

end Scenario

namespace Board

theorem posted_of_ofSettings {st : Settings} {b : Board} {ids : List TaskId}
    (h : ofSettings st = .ok b) (hids : b.Fresh ids) : Posted ids b where
  reached := ⟨st, b, h, .refl⟩
  idle t x hx := by simp [eq_of_ofSettings h] at hx
  fresh := hids

end Board

end Errand
