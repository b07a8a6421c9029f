import Errand.Proofs.Board.Links

namespace Errand.Board

variable {b : Board} {s : PoolId} {t : TaskId} {x : Task} {p : Pool}

theorem auditListed_eq_ok :
    auditListed b s t = .ok () ↔ ∃ x, b.tasks[t]? = some x ∧ x.pools.contains s = true := by
  rw [auditListed]
  cases b.tasks[t]? with
  | none => simp [throw, throwThe, MonadExceptOf.throw]
  | some x =>
    rw [require_eq_ok]
    exact ⟨fun hs ↦ ⟨x, rfl, hs⟩, fun ⟨y, hy, hs⟩ ↦ Option.some.inj hy ▸ hs⟩

theorem neverRises_iff {l : List Int32} : neverRises l = true ↔ l.Pairwise fun a c ↦ c ≤ a := by
  induction l with
  | nil => simp [neverRises]
  | cons a l ih =>
    cases l with
    | nil => simp [neverRises]
    | cons c rest =>
      rw [neverRises, Bool.and_eq_true, ih, decide_eq_true_iff, List.pairwise_cons (a := a)]
      refine and_congr_left fun hrest ↦ ⟨fun hle d hd ↦ ?_, fun h ↦ h c List.mem_cons_self⟩
      rcases List.mem_cons.mp hd with rfl | hd
      · exact hle
      · exact Int32.le_trans ((List.pairwise_cons.mp hrest).1 d hd) hle

theorem neverRises_priorities :
    neverRises (b.priorities p) = true ↔ p.waiting.Pairwise b.Before := by
  rw [neverRises_iff, priorities, List.pairwise_filterMap]
  apply List.Pairwise.iff
  intro a c
  constructor
  · intro h x hx y hy
    exact h x.priority (Option.map_eq_some_iff.mpr ⟨x, hx, rfl⟩) y.priority
      (Option.map_eq_some_iff.mpr ⟨y, hy, rfl⟩)
  · intro h m hm n hn
    obtain ⟨x, hx, rfl⟩ := Option.map_eq_some_iff.mp hm
    obtain ⟨y, hy, rfl⟩ := Option.map_eq_some_iff.mp hn
    exact h x hx y hy

theorem auditPool_eq_ok : auditPool b s p = .ok () ↔
    (∀ t ∈ p.listed, ∃ x, b.tasks[t]? = some x ∧ x.pools.contains s = true) ∧
      (∀ t ∈ p.waiting, t ∉ p.assigned) ∧ p.waiting.Pairwise b.Before ∧
      ∀ t ∈ p.assigned, ∃ x, b.tasks[t]? = some x ∧ x.executor.isSome = true := by
  rw [auditPool, bind_eq_ok, forM_eq_ok]
  refine and_congr (forall₂_congr fun _ _ ↦ auditListed_eq_ok) ?_
  cases hfind : p.waiting.find? (p.assigned.contains ·) with
  | some t =>
    have hw := List.mem_of_find?_eq_some hfind
    have ha : t ∈ p.assigned := by simpa using List.find?_some hfind
    constructor
    · rintro ⟨⟩
    · intro h
      exact absurd ha (h.1 t hw)
  | none =>
    have hnone : ∀ t ∈ p.waiting, t ∉ p.assigned := by simpa using List.find?_eq_none.mp hfind
    rw [and_iff_right hnone, ← neverRises_priorities]
    cases neverRises (b.priorities p) with
    | false =>
      constructor
      · rintro ⟨⟩
      · rintro ⟨⟨⟩, -⟩
    | true =>
      rw [and_iff_right rfl]
      refine forM_eq_ok.trans (forall₂_congr fun t _ ↦ ?_)
      rw [refuse_eq_ok]
      cases b.tasks[t]? with
      | none => simp
      | some x => simp [Option.isSome_iff_ne_none]

theorem auditLink_eq_ok : auditLink b t s = .ok () ↔ b.waits t s + b.holds t s = 1 := by
  rw [auditLink, waits, holds, waitingIn, assignedIn]
  cases b.pool? s with
  | none => simp [throw, throwThe, MonadExceptOf.throw]
  | some p =>
    rw [require_eq_ok, Pool.listed, List.count_append]
    rfl

theorem auditTask_eq_ok : auditTask b t x = .ok () ↔
    (∀ s, x.pools.contains s = true → b.waits t s + b.holds t s = 1) ∧ b.holders t ≤ 1 ∧
      (x.executor.isSome = true ↔ b.holders t = 1) := by
  rw [auditTask, bind_eq_ok, forM_eq_ok, refuse_eq_ok]
  refine and_congr ?_ ?_
  · exact forall_congr' fun s ↦ imp_congr Task.mem_pools auditLink_eq_ok
  · rw [not_or, Nat.not_lt, ne_eq, not_not]
    refine and_congr_right fun hle ↦ ?_
    rcases Nat.le_one_iff_eq_zero_or_eq_one.mp hle with hn | hn
    · cases x.executor <;> simp [hn]
    · cases x.executor <;> simp [hn]

theorem audit_eq_ok : b.audit = .ok () ↔
    (∀ s p, b.pool? s = some p → auditPool b s p = .ok ()) ∧
      ∀ t x, b.tasks[t]? = some x → auditTask b t x = .ok () := by
  rw [audit, bind_eq_ok, forM_eq_ok, forM_eq_ok]
  refine and_congr ?_ ?_
  · constructor
    · intro h s p hp
      exact h (p, s.val) (List.mem_zipIdx_iff_getElem?.mpr hp)
    · rintro h ⟨p, i⟩ hp
      exact h ⟨i⟩ p (List.mem_zipIdx_iff_getElem?.mp hp)
  · constructor
    · intro h t x hx
      exact h (t, x) (Std.TreeMap.mem_toList_iff_getElem?_eq_some.mpr hx)
    · rintro h ⟨t, x⟩ hx
      exact h t x (Std.TreeMap.mem_toList_iff_getElem?_eq_some.mp hx)

theorem assignedIn_iff : t ∈ b.assignedIn s ↔
    ∃ p, b.pools[s.val]? = some p ∧ p.assigned.contains t = true := by
  constructor
  · intro h
    obtain ⟨p, hp, ht⟩ := exists_pool_of_assigned h
    exact ⟨p, hp, by simpa using ht⟩
  · intro h
    obtain ⟨p, hp, ht⟩ := h
    rw [assignedIn_of_pool? hp]
    simpa using ht

theorem holders_pos : 0 < b.holders t ↔ ∃ s, t ∈ b.assignedIn s := by
  rw [holders, List.countP_pos_iff]
  constructor
  · intro h
    obtain ⟨p, hp, ht⟩ := h
    obtain ⟨i, hi⟩ := List.mem_iff_getElem?.mp hp
    exact ⟨⟨i⟩, assignedIn_iff.mpr ⟨p, hi, ht⟩⟩
  · intro h
    obtain ⟨s, hs⟩ := h
    obtain ⟨p, hp, ht⟩ := assignedIn_iff.mp hs
    exact ⟨p, List.mem_of_getElem? hp, ht⟩

theorem countP_le_one {α : Type} {f : α → Bool} {l : List α} :
    l.countP f ≤ 1 ↔ ∀ (i j : Nat) (a c : α), l[i]? = some a → l[j]? = some c → f a = true →
      f c = true → i = j := by
  induction l with
  | nil => simp
  | cons a l ih =>
    have hzero : l.countP f = 0 ↔ ∀ (j : Nat) (c : α), l[j]? = some c → ¬ f c = true := by
      rw [List.countP_eq_zero]
      constructor
      · intro h j c hc
        exact h c (List.mem_of_getElem? hc)
      · intro h c hc
        obtain ⟨j, hj⟩ := List.mem_iff_getElem?.mp hc
        exact h j c hj
    rw [List.countP_cons]
    constructor
    · intro h i j c d hc hd hfc hfd
      cases i with
      | zero =>
        cases j with
        | zero => rfl
        | succ j =>
          cases hc
          rw [if_pos hfc] at h
          exact absurd hfd (hzero.mp (by omega) j d hd)
      | succ i =>
        cases j with
        | zero =>
          cases hd
          rw [if_pos hfd] at h
          exact absurd hfc (hzero.mp (by omega) i c hc)
        | succ j => exact congrArg (· + 1) (ih.mp (by omega) i j c d hc hd hfc hfd)
    · intro h
      have hrest : l.countP f ≤ 1 :=
        ih.mpr fun i j c d hc hd hfc hfd ↦ Nat.succ.inj (h (i + 1) (j + 1) c d hc hd hfc hfd)
      split
      · next ha =>
        have hnone := hzero.mpr fun j c hc hfc ↦ Nat.noConfusion (h 0 (j + 1) a c rfl hc ha hfc)
        omega
      · exact hrest

theorem holders_le_one :
    b.holders t ≤ 1 ↔ ∀ s s', t ∈ b.assignedIn s → t ∈ b.assignedIn s' → s = s' := by
  rw [holders, countP_le_one]
  constructor
  · intro h s s' hs hs'
    obtain ⟨p, hp, ht⟩ := assignedIn_iff.mp hs
    obtain ⟨p', hp', ht'⟩ := assignedIn_iff.mp hs'
    exact congrArg PoolId.mk (h s.val s'.val p p' hp hp' ht ht')
  · intro h i j p q hp hq hi hj
    have hsame := h ⟨i⟩ ⟨j⟩ (assignedIn_iff.mpr ⟨p, hp, hi⟩) (assignedIn_iff.mpr ⟨q, hq, hj⟩)
    exact congrArg PoolId.val hsame

/-- The pools and the tasks of a board say the same: a pool lists once each task that names it and no
other, every pool that a task names is there, tasks wait by falling priority, and a task is assigned
in one pool if a unit carries it out and in none if not. -/
structure Consistent (b : Board) : Prop where
  listed : ∀ s p, b.pool? s = some p → ∀ t : TaskId,
    p.listed.count t = if b.tasks[t]?.any (·.pools.contains s) then 1 else 0
  named : ∀ (t : TaskId) (x : Task), b.tasks[t]? = some x → ∀ s, x.pools.contains s = true →
    ∃ p, b.pool? s = some p
  ordered : ∀ s p, b.pool? s = some p → p.waiting.Pairwise b.Before
  once : ∀ (t : TaskId) (x : Task), b.tasks[t]? = some x →
    ∀ s s', t ∈ b.assignedIn s → t ∈ b.assignedIn s' → s = s'
  held : ∀ (t : TaskId) (x : Task), b.tasks[t]? = some x →
    (x.executor.isSome = true ↔ ∃ s, t ∈ b.assignedIn s)

theorem listed_count_of_pool? (hp : b.pool? s = some p) (t : TaskId) :
    p.listed.count t = b.waits t s + b.holds t s := by
  rw [waits_of_pool? hp, holds_of_pool? hp, Pool.listed, List.count_append]

theorem consistent_of_audit (h : b.audit = .ok ()) : b.Consistent := by
  obtain ⟨hpools, htasks⟩ := audit_eq_ok.mp h
  have hlinks : ∀ (t : TaskId) (x : Task), b.tasks[t]? = some x → ∀ s, x.pools.contains s = true →
      b.waits t s + b.holds t s = 1 := fun t x hx ↦ (auditTask_eq_ok.mp (htasks t x hx)).1
  constructor
  · intro s p hp t
    by_cases hmember : b.tasks[t]?.any (·.pools.contains s) = true
    · obtain ⟨x, hx, hs⟩ := (Option.any_eq_true _ _).mp hmember
      rw [if_pos hmember, listed_count_of_pool? hp, hlinks t x hx s hs]
    · rw [if_neg hmember, List.count_eq_zero]
      intro ht
      obtain ⟨x, hx, hs⟩ := (auditPool_eq_ok.mp (hpools s p hp)).1 t ht
      exact hmember ((Option.any_eq_true _ _).mpr ⟨x, hx, hs⟩)
  · intro t x hx s hs
    cases hp : b.pool? s with
    | some p => exact ⟨p, rfl⟩
    | none =>
      have hone := hlinks t x hx s hs
      simp [waits, holds, waitingIn, assignedIn, hp] at hone
  · intro s p hp
    exact (auditPool_eq_ok.mp (hpools s p hp)).2.2.1
  · intro t x hx
    exact holders_le_one.mp (auditTask_eq_ok.mp (htasks t x hx)).2.1
  · intro t x hx
    obtain ⟨-, hle, hheld⟩ := auditTask_eq_ok.mp (htasks t x hx)
    rw [hheld, ← holders_pos]
    omega

theorem Consistent.holders_iff (h : b.Consistent) (hx : b.tasks[t]? = some x) :
    x.executor.isSome = true ↔ b.holders t = 1 := by
  have hle := holders_le_one.mpr (h.once t x hx)
  rw [h.held t x hx, ← holders_pos]
  omega

theorem Consistent.audit (h : b.Consistent) : b.audit = .ok () := by
  -- a task that a pool lists is on the board and names the pool, or it would be listed no time
  have hlisted : ∀ {s p t}, b.pool? s = some p → t ∈ p.listed →
      ∃ x, b.tasks[t]? = some x ∧ x.pools.contains s = true := by
    intro s p t hp ht
    have hcount := h.listed s p hp t
    split at hcount
    · next hmember => exact (Option.any_eq_true _ _).mp hmember
    · exact absurd ht (List.count_eq_zero.mp hcount)
  rw [audit_eq_ok]
  constructor
  · intro s p hp
    rw [auditPool_eq_ok]
    refine ⟨fun t ↦ hlisted hp, fun t hw ha ↦ ?_, h.ordered s p hp, fun t ha ↦ ?_⟩
    · have hcount := h.listed s p hp t
      rw [listed_count_of_pool? hp] at hcount
      have hw := waits_pos hp hw
      have ha := holds_pos hp ha
      split at hcount <;> omega
    · obtain ⟨x, hx, -⟩ := hlisted hp (List.mem_append_right _ ha)
      refine ⟨x, hx, (h.held t x hx).mpr ⟨s, ?_⟩⟩
      rw [assignedIn_of_pool? hp]
      exact ha
  · intro t x hx
    rw [auditTask_eq_ok]
    refine ⟨fun s hs ↦ ?_, holders_le_one.mpr (h.once t x hx), h.holders_iff hx⟩
    obtain ⟨p, hp⟩ := h.named t x hx s hs
    rw [← listed_count_of_pool? hp, h.listed s p hp, if_pos]
    exact (Option.any_eq_true _ _).mpr ⟨x, hx, hs⟩

/-- An audit finds nothing exactly on the boards whose pools and tasks say the same. -/
theorem audit_iff_consistent (b : Board) : b.audit = .ok () ↔ b.Consistent :=
  ⟨consistent_of_audit, Consistent.audit⟩

theorem Linked.consistent (h : b.Linked) : b.Consistent where
  listed s p hp t := by
    rw [listed_count_of_pool? hp]
    exact (h.fits t).listed s
  named t x hx s hs := by
    have hlisted := (h.fits_some hx).listed s
    cases hp : b.pool? s with
    | some p => exact ⟨p, rfl⟩
    | none => simp [waits, holds, waitingIn, assignedIn, hp, hs] at hlisted
  ordered s p hp := h.pairwise hp
  once t x hx s s' hs hs' :=
    (h.fits t).once s s' (List.count_pos_iff.mpr hs) (List.count_pos_iff.mpr hs')
  held t x hx := by
    rw [(h.fits_some hx).held x rfl]
    exact exists_congr fun s ↦ List.count_pos_iff

theorem Linked.holders_iff (h : b.Linked) (hx : b.tasks[t]? = some x) :
    x.executor.isSome = true ↔ b.holders t = 1 := h.consistent.holders_iff hx

theorem Linked.audit (h : b.Linked) : b.audit = .ok () := h.consistent.audit

end Errand.Board
