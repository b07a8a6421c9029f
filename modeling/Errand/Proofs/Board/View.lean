import Errand.Board.Audit
import Errand.Proofs.Effect

namespace Errand

namespace Pool

variable {l l' : List TaskId} {t : TaskId}

def others (t : TaskId) (l : List TaskId) : List TaskId := l.filter (· ≠ t)

theorem others_erase (t : TaskId) (l : List TaskId) : others t (l.erase t) = others t l := by
  induction l with
  | nil => rfl
  | cons a l ih =>
    by_cases h : a = t
    · subst h
      simp [others]
    · rw [List.erase_cons_tail (by simpa using h), others, others, List.filter_cons, List.filter_cons]
      rw [others, others] at ih
      rw [ih]

theorem others_append_self (t : TaskId) (l : List TaskId) : others t (l ++ [t]) = others t l := by
  simp [others]

theorem others_of_not_mem (h : t ∉ l) : others t l = l := by
  refine List.filter_eq_self.mpr fun a ha ↦ ?_
  have hne : a ≠ t := fun e ↦ h (e ▸ ha)
  simpa using hne

theorem ne_of_mem_others {a : TaskId} (h : a ∈ others t l) : a ≠ t := by
  simpa [others] using (List.mem_filter.mp h).2

theorem erase_eq_others (h : l.count t ≤ 1) : l.erase t = others t l := by
  have hnot : t ∉ l.erase t := by
    rw [← List.count_eq_zero, List.count_erase_self]
    omega
  rw [← others_erase, others_of_not_mem hnot]

theorem others_elim (t : TaskId) (o : Option Pool) (g : Pool → List TaskId) :
    others t (o.elim [] g) = o.elim [] fun p ↦ others t (g p) := by
  cases o <;> rfl

theorem count_others {a : TaskId} (ha : a ≠ t) (l : List TaskId) : (others t l).count a = l.count a :=
  List.count_filter (by simpa using ha)

theorem others_insertAt (p : Pool) (place : Nat) (t : TaskId) :
    others t (p.insertAt place t).waiting = others t p.waiting := by
  rw [insertAt, others, List.filter_append, List.filter_cons_of_neg (by simp), ← List.filter_append,
    List.take_append_drop]
  rfl

theorem count_insertAt (p : Pool) (place : Nat) (t : TaskId) :
    (p.insertAt place t).waiting.count t = p.waiting.count t + 1 := by
  rw [insertAt, List.count_append, List.count_cons_self, ← Nat.add_assoc, ← List.count_append,
    List.take_append_drop]

theorem mem_insertAt {p : Pool} {place : Nat} {a : TaskId} :
    a ∈ (p.insertAt place t).waiting ↔ a = t ∨ a ∈ p.waiting := by
  rw [insertAt, List.mem_append, List.mem_cons, or_left_comm, ← List.mem_append,
    List.take_append_drop]

theorem insertAt_dequeue {p : Pool} (h : t ∈ p.waiting) :
    (p.dequeue t).insertAt (p.waiting.idxOf t) t = p := by
  have hl : ∀ l : List TaskId, t ∈ l →
      (l.erase t).take (l.idxOf t) ++ t :: (l.erase t).drop (l.idxOf t) = l := by
    intro l
    induction l with
    | nil => intro hmem; cases hmem
    | cons a l ih =>
      intro hmem
      by_cases ha : a = t
      · simp [ha]
      · have hmem : t ∈ l := (List.mem_cons.mp hmem).resolve_left fun e ↦ ha e.symm
        have hidx : (a :: l).idxOf t = l.idxOf t + 1 := by
          rw [List.idxOf_cons, beq_false_of_ne ha, cond_false]
        rw [List.erase_cons_tail (by simpa using ha), hidx]
        simpa using ih hmem
  rw [insertAt, dequeue, hl _ h]

end Pool

section PartitionPoint

variable {α : Type} {ahead : α → Bool}

theorem partitionPoint_between {l : List α} {n lo hi : Nat}
    (h : ∀ i a, l[i]? = some a → (ahead a = true ↔ i < n)) (hlo : lo ≤ n) (hhi : n ≤ hi)
    (hlen : hi ≤ l.length) : partitionPoint.between ahead l lo hi = n := by
  fun_induction partitionPoint.between ahead l lo hi with
  | case1 lo hi hlt mid hmid ih =>
    obtain ⟨a, ha, hahead⟩ := (Option.any_eq_true _ _).mp hmid
    have hmid := (h mid a ha).mp hahead
    exact ih (by omega) hhi hlen
  | case2 lo hi hlt mid hmid ih =>
    have hget := List.getElem?_eq_getElem (l := l) (i := mid) (by omega)
    have hmid : ¬ mid < n := by
      intro hn
      rw [hget, Option.any_some] at hmid
      exact hmid ((h mid _ hget).mpr hn)
    exact ih hlo (by omega) (by omega)
  | case3 lo hi hlt => omega

theorem partitionPoint_append {xs ys : List α} (hx : ∀ a ∈ xs, ahead a = true)
    (hy : ∀ a ∈ ys, ahead a = false) : partitionPoint ahead (xs ++ ys) = xs.length := by
  apply partitionPoint_between
  · intro i a ha
    by_cases hi : i < xs.length
    · rw [List.getElem?_append_left hi] at ha
      simp [hi, hx a (List.mem_of_getElem? ha)]
    · rw [List.getElem?_append_right (by omega)] at ha
      simp [hi, hy a (List.mem_of_getElem? ha)]
  · exact Nat.zero_le _
  · simp
  · exact Nat.le_refl _

end PartitionPoint

theorem Task.mem_pools {x : Task} {s : PoolId} :
    s ∈ x.pools.toList ↔ x.pools.contains s = true := by
  rw [Std.TreeSet.mem_toList, Std.TreeSet.mem_iff_contains]

theorem Task.nodup_pools (x : Task) : x.pools.toList.Nodup := by
  refine x.pools.distinct_toList.imp ?_
  intro a c h e
  simp [e] at h

structure Task.Same (x y : Task) : Prop where
  fields : y = { x with pools := y.pools }
  pools : y.pools.Equiv x.pools

theorem Task.Same.refl (x : Task) : x.Same x := ⟨rfl, .rfl⟩

namespace Board

/-- Boards that no question tells apart. -/
structure Same (b b' : Board) : Prop where
  tasks : ∀ t : TaskId, Option.Rel Task.Same b.tasks[t]? b'.tasks[t]?
  pools : b'.pools = b.pools
  execution : b'.execution = b.execution
  scheduler : b'.scheduler = b.scheduler

def waitingIn (b : Board) (s : PoolId) : List TaskId := (b.pool? s).elim [] (·.waiting)

def assignedIn (b : Board) (s : PoolId) : List TaskId := (b.pool? s).elim [] (·.assigned)

def waits (b : Board) (t : TaskId) (s : PoolId) : Nat := (b.waitingIn s).count t

/-- How often a task is assigned in a pool. -/
def holds (b : Board) (t : TaskId) (s : PoolId) : Nat := (b.assignedIn s).count t

def mapPool (b : Board) (s : PoolId) (f : Pool → Pool) : Board :=
  { b with pools := b.pools.modify s.val f }

def mapTask (b : Board) (t : TaskId) (f : Task → Task) : Board :=
  { b with tasks := b.tasks.modify t f }

variable {b b' b'' : Board} {s : PoolId} {t : TaskId}

theorem Same.refl (b : Board) : Same b b where
  tasks t := by
    cases b.tasks[t]? with
    | none => exact .none
    | some x => exact .some (.refl x)
  pools := rfl
  execution := rfl
  scheduler := rfl

theorem Same.pool?_eq (h : Same b b') (s : PoolId) : b'.pool? s = b.pool? s := by
  rw [pool?, h.pools, pool?]

theorem Same.exists_task (h : Same b b') {t : TaskId} {x' : Task} (hx : b'.tasks[t]? = some x') :
    ∃ x, b.tasks[t]? = some x ∧ x.Same x' := by
  have hrel := h.tasks t
  rw [hx] at hrel
  cases hrel' : b.tasks[t]? with
  | none => rw [hrel'] at hrel; cases hrel
  | some x =>
    rw [hrel'] at hrel
    cases hrel with
    | some hsame => exact ⟨x, rfl, hsame⟩

theorem pool?_mapPool (b : Board) (s : PoolId) (f : Pool → Pool) (s' : PoolId) :
    (b.mapPool s f).pool? s' = if s' = s then (b.pool? s).map f else b.pool? s' := by
  rw [pool?, mapPool, List.getElem?_modify]
  by_cases h : s' = s
  · subst h
    simp [pool?]
  · have hval : ¬ s.val = s'.val := fun hv ↦ h (by cases s; cases s'; simp_all)
    simp [h, hval, pool?]

theorem tasks_mapPool (b : Board) (s : PoolId) (f : Pool → Pool) : (b.mapPool s f).tasks = b.tasks :=
  rfl

theorem pool?_mapPool_self {p : Pool} (hp : b.pool? s = some p) (f : Pool → Pool) :
    (b.mapPool s f).pool? s = some (f p) := by
  rw [pool?_mapPool, if_pos rfl, hp]
  rfl

theorem pool?_mapPool_of_ne {s' : PoolId} (h : s' ≠ s) (f : Pool → Pool) :
    (b.mapPool s f).pool? s' = b.pool? s' := by
  rw [pool?_mapPool, if_neg h]

theorem waitingIn_of_pool? {p : Pool} (hp : b.pool? s = some p) : b.waitingIn s = p.waiting := by
  rw [waitingIn, hp]
  rfl

theorem assignedIn_of_pool? {p : Pool} (hp : b.pool? s = some p) : b.assignedIn s = p.assigned := by
  rw [assignedIn, hp]
  rfl

theorem exists_pool_of_assigned (h : t ∈ b.assignedIn s) :
    ∃ p, b.pool? s = some p ∧ t ∈ p.assigned := by
  rw [assignedIn] at h
  cases hp : b.pool? s with
  | none => simp [hp] at h
  | some p => exact ⟨p, rfl, by simpa [hp] using h⟩

theorem exists_pool_of_waiting (h : t ∈ b.waitingIn s) : ∃ p, b.pool? s = some p ∧ t ∈ p.waiting := by
  rw [waitingIn] at h
  cases hp : b.pool? s with
  | none => simp [hp] at h
  | some p => exact ⟨p, rfl, by simpa [hp] using h⟩

theorem waitingIn_mapPool_of_ne {s' : PoolId} (h : s' ≠ s) (f : Pool → Pool) :
    (b.mapPool s f).waitingIn s' = b.waitingIn s' := by
  rw [waitingIn, pool?_mapPool_of_ne h, waitingIn]

theorem waits_of_pool? {p : Pool} (hp : b.pool? s = some p) : b.waits t s = p.waiting.count t := by
  rw [waits, waitingIn_of_pool? hp]

theorem holds_of_pool? {p : Pool} (hp : b.pool? s = some p) : b.holds t s = p.assigned.count t := by
  rw [holds, assignedIn_of_pool? hp]

theorem count_mapPool {p : Pool} {f : Pool → Pool} {g : Pool → List TaskId} {n : Nat}
    (hp : b.pool? s = some p) (hf : (g (f p)).count t = n) (s' : PoolId) :
    (((b.mapPool s f).pool? s').elim [] g).count t =
      if s' = s then n else ((b.pool? s').elim [] g).count t := by
  by_cases h : s' = s
  · rw [if_pos h, h, pool?_mapPool_self hp, Option.elim_some, hf]
  · rw [if_neg h, pool?_mapPool_of_ne h]

theorem waits_mapPool {p : Pool} {f : Pool → Pool} {n : Nat} (hp : b.pool? s = some p)
    (hf : (f p).waiting.count t = n) (s' : PoolId) :
    (b.mapPool s f).waits t s' = if s' = s then n else b.waits t s' :=
  count_mapPool (g := (·.waiting)) hp hf s'

theorem holds_mapPool {p : Pool} {f : Pool → Pool} {n : Nat} (hp : b.pool? s = some p)
    (hf : (f p).assigned.count t = n) (s' : PoolId) :
    (b.mapPool s f).holds t s' = if s' = s then n else b.holds t s' :=
  count_mapPool (g := (·.assigned)) hp hf s'

theorem elim_mapPool {f : Pool → Pool} {g : Pool → List TaskId} (s' : PoolId)
    (hf : ∀ p, g (f p) = g p) : ((b.mapPool s f).pool? s').elim [] g = (b.pool? s').elim [] g := by
  rw [pool?_mapPool]
  by_cases h : s' = s
  · subst h
    cases b.pool? s' <;> simp [hf]
  · rw [if_neg h]

theorem waitingIn_mapTask (b : Board) (t : TaskId) (f : Task → Task) (s : PoolId) :
    (b.mapTask t f).waitingIn s = b.waitingIn s := rfl

theorem waitingIn_mapPool {f : Pool → Pool} (s' : PoolId) (hf : ∀ p, (f p).waiting = p.waiting) :
    (b.mapPool s f).waitingIn s' = b.waitingIn s' := elim_mapPool (g := (·.waiting)) s' hf

theorem assignedIn_mapPool {f : Pool → Pool} (s' : PoolId) (hf : ∀ p, (f p).assigned = p.assigned) :
    (b.mapPool s f).assignedIn s' = b.assignedIn s' := elim_mapPool (g := (·.assigned)) s' hf

theorem holds_mapPool_same {f : Pool → Pool} (s' : PoolId) (hf : ∀ p, (f p).assigned = p.assigned) :
    (b.mapPool s f).holds t s' = b.holds t s' := by
  rw [holds, assignedIn_mapPool s' hf, holds]

theorem getElem?_mapTask (b : Board) (t : TaskId) (f : Task → Task) (t' : TaskId) :
    (b.mapTask t f).tasks[t']? = if t' = t then b.tasks[t]?.map f else b.tasks[t']? := by
  rw [mapTask, Std.TreeMap.getElem?_modify]
  by_cases h : t' = t
  · simp [h]
  · have h' : ¬ t = t' := fun e ↦ h e.symm
    simp [h, h']

theorem getElem?_mapTask_self {x : Task} (hx : b.tasks[t]? = some x) (f : Task → Task) :
    (b.mapTask t f).tasks[t]? = some (f x) := by
  rw [getElem?_mapTask, if_pos rfl, hx]
  rfl

structure Touches (t : TaskId) (b b' : Board) : Prop where
  tasks : ∀ t', t' ≠ t → b'.tasks[t']? = b.tasks[t']?
  waiting : ∀ s, Pool.others t (b'.waitingIn s) = Pool.others t (b.waitingIn s)
  assigned : ∀ s, Pool.others t (b'.assignedIn s) = Pool.others t (b.assignedIn s)

theorem Touches.refl (t : TaskId) (b : Board) : Touches t b b :=
  ⟨fun _ _ ↦ rfl, fun _ ↦ rfl, fun _ ↦ rfl⟩

theorem Touches.trans (h : Touches t b b') (h' : Touches t b' b'') : Touches t b b'' where
  tasks t' ht' := (h'.tasks t' ht').trans (h.tasks t' ht')
  waiting s := (h'.waiting s).trans (h.waiting s)
  assigned s := (h'.assigned s).trans (h.assigned s)

theorem Touches.waits_eq (h : Touches t b b') {t' : TaskId} (ht' : t' ≠ t) :
    b'.waits t' = b.waits t' :=
  funext fun s ↦ by
    rw [waits, waits, ← Pool.count_others ht', h.waiting, Pool.count_others ht']

theorem Touches.holds_eq (h : Touches t b b') {t' : TaskId} (ht' : t' ≠ t) :
    b'.holds t' = b.holds t' :=
  funext fun s ↦ by
    rw [holds, holds, ← Pool.count_others ht', h.assigned, Pool.count_others ht']

theorem touches_mapPool (b : Board) (s : PoolId) (f : Pool → Pool)
    (hw : ∀ p : Pool, Pool.others t (f p).waiting = Pool.others t p.waiting)
    (ha : ∀ p : Pool, Pool.others t (f p).assigned = Pool.others t p.assigned) :
    Touches t b (b.mapPool s f) where
  tasks _ _ := rfl
  waiting s' := by
    rw [waitingIn, waitingIn, Pool.others_elim, Pool.others_elim]
    exact elim_mapPool s' hw
  assigned s' := by
    rw [assignedIn, assignedIn, Pool.others_elim, Pool.others_elim]
    exact elim_mapPool s' ha

theorem touches_mapTask (b : Board) (t : TaskId) (f : Task → Task) : Touches t b (b.mapTask t f) where
  tasks t' ht' := by rw [getElem?_mapTask, if_neg ht']
  waiting _ := rfl
  assigned _ := rfl

def mapPools (b : Board) (l : List PoolId) (f : Pool → Pool) : Board :=
  l.foldl (fun b s ↦ b.mapPool s f) b

@[simp]
theorem tasks_mapPools (b : Board) (l : List PoolId) (f : Pool → Pool) :
    (b.mapPools l f).tasks = b.tasks := by
  induction l generalizing b with
  | nil => rfl
  | cons s l ih => exact ih (b.mapPool s f)

@[simp]
theorem scheduler_mapPools (b : Board) (l : List PoolId) (f : Pool → Pool) :
    (b.mapPools l f).scheduler = b.scheduler := by
  induction l generalizing b with
  | nil => rfl
  | cons s l ih => exact ih (b.mapPool s f)

theorem pool?_mapPools (b : Board) {l : List PoolId} (hl : l.Nodup) (f : Pool → Pool) (s : PoolId) :
    (b.mapPools l f).pool? s = if s ∈ l then (b.pool? s).map f else b.pool? s := by
  induction l generalizing b with
  | nil => rfl
  | cons s₀ l ih =>
    obtain ⟨hnot, hl⟩ := List.nodup_cons.mp hl
    change ((b.mapPool s₀ f).mapPools l f).pool? s = _
    rw [ih _ hl, pool?_mapPool]
    by_cases he : s = s₀
    · subst he
      simp [hnot]
    · simp [he]

theorem touches_mapPools (b : Board) (l : List PoolId) (f : Pool → Pool)
    (hw : ∀ p : Pool, Pool.others t (f p).waiting = Pool.others t p.waiting)
    (ha : ∀ p : Pool, Pool.others t (f p).assigned = Pool.others t p.assigned) :
    Touches t b (b.mapPools l f) := by
  induction l generalizing b with
  | nil => exact .refl t b
  | cons s l ih => exact (touches_mapPool b s f hw ha).trans (ih _)

theorem count_mapPools (b : Board) {l : List PoolId} (hl : l.Nodup) {f : Pool → Pool}
    {g : Pool → List TaskId} {n : Nat} (hf : ∀ p : Pool, (g (f p)).count t = (g p).count t - n)
    (s : PoolId) : (((b.mapPools l f).pool? s).elim [] g).count t =
      if s ∈ l then ((b.pool? s).elim [] g).count t - n else ((b.pool? s).elim [] g).count t := by
  rw [pool?_mapPools b hl]
  by_cases hs : s ∈ l
  · cases b.pool? s <;> simp [hs, hf]
  · simp [hs]

theorem waits_mapPools (b : Board) {l : List PoolId} (hl : l.Nodup) {f : Pool → Pool} {n : Nat}
    (hf : ∀ p : Pool, (f p).waiting.count t = p.waiting.count t - n) (s : PoolId) :
    (b.mapPools l f).waits t s = if s ∈ l then b.waits t s - n else b.waits t s :=
  count_mapPools (g := (·.waiting)) b hl hf s

theorem holds_mapPools (b : Board) {l : List PoolId} (hl : l.Nodup) {f : Pool → Pool} {n : Nat}
    (hf : ∀ p : Pool, (f p).assigned.count t = p.assigned.count t - n) (s : PoolId) :
    (b.mapPools l f).holds t s = if s ∈ l then b.holds t s - n else b.holds t s :=
  count_mapPools (g := (·.assigned)) b hl hf s

end Board

end Errand
