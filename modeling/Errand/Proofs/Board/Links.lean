import Errand.Proofs.Board.Calls
import Mathlib.Data.List.TakeWhile

namespace Errand.Board

/-- A task that waits `waits s` times in pool `s`, and is assigned there `holds s` times, agrees with
that. -/
structure Fits (waits holds : PoolId → Nat) (task : Option Task) : Prop where
  listed : ∀ s, waits s + holds s = if task.any (·.pools.contains s) then 1 else 0
  once : ∀ s s', 0 < holds s → 0 < holds s' → s = s'
  held : ∀ x ∈ task, x.executor.isSome = true ↔ ∃ s, 0 < holds s
  driven : ∀ x ∈ task, x.program.isSome = x.executor.isSome
  ended : ∀ x ∈ task, x.terminated = true → x.executor = none ∧ ∀ s, x.pools.contains s = false

namespace Fits

variable {w a w' a' : PoolId → Nat} {x : Task} {s : PoolId}

theorem mem_of_pos {task : Option Task} (h : Fits w a task) (hs : 0 < w s + a s) :
    ∃ x, task = some x ∧ x.pools.contains s = true ∧ x.terminated = false := by
  have hl := h.listed s
  cases task with
  | none => simp at hl; omega
  | some x =>
    have hs : x.pools.contains s = true := by
      by_contra hc
      simp [hc] at hl
      omega
    refine ⟨x, rfl, hs, Bool.eq_false_iff.mpr fun hend ↦ ?_⟩
    simp [(h.ended x rfl hend).2 s] at hs

theorem le_one {task : Option Task} (h : Fits w a task) (s : PoolId) : w s + a s ≤ 1 := by
  rw [h.listed s]
  split <;> omega

theorem absent (h : Fits w a none) (s : PoolId) : w s = 0 ∧ a s = 0 := by
  have hl := h.listed s
  simp at hl
  exact hl

theorem put (h : Fits w a none) (x : Task) : Fits w a (some x.unlinked) where
  listed s := by
    obtain ⟨hw, ha⟩ := h.absent s
    simp [hw, ha, Task.unlinked]
  once := h.once
  held y hy := by
    cases hy
    simp [Task.unlinked, Task.stop, fun s ↦ (h.absent s).2]
  driven y hy := by cases hy; rfl
  ended y hy _ := by
    cases hy
    exact ⟨rfl, fun s ↦ by simp [Task.unlinked]⟩

theorem schedule (h : Fits w a (some x)) (hend : x.terminated = false)
    (hs : x.pools.contains s = false) (hw : ∀ s', w' s' = if s' = s then w s + 1 else w s')
    (ha : ∀ s', a' s' = a s') : Fits w' a' (some { x with pools := x.pools.insert s }) where
  listed s' := by
    have hl := h.listed s'
    rw [ha]
    by_cases he : s' = s
    · subst he
      simp [hs] at hl
      simp [hw, hl]
    · have he' : ¬ s = s' := fun e ↦ he e.symm
      simp only [Option.any_some] at hl
      simp [hw, he, hl, Std.TreeSet.contains_insert, he']
  once s₁ s₂ := by rw [ha, ha]; exact h.once s₁ s₂
  held y hy := by cases hy; simpa only [ha] using h.held x rfl
  driven y hy := by cases hy; exact h.driven x rfl
  ended y hy he := by
    cases hy
    simp [hend] at he

theorem unschedule (h : Fits w a (some x)) (hs : 0 < w s)
    (hw : ∀ s', w' s' = if s' = s then w s - 1 else w s') (ha : ∀ s', a' s' = a s') :
    Fits w' a' (some { x with pools := x.pools.erase s }) where
  listed s' := by
    have hl := h.listed s'
    rw [ha]
    by_cases he : s' = s
    · subst he
      have hle := h.le_one s'
      have hzero : w s' - 1 + a s' = 0 := by omega
      simp [hw, hzero]
    · have he' : ¬ s = s' := fun e ↦ he e.symm
      simp only [Option.any_some] at hl
      simp [hw, he, hl, Std.TreeSet.contains_erase, he']
  once s₁ s₂ := by rw [ha, ha]; exact h.once s₁ s₂
  held y hy := by cases hy; simpa only [ha] using h.held x rfl
  driven y hy := by cases hy; exact h.driven x rfl
  ended y hy he := by
    cases hy
    obtain ⟨hexec, hpools⟩ := h.ended x rfl he
    exact ⟨hexec, fun s' ↦ by simp [Std.TreeSet.contains_erase, hpools]⟩

theorem assign (h : Fits w a (some x)) (hs : 0 < w s) (hexec : x.executor = none) (u : UnitId)
    (e : ExecutionSettings) (hw : ∀ s', w' s' = if s' = s then w s - 1 else w s')
    (ha : ∀ s', a' s' = if s' = s then a s + 1 else a s') : Fits w' a' (some (x.start u e)) := by
  -- Nobody carries it out, so it is assigned nowhere yet.
  have hnone : ∀ s', a s' = 0 := by
    intro s'
    by_contra hpos
    have hsome := (h.held x rfl).mpr ⟨s', by omega⟩
    simp [hexec] at hsome
  constructor
  · intro s'
    have hl : w s' + a s' = if x.pools.contains s' then 1 else 0 := h.listed s'
    change w' s' + a' s' = if x.pools.contains s' then 1 else 0
    rw [← hl, hw, ha]
    split
    · next he =>
      subst he
      omega
    · rfl
  · intro s₁ s₂ h₁ h₂
    rw [ha, hnone] at h₁ h₂
    by_cases he₁ : s₁ = s
    · by_cases he₂ : s₂ = s
      · rw [he₁, he₂]
      · simp [he₂, hnone] at h₂
    · simp [he₁, hnone] at h₁
  · intro y hy
    cases hy
    exact ⟨fun _ ↦ ⟨s, by simp [ha]⟩, fun _ ↦ rfl⟩
  · intro y hy
    cases hy
    rfl
  · intro y hy he
    cases hy
    obtain ⟨y, hy, -, hend⟩ := h.mem_of_pos (s := s) (by omega)
    cases hy
    exact absurd he (Bool.eq_false_iff.mp hend)

theorem reclaim (h : Fits w a (some x)) (hs : 0 < a s) (priority : Int32)
    (hw : ∀ s', w' s' = if s' = s then w s + 1 else w s')
    (ha : ∀ s', a' s' = if s' = s then a s - 1 else a s') :
    Fits w' a' (some { x.stop with priority }) := by
  have hle := h.le_one s
  -- It was assigned in this pool only, and once.
  have hnone : ∀ s', a' s' = 0 := by
    intro s'
    rw [ha]
    split
    · omega
    · next he =>
      by_contra hpos
      exact he (h.once s' s (by omega) hs)
  constructor
  · intro s'
    have hl : w s' + a s' = if x.pools.contains s' then 1 else 0 := h.listed s'
    change w' s' + a' s' = if x.pools.contains s' then 1 else 0
    rw [← hl, hw, ha]
    split
    · next he =>
      subst he
      omega
    · rfl
  · intro s₁ s₂ h₁
    simp [hnone] at h₁
  · intro y hy
    cases hy
    simp [Task.stop, hnone]
  · intro y hy
    cases hy
    rfl
  · intro y hy he
    cases hy
    exact ⟨rfl, (h.ended x rfl he).2⟩

theorem terminate (hw : ∀ s, w s = 0) (ha : ∀ s, a s = 0) (x : Task) :
    Fits w a (some { x.unlinked with terminated := true }) where
  listed s := by simp [hw, ha, Task.unlinked]
  once s s' h := by simp [ha] at h
  held y hy := by
    cases hy
    simp [Task.unlinked, Task.stop, ha]
  driven y hy := by cases hy; rfl
  ended y hy _ := by
    cases hy
    exact ⟨rfl, fun s ↦ by simp [Task.unlinked]⟩

theorem remove (h : Fits w a (some x)) (hend : x.terminated = true) : Fits w a none where
  listed s := by
    have hl := h.listed s
    simpa [(h.ended x rfl hend).2 s] using hl
  once := h.once
  held y hy := by cases hy
  driven y hy := by cases hy
  ended y hy := by cases hy

theorem run (h : Fits w a (some x)) (hexec : x.executor.isSome = true) (p : Program) :
    Fits w a (some { x with program := some p }) where
  listed := h.listed
  once := h.once
  held y hy := by cases hy; exact h.held x rfl
  driven y hy := by cases hy; exact hexec.symm
  ended y hy := by cases hy; exact h.ended x rfl

theorem same {o o' : Option Task} (h : Fits w a o) (ho : Option.Rel Task.Same o o') :
    Fits w a o' := by
  cases ho with
  | none => exact h
  | @some x x' hsame =>
    have hpools : ∀ s, x'.pools.contains s = x.pools.contains s := fun s ↦ hsame.pools.contains_eq
    have hx : x' = { x with pools := x'.pools } := hsame.fields
    refine ⟨fun s ↦ ?_, h.once, fun y hy ↦ ?_, fun y hy ↦ ?_, fun y hy ↦ ?_⟩
    · simpa [hpools] using h.listed s
    · cases hy
      rw [hx]
      exact h.held x rfl
    · cases hy
      rw [hx]
      exact h.driven x rfl
    · cases hy
      simp only [hpools]
      rw [hx]
      exact h.ended x rfl

end Fits

def Before (b : Board) (a c : TaskId) : Prop :=
  ∀ x ∈ b.tasks[a]?, ∀ y ∈ b.tasks[c]?, y.priority ≤ x.priority

def Sorted (b : Board) (s : PoolId) : Prop := (b.waitingIn s).Pairwise b.Before

variable {b b' : Board} {s : PoolId} {t : TaskId} {x : Task} {p : Pool}

theorem before_of_staysAhead {priority : Int32} {a : TaskId}
    (ht : ∀ y ∈ b.tasks[t]?, y.priority = priority) (h : b.staysAhead priority a = true) :
    b.Before a t := by
  intro x hx y hy
  rw [Option.mem_def] at hx
  rw [staysAhead, hx, decide_eq_true_iff] at h
  rw [ht y hy]
  exact h

theorem lt_of_not_staysAhead {priority : Int32} {a : TaskId} (h : b.staysAhead priority a = false) :
    ∃ x, b.tasks[a]? = some x ∧ x.priority < priority := by
  rw [staysAhead] at h
  split at h
  · cases h
  · next x hx =>
    rw [decide_eq_false_iff_not, Int32.not_le] at h
    exact ⟨x, hx, h⟩

theorem not_staysAhead_of_before {priority : Int32} {a c : TaskId} (h : b.Before a c)
    (ha : b.staysAhead priority a = false) (hc : ∃ y, b.tasks[c]? = some y) :
    b.staysAhead priority c = false := by
  obtain ⟨x, hx, hlt⟩ := lt_of_not_staysAhead ha
  obtain ⟨y, hy⟩ := hc
  rw [staysAhead, hy]
  exact decide_eq_false (Int32.not_le.mpr (Int32.lt_of_le_of_lt (h x hx y hy) hlt))

theorem exists_enqueue_eq {ahead : TaskId → Bool}
    (hp : p.waiting.Pairwise fun a c ↦ ahead a = false → ahead c = false) (t : TaskId) :
    ∃ front back, p.waiting = front ++ back ∧ (∀ a ∈ front, ahead a = true) ∧
      (∀ a ∈ back, ahead a = false) ∧ (p.enqueue ahead t).waiting = front ++ t :: back := by
  have happ := List.takeWhile_append_dropWhile (p := ahead) (l := p.waiting)
  have hhead := List.head?_dropWhile_not ahead p.waiting
  have hfront : ∀ a ∈ p.waiting.takeWhile ahead, ahead a = true := fun a ha ↦ List.mem_takeWhile_imp ha
  generalize p.waiting.takeWhile ahead = front at happ hfront
  generalize p.waiting.dropWhile ahead = back at happ hhead
  have hback : ∀ a ∈ back, ahead a = false := by
    cases back with
    | nil => simp
    | cons d rest =>
      have hd : ahead d = false := by simpa using hhead
      rw [← happ, List.pairwise_append, List.pairwise_cons] at hp
      rw [List.forall_mem_cons]
      exact ⟨hd, fun a ha ↦ hp.2.1.1 a ha hd⟩
  have hpoint := partitionPoint_append hfront hback
  refine ⟨front, back, happ.symm, hfront, hback, ?_⟩
  rw [Pool.enqueue, Pool.insertAt, ← happ, hpoint, List.take_left, List.drop_left]

theorem pairwise_enqueue_of_parts {R : TaskId → TaskId → Prop} {ahead : TaskId → Bool}
    (hp : p.waiting.Pairwise R)
    (hparts : p.waiting.Pairwise fun a c ↦ ahead a = false → ahead c = false)
    (hfront : ∀ a ∈ p.waiting, ahead a = true → R a t)
    (hback : ∀ c ∈ p.waiting, ahead c = false → R t c) : (p.enqueue ahead t).waiting.Pairwise R := by
  obtain ⟨front, back, hsplit, hahead, hbehind, henqueue⟩ := exists_enqueue_eq hparts t
  rw [hsplit, List.forall_mem_append] at hfront hback
  rw [hsplit, List.pairwise_append] at hp
  obtain ⟨hpf, hpb, hcross⟩ := hp
  rw [henqueue, List.pairwise_append, List.pairwise_cons]
  refine ⟨hpf, ⟨fun c hc ↦ hback.2 c hc (hbehind c hc), hpb⟩, fun a ha c hc ↦ ?_⟩
  rcases List.mem_cons.mp hc with rfl | hc
  · exact hfront.1 a ha (hahead a ha)
  · exact hcross a ha c hc

theorem pairwise_enqueue {priority : Int32} (hp : p.waiting.Pairwise b.Before)
    (hon : ∀ a ∈ p.waiting, ∃ y, b.tasks[a]? = some y)
    (ht : ∀ y ∈ b.tasks[t]?, y.priority = priority) :
    (p.enqueue (b.staysAhead priority) t).waiting.Pairwise b.Before := by
  apply pairwise_enqueue_of_parts hp
  · exact hp.imp_of_mem fun _ hc h ha ↦ not_staysAhead_of_before h ha (hon _ hc)
  · exact fun a _ ha ↦ before_of_staysAhead ht ha
  · intro c _ hc x hx y hy
    obtain ⟨z, hz, hlt⟩ := lt_of_not_staysAhead hc
    cases hz.symm.trans hy
    rw [ht x hx]
    exact Int32.le_of_lt hlt

/-- How often a task stands in the lists of each pool fits what it says of itself, every pool is in
order, and no unit carries out two tasks. -/
structure Linked (b : Board) : Prop where
  fits : ∀ t, Fits (b.waits t) (b.holds t) b.tasks[t]?
  sorted : ∀ s, b.Sorted s
  exclusive : ∀ (t t' : TaskId) (x x' : Task) (u : UnitId), b.tasks[t]? = some x →
    b.tasks[t']? = some x' → x.executor = some u → x'.executor = some u → t = t'

theorem Touches.pairwise_others (ht : Touches t b b') {l : List TaskId} (h : l.Pairwise b.Before) :
    (Pool.others t l).Pairwise b'.Before := by
  refine (h.sublist List.filter_sublist).imp_of_mem fun ha hc hbefore ↦ ?_
  rw [Before, ht.tasks _ (Pool.ne_of_mem_others ha), ht.tasks _ (Pool.ne_of_mem_others hc)]
  exact hbefore

theorem Touches.sorted (ht : Touches t b b') (hs : b.Sorted s) (hnot : t ∉ b'.waitingIn s) :
    b'.Sorted s := by
  rw [Sorted, ← Pool.others_of_not_mem hnot, ht.waiting s]
  exact ht.pairwise_others hs

theorem Linked.of_touches (h : b.Linked) (ht : Touches t b b')
    (hfits : Fits (b'.waits t) (b'.holds t) b'.tasks[t]?)
    (hsorted : ∀ s, t ∈ b'.waitingIn s → b'.Sorted s)
    (hexec : ∀ (x' : Task) (u : UnitId), b'.tasks[t]? = some x' → x'.executor = some u →
      ∀ (t' : TaskId) (x : Task), t' ≠ t → b.tasks[t']? = some x → x.executor ≠ some u) :
    b'.Linked where
  fits t' := by
    by_cases he : t' = t
    · rw [he]
      exact hfits
    · rw [ht.waits_eq he, ht.holds_eq he, ht.tasks t' he]
      exact h.fits t'
  sorted s := by
    by_cases hmem : t ∈ b'.waitingIn s
    · exact hsorted s hmem
    · exact ht.sorted (h.sorted s) hmem
  exclusive t₁ t₂ x₁ x₂ u h₁ h₂ hu₁ hu₂ := by
    by_cases he₁ : t₁ = t
    · by_cases he₂ : t₂ = t
      · rw [he₁, he₂]
      · rw [ht.tasks t₂ he₂] at h₂
        exact absurd hu₂ (hexec x₁ u (he₁ ▸ h₁) hu₁ t₂ x₂ he₂ h₂)
    · rw [ht.tasks t₁ he₁] at h₁
      by_cases he₂ : t₂ = t
      · exact absurd hu₁ (hexec x₂ u (he₂ ▸ h₂) hu₂ t₁ x₁ he₁ h₁)
      · rw [ht.tasks t₂ he₂] at h₂
        exact h.exclusive t₁ t₂ x₁ x₂ u h₁ h₂ hu₁ hu₂

theorem Linked.of_change (h : b.Linked) (ht : Touches t b b') (hx : b.tasks[t]? = some x) {x' : Task}
    (hx' : b'.tasks[t]? = some x') (hfits : Fits (b'.waits t) (b'.holds t) (some x'))
    (hsorted : ∀ s, t ∈ b'.waitingIn s → b'.Sorted s)
    (hexec : x'.executor = x.executor ∨ x'.executor = none) : b'.Linked := by
  refine h.of_touches ht (by rw [hx']; exact hfits) hsorted ?_
  intro y u hy hu t' z hne hz hzu
  cases hx'.symm.trans hy
  rcases hexec with hexec | hexec
  · exact hne (h.exclusive t' t z x u hz hx hzu (hexec ▸ hu))
  · simp [hexec] at hu

theorem sorted_mapTask {f : Task → Task} (hf : ∀ y, (f y).priority = y.priority)
    (hs : b.Sorted s) : (b.mapTask t f).Sorted s := by
  have hprio : ∀ (a : TaskId) (x : Task), x ∈ (b.mapTask t f).tasks[a]? →
      ∃ y : Task, y ∈ b.tasks[a]? ∧ y.priority = x.priority := by
    intro a x hx
    rw [getElem?_mapTask] at hx
    split at hx
    · next he =>
      obtain ⟨y, hy, rfl⟩ := Option.map_eq_some_iff.mp hx
      exact ⟨y, he ▸ hy, (hf y).symm⟩
    · exact ⟨x, hx, rfl⟩
  refine hs.imp fun {a c} h x hx y hy ↦ ?_
  obtain ⟨x', hx', hxp⟩ := hprio a x hx
  obtain ⟨y', hy', hyp⟩ := hprio c y hy
  rw [← hxp, ← hyp]
  exact h x' hx' y' hy'

theorem Linked.exists_task (h : b.Linked) (hs : 0 < b.waits t s + b.holds t s) :
    ∃ x, b.tasks[t]? = some x ∧ x.pools.contains s = true ∧ x.terminated = false :=
  (h.fits t).mem_of_pos hs

theorem Touches.exists_of_waiting (ht : Touches t b b') (h : b.Linked) {a : TaskId} (ha : a ≠ t)
    (hs : a ∈ b'.waitingIn s) : ∃ y, b'.tasks[a]? = some y := by
  have hpos : 0 < b'.waits a s := List.count_pos_iff.mpr hs
  rw [ht.waits_eq ha] at hpos
  obtain ⟨y, hy, -⟩ := h.exists_task (t := a) (s := s) (by omega)
  exact ⟨y, (ht.tasks a ha).trans hy⟩

theorem Linked.exists_of_waiting (h : b.Linked) (hs : t ∈ b.waitingIn s) :
    ∃ x, b.tasks[t]? = some x := by
  have hpos : 0 < b.waits t s := List.count_pos_iff.mpr hs
  obtain ⟨x, hx, -⟩ := h.exists_task (t := t) (s := s) (by omega)
  exact ⟨x, hx⟩

theorem sorted_mapPool {f : Pool → Pool} (hp : b.pool? s = some p)
    (hf : (f p).waiting.Pairwise b.Before) (h : ∀ s, b.Sorted s) (s' : PoolId) :
    (b.mapPool s f).Sorted s' := by
  by_cases he : s' = s
  · rw [he, Sorted, waitingIn_of_pool? (pool?_mapPool_self hp f)]
    exact hf
  · rw [Sorted, waitingIn_mapPool_of_ne he]
    exact h s'

theorem Linked.pairwise (h : b.Linked) (hp : b.pool? s = some p) : p.waiting.Pairwise b.Before := by
  rw [← waitingIn_of_pool? hp]
  exact h.sorted s

theorem Linked.fits_some (h : b.Linked) (hx : b.tasks[t]? = some x) :
    Fits (b.waits t) (b.holds t) (some x) := by
  rw [← hx]
  exact h.fits t

theorem Linked.not_ended (h : b.Linked) (hx : b.tasks[t]? = some x)
    (hs : 0 < b.waits t s ∨ 0 < b.holds t s) : x.terminated = false := by
  obtain ⟨y, hy, -, hend⟩ := h.exists_task (t := t) (s := s) (by omega)
  cases hx.symm.trans hy
  exact hend

theorem waits_pos (hp : b.pool? s = some p) (ht : t ∈ p.waiting) : 0 < b.waits t s := by
  rw [waits_of_pool? hp]
  exact List.count_pos_iff.mpr ht

theorem holds_pos (hp : b.pool? s = some p) (ht : t ∈ p.assigned) : 0 < b.holds t s := by
  rw [holds_of_pool? hp]
  exact List.count_pos_iff.mpr ht

end Errand.Board
