import Errand.Proofs.Board.Accounting

namespace Errand

/-- Which tasks are in which pools, and a number for each of them there, all from one counter. -/
structure Ledger where
  next : Nat := 0
  number : PoolId → TaskId → Option Nat := fun _ _ ↦ none

namespace Ledger

/-- Gives a task the next number in some pools. -/
def renew (L : Ledger) (t : TaskId) (pools : PoolId → Bool) : Ledger where
  next := L.next + 1
  number s t' := if t' = t ∧ pools s then some L.next else L.number s t'

def drop (L : Ledger) (t : TaskId) (pools : PoolId → Bool) : Ledger :=
  { L with number := fun s t' ↦ if t' = t ∧ pools s then none else L.number s t' }

structure Touches (t : TaskId) (L L' : Ledger) : Prop where
  number : ∀ s t', t' ≠ t → L'.number s t' = L.number s t'
  next : L.next ≤ L'.next

theorem Touches.refl (t : TaskId) (L : Ledger) : L.Touches t L := ⟨fun _ _ _ ↦ rfl, Nat.le_refl _⟩

theorem renew_touches (L : Ledger) (t : TaskId) (pools : PoolId → Bool) :
    L.Touches t (L.renew t pools) where
  number _ _ ht' := if_neg fun h ↦ ht' h.1
  next := Nat.le_succ _

theorem drop_touches (L : Ledger) (t : TaskId) (pools : PoolId → Bool) :
    L.Touches t (L.drop t pools) where
  number _ _ ht' := if_neg fun h ↦ ht' h.1
  next := Nat.le_refl _

theorem number_renew (L : Ledger) (t : TaskId) (pools : PoolId → Bool) (s : PoolId) :
    (L.renew t pools).number s t = if pools s then some L.next else L.number s t := by
  simp [renew]

theorem number_drop (L : Ledger) (t : TaskId) (pools : PoolId → Bool) (s : PoolId) :
    (L.drop t pools).number s t = if pools s then none else L.number s t := by
  simp [drop]

end Ledger

namespace Board

variable {b b' : Board} {L L' : Ledger} {s : PoolId} {t a c : TaskId} {x : Task} {p : Pool}

/-- The priority of a task and its number in a pool. -/
def key (b : Board) (L : Ledger) (s : PoolId) (t : TaskId) : Option (Int32 × Nat) :=
  b.tasks[t]?.bind fun x ↦ (L.number s t).map (x.priority, ·)

/-- Task `a` has a higher priority than task `c`, or it has the same one and its number in pool `s` is
smaller. -/
def Precedes (b : Board) (L : Ledger) (s : PoolId) (a c : TaskId) : Prop :=
  ∃ k k', b.key L s a = some k ∧ b.key L s c = some k' ∧ (k'.1 < k.1 ∨ k'.1 = k.1 ∧ k.2 < k'.2)

structure Matches (b : Board) (L : Ledger) : Prop where
  member : ∀ s t, (L.number s t).isSome = b.tasks[t]?.any (·.pools.contains s)
  fresh : ∀ s t n, L.number s t = some n → n < L.next
  ordered : ∀ s, (b.waitingIn s).Pairwise (b.Precedes L s)

theorem key_of_task (hx : b.tasks[t]? = some x) (L : Ledger) (s : PoolId) :
    b.key L s t = (L.number s t).map (x.priority, ·) := by
  rw [key, hx, Option.bind_some]

theorem staysAhead_of_task (hx : b.tasks[t]? = some x) (priority : Int32) :
    b.staysAhead priority t = decide (priority ≤ x.priority) := by
  rw [staysAhead, hx]

theorem Linked.not_waiting (h : b.Linked) (hx : b.tasks[t]? = some x)
    (hs : x.pools.contains s = false) : t ∉ b.waitingIn s := by
  have hlisted := (h.fits_some hx).listed s
  rw [Option.any_some, hs, if_neg Bool.false_ne_true] at hlisted
  exact List.count_eq_zero.mp (Nat.eq_zero_of_add_eq_zero_right hlisted)

theorem Precedes.asymm (h : b.Precedes L s a c) (h' : b.Precedes L s c a) : False := by
  obtain ⟨k, k', ha, hc, h⟩ := h
  obtain ⟨l', l, hc', ha', h'⟩ := h'
  cases ha.symm.trans ha'
  cases hc.symm.trans hc'
  rcases h with h | ⟨he, h⟩
  · rcases h' with h' | ⟨he', -⟩
    · exact Int32.lt_asymm h h'
    · rw [he'] at h
      exact Int32.lt_irrefl h
  · rcases h' with h' | ⟨-, h'⟩
    · rw [he] at h'
      exact Int32.lt_irrefl h'
    · omega

theorem Precedes.congr (h : b.Precedes L s a c) (ha : b'.key L' s a = b.key L s a)
    (hc : b'.key L' s c = b.key L s c) : b'.Precedes L' s a c := by
  obtain ⟨k, k', hk, hk', h⟩ := h
  exact ⟨k, k', ha.trans hk, hc.trans hk', h⟩

theorem key_of_touches (ht : Touches t b b') (hL : L.Touches t L') (ha : a ≠ t) :
    b'.key L' s a = b.key L s a := by
  rw [key, ht.tasks a ha, hL.number s a ha, key]

theorem pairwise_precedes_others (ht : Touches t b b') (hL : L.Touches t L') {l : List TaskId}
    (h : l.Pairwise (b.Precedes L s)) : (Pool.others t l).Pairwise (b'.Precedes L' s) := by
  refine (h.sublist List.filter_sublist).imp_of_mem fun ha hc hprec ↦ ?_
  exact hprec.congr (key_of_touches ht hL (Pool.ne_of_mem_others ha))
    (key_of_touches ht hL (Pool.ne_of_mem_others hc))

theorem pairwise_enqueue_of_key {ahead : TaskId → Bool} {priority : Int32} {n : Nat}
    (hp : p.waiting.Pairwise (b.Precedes L s))
    (hkeys : ∀ a ∈ p.waiting, ∃ k, b.key L s a = some k ∧ k.2 < n ∧ ahead a = decide (priority ≤ k.1))
    (hkey : b.key L s t = some (priority, n)) :
    (p.enqueue ahead t).waiting.Pairwise (b.Precedes L s) := by
  apply pairwise_enqueue_of_parts hp
  · refine hp.imp_of_mem fun {a c} ha hc hprec hahead ↦ ?_
    obtain ⟨k, hk, -, hka⟩ := hkeys a ha
    obtain ⟨k', hk', -, hkc⟩ := hkeys c hc
    obtain ⟨l, l', hl, hl', hprec⟩ := hprec
    cases hk.symm.trans hl
    cases hk'.symm.trans hl'
    rw [hka, decide_eq_false_iff_not, Int32.not_le] at hahead
    rw [hkc, decide_eq_false_iff_not, Int32.not_le]
    rcases hprec with hlt | ⟨heq, -⟩
    · exact Int32.lt_trans hlt hahead
    · rw [heq]
      exact hahead
  · intro a ha hahead
    obtain ⟨k, hk, hn, hka⟩ := hkeys a ha
    have hle : priority ≤ k.1 := of_decide_eq_true (hka.symm.trans hahead)
    refine ⟨k, _, hk, hkey, ?_⟩
    by_cases he : priority = k.1
    · exact .inr ⟨he, hn⟩
    · exact .inl (Int32.lt_of_le_of_ne hle he)
  · intro c hc hbehind
    obtain ⟨k, hk, -, hkc⟩ := hkeys c hc
    have hlt : k.1 < priority := Int32.not_le.mp (of_decide_eq_false (hkc.symm.trans hbehind))
    exact ⟨_, k, hkey, hk, .inl hlt⟩

/-- The pools in which a task that goes back to pool `s` gets a new number. -/
def regained (b : Board) (s : PoolId) (t : TaskId) (s' : PoolId) : Bool :=
  s' = s ∨ t ∈ b.waitingIn s'

namespace Matches

theorem exists_key (hm : Matches b L) (hb : b.Linked) (ha : a ∈ b.waitingIn s) :
    ∃ y n, b.tasks[a]? = some y ∧ b.key L s a = some (y.priority, n) ∧ n < L.next := by
  have hpos : 0 < b.waits a s := List.count_pos_iff.mpr ha
  obtain ⟨y, hy, hs, -⟩ := hb.exists_task (s := s) (t := a) (by omega)
  have hmember := hm.member s a
  rw [hy, Option.any_some, hs] at hmember
  obtain ⟨n, hn⟩ := Option.isSome_iff_exists.mp hmember
  refine ⟨y, n, hy, ?_, hm.fresh s a n hn⟩
  rw [key_of_task hy, hn]
  rfl

theorem of_touches (hm : Matches b L) (ht : Touches t b b') (hL : L.Touches t L')
    (hmember : ∀ s, (L'.number s t).isSome = b'.tasks[t]?.any (·.pools.contains s))
    (hfresh : ∀ s n, L'.number s t = some n → n < L'.next)
    (hordered : ∀ s, t ∈ b'.waitingIn s → (b'.waitingIn s).Pairwise (b'.Precedes L' s)) :
    Matches b' L' where
  member s a := by
    by_cases ha : a = t
    · rw [ha]
      exact hmember s
    · rw [hL.number s a ha, ht.tasks a ha]
      exact hm.member s a
  fresh s a n hn := by
    by_cases ha : a = t
    · rw [ha] at hn
      exact hfresh s n hn
    · rw [hL.number s a ha] at hn
      exact Nat.lt_of_lt_of_le (hm.fresh s a n hn) hL.next
  ordered s := by
    by_cases hs : t ∈ b'.waitingIn s
    · exact hordered s hs
    · rw [← Pool.others_of_not_mem hs, ht.waiting s]
      exact pairwise_precedes_others ht hL (hm.ordered s)

theorem pairwise_of_sublist (hm : Matches b L) (ht : Touches t b b') (hL : L.Touches t L')
    (hs : (b'.waitingIn s).Sublist (b.waitingIn s)) (hkey : b'.key L' s t = b.key L s t) :
    (b'.waitingIn s).Pairwise (b'.Precedes L' s) := by
  have hkeys : ∀ a, b'.key L' s a = b.key L s a := by
    intro a
    by_cases ha : a = t
    · rw [ha, hkey]
    · exact key_of_touches ht hL ha
  exact ((hm.ordered s).sublist hs).imp fun h ↦ h.congr (hkeys _) (hkeys _)

theorem pairwise_of_enqueue (hm : Matches b L) (hb : b.Linked) (ht : Touches t b b')
    (hL : L.Touches t L') {q : Pool} (hq : q.waiting = Pool.others t (b.waitingIn s))
    {ahead : TaskId → Bool} {priority : Int32}
    (hahead : ∀ a y, b'.tasks[a]? = some y → a ≠ t → ahead a = decide (priority ≤ y.priority))
    (hkey : b'.key L' s t = some (priority, L.next)) :
    (q.enqueue ahead t).waiting.Pairwise (b'.Precedes L' s) := by
  apply pairwise_enqueue_of_key _ _ hkey
  · rw [hq]
    exact pairwise_precedes_others ht hL (hm.ordered s)
  · intro a ha
    rw [hq] at ha
    have hne := Pool.ne_of_mem_others ha
    obtain ⟨y, n, hy, hk, hn⟩ := hm.exists_key hb (List.mem_filter.mp ha).1
    refine ⟨_, (key_of_touches ht hL hne).trans hk, hn, ?_⟩
    exact hahead a y ((ht.tasks a hne).trans hy) hne

theorem of_renew (hm : Matches b L) (ht : Touches t b b') {pools : PoolId → Bool}
    (hmember : ∀ s, b'.tasks[t]?.any (·.pools.contains s) =
      (pools s || b.tasks[t]?.any (·.pools.contains s)))
    (hordered : ∀ s, t ∈ b'.waitingIn s →
      (b'.waitingIn s).Pairwise (b'.Precedes (L.renew t pools) s)) :
    Matches b' (L.renew t pools) := by
  apply hm.of_touches ht (L.renew_touches t pools) _ _ hordered
  · intro s
    rw [L.number_renew, hmember, ← hm.member]
    cases pools s <;> rfl
  · intro s n hn
    rw [L.number_renew] at hn
    split at hn
    · cases hn
      exact Nat.lt_succ_self _
    · exact Nat.lt_succ_of_lt (hm.fresh s t n hn)

theorem of_drop (hm : Matches b L) (ht : Touches t b b') {pools : PoolId → Bool}
    (hmember : ∀ s, b'.tasks[t]?.any (·.pools.contains s) =
      (!pools s && b.tasks[t]?.any (·.pools.contains s)))
    (hordered : ∀ s, t ∈ b'.waitingIn s →
      (b'.waitingIn s).Pairwise (b'.Precedes (L.drop t pools) s)) :
    Matches b' (L.drop t pools) := by
  apply hm.of_touches ht (L.drop_touches t pools) _ _ hordered
  · intro s
    rw [L.number_drop, hmember, ← hm.member]
    cases pools s <;> rfl
  · intro s n hn
    rw [L.number_drop] at hn
    split at hn
    · cases hn
    · exact hm.fresh s t n hn

theorem of_change (hm : Matches b L) (ht : Touches t b b')
    (hmember : ∀ s, b'.tasks[t]?.any (·.pools.contains s) = b.tasks[t]?.any (·.pools.contains s))
    (hsub : ∀ s, (b'.waitingIn s).Sublist (b.waitingIn s))
    (hkey : ∀ s, b'.key L s t = b.key L s t) : Matches b' L := by
  apply hm.of_touches ht (.refl t L)
  · intro s
    rw [hmember, hm.member]
  · exact fun s n hn ↦ hm.fresh s t n hn
  · exact fun s _ ↦ hm.pairwise_of_sublist ht (.refl t L) (hsub s) (hkey s)

theorem schedule (hm : Matches b L) (hb : b.Linked) (hx : b.tasks[t]? = some x)
    (hp : b.pool? s = some p) (hs : x.pools.contains s = false) :
    Matches (b.scheduled s t x.priority) (L.renew t (· = s)) := by
  have ht := scheduled_touches b s t x.priority
  have hx' := getElem?_scheduled hx s x.priority
  apply hm.of_renew ht
  · intro s'
    rw [hx', hx, Option.any_some, Option.any_some, Std.TreeSet.contains_insert]
    by_cases he : s' = s
    · simp [he]
    · have he' : ¬ s = s' := fun e ↦ he e.symm
      simp [he, he']
  · intro s' _
    by_cases he : s' = s
    · have hwaiting : p.waiting = Pool.others t (b.waitingIn s') := by
        rw [he, Pool.others_of_not_mem (hb.not_waiting hx hs), waitingIn_of_pool? hp]
      have hkey := key_of_task hx' (L.renew t (· = s)) s'
      rw [L.number_renew, if_pos (by simpa using he)] at hkey
      rw [he] at hwaiting hkey ⊢
      rw [scheduled, waitingIn_mapTask, waitingIn_of_pool? (pool?_mapPool_self hp _)]
      apply hm.pairwise_of_enqueue hb ht (L.renew_touches t _) hwaiting _ hkey
      intro a y hy hne
      rw [ht.tasks a hne] at hy
      exact staysAhead_of_task hy _
    · apply hm.pairwise_of_sublist ht (L.renew_touches t _)
      · simpa only [scheduled, waitingIn_mapTask, waitingIn_mapPool_of_ne he] using List.Sublist.refl _
      · rw [key_of_task hx', key_of_task hx, L.number_renew, if_neg (by simpa using he)]

theorem unschedule (hm : Matches b L) (hb : b.Linked) (hp : b.pool? s = some p) (ht : t ∈ p.waiting) :
    Matches (b.unscheduled s t) (L.drop t (· = s)) := by
  have htouches := unscheduled_touches b s t
  have hpos := waits_pos hp ht
  obtain ⟨x, hx, -⟩ := hb.exists_task (s := s) (t := t) (by omega)
  have hx' := getElem?_unscheduled hx s
  apply hm.of_drop htouches
  · intro s'
    rw [hx', hx, Option.any_some, Option.any_some, Std.TreeSet.contains_erase]
    by_cases he : s' = s
    · simp [he]
    · have he' : ¬ s = s' := fun e ↦ he e.symm
      simp [he, he']
  · intro s' hs'
    rw [unscheduled, waitingIn_mapTask] at hs'
    by_cases he : s' = s
    · have hle := hb.waits_le_one t s
      rw [waitingIn_of_pool? hp] at hle
      rw [he, waitingIn_of_pool? (pool?_mapPool_self hp _), ← List.count_pos_iff, Pool.dequeue,
        List.count_erase_self] at hs'
      omega
    · apply hm.pairwise_of_sublist htouches (L.drop_touches t _)
      · simpa only [unscheduled, waitingIn_mapTask, waitingIn_mapPool_of_ne he] using List.Sublist.refl _
      · rw [key_of_task hx', key_of_task hx, L.number_drop, if_neg (by simpa using he)]

theorem assign (hm : Matches b L) (hx : b.tasks[t]? = some x) (hp : b.pool? s = some p) (u : UnitId) :
    Matches (b.started s t u) L := by
  have hx' := getElem?_started hx s u
  apply hm.of_change (started_touches b s t u)
  · intro s'
    rw [hx', hx]
    rfl
  · intro s'
    rw [started, waitingIn_mapTask]
    by_cases he : s' = s
    · rw [he, waitingIn_of_pool? (pool?_mapPool_self hp _), waitingIn_of_pool? hp]
      exact List.erase_sublist
    · simpa only [waitingIn_mapPool_of_ne he] using List.Sublist.refl _
  · intro s'
    rw [key_of_task hx', key_of_task hx]
    rfl

theorem endTask (hm : Matches b L) (hb : b.Linked) (hx : b.tasks[t]? = some x) :
    Matches (b.endedTask t x) (L.drop t fun _ ↦ true) := by
  apply hm.of_drop (endedTask_touches b t x)
  · intro s
    rw [getElem?_endedTask hx]
    simp [Task.unlinked]
  · intro s hs
    exact absurd hs (List.count_eq_zero.mp (hb.endedTask_absent hx s).1)

theorem withTask (hm : Matches b L) (hb : b.Linked) (hx : b.tasks[t]? = none) (x : Task) :
    Matches (b.withTask t x) L := by
  have hfit := hb.fits t
  rw [hx] at hfit
  apply hm.of_touches (withTask_touches b t x) (.refl t L)
  · intro s
    rw [hm.member, hx, getElem?_withTask]
    simp [Task.unlinked]
  · exact fun s n hn ↦ hm.fresh s t n hn
  · exact fun s hs ↦ absurd hs (List.count_eq_zero.mp (hfit.absent s).1)

theorem drop_ended (hm : Matches b L) (hb : b.Linked) (hx : b.tasks[t]? = some x)
    (hend : x.terminated = true) : Matches b (L.drop t fun _ ↦ true) := by
  have hnone := ((hb.fits_some hx).ended x rfl hend).2
  apply hm.of_drop (.refl t b)
  · intro s
    rw [hx, Option.any_some, hnone]
    rfl
  · exact fun s hs ↦ absurd hs (hb.not_waiting hx (hnone s))

theorem handBack (hm : Matches b L) (hb : b.Linked) (hx : b.tasks[t]? = some x)
    (hp : b.pool? s = some p) (ht : t ∈ p.assigned) (priority : Int32) :
    Matches (b.handedBack s t x priority) (L.renew t (b.regained s t)) := by
  have htouches := handedBack_touches b s t x priority
  have hx' := getElem?_handedBack (s := s) hx priority
  apply hm.of_renew htouches
  · intro s'
    have hcontains : b.regained s t s' = true → x.pools.contains s' = true := by
      intro hs'
      rcases of_decide_eq_true hs' with rfl | hs'
      · have hpos := holds_pos hp ht
        obtain ⟨y, hy, hc, -⟩ := hb.exists_task (s := s') (t := t) (by omega)
        cases hx.symm.trans hy
        exact hc
      · exact Task.mem_pools.mp (hb.mem_pools_of_waiting hx hs')
    rw [hx', hx, Option.any_some, Option.any_some]
    cases hs' : b.regained s t s' with
    | true => exact hcontains hs'
    | false => rfl
  · intro s' hs'
    have hs' := waiting_of_handedBack hp x priority hs'
    obtain ⟨q, hq, hwaiting⟩ := hb.exists_handedBack_eq hx hp ht priority hs'
    have hkey := key_of_task hx' (L.renew t (b.regained s t)) s'
    have hregained : b.regained s t s' = true := decide_eq_true hs'
    rw [L.number_renew, hregained, if_pos rfl] at hkey
    rw [hwaiting]
    apply hm.pairwise_of_enqueue hb htouches (L.renew_touches t _) hq _ hkey
    exact fun a y hy _ ↦ staysAhead_of_task hy priority

theorem run (hm : Matches b L) (hx : b.tasks[t]? = some x) {f : Task → Task}
    (hpools : (f x).pools = x.pools) (hprio : (f x).priority = x.priority) :
    Matches (b.mapTask t f) L := by
  have hx' := getElem?_mapTask_self hx f
  apply hm.of_change (touches_mapTask b t f)
  · intro s
    rw [hx', hx, Option.any_some, Option.any_some, hpools]
  · exact fun s ↦ List.Sublist.refl _
  · intro s
    rw [key_of_task hx', key_of_task hx, hprio]

theorem congr (hm : Matches b L) (hwaiting : ∀ s, b'.waitingIn s = b.waitingIn s)
    (hmember : ∀ (s : PoolId) (t : TaskId),
      b'.tasks[t]?.any (·.pools.contains s) = b.tasks[t]?.any (·.pools.contains s))
    (hkey : ∀ s, ∀ t ∈ b.waitingIn s, b'.key L s t = b.key L s t) : Matches b' L where
  member s t := by rw [hmember, hm.member]
  fresh := hm.fresh
  ordered s := by
    rw [hwaiting]
    exact (hm.ordered s).imp_of_mem fun ha hc h ↦ h.congr (hkey s _ ha) (hkey s _ hc)

theorem withPool (hm : Matches b L) (f : FactionId) : Matches (b.withPool f) L :=
  hm.congr (waitingIn_withPool b f) (fun _ _ ↦ rfl) fun _ _ _ ↦ rfl

theorem same (hm : Matches b L) (h : Same b b') : Matches b' L := by
  apply hm.congr
  · intro s
    rw [waitingIn, h.pool?_eq, waitingIn]
  · intro s t
    have hrel := h.tasks t
    generalize b.tasks[t]? = o, b'.tasks[t]? = o' at hrel
    cases hrel with
    | none => rfl
    | some hsame => exact hsame.pools.contains_eq
  · intro s t _
    have hrel := h.tasks t
    rw [key, key]
    generalize b.tasks[t]? = o, b'.tasks[t]? = o' at hrel
    cases hrel with
    | none => rfl
    | some hsame =>
      rw [hsame.fields]
      rfl

theorem removeEnded (hm : Matches b L) (hb : b.Linked) : Matches b.removeEnded.2 L := by
  apply hm.congr
  · exact fun _ ↦ rfl
  · intro s t
    rw [getElem?_removeEnded]
    cases hx : b.tasks[t]? with
    | none => rfl
    | some x =>
      cases hend : x.terminated with
      | false => simp [hend, Option.filter_some]
      | true => simp [hend, Option.filter_some, ((hb.fits_some hx).ended x rfl hend).2 s]
  · intro s t ht
    have hpos : 0 < b.waits t s := List.count_pos_iff.mpr ht
    obtain ⟨x, hx, -, hend⟩ := hb.exists_task (s := s) (t := t) (by omega)
    rw [key, key, getElem?_removeEnded, hx, Option.filter_some, hend]
    rfl

end Matches

end Board

end Errand
