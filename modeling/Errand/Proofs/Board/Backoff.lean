import Errand.Proofs.Board.Frame
import Errand.Proofs.World.Extent
import Mathlib.Logic.Function.Iterate

namespace Errand

namespace Word

def ofInt? (n : Int) : Option Int64 :=
  if h : Int64.minValue.toInt ≤ n ∧ n ≤ Int64.maxValue.toInt then
    some (Int64.ofIntLE n h.1 h.2)
  else none

def abs? (a : Int64) : Option Int64 := ofInt? a.toInt.natAbs

def sub? (a c : Int64) : Option Int64 := ofInt? (a.toInt - c.toInt)

def mul? (a c : Int64) : Option Int64 := ofInt? (a.toInt * c.toInt)

def div? (a c : Int64) : Option Int64 := if c = 0 then none else ofInt? (a.toInt.tdiv c.toInt)

def Gives (o : Option Int64) (n : Int) : Prop := ∃ w, o = some w ∧ w.toInt = n

theorem Gives.bind {o : Option Int64} {f : Int64 → Option Int64} {n m : Int} (h : Gives o n)
    (hf : ∀ w : Int64, w.toInt = n → Gives (f w) m) : Gives (o >>= f) m := by
  obtain ⟨w, rfl, hw⟩ := h
  exact hf w hw

theorem gives_ofInt? {n : Int} (h : -9223372036854775808 ≤ n ∧ n ≤ 9223372036854775807) :
    Gives (ofInt? n) n :=
  ⟨_, dif_pos h, Int64.toInt_ofIntLE⟩

theorem toInt_max (a c : Int64) : (max a c).toInt = max a.toInt c.toInt := by
  change (if a ≤ c then c else a).toInt = _
  simp only [Int64.le_iff_toInt_le]
  split <;> omega

theorem gives_div? {a c : Int64} (hc : 0 < c.toInt) : Gives (div? a c) (a.toInt.tdiv c.toInt) := by
  have hne : c ≠ 0 := by
    intro h
    simp [h] at hc
  have hlow : -9223372036854775808 ≤ a.toInt := Int64.minValue_le_toInt a
  have hhigh : a.toInt ≤ 9223372036854775807 := Int64.toInt_le a
  have hquotient := Int.natAbs_tdiv_le_natAbs a.toInt c.toInt
  -- only the least word has a larger size than a word can have as a positive number
  have hsign : a.toInt ≤ 0 → a.toInt.tdiv c.toInt ≤ 0 := by
    intro ha
    have h := Int.tdiv_nonneg (Int.neg_nonneg_of_nonpos ha) (Int.le_of_lt hc)
    rw [Int.neg_tdiv] at h
    omega
  rw [div?, if_neg hne]
  exact gives_ofInt? (by omega)

end Word

open Word in
/-- The computation of `backoff` in words, without the last step to 32 bits. It has no result if one
of the operations overflows or divides by zero. -/
def backoffWord? (priority numerator denominator : Int32) : Option Int64 :=
  let p := priority.toInt64
  let n := numerator.toInt64
  let d := max denominator.toInt64 1
  if 0 < p then do
    let product ← mul? p n
    div? product d
  else do
    let size ← abs? p
    let part ← sub? d n
    let product ← mul? size part
    let quotient ← div? product d
    let fallen ← sub? p (max quotient 1)
    return max fallen Int32.minValue.toInt64

def backoffValue (p n d : Int) : Int :=
  if 0 < p then (p * n).tdiv d else max (p - backoffDrop p n d) Int32.minValue.toInt

theorem backoff_eq (p n d : Int32) :
    backoff p n d = Int32.ofInt (backoffValue p.toInt n.toInt (max d.toInt 1)) := by
  simp only [backoff, backoffValue]
  split <;> rfl

theorem backoffDrop_le {p n d : Int} (hp : -2147483648 ≤ p ∧ p ≤ 2147483647)
    (hn : -2147483648 ≤ n ∧ n ≤ 2147483647) (hd : 1 ≤ d ∧ d ≤ 2147483647) :
    (p.natAbs * (d - n)).natAbs ≤ 9223372034707292160 ∧ backoffDrop p n d ≤ 9223372034707292160 := by
  have hproduct : (p.natAbs * (d - n)).natAbs ≤ 2147483648 * 4294967295 := by
    rw [Int.natAbs_mul]
    exact Nat.mul_le_mul (by omega) (by omega)
  have hquotient := Int.natAbs_tdiv_le_natAbs (p.natAbs * (d - n)) d
  refine ⟨hproduct, ?_⟩
  rw [backoffDrop]
  omega

theorem gives_backoffWord? (p n d : Int32) :
    Word.Gives (backoffWord? p n d) (backoffValue p.toInt n.toInt (max d.toInt 1)) := by
  have hp := Position.toInt_bounds p
  have hn := Position.toInt_bounds n
  have hd := Position.toInt_bounds d
  have hden : (max d.toInt64 1).toInt = max d.toInt 1 := by
    rw [Word.toInt_max, Int32.toInt_toInt64]
    rfl
  have hpos : 0 < p.toInt64 ↔ 0 < p.toInt := by
    rw [Int64.lt_iff_toInt_lt, Int32.toInt_toInt64]
    rfl
  simp only [backoffWord?, backoffValue, hpos]
  split
  · have hproduct : (p.toInt * n.toInt).natAbs ≤ 2147483648 * 2147483648 := by
      rw [Int.natAbs_mul]
      exact Nat.mul_le_mul (by omega) (by omega)
    refine (Word.gives_ofInt? ?_).bind fun product h ↦ ?_
    · simp only [Int32.toInt_toInt64]
      omega
    · have hdiv := Word.gives_div? (a := product) (c := max d.toInt64 1) (by omega)
      simpa [hden, h] using hdiv
  · next hneg =>
    obtain ⟨hproduct, hdrop⟩ := backoffDrop_le hp hn (d := max d.toInt 1) (by omega)
    refine (Word.gives_ofInt? ?_).bind fun size hsize ↦ ?_
    · rw [Int32.toInt_toInt64]
      omega
    refine (Word.gives_ofInt? ?_).bind fun part hpart ↦ ?_
    · rw [hden, Int32.toInt_toInt64]
      omega
    rw [Int32.toInt_toInt64] at hsize
    rw [hden, Int32.toInt_toInt64] at hpart
    refine (Word.gives_ofInt? ?_).bind fun product h ↦ ?_
    · rw [hsize, hpart]
      omega
    rw [hsize, hpart] at h
    refine (Word.gives_div? (by omega)).bind fun quotient hquotient ↦ ?_
    rw [h, hden] at hquotient
    have hlost : (max quotient 1).toInt = backoffDrop p.toInt n.toInt (max d.toInt 1) := by
      rw [Word.toInt_max, hquotient]
      rfl
    have hone : 1 ≤ backoffDrop p.toInt n.toInt (max d.toInt 1) := Int.le_max_right _ _
    refine (Word.gives_ofInt? ?_).bind fun fallen hfallen ↦ ?_
    · rw [hlost, Int32.toInt_toInt64]
      omega
    rw [hlost, Int32.toInt_toInt64] at hfallen
    refine ⟨_, rfl, ?_⟩
    rw [Word.toInt_max, hfallen]
    rfl

theorem exists_backoffWord? (p n d : Int32) :
    ∃ w, backoffWord? p n d = some w ∧ w.toInt32 = backoff p n d := by
  obtain ⟨w, hw, hvalue⟩ := gives_backoffWord? p n d
  refine ⟨w, hw, ?_⟩
  rw [backoff_eq, ← hvalue, Int32.ofInt_int64ToInt]

theorem Settings.fraction_of_check {st : Settings} (h : st.check = .ok ()) :
    0 ≤ st.scheduler.backoffNumerator.toInt ∧
      st.scheduler.backoffNumerator.toInt < st.scheduler.backoffDenominator.toInt := by
  obtain ⟨-, hbad, -⟩ := Settings.check_eq_ok.1 h
  simp only [not_or, Int32.lt_iff_toInt_lt, Int32.le_iff_toInt_le, Int32.toInt_zero] at hbad
  omega

section Fraction

variable {p q n d : Int}

theorem one_le_backoffDrop (p n d : Int) : 1 ≤ backoffDrop p n d := Int.le_max_right _ _

theorem backoffDrop_anti (hn : n < d) (hd : 0 < d) (hpq : p ≤ q) (hq : q ≤ 0) :
    backoffDrop q n d ≤ backoffDrop p n d := by
  have hsize : (q.natAbs : Int) * (d - n) ≤ p.natAbs * (d - n) :=
    Int.mul_le_mul_of_nonneg_right (by omega) (by omega)
  have hquotient := Int.tdiv_le_tdiv hd hsize
  rw [backoffDrop, backoffDrop]
  omega

theorem backoffValue_of_pos (hp : 0 < p) (hn : 0 ≤ n) : backoffValue p n d = p * n / d := by
  rw [backoffValue, if_pos hp, Int.tdiv_eq_ediv_of_nonneg (Int.mul_nonneg (Int.le_of_lt hp) hn)]

theorem backoffValue_of_nonpos (hp : p ≤ 0) :
    backoffValue p n d = max (p - backoffDrop p n d) (-2147483648) :=
  if_neg (Int.not_lt.mpr hp)

theorem backoffValue_nonneg (hp : 0 < p) (hn : 0 ≤ n) (hd : 0 < d) : 0 ≤ backoffValue p n d := by
  rw [backoffValue_of_pos hp hn]
  exact Int.ediv_nonneg (Int.mul_nonneg (Int.le_of_lt hp) hn) (Int.le_of_lt hd)

theorem backoffValue_lt (hn : 0 ≤ n) (hnd : n < d) (hp : -2147483648 < p) : backoffValue p n d < p := by
  by_cases hpos : 0 < p
  · rw [backoffValue_of_pos hpos hn]
    exact Int.ediv_lt_of_lt_mul (by omega) (Int.mul_lt_mul_of_pos_left hnd hpos)
  · have hdrop := one_le_backoffDrop p n d
    rw [backoffValue_of_nonpos (Int.not_lt.mp hpos)]
    omega

theorem backoffValue_least (n d : Int) : backoffValue (-2147483648) n d = -2147483648 := by
  have hdrop := one_le_backoffDrop (-2147483648) n d
  rw [backoffValue_of_nonpos (by decide)]
  omega

theorem backoffValue_mono (hn : 0 ≤ n) (hnd : n < d) (hpq : p ≤ q) :
    backoffValue p n d ≤ backoffValue q n d := by
  have hd : 0 < d := Int.lt_of_le_of_lt hn hnd
  by_cases hp : 0 < p
  · have hq : 0 < q := Int.lt_of_lt_of_le hp hpq
    rw [backoffValue_of_pos hp hn, backoffValue_of_pos hq hn]
    exact Int.ediv_le_ediv hd (Int.mul_le_mul_of_nonneg_right hpq hn)
  · have hdrop := one_le_backoffDrop p n d
    rw [backoffValue_of_nonpos (Int.not_lt.mp hp)]
    by_cases hq : 0 < q
    · have hnonneg := backoffValue_nonneg hq hn hd
      omega
    · have hanti := backoffDrop_anti hnd hd hpq (Int.not_lt.mp hq)
      rw [backoffValue_of_nonpos (Int.not_lt.mp hq)]
      omega

theorem backoffValue_bounds (hn : 0 ≤ n) (hnd : n < d) (hp : -2147483648 ≤ p) :
    -2147483648 ≤ backoffValue p n d ∧ backoffValue p n d ≤ p := by
  have hleast := backoffValue_mono hn hnd hp
  rw [backoffValue_least] at hleast
  refine ⟨hleast, ?_⟩
  rcases Int.lt_or_eq_of_le hp with hlt | rfl
  · exact Int.le_of_lt (backoffValue_lt hn hnd hlt)
  · exact Int.le_of_eq (backoffValue_least n d)

end Fraction

section Backoff

variable {n d : Int32}

theorem toInt_backoff (hn : 0 ≤ n.toInt) (hnd : n.toInt < d.toInt) (p : Int32) :
    (backoff p n d).toInt = backoffValue p.toInt n.toInt d.toInt := by
  have hp := Position.toInt_bounds p
  have hbounds := backoffValue_bounds hn hnd hp.1
  have hd : max d.toInt 1 = d.toInt := by omega
  rw [backoff_eq, hd]
  exact Int32.toInt_ofInt_of_le (by omega) (by omega)

theorem backoff_lt (hn : 0 ≤ n.toInt) (hnd : n.toInt < d.toInt) {p : Int32} (hp : p ≠ Int32.minValue) :
    backoff p n d < p := by
  have hleast : Int32.minValue.toInt = -2147483648 := rfl
  have hne : p.toInt ≠ Int32.minValue.toInt := fun h ↦ hp (Int32.toInt_inj.mp h)
  have hbounds := Position.toInt_bounds p
  rw [Int32.lt_iff_toInt_lt, toInt_backoff hn hnd]
  exact backoffValue_lt hn hnd (by omega)

theorem backoff_least (hn : 0 ≤ n.toInt) (hnd : n.toInt < d.toInt) :
    backoff Int32.minValue n d = Int32.minValue := by
  rw [← Int32.toInt_inj, toInt_backoff hn hnd]
  exact backoffValue_least n.toInt d.toInt

theorem backoff_mono (hn : 0 ≤ n.toInt) (hnd : n.toInt < d.toInt) {p q : Int32} (hpq : p ≤ q) :
    backoff p n d ≤ backoff q n d := by
  rw [Int32.le_iff_toInt_le] at hpq ⊢
  rw [toInt_backoff hn hnd, toInt_backoff hn hnd]
  exact backoffValue_mono hn hnd hpq

theorem exists_iterate_eq_least {f : Int32 → Int32} (hf : ∀ p, p ≠ Int32.minValue → f p < p) (m : Nat) :
    ∀ p : Int32, p.toInt ≤ m + Int32.minValue.toInt → ∃ k ≤ m, f^[k] p = Int32.minValue := by
  induction m with
  | zero =>
    intro p hp
    have hlow := Int32.minValue_le_toInt p
    exact ⟨0, Nat.le_refl 0, Int32.toInt_inj.mp (by simp only [Function.iterate_zero, id]; omega)⟩
  | succ m ih =>
    intro p hp
    by_cases hleast : p = Int32.minValue
    · exact ⟨0, Nat.zero_le _, hleast⟩
    · have hlt := Int32.lt_iff_toInt_lt.mp (hf p hleast)
      obtain ⟨k, hk, hiter⟩ := ih (f p) (by omega)
      exact ⟨k + 1, Nat.succ_le_succ hk, hiter⟩

theorem exists_iterate_backoff_eq_least (hn : 0 ≤ n.toInt) (hnd : n.toInt < d.toInt) (p : Int32) :
    ∃ k ≤ 4294967295, (backoff · n d)^[k] p = Int32.minValue := by
  have hleast : Int32.minValue.toInt = -2147483648 := rfl
  have hbounds := Position.toInt_bounds p
  exact exists_iterate_eq_least (fun _ ↦ backoff_lt hn hnd) 4294967295 p (by omega)

end Backoff

namespace Board

variable {b : Board} {s : PoolId} {t : TaskId} {x : Task} {u : UnitId} {q : Program}

def reassign (s : PoolId) (t : TaskId) (u : UnitId) : Nat → BoardM Unit
  | 0 => return
  | k + 1 => do
    discard (reclaim s t)
    assign s t u
    reassign s t u k

theorem Linked.idle_of_handedBack (h : b.Linked) (hc : b.Carries s t x u q) (priority : Int32) :
    (b.handedBack s t x priority).taskOf? u = none := by
  rw [taskOf?_eq_none_iff]
  intro t' y hy hu
  by_cases he : t' = t
  · subst he
    cases (getElem?_handedBack hc.task priority).symm.trans hy
    cases hu
  · rw [(handedBack_touches b s t x priority).tasks t' he] at hy
    exact he (h.exclusive t' t y x u hy hc.task hu hc.executor)

theorem Linked.exists_reassign_once (h : b.Linked) (hc : b.Carries s t x u q) (k : Nat) :
    ∃ b' x' q', reassign s t u (k + 1) b = reassign s t u k b' ∧ b'.Linked ∧ b'.Carries s t x' u q' ∧
      x'.priority = b.lowered x ∧ b'.scheduler = b.scheduler := by
  obtain ⟨p, hp, hmem⟩ := exists_pool_of_assigned hc.assigned
  have hback := h.reclaim hc.task hp hmem (b.lowered x)
  have hx := getElem?_handedBack (s := s) hc.task (b.lowered x)
  have hidle := h.idle_of_handedBack hc (b.lowered x)
  obtain ⟨p', hp', hwaiting⟩ : ∃ p', (b.handedBack s t x (b.lowered x)).pool? s = some p' ∧
      t ∈ p'.waiting := by
    apply exists_pool_of_waiting
    have hwaits := waits_handedBack (t := t) hp x (b.lowered x) s
    rw [if_pos rfl] at hwaits
    exact List.count_pos_iff.mp (Nat.lt_of_lt_of_eq (Nat.succ_pos _) hwaits.symm)
  have hassigned : t ∈ ((b.handedBack s t x (b.lowered x)).started s t u).assignedIn s := by
    rw [assignedIn_of_pool? (pool?_started hp' t u)]
    simp [Pool.take]
  refine ⟨_, _, _, ?_, hback.assign hx hp' hwaiting hidle rfl,
    ⟨hassigned, getElem?_started hx s u, rfl, rfl, hc.live⟩, rfl, ?_⟩
  · rw [reassign, bind_of_ok (discard_of_ok (reclaim_of_assigned hp hmem hc.task)),
      bind_of_ok (assign_of_free hp' hwaiting hidle hx rfl)]
  · exact ((Frame.handedBack b s t x _).trans (.started _ s t u)).scheduler

theorem Linked.exists_reassign (h : b.Linked) (hc : b.Carries s t x u q) (k : Nat) :
    ∃ b' y, reassign s t u k b = .ok () b' ∧ b'.tasks[t]? = some y ∧
      y.priority =
        (backoff · b.scheduler.backoffNumerator b.scheduler.backoffDenominator)^[k] x.priority := by
  induction k generalizing b x q with
  | zero => exact ⟨b, x, rfl, hc.task, rfl⟩
  | succ k ih =>
    obtain ⟨b₁, x₁, q₁, hrun, h₁, hc₁, hpriority, hscheduler⟩ := h.exists_reassign_once hc k
    obtain ⟨b', y, hrest, hy, hlast⟩ := ih h₁ hc₁
    refine ⟨b', y, hrun.trans hrest, hy, ?_⟩
    rw [hlast, hpriority, hscheduler]
    rfl

theorem Reached.exists_reassign_least (h : Reached b) (hassigned : t ∈ b.assignedIn s) :
    ∃ u k b' y, reassign s t u k b = .ok () b' ∧ b'.tasks[t]? = some y ∧
      y.priority = Int32.minValue := by
  have hlinked := h.sound.toLinked
  obtain ⟨st, hst, hscheduler⟩ := h.exists_settings
  obtain ⟨hn, hnd⟩ := Settings.fraction_of_check hst
  obtain ⟨x, u, q, hc⟩ := hlinked.exists_carries hassigned
  rw [← hscheduler] at hn hnd
  obtain ⟨k, -, hk⟩ := exists_iterate_backoff_eq_least hn hnd x.priority
  obtain ⟨b', y, hrun, hy, hpriority⟩ := hlinked.exists_reassign hc k
  exact ⟨u, k, b', y, hrun, hy, hpriority.trans hk⟩

end Board

/-- Under accepted settings a priority that is handed back is computed exactly, in 64 bits and when it
is brought back to 32. It keeps the whole part of its fraction if it is positive; it falls unless it is
the least one, and does not overtake another one. So tasks that are taken back again and again end at
the least priority. No fraction, be it accepted or not, makes the computation overflow or divide by
zero. -/
theorem backoff_law {st : Settings} (h : st.check = .ok ()) :
    let n := st.scheduler.backoffNumerator
    let d := st.scheduler.backoffDenominator
    (∀ p, ∃ w, backoffWord? p n d = some w ∧ w.toInt = (backoff p n d).toInt) ∧
    (∀ p, 0 < p → (backoff p n d).toInt = p.toInt * n.toInt / d.toInt) ∧
    (∀ p, p ≠ Int32.minValue → backoff p n d < p) ∧
    backoff Int32.minValue n d = Int32.minValue ∧
    (∀ p q, p ≤ q → backoff p n d ≤ backoff q n d) ∧
    (∀ p, ∃ k, (backoff · n d)^[k] p = Int32.minValue) ∧
    (∀ b : Board, b.Reached → ∀ s t, t ∈ b.assignedIn s → ∃ u k b' y,
      Board.reassign s t u k b = .ok () b' ∧ b'.tasks[t]? = some y ∧ y.priority = Int32.minValue) ∧
    ∀ p num den : Int32, ∃ w, backoffWord? p num den = some w ∧ w.toInt32 = backoff p num den := by
  intro n d
  obtain ⟨hn, hnd⟩ : 0 ≤ n.toInt ∧ n.toInt < d.toInt := Settings.fraction_of_check h
  have hd : max d.toInt 1 = d.toInt := by omega
  refine ⟨fun p ↦ ?_, fun p hp ↦ ?_, fun p hp ↦ backoff_lt hn hnd hp, backoff_least hn hnd,
    fun p q hpq ↦ backoff_mono hn hnd hpq, fun p ↦ ?_, fun b hb s t ht ↦ hb.exists_reassign_least ht,
    exists_backoffWord?⟩
  · obtain ⟨w, hw, hvalue⟩ := gives_backoffWord? p n d
    exact ⟨w, hw, by rw [hvalue, hd, toInt_backoff hn hnd]⟩
  · rw [toInt_backoff hn hnd, backoffValue_of_pos (Int32.lt_iff_toInt_lt.mp hp) hn]
  · obtain ⟨k, -, hk⟩ := exists_iterate_backoff_eq_least hn hnd p
    exact ⟨k, hk⟩

/-- Under the default settings, and for a task of `Board.lineup` that is given to unit 1. -/
theorem backoff_law_default :
    ({} : Settings).check = .ok () ∧ backoff 7 3 4 = 5 ∧ backoff (-7) 3 4 < -7 ∧
      backoff (-7) 3 4 ≤ backoff 7 3 4 ∧ (∃ k, (backoff · 3 4)^[k] 7 = Int32.minValue) ∧
      (∃ u k b' y, Board.reassign ⟨0⟩ ⟨0⟩ u k (after (Board.assign ⟨0⟩ ⟨0⟩ ⟨1⟩) Board.lineup) =
          .ok () b' ∧ b'.tasks[(⟨0⟩ : TaskId)]? = some y ∧ y.priority = Int32.minValue) ∧
      ∃ w, backoffWord? Int32.minValue Int32.minValue Int32.maxValue = some w ∧
        w.toInt32 = backoff Int32.minValue Int32.minValue Int32.maxValue := by
  have hdefault : ({} : Settings).check = .ok () := rfl
  obtain ⟨-, hfloor, hlt, -, hmono, hiter, hboard, hword⟩ := backoff_law hdefault
  refine ⟨hdefault, ?_, hlt (-7) (by decide), hmono (-7) 7 (by decide), hiter 7, ?_, hword _ _ _⟩
  · exact Int32.toInt_inj.mp ((hfloor 7 (by decide)).trans (by decide))
  · exact hboard _ (Board.reached_lineup.move (.assign _ ⟨0⟩ ⟨0⟩ ⟨1⟩)) ⟨0⟩ ⟨0⟩ (by decide +kernel)

end Errand
