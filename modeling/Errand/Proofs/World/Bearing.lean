import Errand.Nearest
import Errand.Position
import Mathlib.Order.Nat
import Mathlib.Tactic.Common

namespace Errand

section Nearest

variable {α : Type} [Ord α] {rank : α → Nat} {a : α} {as : List α}

theorem nearest?_eq_none (h : nearest? rank as = none) : as = [] := by
  cases as with
  | nil => rfl
  | cons c as =>
    rw [nearest?] at h
    split at h
    · cases h
    · split at h <;> cases h

theorem rank_le_of_precedes {b : α} (h : precedes rank a b = true) : rank a ≤ rank b := by
  simp only [precedes, Bool.or_eq_true, decide_eq_true_eq, Bool.and_eq_true, beq_iff_eq] at h
  omega

theorem rank_le_of_not_precedes {b : α} (h : ¬ precedes rank a b = true) : rank b ≤ rank a := by
  simp only [precedes, Bool.or_eq_true, decide_eq_true_eq, not_or] at h
  omega

theorem nearest?_least {β : Type} [Preorder β] (key : α → β)
    (hle : ∀ a b, precedes rank a b = true → key a ≤ key b)
    (hge : ∀ a b, ¬ precedes rank a b = true → key b ≤ key a) (h : nearest? rank as = some a) :
    a ∈ as ∧ ∀ c ∈ as, key a ≤ key c := by
  induction as generalizing a with
  | nil => cases h
  | cons c as ih =>
    rw [nearest?] at h
    cases hrest : nearest? rank as with
    | none =>
      rw [hrest] at h
      cases h
      simp [nearest?_eq_none hrest]
    | some d =>
      obtain ⟨hmem, hleast⟩ := ih hrest
      rw [hrest] at h
      change (if precedes rank d c = true then some d else some c) = some a at h
      by_cases hd : precedes rank d c = true
      · rw [if_pos hd, Option.some.injEq] at h
        subst h
        exact ⟨List.mem_cons_of_mem c hmem, List.forall_mem_cons.2 ⟨hle d c hd, hleast⟩⟩
      · rw [if_neg hd, Option.some.injEq] at h
        subst h
        refine ⟨List.mem_cons_self, List.forall_mem_cons.2 ⟨le_refl _, fun e he ↦ ?_⟩⟩
        exact le_trans (hge d c hd) (hleast e he)

theorem nearest?_spec (h : nearest? rank as = some a) : a ∈ as ∧ ∀ c ∈ as, rank a ≤ rank c :=
  nearest?_least rank (fun _ _ ↦ rank_le_of_precedes) (fun _ _ ↦ rank_le_of_not_precedes) h

theorem nearest?_eq_of_forall_lt (ha : a ∈ as) (h : ∀ c ∈ as, c ≠ a → rank a < rank c) :
    nearest? rank as = some a := by
  cases hfound : nearest? rank as with
  | none => simp [nearest?_eq_none hfound] at ha
  | some c =>
    obtain ⟨hmem, hle⟩ := nearest?_spec hfound
    have hca : c = a := by
      by_contra hne
      exact absurd (hle a ha) (Nat.not_le.2 (h c hmem hne))
    rw [hca]

end Nearest

namespace Position

section Axis

theorem toInt_bounds (a : Int32) : -2147483648 ≤ a.toInt ∧ a.toInt ≤ 2147483647 :=
  ⟨Int32.minValue_le_toInt a, Int32.toInt_le a⟩

theorem toInt_approach (a b : Int32) :
    (approach a b).toInt =
      if a.toInt < b.toInt then a.toInt + 1 else if b.toInt < a.toInt then a.toInt - 1 else a.toInt := by
  have ha := toInt_bounds a
  have hb := toInt_bounds b
  simp only [approach, Int32.lt_iff_toInt_lt]
  split
  · rw [Int32.toInt_add, Int32.toInt_one]
    rw [Int.bmod_eq_of_le (by omega) (by omega)]
  · split
    · rw [Int32.toInt_sub, Int32.toInt_one]
      rw [Int.bmod_eq_of_le (by omega) (by omega)]
    · rfl

theorem gap_self (a : Int32) : gap a a = 0 := by
  simp [gap]

theorem gap_eq_zero {a b : Int32} : gap a b = 0 ↔ a = b := by
  rw [gap, ← Int32.toInt_inj]
  omega

theorem gap_approach (a b : Int32) : gap (approach a b) b = gap a b - 1 := by
  rw [gap, gap, toInt_approach]
  split
  · omega
  · split <;> omega

theorem gap_approach_le_one (a b : Int32) : gap a (approach a b) ≤ 1 := by
  rw [gap, toInt_approach]
  split
  · omega
  · split <;> omega

theorem gap_approach_lt {a b c : Int32} (h : gap a c ≤ 1) (hne : c ≠ approach a b) :
    gap (approach a b) b < gap c b := by
  have hne : c.toInt ≠ (approach a b).toInt := fun heq ↦ hne (Int32.toInt_inj.1 heq)
  rw [gap_approach]
  rw [toInt_approach] at hne
  simp only [gap] at h ⊢
  split at hne
  · omega
  · split at hne <;> omega

theorem gap_approach_le {a c : Int32} (h : gap a c ≤ 1) (b : Int32) :
    gap (approach a b) b ≤ gap c b := by
  by_cases hc : c = approach a b
  · exact Nat.le_of_eq (by rw [hc])
  · exact Nat.le_of_lt (gap_approach_lt h hc)

end Axis

/-- The number of steps, straight or diagonal, from one cube to another. -/
def chebyshev (p q : Position) : Nat := max (gap p.x q.x) (max (gap p.y q.y) (gap p.z q.z))

variable {p q c : Position}

theorem ext_gap (hx : gap p.x q.x = 0) (hy : gap p.y q.y = 0) (hz : gap p.z q.z = 0) : p = q := by
  cases p
  cases q
  simp_all [gap_eq_zero]

theorem chebyshev_eq_zero : chebyshev p q = 0 ↔ p = q := by
  refine ⟨fun h ↦ ?_, fun h ↦ by simp [h, chebyshev, gap_self]⟩
  rw [chebyshev] at h
  exact ext_gap (by omega) (by omega) (by omega)

theorem chebyshev_towards (p q : Position) : chebyshev (p.towards q) q = chebyshev p q - 1 := by
  simp only [chebyshev, towards, gap_approach]
  omega

theorem towards_self (p : Position) : p.towards p = p :=
  chebyshev_eq_zero.1 (by rw [chebyshev_towards, chebyshev_eq_zero.2 rfl])

theorem int32?_eq_some {n : Int} {a : Int32} : int32? n = some a ↔ a.toInt = n :=
  ⟨toInt_of_int32?, fun h ↦ h ▸ int32?_toInt a⟩

theorem shift?_eq_some {dx dy dz : Int} :
    p.shift? dx dy dz = some c ↔
      c.x.toInt = p.x.toInt + dx ∧ c.y.toInt = p.y.toInt + dy ∧ c.z.toInt = p.z.toInt + dz := by
  obtain ⟨x, y, z⟩ := c
  simp only [shift?, Option.bind_eq_bind, Option.pure_def, Option.bind_eq_some_iff,
    Option.some.injEq, Position.mk.injEq, int32?_eq_some]
  constructor
  · rintro ⟨x', hx, y', hy, z', hz, rfl, rfl, rfl⟩
    exact ⟨hx, hy, hz⟩
  · rintro ⟨hx, hy, hz⟩
    exact ⟨x, hx, y, hy, z, hz, rfl, rfl, rfl⟩

theorem adjacent_iff :
    p.adjacent c = true ↔ p ≠ c ∧ gap p.x c.x ≤ 1 ∧ gap p.y c.y ≤ 1 ∧ gap p.z c.z ≤ 1 := by
  simp [adjacent, and_assoc]

theorem mem_around : c ∈ p.around ↔ p.adjacent c = true := by
  have hne : p ≠ c ↔ ¬ (p.x.toInt = c.x.toInt ∧ p.y.toInt = c.y.toInt ∧ p.z.toInt = c.z.toInt) := by
    obtain ⟨x, y, z⟩ := c
    cases p
    simp [Int32.toInt_inj]
  have hunit : ∀ d : Int, d ∈ [-1, 0, 1] ↔ d.natAbs ≤ 1 := by
    intro d
    simp only [List.mem_cons, List.not_mem_nil, or_false]
    omega
  simp only [around, List.mem_flatMap, List.mem_filterMap, Option.ite_none_left_eq_some,
    shift?_eq_some, hunit, adjacent_iff, hne, gap]
  constructor
  · rintro ⟨dx, hdx, dy, hdy, dz, hdz, hmoved, hx, hy, hz⟩
    omega
  · rintro ⟨hmoved, hx, hy, hz⟩
    exact ⟨c.x.toInt - p.x.toInt, by omega, c.y.toInt - p.y.toInt, by omega,
      c.z.toInt - p.z.toInt, by omega, by omega, by omega, by omega, by omega⟩

theorem ne_towards (h : p ≠ q) : p ≠ p.towards q := by
  intro heq
  have hsame := chebyshev_towards p q
  rw [← heq] at hsame
  have hpos : chebyshev p q ≠ 0 := fun hzero ↦ h (chebyshev_eq_zero.1 hzero)
  omega

theorem towards_mem_around (h : p ≠ q) : p.towards q ∈ p.around := by
  rw [mem_around, adjacent_iff]
  exact ⟨ne_towards h, gap_approach_le_one _ _, gap_approach_le_one _ _, gap_approach_le_one _ _⟩

/-- No other cube within one step of `p` is as close to `q` as `p.towards q`. -/
theorem exactDistanceSq_towards_lt
    (hnear : gap p.x c.x ≤ 1 ∧ gap p.y c.y ≤ 1 ∧ gap p.z c.z ≤ 1) (hne : c ≠ p.towards q) :
    exactDistanceSq (p.towards q) q < exactDistanceSq c q := by
  obtain ⟨hx, hy, hz⟩ := hnear
  have sqx := Nat.mul_self_le_mul_self (gap_approach_le hx q.x)
  have sqy := Nat.mul_self_le_mul_self (gap_approach_le hy q.y)
  have sqz := Nat.mul_self_le_mul_self (gap_approach_le hz q.z)
  have hdiff : c.x ≠ approach p.x q.x ∨ c.y ≠ approach p.y q.y ∨ c.z ≠ approach p.z q.z := by
    by_contra hsame
    push Not at hsame
    obtain ⟨h₁, h₂, h₃⟩ := hsame
    exact hne (by cases c; simp_all [towards])
  simp only [exactDistanceSq, towards]
  rcases hdiff with hd | hd | hd
  · have := Nat.mul_self_lt_mul_self (gap_approach_lt hx hd)
    omega
  · have := Nat.mul_self_lt_mul_self (gap_approach_lt hy hd)
    omega
  · have := Nat.mul_self_lt_mul_self (gap_approach_lt hz hd)
    omega

theorem exactDistanceSq_towards_lt_self (h : p ≠ q) :
    exactDistanceSq (p.towards q) q < exactDistanceSq p q :=
  exactDistanceSq_towards_lt (by simp [gap_self]) (ne_towards h)

end Position

end Errand
