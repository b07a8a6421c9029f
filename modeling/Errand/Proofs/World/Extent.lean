import Errand.Proofs.World.Journey
import Mathlib.Tactic.Ring

namespace Errand

theorem Settings.check_eq_ok {s : Settings} :
    s.check = .ok () ↔ s.execution.tickBudget ≠ 0 ∧
      ¬ (s.scheduler.backoffDenominator ≤ 0 ∨ s.scheduler.backoffNumerator < 0 ∨
        s.scheduler.backoffDenominator ≤ s.scheduler.backoffNumerator) ∧
      ¬ (s.sandbox.width = 0 ∨ s.sandbox.depth = 0 ∨ s.sandbox.height = 0) := by
  simp only [check, refuse_bind_eq_ok, refuse_eq_ok, ne_eq]

def Position.origin : Position := ⟨0, 0, 0⟩

def SandboxSettings.Roomy (s : SandboxSettings) : Prop :=
  0 < s.width ∧ 0 < s.depth ∧ 0 < s.height

instance (s : SandboxSettings) : Decidable s.Roomy :=
  inferInstanceAs (Decidable (0 < s.width ∧ 0 < s.depth ∧ 0 < s.height))

namespace Grid

variable {g : Grid} {s : SandboxSettings} {p : Position}

/-- What can be done at a cube of a grid that nothing was put into. -/
structure Welcomes (g : Grid) (p : Position) : Prop where
  holds : g.holds p = true
  station : ∀ u f, ∃ g', g.station u f p = .ok g'
  fill : ∃ g', g.fill p = .ok g'
  deposit : ∀ r, ∃ g', g.deposit r p = .ok g'

/-- Whatever is tried at a position fails, because it lies outside. -/
structure Excludes (g : Grid) (p : Position) : Prop where
  holds : g.holds p = false
  station : ∀ u f, g.station u f p = .error (.outside p)
  fill : g.fill p = .error (.outside p)
  deposit : ∀ r, g.deposit r p = .error (.outside p)

theorem welcomes_of_holds (hempty : ∀ u : UnitId, g.units[u]? = none) (hp : g.holds p = true) :
    g.Welcomes p where
  holds := hp
  station u _ := ⟨_, station_eq_ok.2 ⟨hp, hempty u, rfl⟩⟩
  fill := ⟨_, fill_eq_ok.2 ⟨hp, rfl⟩⟩
  deposit _ := ⟨_, deposit_eq_ok.2 ⟨hp, rfl⟩⟩

theorem excludes_of_not_holds (hp : g.holds p = false) : g.Excludes p := by
  have hcube : g.requireCube p = .error (.outside p) := by simp [requireCube, hp]
  refine ⟨hp, fun u f ↦ ?_, ?_, fun r ↦ ?_⟩
  · simp only [station, hcube, bind, Except.bind]
  · simp only [fill, hcube, bind, Except.bind]
  · simp only [deposit, hcube, bind, Except.bind]

theorem holds_origin (h : s.Roomy) : (ofSettings s).holds .origin = true := by
  simp only [holds, Position.origin, ofSettings, Int32.le_refl, h.1, h.2.1, h.2.2, decide_true,
    Bool.and_self]

theorem roomy_of_holds (h : (ofSettings s).holds p = true) : s.Roomy := by
  obtain ⟨hx, hy, hz⟩ := holds_iff.1 h
  simp only [SandboxSettings.Roomy, Int32.lt_iff_toInt_lt, Int32.toInt_zero]
  exact ⟨hx.1.trans_lt hx.2, hy.1.trans_lt hy.2, hz.1.trans_lt hz.2⟩

/-- No extent of accepted settings is zero. If all are positive then the new grid has a first cube,
and it can be furnished there; if not, then the grid has no cube. -/
theorem cubes_of_check {st : Settings} (h : st.check = .ok ()) :
    (st.sandbox.width ≠ 0 ∧ st.sandbox.depth ≠ 0 ∧ st.sandbox.height ≠ 0) ∧
    (st.sandbox.Roomy → (ofSettings st.sandbox).Welcomes .origin) ∧
    (¬ st.sandbox.Roomy → ∀ p, (ofSettings st.sandbox).Excludes p) := by
  obtain ⟨-, -, hextents⟩ := Settings.check_eq_ok.1 h
  refine ⟨by simpa only [not_or] using hextents, fun hroomy ↦ ?_, fun hroomy p ↦ ?_⟩
  · exact welcomes_of_holds (fun u ↦ by simp [ofSettings]) (holds_origin hroomy)
  · exact excludes_of_not_holds (Bool.eq_false_iff.2 fun hp ↦ hroomy (roomy_of_holds hp))

/-- A grid of the default size can be furnished, and one of negative width cannot, though its settings
are accepted too. -/
theorem cubes_of_check_default :
    ({} : Settings).check = .ok () ∧ (ofSettings {}).Welcomes .origin ∧
      ({ sandbox := { width := -3 } } : Settings).check = .ok () ∧
      (ofSettings { width := -3 }).Excludes ⟨-1, 0, 0⟩ := by
  have hdefault : ({} : Settings).check = .ok () := rfl
  have hnegative : ({ sandbox := { width := -3 } } : Settings).check = .ok () := rfl
  obtain ⟨-, hwelcomes, -⟩ := cubes_of_check hdefault
  obtain ⟨-, -, hexcludes⟩ := cubes_of_check hnegative
  exact ⟨hdefault, hwelcomes (by decide), hnegative, hexcludes (by decide) ⟨-1, 0, 0⟩⟩

/-- Settings with a negative width are accepted, and their grid has no first cube. -/
theorem check_accepts_negative_width :
    let st : Settings := { sandbox := { width := -1 } }
    let g := ofSettings st.sandbox
    st.check = .ok () ∧ ¬ 0 < st.sandbox.width ∧ g.holds .origin = false ∧
      g.station ⟨1⟩ ⟨0⟩ .origin = .error (.outside .origin) ∧
      g.fill .origin = .error (.outside .origin) ∧
      g.deposit .log .origin = .error (.outside .origin) := by
  exact ⟨rfl, by decide, rfl, rfl, rfl, rfl⟩

end Grid

namespace Position

/-- The square of the distance between two cubes, as an integer of any size. -/
def euclideanSq (p q : Position) : Int :=
  (p.x.toInt - q.x.toInt) ^ 2 + (p.y.toInt - q.y.toInt) ^ 2 + (p.z.toInt - q.z.toInt) ^ 2

theorem euclideanSq_eq (p q : Position) : p.euclideanSq q = p.exactDistanceSq q := by
  simp only [euclideanSq, exactDistanceSq, gap, Nat.cast_add, Nat.cast_mul, Int.natAbs_mul_self', sq]

theorem distanceSq_lt_iff {a b c : Position} :
    a.distanceSq b < a.distanceSq c ↔
      a.euclideanSq b < a.euclideanSq c ∧ a.euclideanSq b < maxDistanceSq := by
  simp only [euclideanSq_eq, distanceSq]
  omega

theorem exists_coordinates {x y z : Nat} (hx : x ≤ 2147483646) (hy : y ≤ 2147483646)
    (hz : z ≤ 2147483646) :
    ∃ p : Position, p.x.toInt = x ∧ p.y.toInt = y ∧ p.z.toInt = z := by
  have hcoordinate : ∀ n : Nat, n ≤ 2147483646 → ∃ a : Int32, a.toInt = n := by
    intro n hn
    have hmin : Int32.minValue.toInt = -2147483648 := rfl
    have hmax : Int32.maxValue.toInt = 2147483647 := rfl
    exact ⟨Int32.ofIntLE n (by omega) (by omega), Int32.toInt_ofIntLE⟩
  obtain ⟨a, ha⟩ := hcoordinate x hx
  obtain ⟨b, hb⟩ := hcoordinate y hy
  obtain ⟨c, hc⟩ := hcoordinate z hz
  exact ⟨⟨a, b, c⟩, ha, hb, hc⟩

end Position

def reach (extent : Int32) : Nat := (extent.toInt - 1).toNat

namespace SandboxSettings

/-- The square of the distance between opposite corners of the grid. -/
def diagonalSq (s : SandboxSettings) : Nat :=
  reach s.width * reach s.width + reach s.depth * reach s.depth + reach s.height * reach s.height

def narrowest (s : SandboxSettings) : Nat := min (reach s.width) (min (reach s.depth) (reach s.height))

end SandboxSettings

theorem reach_le (n : Int32) : reach n ≤ 2147483646 := by
  have hn := Position.toInt_bounds n
  rw [reach]
  omega

theorem mul_self_pred_add {n : Nat} (h : 0 < n) : (n - 1) * (n - 1) + (2 * n - 1) = n * n := by
  obtain ⟨m, rfl⟩ : ∃ m, n = m + 1 := ⟨n - 1, by omega⟩
  have hsquare : (m + 1) * (m + 1) = m * m + 2 * m + 1 := by ring
  rw [Nat.add_sub_cancel, hsquare]
  omega

theorem mul_self_add_le {i n : Nat} (h : i < n) : i * i + (2 * n - 1) ≤ n * n := by
  have hle : i * i ≤ (n - 1) * (n - 1) := Nat.mul_self_le_mul_self (by omega)
  have hstep := mul_self_pred_add (Nat.zero_lt_of_lt h)
  omega

namespace Grid

variable {s : SandboxSettings} {a b c : Position}

theorem gaps_le_reach (ha : (ofSettings s).holds a = true) (hb : (ofSettings s).holds b = true) :
    Position.gap a.x b.x ≤ reach s.width ∧ Position.gap a.y b.y ≤ reach s.depth ∧
      Position.gap a.z b.z ≤ reach s.height := by
  have ha := holds_iff.1 ha
  have hb := holds_iff.1 hb
  simp only [ofSettings] at ha hb
  simp only [Position.gap, reach]
  omega

theorem exactDistanceSq_le_diagonalSq (ha : (ofSettings s).holds a = true)
    (hb : (ofSettings s).holds b = true) : a.exactDistanceSq b ≤ s.diagonalSq := by
  obtain ⟨hx, hy, hz⟩ := gaps_le_reach ha hb
  exact Nat.add_le_add (Nat.add_le_add (Nat.mul_self_le_mul_self hx) (Nat.mul_self_le_mul_self hy))
    (Nat.mul_self_le_mul_self hz)

theorem exactDistanceSq_add_le (ha : (ofSettings s).holds a = true) (hb : (ofSettings s).holds b = true)
    (h : a.exactDistanceSq b < s.diagonalSq) :
    a.exactDistanceSq b + (2 * s.narrowest - 1) ≤ s.diagonalSq := by
  obtain ⟨hx, hy, hz⟩ := gaps_le_reach ha hb
  have hxx := Nat.mul_self_le_mul_self hx
  have hyy := Nat.mul_self_le_mul_self hy
  have hzz := Nat.mul_self_le_mul_self hz
  have hshort : Position.gap a.x b.x < reach s.width ∨ Position.gap a.y b.y < reach s.depth ∨
      Position.gap a.z b.z < reach s.height := by
    by_contra hfar
    simp only [not_or, Nat.not_lt] at hfar
    rw [Position.exactDistanceSq, hx.antisymm hfar.1, hy.antisymm hfar.2.1, hz.antisymm hfar.2.2] at h
    exact Nat.lt_irrefl _ h
  rw [Position.exactDistanceSq, SandboxSettings.diagonalSq, SandboxSettings.narrowest]
  rcases hshort with hshort | hshort | hshort
  · have hstep := mul_self_add_le hshort
    omega
  · have hstep := mul_self_add_le hshort
    omega
  · have hstep := mul_self_add_le hshort
    omega

/-- The grid compares the distances of its cubes as they are. -/
def ComparesExactly (g : Grid) : Prop :=
  ∀ a b c : Position, g.holds a = true → g.holds b = true → g.holds c = true →
    (a.distanceSq b < a.distanceSq c ↔ a.euclideanSq b < a.euclideanSq c)

theorem comparesExactly_of_diagonalSq
    (h : s.diagonalSq < Position.maxDistanceSq + (2 * s.narrowest - 1)) :
    (ofSettings s).ComparesExactly := by
  intro a b c ha hb hc
  rw [Position.distanceSq_lt_iff, and_iff_left_iff_imp]
  intro hlt
  rw [Position.euclideanSq_eq, Position.euclideanSq_eq, Nat.cast_lt] at hlt
  have hstep := exactDistanceSq_add_le ha hb (hlt.trans_le (exactDistanceSq_le_diagonalSq ha hc))
  rw [Position.euclideanSq_eq, Nat.cast_lt]
  omega

theorem exists_cube {x y z : Nat} (hroomy : 0 < s.narrowest) (hx : x ≤ reach s.width)
    (hy : y ≤ reach s.depth) (hz : z ≤ reach s.height) :
    ∃ p, (ofSettings s).holds p = true ∧
      Position.origin.euclideanSq p = (x * x + y * y + z * z : Nat) := by
  have hpositive : 0 < reach s.width ∧ 0 < reach s.depth ∧ 0 < reach s.height := by
    rw [SandboxSettings.narrowest] at hroomy
    omega
  obtain ⟨p, hpx, hpy, hpz⟩ := Position.exists_coordinates (hx.trans (reach_le _))
    (hy.trans (reach_le _)) (hz.trans (reach_le _))
  refine ⟨p, holds_iff.2 ?_, ?_⟩
  · simp only [reach] at hpositive hx hy hz
    simp only [ofSettings]
    omega
  · simp only [Position.euclideanSq, Position.origin, Int32.toInt_zero, hpx, hpy, hpz]
    push_cast
    ring

theorem not_comparesExactly {x y z : Nat} (hroomy : 0 < s.narrowest) (hx : x ≤ reach s.width)
    (hy : y ≤ reach s.depth) (hz : z ≤ reach s.height)
    (hfar : Position.maxDistanceSq ≤ x * x + y * y + z * z)
    (hlt : x * x + y * y + z * z < s.diagonalSq) : ¬ (ofSettings s).ComparesExactly := by
  intro hexact
  obtain ⟨p, hp, hop⟩ := exists_cube hroomy hx hy hz
  obtain ⟨q, hq, hoq⟩ := exists_cube hroomy le_rfl le_rfl le_rfl
  have hcloser : Position.origin.euclideanSq p < Position.origin.euclideanSq q := by
    rw [hop, hoq, Nat.cast_lt]
    exact hlt
  have hbelow := (hexact .origin p q (holds_origin (roomy_of_holds hp)) hp hq).2 hcloser
  rw [Position.distanceSq_lt_iff, hop, Nat.cast_lt] at hbelow
  exact hbelow.2.not_ge hfar

theorem narrowest_pos (h : Position.maxDistanceSq ≤ s.diagonalSq) : 0 < s.narrowest := by
  have hx := Nat.mul_self_le_mul_self (reach_le s.width)
  have hy := Nat.mul_self_le_mul_self (reach_le s.depth)
  have hz := Nat.mul_self_le_mul_self (reach_le s.height)
  rw [SandboxSettings.diagonalSq, Position.maxDistanceSq] at h
  by_contra hnarrow
  have hzero : reach s.width = 0 ∨ reach s.depth = 0 ∨ reach s.height = 0 := by
    rw [SandboxSettings.narrowest] at hnarrow
    omega
  rcases hzero with hzero | hzero | hzero <;> rw [hzero] at h <;> omega

theorem diagonalSq_lt_of_comparesExactly (hexact : (ofSettings s).ComparesExactly) :
    s.diagonalSq < Position.maxDistanceSq + (2 * s.narrowest - 1) := by
  by_contra hfar
  have hroomy : 0 < s.narrowest := narrowest_pos (by omega)
  -- From the far corner one step back along the narrowest axis, which still is above the bound.
  have hleast : s.narrowest = reach s.width ∨ s.narrowest = reach s.depth ∨
      s.narrowest = reach s.height := by
    rw [SandboxSettings.narrowest]
    omega
  have hdiagonal : s.diagonalSq = reach s.width * reach s.width + reach s.depth * reach s.depth +
      reach s.height * reach s.height := rfl
  rcases hleast with hleast | hleast | hleast
  · have hstep := mul_self_pred_add (n := reach s.width) (by omega)
    exact not_comparesExactly hroomy (Nat.sub_le _ 1) le_rfl le_rfl (by omega) (by omega) hexact
  · have hstep := mul_self_pred_add (n := reach s.depth) (by omega)
    exact not_comparesExactly hroomy le_rfl (Nat.sub_le _ 1) le_rfl (by omega) (by omega) hexact
  · have hstep := mul_self_pred_add (n := reach s.height) (by omega)
    exact not_comparesExactly hroomy le_rfl le_rfl (Nat.sub_le _ 1) (by omega) (by omega) hexact

/-- Of two distances from a cube, one compares as less if and only if it is less and below the bound.
So the cubes of a grid compare as they should unless there is another distance, next to that between
opposite corners, that reaches the bound. -/
theorem distance_order (s : SandboxSettings) :
    (∀ a b c : Position, a.distanceSq b < a.distanceSq c ↔
      a.euclideanSq b < a.euclideanSq c ∧ a.euclideanSq b < Position.maxDistanceSq) ∧
    ((ofSettings s).ComparesExactly ↔
      s.diagonalSq < Position.maxDistanceSq + (2 * s.narrowest - 1)) :=
  ⟨fun _ _ _ ↦ Position.distanceSq_lt_iff,
    diagonalSq_lt_of_comparesExactly, comparesExactly_of_diagonalSq⟩

theorem distance_order_default : (ofSettings {}).ComparesExactly :=
  (distance_order {}).2.2 (by decide)

/-- In the largest grid, `b` is closer to `a` than `c` is, and looks as far. -/
theorem distance_order_cut_off :
    let st : Settings :=
      { sandbox := { width := 2147483647, depth := 2147483647, height := 2147483647 } }
    let g := ofSettings st.sandbox
    let a : Position := .origin
    let b : Position := ⟨2147483646, 2147483645, 2147483645⟩
    let c : Position := ⟨2147483645, 2147483646, 2147483646⟩
    st.check = .ok () ∧ g.holds a = true ∧ g.holds b = true ∧ g.holds c = true ∧
      a.euclideanSq b < a.euclideanSq c ∧ ¬ a.distanceSq b < a.distanceSq c := by
  decide +kernel

end Grid

end Errand
