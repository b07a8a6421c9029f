import Errand.Proofs.World.Bearing
import Errand.World.Grid

namespace Errand

namespace Position

variable {p q : Position} {ps qs : List Position} {P : Position → Prop}

theorem compare_eq_lt :
    compare p q = .lt ↔ p.x.toInt < q.x.toInt ∨ p.x.toInt = q.x.toInt ∧
      (p.y.toInt < q.y.toInt ∨ p.y.toInt = q.y.toInt ∧ p.z.toInt < q.z.toInt) := by
  change compareLex (compareOn x) (compareLex (compareOn y) (compareOn z)) p q = .lt ↔ _
  simp only [compareLex, compareOn, Ordering.then_eq_lt, Std.compare_eq_lt,
    Std.LawfulEqOrd.compare_eq_iff_eq, Int32.lt_iff_toInt_lt, ← Int32.toInt_inj]

theorem gap_comm (a b : Int32) : gap a b = gap b a := by
  rw [gap, gap]
  omega

theorem adjacent_comm (p q : Position) : p.adjacent q = q.adjacent p := by
  rw [Bool.eq_iff_iff, adjacent_iff, adjacent_iff, ne_comm, gap_comm p.x, gap_comm p.y, gap_comm p.z]

/-- The positions with a property, in increasing order. -/
structure Lists (ps : List Position) (P : Position → Prop) : Prop where
  increasing : ps.Pairwise (compare · · = .lt)
  mem_iff : ∀ q, q ∈ ps ↔ P q

namespace Lists

theorem nodup (h : Lists ps P) : ps.Nodup :=
  h.increasing.imp fun hlt heq ↦ by
    subst heq
    simp at hlt

theorem unique (h : Lists ps P) (h' : Lists qs P) : ps = qs := by
  have hperm : ps.Perm qs := by
    rw [List.perm_ext_iff_of_nodup h.nodup h'.nodup]
    exact fun q ↦ (h.mem_iff q).trans (h'.mem_iff q).symm
  refine hperm.eq_of_pairwise (fun a b _ _ hab hba ↦ ?_) h.increasing h'.increasing
  exact absurd hba (Std.OrientedCmp.not_lt_of_lt hab)

theorem filter (h : Lists ps P) (f : Position → Bool) :
    Lists (ps.filter f) fun q ↦ f q = true ∧ P q where
  increasing := h.increasing.filter f
  mem_iff q := by rw [List.mem_filter, h.mem_iff, and_comm]

end Lists

theorem increasing_around (p : Position) : p.around.Pairwise (compare · · = .lt) := by
  -- Along each axis the offsets go up, and so do the coordinates that they lead to.
  have hunits : ([-1, 0, 1] : List Int).Pairwise (· < ·) := by decide
  rw [around, List.pairwise_flatMap]
  refine ⟨fun dx _ ↦ ?_, hunits.imp fun hdx q hq r hr ↦ ?_⟩
  · rw [List.pairwise_flatMap]
    refine ⟨fun dy _ ↦ ?_, hunits.imp fun hdy q hq r hr ↦ ?_⟩
    · rw [List.pairwise_filterMap]
      refine hunits.imp fun hdz q hq r hr ↦ ?_
      simp only [Option.ite_none_left_eq_some, shift?_eq_some] at hq hr
      rw [compare_eq_lt]
      omega
    · simp only [List.mem_filterMap, Option.ite_none_left_eq_some, shift?_eq_some] at hq hr
      obtain ⟨_, -, -, hq⟩ := hq
      obtain ⟨_, -, -, hr⟩ := hr
      rw [compare_eq_lt]
      omega
  · simp only [List.mem_flatMap, List.mem_filterMap, Option.ite_none_left_eq_some,
      shift?_eq_some] at hq hr
    obtain ⟨_, -, _, -, -, hq⟩ := hq
    obtain ⟨_, -, _, -, -, hr⟩ := hr
    rw [compare_eq_lt]
    omega

theorem lists_around (p : Position) : Lists p.around (p.adjacent · = true) :=
  ⟨increasing_around p, fun _ ↦ mem_around⟩

example : (around ⟨Int32.maxValue, Int32.minValue, 0⟩).length = 2 * 2 * 3 - 1 := by decide

end Position

namespace Grid

open Position

/-- The cubes around a cube are those adjacent to it, in increasing order and so without repetition,
and adjacency goes both ways. A grid lists those of them that it holds, be the cube in the middle one
of its own or not. -/
theorem neighbors_adjacent :
    (∀ p q : Position, q ∈ p.around ↔ p.adjacent q = true) ∧
    (∀ p : Position, p.around.Pairwise (compare · · = .lt) ∧ p.around.Nodup) ∧
    (∀ p q : Position, p.adjacent q = q.adjacent p) ∧
    ∀ (g : Grid) (p : Position) (ps : List Position),
      World.neighbors g p = ps ↔ Lists ps fun q ↦ g.holds q = true ∧ p.adjacent q = true := by
  refine ⟨fun p q ↦ mem_around, fun p ↦ ⟨increasing_around p, (lists_around p).nodup⟩,
    adjacent_comm, fun g p ps ↦ ?_⟩
  have hlists : Lists (World.neighbors g p) fun q ↦ g.holds q = true ∧ p.adjacent q = true :=
    (lists_around p).filter g.holds
  constructor
  · rintro rfl
    exact hlists
  · exact hlists.unique

end Grid

end Errand
