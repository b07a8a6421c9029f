import Errand.Proofs.World.Turn

namespace Errand

/-- What a step may make of a unit. -/
def Body.Becomes (g : Grid) (b b' : Body) : Prop :=
  b'.faction = b.faction ∧ (b'.position = b.position ∨ g.holds b'.position = true)

namespace Grid

/-- The grid keeps its extent, its units and their factions, and a unit that moves stays inside. -/
structure Evolves (g g' : Grid) : Prop where
  holds : ∀ p, g'.holds p = g.holds p
  units : ∀ v : UnitId, Option.Rel (Body.Becomes g) g.units[v]? g'.units[v]?

variable {g g' g'' : Grid} {u : UnitId} {b b' : Body} {e : Effect}

theorem Evolves.of_units (hholds : ∀ p, g'.holds p = g.holds p)
    (hunits : ∀ v : UnitId, g'.units[v]? = g.units[v]?) : Evolves g g' := by
  refine ⟨hholds, fun v ↦ ?_⟩
  rw [hunits v]
  cases g.units[v]? with
  | none => exact .none
  | some b => exact .some ⟨rfl, .inl rfl⟩

theorem Evolves.refl (g : Grid) : Evolves g g :=
  .of_units (fun _ ↦ rfl) fun _ ↦ rfl

theorem Evolves.trans (h : Evolves g g') (h' : Evolves g' g'') : Evolves g g'' := by
  refine ⟨fun p ↦ (h'.holds p).trans (h.holds p), fun v ↦ ?_⟩
  have h₁ := h.units v
  have h₂ := h'.units v
  generalize g.units[v]? = x at h₁
  generalize g'.units[v]? = y at h₁ h₂
  generalize g''.units[v]? = z at h₂
  cases h₁ with
  | none => cases h₂; exact .none
  | some hb =>
    cases h₂ with
    | some hc =>
      refine .some ⟨hc.1.trans hb.1, ?_⟩
      rcases hc.2 with hpos | hin
      · rw [hpos]
        exact hb.2
      · exact .inr ((h.holds _).symm.trans hin)

theorem holds_of_nextCube? {here goal p : Position} (h : g.nextCube? here goal = some p) :
    g.holds p = true := by
  have hmem := (nearest?_spec h).1
  simp only [List.mem_filter, isPassable, Bool.and_eq_true] at hmem
  exact hmem.2.1.1

theorem becomes_struck (g : Grid) (b : Body) : b.Becomes g b.struck :=
  ⟨by rw [b.weathers_struck.rest], .inl b.position_struck⟩

theorem Deed.becomes (h : g.Deed u b b' e) : b.Becomes g b' := by
  have hblow : ∀ v : UnitId, b.Becomes g (if v = u then b.struck else b) := by
    intro v
    split
    · exact becomes_struck g b
    · exact ⟨rfl, .inl rfl⟩
  cases h with
  | advance _ _ hnext => exact ⟨rfl, .inr (holds_of_nextCube? hnext)⟩
  | arrive _ _ hnext => exact ⟨rfl, .inr (holds_of_nextCube? hnext)⟩
  | hit => exact hblow _
  | fell => exact hblow _
  | _ => exact ⟨rfl, .inl rfl⟩

theorem Leaves.evolves (h : g.Leaves u b' e g') (hb : g.units[u]? = some b)
    (hbecomes : b.Becomes g b') : Evolves g g' := by
  refine ⟨h.holds, fun v ↦ ?_⟩
  by_cases hv : v = u
  · rw [hv, hb, h.own]
    exact .some hbecomes
  · rw [h.others v hv]
    split
    · cases g.units[v]? with
      | none => exact .none
      | some c => exact .some (becomes_struck g c)
    · exact (Evolves.refl g).units v

theorem evolves_act (g : Grid) (u : UnitId) : Evolves g (g.act u) := by
  rcases act_eq_or_turned g u with hsame | ⟨b, hb, -, b', e, hdeed, hleaves⟩
  · rw [hsame]
    exact .refl g
  · exact hleaves.evolves hb hdeed.becomes

theorem evolves_step (g : Grid) : Evolves g g.step :=
  step_induction (P := Evolves g) (fun m u h ↦ h.trans (evolves_act m u))
    (.of_units (fun _ ↦ rfl) fun _ ↦ rfl)

theorem evolves_issue (g : Grid) (u : UnitId) (c : Command) : Evolves g (World.issue g u c) := by
  refine ⟨fun _ ↦ rfl, fun v ↦ ?_⟩
  change Option.Rel _ _ (g.engage u (g.activityOf c)).units[v]?
  rw [engage, units_modifyUnit]
  split
  · subst v
    cases g.units[u]? with
    | none => exact .none
    | some b =>
      refine .some ?_
      dsimp only
      split <;> exact ⟨rfl, .inl rfl⟩
  · exact (Evolves.refl g).units v

theorem Evolves.faction (h : Evolves g g') (v : UnitId) :
    World.faction? g' v = World.faction? g v := by
  change g'.units[v]?.map (·.faction) = g.units[v]?.map (·.faction)
  have hv := h.units v
  generalize g.units[v]? = x at hv
  generalize g'.units[v]? = y at hv
  cases hv with
  | none => rfl
  | some hb => exact congrArg some hb.1

theorem Evolves.inside (h : Evolves g g')
    (hg : ∀ (v : UnitId) (b : Body), g.units[v]? = some b → g.holds b.position = true) (v : UnitId)
    (b' : Body) (hb' : g'.units[v]? = some b') : g'.holds b'.position = true := by
  have hv := h.units v
  rw [hb'] at hv
  generalize hx : g.units[v]? = x at hv
  cases hv with
  | @some b b' hbecomes =>
    rw [h.holds]
    rcases hbecomes.2 with hpos | hin
    · rw [hpos]
      exact hg v b hx
    · exact hin

end Grid

end Errand
