import Errand.Proofs.Script.Layout

namespace Errand.Script

mutual

/-- Every `break` has a loop around it, be it one around the whole script, which `inLoop` tells. -/
def Placed (inLoop : Bool) : Script → Prop
  | sequence _ body => PlacedAll inLoop body
  | branch _ _ yes no => Placed inLoop yes ∧ Placed inLoop no
  | loop _ _ body => Placed true body
  | leave _ => inLoop = true
  | assign _ _ _ | print _ _ | void _ | action _ _ _ => True

def PlacedAll (inLoop : Bool) : List Script → Prop
  | [] => True
  | s :: ss => Placed inLoop s ∧ PlacedAll inLoop ss

end

theorem placedAll_append {b : Bool} {ss ts : List Script} :
    PlacedAll b (ss ++ ts) ↔ PlacedAll b ss ∧ PlacedAll b ts := by
  induction ss with
  | nil => simp [PlacedAll]
  | cons s ss ih => simp [PlacedAll, ih, and_assoc]

def PlacedAt (site : Site) : Prop := ∀ loc, site.script = .leave loc → site.loop?.isSome

theorem placedAll_of_sites {ss : List Script}
    (h : ∀ s ∈ ss, ∀ id above, (∀ site ∈ s.sitesFrom id above, PlacedAt site) →
      s.Placed (nearestLoop? above).isSome)
    (first : Nat) (above : List Ancestor)
    (hs : ∀ site ∈ sitesAll first above ss, PlacedAt site) :
    PlacedAll (nearestLoop? above).isSome ss := by
  induction ss generalizing first with
  | nil => trivial
  | cons s ss ih =>
    simp only [sitesAll, List.mem_append] at hs
    exact ⟨h s List.mem_cons_self first above fun site hm ↦ hs site (.inl hm),
      ih (fun t ht ↦ h t (List.mem_cons_of_mem s ht)) _ fun site hm ↦ hs site (.inr hm)⟩

theorem placed_of_sites (s : Script) (id : Nat) (above : List Ancestor)
    (h : ∀ site ∈ s.sitesFrom id above, PlacedAt site) :
    s.Placed (nearestLoop? above).isSome := by
  induction s generalizing id above with
  | sequence loc body ih =>
    simp only [sitesFrom, List.mem_cons] at h
    have hb := placedAll_of_sites ih (id + 1) (⟨id, false⟩ :: above) fun site hm ↦ h site (.inr hm)
    simpa only [Placed, nearestLoop?, List.find?_cons_of_neg, Bool.false_eq_true,
      not_false_eq_true] using hb
  | branch loc c yes no ihy ihn =>
    simp only [sitesFrom, List.mem_cons, List.mem_append] at h
    have hy := ihy (id + 1) (⟨id, false⟩ :: above) fun site hm ↦ h site (.inr (.inl hm))
    have hn := ihn (id + 1 + yes.size) (⟨id, false⟩ :: above) fun site hm ↦ h site (.inr (.inr hm))
    simpa only [Placed, nearestLoop?, List.find?_cons_of_neg, Bool.false_eq_true,
      not_false_eq_true] using And.intro hy hn
  | loop loc c body ih =>
    simp only [sitesFrom, List.mem_cons] at h
    exact ih (id + 1) (⟨id, true⟩ :: above) fun site hm ↦ h site (.inr hm)
  | leave loc => exact h ⟨id, .leave loc, above⟩ (List.mem_singleton.mpr rfl) loc rfl
  | assign | print | void | action => trivial

theorem placedAt_of_check {site : Site} (h : site.check = .ok ()) : PlacedAt site := by
  intro loc hl
  by_contra hn
  rw [Option.not_isSome_iff_eq_none] at hn
  simp [Site.check, Slot.check, Site.slot, Site.node, hl, hn, throw, throwThe, MonadExceptOf.throw] at h

theorem check_of_build {d : Statement} {s : Script} (h : build d = .ok s) :
    ofStatement d = s ∧ ∀ site ∈ s.sites, site.check = .ok () := by
  rw [build_eq_check] at h
  cases hc : (ofStatement d).sites.forM Site.check with
  | error e => simp [hc, bind, Except.bind] at h
  | ok u =>
    simp only [hc, bind, Except.bind, pure, Except.pure, Except.ok.injEq] at h
    subst h
    exact ⟨rfl, forM_eq_ok.1 hc⟩

theorem placed_of_build {d : Statement} {s : Script} (h : build d = .ok s) : s.Placed false := by
  obtain ⟨-, hc⟩ := check_of_build h
  exact placed_of_sites s 0 [] fun site hm ↦ placedAt_of_check (hc site hm)

end Errand.Script
