import Errand.Script.Site
import Mathlib.Tactic.Common

namespace Errand.Script

@[elab_as_elim, induction_eliminator]
theorem inductionOn {motive : Script → Prop}
    (sequence : ∀ loc body, (∀ s ∈ body, motive s) → motive (.sequence loc body))
    (branch : ∀ loc condition yes no, motive yes → motive no →
      motive (.branch loc condition yes no))
    (loop : ∀ loc condition body, motive body → motive (.loop loc condition body))
    (leave : ∀ loc, motive (.leave loc))
    (assign : ∀ loc name value, motive (.assign loc name value))
    (print : ∀ loc value, motive (.print loc value))
    (void : ∀ loc, motive (.void loc))
    (action : ∀ loc a target, motive (.action loc a target)) (s : Script) : motive s := by
  refine Script.rec sequence branch loop leave assign print void action ?_ ?_ s
  · intro s hs
    cases hs
  · intro s ss hs hss t ht
    rcases List.mem_cons.mp ht with rfl | ht
    · exact hs
    · exact hss t ht

theorem size_pos (s : Script) : 0 < s.size := by
  cases s <;> simp [size]

theorem sizeAll_append (ss ts : List Script) : sizeAll (ss ++ ts) = sizeAll ss + sizeAll ts := by
  induction ss with
  | nil => simp [sizeAll]
  | cons s ss ih => simp [sizeAll, ih, Nat.add_assoc]

theorem sizeAll_reverse (ss : List Script) : sizeAll ss.reverse = sizeAll ss := by
  induction ss with
  | nil => rfl
  | cons s ss ih =>
    rw [List.reverse_cons, sizeAll_append, ih]
    simp only [sizeAll]
    omega

theorem mem_descendantsAll {ss : List Script}
    (h : ∀ s ∈ ss, ∀ id j, j ∈ s.descendants id ↔ id ≤ j ∧ j < id + s.size) (first j : Nat) :
    j ∈ descendantsAll ss first ↔ first ≤ j ∧ j < first + sizeAll ss := by
  induction ss generalizing first with
  | nil =>
    simp only [descendantsAll, sizeAll, List.not_mem_nil, false_iff]
    omega
  | cons s ss ih =>
    have hs := h s List.mem_cons_self first j
    have hss := ih (fun t ht ↦ h t (List.mem_cons_of_mem s ht)) (first + s.size)
    simp only [descendantsAll, sizeAll, List.mem_append, hs, hss]
    omega

theorem mem_descendants (s : Script) (id j : Nat) :
    j ∈ s.descendants id ↔ id ≤ j ∧ j < id + s.size := by
  induction s generalizing id j with
  | sequence loc body ih =>
    simp only [descendants, size, List.mem_cons, mem_descendantsAll ih]
    omega
  | branch loc c yes no ihy ihn =>
    simp only [descendants, size, List.mem_cons, List.mem_append, ihy, ihn]
    omega
  | loop loc c body ih =>
    simp only [descendants, size, List.mem_cons, ih]
    omega
  | leave | assign | print | void | action =>
    simp only [descendants, size, List.mem_singleton]
    omega

theorem sitesAll_ids {ss : List Script}
    (h : ∀ s ∈ ss, ∀ id above, (s.sitesFrom id above).map (·.id) = List.range' id s.size)
    (first : Nat) (above : List Ancestor) :
    (sitesAll first above ss).map (·.id) = List.range' first (sizeAll ss) := by
  induction ss generalizing first with
  | nil => rfl
  | cons s ss ih =>
    rw [sitesAll, List.map_append, h s List.mem_cons_self,
      ih (fun t ht ↦ h t (List.mem_cons_of_mem s ht)), sizeAll, List.range'_append_1]

theorem sitesFrom_ids (s : Script) (id : Nat) (above : List Ancestor) :
    (s.sitesFrom id above).map (·.id) = List.range' id s.size := by
  induction s generalizing id above with
  | sequence loc body ih =>
    rw [sitesFrom, List.map_cons, sitesAll_ids ih, size, List.range'_succ]
  | branch loc c yes no ihy ihn =>
    rw [sitesFrom, List.map_cons, List.map_append, ihy, ihn, List.range'_append_1, size,
      List.range'_succ]
  | loop loc c body ih => rw [sitesFrom, List.map_cons, ih, size, List.range'_succ]
  | leave | assign | print | void | action => rfl

theorem length_sitesFrom (s : Script) (id : Nat) (above : List Ancestor) :
    (s.sitesFrom id above).length = s.size := by
  rw [← List.length_map (fun site : Site ↦ site.id), sitesFrom_ids, List.length_range']

theorem sites_length (s : Script) : s.sites.length = s.size := length_sitesFrom s 0 []

theorem id_getElem_sites {s : Script} {i : Nat} (hi : i < s.sites.length) : s.sites[i].id = i := by
  have hid : (s.sites.map (·.id))[i]? = some i := by
    rw [sites, sitesFrom_ids, List.getElem?_range' (by rwa [← sites_length])]
    simp
  rw [List.getElem?_map, List.getElem?_eq_getElem hi] at hid
  exact Option.some.inj hid

theorem site?_of_mem {s : Script} {site : Site} (h : site ∈ s.sites) :
    s.site? site.id = some site := by
  obtain ⟨i, hi, rfl⟩ := List.mem_iff_getElem.mp h
  rw [site?, id_getElem_sites hi, List.getElem?_eq_getElem hi]

theorem site?_eq_none {s : Script} {id : Nat} (h : s.size ≤ id) : s.site? id = none := by
  rwa [site?, List.getElem?_eq_none_iff, sites_length]

theorem exists_site {s : Script} {id : Nat} (h : id < s.size) :
    ∃ site ∈ s.sites, s.site? id = some site ∧ site.id = id := by
  rw [← sites_length] at h
  exact ⟨s.sites[id], List.getElem_mem h, List.getElem?_eq_getElem h, id_getElem_sites h⟩

end Errand.Script
