import Errand.Proofs.Script.Numbering
import Mathlib.Logic.Relation

namespace Errand

/-- The links to children lead from `p` to `j`, be it by no step. -/
def Spanned (children : Nat → List Nat) (p j : Nat) : Prop :=
  Relation.ReflTransGen (fun p j ↦ j ∈ children p) p j

/-- The links to parents lead from `j` to `a`, by one step or more. -/
def Ascends (parent : Nat → Option Nat) (a j : Nat) : Prop :=
  Relation.TransGen (fun p c ↦ parent c = some p) a j

/-- The loop nearest to a statement among those above it, if there is one. -/
def NearestLoop (parent : Nat → Option Nat) (loopAt : Nat → Prop) (j : Nat) : Option Nat → Prop
  | none => ∀ a, Ascends parent a j → ¬ loopAt a
  | some l => Ascends parent l j ∧ loopAt l ∧
    ∀ a, Ascends parent a j → loopAt a → a = l ∨ Ascends parent a l

namespace Script

/-- The sites of neighbouring statements, the first of which has number `first`. -/
def neighbours (first : Nat) (above : List Ancestor) : List Script → List Site
  | [] => []
  | s :: ss => ⟨first, s, above⟩ :: neighbours (first + s.size) above ss

end Script

namespace Site

def ancestor (q : Site) : Ancestor := ⟨q.id, q.script.isLoop⟩

def below (q : Site) : List Site :=
  Script.neighbours (q.id + 1) (q.ancestor :: q.above) q.script.children

end Site

namespace Script

theorem childrenInduction {motive : Script → Prop} (h : ∀ s, (∀ c ∈ s.children, motive c) → motive s)
    (s : Script) : motive s := by
  induction s with
  | sequence loc body ih => exact h _ ih
  | branch loc c yes no ihy ihn =>
    apply h
    simp [children, ihy, ihn]
  | loop loc c body ih =>
    apply h
    simpa [children] using ih
  | leave | assign | print | void | action =>
    apply h
    simp [children]

theorem size_eq (s : Script) : s.size = sizeAll s.children + 1 := by
  cases s <;> simp [size, sizeAll, children]

theorem sitesFrom_eq (s : Script) (id : Nat) (above : List Ancestor) :
    s.sitesFrom id above =
      ⟨id, s, above⟩ :: sitesAll (id + 1) (⟨id, s.isLoop⟩ :: above) s.children := by
  cases s <;> simp [sitesFrom, sitesAll, children, isLoop]

theorem descendants_eq (s : Script) (id : Nat) :
    s.descendants id = id :: descendantsAll s.children (id + 1) := by
  cases s <;> simp [descendants, descendantsAll, children]

variable {first id : Nat} {above : List Ancestor} {ss : List Script} {s : Script} {q c : Site}

theorem map_id_neighbours (first : Nat) (above : List Ancestor) (ss : List Script) :
    (neighbours first above ss).map (·.id) = numbered first ss := by
  induction ss generalizing first with
  | nil => rfl
  | cons s ss ih => rw [neighbours, List.map_cons, ih, numbered]

theorem map_script_neighbours (first : Nat) (above : List Ancestor) (ss : List Script) :
    (neighbours first above ss).map (·.script) = ss := by
  induction ss generalizing first with
  | nil => rfl
  | cons s ss ih => rw [neighbours, List.map_cons, ih]

theorem descendantsAll_eq (first : Nat) (above : List Ancestor) (ss : List Script) :
    descendantsAll ss first =
      (neighbours first above ss).reverse.flatMap fun c ↦ c.script.descendants c.id := by
  induction ss generalizing first with
  | nil => rfl
  | cons s ss ih => simp [descendantsAll, neighbours, ih]

theorem mem_children_iff {j : Nat} : j ∈ q.children ↔ ∃ c ∈ q.below, c.id = j := by
  rw [Site.children, ← map_id_neighbours _ (q.ancestor :: q.above), List.mem_map, Site.below]

theorem of_mem_neighbours (h : c ∈ neighbours first above ss) :
    c.above = above ∧ c.script ∈ ss ∧ first ≤ c.id ∧ c.id + c.script.size ≤ first + sizeAll ss := by
  induction ss generalizing first with
  | nil => cases h
  | cons s ss ih =>
    rw [sizeAll]
    rcases List.mem_cons.1 h with rfl | h
    · exact ⟨rfl, List.mem_cons_self, Nat.le_refl _, by simp only; omega⟩
    · obtain ⟨habove, hscript, hlo, hhi⟩ := ih h
      exact ⟨habove, List.mem_cons_of_mem s hscript, by omega, by omega⟩

theorem exists_neighbour {j : Nat} (above : List Ancestor) (hlo : first ≤ j)
    (hhi : j < first + sizeAll ss) :
    ∃ c ∈ neighbours first above ss, c.id ≤ j ∧ j < c.id + c.script.size := by
  induction ss generalizing first with
  | nil =>
    rw [sizeAll] at hhi
    omega
  | cons s ss ih =>
    rw [sizeAll] at hhi
    by_cases hj : j < first + s.size
    · exact ⟨_, List.mem_cons_self, hlo, hj⟩
    · obtain ⟨c, hc, hin⟩ := ih (Nat.le_of_not_lt hj) (by omega)
      exact ⟨c, List.mem_cons_of_mem _ hc, hin⟩

theorem of_mem_below (h : c ∈ q.below) :
    c.above = q.ancestor :: q.above ∧ c.script ∈ q.script.children ∧ q.id < c.id ∧
      c.id + c.script.size ≤ q.id + q.script.size := by
  obtain ⟨habove, hscript, hlo, hhi⟩ := of_mem_neighbours h
  rw [q.script.size_eq]
  exact ⟨habove, hscript, hlo, by omega⟩

theorem neighbours_subset (first : Nat) (above : List Ancestor) (ss : List Script) :
    neighbours first above ss ⊆ sitesAll first above ss := by
  induction ss generalizing first with
  | nil => exact List.Subset.refl _
  | cons s ss ih =>
    rw [neighbours, sitesAll, sitesFrom_eq, List.cons_append]
    apply List.cons_subset_cons
    exact List.Subset.trans (ih _) (List.subset_append_right _ _)

theorem below_subset_sitesAll
    (h : ∀ s ∈ ss, ∀ id above, ∀ q ∈ s.sitesFrom id above, q.below ⊆ s.sitesFrom id above) :
    ∀ q ∈ sitesAll first above ss, q.below ⊆ sitesAll first above ss := by
  induction ss generalizing first with
  | nil => exact fun q hq ↦ nomatch hq
  | cons s ss ih =>
    obtain ⟨hs, hss⟩ := List.forall_mem_cons.1 h
    intro q hq
    rcases List.mem_append.1 hq with hq | hq
    · exact List.Subset.trans (hs _ _ q hq) (List.subset_append_left _ _)
    · exact List.Subset.trans (ih hss q hq) (List.subset_append_right _ _)

theorem below_subset_sitesFrom (s : Script) (id : Nat) (above : List Ancestor) :
    ∀ q ∈ s.sitesFrom id above, q.below ⊆ s.sitesFrom id above := by
  induction s using childrenInduction generalizing id above with
  | h s ih =>
    intro q hq
    rw [sitesFrom_eq] at hq ⊢
    apply List.subset_cons_of_subset
    rcases List.mem_cons.1 hq with rfl | hq
    · exact neighbours_subset _ _ _
    · exact below_subset_sitesAll ih q hq

theorem eq_or_below_sitesAll
    (h : ∀ s ∈ ss, ∀ id above, ∀ c ∈ s.sitesFrom id above,
      c = ⟨id, s, above⟩ ∨ ∃ q ∈ s.sitesFrom id above, c ∈ q.below) :
    ∀ c ∈ sitesAll first above ss,
      c ∈ neighbours first above ss ∨ ∃ q ∈ sitesAll first above ss, c ∈ q.below := by
  induction ss generalizing first with
  | nil => exact fun c hc ↦ nomatch hc
  | cons s ss ih =>
    obtain ⟨hs, hss⟩ := List.forall_mem_cons.1 h
    intro c hc
    rcases List.mem_append.1 hc with hc | hc
    · rcases hs _ _ c hc with rfl | ⟨q, hq, hbelow⟩
      · exact .inl List.mem_cons_self
      · exact .inr ⟨q, List.mem_append_left _ hq, hbelow⟩
    · rcases ih hss c hc with hc | ⟨q, hq, hbelow⟩
      · exact .inl (List.mem_cons_of_mem _ hc)
      · exact .inr ⟨q, List.mem_append_right _ hq, hbelow⟩

theorem eq_or_below (s : Script) (id : Nat) (above : List Ancestor) :
    ∀ c ∈ s.sitesFrom id above, c = ⟨id, s, above⟩ ∨ ∃ q ∈ s.sitesFrom id above, c ∈ q.below := by
  induction s using childrenInduction generalizing id above with
  | h s ih =>
    intro c hc
    rw [sitesFrom_eq] at hc ⊢
    rcases List.mem_cons.1 hc with rfl | hc
    · exact .inl rfl
    · rcases eq_or_below_sitesAll ih c hc with hc | ⟨q, hq, hbelow⟩
      · exact .inr ⟨_, List.mem_cons_self, hc⟩
      · exact .inr ⟨q, List.mem_cons_of_mem _ hq, hbelow⟩

theorem of_site? {id : Nat} (h : s.site? id = some q) : q ∈ s.sites ∧ q.id = id := by
  obtain ⟨hi, rfl⟩ := List.getElem?_eq_some_iff.1 h
  exact ⟨List.getElem_mem hi, id_getElem_sites hi⟩

theorem id_lt_size (hq : q ∈ s.sites) : q.id < s.size := by
  rw [← sites_length]
  exact (List.getElem?_eq_some_iff.1 (site?_of_mem hq)).1

theorem childIds_eq (hq : q ∈ s.sites) : s.childIds q.id = q.below.map (·.id) := by
  rw [childIds, site?_of_mem hq]
  exact (map_id_neighbours _ _ _).symm

theorem root_mem_sites (s : Script) : (⟨0, s, []⟩ : Site) ∈ s.sites := by
  rw [sites, sitesFrom_eq]
  exact List.mem_cons_self

theorem mem_sites_of_below (hq : q ∈ s.sites) (hc : c ∈ q.below) : c ∈ s.sites :=
  below_subset_sitesFrom s 0 [] q hq hc

/-- What holds of the whole script and passes from each site to those below it holds of every site. -/
theorem sitesInduction {s : Script} {motive : Site → Prop} (root : motive ⟨0, s, []⟩)
    (below : ∀ q ∈ s.sites, motive q → ∀ c ∈ q.below, motive c) (c : Site) (hc : c ∈ s.sites) :
    motive c := by
  induction hn : c.id using Nat.strongRecOn generalizing c with
  | ind n ih =>
    subst hn
    rcases eq_or_below s 0 [] c hc with rfl | ⟨q, hq, hbelow⟩
    · exact root
    · exact below q hq (ih q.id (of_mem_below hbelow).2.2.1 q hq rfl) c hbelow

theorem end_le_size (s : Script) : ∀ c ∈ s.sites, c.id + c.script.size ≤ s.size := by
  apply sitesInduction
  · exact Nat.le_of_eq (Nat.zero_add _)
  · intro q hq ih c hc
    exact Nat.le_trans (of_mem_below hc).2.2.2 ih

theorem parent?_of_below (hq : q ∈ s.sites) (hc : c ∈ q.below) : s.parent? c.id = some q.id := by
  rw [parent?, site?_of_mem (mem_sites_of_below hq hc), Option.bind_some, Site.parent?,
    (of_mem_below hc).1]
  rfl

theorem parent?_zero (s : Script) : s.parent? 0 = none := by
  rw [parent?, site?_of_mem s.root_mem_sites]
  rfl

theorem exists_below_of_parent? {j p : Nat} (h : s.parent? j = some p) :
    ∃ q ∈ s.sites, ∃ c ∈ q.below, q.id = p ∧ c.id = j := by
  obtain ⟨c, hsite, hparent⟩ := Option.bind_eq_some_iff.1 h
  obtain ⟨hc, rfl⟩ := of_site? hsite
  rcases eq_or_below s 0 [] c hc with rfl | ⟨q, hq, hbelow⟩
  · cases hparent
  · have hq' := parent?_of_below hq hbelow
    exact ⟨q, hq, c, hbelow, Option.some.inj (hq'.symm.trans h), rfl⟩

theorem mem_childIds {p j : Nat} :
    j ∈ s.childIds p ↔ ∃ q ∈ s.sites, ∃ c ∈ q.below, q.id = p ∧ c.id = j := by
  rw [childIds]
  constructor
  · intro h
    split at h
    · next q hsite =>
      obtain ⟨hq, rfl⟩ := of_site? hsite
      obtain ⟨c, hc, rfl⟩ := mem_children_iff.1 h
      exact ⟨q, hq, c, hc, rfl, rfl⟩
    · cases h
  · rintro ⟨q, hq, c, hc, rfl, rfl⟩
    rw [site?_of_mem hq]
    exact mem_children_iff.2 ⟨c, hc, rfl⟩

theorem lt_of_mem_childIds {p c : Nat} (h : c ∈ s.childIds p) : p < c := by
  obtain ⟨q, -, b, hb, rfl, rfl⟩ := mem_childIds.1 h
  exact (of_mem_below hb).2.2.1

theorem mem_childIds_iff_parent? {p j : Nat} : j ∈ s.childIds p ↔ s.parent? j = some p := by
  rw [mem_childIds]
  constructor
  · rintro ⟨q, hq, c, hc, rfl, rfl⟩
    exact parent?_of_below hq hc
  · exact exists_below_of_parent?

theorem lt_of_mem_numbered {first j : Nat} {ss : List Script} (h : j ∈ numbered first ss) :
    first ≤ j := by
  rw [← map_id_neighbours first [], List.mem_map] at h
  obtain ⟨c, hc, rfl⟩ := h
  exact (of_mem_neighbours hc).2.2.1

theorem nodup_numbered (first : Nat) (ss : List Script) : (numbered first ss).Nodup := by
  induction ss generalizing first with
  | nil => exact List.nodup_nil
  | cons s ss ih =>
    rw [numbered, List.nodup_cons]
    refine ⟨fun h ↦ ?_, ih _⟩
    have hle := lt_of_mem_numbered h
    have hpos := s.size_pos
    omega

theorem nodup_childIds (s : Script) (p : Nat) : (s.childIds p).Nodup := by
  rw [childIds]
  split
  · exact nodup_numbered _ _
  · exact List.nodup_nil

theorem exists_below_of_pos {j : Nat} (hpos : 0 < j) (hj : j < s.size) :
    ∃ q ∈ s.sites, ∃ c ∈ q.below, c.id = j := by
  obtain ⟨c, hc, -, rfl⟩ := exists_site hj
  rcases eq_or_below s 0 [] c hc with rfl | ⟨q, hq, hbelow⟩
  · exact absurd hpos (Nat.lt_irrefl 0)
  · exact ⟨q, hq, c, hbelow, rfl⟩

def Spans (s : Script) : Nat → Nat → Prop := Spanned s.childIds

theorem descendantsAll_perm {ss : List Script}
    (h : ∀ s ∈ ss, ∀ id, (s.descendants id).Perm (List.range' id s.size)) (first : Nat) :
    (descendantsAll ss first).Perm (List.range' first (sizeAll ss)) := by
  induction ss generalizing first with
  | nil => exact List.Perm.refl _
  | cons s ss ih =>
    obtain ⟨hs, hss⟩ := List.forall_mem_cons.1 h
    rw [descendantsAll, sizeAll, ← List.range'_append_1]
    exact List.perm_append_comm.trans ((hs first).append (ih hss _))

theorem descendants_perm (s : Script) (id : Nat) :
    (s.descendants id).Perm (List.range' id s.size) := by
  induction s using childrenInduction generalizing id with
  | h s ih =>
    rw [descendants_eq, size_eq, List.range'_succ]
    exact (descendantsAll_perm ih _).cons id

theorem spans_of_mem_block (hq : q ∈ s.sites) {j : Nat} (hlo : q.id ≤ j)
    (hhi : j < q.id + q.script.size) : s.Spans q.id j := by
  rcases q with ⟨id, t, above⟩
  induction t using childrenInduction generalizing id above with
  | h t ih =>
    by_cases hj : j = id
    · subst hj
      exact .refl
    · rw [size_eq] at hhi
      obtain ⟨c, hc, hclo, hchi⟩ := exists_neighbour (⟨id, t.isLoop⟩ :: above)
        (show id + 1 ≤ j by simp only at hlo; omega) (show j < id + 1 + sizeAll t.children by
          simp only at hhi; omega)
      have hbelow : c ∈ (⟨id, t, above⟩ : Site).below := hc
      have hchild : c.id ∈ s.childIds id := mem_childIds.2 ⟨_, hq, c, hbelow, rfl, rfl⟩
      exact .head hchild (ih c.script (of_mem_below hbelow).2.1 c.id c.above
        (mem_sites_of_below hq hbelow) hclo hchi)

theorem mem_block_of_spans (hq : q ∈ s.sites) {j : Nat} (h : s.Spans q.id j) :
    ∃ c ∈ s.sites, c.id = j ∧ q.id ≤ j ∧ j + c.script.size ≤ q.id + q.script.size := by
  induction h with
  | refl => exact ⟨q, hq, rfl, Nat.le_refl _, Nat.le_refl _⟩
  | tail _ hchild ih =>
    obtain ⟨c, hc, rfl, hlo, hhi⟩ := ih
    obtain ⟨c', hc', b, hb, hid, rfl⟩ := mem_childIds.1 hchild
    obtain rfl : c' = c := Option.some.inj
      ((site?_of_mem hc').symm.trans (by rw [hid, site?_of_mem hc]))
    obtain ⟨-, -, hblo, hbhi⟩ := of_mem_below hb
    exact ⟨b, mem_sites_of_below hc hb, rfl, by omega, by omega⟩

theorem spans_iff (hq : q ∈ s.sites) {j : Nat} :
    s.Spans q.id j ↔ q.id ≤ j ∧ j < q.id + q.script.size := by
  constructor
  · intro h
    obtain ⟨c, -, -, hlo, hhi⟩ := mem_block_of_spans hq h
    have hpos := c.script.size_pos
    omega
  · rintro ⟨hlo, hhi⟩
    exact spans_of_mem_block hq hlo hhi

def Above (s : Script) : Nat → Nat → Prop := Ascends s.parent?

def LoopAt (s : Script) (a : Nat) : Prop := ∃ q, s.site? a = some q ∧ q.script.isLoop = true

def IsNearestLoop (s : Script) : Nat → Option Nat → Prop := NearestLoop s.parent? s.LoopAt

theorem loopAt_iff (hq : q ∈ s.sites) : s.LoopAt q.id ↔ q.script.isLoop = true := by
  rw [LoopAt, site?_of_mem hq]
  simp

theorem above_below (hq : q ∈ s.sites) (hc : c ∈ q.below) {a : Nat} :
    s.Above a c.id ↔ a = q.id ∨ s.Above a q.id := by
  rw [Above, Ascends, Relation.TransGen.tail'_iff, parent?_of_below hq hc]
  simp [Relation.reflTransGen_iff_eq_or_transGen, Ascends, eq_comm]

theorem not_above_zero (s : Script) (a : Nat) : ¬ s.Above a 0 := by
  rw [Above, Ascends, Relation.TransGen.tail'_iff, parent?_zero]
  simp

theorem loopAround?_root (s : Script) : s.loopAround? 0 = none := by
  rw [loopAround?, site?_of_mem s.root_mem_sites]
  rfl

theorem loopAround?_below (hq : q ∈ s.sites) (hc : c ∈ q.below) :
    s.loopAround? c.id = if q.script.isLoop then some q.id else s.loopAround? q.id := by
  rw [loopAround?, loopAround?, site?_of_mem hq, site?_of_mem (mem_sites_of_below hq hc),
    Option.bind_some, Option.bind_some, Site.loop?, (of_mem_below hc).1, Site.loop?, Site.ancestor]
  cases q.script.isLoop <;> simp [nearestLoop?]

theorem isNearestLoop_loopAround? (s : Script) :
    ∀ c ∈ s.sites, s.IsNearestLoop c.id (s.loopAround? c.id) := by
  apply sitesInduction
  · rw [loopAround?_root]
    exact fun a ha ↦ absurd ha (s.not_above_zero a)
  · intro q hq ih c hc
    rw [loopAround?_below hq hc]
    cases hloop : q.script.isLoop with
    | true =>
      rw [if_pos rfl]
      refine ⟨(above_below hq hc).2 (.inl rfl), (loopAt_iff hq).2 hloop, fun a ha _ ↦ ?_⟩
      exact (above_below hq hc).1 ha
    | false =>
      -- What is above the parent is above the child, and the parent itself is no loop.
      have hup : ∀ a, s.Above a c.id → s.LoopAt a → s.Above a q.id := by
        intro a ha hl
        rcases (above_below hq hc).1 ha with rfl | ha
        · rw [loopAt_iff hq, hloop] at hl
          cases hl
        · exact ha
      rw [if_neg Bool.false_ne_true]
      cases hnear : s.loopAround? q.id with
      | none =>
        rw [hnear] at ih
        exact fun a ha hl ↦ ih a (hup a ha hl) hl
      | some l =>
        rw [hnear] at ih
        obtain ⟨hl, hloopAt, hnearest⟩ := ih
        exact ⟨(above_below hq hc).2 (.inr hl), hloopAt, fun a ha hla ↦ hnearest a (hup a ha hla) hla⟩

end Script

end Errand
