import Errand.Proofs.World.Calls

namespace Errand

section Counting

theorem countP_add_of_ne {κ : Type} {t : κ} {ks : List κ} (hnodup : ks.Nodup) (ht : t ∈ ks)
    {p q : κ → Bool} (h : ∀ k, k ≠ t → p k = q k) :
    ks.countP p + (q t).toNat = ks.countP q + (p t).toNat := by
  induction ks with
  | nil => cases ht
  | cons k ks ih =>
    obtain ⟨hk, hnodup⟩ := List.nodup_cons.1 hnodup
    rw [List.countP_cons, List.countP_cons]
    by_cases hkt : k = t
    · subst hkt
      have hrest : ks.countP p = ks.countP q := by
        refine List.countP_congr fun x hx ↦ ?_
        rw [h x fun hxk ↦ hk (hxk ▸ hx)]
      rw [hrest]
      cases p k <;> cases q k <;> simp
    · have hrest := ih hnodup ((List.mem_cons.1 ht).resolve_left fun htk ↦ hkt htk.symm)
      rw [h k hkt]
      omega

variable {κ α : Type} [Ord κ] [Std.TransOrd κ] [Std.LawfulEqOrd κ] {m m' : Std.TreeMap κ α} {t : κ}
  {P : α → Bool}

theorem countP_toList {ks : List κ} (hnodup : ks.Nodup) (hkeys : ∀ k, k ∈ m → k ∈ ks) :
    m.toList.countP (fun x ↦ P x.2) = ks.countP fun k ↦ m[k]?.any P := by
  have hperm : (ks.filter (m.contains ·)).Perm m.keys := by
    refine (List.perm_ext_iff_of_nodup (hnodup.filter _) Std.TreeMap.nodup_keys).2 fun k ↦ ?_
    rw [List.mem_filter, Std.TreeMap.mem_keys, ← Std.TreeMap.mem_iff_contains]
    exact ⟨And.right, fun hk ↦ ⟨hkeys k hk, hk⟩⟩
  calc m.toList.countP (fun x ↦ P x.2)
      = m.toList.countP ((fun k ↦ m[k]?.any P) ∘ Prod.fst) := by
        refine List.countP_congr fun x hx ↦ ?_
        rw [Function.comp_apply, Std.TreeMap.mem_toList_iff_getElem?_eq_some.1 hx, Option.any_some]
    _ = m.keys.countP fun k ↦ m[k]?.any P := by
        rw [← List.countP_map, Std.TreeMap.map_fst_toList_eq_keys]
    _ = (ks.filter (m.contains ·)).countP fun k ↦ m[k]?.any P := (hperm.countP_eq _).symm
    _ = ks.countP fun k ↦ m[k]?.any P := by
        rw [List.countP_filter]
        refine List.countP_congr fun k _ ↦ ?_
        rw [Std.TreeMap.contains_eq_isSome_getElem?]
        cases m[k]? <;> simp

theorem countP_toList_add (hkeys : ∀ k, k ∈ m' → k ∈ m)
    (h : ∀ k, k ≠ t → m'[k]?.any P = m[k]?.any P) :
    m'.toList.countP (fun x ↦ P x.2) + (m[t]?.any P).toNat =
      m.toList.countP (fun x ↦ P x.2) + (m'[t]?.any P).toNat := by
  have hnodup : m.keys.Nodup := Std.TreeMap.nodup_keys
  rw [countP_toList hnodup fun k hk ↦ Std.TreeMap.mem_keys.2 (hkeys k hk),
    countP_toList hnodup fun k ↦ Std.TreeMap.mem_keys.2]
  by_cases ht : t ∈ m
  · exact countP_add_of_ne hnodup (Std.TreeMap.mem_keys.2 ht) h
  · have hout : m[t]? = none := Std.TreeMap.getElem?_eq_none ht
    have hout' : m'[t]? = none := Std.TreeMap.getElem?_eq_none fun ht' ↦ ht (hkeys t ht')
    rw [hout, hout']
    refine congrArg (· + _) (List.countP_congr fun k hk ↦ ?_)
    rw [h k fun hkt ↦ ht (hkt ▸ Std.TreeMap.mem_keys.1 hk)]

end Counting

namespace Grid

variable {g g' : Grid} {u : UnitId} {b b' : Body} {e : Effect} {target : Position} {r k : Resource}

def lying (g : Grid) (k : Resource) : Nat := g.resources.toList.countP fun x ↦ decide (x.2 = k)

/-- How many of a kind units have in their hands, the dead too. -/
def borne (g : Grid) (k : Resource) : Nat :=
  g.units.toList.countP fun x ↦ decide (x.2.carried = some k)

def stock (g : Grid) (k : Resource) : Nat := g.lying k + g.borne k

/-- In its turn unit `u` ends its work on a workshop, with a resource of this kind in its hands. -/
def delivers (g : Grid) (k : Resource) (u : UnitId) : Bool :=
  g.units[u]?.any fun b ↦ b.alive && decide (b.carried = some k) &&
    b.completes?.any fun p ↦ decide (g.resources[p]? = some .workshop)

def digs (g : Grid) (u : UnitId) : Bool :=
  g.units[u]?.any fun b ↦ b.alive &&
    b.completes?.any fun p ↦ decide (g.resources[p]? = none) && g.solid.contains p

def discards (g : Grid) (k : Resource) (u : UnitId) : Bool :=
  g.digs u && g.units[u]?.any fun b ↦ decide (b.carried = some k)

theorem borne_of_leaves (hb : g.units[u]? = some b) (h : g.Leaves u b' e g') (k : Resource) :
    g'.borne k + (decide (b.carried = some k)).toNat =
      g.borne k + (decide (b'.carried = some k)).toNat := by
  have hkeys : ∀ v, v ∈ g'.units → v ∈ g.units := by
    intro v hv
    rw [Std.TreeMap.mem_iff_isSome_getElem?] at hv ⊢
    by_cases hvu : v = u
    · rw [hvu, hb, Option.isSome_some]
    · rw [h.others v hvu] at hv
      split at hv
      · rwa [Option.isSome_map] at hv
      · exact hv
  have hothers : ∀ v, v ≠ u → g'.units[v]?.any (fun c ↦ decide (c.carried = some k)) =
      g.units[v]?.any fun c ↦ decide (c.carried = some k) := by
    intro v hv
    rw [h.others v hv]
    split
    · cases g.units[v]? <;> simp
    · rfl
  have hcount := countP_toList_add hkeys hothers
  rw [hb, h.own, Option.any_some, Option.any_some] at hcount
  exact hcount

theorem lying_of_erase (hr : g.resources[target]? = some r)
    (h : g'.resources = g.resources.erase target) (k : Resource) :
    g'.lying k + (decide (r = k)).toNat = g.lying k := by
  have hkeys : ∀ p, p ∈ g'.resources → p ∈ g.resources := by
    intro p hp
    rw [h] at hp
    exact Std.TreeMap.mem_of_mem_erase hp
  have hothers : ∀ p, p ≠ target → g'.resources[p]?.any (fun r ↦ decide (r = k)) =
      g.resources[p]?.any fun r ↦ decide (r = k) := by
    intro p hp
    have hne : ¬ target = p := fun heq ↦ hp heq.symm
    rw [h, Std.TreeMap.getElem?_erase]
    simp [hne]
  have hgone : g'.resources[target]? = none := by rw [h, Std.TreeMap.getElem?_erase_self]
  have hcount := countP_toList_add hkeys hothers
  rw [hr, hgone, Option.any_some] at hcount
  exact hcount

theorem stock_finish (hb : g.units[u]? = some b) (halive : b.alive = true)
    (hdone : b.completes? = some target) (k : Resource) :
    (g.act u).stock k + (g.delivers k u).toNat + (g.discards k u).toNat =
      g.stock k + (decide (k = .boulder) && g.digs u).toNat := by
  obtain ⟨r, e, hfinish, hleaves⟩ := finish_endWork hb target
  have hleaves : g.Leaves u { b with carried := r }.resting e (g.act u) := by
    rw [act_of_completes hb halive hdone]
    exact hleaves.rest
  have hborne : (g.act u).borne k + (decide (b.carried = some k)).toNat =
      g.borne k + (decide (r = some k)).toNat := borne_of_leaves hb hleaves k
  have hdelivers : g.delivers k u = (decide (b.carried = some k) &&
      decide (g.resources[target]? = some .workshop)) := by
    rw [delivers, hb, Option.any_some, halive, hdone, Option.any_some, Bool.true_and]
  have hdigs : g.digs u = (decide (g.resources[target]? = none) && g.solid.contains target) := by
    rw [digs, hb, Option.any_some, halive, hdone, Option.any_some, Bool.true_and]
  have hdiscards : g.discards k u = (g.digs u && decide (b.carried = some k)) := by
    rw [discards, hb, Option.any_some]
  have hsame : e.resources g.resources = g.resources → (g.act u).lying k = g.lying k := by
    intro hground
    rw [lying, hleaves.resources, hground, lying]
  rw [stock, stock, hdiscards, hdelivers, hdigs]
  cases hfinish with
  | deliver hshop hhas =>
    rw [hsame rfl]
    simp only [hshop, reduceCtorEq, decide_true, decide_false, Bool.and_true, Bool.and_false,
      Bool.false_and, Bool.toNat_false] at hborne ⊢
    omega
  | @gather r hr hshop hfree =>
    have hlying := lying_of_erase hr hleaves.resources k
    have hne : ¬ some r = some Resource.workshop := fun h ↦ hshop (Option.some.inj h)
    simp only [hr, hne, hfree, reduceCtorEq, decide_false, Bool.and_false, Bool.false_and,
      Bool.toNat_false, Option.some.injEq] at hborne ⊢
    omega
  | dig hnone hsolid =>
    rw [hsame rfl]
    simp only [hnone, hsolid, reduceCtorEq, decide_true, decide_false, Bool.and_true, Bool.and_false,
      Bool.true_and, Bool.toNat_false, Option.some.injEq, eq_comm (a := Resource.boulder)]
      at hborne ⊢
    omega
  | vain hshop hnone =>
    rw [hsame rfl]
    have hkeeps : (decide (b.carried = some k) && decide (g.resources[target]? = some .workshop)) =
        false := by
      by_cases hres : g.resources[target]? = some .workshop
      · simp [hshop hres]
      · simp [hres]
    have hleft : (decide (g.resources[target]? = none) && g.solid.contains target) = false := by
      by_cases hres : g.resources[target]? = none
      · simp [hnone hres]
      · simp [hres]
    simp only [hkeeps, hleft, Bool.and_false, Bool.false_and, Bool.toNat_false] at hborne ⊢
    omega

theorem stock_act (g : Grid) (u : UnitId) (k : Resource) :
    (g.act u).stock k + (g.delivers k u).toNat + (g.discards k u).toNat =
      g.stock k + (decide (k = .boulder) && g.digs u).toNat := by
  -- only the end of some work counts
  have hcalm : g.delivers k u = false → g.digs u = false → (g.act u).stock k = g.stock k →
      (g.act u).stock k + (g.delivers k u).toNat + (g.discards k u).toNat =
        g.stock k + (decide (k = .boulder) && g.digs u).toNat := by
    intro hdelivers hdigs hstock
    rw [discards, hdelivers, hdigs, hstock, Bool.false_and, Bool.and_false, Bool.toNat_false,
      Nat.add_zero]
  cases hfound : g.units[u]?.filter (·.alive) with
  | none =>
    have hdead : ∀ P : Body → Bool, (g.units[u]?.any fun b ↦ b.alive && P b) = false := by
      intro P
      cases hb : g.units[u]? with
      | none => rfl
      | some b =>
        rw [hb, Option.filter_eq_none_iff] at hfound
        simp [Bool.not_eq_true _ ▸ hfound b rfl]
    refine hcalm ?_ (hdead _) (by rw [act, hfound])
    simp only [delivers, Bool.and_assoc, hdead]
  | some b =>
    obtain ⟨hb, halive⟩ := Option.filter_eq_some_iff.1 hfound
    cases hdone : b.completes? with
    | some target => exact stock_finish hb halive hdone k
    | none =>
      obtain ⟨b', e, -, hleaves⟩ := turned_act hb halive
      have hcalmly := act_of_not_completes hb halive hdone
      refine hcalm (by simp [delivers, hb, hdone]) (by simp [digs, hb, hdone]) ?_
      have hcarried := hcalmly.carried
      rw [hleaves.own, hb, Option.map_some, Option.map_some, Option.some.injEq] at hcarried
      have hborne := borne_of_leaves hb hleaves k
      rw [hcarried] at hborne
      rw [stock, stock, lying, hcalmly.resources, lying]
      omega

def deliveries (g : Grid) (k : Resource) : Nat := g.moments.countP fun m ↦ m.1.delivers k m.2

def excavations (g : Grid) : Nat := g.moments.countP fun m ↦ m.1.digs m.2

/-- The resources of a kind that drop out of the hands of units in a step, when these dig. -/
def losses (g : Grid) (k : Resource) : Nat := g.moments.countP fun m ↦ m.1.discards k m.2

theorem stock_turns (us : List UnitId) (g : Grid) (k : Resource) :
    (us.foldl act g).stock k + (g.turns us).countP (fun m ↦ m.1.delivers k m.2) +
        (g.turns us).countP (fun m ↦ m.1.discards k m.2) =
      g.stock k + (g.turns us).countP fun m ↦ decide (k = .boulder) && m.1.digs m.2 := by
  induction us generalizing g with
  | nil => rfl
  | cons u us ih =>
    have hfirst := stock_act g u k
    have hrest := ih (g.act u)
    have htoNat : ∀ x : Bool, (if x = true then 1 else 0) = x.toNat := by decide
    rw [List.foldl_cons, turns]
    simp only [List.countP_cons, htoNat]
    omega

theorem losses_le_excavations (g : Grid) (k : Resource) : g.losses k ≤ g.excavations := by
  refine List.countP_mono_left fun m _ hm ↦ ?_
  rw [discards, Bool.and_eq_true] at hm
  exact hm.1

/-- A step takes from the stock of each kind what is delivered and what falls from the hands of units
that dig, and adds a boulder for each cube that is dug out. So all that is not delivered is still
there if it is boulders that are counted, and for other kinds exactly if no unit that digs has one
in its hands. -/
theorem stock_balance (g : Grid) (k : Resource) :
    g.step.stock k + g.deliveries k + g.losses k =
        g.stock k + (if k = .boulder then g.excavations else 0) ∧
      (g.stock k - g.deliveries k ≤ g.step.stock k ↔ k = .boulder ∨ g.losses k = 0) := by
  have hbalance : g.step.stock k + g.deliveries k + g.losses k =
      g.stock k + if k = .boulder then g.excavations else 0 := by
    refine (stock_turns g.units.keys { g with ticks := g.ticks + 1 } k).trans ?_
    change g.stock k + _ = _
    split
    · next hk => simp only [hk, decide_true, Bool.true_and, excavations, moments]
    · next hk => simp [hk]
  refine ⟨hbalance, ?_⟩
  rw [Nat.sub_le_iff_le_add]
  by_cases hk : k = .boulder
  · have hlosses := g.losses_le_excavations k
    rw [if_pos hk] at hbalance
    simp only [hk, true_or, iff_true]
    rw [hk] at hbalance hlosses
    omega
  · rw [if_neg hk] at hbalance
    simp only [hk, false_or]
    omega

def porter : Grid :=
  (ofSettings {}).run
    [.station ⟨1⟩ ⟨0⟩ ⟨0, 0, 0⟩, .deposit .log ⟨1, 0, 0⟩, .fill ⟨0, 1, 0⟩,
      .issue ⟨1⟩ (.work ⟨1, 0, 0⟩), .step, .step, .step,
      .issue ⟨1⟩ (.work ⟨0, 1, 0⟩), .step, .step]

/-- The log is gone after the step, though nothing was delivered. -/
theorem stock_drops_for_porter :
    porter.Reached ∧ porter.deliveries .log = 0 ∧ porter.stock .log = 1 ∧ porter.step.stock .log = 0 ∧
      ¬ porter.stock .log - porter.deliveries .log ≤ porter.step.stock .log := by
  refine ⟨(Reached.ofSettings {}).run _, ?_⟩
  decide +kernel

end Grid

end Errand
