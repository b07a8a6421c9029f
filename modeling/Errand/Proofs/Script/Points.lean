import Errand.Proofs.Script.Numbering
import Errand.Script.Marks

namespace Errand

namespace Marks

@[simp] theorem size_update (k : Marks) (id : Nat) (f : Mark → Mark) :
    (k.update id f).table.size = k.table.size := by
  simp [update]

theorem get_update {k : Marks} {id : Nat} (hid : id < k.table.size) (f : Mark → Mark) (j : Nat) :
    (k.update id f).get j = if j = id then f (k.get id) else k.get j := by
  rw [get, update, Array.getElem?_modify, get, get]
  by_cases hj : j = id
  · subst hj
    simp [hid]
  · have hj' : ¬ id = j := fun h ↦ hj h.symm
    simp [hj, hj']

theorem get_of_size_le {k : Marks} {j : Nat} (h : k.table.size ≤ j) : k.get j = {} := by
  simp [get, Array.getElem?_eq_none h]

@[simp] theorem size_clear (k : Marks) (ids : List Nat) :
    (k.clear ids).table.size = k.table.size := by
  induction ids generalizing k with
  | nil => rfl
  | cons id ids ih => rw [clear, List.foldl_cons, ← clear, ih, set, size_update]

theorem get_clear (k : Marks) (ids : List Nat) (j : Nat) :
    (k.clear ids).get j = if j ∈ ids then {} else k.get j := by
  induction ids generalizing k with
  | nil => simp [clear]
  | cons id ids ih =>
    rw [clear, List.foldl_cons, ← clear, ih, set]
    by_cases hid : id < k.table.size
    · rw [get_update hid]
      by_cases hj : j = id <;> simp [hj]
    · -- Clearing outside the table changes nothing, and what stands there counts as blank.
      have hsame : k.update id (fun _ ↦ {}) = k := by
        simp [update, Array.modify, Array.modifyM, hid]
      rw [hsame]
      by_cases hj : j = id
      · simp [hj, get_of_size_le (Nat.le_of_not_lt hid)]
      · simp [hj]

theorem get_blank (n j : Nat) : (blank n).get j = {} := by
  by_cases h : j < n <;> simp [get, blank, h]

theorem ext_get {k k' : Marks} (hsize : k.table.size = k'.table.size)
    (h : ∀ j, j < k.table.size → k.get j = k'.get j) : k = k' := by
  rcases k with ⟨t⟩
  rcases k' with ⟨t'⟩
  congr 1
  refine Array.ext hsize fun j hj hj' ↦ ?_
  simpa [get, hj, hj'] using h j hj

def BlankOn (k : Marks) (first n : Nat) : Prop :=
  ∀ j, first ≤ j → j < first + n → k.get j = {}

def SameOn (first n : Nat) (k k' : Marks) : Prop :=
  ∀ j, first ≤ j → j < first + n → k'.get j = k.get j

structure SameOff (first n : Nat) (k k' : Marks) : Prop where
  size : k'.table.size = k.table.size
  get : ∀ j, j < first ∨ first + n ≤ j → k'.get j = k.get j

variable {k k' : Marks} {first n lo len : Nat}

theorem BlankOn.mono (h : k.BlankOn first n) (hlo : first ≤ lo) (hhi : lo + len ≤ first + n) :
    k.BlankOn lo len := fun j hj hj' ↦ h j (by omega) (by omega)

theorem BlankOn.congr (h : k.BlankOn first n) (hs : SameOn first n k k') : k'.BlankOn first n :=
  fun j hj hj' ↦ (hs j hj hj').trans (h j hj hj')

theorem BlankOn.append (h : k.BlankOn first n) (h' : k.BlankOn (first + n) len) :
    k.BlankOn first (n + len) := by
  intro j hj hj'
  by_cases hn : j < first + n
  · exact h j hj hn
  · exact h' j (by omega) (by omega)

theorem BlankOn.sameOn (h : k.BlankOn first n) (h' : k'.BlankOn first n) : SameOn first n k k' :=
  fun j hj hj' ↦ (h' j hj hj').trans (h j hj hj').symm

theorem SameOn.mono (h : SameOn first n k k') (hlo : first ≤ lo) (hhi : lo + len ≤ first + n) :
    SameOn lo len k k' := fun j hj hj' ↦ h j (by omega) (by omega)

theorem SameOn.head (h : SameOn first n k k') (hn : 0 < n) : k'.get first = k.get first :=
  h first (Nat.le_refl first) (by omega)

theorem SameOn.append (h : SameOn first n k k') (h' : SameOn (first + n) len k k') :
    SameOn first (n + len) k k' := by
  intro j hj hj'
  by_cases hn : j < first + n
  · exact h j hj hn
  · exact h' j (by omega) (by omega)

theorem SameOn.cons (h : k'.get first = k.get first) (h' : SameOn (first + 1) n k k') :
    SameOn first (n + 1) k k' := by
  intro j hj hj'
  by_cases hn : j = first
  · rw [hn, h]
  · exact h' j (by omega) (by omega)

theorem SameOff.sameOn (h : SameOff first n k k') (hd : lo + len ≤ first ∨ first + n ≤ lo) :
    SameOn lo len k k' := fun j hj hj' ↦ h.get j (by omega)

theorem SameOff.refl (first n : Nat) (k : Marks) : SameOff first n k k := ⟨rfl, fun _ _ ↦ rfl⟩

theorem SameOff.trans {k'' : Marks} (h : SameOff first n k k') (h' : SameOff first n k' k'') :
    SameOff first n k k'' :=
  ⟨h'.size.trans h.size, fun j hj ↦ (h'.get j hj).trans (h.get j hj)⟩

theorem SameOff.mono (h : SameOff lo len k k') (hlo : first ≤ lo) (hhi : lo + len ≤ first + n) :
    SameOff first n k k' := ⟨h.size, fun j hj ↦ h.get j (by omega)⟩

theorem sameOff_clear (k : Marks) {ids : List Nat} (h : ∀ j ∈ ids, first ≤ j ∧ j < first + n) :
    SameOff first n k (k.clear ids) := by
  refine ⟨size_clear k ids, fun j hj ↦ ?_⟩
  rw [get_clear, if_neg fun hmem ↦ ?_]
  have := h j hmem
  omega

theorem sameOff_update (k : Marks) {id : Nat} (h : first ≤ id) (h' : id < first + n)
    (f : Mark → Mark) : SameOff first n k (k.update id f) := by
  refine ⟨size_update k id f, fun j hj ↦ ?_⟩
  by_cases hid : id < k.table.size
  · rw [get_update hid, if_neg (by omega)]
  · simp [update, Array.modify, Array.modifyM, hid]

end Marks

/-- The point at which a started statement goes on. -/
inductive Point where
  /-- Its own next step, which has not been taken. -/
  | step
  /-- Of an action: the command has gone out. -/
  | sent
  | inside (child : Nat) (p : Point)
  deriving DecidableEq, Repr

def Point.awaits : Point → Bool
  | step => false
  | sent => true
  | inside _ p => p.awaits

namespace Script

/-- The marks of a statement with number `id` and of all below it say that it goes on at a point. -/
inductive Holds (k : Marks) : Script → Nat → Point → Prop
  | child {loc : Location} {body before after : List Script} {s : Script} {id i : Nat} {p : Point} :
      body = before ++ s :: after → i = before.length →
      k.get id = { pending := true, cursor := i } → k.BlankOn (id + 1) (sizeAll before) →
      Holds k s (id + 1 + sizeAll before) p →
      k.BlankOn (id + 1 + sizeAll before + s.size) (sizeAll after) →
      Holds k (.sequence loc body) id (.inside i p)
  | undecided {loc : Location} {c : Expr} {yes no : Script} {id : Nat} :
      k.get id = { pending := true } → k.BlankOn (id + 1) (yes.size + no.size) →
      Holds k (.branch loc c yes no) id .step
  | yes {loc : Location} {c : Expr} {yes no : Script} {id : Nat} {p : Point} :
      k.get id = { pending := true, branch := some .yes } → Holds k yes (id + 1) p →
      k.BlankOn (id + 1 + yes.size) no.size → Holds k (.branch loc c yes no) id (.inside 0 p)
  | no {loc : Location} {c : Expr} {yes no : Script} {id : Nat} {p : Point} :
      k.get id = { pending := true, branch := some .no } → k.BlankOn (id + 1) yes.size →
      Holds k no (id + 1 + yes.size) p → Holds k (.branch loc c yes no) id (.inside 1 p)
  | check {loc : Location} {c : Expr} {body : Script} {id : Nat} :
      k.get id = { pending := true } → k.BlankOn (id + 1) body.size →
      Holds k (.loop loc c body) id .step
  | turn {loc : Location} {c : Expr} {body : Script} {id : Nat} {p : Point} :
      k.get id = { pending := true, owesTurn := true } → Holds k body (id + 1) p →
      Holds k (.loop loc c body) id (.inside 0 p)
  | leave {loc : Location} {id : Nat} : k.get id = { pending := true } → Holds k (.leave loc) id .step
  | assign {loc : Location} {name : String} {e : Expr} {id : Nat} :
      k.get id = { pending := true } → Holds k (.assign loc name e) id .step
  | print {loc : Location} {e : Expr} {id : Nat} :
      k.get id = { pending := true } → Holds k (.print loc e) id .step
  | unsent {loc : Location} {a : Action} {e : Expr} {id : Nat} :
      k.get id = { pending := true } → Holds k (.action loc a e) id .step
  | sent {loc : Location} {a : Action} {e : Expr} {id : Nat} :
      k.get id = { pending := true, issued := true } → Holds k (.action loc a e) id .sent

/-- A statement stands at a point, or has not been started. -/
def Stands (k : Marks) (s : Script) (id : Nat) : Option Point → Prop
  | none => k.BlankOn id s.size
  | some p => s.Holds k id p

theorem sizeAll_split {body before after : List Script} {s : Script}
    (h : body = before ++ s :: after) :
    sizeAll body = sizeAll before + s.size + sizeAll after := by
  rw [h, sizeAll_append, sizeAll, Nat.add_assoc]

variable {k k' : Marks} {s : Script} {id : Nat} {p : Point}

theorem Holds.pending (h : s.Holds k id p) : k.pending id = true := by
  cases h <;> simp_all [Marks.pending]

theorem Holds.congr (h : s.Holds k id p) (hk : Marks.SameOn id s.size k k') : s.Holds k' id p := by
  have hroot := hk.head s.size_pos
  induction h with
  | @child loc body before after s id i p hb hi hid hbefore hs hafter ih =>
    rw [size, sizeAll_split hb] at hk
    have hchild : Marks.SameOn (id + 1 + sizeAll before) s.size k k' :=
      hk.mono (by omega) (by omega)
    exact .child hb hi (hroot.trans hid) (hbefore.congr (hk.mono (by omega) (by omega)))
      (ih hchild (hchild.head (size_pos _))) (hafter.congr (hk.mono (by omega) (by omega)))
  | undecided hid hb =>
    rw [size] at hk
    exact .undecided (hroot.trans hid) (hb.congr (hk.mono (by omega) (by omega)))
  | @yes loc c yes no id p hid hs hb ih =>
    rw [size] at hk
    have hchild : Marks.SameOn (id + 1) yes.size k k' := hk.mono (by omega) (by omega)
    exact .yes (hroot.trans hid) (ih hchild (hchild.head (size_pos _)))
      (hb.congr (hk.mono (by omega) (by omega)))
  | @no loc c yes no id p hid hb hs ih =>
    rw [size] at hk
    have hchild : Marks.SameOn (id + 1 + yes.size) no.size k k' := hk.mono (by omega) (by omega)
    exact .no (hroot.trans hid) (hb.congr (hk.mono (by omega) (by omega)))
      (ih hchild (hchild.head (size_pos _)))
  | check hid hb =>
    rw [size] at hk
    exact .check (hroot.trans hid) (hb.congr (hk.mono (by omega) (by omega)))
  | @turn loc c body id p hid hs ih =>
    rw [size] at hk
    have hchild : Marks.SameOn (id + 1) body.size k k' := hk.mono (by omega) (by omega)
    exact .turn (hroot.trans hid) (ih hchild (hchild.head (size_pos _)))
  | leave hid => exact .leave (hroot.trans hid)
  | assign hid => exact .assign (hroot.trans hid)
  | print hid => exact .print (hroot.trans hid)
  | unsent hid => exact .unsent (hroot.trans hid)
  | sent hid => exact .sent (hroot.trans hid)

theorem Holds.sameOn (h : s.Holds k id p) (h' : s.Holds k' id p) : Marks.SameOn id s.size k k' := by
  induction h with
  | child hb hi hid hbefore hs hafter ih =>
    cases h' with
    | child hb' hi' hid' hbefore' hs' hafter' =>
      obtain ⟨rfl, hrest⟩ := List.append_inj (hb.symm.trans hb') (hi.symm.trans hi')
      obtain ⟨rfl, rfl⟩ := List.cons.inj hrest
      rw [size, sizeAll_split hb]
      exact .cons (hid'.trans hid.symm)
        (((hbefore.sameOn hbefore').append (ih hs')).append
          (by simpa only [Nat.add_assoc] using hafter.sameOn hafter'))
  | undecided hid hb =>
    cases h' with
    | undecided hid' hb' =>
      rw [size]
      exact .cons (hid'.trans hid.symm) (hb.sameOn hb')
  | yes hid hs hb ih =>
    cases h' with
    | yes hid' hs' hb' =>
      rw [size]
      exact .cons (hid'.trans hid.symm) ((ih hs').append (hb.sameOn hb'))
  | no hid hb hs ih =>
    cases h' with
    | no hid' hb' hs' =>
      rw [size]
      exact .cons (hid'.trans hid.symm) ((hb.sameOn hb').append (ih hs'))
  | check hid hb =>
    cases h' with
    | check hid' hb' =>
      rw [size]
      exact .cons (hid'.trans hid.symm) (hb.sameOn hb')
  | turn hid hs ih =>
    cases h' with
    | turn hid' hs' =>
      rw [size]
      exact .cons (hid'.trans hid.symm) (ih hs')
  | leave hid | assign hid | print hid | unsent hid | sent hid =>
    cases h' with
    | _ hid' => exact .cons (hid'.trans hid.symm) (fun j hj hj' ↦ by omega)

theorem not_pending_of_blank {n : Nat} (h : k.BlankOn id n) (hn : 0 < n) : k.pending id = false := by
  simp [Marks.pending, h id (Nat.le_refl id) (by omega)]

theorem awaitsAmong_append {before : List Script} (ss : List Script) {first : Nat}
    (h : k.BlankOn first (sizeAll before)) :
    awaitsAmong k (before ++ ss) first = awaitsAmong k ss (first + sizeAll before) := by
  induction before generalizing first with
  | nil => simp [sizeAll]
  | cons s before ih =>
    rw [sizeAll] at h
    have hs : k.pending first = false :=
      not_pending_of_blank h (Nat.add_pos_left s.size_pos _)
    rw [List.cons_append, awaitsAmong, hs, if_neg Bool.false_ne_true,
      ih (h.mono (by omega) (by omega)), sizeAll, Nat.add_assoc]

theorem awaits_of_not_pending (s : Script) (h : k.pending id = false) : s.awaits k id = false := by
  cases s <;> simp [Script.awaits, h]

theorem Holds.awaits (h : s.Holds k id p) : s.awaits k id = p.awaits := by
  have hp := h.pending
  induction h with
  | child hb hi hid hbefore hs hafter ih =>
    rw [Script.awaits, hp, hb, awaitsAmong_append _ hbefore, awaitsAmong, hs.pending, if_pos rfl,
      ih hs.pending]
    rfl
  | @undecided loc c yes no id hid hb =>
    have hy := not_pending_of_blank (hb.mono (Nat.le_refl _) (by omega)) yes.size_pos
    have hn := not_pending_of_blank (hb.mono (Nat.le_add_right _ yes.size) (by omega)) no.size_pos
    rw [Script.awaits, hy, if_neg Bool.false_ne_true, awaits_of_not_pending no hn, Bool.and_false]
    rfl
  | yes hid hs hb ih =>
    rw [Script.awaits, hp, hs.pending, if_pos rfl, ih hs.pending]
    rfl
  | @no loc c yes no id p hid hb hs ih =>
    rw [Script.awaits, hp, not_pending_of_blank hb yes.size_pos, if_neg Bool.false_ne_true,
      ih hs.pending]
    rfl
  | @check loc c body id hid hb =>
    rw [Script.awaits, awaits_of_not_pending body (not_pending_of_blank hb body.size_pos),
      Bool.and_false]
    rfl
  | turn hid hs ih =>
    rw [Script.awaits, hp, ih hs.pending]
    rfl
  | leave | assign | print => rfl
  | unsent hid | sent hid =>
    rw [Script.awaits, hp, hid]
    rfl

end Script

end Errand
