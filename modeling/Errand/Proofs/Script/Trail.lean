import Errand.Proofs.Script.Points

namespace Errand

/-- The child that the mark of a statement selects: the one at the cursor of a sequence, the chosen
branch of an `if`, the body of a loop that owes a turn. -/
def Site.selected? (k : Marks) (site : Site) : Option Nat :=
  match site.script with
  | .sequence _ _ => site.children[(k.get site.id).cursor]?
  | .branch _ _ _ _ =>
    match (k.get site.id).branch with
    | some .yes => site.children[0]?
    | some .no => site.children[1]?
    | none => none
  | .loop _ _ _ => if (k.get site.id).owesTurn then site.children[0]? else none
  | _ => none

/-- The statement has a step of its own that is still to be taken. -/
def Site.untaken (k : Marks) (site : Site) : Bool :=
  match site.script with
  | .assign _ _ _ | .print _ _ | .leave _ => true
  | .action _ _ _ => !(k.get site.id).issued
  | .branch _ _ _ _ => (k.get site.id).branch.isNone
  | .loop _ _ _ => !(k.get site.id).owesTurn
  | .sequence _ _ | .void _ => false

def Site.sent (k : Marks) (site : Site) : Bool :=
  match site.script with
  | .action _ _ _ => (k.get site.id).issued
  | _ => false

/-- Of the `n` statements from number `first` on, `way` are started, each selects the next, and the
marks of the others are blank. -/
structure Marks.ChainOn (k : Marks) (sites : List Site) (first n : Nat) (way : List Nat) : Prop where
  bounds : ∀ j ∈ way, first ≤ j ∧ j < first + n
  sorted : way.Pairwise (· < ·)
  pending : ∀ j ∈ way, k.pending j = true
  blank : ∀ j, first ≤ j → j < first + n → j ∉ way → k.get j = {}
  follows : ∀ a below, a :: below <:+ way →
    ∃ site ∈ sites, site.id = a ∧ site.selected? k = below.head?

/-- The started statements are one chain from the root down. Its statements select one another, and
the marks off it are blank. -/
structure Script.OneChain (s : Script) (k : Marks) : Prop where
  count : k.startedCount = (s.trail k).length
  started : ∀ j, k.pending j = true ↔ j ∈ s.trail k
  blank : ∀ j, k.pending j = false → k.get j = {}
  root : ∀ a ∈ (s.trail k).head?, a = 0
  follows : ∀ a below, a :: below <:+ s.trail k →
    ∃ site, s.site? a = some site ∧ site.selected? k = below.head?

namespace Marks

variable {k : Marks} {sites : List Site} {first n lo len : Nat} {way : List Nat}

theorem blankOn_empty (k : Marks) (first : Nat) (hn : n = 0) : k.BlankOn first n :=
  fun j hj hj' ↦ by omega

theorem BlankOn.chainOn (h : k.BlankOn first n) : k.ChainOn sites first n [] where
  bounds := by simp
  sorted := .nil
  pending := by simp
  blank j hj hj' _ := h j hj hj'
  follows a below h := by simp at h

theorem ChainOn.cons {below : List Site} (h : k.ChainOn below lo len way) {site : Site}
    (hsite : site ∈ sites) (hbelow : below ⊆ sites) (hpending : k.pending site.id = true)
    (hselected : site.selected? k = way.head?) (hlo : site.id < lo) (hlen : lo + len ≤ site.id + n)
    (hbefore : k.BlankOn (site.id + 1) (lo - (site.id + 1)))
    (hafter : k.BlankOn (lo + len) (site.id + n - (lo + len))) :
    k.ChainOn sites site.id n (site.id :: way) where
  bounds j hj := by
    rcases List.mem_cons.mp hj with rfl | hj
    · omega
    · have := h.bounds j hj
      omega
  sorted := List.pairwise_cons.mpr ⟨fun j hj ↦ by have := h.bounds j hj; omega, h.sorted⟩
  pending j hj := by
    rcases List.mem_cons.mp hj with rfl | hj
    · exact hpending
    · exact h.pending j hj
  blank j hj hj' hway := by
    rw [List.mem_cons, not_or] at hway
    by_cases hb : j < lo
    · exact hbefore j (by omega) (by omega)
    · by_cases ha : j < lo + len
      · exact h.blank j (by omega) ha hway.2
      · exact hafter j (by omega) (by omega)
  follows a rest hsuffix := by
    rcases List.suffix_cons_iff.mp hsuffix with heq | hsuffix
    · obtain ⟨rfl, rfl⟩ := List.cons.inj heq
      exact ⟨site, hsite, rfl, hselected⟩
    · obtain ⟨s, hs, hid, hnext⟩ := h.follows a rest hsuffix
      exact ⟨s, hbelow hs, hid, hnext⟩

theorem startedCount_eq (k : Marks) :
    k.startedCount = ((List.range k.table.size).filter k.pending).length := by
  have htable : k.table.toList = (List.range k.table.size).map k.get := by
    refine List.ext_getElem (by simp) fun j hj hj' ↦ ?_
    have hj : j < k.table.size := by simpa using hj
    simp [get, hj]
  rw [startedCount, ← Array.countP_toList, htable, List.countP_map, List.countP_eq_length_filter]
  rfl

end Marks

namespace Script

variable {k : Marks}

theorem numbered_append (before : List Script) (s : Script) (after : List Script) (first : Nat) :
    (numbered first (before ++ s :: after))[before.length]? = some (first + sizeAll before) := by
  induction before generalizing first with
  | nil => simp [numbered, sizeAll]
  | cons t before ih =>
    rw [List.cons_append, numbered, List.length_cons, List.getElem?_cons_succ, ih, sizeAll,
      Nat.add_assoc]

theorem sitesFrom_subset_sitesAll (before : List Script) (s : Script) (after : List Script)
    (first : Nat) (above : List Ancestor) :
    s.sitesFrom (first + sizeAll before) above ⊆ sitesAll first above (before ++ s :: after) := by
  induction before generalizing first with
  | nil =>
    rw [List.nil_append, sitesAll, sizeAll, Nat.add_zero]
    exact List.subset_append_left _ _
  | cons t before ih =>
    rw [List.cons_append, sitesAll, sizeAll, ← Nat.add_assoc]
    exact List.Subset.trans (ih (first + t.size)) (List.subset_append_right _ _)

theorem trailAmong_append {before : List Script} (ss : List Script) {first : Nat}
    (h : k.BlankOn first (sizeAll before)) :
    trailAmong k (before ++ ss) first = trailAmong k ss (first + sizeAll before) := by
  induction before generalizing first with
  | nil => simp [sizeAll]
  | cons s before ih =>
    rw [sizeAll] at h
    have hs : k.pending first = false := not_pending_of_blank h (Nat.add_pos_left s.size_pos _)
    rw [List.cons_append, trailAmong, hs, if_neg Bool.false_ne_true,
      ih (h.mono (by omega) (by omega)), sizeAll, Nat.add_assoc]

theorem trailFrom_of_not_pending (s : Script) {id : Nat} (h : k.pending id = false) :
    s.trailFrom k id = [] := by
  cases s <;> simp [trailFrom, h]

theorem trailFrom_head (s : Script) {id : Nat} (h : k.pending id = true) :
    (s.trailFrom k id).head? = some id := by
  cases s <;> simp [trailFrom, h]

variable {s : Script} {id : Nat} {above : List Ancestor} {p : Point}

theorem site_mem_sitesFrom (s : Script) (id : Nat) (above : List Ancestor) :
    (⟨id, s, above⟩ : Site) ∈ s.sitesFrom id above := by
  cases s <;> simp [sitesFrom]

structure StopsAt (k : Marks) (s : Script) (id : Nat) (above : List Ancestor) : Prop where
  trail : s.trailFrom k id = [id]
  selected : (⟨id, s, above⟩ : Site).selected? k = none
  blank : k.BlankOn (id + 1) (s.size - 1)

theorem Holds.stopsAt_of_step (h : s.Holds k id .step) (above : List Ancestor) :
    s.StopsAt k id above := by
  have hp := h.pending
  cases h with
  | @undecided _ _ yes no _ hid hb =>
    have hy := not_pending_of_blank (hb.mono (Nat.le_refl _) (by omega)) yes.size_pos
    have hn := not_pending_of_blank (hb.mono (Nat.le_add_right _ yes.size) (by omega)) no.size_pos
    exact ⟨by simp [trailFrom, hp, hy, trailFrom_of_not_pending no hn], by simp [Site.selected?, hid],
      hb.mono (Nat.le_refl _) (by simp [size])⟩
  | @check _ _ body _ hid hb =>
    have hbody := not_pending_of_blank hb body.size_pos
    exact ⟨by simp [trailFrom, hp, trailFrom_of_not_pending body hbody],
      by simp [Site.selected?, hid], hb.mono (Nat.le_refl _) (by simp [size])⟩
  | leave | assign | print | unsent =>
    exact ⟨by simp [trailFrom, hp], rfl, k.blankOn_empty _ rfl⟩

theorem Holds.stopsAt_of_sent (h : s.Holds k id .sent) (above : List Ancestor) :
    s.StopsAt k id above := by
  have hp := h.pending
  cases h with
  | sent => exact ⟨by simp [trailFrom, hp], rfl, k.blankOn_empty _ rfl⟩

theorem Holds.untaken (h : s.Holds k id .step) (above : List Ancestor) :
    (⟨id, s, above⟩ : Site).untaken k = true := by
  cases h with
  | undecided hid | check hid | unsent hid => simp [Site.untaken, hid]
  | leave | assign | print => rfl

theorem Holds.sent_of_sent (h : s.Holds k id .sent) (above : List Ancestor) :
    (⟨id, s, above⟩ : Site).sent k = true := by
  cases h with
  | sent hid => simp [Site.sent, hid]

/-- A statement goes on inside child `i`, which has number `first`. -/
structure GoesInside (k : Marks) (s : Script) (id : Nat) (above : List Ancestor) (i : Nat)
    (child : Script) (first : Nat) (aboveChild : List Ancestor) : Prop where
  children : s.children[i]? = some child
  trail : s.trailFrom k id = id :: child.trailFrom k first
  selected : (⟨id, s, above⟩ : Site).selected? k = some first
  lo : id < first
  hi : first + child.size ≤ id + s.size
  before : k.BlankOn (id + 1) (first - (id + 1))
  after : k.BlankOn (first + child.size) (id + s.size - (first + child.size))
  sites : child.sitesFrom first aboveChild ⊆ s.sitesFrom id above
  moves : ∀ k' p', Marks.SameOff first child.size k k' → child.Holds k' first p' →
    s.Holds k' id (.inside i p')

theorem Holds.goesInside {i : Nat} (h : s.Holds k id (.inside i p)) (above : List Ancestor) :
    ∃ child first aboveChild, child.Holds k first p ∧
      s.GoesInside k id above i child first aboveChild := by
  have hp := h.pending
  cases h with
  | @child loc body before after s _ _ _ hb hi hid hbefore hs hafter =>
    subst hb hi
    refine ⟨s, id + 1 + sizeAll before, ⟨id, false⟩ :: above, hs, ?_⟩
    have hsize : (sequence loc (before ++ s :: after)).size =
        sizeAll before + s.size + sizeAll after + 1 := by rw [size, sizeAll_split rfl]
    constructor
    · simp [children]
    · rw [trailFrom, if_pos hp, trailAmong_append _ hbefore, trailAmong, if_pos hs.pending]
    · simp only [Site.selected?, hid]
      exact numbered_append before s after (id + 1)
    · omega
    · omega
    · exact hbefore.mono (Nat.le_refl _) (by omega)
    · exact hafter.mono (Nat.le_refl _) (by omega)
    · rw [sitesFrom]
      exact List.Subset.trans (sitesFrom_subset_sitesAll before s after _ _)
        (List.subset_cons_self _ _)
    · intro k' p' hk hp'
      exact .child rfl rfl ((hk.get id (by omega)).trans hid) (hbefore.congr (hk.sameOn (by omega)))
        hp' (hafter.congr (hk.sameOn (by omega)))
  | @yes _ _ yes no _ _ hid hs hb =>
    refine ⟨yes, id + 1, ⟨id, false⟩ :: above, hs, ?_⟩
    constructor
    · rfl
    · rw [trailFrom, if_pos hp, if_pos hs.pending]
    · simp [Site.selected?, hid, Site.children, children, numbered]
    · omega
    · rw [size]; omega
    · exact k.blankOn_empty _ (by omega)
    · exact hb.mono (Nat.le_refl _) (by rw [size]; omega)
    · rw [sitesFrom]
      exact List.Subset.trans (List.subset_append_left _ _) (List.subset_cons_self _ _)
    · intro k' p' hk hp'
      exact .yes ((hk.get id (by omega)).trans hid) hp' (hb.congr (hk.sameOn (by omega)))
  | @no _ _ yes no _ _ hid hb hs =>
    refine ⟨no, id + 1 + yes.size, ⟨id, false⟩ :: above, hs, ?_⟩
    constructor
    · rfl
    · rw [trailFrom, if_pos hp, not_pending_of_blank hb yes.size_pos, if_neg Bool.false_ne_true]
    · simp [Site.selected?, hid, Site.children, children, numbered]
    · omega
    · rw [size]; omega
    · exact hb.mono (Nat.le_refl _) (by omega)
    · exact k.blankOn_empty _ (by rw [size]; omega)
    · rw [sitesFrom]
      exact List.Subset.trans (List.subset_append_right _ _) (List.subset_cons_self _ _)
    · intro k' p' hk hp'
      exact .no ((hk.get id (by omega)).trans hid) (hb.congr (hk.sameOn (by omega))) hp'
  | @turn _ _ body _ _ hid hs =>
    refine ⟨body, id + 1, ⟨id, true⟩ :: above, hs, ?_⟩
    constructor
    · rfl
    · rw [trailFrom, if_pos hp]
    · simp [Site.selected?, hid, Site.children, children, numbered]
    · omega
    · rw [size]; omega
    · exact k.blankOn_empty _ (by omega)
    · exact k.blankOn_empty _ (by rw [size]; omega)
    · rw [sitesFrom]
      exact List.subset_cons_self _ _
    · intro k' p' hk hp'
      exact .turn ((hk.get id (by omega)).trans hid) hp'

theorem StopsAt.chainOn (h : s.StopsAt k id above) (hp : k.pending id = true) :
    k.ChainOn (s.sitesFrom id above) id s.size (s.trailFrom k id) := by
  have hsize := s.size_pos
  have hchain : k.ChainOn [] (id + 1) (s.size - 1) [] := h.blank.chainOn
  rw [h.trail]
  exact hchain.cons (s.site_mem_sitesFrom id above) (List.nil_subset _) hp h.selected
    (Nat.lt_succ_self id) (by simp only; omega) (k.blankOn_empty _ (by simp only; omega))
    (k.blankOn_empty _ (by simp only; omega))

theorem Holds.chainOn (h : s.Holds k id p) (above : List Ancestor) :
    k.ChainOn (s.sitesFrom id above) id s.size (s.trailFrom k id) := by
  induction p generalizing s id above with
  | step => exact (h.stopsAt_of_step above).chainOn h.pending
  | sent => exact (h.stopsAt_of_sent above).chainOn h.pending
  | inside i p ih =>
    obtain ⟨child, first, aboveChild, hchild, hin⟩ := h.goesInside above
    rw [hin.trail]
    refine (ih hchild aboveChild).cons (s.site_mem_sitesFrom id above) hin.sites h.pending ?_ hin.lo
      hin.hi hin.before hin.after
    rw [hin.selected, trailFrom_head child hchild.pending]

theorem Holds.current (h : s.Holds k id p) (above : List Ancestor) :
    ∃ site ∈ s.sitesFrom id above, (s.trailFrom k id).getLast? = some site.id ∧
      (if p.awaits then site.sent k else site.untaken k) = true := by
  induction p generalizing s id above with
  | step =>
    exact ⟨⟨id, s, above⟩, s.site_mem_sitesFrom id above, by rw [(h.stopsAt_of_step above).trail]; rfl,
      h.untaken above⟩
  | sent =>
    exact ⟨⟨id, s, above⟩, s.site_mem_sitesFrom id above, by rw [(h.stopsAt_of_sent above).trail]; rfl,
      h.sent_of_sent above⟩
  | inside i p ih =>
    obtain ⟨child, first, aboveChild, hchild, hin⟩ := h.goesInside above
    obtain ⟨site, hsite, hlast, hstep⟩ := ih hchild aboveChild
    refine ⟨site, hin.sites hsite, ?_, hstep⟩
    rw [hin.trail, List.getLast?_cons, hlast]
    rfl

theorem oneChain_of_chainOn (hsize : k.table.size = s.size)
    (h : k.ChainOn s.sites 0 s.size (s.trail k)) : s.OneChain k := by
  have hblank : ∀ j, j ∉ s.trail k → k.get j = {} := by
    intro j hj
    by_cases hlt : j < s.size
    · exact h.blank j (Nat.zero_le j) (by omega) hj
    · exact Marks.get_of_size_le (by omega)
  have hstarted : ∀ j, k.pending j = true ↔ j ∈ s.trail k := by
    refine fun j ↦ ⟨fun hj ↦ ?_, h.pending j⟩
    by_contra hway
    simp [Marks.pending, hblank j hway] at hj
  constructor
  · rw [Marks.startedCount_eq]
    refine List.Perm.length_eq ?_
    rw [List.perm_ext_iff_of_nodup (List.nodup_range.filter _) (h.sorted.imp Nat.ne_of_lt)]
    intro j
    rw [List.mem_filter, List.mem_range, hstarted, hsize]
    exact ⟨And.right, fun hj ↦ ⟨by have := h.bounds j hj; omega, hj⟩⟩
  · exact hstarted
  · exact fun j hj ↦ hblank j fun hway ↦ by simp [h.pending j hway] at hj
  · intro a ha
    by_cases hp : k.pending 0 = true
    · rw [trail, trailFrom_head s hp] at ha
      exact (Option.some.inj ha).symm
    · rw [trail, trailFrom_of_not_pending s (Bool.eq_false_iff.mpr hp)] at ha
      cases ha
  · intro a below hsuffix
    obtain ⟨site, hsite, rfl, hnext⟩ := h.follows a below hsuffix
    exact ⟨site, site?_of_mem hsite, hnext⟩

theorem Stands.oneChain {q : Option Point} (h : s.Stands k 0 q) (hsize : k.table.size = s.size) :
    s.OneChain k := by
  refine oneChain_of_chainOn hsize ?_
  cases q with
  | none =>
    have hp : k.pending 0 = false := not_pending_of_blank h s.size_pos
    rw [trail, trailFrom_of_not_pending s hp]
    exact Marks.BlankOn.chainOn h
  | some p => exact Holds.chainOn h []

end Script

end Errand
