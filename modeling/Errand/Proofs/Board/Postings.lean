import Errand.Proofs.Board.Audit
import Errand.Proofs.Board.Frame
import Errand.Proofs.Board.Order
import Errand.Proofs.Board.Setup
import Mathlib.Data.List.Forall2

namespace Errand

section Factions

variable {g : Grid} {f : FactionId}

def Grid.Hosts (g : Grid) (f : FactionId) : Prop :=
  ∃ (u : UnitId) (body : Body), g.units[u]? = some body ∧ body.faction = f

theorem Grid.values_units (g : Grid) : g.units.values = g.units.toList.map (·.2) := by
  have hvalues : g.units.values = g.units.foldr (fun _ body l ↦ body :: l) [] := rfl
  rw [hvalues, Std.TreeMap.foldr_eq_foldr_toList, List.foldr_cons_eq_append, List.append_nil]

theorem mem_foldl_insert_faction (l : List Body) (fs : Std.TreeSet FactionId) :
    f ∈ l.foldl (fun fs body ↦ fs.insert body.faction) fs ↔ f ∈ fs ∨ ∃ body ∈ l, body.faction = f := by
  induction l generalizing fs with
  | nil => simp
  | cons body l ih =>
    rw [List.foldl_cons, ih, Std.TreeSet.mem_insert, Std.LawfulEqOrd.compare_eq_iff_eq,
      List.exists_mem_cons_iff]
    grind

theorem Grid.mem_factions : f ∈ g.factions ↔ g.Hosts f := by
  have hmem : ∀ body, body ∈ g.units.values ↔ ∃ u : UnitId, g.units[u]? = some body := by
    intro body
    rw [g.values_units, List.mem_map]
    constructor
    · rintro ⟨⟨u, body⟩, hmem, rfl⟩
      exact ⟨u, Std.TreeMap.mem_toList_iff_getElem?_eq_some.mp hmem⟩
    · rintro ⟨u, hu⟩
      exact ⟨(u, body), Std.TreeMap.mem_toList_iff_getElem?_eq_some.mpr hu, rfl⟩
  rw [factions, Std.TreeSet.mem_toList, mem_foldl_insert_faction, Hosts]
  simp only [Std.TreeSet.not_mem_emptyc, false_or, hmem]
  grind

theorem Grid.nodup_factions (g : Grid) : g.factions.Nodup := by
  refine (Std.TreeSet.distinct_toList).imp ?_
  intro a c h e
  simp [e] at h

theorem Grid.mem_audience {fs : List FactionId} :
    f ∈ g.audience fs ↔ f ∈ fs ∨ fs = [] ∧ g.Hosts f := by
  rw [audience, ← mem_factions]
  cases fs <;> simp

theorem Grid.nodup_audience {fs : List FactionId} : (g.audience fs).Nodup ↔ fs.Nodup := by
  rw [audience]
  cases fs <;> simp [g.nodup_factions]

end Factions

namespace Board

variable {b b' b'' : Board} {s : PoolId} {t : TaskId} {x y : Task} {f : FactionId}
  {ids ids' : List TaskId} {fs fs' : List FactionId}

/-- Of the tasks only `ids` differ, and there are new pools, for those of `fs` that had none. -/
structure Adds (b : Board) (ids : List TaskId) (fs : List FactionId) (b' : Board) : Prop where
  linked : b'.Linked
  nodup : b'.owners.Nodup
  kept : b.owners <+: b'.owners
  owners : ∀ f, f ∈ b'.owners ↔ f ∈ b.owners ∨ f ∈ fs
  scheduler : b'.scheduler = b.scheduler
  tasks : ∀ t, t ∉ ids → b'.tasks[t]? = b.tasks[t]?
  waiting : ∀ s, (b'.waitingIn s).filter (fun t ↦ t ∉ ids) = (b.waitingIn s).filter fun t ↦ t ∉ ids
  assigned : ∀ s, b'.assignedIn s = b.assignedIn s

namespace Adds

theorem refl (hb : b.Linked) (hn : b.owners.Nodup) : Adds b [] [] b where
  linked := hb
  nodup := hn
  kept := List.prefix_rfl
  owners f := by simp
  scheduler := rfl
  tasks _ _ := rfl
  waiting _ := rfl
  assigned _ := rfl

theorem trans (h : Adds b ids fs b') (h' : Adds b' ids fs' b'') : Adds b ids (fs ++ fs') b'' where
  linked := h'.linked
  nodup := h'.nodup
  kept := h.kept.trans h'.kept
  owners f := by rw [h'.owners, h.owners, List.mem_append, or_assoc]
  scheduler := h'.scheduler.trans h.scheduler
  tasks t ht := (h'.tasks t ht).trans (h.tasks t ht)
  waiting s := (h'.waiting s).trans (h.waiting s)
  assigned s := (h'.assigned s).trans (h.assigned s)

theorem mono (h : Adds b ids fs b') (hsub : ids ⊆ ids') : Adds b ids' fs b' where
  linked := h.linked
  nodup := h.nodup
  kept := h.kept
  owners := h.owners
  scheduler := h.scheduler
  tasks t ht := h.tasks t fun hmem ↦ ht (hsub hmem)
  waiting s := by
    have hfilter : ∀ l : List TaskId,
        l.filter (fun t ↦ t ∉ ids') = (l.filter fun t ↦ t ∉ ids).filter fun t ↦ t ∉ ids' := by
      intro l
      rw [List.filter_filter]
      refine List.filter_congr fun t _ ↦ ?_
      grind
    rw [hfilter, h.waiting, ← hfilter]
  assigned := h.assigned

theorem poolOf?_eq (h : Adds b ids fs b') (hf : f ∈ b.owners) : b'.poolOf? f = b.poolOf? f := by
  have hn : b.owners.Nodup := h.nodup.sublist h.kept.sublist
  obtain ⟨i, hi⟩ := List.mem_iff_getElem?.mp hf
  have hlt := (List.getElem?_eq_some_iff.mp hi).1
  have hi' : b'.owners[i]? = some f := by
    rw [List.prefix_iff_getElem?.mp h.kept i hlt, ← hi, List.getElem?_eq_getElem hlt]
  rw [(poolOf?_eq_some (s := ⟨i⟩) hn).mpr hi, (poolOf?_eq_some (s := ⟨i⟩) h.nodup).mpr hi']

end Adds

/-- Task `y` is `x` as it waits in the pools of some factions, under number `t`. -/
structure Offered (b : Board) (t : TaskId) (x : Task) (fs : List FactionId) (y : Task) : Prop where
  task : b.tasks[t]? = some y
  fields : y = { x.unlinked with pools := y.pools }
  owners : ∀ f ∈ fs, f ∈ b.owners
  pools : ∀ s, y.pools.contains s = true ↔ ∃ f ∈ fs, b.poolOf? f = some s

theorem Offered.of_adds (h : Offered b t x fs y) (hadds : Adds b ids fs' b') (ht : t ∉ ids) :
    Offered b' t x fs y where
  task := (hadds.tasks t ht).trans h.task
  fields := h.fields
  owners f hf := hadds.kept.subset (h.owners f hf)
  pools s := by
    rw [h.pools]
    refine exists_congr fun f ↦ and_congr_right fun hf ↦ ?_
    rw [hadds.poolOf?_eq (h.owners f hf)]

/-- What a posting asks for is on the board: a task that nobody has begun, which waits in the pools of
the listed factions, or of all factions of the grid if none is listed, and in no other. -/
structure Shows (b : Board) (g : Grid) (priority : Int32) (e : Posting) (t : TaskId) : Prop where
  task : ∃ x y, Task.ofSpec e.task priority = .ok x ∧ b.tasks[t]? = some y ∧
    y = { x with pools := y.pools } ∧ y.executor = none ∧ y.program = none ∧ y.terminated = false ∧
    y.priority = e.task.priority.getD priority
  waits : ∀ s, t ∈ b.waitingIn s ↔
    ∃ f, (f ∈ e.factions ∨ e.factions = [] ∧ g.Hosts f) ∧ b.poolOf? f = some s
  unassigned : ∀ s, t ∉ b.assignedIn s

theorem Offered.shows (hb : b.Linked) {g : Grid} {e : Posting} {priority : Int32}
    (hx : Task.ofSpec e.task priority = .ok x) (h : Offered b t x (g.audience e.factions) y) :
    b.Shows g priority e t := by
  have hfit := hb.fits_some h.task
  obtain ⟨script, -, hspec⟩ := Task.exists_eq_of_ofSpec hx
  have hfields : y = { x with pools := y.pools } := by
    rw [h.fields, hspec]
    rfl
  have hexec : y.executor = none := by rw [hfields, hspec]
  have hholds : ∀ s, b.holds t s = 0 := by
    intro s
    by_contra hpos
    have hsome := (hfit.held y rfl).mpr ⟨s, Nat.pos_of_ne_zero hpos⟩
    simp [hexec] at hsome
  constructor
  · refine ⟨x, y, hx, h.task, hfields, hexec, ?_, ?_, ?_⟩ <;> rw [hfields, hspec]
  · intro s
    have hlisted := hfit.listed s
    rw [hholds, Nat.add_zero, Option.any_some] at hlisted
    simp only [← Grid.mem_audience]
    rw [← h.pools, ← List.count_pos_iff]
    change 0 < b.waits t s ↔ _
    rw [hlisted]
    cases y.pools.contains s <;> simp
  · exact fun s ↦ List.count_eq_zero.mp (hholds s)

theorem adds_withPool (hb : b.Linked) (hn : b.owners.Nodup) (hf : b.poolOf? f = none) :
    Adds b [] [f] (b.withPool f) where
  linked := hb.withPool f
  nodup := nodup_owners_withPool hn hf
  kept := by
    rw [owners_withPool]
    exact List.prefix_append _ _
  owners f' := by rw [owners_withPool, List.mem_append]
  scheduler := rfl
  tasks _ _ := rfl
  waiting s := by rw [waitingIn_withPool]
  assigned := assignedIn_withPool b f

theorem adds_withTask (hb : b.Linked) (hn : b.owners.Nodup) (ht : b.tasks[t]? = none) (x : Task) :
    Adds b [t] [] (b.withTask t x) where
  linked := hb.withTask ht x
  nodup := hn
  kept := List.prefix_rfl
  owners f := by simp [Board.owners, withTask]
  scheduler := rfl
  tasks t' ht' := (withTask_touches b t x).tasks t' fun e ↦ ht' (List.mem_singleton.mpr e)
  waiting _ := rfl
  assigned _ := rfl

theorem adds_scheduled (hb : b.Linked) (hn : b.owners.Nodup) {p : Pool} (hp : b.pool? s = some p)
    (hx : b.tasks[t]? = some x) (hend : x.terminated = false) (hs : x.pools.contains s = false) :
    Adds b [t] [] (b.scheduled s t x.priority) := by
  have hframe := Frame.scheduled b s t x.priority
  have htouches := scheduled_touches b s t x.priority
  constructor
  · exact hb.schedule hx hend hp hs
  · exact hframe.owners ▸ hn
  · exact hframe.owners ▸ List.prefix_rfl
  · simp [hframe.owners]
  · exact hframe.scheduler
  · exact fun t' ht' ↦ htouches.tasks t' fun e ↦ ht' (List.mem_singleton.mpr e)
  · simpa [Pool.others] using htouches.waiting
  · exact fun s' ↦ assignedIn_mapPool s' fun _ ↦ rfl

theorem schedule_decides (hb : b.Linked) {p : Pool} (hp : b.pool? s = some p)
    (hx : b.tasks[t]? = some x) (hend : x.terminated = false) :
    Decides (schedule s t) b (x.pools.contains s = false) fun _ b' ↦
      x.pools.contains s = false ∧ b' = b.scheduled s t x.priority where
  accepts hs := ⟨(), _, schedule_of_live hb hp hx hend hs, hs, rfl⟩
  refuses hs := by
    have hyields := schedule_yields b s t
    rw [Yields] at hyields
    cases hr : schedule s t b with
    | error e b' => exact ⟨e, b', rfl⟩
    | ok _ b' =>
      rw [hr] at hyields
      obtain ⟨x', _, hx', -, -, hs', -⟩ := hyields
      cases hx.symm.trans hx'
      exact absurd hs' hs

theorem offered_withTask (b : Board) (t : TaskId) (x : Task) :
    Offered (b.withTask t x) t x [] x.unlinked where
  task := getElem?_withTask b t x
  fields := rfl
  owners f hf := by cases hf
  pools s := by simp [Task.unlinked]

theorem exists_pool_of_owner (h : b.owners[s.val]? = some f) : ∃ p, b.pool? s = some p := by
  rw [owners, List.getElem?_map, Option.map_eq_some_iff] at h
  obtain ⟨p, hp, -⟩ := h
  exact ⟨p, hp⟩

theorem Offered.scheduled (h : Offered b t x fs y) (hn : b.owners.Nodup) (hs : b.poolOf? f = some s)
    (hadds : Adds b [t] [] (b.scheduled s t y.priority)) :
    Offered (b.scheduled s t y.priority) t x (fs ++ [f]) { y with pools := y.pools.insert s } := by
  have howners : ∀ f' ∈ fs ++ [f], f' ∈ b.owners := by
    intro f' hf'
    rcases List.mem_append.mp hf' with hf' | hf'
    · exact h.owners f' hf'
    · rw [List.mem_singleton.mp hf']
      exact List.mem_of_getElem? ((poolOf?_eq_some hn).mp hs)
  constructor
  · exact getElem?_scheduled h.task s _
  · rw [h.fields]
  · exact fun f' hf' ↦ hadds.kept.subset (howners f' hf')
  · intro s'
    have hpools : (∃ f' ∈ fs ++ [f], (b.scheduled s t y.priority).poolOf? f' = some s') ↔
        ∃ f' ∈ fs ++ [f], b.poolOf? f' = some s' :=
      exists_congr fun f' ↦ and_congr_right fun hf' ↦ by rw [hadds.poolOf?_eq (howners f' hf')]
    rw [hpools, ← Std.TreeSet.mem_iff_contains, Std.TreeSet.mem_insert, Std.TreeSet.mem_iff_contains,
      h.pools, Std.LawfulEqOrd.compare_eq_iff_eq]
    simp [or_and_right, exists_or, hs, or_comm]

end Board

namespace Scenario

open Board

variable {b b' : Board} {t : TaskId} {x y : Task} {f : FactionId} {fs offering : List FactionId}

theorem ensurePool_decides (hb : b.Linked) (hn : b.owners.Nodup) (f : FactionId) :
    Decides (ensurePool f) b True fun s b' ↦ b'.poolOf? f = some s ∧ Adds b [] [f] b' := by
  cases hf : b.poolOf? f with
  | some s =>
    have hok : ensurePool f b = .ok s b := by
      simp only [ensurePool, bind_apply, get_apply, hf, pure_apply]
    have hmem : f ∈ b.owners := List.mem_of_getElem? ((poolOf?_eq_some hn).mp hf)
    refine .of_ok hok ⟨hf, { Adds.refl hb hn with owners := fun f' ↦ ?_ }⟩
    grind
  | none =>
    have hok : ensurePool f b = .ok ⟨b.pools.length⟩ (b.withPool f) := by
      simp only [ensurePool, bind_apply, get_apply, hf]
      exact addPool_of_none hf
    refine .of_ok hok ⟨?_, adds_withPool hb hn hf⟩
    rw [poolOf?_eq_some (nodup_owners_withPool hn hf), owners_withPool]
    simp [owners]

theorem forM_ensurePool_decides (hb : b.Linked) (hn : b.owners.Nodup) (fs : List FactionId) :
    Decides (fs.forM fun f ↦ discard (ensurePool f)) b True fun _ b' ↦ Adds b [] fs b' := by
  induction fs generalizing b with
  | nil => exact .of_ok rfl (.refl hb hn)
  | cons f fs ih =>
    have hfirst : Decides (discard (ensurePool f)) b True fun _ b' ↦ Adds b [] [f] b' :=
      (ensurePool_decides hb hn f).bind_pure fun _ _ h ↦ h.2
    exact hfirst.bind_of_true fun _ b' h ↦ (ih h.linked h.nodup).mono fun _ _ h' ↦ h.trans h'

theorem offer_decides (hb : b.Linked) (hn : b.owners.Nodup) (hend : x.terminated = false)
    (h : Offered b t x offering y) (f : FactionId) :
    Decides (do schedule (← ensurePool f) t) b (f ∉ offering) fun _ b' ↦
      Adds b [t] [f] b' ∧ ∃ y', Offered b' t x (offering ++ [f]) y' := by
  refine (ensurePool_decides hb hn f).bind_of_true fun s b₁ h₁ ↦ ?_
  obtain ⟨hs, hadds⟩ := h₁
  have hoffered := h.of_adds hadds List.not_mem_nil
  have howner := (poolOf?_eq_some hadds.nodup).mp hs
  obtain ⟨p, hp⟩ := exists_pool_of_owner howner
  have hend' : y.terminated = false := by
    rw [h.fields]
    exact hend
  have hpools : y.pools.contains s = false ↔ f ∉ offering := by
    rw [← Bool.not_eq_true, hoffered.pools, not_iff_not]
    constructor
    · rintro ⟨f', hf', hs'⟩
      rw [poolOf?_eq_some hadds.nodup, howner] at hs'
      exact Option.some.inj hs' ▸ hf'
    · exact fun hf ↦ ⟨f, hf, hs⟩
  have hschedule := schedule_decides hadds.linked hp hoffered.task hend'
  refine (hschedule.mono fun _ b₂ h₂ ↦ ?_).congr hpools
  obtain ⟨hnot, rfl⟩ := h₂
  have hadds' := adds_scheduled hadds.linked hadds.nodup hp hoffered.task hend' hnot
  exact ⟨(hadds.mono (List.nil_subset _)).trans hadds', _, hoffered.scheduled hadds.nodup hs hadds'⟩

theorem forM_offer_decides (hb : b.Linked) (hn : b.owners.Nodup) (hend : x.terminated = false)
    (h : Offered b t x offering y) (fs : List FactionId) :
    Decides (fs.forM fun f ↦ do schedule (← ensurePool f) t) b
      (fs.Nodup ∧ ∀ f ∈ fs, f ∉ offering) fun _ b' ↦
      Adds b [t] fs b' ∧ ∃ y', Offered b' t x (offering ++ fs) y' := by
  induction fs generalizing b offering y with
  | nil =>
    have hdone : Offered b t x (offering ++ []) y := by rwa [List.append_nil]
    exact (Decides.of_ok rfl ⟨(Adds.refl hb hn).mono (List.nil_subset _), y, hdone⟩).congr (by simp)
  | cons f fs ih =>
    refine ((offer_decides hb hn hend h f).bind
      (d := fs.Nodup ∧ ∀ f' ∈ fs, f' ∉ offering ++ [f]) fun _ b₁ h₁ ↦ ?_).congr ?_
    · obtain ⟨hadds, y₁, hoffered⟩ := h₁
      refine (ih hadds.linked hadds.nodup hoffered).mono fun _ b' h' ↦ ?_
      rw [List.append_assoc] at h'
      exact ⟨hadds.trans h'.1, h'.2⟩
    · rw [List.nodup_cons]
      grind

theorem enlist_decides (hb : b.Linked) (hn : b.owners.Nodup) (hnew : b.tasks[t]? = none)
    (hend : x.terminated = false) (fs : List FactionId) :
    Decides (enlist t x fs) b fs.Nodup fun t' b' ↦
      t' = t ∧ Adds b [t] fs b' ∧ ∃ y, Offered b' t x fs y := by
  have hadds := adds_withTask hb hn hnew x
  have hrest := forM_offer_decides hadds.linked hadds.nodup hend (offered_withTask b t x) fs
  have hcond : (fs.Nodup ∧ ∀ f ∈ fs, f ∉ []) ↔ fs.Nodup := by simp
  have hput : Decides (putTask t x) b True fun _ b₁ ↦ b₁ = b.withTask t x := .of_ok rfl rfl
  refine hput.bind_of_true fun _ b₁ h₁ ↦ ?_
  subst h₁
  exact (hrest.congr hcond).bind_pure fun _ b' h ↦ ⟨rfl, hadds.trans h.1, h.2⟩

structure Enlisted (b : Board) (tasks : List (Task × List FactionId)) (ids : List TaskId)
    (b' : Board) : Prop where
  adds : Adds b ids (tasks.flatMap (·.2)) b'
  offered : List.Forall₂ (fun e t ↦ ∃ y, Offered b' t e.1 e.2 y) tasks ids

theorem mapM_enlist_decides (hb : b.Linked) (hn : b.owners.Nodup) {tasks : List (Task × List FactionId)}
    {ids : List TaskId} (hlen : tasks.length = ids.length) (hids : b.Fresh ids)
    (hend : ∀ e ∈ tasks, e.1.terminated = false) :
    Decides ((tasks.zip ids).mapM fun e ↦ enlist e.2 e.1.1 e.1.2) b (∀ e ∈ tasks, e.2.Nodup)
      fun answer b' ↦ answer = ids ∧ Enlisted b tasks ids b' := by
  induction tasks generalizing b ids with
  | nil =>
    cases List.length_eq_zero_iff.mp hlen.symm
    exact (Decides.of_ok rfl ⟨rfl, .refl hb hn, .nil⟩).congr (by simp)
  | cons e tasks ih =>
    cases ids with
    | nil => cases hlen
    | cons t ids =>
      obtain ⟨hend, hends⟩ := List.forall_mem_cons.mp hend
      obtain ⟨hnot, hnodup⟩ := List.nodup_cons.mp hids.nodup
      obtain ⟨hnew, hunused⟩ := List.forall_mem_cons.mp hids.unused
      rw [List.zip_cons_cons, List.mapM_cons, List.forall_mem_cons]
      refine (enlist_decides hb hn hnew hend e.2).bind fun t' b₁ h₁ ↦ ?_
      obtain ⟨rfl, hadds, y, hoffered⟩ := h₁
      have hids₁ : b₁.Fresh ids := by
        refine ⟨hnodup, fun t'' ht'' ↦ ?_⟩
        rw [hadds.tasks t'' (by grind), hunused t'' ht'']
      refine (ih hadds.linked hadds.nodup (Nat.succ.inj hlen) hids₁ hends).bind_pure fun _ b' h ↦ ?_
      obtain ⟨rfl, h⟩ := h
      refine ⟨rfl, ?_, .cons ⟨y, hoffered.of_adds h.adds hnot⟩ h.offered⟩
      exact (hadds.mono (by simp)).trans (h.adds.mono (List.subset_cons_self t' _))

theorem onBoard_decides {α : Type} {m : BoardM α} {c : Prop} {post : α → Board → Prop}
    (h : Decides m b c post) : Decides (onBoard m) b c post where
  accepts hc := by
    obtain ⟨a, b', hok, hpost⟩ := h.accepts hc
    exact ⟨a, b', by rw [onBoard, hok], hpost⟩
  refuses hc := by
    obtain ⟨e, b', hr⟩ := h.refuses hc
    exact ⟨.board e, b', by rw [onBoard, hr]⟩

def Answers (g : Grid) (priority : Int32) (e : Posting) (r : Task × List FactionId) : Prop :=
  Task.ofSpec e.task priority = .ok r.1 ∧ r.2 = g.audience e.factions

section Answers

variable {sc : Scenario} {g : Grid} {priority : Int32} {es : List Posting}
  {tasks : List (Task × List FactionId)} {ids : List TaskId}

theorem answers_of_readyTasks (h : sc.readyTasks priority = .ok tasks) (g : Grid) :
    List.Forall₂ (Answers g priority) sc.tasks (tasks.map fun r ↦ (r.1, g.audience r.2)) := by
  refine List.forall₂_map_right_iff.mpr ((forall₂_of_mapM h).imp fun e r hr ↦ ?_)
  cases hx : Task.ofSpec e.task priority with
  | error e => simp [hx, bind, Except.bind] at hr
  | ok x =>
    rw [hx] at hr
    cases hr
    exact ⟨hx, rfl⟩

theorem map_snd_of_answers (h : List.Forall₂ (Answers g priority) es tasks) :
    tasks.map (·.2) = es.map fun e ↦ g.audience e.factions := by
  induction h with
  | nil => rfl
  | cons h _ ih => rw [List.map_cons, List.map_cons, ih, h.2]

theorem nodup_of_answers (h : List.Forall₂ (Answers g priority) es tasks) :
    (∀ r ∈ tasks, r.2.Nodup) ↔ ∀ e ∈ es, e.factions.Nodup := by
  have hmap : (∀ fs ∈ tasks.map (·.2), fs.Nodup) ↔
      ∀ fs ∈ es.map fun e ↦ g.audience e.factions, fs.Nodup := by rw [map_snd_of_answers h]
  simpa only [List.forall_mem_map, Grid.nodup_audience] using hmap

theorem terminated_of_answers (h : List.Forall₂ (Answers g priority) es tasks) :
    ∀ r ∈ tasks, r.1.terminated = false := by
  induction h with
  | nil => exact List.forall_mem_nil _
  | cons h _ ih =>
    obtain ⟨script, -, hspec⟩ := Task.exists_eq_of_ofSpec h.1
    exact List.forall_mem_cons.mpr ⟨by rw [hspec], ih⟩

theorem shows_of_answers (hb : b.Linked) (h : List.Forall₂ (Answers g priority) es tasks)
    (hoffered : List.Forall₂ (fun r t ↦ ∃ y, Offered b t r.1 r.2 y) tasks ids) :
    List.Forall₂ (b.Shows g priority) es ids := by
  induction h generalizing ids with
  | nil =>
    cases hoffered
    exact .nil
  | cons h _ ih =>
    cases hoffered with
    | cons hfirst hrest =>
      obtain ⟨y, hy⟩ := hfirst
      rw [h.2] at hy
      exact .cons (hy.shows hb h.1) (ih hrest)

/-- The tasks of a scenario have been put on a board, under the numbers `ids`. -/
structure Published (sc : Scenario) (g : Grid) (b : Board) (ids : List TaskId) (b' : Board) : Prop where
  nodup : ids.Nodup
  fresh : ∀ t ∈ ids, b.tasks[t]? = none
  shown : List.Forall₂ (b'.Shows g b.scheduler.defaultPriority) sc.tasks ids
  owners : ∀ f, b'.owners.count f = 1 ↔ f ∈ b.owners ∨ g.Hosts f ∨ ∃ e ∈ sc.tasks, f ∈ e.factions
  kept : b.owners <+: b'.owners
  tasks : ∀ t, t ∉ ids → b'.tasks[t]? = b.tasks[t]?
  waiting : ∀ s, (b'.waitingIn s).filter (fun t ↦ t ∉ ids) = b.waitingIn s
  assigned : ∀ s, b'.assignedIn s = b.assignedIn s
  audited : b'.audit = .ok ()

theorem Enlisted.published {b₁ : Board} (hb : b.Linked) (hids : b.Fresh ids)
    (hadds : Adds b [] g.factions b₁)
    (hanswers : List.Forall₂ (Answers g b.scheduler.defaultPriority) sc.tasks tasks)
    (h : Enlisted b₁ tasks ids b') : sc.Published g b ids b' := by
  have hall := (hadds.mono (List.nil_subset ids)).trans h.adds
  constructor
  · exact hids.nodup
  · exact hids.unused
  · exact shows_of_answers hall.linked hanswers h.offered
  · intro f
    have hmem : f ∈ tasks.flatMap (·.2) ↔ ∃ e ∈ sc.tasks, f ∈ g.audience e.factions := by
      rw [List.flatMap_def, map_snd_of_answers hanswers, ← List.flatMap_def, List.mem_flatMap]
    have howners : f ∈ b'.owners ↔ f ∈ b.owners ∨ g.Hosts f ∨ ∃ e ∈ sc.tasks, f ∈ e.factions := by
      rw [hall.owners, List.mem_append, hmem, Grid.mem_factions]
      simp only [Grid.mem_audience]
      grind
    rw [← howners, hall.nodup.count]
    simp
  · exact hall.kept
  · exact hall.tasks
  · intro s
    rw [hall.waiting, List.filter_eq_self]
    intro t ht
    obtain ⟨x, hx⟩ := hb.exists_of_waiting ht
    have hnot : t ∉ ids := fun hmem ↦ by cases hx.symm.trans (hids.unused t hmem)
    simpa using hnot
  · exact hall.assigned
  · exact hall.linked.audit

end Answers

theorem post_decides (hb : b.Linked) (hn : b.owners.Nodup) (sc : Scenario) (g : Grid)
    {number : Nat → TaskId} (hids : b.Fresh (sc.numbers number)) :
    Decides (sc.post g number) b ((∃ tasks, sc.readyTasks b.scheduler.defaultPriority = .ok tasks) ∧
      ∀ e ∈ sc.tasks, e.factions.Nodup)
      fun ids b' ↦ ids = sc.numbers number ∧ sc.Published g b ids b' := by
  refine (onBoard_decides (forM_ensurePool_decides hb hn g.factions)).bind_of_true
    fun _ b₁ hadds ↦ .get ?_
  rw [hadds.scheduler]
  cases hready : sc.readyTasks b.scheduler.defaultPriority with
  | error e => exact .of_error rfl fun hc ↦ by simp at hc
  | ok tasks =>
    have hanswers := answers_of_readyTasks hready g
    have hlen := length_of_readyTasks hready
    have hids₁ : b₁.Fresh (sc.numbers number) :=
      ⟨hids.nodup, fun t ht ↦ (hadds.tasks t List.not_mem_nil).trans (hids.unused t ht)⟩
    have henlist := mapM_enlist_decides hadds.linked hadds.nodup (by simp [numbers, hlen]) hids₁
      (terminated_of_answers hanswers)
    rw [numbers, ← hlen, ← mapM_enlist_zipIdx] at henlist
    refine ((onBoard_decides henlist).mono fun ids b' h ↦ ?_).congr ?_
    · rw [hlen] at h
      obtain ⟨rfl, h⟩ := h
      exact ⟨rfl, h.published hb hids hadds hanswers⟩
    · rw [nodup_of_answers hanswers]
      simp

/-- Given numbers that differ and are not in use, the tasks of a scenario can be put on a board if all
of them are accepted and none lists a faction twice. Each then has its number and waits with its
factions, which have one pool each, and what was on the board is as it was. -/
theorem post_outcome (h : Reached b) (sc : Scenario) (g : Grid) {number : Nat → TaskId}
    (hids : b.Fresh (sc.numbers number)) :
    ((∃ ids b', sc.post g number b = .ok ids b') ↔
      (∃ tasks, sc.readyTasks b.scheduler.defaultPriority = .ok tasks) ∧
        ∀ e ∈ sc.tasks, e.factions.Nodup) ∧
    ∀ ids b', sc.post g number b = .ok ids b' →
      ids = sc.numbers number ∧ sc.Published g b ids b' := by
  have hpost := post_decides h.sound.toLinked h.nodup_owners sc g hids
  exact ⟨hpost.exists_ok_iff, fun ids b' hok ↦ hpost.post_of_ok hok⟩

def outpost : Scenario where
  units := [{ id := ⟨1⟩, position := ⟨0, 0, 0⟩ }, { id := ⟨2⟩, faction := ⟨1⟩, position := ⟨1, 0, 0⟩ }]
  tasks := [{ task := { name := "watch", activities := .action {} .moveTo .here } },
    { task := { name := "scout", priority := some 9, activities := .action {} .moveTo .here },
      factions := [⟨2⟩, ⟨0⟩] }]

theorem post_outcome_lineup :
    let number (i : Nat) : TaskId := ⟨8 - i⟩
    lineup.Fresh (outpost.numbers number) ∧
      ∃ g b', Grid.ofScenario outpost {} = .ok g ∧ outpost.post g number lineup = .ok [⟨8⟩, ⟨7⟩] b' ∧
        (b'.waitingIn ⟨0⟩).filter (fun t ↦ t ∉ [⟨8⟩, ⟨7⟩]) = [⟨0⟩, ⟨2⟩] ∧
        b'.owners.count ⟨2⟩ = 1 ∧ b'.audit = .ok () := by
  intro number
  have hids : lineup.Fresh (outpost.numbers number) := ⟨by decide, by decide +kernel⟩
  refine ⟨hids, ?_⟩
  cases hgrid : Grid.ofScenario outpost {} with
  | error e =>
    have hok : (Grid.ofScenario outpost {}).isOk = true := by decide +kernel
    rw [hgrid] at hok
    cases hok
  | ok g =>
    obtain ⟨hiff, hpublished⟩ := post_outcome reached_lineup outpost g hids
    obtain ⟨ids, b', hok⟩ := hiff.mpr ⟨⟨_, rfl⟩, by decide⟩
    obtain ⟨rfl, h⟩ := hpublished ids b' hok
    have hwaiting : lineup.waitingIn ⟨0⟩ = [⟨0⟩, ⟨2⟩] := by decide +kernel
    refine ⟨g, b', rfl, hok, ?_, ?_, h.audited⟩
    · exact (h.waiting ⟨0⟩).trans hwaiting
    · exact (h.owners ⟨2⟩).mpr (.inr (.inr (by simp [outpost])))

end Scenario

end Errand
