import Errand.Proofs.Run.Failures
import Errand.Proofs.Run.Reach
import Mathlib.Logic.Relation

namespace Errand

def EvalError.isMalformed : EvalError → Bool
  | malformed _ => true
  | _ => false

variable {ω ρ α : Type}

def Draw.Sane (x : Draw ρ α) : Prop := ∀ r e r', x r = .error e r' → e.isMalformed = false

theorem EvalError.isMalformed_of_isAbsence (e : EvalError) (h : e.isAbsence = true) :
    e.isMalformed = false := by
  cases e <;> cases h <;> rfl

section Evaluation

variable [World ω] [Chance ρ]

theorem Expr.failsOnlyIn_not_malformed (v : View ω) (e : Expr) (slot : Kind) :
    e.FailsOnlyIn ρ (·.isMalformed = false) v slot := by
  induction e using operandInduction generalizing slot with
  | h e ih =>
    apply failsOnlyIn_of_eval
    · exact failsOnly_eval EvalError.isMalformed_of_isAbsence e fun o ho ↦ ih o ho o.2
    · exact fun _ _ _ _ _ _ ↦ rfl

theorem Expr.sane_eval (v : View ω) (e : Expr) : Draw.Sane (e.eval v : Draw ρ Value) :=
  FailsOnly.of_error (e.failsOnlyIn_not_malformed v .any)

theorem Expr.sane_evalBoolean (v : View ω) (e : Expr) : Draw.Sane (e.evalBoolean v : Draw ρ Bool) :=
  FailsOnly.of_error (e.failsOnlyIn_not_malformed v .boolean)

theorem Exec.sane_commandOf (v : View ω) (a : Action) (target : Expr) :
    Draw.Sane (Exec.commandOf v a target : Draw ρ Command) :=
  FailsOnly.of_error (failsOnly_commandOf EvalError.isMalformed_of_isAbsence
    (target.failsOnlyIn_not_malformed v a.targetKind))

end Evaluation

section Machine

variable [World ω]

def Commanded (u : UnitId) : ω → ω → Prop :=
  Relation.ReflTransGen fun w w' ↦ ∃ c, w' = World.issue w u c

/-- No time is gained, and nothing changes but the marks of the `n` numbers from `first` on, what
commands to the unit change, and what a script keeps for itself. -/
structure Machine.Within (u : UnitId) (first n : Nat) (m m' : Machine ω ρ) : Prop where
  timer : m'.state.timer ≤ m.state.timer
  marks : Marks.SameOff first n m.marks m'.marks
  world : Commanded u m.world m'.world

namespace Machine.Within

variable {u : UnitId} {first n lo len : Nat} {m m' m'' : Machine ω ρ}

theorem trans (h : m.Within u first n m') (h' : m'.Within u first n m'') : m.Within u first n m'' :=
  ⟨Nat.le_trans h'.timer h.timer, h.marks.trans h'.marks, Relation.ReflTransGen.trans h.world h'.world⟩

theorem mono (h : m.Within u lo len m') (hlo : first ≤ lo) (hhi : lo + len ≤ first + n) :
    m.Within u first n m' :=
  ⟨h.timer, h.marks.mono hlo hhi, h.world⟩

theorem of_marks_eq (ht : m'.state.timer ≤ m.state.timer) (hk : m'.marks = m.marks)
    (hw : m'.world = m.world) : m.Within u first n m' :=
  ⟨ht, hk ▸ .refl _ _ _, hw ▸ .refl⟩

end Machine.Within

namespace Exec

open Marks

variable {u : UnitId} {first n lo len id : Nat} {above : List Ancestor} {m m' : Machine ω ρ}
  {r : EStateM.Result EvalError (Machine ω ρ) Outcome}

/-- How a statement that has the `n` numbers from `first` on may end. A `break` has cleared the marks
of the statements up to its loop. -/
def Confined (u : UnitId) (first n : Nat) (above : List Ancestor) (m : Machine ω ρ) :
    EStateM.Result EvalError (Machine ω ρ) Outcome → Prop
  | .ok .completed m' => m.Within u first n m' ∧ m'.state.depleted = m.state.depleted
  | .ok .suspended m' => m.Within u first n m'
  | .ok (.broke loop) m' => nearestLoop? above = some loop ∧
      (m.withMarks (m.marks.clear (withinLoop above))).Within u first n m' ∧
      m'.state.depleted = m.state.depleted
  | .error e m' => e.isMalformed = false ∧ m.Within u first n m' ∧
      m'.state.depleted = m.state.depleted

namespace Confined

theorem of_within (h : Confined u first n above m' r) (hm : m.Within u first n m')
    (hd : m'.state.depleted = m.state.depleted) : Confined u first n above m r := by
  rcases r with ⟨_ | _ | loop, m''⟩ | ⟨e, m''⟩
  · exact ⟨hm.trans h.1, h.2.trans hd⟩
  · exact hm.trans h
  · obtain ⟨hloop, hw, hd'⟩ := h
    refine ⟨hloop, ⟨Nat.le_trans hw.timer hm.timer, ⟨?_, fun j hj ↦ ?_⟩, ?_⟩, hd'.trans hd⟩
    · have hsize := hw.marks.size
      simp only [Machine.withMarks, size_clear] at hsize ⊢
      exact hsize.trans hm.marks.size
    · have hget := hw.marks.get j hj
      simp only [Machine.withMarks, get_clear] at hget ⊢
      rw [hget, hm.marks.get j hj]
    · exact Relation.ReflTransGen.trans hm.world hw.world
  · exact ⟨h.1, hm.trans h.2.1, h.2.2.trans hd⟩

theorem inside (h : Confined u lo len (⟨id, false⟩ :: above) m r) (hlo : id < lo)
    (hhi : lo + len ≤ id + n) : Confined u id n above m r := by
  rcases r with ⟨_ | _ | loop, m'⟩ | ⟨e, m'⟩
  · exact ⟨h.1.mono (by omega) hhi, h.2⟩
  · exact Machine.Within.mono h (by omega) hhi
  · obtain ⟨hloop, hw, hd⟩ := h
    refine ⟨hloop, ⟨hw.timer, ⟨?_, fun j hj ↦ ?_⟩, hw.world⟩, hd⟩
    · have hsize := hw.marks.size
      simp only [Machine.withMarks, size_clear] at hsize ⊢
      exact hsize
    · have hget := hw.marks.get j (by omega)
      have hne : j ≠ id := by omega
      simpa [Machine.withMarks, get_clear, Script.withinLoop_cons_false, hne] using hget
  · exact ⟨h.1, h.2.1.mono (by omega) hhi, h.2.2⟩

theorem of_nil (h : Confined u first n [] m r) : Confined u first n above m r := by
  rcases r with ⟨_ | _ | loop, m'⟩ | ⟨e, m'⟩
  · exact h
  · exact h
  · cases h.1
  · exact h

theorem enter {x : Exec ω ρ Outcome} (hid : first ≤ id) (hid' : id < first + n)
    (h : Confined u first n above (m.withMarks (started m.marks id))
      (x (m.withMarks (started m.marks id)))) :
    Confined u first n above m (Exec.enter id x m) := by
  have hstart : m.Within u first n (m.withMarks (started m.marks id)) :=
    ⟨Nat.le_refl _, sameOff_update _ hid hid' _, .refl⟩
  have h := h.of_within hstart rfl
  have happly := enter_apply id x m m.marks
  rw [show m.withMarks m.marks = m from rfl] at happly
  rw [happly]
  generalize x (m.withMarks (started m.marks id)) = r at h
  rcases r with ⟨_ | _ | loop, m'⟩ | ⟨e, m'⟩
  · refine ⟨h.1.trans ⟨Nat.le_refl _, sameOff_clear _ fun j hj ↦ ?_, .refl⟩, h.2⟩
    rw [List.mem_singleton.mp hj]
    exact ⟨hid, hid'⟩
  · exact h
  · exact h
  · exact h

theorem charged {x : Exec ω ρ Outcome}
    (h : ∀ t, m.state.timer = t + 1 → Confined u first n above
      { m with state := { m.state with timer := t } }
      (x { m with state := { m.state with timer := t } })) :
    Confined u first n above m (Exec.charged x m) := by
  rw [Exec.charged]
  cases ht : m.state.timer with
  | zero =>
    rw [bind_of_ok (spend_of_zero ht)]
    exact .of_marks_eq (Nat.le_refl _) rfl rfl
  | succ t =>
    rw [bind_of_ok (spend_of_succ ht)]
    exact (h t ht).of_within (.of_marks_eq (by simp [ht]) rfl rfl) rfl

theorem evaluate {actor : Actor} {x : View ω → Draw ρ α} {f : α → Exec ω ρ Outcome}
    (hx : ∀ v, (x v).Sane) (h : ∀ a s, Confined u first n above { m with source := s }
      (f a { m with source := s })) :
    Confined u first n above m ((Exec.evaluate actor x >>= f) m) := by
  rw [bind_apply, Exec.evaluate]
  cases hr : x ⟨m.world, m.state.env, actor⟩ m.source with
  | ok a s => exact (h a s).of_within (.of_marks_eq (Nat.le_refl _) rfl rfl) rfl
  | error e s => exact ⟨hx _ _ _ _ hr, .of_marks_eq (Nat.le_refl _) rfl rfl, rfl⟩

end Confined

end Exec

end Machine

namespace Script

open Exec Marks

variable [World ω] [Chance ρ] {actor : Actor}

variable (ω ρ actor) in
def Contained (s : Script) : Prop :=
  ∀ (id : Nat) (above : List Ancestor) (m : Machine ω ρ),
    s.Placed (nearestLoop? above).isSome → id + s.size ≤ m.marks.table.size →
    Confined actor.unit id s.size above m (s.perform actor id above m)

theorem contained_leaf {s : Script} (hs : s.size = 1)
    {x : Nat → List Ancestor → Exec ω ρ Outcome}
    (hperform : ∀ id above, s.perform actor id above = enter id (x id above))
    (h : ∀ id above m, s.Placed (nearestLoop? above).isSome →
      Confined actor.unit id 1 above m (x id above m)) : Contained ω ρ actor s := by
  intro id above m hplaced _
  rw [hperform, hs]
  exact .enter (Nat.le_refl id) (Nat.lt_succ_self id) (h id above _ hplaced)

theorem leave_contained (loc : Location) : Contained ω ρ actor (.leave loc) := by
  refine contained_leaf rfl (perform_leave actor loc) fun id above m hplaced ↦ .charged fun t ht ↦ ?_
  obtain ⟨l, hl⟩ := Option.isSome_iff_exists.mp hplaced
  rw [leaveLoop, hl]
  refine ⟨hl, ⟨Nat.le_refl _, ⟨?_, fun j hj ↦ ?_⟩, .refl⟩, rfl⟩
  · exact (size_clear _ _).trans (size_clear _ _).symm
  · have hne : j ≠ id := by omega
    simp [Machine.withMarks, get_clear, hne]

theorem assign_contained (loc : Location) (name : String) (e : Expr) :
    Contained ω ρ actor (.assign loc name e) := by
  refine contained_leaf rfl (perform_assign actor loc name e) fun id above m _ ↦
    .charged fun t ht ↦ ?_
  refine .evaluate (fun v ↦ e.sane_eval v) fun x s ↦ ?_
  exact ⟨.of_marks_eq (Nat.le_refl _) rfl rfl, rfl⟩

theorem print_contained (loc : Location) (e : Expr) : Contained ω ρ actor (.print loc e) := by
  refine contained_leaf rfl (perform_print actor loc e) fun id above m _ ↦ .charged fun t ht ↦ ?_
  refine .evaluate (fun v ↦ e.sane_eval v) fun x s ↦ ?_
  have hwrite : ∀ (st : RunState) (line : String),
      (st.write line).timer = st.timer ∧ (st.write line).depleted = st.depleted := by
    intro st line
    rw [RunState.write]
    split <;> exact ⟨rfl, rfl⟩
  exact ⟨.of_marks_eq (Nat.le_of_eq (hwrite _ _).1) rfl rfl, (hwrite _ _).2⟩

theorem void_contained (loc : Location) : Contained ω ρ actor (.void loc) :=
  contained_leaf rfl (perform_void actor loc) fun _ _ _ _ ↦ ⟨.of_marks_eq (Nat.le_refl _) rfl rfl, rfl⟩

omit [Chance ρ] in
theorem poll_confined {u : UnitId} {id : Nat} {above : List Ancestor} (m : Machine ω ρ) :
    Confined u id 1 above m
      (.ok (if World.busy m.world actor.unit then .suspended else .completed) m) := by
  cases World.busy m.world actor.unit with
  | true => exact .of_marks_eq (Nat.le_refl _) rfl rfl
  | false => exact ⟨.of_marks_eq (Nat.le_refl _) rfl rfl, rfl⟩

theorem action_contained (loc : Location) (a : Action) (e : Expr) :
    Contained ω ρ actor (.action loc a e) := by
  refine contained_leaf rfl (perform_action actor loc a e) fun id above m _ ↦ ?_
  cases hsent : (m.marks.get id).issued with
  | true =>
    have hact : act actor id a e m =
        .ok (if World.busy m.world actor.unit then .suspended else .completed) m := by
      rw [act, sendCommand]
      simp only [bind_apply, mark, get_apply, pure_apply, hsent, if_true]
    rw [hact]
    exact poll_confined m
  | false =>
    have hact : act actor id a e m = charged (do
        issue actor.unit (← evaluate actor (commandOf · a e))
        updateMark id ({ · with issued := true })
        return if World.busy (← get).world actor.unit then .suspended else .completed) m := by
      rw [act, sendCommand, charged]
      simp only [bind_apply, mark, get_apply, pure_apply, hsent, Bool.false_eq_true, if_false]
      cases spend m with
      | error e m' => rfl
      | ok paid m' =>
        cases paid with
        | false => rfl
        | true =>
          simp only [if_true, bind_apply]
          cases Exec.evaluate actor (commandOf · a e) m' <;> rfl
    rw [hact]
    refine .charged fun t ht ↦ .evaluate (fun v ↦ sane_commandOf v a e) fun c s ↦ ?_
    refine (poll_confined _).of_within ⟨Nat.le_refl _, ?_, ?_⟩ rfl
    · exact sameOff_update _ (Nat.le_refl id) (Nat.lt_succ_self id) _
    · exact .single ⟨c, rfl⟩

theorem performRest_confined {ss : List Script} (h : ∀ s ∈ ss, Contained ω ρ actor s)
    {above : List Ancestor} (hplaced : PlacedAll (nearestLoop? above).isSome ss)
    {owner index first n : Nat} (hfirst : owner < first) (hend : first + sizeAll ss ≤ owner + n)
    (m : Machine ω ρ) (hsize : owner + n ≤ m.marks.table.size) :
    Confined actor.unit owner n above m
      (performRest actor ss owner index first (⟨owner, false⟩ :: above) m) := by
  induction ss generalizing index first m with
  | nil => exact ⟨.of_marks_eq (Nat.le_refl _) rfl rfl, rfl⟩
  | cons s ss ih =>
    rw [sizeAll] at hend
    have hrest : ∀ (index : Nat) (m : Machine ω ρ), owner + n ≤ m.marks.table.size →
        Confined actor.unit owner n above m
          (performRest actor ss owner index (first + s.size) (⟨owner, false⟩ :: above) m) :=
      fun index m ↦ ih (fun t ht ↦ h t (List.mem_cons_of_mem s ht)) hplaced.2 (by omega) (by omega) m
    have hchild := (h s List.mem_cons_self first (⟨owner, false⟩ :: above) m hplaced.1
      (by omega)).inside hfirst (n := n) (by omega)
    rw [performRest_cons, childThen, bind_apply]
    simp only [mark, bind_apply, get_apply, pure_apply]
    split
    · exact hrest (index + 1) m hsize
    · rw [bind_apply]
      generalize s.perform actor first (⟨owner, false⟩ :: above) m = r at hchild
      rcases r with ⟨_ | _ | l, m'⟩ | ⟨e, m'⟩
      · -- The child is done: the cursor moves on and the next child has its turn.
        have hmoved : m.Within actor.unit owner n
            (m'.withMarks (m'.marks.update owner ({ · with cursor := index + 1 }))) :=
          hchild.1.trans ⟨Nat.le_refl _, sameOff_update _ (Nat.le_refl _) (by omega) _, .refl⟩
        have hroom := Nat.le_trans hsize (Nat.le_of_eq hmoved.marks.size.symm)
        exact (hrest (index + 1) _ hroom).of_within hmoved hchild.2
      · exact hchild
      · exact hchild
      · exact hchild

theorem sequence_contained (loc : Location) {body : List Script}
    (h : ∀ s ∈ body, Contained ω ρ actor s) : Contained ω ρ actor (.sequence loc body) := by
  intro id above m hplaced hsize
  rw [size] at hsize
  rw [perform_sequence, size]
  refine .enter (Nat.le_refl id) (by omega) ?_
  refine performRest_confined h hplaced (Nat.lt_succ_self id) (by omega) _ ?_
  simp only [Machine.withMarks, started, size_update]
  omega

theorem turn_confined {body : Script} (hbody : Contained ω ρ actor body) (hplaced : body.Placed true)
    {id : Nat} {above : List Ancestor} {m : Machine ω ρ}
    (hsize : id + 1 + body.size ≤ m.marks.table.size) {next : Exec ω ρ Outcome}
    (hnext : ∀ m', m.Within actor.unit id (body.size + 1) m' → (m'.marks.get id).owesTurn = false →
      Confined actor.unit id (body.size + 1) [] m' (next m')) :
    Confined actor.unit id (body.size + 1) [] m
      ((do
        match ← body.perform actor (id + 1) (⟨id, true⟩ :: above) with
        | .completed =>
          updateMark id ({ · with owesTurn := false })
          next
        | .suspended => return .suspended
        | .broke l => return if l = id then .completed else .broke l) m) := by
  have hchild := hbody (id + 1) (⟨id, true⟩ :: above) m hplaced hsize
  rw [bind_apply]
  generalize body.perform actor (id + 1) (⟨id, true⟩ :: above) m = r at hchild
  rcases r with ⟨_ | _ | l, m'⟩ | ⟨e, m'⟩
  · obtain ⟨hw, hd⟩ := hchild
    have hmoved : m.Within actor.unit id (body.size + 1)
        (m'.withMarks (m'.marks.update id ({ · with owesTurn := false }))) :=
      (hw.mono (by omega) (by omega)).trans
        ⟨Nat.le_refl _, sameOff_update _ (Nat.le_refl _) (by omega) _, .refl⟩
    have hid : id < m'.marks.table.size := by rw [hw.marks.size]; omega
    refine (hnext _ hmoved ?_).of_within hmoved hd
    simp [Machine.withMarks, get_update hid]
  · exact Machine.Within.mono hchild (by omega) (by omega)
  · -- The break was on its way to this loop, and has cleared nothing outside its body.
    obtain ⟨hl, hw, hd⟩ := hchild
    have hl : id = l := Option.some.inj hl
    simp only [hl, if_true, pure_apply]
    rw [← hl]
    exact ⟨hw.mono (by omega) (by omega), hd⟩
  · exact ⟨hchild.1, hchild.2.1.mono (by omega) (by omega), hchild.2.2⟩

theorem nextTurn_within (actor : Actor) (id : Nat) (c : Expr) {n : Nat} (hn : 0 < n)
    (m : Machine ω ρ) :
    match nextTurn actor id c m with
    | .ok (some _) m' => m.Within actor.unit id n m' ∧ m'.state.depleted = m.state.depleted ∧
        m'.state.timer < m.state.timer + (m.marks.get id).owesTurn.toNat
    | .ok none m' => m.Within actor.unit id n m'
    | .error e m' => e.isMalformed = false ∧ m.Within actor.unit id n m' ∧
        m'.state.depleted = m.state.depleted := by
  rw [nextTurn]
  simp only [mark, bind_apply, get_apply, pure_apply]
  cases howes : (m.marks.get id).owesTurn with
  | true => exact ⟨.of_marks_eq (Nat.le_refl _) rfl rfl, rfl, Nat.lt_succ_self _⟩
  | false =>
    simp only [Bool.false_eq_true, if_false, bind_apply]
    cases ht : m.state.timer with
    | zero =>
      rw [spend_of_zero ht]
      exact .of_marks_eq (Nat.le_refl _) rfl rfl
    | succ t =>
      rw [spend_of_succ ht]
      simp only [if_true, bind_apply, evaluate]
      cases he : (c.evalBoolean ⟨m.world, m.state.env, actor⟩ : Draw ρ Bool) m.source with
      | error e s =>
        exact ⟨c.sane_evalBoolean _ _ _ _ he, .of_marks_eq (by simp [ht]) rfl rfl, rfl⟩
      | ok b s =>
        cases b with
        | false => exact ⟨.of_marks_eq (by simp [ht]) rfl rfl, rfl, Nat.lt_succ_self t⟩
        | true =>
          refine ⟨⟨by simp [ht], ?_, .refl⟩, rfl, Nat.lt_succ_self t⟩
          exact sameOff_update _ (Nat.le_refl _) (by omega) _

theorem turns_confined {c : Expr} {body : Script} (hbody : Contained ω ρ actor body)
    (hplaced : body.Placed true) {id : Nat} {above : List Ancestor} (n : Nat) (m : Machine ω ρ)
    (hn : m.state.timer + (m.marks.get id).owesTurn.toNat < n)
    (hsize : id + 1 + body.size ≤ m.marks.table.size) :
    Confined actor.unit id (body.size + 1) [] m
      (turnsWithin actor id c (body.perform actor (id + 1) (⟨id, true⟩ :: above)) n m) := by
  induction n generalizing m with
  | zero => omega
  | succ n ih =>
    have hnext := nextTurn_within actor id c (Nat.succ_pos body.size) m
    rw [turnsWithin, bind_apply]
    generalize nextTurn actor id c m = r at hnext
    rcases r with ⟨_ | _ | _, m₁⟩ | ⟨e, m₁⟩
    · exact hnext
    · exact ⟨hnext.1, hnext.2.1⟩
    · obtain ⟨hw, hd, hpaid⟩ := hnext
      rw [← hw.marks.size] at hsize
      refine Confined.of_within (turn_confined hbody hplaced hsize fun m₂ hturn hfree ↦ ih m₂ ?_ ?_)
        hw hd
      · have hle := hturn.timer
        rw [hfree, Bool.toNat_false]
        omega
      · rwa [hturn.marks.size]
    · exact hnext

theorem loop_confined (loc : Location) (c : Expr) {body : Script} (h : Contained ω ρ actor body)
    (hplaced : body.Placed true) {id : Nat} {above : List Ancestor} {m : Machine ω ρ}
    (hsize : id + (loop loc c body).size ≤ m.marks.table.size) :
    Confined actor.unit id (loop loc c body).size [] m ((loop loc c body).perform actor id above m) := by
  rw [size] at hsize
  rw [perform_loop, size]
  refine .enter (Nat.le_refl id) (by omega) (turns_confined h hplaced _ _ ?_ ?_)
  · have := Bool.toNat_le ((started m.marks id).get id).owesTurn
    simp only [Machine.withMarks]
    omega
  · simp only [Machine.withMarks, started, size_update]
    omega

omit [Chance ρ] in
theorem release_confined {id n : Nat} {above : List Ancestor} {side : Branch → Script × Nat}
    {y : Exec ω ρ Outcome} {m : Machine ω ρ}
    (hside : ∀ b, id < (side b).2 ∧ (side b).2 + (side b).1.size ≤ id + n)
    (h : ∀ m', m.Within actor.unit id n m' → Confined actor.unit id n above m' (y m')) :
    Confined actor.unit id n above m ((do releaseBranch actor id side; y) m) := by
  have hkept : m.Within actor.unit id n m := .of_marks_eq (Nat.le_refl _) rfl rfl
  rw [bind_apply, releaseBranch]
  simp only [mark, bind_apply, get_apply, pure_apply]
  cases (m.marks.get id).branch with
  | none => exact h m hkept
  | some b =>
    simp only [bind_apply, get_apply]
    cases (side b).1.awaits m.marks (side b).2 && World.helpless m.world actor.unit with
    | true =>
      obtain ⟨hlo, hhi⟩ := hside b
      have hcleared : ∀ j ∈ (side b).1.descendants (side b).2, id ≤ j ∧ j < id + n := by
        intro j hj
        rw [mem_descendants] at hj
        omega
      have hmoved : m.Within actor.unit id n
          (m.withMarks ((m.marks.clear ((side b).1.descendants (side b).2)).update id
            ({ · with branch := none }))) :=
        ⟨Nat.le_refl _, .trans (sameOff_clear _ hcleared)
          (sameOff_update _ (Nat.le_refl id) (by omega) _), .refl⟩
      exact (h _ hmoved).of_within hmoved rfl
    | false => exact h m hkept

theorem chosenBranch_within (actor : Actor) (id : Nat) (c : Expr) {n : Nat} (hn : 0 < n)
    (m : Machine ω ρ) :
    match chosenBranch actor id c m with
    | .ok (some _) m' => m.Within actor.unit id n m' ∧ m'.state.depleted = m.state.depleted
    | .ok none m' => m.Within actor.unit id n m'
    | .error e m' => e.isMalformed = false ∧ m.Within actor.unit id n m' ∧
        m'.state.depleted = m.state.depleted := by
  rw [chosenBranch]
  simp only [mark, bind_apply, get_apply, pure_apply]
  cases (m.marks.get id).branch with
  | some b => exact ⟨.of_marks_eq (Nat.le_refl _) rfl rfl, rfl⟩
  | none =>
    simp only [bind_apply]
    cases ht : m.state.timer with
    | zero =>
      rw [spend_of_zero ht]
      exact .of_marks_eq (Nat.le_refl _) rfl rfl
    | succ t =>
      rw [spend_of_succ ht]
      simp only [if_true, bind_apply, evaluate]
      cases he : (c.evalBoolean ⟨m.world, m.state.env, actor⟩ : Draw ρ Bool) m.source with
      | error e s =>
        exact ⟨c.sane_evalBoolean _ _ _ _ he, .of_marks_eq (by simp [ht]) rfl rfl, rfl⟩
      | ok b s =>
        exact ⟨⟨by simp [ht], sameOff_update _ (Nat.le_refl _) (by omega) _, .refl⟩, rfl⟩

theorem branch_contained (loc : Location) (c : Expr) {yes no : Script} (hyes : Contained ω ρ actor yes)
    (hno : Contained ω ρ actor no) : Contained ω ρ actor (.branch loc c yes no) := by
  intro id above m hplaced hsize
  rw [size] at hsize
  rw [perform_branch, branchOn, size]
  refine .enter (Nat.le_refl id) (by omega) ?_
  have hsize : id + (yes.size + no.size + 1) ≤
      (m.withMarks (started m.marks id)).marks.table.size := by
    simpa only [Machine.withMarks, started, size_update] using hsize
  generalize m.withMarks (started m.marks id) = m at hsize
  refine release_confined (fun b ↦ ?_) fun m₁ hw₁ ↦ ?_
  · cases b <;> simp only <;> omega
  rw [← hw₁.marks.size] at hsize
  have hchosen := chosenBranch_within actor id c (Nat.succ_pos (yes.size + no.size)) m₁
  rw [bind_apply]
  generalize chosenBranch actor id c m₁ = r at hchosen
  rcases r with ⟨_ | _ | _, m₂⟩ | ⟨e, m₂⟩
  · exact hchosen
  · have hroom : id + (yes.size + no.size + 1) ≤ m₂.marks.table.size := by
      rwa [hchosen.1.marks.size]
    have hchild := hyes (id + 1) (⟨id, false⟩ :: above) m₂ hplaced.1 (by omega)
    exact (hchild.inside (by omega) (by omega)).of_within hchosen.1 hchosen.2
  · have hroom : id + (yes.size + no.size + 1) ≤ m₂.marks.table.size := by
      rwa [hchosen.1.marks.size]
    have hchild := hno (id + 1 + yes.size) (⟨id, false⟩ :: above) m₂ hplaced.2 (by omega)
    exact (hchild.inside (by omega) (by omega)).of_within hchosen.1 hchosen.2
  · exact hchosen

/-- Performing a statement of a placed script is confined, whatever the marks say. -/
theorem perform_confined (s : Script) : Contained ω ρ actor s := by
  induction s with
  | sequence loc body ih => exact sequence_contained loc ih
  | branch loc c yes no ihy ihn => exact branch_contained loc c ihy ihn
  | loop loc c body ih =>
    intro id above m hplaced hsize
    exact (loop_confined loc c ih hplaced hsize).of_nil
  | leave loc => exact leave_contained loc
  | assign loc name e => exact assign_contained loc name e
  | print loc e => exact print_contained loc e
  | void loc => exact void_contained loc
  | action loc a e => exact action_contained loc a e

end Script

end Errand
