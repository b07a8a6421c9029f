import Errand.Proofs.Run.Failures
import Errand.Proofs.Script.Placement
import Errand.Run.Program
import Errand.World.Canned

namespace Errand

section Steps

variable {ε σ α β : Type} {P : α → Prop}

structure YieldsOnly (P : α → Prop) (x : EStateM ε σ α) : Prop where
  of_ok : ∀ s a s', x s = .ok a s' → P a

theorem yieldsOnly_pure {a : α} (h : P a) : YieldsOnly P (pure a : EStateM ε σ α) := by
  refine ⟨fun s b s' hb ↦ ?_⟩
  cases hb
  exact h

theorem yieldsOnly_throw (e : ε) : YieldsOnly P (throw e : EStateM ε σ α) :=
  ⟨fun _ _ _ h ↦ nomatch h⟩

theorem yieldsOnly_bind (x : EStateM ε σ β) {f : β → EStateM ε σ α} (h : ∀ b, YieldsOnly P (f b)) :
    YieldsOnly P (x >>= f) := by
  refine ⟨fun s a s' ha ↦ ?_⟩
  obtain ⟨b, s₁, -, ha⟩ := exists_of_bind_eq_ok ha
  exact (h b).of_ok s₁ a s' ha

end Steps

variable {ω ρ : Type}

/-- The place is that of a variable, whose value is not of the kind that its slot takes. -/
def View.Misreads (v : View ω) (expected found : Kind) (p : Place) : Prop :=
  p.slot = expected ∧ found ≠ expected ∧
    ∃ name x, p.expr = .var name ∧ v.env[name]? = some x ∧ x.kind = found

def View.Blames (v : View ω) (places : List Place) (err : EvalError) : Prop :=
  ∀ expected found, err = .kindMismatch expected found →
    ∃ p ∈ places, v.Misreads expected found p

theorem View.blames_of_isAbsence (v : View ω) (places : List Place) {err : EvalError}
    (h : err.isAbsence = true) : v.Blames places err := by
  rintro expected found rfl
  cases h

variable [World ω] [Chance ρ] {v : View ω}

namespace Expr

theorem yieldsOnly_eval (v : View ω) {e : Expr} (hvar : ∀ name, e ≠ .var name) :
    YieldsOnly (·.kind = e.kind) (e.eval v : Draw ρ Value) := by
  cases e with
  | boolean b | position p => exact yieldsOnly_pure rfl
  | not a | isPassable a | isSolid a | isAlive a | carriesItem a =>
    apply yieldsOnly_bind
    intro x
    exact yieldsOnly_bind _ fun _ ↦ yieldsOnly_pure rfl
  | and a b =>
    apply yieldsOnly_bind
    intro x
    apply yieldsOnly_bind
    intro c
    cases c with
    | true => exact yieldsOnly_bind _ fun _ ↦ yieldsOnly_bind _ fun _ ↦ yieldsOnly_pure rfl
    | false => exact yieldsOnly_pure rfl
  | or a b =>
    apply yieldsOnly_bind
    intro x
    apply yieldsOnly_bind
    intro c
    cases c with
    | true => exact yieldsOnly_pure rfl
    | false => exact yieldsOnly_bind _ fun _ ↦ yieldsOnly_bind _ fun _ ↦ yieldsOnly_pure rfl
  | isFriend a | isEnemy a | nextTo a | positionOf a =>
    apply yieldsOnly_bind
    intro x
    apply yieldsOnly_bind
    intro y
    exact yieldsOnly_bind _ fun _ ↦ yieldsOnly_pure rfl
  | here | resource r | self | friend | enemy | any => exact yieldsOnly_bind _ fun _ ↦ yieldsOnly_pure rfl
  | selected =>
    rw [eval]
    split
    · exact yieldsOnly_pure rfl
    · exact yieldsOnly_throw _
  | var name => exact absurd rfl (hvar name)

theorem FailsOnlyIn.mono {Q R : EvalError → Prop} {e : Expr} {slot : Kind}
    (h : e.FailsOnlyIn ρ Q v slot) (hQ : ∀ err, Q err → R err) : e.FailsOnlyIn ρ R v slot := by
  cases slot <;> exact FailsOnly.mono h hQ

theorem eq_slot_of_accepts {e : Expr} {slot : Kind} (h : slot.accepts e.kind = true)
    (hslot : slot ≠ .any) (hvar : ∀ name, e ≠ .var name) : e.kind = slot := by
  have hkind : e.kind ≠ .any := by
    cases e <;> simp [kind] at hvar ⊢
  simp only [Kind.accepts, Bool.or_eq_true, beq_iff_eq] at h
  rcases h with (h | h) | h
  · exact absurd h hslot
  · exact absurd h hkind
  · exact h.symm

theorem env_of_eval_var {name : String} {r r' : ρ} {x : Value}
    (h : (Expr.var name).eval v r = .ok x r') : v.env[name]? = some x := by
  rw [eval] at h
  cases hx : v.env[name]? with
  | none =>
    rw [hx] at h
    cases h
  | some y =>
    rw [hx] at h
    cases h
    rfl

theorem failsOnlyIn_of_fits {e : Expr} {slot : Kind} (h : e.Fits slot) :
    e.FailsOnlyIn ρ (v.Blames (e.places slot)) v slot := by
  induction e using operandInduction generalizing slot with
  | h e ih =>
    have hself : (⟨slot, e⟩ : Place) ∈ e.places slot := by
      rw [places_eq]
      exact List.mem_cons_self
    have hinside : ∀ o ∈ e.operands, o.1.places o.2 ⊆ e.places slot := by
      intro o ho p hp
      rw [places_eq]
      exact List.mem_cons_of_mem _ (List.mem_flatMap.2 ⟨o, ho, hp⟩)
    apply failsOnlyIn_of_eval
    · apply failsOnly_eval fun err ↦ v.blames_of_isAbsence _
      intro o ho
      apply (ih o ho fun p hp ↦ h p (hinside o ho hp)).mono
      intro err herr expected found heq
      obtain ⟨p, hp, hmisread⟩ := herr expected found heq
      exact ⟨p, hinside o ho hp, hmisread⟩
    · intro r x r' hx hslot hkind expected found heq
      cases heq
      refine ⟨⟨slot, e⟩, hself, rfl, hkind, ?_⟩
      by_cases hvar : ∀ name, e ≠ .var name
      · -- The value is of the kind that the check knew, and that kind fits.
        have hfound := (yieldsOnly_eval v hvar).of_ok r x r' hx
        exact absurd (hfound.trans (eq_slot_of_accepts (h _ hself).1 hslot hvar)) hkind
      · obtain ⟨name, hname⟩ := not_forall_not.1 hvar
        subst hname
        exact ⟨name, x, rfl, env_of_eval_var hx, rfl⟩

theorem fits_of_check {loc : Location} {e : Expr} {slot : Kind} (h : e.check loc slot = .ok ()) :
    e.Fits slot := by
  rw [check_eq_first, first_eq_ok, faults_eq_nil] at h
  exact h

variable (v) in
/-- The evaluation of an expression in a slot comes to the failure. A unit may be asked for dead or
alive, or alive. -/
def FailsIn (e : Expr) (r : ρ) (err : EvalError) : (slot : Kind) → Prop
  | .boolean => ∃ r', e.evalBoolean v r = .error err r'
  | .position => ∃ r', e.evalPosition v r = .error err r'
  | .unit => (∃ r', e.evalUnit v r = .error err r') ∨ ∃ r', e.evalLiveUnit v r = .error err r'
  | .any => ∃ r', e.eval v r = .error err r'

theorem FailsOnlyIn.of_failsIn {Q : EvalError → Prop} {e : Expr} {slot : Kind} {r : ρ}
    {err : EvalError} (h : e.FailsOnlyIn ρ Q v slot) (hQ : ∀ err, err.isAbsence = true → Q err)
    (hfails : e.FailsIn v r err slot) : Q err := by
  cases slot with
  | boolean | position | any =>
    obtain ⟨r', hr⟩ := hfails
    exact FailsOnly.of_error h _ _ _ hr
  | unit =>
    rcases hfails with ⟨r', hr⟩ | ⟨r', hr⟩
    · exact FailsOnly.of_error h _ _ _ hr
    · exact (h.evalLiveUnit hQ).of_error _ _ _ hr

end Expr

def Statement.NeverReads (d : Statement) : Prop :=
  ∀ part ∈ d.parts false, ∀ p ∈ part.statement.places, ∀ name, p.expr ≠ .var name

namespace Script

open Statement

section Every

variable {P : Expr → Kind → Prop} {R : Place → Prop}

theorem everyOf_ofStatements {ds : List Statement} {b : Bool}
    (h : ∀ d ∈ ds, (∀ part ∈ d.parts b, ∀ p ∈ part.statement.places, R p) → (ofStatement d).Every P)
    (hR : ∀ part ∈ partsAll b ds, ∀ p ∈ part.statement.places, R p) :
    EveryOf P (ofStatements ds) := by
  induction ds with
  | nil => trivial
  | cons d ds ih =>
    obtain ⟨hd, hds⟩ := List.forall_mem_cons.1 h
    rw [partsAll, List.forall_mem_append] at hR
    exact ⟨hd hR.1, ih hds hR.2⟩

theorem every_ofStatement (hP : ∀ e slot, (∀ p ∈ e.places slot, R p) → P e slot) (d : Statement)
    (b : Bool) (h : ∀ part ∈ d.parts b, ∀ p ∈ part.statement.places, R p) :
    (ofStatement d).Every P := by
  induction d generalizing b with
  | sequence loc body ih =>
    rw [parts, List.forall_mem_cons] at h
    exact everyOf_ofStatements (fun d hd ↦ ih d hd b) h.2
  | branch loc c yes no ihy ihn =>
    rw [parts, List.forall_mem_cons, List.forall_mem_append] at h
    obtain ⟨hself, hyes, hno⟩ := h
    refine ⟨hP c .boolean hself, ihy b hyes, ?_⟩
    cases no with
    | none => trivial
    | some no => exact ihn no rfl b hno
  | loop loc c body ih =>
    rw [parts, List.forall_mem_cons] at h
    exact ⟨hP c .boolean h.1, ih true h.2⟩
  | assign loc name e | print loc e | action loc a e =>
    exact hP e _ (h _ List.mem_cons_self)
  | leave | void => trivial

theorem EveryOf.of_mem {ss : List Script} (h : EveryOf P ss) : ∀ s ∈ ss, s.Every P := by
  induction ss with
  | nil => exact List.forall_mem_nil _
  | cons s ss ih => exact List.forall_mem_cons.2 ⟨h.1, ih h.2⟩

theorem Every.children {s : Script} (h : s.Every P) : ∀ c ∈ s.children, c.Every P := by
  cases s with
  | sequence loc body => exact EveryOf.of_mem h
  | branch loc c yes no => simpa [Script.children] using h.2
  | loop loc c body => simpa [Script.children] using h.2
  | leave | assign | print | void | action => exact List.forall_mem_nil _

theorem Every.site {s : Script} (h : s.Every P) : ∀ q ∈ s.sites, q.script.Every P := by
  apply sitesInduction (motive := fun q ↦ q.script.Every P) h
  intro q _ hq c hc
  exact hq.children c.script (of_mem_below hc).2.1

end Every

theorem fits_of_build {d : Statement} {s : Script} (h : build d = .ok s) :
    ∀ part ∈ d.parts false, ∀ p ∈ part.statement.places, p.Fits := by
  have hfaults : d.faults = [] := by
    rw [build_eq] at h
    cases hd : d.faults with
    | nil => rfl
    | cons e es =>
      rw [hd] at h
      cases h
  intro part hpart p hp
  rw [Statement.faults, List.flatMap_eq_nil_iff] at hfaults
  have hpart := (List.append_eq_nil_iff.1 (hfaults part hpart)).2
  rw [List.flatMap_eq_nil_iff] at hpart
  exact Place.faults_eq_nil.1 (hpart p hp)

theorem failsOnly_of_neverReads {d : Statement} {s : Script} (hs : build d = .ok s)
    (hd : d.NeverReads) (actor : Actor) {t : Script} (ht : ∃ q ∈ s.sites, q.script = t) (id : Nat)
    (above : List Ancestor) :
    FailsOnly (fun err ↦ ∀ expected found, err ≠ .kindMismatch expected found)
      (t.perform actor id above : Exec ω ρ Outcome) := by
  obtain ⟨q, hq, rfl⟩ := ht
  obtain ⟨rfl, -⟩ := check_of_build hs
  apply failsOnly_perform
  · rintro err herr expected found rfl
    cases herr
  · exact fun cause expected found ↦ nofun
  · refine Every.site (every_ofStatement ?_ d false fun part hpart p hp ↦
      And.intro (fits_of_build hs part hpart p hp) (hd part hpart p hp)) q hq
    intro e slot hplaces v
    apply (Expr.failsOnlyIn_of_fits fun p hp ↦ (hplaces p hp).1).mono
    rintro err herr expected found rfl
    obtain ⟨p, hp, -, -, name, x, hname, -⟩ := herr expected found rfl
    exact (hplaces p hp).2 name hname

/-- What the check of a script knows about kinds is so. -/
theorem kinds_sound :
    (∀ (e : Expr) (v : View ω) (r r' : ρ) (x : Value), e.eval v r = .ok x r' →
      (∀ name, e ≠ .var name) → x.kind = e.kind) ∧
    (∀ (loc : Location) (e : Expr) (slot : Kind) (v : View ω) (r : ρ) (expected found : Kind),
      e.check loc slot = .ok () → e.FailsIn v r (.kindMismatch expected found) slot →
      ∃ p ∈ e.places slot, v.Misreads expected found p) ∧
    ∀ (d : Statement) (s : Script), build d = .ok s → d.NeverReads →
      (∀ (id : Nat) (actor : Actor) (m m' : Machine ω ρ) (expected found : Kind),
        s.performAt actor id m ≠ .error (.kindMismatch expected found) m') ∧
      ∀ p : Program, p.script = s → ∀ (budget : Nat) (actor : Actor) (world : ω) (source : ρ)
        (expected found : Kind), (p.advance budget actor world source).result ≠
          .error (.interrupted (.kindMismatch expected found)) := by
  refine ⟨fun e v r r' x hx hvar ↦ ?_, fun loc e slot v r expected found hcheck hfails ↦ ?_,
    fun d s hs hd ↦ ⟨fun id actor m m' expected found h ↦ ?_, ?_⟩⟩
  · exact (Expr.yieldsOnly_eval v hvar).of_ok r x r' hx
  · have hblames : e.FailsOnlyIn ρ (v.Blames (e.places slot)) v slot :=
      Expr.failsOnlyIn_of_fits (Expr.fits_of_check hcheck)
    exact hblames.of_failsIn (fun err ↦ v.blames_of_isAbsence _) hfails expected found rfl
  · rw [performAt] at h
    cases hq : s.site? id with
    | none =>
      rw [hq] at h
      cases h
    | some q =>
      rw [hq] at h
      exact (failsOnly_of_neverReads hs hd actor ⟨q, (of_site? hq).1, rfl⟩ id q.above).of_error
        m _ m' h expected found rfl
  · rintro p rfl budget actor world source expected found h
    have hfails : FailsOnly _ (p.script.perform actor 0 [] : Exec ω ρ Outcome) :=
      failsOnly_of_neverReads hs hd actor ⟨_, root_mem_sites _, rfl⟩ 0 []
    rw [Program.advance] at h
    split at h
    · cases h
    · split at h
      · split at h <;> cases h
      · next herr =>
        cases h
        exact hfails.of_error _ _ _ herr expected found rfl

/-- A variable that holds a truth value is taken for a position. A script without variables fails too,
where its unit stands nowhere, but not for that reason. -/
theorem kinds_sound_flag :
    let v : View Canned := ⟨{}, (∅ : Environment).insert "flag" (.boolean true), ⟨⟨1⟩, none⟩⟩
    let e : Expr := .nextTo (.var "flag")
    let d : Statement := .loop {} (.isAlive .self) (.action {} .work (.nextTo .here))
    let step := (Program.start (ofStatement d) 4).advance 9 ⟨⟨1⟩, none⟩ ({} : Canned) ({} : WordSource)
    (Value.boolean true).kind = (Expr.isAlive .self).kind ∧
      e.FailsIn v ({} : WordSource) (.kindMismatch .position .boolean) .position ∧
      (∃ p ∈ e.places .position, v.Misreads .position .boolean p) ∧ d.NeverReads ∧
      step.result = .error (.interrupted (.deadReference (.unplaced ⟨1⟩))) ∧
      ∀ expected found, step.result ≠ .error (.interrupted (.kindMismatch expected found)) := by
  intro v e d step
  have hfails : e.FailsIn v ({} : WordSource) (.kindMismatch .position .boolean) .position :=
    ⟨{}, rfl⟩
  have hd : d.NeverReads := by
    simp [d, Statement.NeverReads, parts, Statement.places, Expr.places, Action.targetKind]
  have hvar : ∀ name, Expr.isAlive .self ≠ .var name := by
    intro name h
    cases h
  obtain ⟨hkind, hblame, hnever⟩ := @kinds_sound Canned WordSource _ _
  refine ⟨hkind (.isAlive .self) v {} {} _ rfl hvar, hfails, ?_, hd, by decide +kernel, ?_⟩
  · exact hblame {} e .position v {} _ _ rfl hfails
  · exact (hnever d _ rfl hd).2 _ rfl 9 _ _ _

end Script

end Errand
