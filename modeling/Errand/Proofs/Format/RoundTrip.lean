import Errand.Format.Scenario
import Errand.Format.Settings
import Errand.Proofs.Format.Fields

namespace Errand

open Json (ReadsBack RoundTrips)

section Value

theorem Position.readsBack : ReadsBack Position.toJson Position.ofJson? := by
  intro p
  simp [Position.toJson, Position.ofJson?, Json.need, Json.atMost]

theorem UnitId.readsBack : ReadsBack UnitId.toJson UnitId.ofJson? := by
  intro u
  simp [UnitId.toJson, UnitId.ofJson?]

theorem FactionId.readsBack : ReadsBack FactionId.toJson FactionId.ofJson? := by
  intro f
  simp [FactionId.toJson, FactionId.ofJson?]

theorem Resource.readsBack (inScript : Bool) :
    ReadsBack Resource.toJson (Resource.ofJson? inScript) := by
  intro r
  cases r <;> rfl

theorem Value.readsBack : ReadsBack Value.toJson Value.ofJson? := by
  intro v
  cases v with
  | boolean b => rfl
  | position p => simp [Value.toJson, Value.ofJson?, Position.readsBack p]
  | unit u => simp [Value.toJson, Value.ofJson?, UnitId.readsBack u]

end Value

theorem Json.need_tagged {kind : String} {fields : List (String × Json)} (i : Nat)
    (h : Json.Lacks fields "kind") :
    (Json.tagged kind fields).need i "kind" =
      some ⟨.str kind, @Json.sizeOf_lt_obj ("kind", .str kind) _ List.mem_cons_self⟩ :=
  congrArg Option.join (Json.find_cons_self i h)

namespace Expr

theorem exists_toJson_eq_tagged (e : Expr) :
    ∃ kind fields, e.toJson = .tagged kind fields ∧ Json.Lacks fields "kind" := by
  cases e with
  | boolean b => cases b <;> exact ⟨_, _, rfl, by simp⟩
  | _ => exact ⟨_, _, rfl, by simp⟩

@[simp] theorem fit_toJson (e : Expr) : e.toJson.fit = true := by
  induction e with
  | boolean b => cases b <;> rfl
  | resource r => rfl
  | _ => simp_all [toJson, Json.tagged, Json.ofInt32]

-- The kind is read first, and only the reader of that form is opened.
theorem readsBack : ReadsBack toJson ofJson? := by
  intro e
  induction e with
  | boolean b =>
    cases b <;> rw [toJson, ofJson?, Json.need_tagged 0 (by simp)] <;> rfl
  | resource r =>
    rw [toJson, ofJson?, Json.need_tagged 0 (by simp)]
    dsimp only [Option.bind_eq_bind, Option.bind_some, Json.form?]
    simp [Json.tagged, Json.need, Json.atMost, Resource.readsBack true r]
  | var name =>
    rw [toJson, ofJson?, Json.need_tagged 0 (by simp)]
    dsimp only [Option.bind_eq_bind, Option.bind_some, Json.form?]
    simp [Json.tagged, Json.need, Json.atMost, Json.str?]
  | _ =>
    -- the operands, if there are any, are read by the induction hypotheses
    rw [toJson, ofJson?, Json.need_tagged 0 (by simp)]
    dsimp only [Option.bind_eq_bind, Option.bind_some, Json.form?]
    simp [Json.tagged, Json.need, Json.atMost, *]

theorem readsBack_text : ReadsBack toJson ofText? := by
  intro e
  obtain ⟨kind, fields, htagged, hfields⟩ := e.exists_toJson_eq_tagged
  have hread : ofJson? (.tagged kind fields) = some e := htagged ▸ readsBack e
  have hfit : (Json.tagged kind fields).fit = true := htagged ▸ e.fit_toJson
  rw [htagged, ofText?, Json.wholly, hfit, Json.need, hread]
  simp [Json.tagged, hfields, Json.str?]
  rfl

end Expr

section Place

-- An object whose fields are read as those of a location is read as the location. The numbers are
-- left open here: the kernel must not run the reader of numbers on what is written for them.
theorem Location.ofJson?_obj {line column : Json} {l : Location}
    (hline : line.uint64? = some l.line) (hcolumn : column.uint64? = some l.column) :
    Location.ofJson? (.obj [("line", line), ("column", column)]) = some l := by
  simp [Location.ofJson?, Json.need, Json.atMost, hline, hcolumn]

theorem Location.readsBack : ReadsBack Location.toJson Location.ofJson? :=
  fun _ ↦ Location.ofJson?_obj (Json.uint64?_ofUInt64 _) (Json.uint64?_ofUInt64 _)

@[simp] theorem Location.fit_toJson (l : Location) : l.toJson.fit = true := by
  simp [Location.toJson, Json.ofUInt64]

theorem Action.readsBack (inScript : Bool) : ReadsBack Action.toJson (Action.ofJson? inScript) := by
  intro a
  cases a <;> rfl

end Place

namespace Statement

theorem exists_toJson_eq_tagged (s : Statement) : ∃ kind fields, s.toJson = .tagged kind fields := by
  cases s <;> exact ⟨_, _, rfl⟩

theorem toJsonAll_eq_map (ss : List Statement) : toJsonAll ss = ss.map toJson := by
  induction ss with
  | nil => rfl
  | cons s ss ih => rw [toJsonAll, ih, List.map_cons]

@[simp] theorem fit_toJson (s : Statement) : s.toJson.fit = true := by
  induction s with
  | sequence l body ih =>
    simpa [toJson, located, Json.tagged, toJsonAll_eq_map] using ih
  | branch l c yes no ihyes ihno =>
    cases no with
    | none => simp [toJson, located, Json.tagged, toJsonOption, ihyes]
    | some no => simp [toJson, located, Json.tagged, toJsonOption, ihyes, ihno no rfl]
  | loop l c body ih => simp [toJson, located, Json.tagged, ih]
  | _ => simp [toJson, located, Json.tagged, Action.toJson]

theorem orElse_located {kind : String} {fields : List (String × Json)}
    (h : Json.Lacks fields "location") (l : Location) :
    (located kind fields l).orElse 0 "location" {} Location.ofJson? = some l := by
  have hfields : (Json.obj (fields ++ [("location", l.toJson)])).orElse 0 "location" {}
      Location.ofJson? = some l := by
    induction fields with
    | nil => simp [Location.readsBack l]
    | cons f fields ih =>
      obtain ⟨hf, hfields⟩ := Json.lacks_cons.1 h
      rw [List.cons_append, Json.orElse_cons_of_ne 0 hf, ih hfields]
  rw [located, Json.tagged, Json.orElse_cons_of_ne 0 (by decide), hfields]

theorem readsBack : ReadsBack toJson ofJson? := by
  intro s
  induction s with
  | sequence l body ih =>
    have hbody : (body.map toJson).mapM ofJson? = some body := Json.mapM_map_of_readsBack ih
    rw [toJson, ofJson?, orElse_located (by simp), located, Json.need_tagged 0 (by simp)]
    dsimp only [Option.bind_eq_bind, Option.bind_some, Json.form?, Json.named]
    simp [Json.tagged, Json.need, toJsonAll_eq_map, Json.items?, Json.unattach_items, hbody]
  | branch l c yes no ihyes ihno =>
    rw [toJson, ofJson?, orElse_located (by simp), located, Json.need_tagged 0 (by simp)]
    dsimp only [Option.bind_eq_bind, Option.bind_some, Json.form?, Json.named]
    cases no with
    | none => simp [Json.tagged, Json.need, Expr.readsBack c, ihyes, toJsonOption]
    | some no =>
      obtain ⟨kind, fields, htagged⟩ := no.exists_toJson_eq_tagged
      have hno : ofJson? (.tagged kind fields) = some no := htagged ▸ ihno no rfl
      rw [Json.tagged] at htagged hno
      simp [Json.tagged, Json.need, Expr.readsBack c, ihyes, toJsonOption, htagged, hno]
  | _ =>
    rw [toJson, ofJson?, orElse_located (by simp), located, Json.need_tagged 0 (by simp)]
    dsimp only [Option.bind_eq_bind, Option.bind_some, Json.form?, Json.named]
    simp [Json.tagged, Json.need, Json.str?, Expr.readsBack _, Action.readsBack true _, *]

theorem readsBack_text : ReadsBack toJson ofText? := by
  intro s
  obtain ⟨kind, fields, htagged⟩ := s.exists_toJson_eq_tagged
  have hwholly : s.toJson.whollyBut "location" = some () := by
    have hfit := s.fit_toJson
    rw [htagged] at hfit ⊢
    exact Json.whollyBut_of_fit hfit "location"
  rw [ofText?, hwholly, readsBack s]
  rfl

end Statement

section Scenario

theorem Position.readsBack_nullable :
    ReadsBack (Json.ofOption Position.toJson) (Json.nullable? Position.ofJson?) :=
  Position.readsBack.nullable fun _ ↦ nofun

theorem TaskSpec.ofJson?_fields (t : TaskSpec) {more : List (String × Json)}
    (hmore : ∀ name ∈ ["name", "priority", "activities", "selected"], Json.Lacks more name) :
    TaskSpec.ofJson? (.obj (t.fields ++ more)) = some t := by
  have hpriority : (Json.ofOption .ofInt32 t.priority).nullable? Json.int32? = some t.priority :=
    Json.ReadsBack.nullable Json.int32?_ofInt32 (fun _ ↦ nofun) t.priority
  simp only [List.forall_mem_cons] at hmore
  simp [TaskSpec.fields, TaskSpec.ofJson?, Json.need, Json.atMost, Json.str?, hmore,
    hpriority, Statement.readsBack_text t.activities, Position.readsBack_nullable t.selected]

theorem TaskSpec.readsBack : ReadsBack TaskSpec.toJson TaskSpec.ofJson? := by
  intro t
  have h : TaskSpec.ofJson? (.obj (t.fields ++ [])) = some t := t.ofJson?_fields (by simp)
  rwa [List.append_nil] at h

theorem TaskSpec.fit_fields (t : TaskSpec) : ∀ f ∈ t.fields, f.2.fit = true := by
  have hpriority : (Json.ofOption .ofInt32 t.priority).fit = true :=
    Json.fit_ofOption (fun _ ↦ rfl) t.priority
  have hselected : (Json.ofOption Position.toJson t.selected).fit = true :=
    Json.fit_ofOption (fun _ ↦ rfl) t.selected
  simp [TaskSpec.fields, hpriority, hselected]

theorem Posting.readsBack : ReadsBack Posting.toJson Posting.ofJson? := by
  intro t
  have hfactions : ((Json.ofList FactionId.toJson t.factions).list? FactionId.ofJson?) =
      some t.factions := FactionId.readsBack.list t.factions
  have hfit : t.toJson.fit = true := by
    have hlist : (Json.ofList FactionId.toJson t.factions).fit = true := by
      simp [Json.ofList, FactionId.toJson, Json.ofUInt32]
    simp only [Posting.toJson, Json.fit_obj, List.forall_mem_append]
    exact ⟨t.task.fit_fields, by simpa using hlist⟩
  have htask : TaskSpec.ofJson? t.toJson = some t.task := t.task.ofJson?_fields (by simp)
  have hwholly : t.toJson.whollyBut "factions" = some () := Json.whollyBut_of_fit hfit "factions"
  rw [Posting.ofJson?, hwholly, htask]
  simp [Posting.toJson, TaskSpec.fields, Json.named, hfactions]

theorem Deposit.readsBack : ReadsBack Deposit.toJson Deposit.ofJson? := by
  intro d
  simp [Deposit.toJson, Deposit.ofJson?, Json.need, Json.atMost, Position.readsBack d.position,
    Resource.readsBack false d.kind]

theorem Recruit.ofJson?_obj {u : Recruit} {id : Json} (hid : UnitId.ofJson? id = some u.id) :
    Recruit.ofJson? (.obj [("id", id), ("faction", u.faction.toJson),
      ("position", u.position.toJson), ("carries", .ofOption Resource.toJson u.carries),
      ("health", .ofUInt32 u.health)]) = some u := by
  have hcarries : (Json.ofOption Resource.toJson u.carries).nullable? (Resource.ofJson? false) =
      some u.carries := (Resource.readsBack false).nullable (fun _ ↦ nofun) u.carries
  simp [Recruit.ofJson?, Json.need, Json.atMost, hid, FactionId.readsBack u.faction,
    Position.readsBack u.position, hcarries]

theorem Recruit.readsBack : ReadsBack Recruit.toJson Recruit.ofJson? :=
  fun u ↦ Recruit.ofJson?_obj (UnitId.readsBack u.id)

theorem Scenario.readsBack : ReadsBack Scenario.toJson Scenario.ofJson? := by
  intro s
  simp [Scenario.toJson, Scenario.ofJson?, Json.atMost,
    Position.readsBack.list s.solid, Deposit.readsBack.list s.resources,
    Recruit.readsBack.list s.units, Posting.readsBack.list s.tasks]

end Scenario

section Settings

theorem ExecutionSettings.readsBack :
    ReadsBack ExecutionSettings.toJson ExecutionSettings.ofJson? := by
  intro s
  simp [ExecutionSettings.toJson, ExecutionSettings.ofJson?, Json.atMost]

theorem SchedulerSettings.readsBack :
    ReadsBack SchedulerSettings.toJson SchedulerSettings.ofJson? := by
  intro s
  simp [SchedulerSettings.toJson, SchedulerSettings.ofJson?, Json.atMost]

theorem SandboxSettings.readsBack : ReadsBack SandboxSettings.toJson SandboxSettings.ofJson? := by
  intro s
  simp [SandboxSettings.toJson, SandboxSettings.ofJson?, Json.atMost]

theorem Settings.readsBack : ReadsBack Settings.toJson Settings.ofJson? := by
  intro s
  simp [Settings.toJson, Settings.ofJson?, Json.atMost,
    ExecutionSettings.readsBack s.execution, SchedulerSettings.readsBack s.scheduler,
    SandboxSettings.readsBack s.sandbox]

end Settings

/-- Definitions, values and settings are read back from what they are written as. -/
theorem definitions_roundTrip :
    RoundTrips Expr.toJson Expr.ofText? ∧ RoundTrips Expr.toJson Expr.ofJson? ∧
      RoundTrips Statement.toJson Statement.ofText? ∧
      RoundTrips Statement.toJson Statement.ofJson? ∧
      RoundTrips TaskSpec.toJson TaskSpec.ofJson? ∧ RoundTrips Scenario.toJson Scenario.ofJson? ∧
      RoundTrips Value.toJson Value.ofJson? ∧ RoundTrips Settings.toJson Settings.ofJson? :=
  ⟨Expr.readsBack_text.roundTrips, Expr.readsBack.roundTrips,
    Statement.readsBack_text.roundTrips, Statement.readsBack.roundTrips,
    TaskSpec.readsBack.roundTrips, Scenario.readsBack.roundTrips,
    Value.readsBack.roundTrips, Settings.readsBack.roundTrips⟩

end Errand
