import Errand.Json.Basic
import Mathlib.Tactic.Common

namespace Errand

namespace Json

variable {α : Type} {name other : String} {v w : Json} {fields rest : List (String × Json)}

section Find

def Lacks (fields : List (String × Json)) (name : String) : Prop :=
  ∀ f ∈ fields, f.1 ≠ name

@[simp] theorem lacks_nil (name : String) : Lacks [] name :=
  List.forall_mem_nil _

@[simp] theorem lacks_cons : Lacks ((other, w) :: rest) name ↔ other ≠ name ∧ Lacks rest name :=
  List.forall_mem_cons

theorem sizeOf_obj_lt (f : String × Json) (rest : List (String × Json)) :
    sizeOf (obj rest) < sizeOf (obj (f :: rest)) := by
  simp only [obj.sizeOf_spec, List.cons.sizeOf_spec]
  omega

@[simp] theorem find_cons_of_ne (i : Nat) (h : other ≠ name) :
    (obj ((other, w) :: rest)).find i name =
      ((obj rest).find i name).map
        (Option.map fun p ↦ ⟨p.1, Nat.lt_trans p.2 (sizeOf_obj_lt (other, w) rest)⟩) := by
  have hfilter : ((other, w) :: rest).attach.filter (·.1.1 == name) =
      (rest.attach.filter (·.1.1 == name)).map fun f ↦ ⟨f.1, List.mem_cons_of_mem _ f.2⟩ := by
    rw [List.attach_cons, List.filter_cons_of_neg (by simpa using h), List.filter_map]
    rfl
  simp only [find]
  rw [hfilter]
  generalize rest.attach.filter (·.1.1 == name) = found
  match found with
  | [] => rfl
  | [_] => rfl
  | _ :: _ :: _ => rfl

@[simp] theorem find_cons_self (i : Nat) (h : Lacks rest name) :
    (obj ((name, v) :: rest)).find i name =
      some (some ⟨v, @sizeOf_lt_obj (name, v) _ List.mem_cons_self⟩) := by
  have hfilter : ((name, v) :: rest).attach.filter (·.1.1 == name) =
      [⟨(name, v), List.mem_cons_self⟩] := by
    rw [List.attach_cons, List.filter_cons_of_pos (by simp), List.filter_map]
    simpa [List.filter_eq_nil_iff] using fun a b hmem ↦ h (a, b) hmem
  simp only [find]
  rw [hfilter]

@[simp] theorem orElse_cons_of_ne (i : Nat) (h : other ≠ name) (default : α) (read : Json → Option α) :
    (obj ((other, w) :: rest)).orElse i name default read = (obj rest).orElse i name default read := by
  rw [orElse, orElse, find_cons_of_ne i h]
  match (obj rest).find i name with
  | none => rfl
  | some none => rfl
  | some (some _) => rfl

@[simp] theorem orElse_cons_self (i : Nat) (h : Lacks rest name) (default : α) (read : Json → Option α) :
    (obj ((name, v) :: rest)).orElse i name default read = read v := by
  rw [orElse, find_cons_self i h]

end Find

section Fit

@[simp] theorem fit_null : null.fit = true := rfl

@[simp] theorem fit_int (n : Int) : (int n).fit = true := rfl

@[simp] theorem fit_str (s : String) : (str s).fit = true := rfl

@[simp] theorem fit_arr (items : List Json) :
    (arr items).fit = true ↔ ∀ j ∈ items, j.fit = true := by
  rw [fit]
  induction items with
  | nil => simp [fitItems]
  | cons j items ih => simp [fitItems, ih]

@[simp] theorem fit_obj (fields : List (String × Json)) :
    (obj fields).fit = true ↔ ∀ f ∈ fields, f.2.fit = true := by
  rw [fit]
  induction fields with
  | nil => simp [fitFields]
  | cons f fields ih => simp [fitFields, ih]

theorem fit_ofOption {write : α → Json} (h : ∀ x, (write x).fit = true) (a : Option α) :
    (ofOption write a).fit = true := by
  cases a with
  | none => rfl
  | some a => exact h a

theorem whollyBut_of_fit (h : (obj fields).fit = true) (name : String) :
    (obj fields).whollyBut name = some () := by
  have hall : (fields.all fun f ↦ f.1 == name || f.2.fit) = true := by
    rw [List.all_eq_true]
    intro f hf
    rw [(fit_obj fields).1 h f hf, Bool.or_true]
  rw [whollyBut, if_pos hall]

end Fit

section ReadsBack

def ReadsBack (write : α → Json) (read : Json → Option α) : Prop :=
  ∀ x, read (write x) = some x

/-- Whatever is written is read back as it was, and any value that is read is the same again when
it is written and read once more. -/
def RoundTrips (write : α → Json) (read : Json → Option α) : Prop :=
  ReadsBack write read ∧ ∀ j x, read j = some x → read (write x) = read j

variable {write : α → Json} {read : Json → Option α}

theorem ReadsBack.roundTrips (h : ReadsBack write read) : RoundTrips write read :=
  ⟨h, fun _ x hread ↦ (h x).trans hread.symm⟩

theorem unattach_items (items : List Json) :
    (items.attach.map fun v ↦ (⟨v.1, sizeOf_lt_arr v.2⟩ : (arr items).Part)).unattach = items := by
  rw [List.unattach, List.map_map]
  exact List.attach_map_subtype_val items

theorem mapM_map_of_readsBack {as : List α} (h : ∀ a ∈ as, read (write a) = some a) :
    (as.map write).mapM read = some as := by
  induction as with
  | nil => rfl
  | cons a as ih =>
    obtain ⟨ha, has⟩ := List.forall_mem_cons.1 h
    simp [ha, ih has]

theorem ReadsBack.list (h : ReadsBack write read) : ReadsBack (ofList write) (list? read) :=
  fun _ ↦ mapM_map_of_readsBack fun a _ ↦ h a

theorem ReadsBack.nullable (h : ReadsBack write read) (hnull : ∀ x, write x ≠ null) :
    ReadsBack (ofOption write) (nullable? read) := by
  intro a
  cases a with
  | none => rfl
  | some a =>
    have hread : nullable? read (write a) = (read (write a)).map some := by
      rw [nullable?]
      exact hnull a
    rw [ofOption, hread, h a, Option.map_some]

@[simp] theorem int32?_ofInt32 (a : Int32) : (ofInt32 a).int32? = some a := by
  rw [ofInt32, int32?, int?, Option.bind_some, Errand.int32?_toInt]

@[simp] theorem uint32?_ofUInt32 (a : UInt32) : (ofUInt32 a).uint32? = some a := by
  rw [ofUInt32, uint32?, int?, Option.bind_some, Errand.uint32?_toNat]

@[simp] theorem uint64?_ofUInt64 (a : UInt64) : (ofUInt64 a).uint64? = some a := by
  rw [ofUInt64, uint64?, int?, Option.bind_some, Errand.uint64?_toNat]

end ReadsBack

end Json

end Errand
