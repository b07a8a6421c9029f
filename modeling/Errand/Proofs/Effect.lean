import Errand.Effect
import Mathlib.Tactic.Common

namespace Errand

variable {α β ε σ : Type}

theorem forM_congr {f g : α → Except ε Unit} {xs : List α} (h : ∀ x ∈ xs, f x = g x) :
    xs.forM f = xs.forM g := by
  induction xs with
  | nil => rfl
  | cons x xs ih =>
    obtain ⟨hx, hxs⟩ := List.forall_mem_cons.1 h
    rw [List.forM_eq_forM, List.forM_cons, hx, ← List.forM_eq_forM, ih hxs]
    rfl

theorem forM_eq_ok {f : α → Except ε Unit} {xs : List α} :
    xs.forM f = .ok () ↔ ∀ x ∈ xs, f x = .ok () := by
  induction xs with
  | nil => simp [pure, Except.pure]
  | cons x xs ih =>
    have hc : (x :: xs).forM f = (do f x; xs.forM f) := rfl
    rw [hc]
    cases hx : f x with
    | error e => simp [hx, bind, Except.bind]
    | ok u =>
      rw [List.forall_mem_cons, ← ih, hx]
      exact (and_iff_right rfl).symm

theorem refuse_eq_ok {c : Prop} [Decidable c] {e : ε} :
    (if c then throw e else pure () : Except ε Unit) = .ok () ↔ ¬ c := by
  by_cases h : c
  · simp [h, throw, throwThe, MonadExceptOf.throw]
  · simp [h, pure, Except.pure]

theorem refuse_bind_eq_ok {c : Prop} [Decidable c] {e : ε} {x : Except ε Unit} :
    (if c then do throw e; x else x : Except ε Unit) = .ok () ↔ ¬ c ∧ x = .ok () := by
  by_cases h : c
  · simp [h, throw, throwThe, MonadExceptOf.throw, bind, Except.bind]
  · simp [h]

theorem require_eq_ok {c : Prop} [Decidable c] {e : ε} :
    (if c then pure () else throw e : Except ε Unit) = .ok () ↔ c := by
  by_cases h : c
  · simp [h, pure, Except.pure]
  · simp [h, throw, throwThe, MonadExceptOf.throw]

theorem bind_eq_ok {x y : Except ε Unit} :
    (do x; y) = .ok () ↔ x = .ok () ∧ y = .ok () := by
  cases x with
  | error e => simp [bind, Except.bind]
  | ok u => exact (and_iff_right rfl).symm

theorem foldlM_induction {P : β → Prop} {f : β → α → Except ε β}
    (hf : ∀ b a b', P b → f b a = .ok b' → P b') {as : List α} {b b' : β} (hb : P b)
    (h : as.foldlM f b = .ok b') : P b' := by
  induction as generalizing b with
  | nil =>
    cases h
    exact hb
  | cons a as ih =>
    rw [List.foldlM_cons] at h
    cases ha : f b a with
    | error e => simp [ha, bind, Except.bind] at h
    | ok b₁ =>
      rw [ha] at h
      exact ih (hf b a b₁ hb ha) h

theorem forall₂_of_mapM {f : α → Except ε β} {as : List α} {bs : List β} (h : as.mapM f = .ok bs) :
    List.Forall₂ (fun a b ↦ f a = .ok b) as bs := by
  induction as generalizing bs with
  | nil =>
    cases h
    exact .nil
  | cons a as ih =>
    rw [List.mapM_cons] at h
    cases ha : f a with
    | error e => simp [ha, bind, Except.bind] at h
    | ok b =>
      cases has : as.mapM f with
      | error e => simp [ha, has, bind, Except.bind] at h
      | ok rest =>
        rw [ha, has] at h
        cases h
        exact .cons ha (ih has)

theorem forall_mem_of_mapM {P : β → Prop} {f : α → Except ε β} (hf : ∀ a b, f a = .ok b → P b)
    {as : List α} {bs : List β} (h : as.mapM f = .ok bs) : ∀ b ∈ bs, P b := by
  have hall := forall₂_of_mapM h
  clear h
  induction hall with
  | nil => exact List.forall_mem_nil P
  | cons ha _ ih => exact List.forall_mem_cons.2 ⟨hf _ _ ha, ih⟩

/-- The operation has an answer if and only if `c` holds, and `post` holds of the answer and the state
that it leaves. -/
structure Decides (x : EStateM ε σ α) (s : σ) (c : Prop) (post : α → σ → Prop) : Prop where
  accepts : c → ∃ a s', x s = .ok a s' ∧ post a s'
  refuses : ¬ c → ∃ e s', x s = .error e s'

namespace Decides

variable {x : EStateM ε σ α} {s s' : σ} {a : α} {c d : Prop} {post post' : α → σ → Prop}

theorem of_ok (hx : x s = .ok a s') (hpost : post a s') : Decides x s True post :=
  ⟨fun _ ↦ ⟨a, s', hx, hpost⟩, fun h ↦ absurd trivial h⟩

theorem of_error {e : ε} (hx : x s = .error e s') (hc : ¬ c) : Decides x s c post :=
  ⟨fun h ↦ absurd h hc, fun _ ↦ ⟨e, s', hx⟩⟩

theorem congr (h : Decides x s c post) (hc : c ↔ d) : Decides x s d post :=
  ⟨fun hd ↦ h.accepts (hc.mpr hd), fun hd ↦ h.refuses fun h ↦ hd (hc.mp h)⟩

theorem mono (h : Decides x s c post) (hpost : ∀ a s', post a s' → post' a s') :
    Decides x s c post' where
  accepts hc := by
    obtain ⟨a, s', hx, ha⟩ := h.accepts hc
    exact ⟨a, s', hx, hpost a s' ha⟩
  refuses := h.refuses

theorem bind {f : α → EStateM ε σ β} {post' : β → σ → Prop} (h : Decides x s c post)
    (hf : ∀ a s', post a s' → Decides (f a) s' d post') : Decides (x >>= f) s (c ∧ d) post' where
  accepts hcd := by
    obtain ⟨a, s', hx, ha⟩ := h.accepts hcd.1
    rw [bind_of_ok hx]
    exact (hf a s' ha).accepts hcd.2
  refuses hcd := by
    by_cases hc : c
    · obtain ⟨a, s', hx, ha⟩ := h.accepts hc
      rw [bind_of_ok hx]
      exact (hf a s' ha).refuses fun hd ↦ hcd ⟨hc, hd⟩
    · obtain ⟨e, s', hx⟩ := h.refuses hc
      rw [bind_apply, hx]
      exact ⟨e, s', rfl⟩

theorem bind_of_true {f : α → EStateM ε σ β} {post' : β → σ → Prop} (h : Decides x s True post)
    (hf : ∀ a s', post a s' → Decides (f a) s' d post') : Decides (x >>= f) s d post' :=
  (h.bind hf).congr (by simp)

theorem bind_pure {f : α → β} {post' : β → σ → Prop} (h : Decides x s c post)
    (hf : ∀ a s', post a s' → post' (f a) s') : Decides (x >>= fun a ↦ pure (f a)) s c post' :=
  (h.bind fun a s' ha ↦ .of_ok rfl (hf a s' ha)).congr (by simp)

theorem get {f : σ → EStateM ε σ α} (h : Decides (f s) s c post) :
    Decides (MonadState.get >>= f) s c post := ⟨h.accepts, h.refuses⟩

theorem exists_ok_iff (h : Decides x s c post) : (∃ a s', x s = .ok a s') ↔ c := by
  constructor
  · rintro ⟨a, s', hx⟩
    by_contra hc
    obtain ⟨e, s'', he⟩ := h.refuses hc
    cases hx.symm.trans he
  · intro hc
    obtain ⟨a, s', hx, -⟩ := h.accepts hc
    exact ⟨a, s', hx⟩

theorem post_of_ok (h : Decides x s c post) (hx : x s = .ok a s') : post a s' := by
  obtain ⟨a', s'', hx', ha⟩ := h.accepts (h.exists_ok_iff.mp ⟨a, s', hx⟩)
  cases hx.symm.trans hx'
  exact ha

end Decides

end Errand
