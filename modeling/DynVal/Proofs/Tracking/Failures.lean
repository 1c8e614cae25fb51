import DynVal.Proofs.Tracking.Basic

/-!
# Following computations that may fail

Some functions run in a monad with failures on top of the one that relations run in. Such a function
is followed as the others are: it has the result or the failure that it has without effects
(`Tracking.finds` for missing results, `Tracking.runs` for errors).
-/

namespace DynVal.Tracking

variable {m : Type → Type} [Monad m] {ι : Type} (T : Tracking m ι) {α β ε : Type}

/-- The computation gives its plain result if there is one, and it has a property. -/
def finds (Q : α → Prop) (c : OptionT m α) (f : ι → OptionT Id α) : Prop :=
  T.gives (fun r => ∀ a ∈ r, Q a) c.run fun i => Id.run (f i).run

/-- The computation gives its plain result, which has a property, or its plain error. -/
def runs (Q : α → Prop) (c : ExceptT ε m α) (f : ι → ExceptT ε Id α) : Prop :=
  T.gives (fun r => ∀ a, r = .ok a → Q a) c.run fun i => Id.run (f i).run

variable {T} {Q : α → Prop} {R : β → Prop}

/-! ## Missing results -/

theorem finds_pure {a : α} (h : Q a) : T.finds Q (Pure.pure a) fun _ => Pure.pure a :=
  T.pure (by simpa using h)

theorem finds_failure : T.finds Q failure fun _ => failure := T.pure (by simp)

theorem finds_bind {c : OptionT m α} {k : α → OptionT m β} {f : ι → OptionT Id α}
    {l : ι → α → OptionT Id β} (hc : T.finds Q c f)
    (hk : ∀ a, Q a → T.finds R (k a) fun i => l i a) :
    T.finds R (c >>= k) fun i => f i >>= l i := by
  simp only [finds, OptionT.run_bind]
  refine T.bind_run (l := fun i r => r.elim (Pure.pure none) fun a => (l i a).run) hc
    fun r hr => ?_
  cases r with
  | some a => exact hk a (hr a rfl)
  | none => exact finds_failure

/-- What is done to a result in the end. -/
theorem finds_map {c : OptionT m α} {f : ι → OptionT Id α} (hc : T.finds Q c f) (φ : α → β) :
    T.finds (fun _ => True) (c >>= fun a => Pure.pure (φ a)) fun i =>
      f i >>= fun a => Pure.pure (φ a) :=
  finds_bind hc fun _ _ => finds_pure trivial

theorem finds_lift {c : m α} {f : ι → Id α} (hc : T.gives Q c fun i => Id.run (f i)) :
    T.finds Q (OptionT.lift c) fun i => OptionT.lift (f i) :=
  T.bind (g := fun a _ => some a) hc fun a ha => T.pure (by simpa using ha)

theorem finds_mapM {h : α → OptionT m β} {f : ι → α → OptionT Id β} {xs : List α}
    [LawfulMonad m] (hxs : ∀ x ∈ xs, T.finds R (h x) fun i => f i x) :
    T.finds (fun _ => True) (xs.mapM h) fun i => xs.mapM (f i) := by
  induction xs with
  | nil =>
    simp only [List.mapM_nil]
    exact finds_pure trivial
  | cons x xs ih =>
    simp only [List.mapM_cons]
    refine finds_bind (hxs x (by simp)) fun y _ => ?_
    exact finds_map (ih fun x hx => hxs x (by simp [hx])) _

/-! ## Errors -/

theorem runs_pure {a : α} (h : Q a) :
    T.runs Q (Pure.pure a : ExceptT ε m α) fun _ => Pure.pure a :=
  T.pure fun _ hb => Except.ok.inj hb ▸ h

theorem runs_throw {e : ε} : T.runs Q (throw e : ExceptT ε m α) fun _ => throw e :=
  T.pure fun _ h => by cases h

theorem runs_bind {c : ExceptT ε m α} {k : α → ExceptT ε m β} {f : ι → ExceptT ε Id α}
    {l : ι → α → ExceptT ε Id β} (hc : T.runs Q c f)
    (hk : ∀ a, Q a → T.runs R (k a) fun i => l i a) :
    T.runs R (c >>= k) fun i => f i >>= l i := by
  refine T.bind_run (l := fun i => ExceptT.bindCont (l i)) hc fun r hr => ?_
  cases r with
  | ok a => exact hk a (hr a rfl)
  | error e => exact runs_throw

theorem runs_map {c : ExceptT ε m α} {f : ι → ExceptT ε Id α} (hc : T.runs Q c f) (φ : α → β) :
    T.runs (fun _ => True) (c >>= fun a => Pure.pure (φ a)) fun i =>
      f i >>= fun a => Pure.pure (φ a) :=
  runs_bind hc fun _ _ => runs_pure trivial

variable [LawfulMonad m]

theorem runs_lift {c : m α} {f : ι → Id α} (hc : T.gives Q c fun i => Id.run (f i)) :
    T.runs Q (ExceptT.lift c : ExceptT ε m α) fun i => ExceptT.lift (f i) := by
  show T.gives _ (Except.ok <$> c) _
  rw [map_eq_pure_bind]
  exact T.bind (g := fun a _ => Except.ok a) hc fun a ha =>
    T.pure fun _ hb => Except.ok.inj hb ▸ ha

theorem runs_mapM {h : α → ExceptT ε m β} {f : ι → α → ExceptT ε Id β} {xs : List α}
    (hxs : ∀ x ∈ xs, T.runs R (h x) fun i => f i x) :
    T.runs (fun _ => True) (xs.mapM h) fun i => xs.mapM (f i) := by
  induction xs with
  | nil =>
    simp only [List.mapM_nil]
    exact runs_pure trivial
  | cons x xs ih =>
    simp only [List.mapM_cons]
    refine runs_bind (hxs x (by simp)) fun y _ => ?_
    exact runs_map (ih fun x hx => hxs x (by simp [hx])) _

end DynVal.Tracking
