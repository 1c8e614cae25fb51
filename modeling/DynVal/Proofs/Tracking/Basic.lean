import DynVal.Proofs.Sorting.Sorted
import DynVal.Value.Relations

/-!
# Following computations by their plain results

The library runs in a monad in which relations between values may have effects, but what comes out
is what comes out without effects. `Tracking` says what such statements have to obey: `holds Q c`
states a property of the result of a computation, which may depend on an index, and `gives Q c f`
that the result is the plain one for each index. A statement about a function that is written for
any monad is then proved once, by going through the function, and holds of every way to relate the
relations that the function is given.

* `gives_sortM`: sorting gives what it gives without effects, where each comparison does so.
* `gives_lexM`, `gives_allPairs`, `gives_foldM` and so on: the loops over lists.
-/

namespace DynVal

open Std Sorting

/-- What may be said of the result of a computation in `m`, depending on an index. -/
structure Tracking (m : Type → Type) [Monad m] (ι : Type) where
  holds : {α : Type} → (α → ι → Prop) → m α → Prop
  holds_pure : ∀ {α : Type} {Q : α → ι → Prop} {a : α}, (∀ i, Q a i) → holds Q (Pure.pure a)
  holds_bind : ∀ {α β : Type} {Q : α → ι → Prop} {R : β → ι → Prop} {c : m α} {k : α → m β},
    holds Q c → (∀ a, (∃ i, Q a i) → holds (fun b i => Q a i → R b i) (k a)) → holds R (c >>= k)
  holds_mono : ∀ {α : Type} {Q R : α → ι → Prop} {c : m α}, holds Q c →
    (∀ a i, Q a i → R a i) → holds R c
  holds_exec : ∀ {α β : Type} {P : α → Prop} {Q : β → Prop} {ask : α → α → m Bool}
    {before : ι → α → α → Bool} {c : Comparing α β}, (∀ i, c.Yields (before i) P Q) →
      (∀ x y, P x → P y → holds (fun b i => b = before i x y) (ask x y)) →
      holds (fun b i => Q b ∧ b = c.eval (before i)) (c.exec ask)

namespace Tracking

variable {m : Type → Type} [Monad m] {ι : Type} (T : Tracking m ι) {α β : Type}

/-- The computation gives its plain results, and they have a property. -/
def gives (Q : α → Prop) (c : m α) (f : ι → α) : Prop := T.holds (fun a i => Q a ∧ a = f i) c

/-- The computation gives its plain results. -/
abbrev givesAny (c : m α) (f : ι → α) : Prop := T.gives (fun _ => True) c f

theorem pure {Q : α → Prop} {a : α} (h : Q a) : T.gives Q (Pure.pure a) fun _ => a :=
  T.holds_pure fun _ => ⟨h, rfl⟩

theorem bind {Q : α → Prop} {R : β → Prop} {c : m α} {k : α → m β} {f : ι → α} {g : α → ι → β}
    (hc : T.gives Q c f) (hk : ∀ a, Q a → T.gives R (k a) (g a)) :
    T.gives R (c >>= k) fun i => g (f i) i := by
  refine T.holds_bind hc fun a ⟨_, ha, _⟩ => T.holds_mono (hk a ha) ?_
  rintro b i ⟨hb, rfl⟩ ⟨-, rfl⟩
  exact ⟨hb, rfl⟩

/-- What follows may be left in the form it has in the plain computation. -/
theorem bind_run {Q : α → Prop} {R : β → Prop} {c : m α} {k : α → m β} {f : ι → α}
    {l : ι → α → Id β} (hc : T.gives Q c f)
    (hk : ∀ a, Q a → T.gives R (k a) fun i => Id.run (l i a)) :
    T.gives R (c >>= k) fun i => Id.run (@Bind.bind Id _ _ _ (f i) (l i)) :=
  T.bind (g := fun a i => Id.run (l i a)) hc hk

theorem exec {P : α → Prop} {Q : β → Prop} {ask : α → α → m Bool} {before : ι → α → α → Bool}
    {c : Comparing α β} (hc : ∀ i, c.Yields (before i) P Q)
    (hask : ∀ x y, P x → P y → T.givesAny (ask x y) fun i => before i x y) :
    T.gives Q (c.exec ask) fun i => c.eval (before i) :=
  T.holds_exec hc fun x y hx hy => T.holds_mono (hask x y hx hy) fun _ _ h => h.2

variable {T}

theorem ite {Q : α → Prop} {c : m Bool} {f : ι → Bool} {k l : m α} {g h : ι → α}
    (hc : T.givesAny c f) (hk : T.gives Q k g) (hl : T.gives Q l h) :
    T.gives Q (c >>= fun b => if b = true then k else l)
      fun i => if f i = true then g i else h i := by
  refine T.bind (g := fun b i => if b = true then g i else h i) hc fun b _ => ?_
  cases b with
  | true => exact hk
  | false => exact hl

theorem map {P : α → Prop} {Q : β → Prop} {c : m α} {f : ι → α} (hc : T.gives P c f)
    (φ : α → β) (hφ : ∀ a, P a → Q (φ a)) :
    T.gives Q (c >>= fun a => Pure.pure (φ a)) fun i => φ (f i) :=
  T.bind (g := fun a _ => φ a) hc fun a ha => T.pure (hφ a ha)

/-! ## Sorting and comparing in sequence -/

theorem gives_isBefore {cmp : α → α → m Ordering} {cmp' : ι → α → α → Ordering} {x y : α}
    (h : T.givesAny (cmp x y) fun i => cmp' i x y) :
    T.givesAny (isBeforeM cmp x y) fun i => cmp' i x y == .lt := by
  refine T.bind (g := fun o _ => o == .lt) h fun o _ => ?_
  cases o <;> exact T.pure trivial

theorem gives_sortM {P : α → Prop} {cmp : α → α → m Ordering} {cmp' : ι → α → α → Ordering}
    (ht : ∀ i, TransCmp (cmp' i)) (grain : Grain) {xs : List α} (hxs : ∀ x ∈ xs, P x)
    (h : ∀ x y, P x → P y → T.givesAny (cmp x y) fun i => cmp' i x y) :
    T.gives (fun ys => ∀ y ∈ ys, P y) (sortM grain cmp xs) fun i => sorted grain (cmp' i) xs := by
  simp only [sorted_eq_eval]
  refine @exec _ _ _ T _ _ P _ _ (fun i x y => cmp' i x y == .lt) _ (fun i => ?_)
    fun x y hx hy => gives_isBefore (h x y hx hy)
  refine (yields_sort weakOrder_lt grain hxs).mono ?_
  exact fun ys hys y hy => hxs y (hys.mem_iff.mp hy)

theorem gives_then {c d : m Ordering} {f g : ι → Ordering} (hc : T.givesAny c f)
    (hd : T.givesAny d g) : T.givesAny (thenM c d) fun i => (f i).then (g i) := by
  refine T.bind (g := fun o i => o.then (g i)) hc fun o _ => ?_
  cases o with
  | eq => exact hd
  | lt => exact T.pure trivial
  | gt => exact T.pure trivial

theorem gives_lexM {cmp : α → α → m Ordering} {cmp' : ι → α → α → Ordering} {xs ys : List α}
    (h : ∀ x ∈ xs, ∀ y ∈ ys, T.givesAny (cmp x y) fun i => cmp' i x y) :
    T.givesAny (lexM cmp xs ys) fun i => List.compareLex (cmp' i) xs ys := by
  induction xs generalizing ys with
  | nil =>
    cases ys with
    | nil => exact T.pure trivial
    | cons y ys => exact T.pure trivial
  | cons x xs ih =>
    cases ys with
    | nil => exact T.pure trivial
    | cons y ys =>
      simp only [List.compareLex_cons_cons]
      exact gives_then (h x (by simp) y (by simp))
        (ih fun x hx y hy => h x (by simp [hx]) y (by simp [hy]))

theorem gives_compareEntries {cmp : Value → Value → m Ordering}
    {cmp' : ι → Value → Value → Ordering} {P : Value → Prop}
    (h : ∀ x y, P x → P y → T.givesAny (cmp x y) fun i => cmp' i x y) {a b : Value × Value}
    (ha : P a.1 ∧ P a.2) (hb : P b.1 ∧ P b.2) :
    T.givesAny (Value.compareEntries cmp a b)
      fun i => (cmp' i a.1 b.1).then (cmp' i a.2 b.2) :=
  gives_then (h _ _ ha.1 hb.1) (h _ _ ha.2 hb.2)

/-! ## Loops over lists -/

theorem gives_allPairs {eq : Value → Value → m Bool} {eq' : ι → Value → Value → Bool}
    {xs ys : List Value} (h : ∀ x ∈ xs, ∀ y ∈ ys, T.givesAny (eq x y) fun i => eq' i x y) :
    T.givesAny (Value.allPairsM eq xs ys) fun i => Value.allPairsM (m := Id) (eq' i) xs ys := by
  induction xs generalizing ys with
  | nil => exact T.pure trivial
  | cons x xs ih =>
    cases ys with
    | nil => exact T.pure trivial
    | cons y ys =>
      exact ite (h x (by simp) y (by simp))
        (ih fun x hx y hy => h x (by simp [hx]) y (by simp [hy])) (T.pure trivial)

theorem gives_equalToSome {eq : Value → Value → m Bool} {eq' : ι → Value → Value → Bool}
    {x : Value} {ys : List Value} (h : ∀ y ∈ ys, T.givesAny (eq x y) fun i => eq' i x y) :
    T.givesAny (Value.equalToSomeM eq x ys)
      fun i => Value.equalToSomeM (m := Id) (eq' i) x ys := by
  induction ys with
  | nil => exact T.pure trivial
  | cons y ys ih =>
    exact ite (h y (by simp)) (T.pure trivial) (ih fun y hy => h y (by simp [hy]))

theorem gives_every {test : Value → m Bool} {test' : ι → Value → Bool} {xs : List Value}
    (h : ∀ x ∈ xs, T.givesAny (test x) fun i => test' i x) :
    T.givesAny (Value.everyM test xs) fun i => Value.everyM (m := Id) (test' i) xs := by
  induction xs with
  | nil => exact T.pure trivial
  | cons x xs ih =>
    exact ite (h x (by simp)) (ih fun x hx => h x (by simp [hx])) (T.pure trivial)

open Digest

theorem gives_foldM {hash : Value → m UInt64} {hash' : ι → Value → UInt64} {xs : List Value}
    (h : ∀ x ∈ xs, T.givesAny (hash x) fun i => hash' i x) (seed : UInt64) :
    T.givesAny (foldM hash seed xs) fun i => foldM (m := Id) (hash' i) seed xs := by
  induction xs generalizing seed with
  | nil => exact T.pure trivial
  | cons x xs ih =>
    exact T.bind (g := fun d i => foldM (m := Id) (hash' i) (mix seed d) xs) (h x (by simp))
      fun d _ => ih (fun x hx => h x (by simp [hx])) _

theorem gives_foldFields {hash : Value → m UInt64} {hash' : ι → Value → UInt64}
    {fs : List (Tag × Value)} (h : ∀ f ∈ fs, T.givesAny (hash f.2) fun i => hash' i f.2)
    (seed : UInt64) :
    T.givesAny (foldFieldsM hash seed fs) fun i => foldFieldsM (m := Id) (hash' i) seed fs := by
  induction fs generalizing seed with
  | nil => exact T.pure trivial
  | cons f fs ih =>
    exact T.bind (g := fun d i => foldFieldsM (m := Id) (hash' i) (mix (mix seed (ofTag f.1)) d) fs)
      (h f (by simp)) fun d _ => ih (fun f hf => h f (by simp [hf])) _

theorem gives_foldEntries {hash : Value → m UInt64} {hash' : ι → Value → UInt64}
    {es : List (Value × Value)}
    (h : ∀ e ∈ es, (T.givesAny (hash e.1) fun i => hash' i e.1) ∧
      T.givesAny (hash e.2) fun i => hash' i e.2) (seed : UInt64) :
    T.givesAny (foldEntriesM hash seed es) fun i => foldEntriesM (m := Id) (hash' i) seed es := by
  induction es generalizing seed with
  | nil => exact T.pure trivial
  | cons e es ih =>
    refine T.bind
      (g := fun k i => foldEntriesM (m := Id) (hash' i) (mix (mix seed k) (hash' i e.2)) es)
      (h e (by simp)).1 fun k _ => ?_
    exact T.bind (g := fun v i => foldEntriesM (m := Id) (hash' i) (mix (mix seed k) v) es)
      (h e (by simp)).2 fun v _ => ih (fun e he => h e (by simp [he])) _

end Tracking
end DynVal
