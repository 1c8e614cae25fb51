import DynVal.Lists
import DynVal.Proofs.Store.Keeping

/-!
# Operations on lists keep values sound

What these operations make holds only what they were given, and shows its elements through the
backings as they are then.
-/

namespace DynVal

open Op

namespace ListNode

variable {g : Stage} {l k : ListNode} {x : Value} {xs : List Value}

/-- A list that makes a sound value. -/
def Made (g : Stage) (l : ListNode) : Prop := (Value.list l).Sound g

theorem shows_of_sound (hl : (Value.list l).Sound g) :
    l.body.Shows g.backings l.body.shown.toList := hl.here.shows l rfl

theorem elements_sound (hl : (Value.list l).Sound g) : ∀ y ∈ l.body.shown.toList, y.Sound g :=
  hl.parts

theorem yields_shareSequence {s : Sequence Value} (h : s.Shows g.backings xs)
    (hxs : ∀ y ∈ xs, y.Sound g) :
    Yields g (share s) fun g' l => Made g' l ∧ l.body.shown.toList = xs := by
  have hself : s.Shows g.backings s.shown.toList := h.shown.symm ▸ h
  refine (yields_share .list (fun _ => rfl) (fun n p hp => hxs p ?_) (fun n ρ _ => ?_)
    fun n l hl => ?_).mono fun _ _ _ h' => ⟨h'.2, by rw [h'.1, h.shown]⟩
  · rw [← h.shown]
    exact hp
  · show s.shown.size = s.length
    rw [hself.length_eq]
    exact Array.length_toList.symm
  · cases hl
    exact hself

theorem keeps_shareSequence {s : Sequence Value} (h : s.Shows g.backings xs)
    (hxs : ∀ y ∈ xs, y.Sound g) : Keeps g (share s) Made :=
  (yields_shareSequence h hxs).keeps.mono fun _ _ _ h => h.1

/-- A list over backings that were added or pushed onto. -/
theorem yields_shareBackings {f : Backings Value → Sequence Value × Backings Value}
    (hg : Sequence.Grows g.backings (f g.backings).2)
    (hs : (f g.backings).1.Shows (f g.backings).2 xs) (hxs : ∀ y ∈ xs, y.Sound g) :
    Yields g (do Op.share (← withBackings f))
      fun g' l => Made g' l ∧ l.body.shown.toList = xs := by
  refine yields_bind (yields_withBackings hg) fun g' s hext h => ?_
  refine @yields_shareSequence _ xs _ ?_ fun y hy => (hxs y hy).extends hext
  rw [h.1, h.2]
  exact hs

theorem keeps_shareBackings {f : Backings Value → Sequence Value × Backings Value}
    (hg : Sequence.Grows g.backings (f g.backings).2)
    (hs : (f g.backings).1.Shows (f g.backings).2 xs) (hxs : ∀ y ∈ xs, y.Sound g) :
    Keeps g (do Op.share (← withBackings f)) Made :=
  (yields_shareBackings hg hs hxs).keeps.mono fun _ _ _ h => h.1

/-- A list at hand, if there is no error. -/
theorem keeps_shareOk {r : Except Error (Sequence Value)}
    (h : ∀ s, r = .ok s → ∃ xs, s.Shows g.backings xs ∧ ∀ y ∈ xs, y.Sound g) :
    Keeps g (do Op.share (← Op.ofExcept r)) Made := by
  cases r with
  | error e => exact keeps_throw _
  | ok s =>
    obtain ⟨xs, hs, hxs⟩ := h s rfl
    exact keeps_shareSequence hs hxs

/-- The list that was given serves, or else a new one. -/
theorem keeps_shareOr {s : Option (Sequence Value)} (hl : (Value.list l).Sound g)
    (hs : (s.getD l.body).Shows g.backings xs) (hxs : ∀ y ∈ xs, y.Sound g) :
    Keeps g (shareOr l s) Made := by
  cases s with
  | none => exact (yields_pure (Q := Made) hl).keeps
  | some s => exact keeps_shareSequence hs hxs

section Operations

variable (hl : (Value.list l).Sound g) (hk : (Value.list k).Sound g) (hx : x.Sound g)

theorem yields_make (hxs : ∀ y ∈ xs, y.Sound g) :
    Yields g (make xs) fun g' l => Made g' l ∧ l.body.shown.toList = xs :=
  yields_shareBackings (Sequence.grows_ofArray _ _) (Sequence.shows_ofArray _ _) hxs

include hl

theorem keeps_append (hx : x.Sound g) : Keeps g (l.append x) Made := by
  have hs := shows_of_sound hl
  refine keeps_shareBackings (Sequence.grows_append hs x) (Sequence.shows_append hs x) ?_
  exact List.forall_mem_append.mpr ⟨elements_sound hl, by simpa using hx⟩

theorem keeps_prepend (hx : x.Sound g) : Keeps g (l.prepend x) Made :=
  keeps_backings (keeps_shareSequence (Sequence.shows_prepend (shows_of_sound hl) x)
    (List.forall_mem_cons.mpr ⟨hx, elements_sound hl⟩))

theorem keeps_assoc (i : Nat) (hx : x.Sound g) : Keeps g (l.assoc i x) Made := by
  refine keeps_backings (keeps_shareOk fun s hs => ?_)
  have hshows := shows_of_sound hl
  obtain ⟨t, ht, hst⟩ := Sequence.shows_assoc hshows (hshows.lt_of_ok hs) x
  obtain rfl : s = t := Except.ok.inj (hs.symm.trans ht)
  refine ⟨_, hst, fun y hy => ?_⟩
  rcases List.mem_or_eq_of_mem_set hy with hy | rfl
  · exact elements_sound hl y hy
  · exact hx

theorem keeps_assocBefore (i : Nat) (hx : x.Sound g) : Keeps g (l.assocBefore i x) Made := by
  refine keeps_backings (keeps_shareOk fun s hs => ?_)
  have hshows := shows_of_sound hl
  obtain ⟨t, ht, hst⟩ := Sequence.shows_assocBefore hshows (hshows.lt_of_ok hs) x
  obtain rfl : s = t := Except.ok.inj (hs.symm.trans ht)
  refine ⟨_, hst, fun y hy => ?_⟩
  rcases List.eq_or_mem_of_mem_insertIdx hy with rfl | hy
  · exact hx
  · exact elements_sound hl y hy

theorem keeps_assocAfter (i : Nat) (hx : x.Sound g) : Keeps g (l.assocAfter i x) Made := by
  refine keeps_backings (keeps_shareOk fun s hs => ?_)
  have hshows := shows_of_sound hl
  obtain ⟨t, ht, hst⟩ := Sequence.shows_assocAfter hshows (hshows.lt_of_ok hs) x
  obtain rfl : s = t := Except.ok.inj (hs.symm.trans ht)
  refine ⟨_, hst, fun y hy => ?_⟩
  rcases List.eq_or_mem_of_mem_insertIdx hy with rfl | hy
  · exact hx
  · exact elements_sound hl y hy

theorem keeps_dissoc (i : Nat) : Keeps g (l.dissoc i) Made := by
  refine keeps_backings (keeps_shareOk fun s hs => ?_)
  have hshows := shows_of_sound hl
  obtain ⟨t, ht, hst⟩ := Sequence.shows_dissoc hshows (hshows.lt_of_ok hs)
  obtain rfl : s = t := Except.ok.inj (hs.symm.trans ht)
  exact ⟨_, hst, fun y hy => elements_sound hl y (List.mem_of_mem_eraseIdx hy)⟩

theorem keeps_slice (start stop : Nat) : Keeps g (l.slice start stop) Made := by
  refine keeps_shareOk fun s hs => ?_
  have hshows := shows_of_sound hl
  have hbounds : start ≤ stop ∧ stop ≤ l.body.shown.toList.length := by
    unfold Sequence.slice at hs
    rw [hshows.length_eq] at hs
    split at hs
    · cases hs
    split at hs
    · cases hs
    · omega
  obtain ⟨t, ht, hst⟩ := Sequence.shows_slice hshows hbounds.1 hbounds.2
  obtain rfl : s = t := Except.ok.inj (hs.symm.trans ht)
  exact ⟨_, hst, fun y hy => elements_sound hl y (List.mem_of_mem_drop (List.mem_of_mem_take hy))⟩

theorem keeps_rest : Keeps g l.rest Made :=
  keeps_shareOr hl (Sequence.shows_rest (shows_of_sound hl))
    fun y hy => elements_sound hl y (List.mem_of_mem_tail hy)

theorem keeps_reverse : Keeps g l.reverse Made :=
  keeps_backings (keeps_shareSequence (Sequence.shows_reverse (shows_of_sound hl))
    fun y hy => elements_sound hl y (List.mem_reverse.mp hy))

omit hl in
theorem keeps_refill (hxs : ∀ y ∈ xs, y.Sound g) : Keeps g (l.refill xs) Made :=
  keeps_shareBackings (Sequence.grows_refill _ _ _) (Sequence.shows_refill _ _ _) hxs

include hk

theorem keeps_concat : Keeps g (l.concat k) Made := by
  unfold concat
  split
  · exact (yields_pure (Q := Made) hl).keeps
  split
  · exact (yields_pure (Q := Made) hk).keeps
  · exact keeps_shareBackings (Sequence.grows_concat _ _ _)
      (Sequence.shows_concat (shows_of_sound hl) (shows_of_sound hk))
      (List.forall_mem_append.mpr ⟨elements_sound hl, elements_sound hk⟩)

end Operations

end ListNode

end DynVal
