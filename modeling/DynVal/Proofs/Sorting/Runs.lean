import DynVal.Proofs.Sorting.Merge
import DynVal.Sorting.Runs

/-!
# Merging runs puts a list in order

* `yields_firstRun`: the run found at the head of a list holds its first elements in order.
* `yields_sortByRuns`: merging the runs that a list is cut into orders it. Whatever runs wait on
  the stack, the elements on the stack, in the last run and in the rest of the list are those of
  the whole list; the order in which runs are merged plays no part.

Loose runs may come up only if there is a way to sort them (`Run.Good`).
-/

namespace DynVal.Sorting

open Comparing

variable {α : Type} {before : α → α → Bool} {P : α → Prop}

/-! ## Finding runs -/

theorem yields_extend {r : α → α → Prop} {test : α → α → Bool}
    {goesOn : α → α → Comparing α Bool} (htrans : ∀ {x y z}, r x y → r y z → r x z)
    (hr : ∀ {x y}, test x y = true → r x y) (hask : Answers before P test goesOn) :
    ∀ (xs older : List α) (last : α), (∀ x ∈ xs, P x) → P last →
      (last :: older).Pairwise (fun x y => r y x) →
      (extend goesOn last (last :: older) xs).Yields before P fun run =>
        ∃ k ≤ xs.length, run = (xs.take k).reverse ++ last :: older ∧
          run.Pairwise fun x y => r y x := by
  intro xs
  induction xs with
  | nil =>
    intro older last _ _ ho
    exact yields_pure.mpr ⟨0, Nat.le_refl 0, rfl, ho⟩
  | cons x xs ih =>
    intro older last hxs hlast ho
    rw [extend, yields_bind]
    refine hask hlast (hxs x (by simp)) ?_
    cases ht : test last x with
    | false => exact yields_pure.mpr ⟨0, Nat.zero_le _, rfl, ho⟩
    | true =>
      have hx : ∀ y ∈ last :: older, r y x := by
        intro y hy
        rcases List.mem_cons.mp hy with rfl | hy
        · exact hr ht
        · exact htrans (List.rel_of_pairwise_cons ho hy) (hr ht)
      refine (ih (last :: older) x (fun z hz => hxs z (by simp [hz])) (hxs x (by simp))
        (List.pairwise_cons.mpr ⟨hx, ho⟩)).mono ?_
      rintro run ⟨k, hk, rfl, hrun⟩
      exact ⟨k + 1, by simpa using hk, by simp, hrun⟩

theorem yields_firstRun (hw : WeakOrder before) {xs : List α} (hxs : ∀ x ∈ xs, P x) :
    (firstRun xs).Yields before P fun run => Sorts before (xs.take run.length) run := by
  match xs with
  | [] => exact yields_pure.mpr ⟨.refl _, .nil⟩
  | [x] => exact yields_pure.mpr ⟨.refl _, List.pairwise_singleton ..⟩
  | x :: y :: zs =>
    have hx : P x := hxs x (by simp)
    have hy : P y := hxs y (by simp)
    have hzs : ∀ z ∈ zs, P z := fun z hz => hxs z (by simp [hz])
    have hlen : ∀ k ≤ zs.length, ((zs.take k).reverse ++ [y, x]).length = k + 2 := by
      intro k hk
      simp only [List.length_append, List.length_reverse, List.length_take, List.length_cons,
        List.length_nil]
      omega
    have hperm : ∀ k, ((zs.take k).reverse ++ [y, x]).Perm (x :: y :: zs.take k) := fun k =>
      (List.perm_append_comm.trans ((List.reverse_perm _).append_left _)).trans (.swap ..)
    rw [firstRun, yields_bind, yields_less]
    refine ⟨hy, hx, ?_⟩
    cases h : before y x with
    | true =>
      refine (yields_extend (r := fun last z => before last z = false)
        (fun h h' => hw.trans h' h) hw.asymm answers_up zs [x] y hzs hy
        (by simpa using hw.asymm h)).mono ?_
      rintro run ⟨k, hk, rfl, hrun⟩
      refine ⟨?_, hrun⟩
      rw [hlen k hk]
      exact hperm k
    | false =>
      show (extend _ y [y, x] zs >>= fun run => pure run.reverse).Yields before P _
      rw [yields_bind]
      refine (yields_extend (r := fun last z => before z last = false) hw.trans
        (fun h => by simpa using h) answers_down zs [x] y hzs hy (by simpa using h)).mono ?_
      rintro run ⟨k, hk, rfl, hrun⟩
      refine yields_pure.mpr ⟨?_, List.pairwise_reverse.mpr hrun⟩
      rw [List.length_reverse, hlen k hk]
      exact (List.reverse_perm _).trans (hperm k)

/-! ## Joining runs -/

/-- A sorted run is in order, and loose runs come up only where `loose` holds. -/
def Run.Good (before : α → α → Bool) (loose : Prop) : Run α → Prop
  | .sorted xs => Ordered before xs
  | .loose _ => loose

section Joining

variable {loose : Prop} {sort : List α → Comparing α (List α)}
  (hsort : loose → ∀ xs, (∀ x ∈ xs, P x) → (sort xs).Yields before P (Sorts before xs))
include hsort

theorem yields_settle {r : Run α} (hr : r.Good before loose) (hP : ∀ x ∈ r.elements, P x) :
    (r.settle sort).Yields before P (Sorts before r.elements) := by
  cases r with
  | sorted xs => exact yields_pure.mpr ⟨.refl _, hr⟩
  | loose xs => exact hsort hr xs hP

/-- A good run of the elements of a list. -/
def Run.Holds (before : α → α → Bool) (loose : Prop) (xs : List α) (r : Run α) : Prop :=
  r.Good before loose ∧ r.elements.Perm xs

theorem yields_join (hw : WeakOrder before) {r s : Run α} (hr : r.Good before loose)
    (hs : s.Good before loose) (hPr : ∀ x ∈ r.elements, P x) (hPs : ∀ x ∈ s.elements, P x) :
    (r.join sort s).Yields before P (Run.Holds before loose (r.elements ++ s.elements)) := by
  have merged : (do
      let xs ← r.settle sort
      let ys ← s.settle sort
      return Run.sorted (← merge xs ys)).Yields before P
        (Run.Holds before loose (r.elements ++ s.elements)) := by
    rw [yields_bind]
    refine (yields_settle hsort hr hPr).mono ?_
    intro xs hxs
    rw [yields_bind]
    refine (yields_settle hsort hs hPs).mono ?_
    intro ys hys
    rw [yields_bind]
    refine (yields_merge hw (fun x hx => hPr x (hxs.mem_iff.mp hx))
      (fun y hy => hPs y (hys.mem_iff.mp hy)) hxs.ordered hys.ordered).mono ?_
    intro zs hzs
    exact yields_pure.mpr ⟨hzs.ordered, hzs.perm.trans (hxs.perm.append hys.perm)⟩
  cases r with
  | sorted xs => exact merged
  | loose xs =>
    cases s with
    | sorted ys => exact merged
    | loose ys => exact yields_pure.mpr ⟨hr, .refl _⟩

/-! ## The merge tree -/

/-- The elements of the runs on the stack. -/
def waiting (stack : List (Waiting α)) : List α := stack.flatMap fun w => w.run.elements

/-- What waits on the stack is good. -/
def GoodStack (before : α → α → Bool) (loose : Prop) (stack : List (Waiting α)) : Prop :=
  ∀ w ∈ stack, w.run.Good before loose

theorem yields_collapse (hw : WeakOrder before) (depth : Nat) :
    ∀ (stack : List (Waiting α)) (last : Run α), GoodStack before loose stack →
      last.Good before loose → (∀ x ∈ waiting stack ++ last.elements, P x) →
      (collapse sort depth stack last).Yields before P fun rest =>
        GoodStack before loose rest.1 ∧ rest.2.Good before loose ∧
          (waiting rest.1 ++ rest.2.elements).Perm (waiting stack ++ last.elements) ∧
          (depth = 0 → rest.1 = []) := by
  intro stack
  induction stack with
  | nil =>
    intro last hstack hlast _
    exact yields_pure.mpr ⟨hstack, hlast, .refl _, fun _ => rfl⟩
  | cons w stack ih =>
    intro last hstack hlast hP
    have hwait : waiting (w :: stack) ++ last.elements =
        w.run.elements ++ (waiting stack ++ last.elements) := by simp [waiting]
    rw [collapse]
    split
    · rw [yields_bind]
      refine (yields_join hsort hw (hstack w (by simp)) hlast
        (fun x hx => hP x (by rw [hwait]; simp [hx])) (fun x hx => hP x (by simp [hx]))).mono ?_
      rintro joined ⟨hgood, hperm⟩
      have hall : (waiting stack ++ joined.elements).Perm
          (waiting (w :: stack) ++ last.elements) := by
        rw [hwait, ← List.append_assoc]
        refine (hperm.append_left _).trans ?_
        rw [← List.append_assoc]
        exact List.perm_append_comm.append_right _
      refine (ih joined (fun v hv => hstack v (by simp [hv])) hgood
        (fun x hx => hP x (hall.mem_iff.mp hx))).mono ?_
      rintro rest ⟨h, h', h'', h0⟩
      exact ⟨h, h', h''.trans hall, h0⟩
    · refine yields_pure.mpr ⟨hstack, hlast, .refl _, ?_⟩
      rintro rfl
      rename_i h
      exact absurd (Nat.zero_le _) h

/-- `next` cuts a good run of some elements off the head of a list. -/
def Cuts (before : α → α → Bool) (P : α → Prop) (loose : Prop)
    (next : List α → Comparing α (Run α)) : Prop :=
  ∀ xs, xs ≠ [] → (∀ x ∈ xs, P x) → (next xs).Yields before P fun r =>
    0 < r.length ∧ r.Holds before loose (xs.take r.length)

theorem yields_gather (hw : WeakOrder before) {next : List α → Comparing α (Run α)}
    (hnext : Cuts before P loose next) (total : Nat) :
    ∀ (n : Nat) (stack : List (Waiting α)) (last : Run α) (stop : Nat) (xs : List α),
      xs.length < n → GoodStack before loose stack → last.Good before loose →
      (∀ x ∈ waiting stack ++ last.elements ++ xs, P x) →
      (gather sort next total n stack last stop xs).Yields before P
        (Run.Holds before loose (waiting stack ++ last.elements ++ xs)) := by
  intro n
  induction n with
  | zero => intro _ _ _ _ hn; exact absurd hn (Nat.not_lt_zero _)
  | succ n ih =>
    intro stack last stop xs hn hstack hlast hP
    cases xs with
    | nil =>
      rw [gather, yields_bind]
      refine (yields_collapse hsort hw 0 stack last hstack hlast (by simpa using hP)).mono ?_
      rintro ⟨rest, whole⟩ ⟨_, hgood, hperm, hempty⟩
      obtain rfl : rest = [] := hempty rfl
      exact yields_pure.mpr ⟨hgood, by simpa [waiting] using hperm⟩
    | cons x xs =>
      rw [gather, yields_bind]
      refine (hnext (x :: xs) (by simp) (fun y hy => hP y (List.mem_append_right _ hy))).mono ?_
      rintro run ⟨hpos, hrun, hcut⟩
      rw [yields_bind]
      refine (yields_collapse hsort hw _ stack last hstack hlast
        (fun y hy => hP y (List.mem_append_left _ hy))).mono ?_
      rintro ⟨stack', last'⟩ ⟨hstack', hlast', hperm, _⟩
      -- moving a run from the list to the stack keeps the elements of the whole
      have hall : ∀ depth, (waiting (⟨last', depth⟩ :: stack') ++ run.elements ++
          (x :: xs).drop run.length).Perm (waiting stack ++ last.elements ++ x :: xs) := by
        intro depth
        have hw' : (waiting (⟨last', depth⟩ :: stack')).Perm (waiting stack ++ last.elements) := by
          refine (List.Perm.trans ?_ hperm)
          simpa [waiting] using List.perm_append_comm
        rw [List.append_assoc]
        refine hw'.append ?_
        refine (hcut.append_right _).trans ?_
        rw [List.take_append_drop]
      refine (ih _ run _ _ ?_ ?_ hrun (fun y hy => hP y ((hall _).mem_iff.mp hy))).mono ?_
      · simp only [List.length_drop, List.length_cons] at hn ⊢
        omega
      · intro w hw'
        rcases List.mem_cons.mp hw' with rfl | hw'
        · exact hlast'
        · exact hstack' w hw'
      · rintro whole ⟨hgood, hwhole⟩
        exact ⟨hgood, hwhole.trans (hall _)⟩

theorem yields_sortByRuns (hw : WeakOrder before) {next : List α → Comparing α (Run α)}
    (hnext : Cuts before P loose next) {xs : List α} (hne : xs ≠ []) (hxs : ∀ x ∈ xs, P x) :
    (sortByRuns sort next xs).Yields before P (Sorts before xs) := by
  rw [sortByRuns, yields_bind]
  refine (hnext xs hne hxs).mono ?_
  rintro run ⟨_, hrun, hcut⟩
  have hall : (waiting [] ++ run.elements ++ xs.drop run.length).Perm xs := by
    simpa [waiting] using hcut.append_right (xs.drop run.length)
  rw [yields_bind]
  refine (yields_gather hsort hw hnext xs.length (xs.length + 1) [] run run.length
    (xs.drop run.length) ?_ (by simp [GoodStack]) hrun
    (fun x hx => hxs x (hall.mem_iff.mp hx))).mono ?_
  · rw [List.length_drop]
    omega
  · rintro whole ⟨hgood, hwhole⟩
    have hperm := hwhole.trans hall
    exact (yields_settle hsort hgood (fun x hx => hxs x (hperm.mem_iff.mp hx))).mono
      fun ys hys => hys.of_perm hperm

end Joining

theorem cuts_nextRun (hw : WeakOrder before) {loose : Prop} {good : Nat} (hgood : 0 < good)
    {cut : List α → Comparing α (Run α)} (hcut : Cuts before P loose cut) :
    Cuts before P loose (nextRun good cut) := by
  intro xs hne hxs
  unfold nextRun
  split
  · exact hcut xs hne hxs
  · rw [yields_bind]
    refine (yields_firstRun hw hxs).mono ?_
    intro run hrun
    split
    · exact hcut xs hne hxs
    · refine yields_pure.mpr ⟨?_, hrun.ordered, hrun.perm⟩
      show 0 < run.length
      omega

end DynVal.Sorting
