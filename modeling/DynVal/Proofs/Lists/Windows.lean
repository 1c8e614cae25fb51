import DynVal.Proofs.Lists.History

/-!
# Windows over backings that are shared

Lists that share a backing do not disturb each other. A window lies within its backing, nothing that
it shows is written again, and where two lists end at the same place of the same backing only one
can be appended to in place: from then on the backing goes on behind the other.

A run keeps a record of the operations that were carried out (`Lists.Run`), so that appends at
different times can be spoken of together. That the list which came of an append in place is still
there, and lies within its backing, is all that keeps a second one from happening
(`Run.result_held`).
-/

namespace DynVal

namespace Sequence

variable {α : Type} {bs cs : Backings α} {s : Sequence α} {b start stop : Nat} {shown : Array α}

/-- A window near the start of its backing that ends where the backing does. -/
def Growable (bs : Backings α) (s : Sequence α) : Prop :=
  ∃ b start stop shown, s = .window b start stop shown ∧ start < growthLimit ∧
    stop = (backing bs b).size

theorem isTree_append_iff (bs : Backings α) (s : Sequence α) (x : α) :
    (s.append bs x).1.isTree = false ↔ s.Growable bs := by
  cases s with
  | tree items =>
    constructor
    · intro h
      cases h
    · rintro ⟨_, _, _, _, ⟨⟩, -⟩
  | window b start stop shown =>
    simp only [append]
    split
    case isTrue h => exact ⟨fun _ => ⟨b, start, stop, shown, rfl, h.1, h.2.symm⟩, fun _ => rfl⟩
    case isFalse h =>
      constructor
      · intro htree
        cases htree
      · rintro ⟨_, _, _, _, ⟨⟩, hstart, hstop⟩
        exact absurd ⟨hstart, hstop.symm⟩ h

/-- A window is appended to in place, or a tree is made. -/
theorem append_window (bs : Backings α) (b start stop : Nat) (shown : Array α) (x : α) :
    ((window b start stop shown).append bs x).1 = .window b start (stop + 1) (shown.push x) ∧
        stop = (backing bs b).size ∨
      ((window b start stop shown).append bs x).1.isTree = true := by
  simp only [append]
  split
  case isTrue h => exact .inl ⟨rfl, h.2.symm⟩
  case isFalse => exact .inr rfl

/-- What a backing has is not written again. -/
theorem getElem?_backing (h : Grows bs cs) {i : Nat} (hi : i < (backing bs b).size) :
    (backing cs b)[i]? = (backing bs b)[i]? := by
  obtain ⟨more, hmore⟩ := h.backing b
  rw [← Array.getElem?_toList, ← Array.getElem?_toList, ← hmore]
  exact List.getElem?_append_left hi

end Sequence

namespace Lists

open Sequence

/-- An operation that was carried out, and what came of it. -/
structure Step where
  command : Command Held
  result : Except Halt ListNode

namespace Step

/-- An append to a window over a backing, with its end. -/
def AppendsTo (e : Step) (b stop : Nat) : Prop :=
  ∃ x v start shown, e.command = .append x v ∧ x.node.body = .window b start stop shown

/-- An append that made the window one longer, over the same backing. -/
def InPlace (e : Step) (b stop : Nat) : Prop :=
  ∃ x v start shown l, e = ⟨.append x v, .ok l⟩ ∧ x.node.body = .window b start stop shown ∧
    l.body = .window b start (stop + 1) (shown.push v)

end Step

/-- What can be done from a world with some lists, the last operation first. Scripts that run in
between are not recorded. -/
inductive Run (w₀ : World) (held₀ : List Held) : List Step → World → List Held → Prop
  | start : Run w₀ held₀ [] w₀ held₀
  | obtained {w w' : World} {held : List Held} {steps : List Step} (c : Command Held)
      {l : ListNode} :
    Run w₀ held₀ steps w held → (∀ x ∈ c.operands, x ∈ held) →
      (c.withOperands Held.node).obey w = (.ok l, w') →
      Run w₀ held₀ (⟨c, .ok l⟩ :: steps) w' (⟨l, l.body.toList w'.store.backings⟩ :: held)
  | failed {w w' : World} {held : List Held} {steps : List Step} (c : Command Held) {h : Halt} :
    Run w₀ held₀ steps w held → (∀ x ∈ c.operands, x ∈ held) →
      (c.withOperands Held.node).obey w = (.error h, w') →
        Run w₀ held₀ (⟨c, .error h⟩ :: steps) w' held
  | script {w : World} {held : List Held} {steps : List Step} {α : Type} (s : Script α) :
    Run w₀ held₀ steps w held → Run w₀ held₀ steps (w.run s).2 held

section Run

variable {w₀ w w' : World} {held₀ held : List Held} {steps : List Step} {b start stop : Nat}
  {shown : Array Value}

theorem Run.history (h : History w₀ held₀) (hrun : Run w₀ held₀ steps w held) : History w held := by
  induction hrun with
  | start => exact h
  | obtained c _ hc hr ih => exact .obtained c ih hc hr
  | failed c _ hc hr ih => exact .failed c ih hc hr
  | script s _ ih => exact .script s ih

/-- One more operation, of which the answer is known. -/
theorem Run.next (c : Command Held) {l : ListNode} (hrun : Run w₀ held₀ steps w held)
    (hc : ∀ x ∈ c.operands, x ∈ held) (h : ((c.withOperands Held.node).obey w).1 = .ok l) :
    Run w₀ held₀ (⟨c, .ok l⟩ :: steps) ((c.withOperands Held.node).obey w).2
      (⟨l, l.body.toList ((c.withOperands Held.node).obey w).2.store.backings⟩ :: held) :=
  .obtained c hrun hc (Prod.ext h rfl)

theorem grows_obey (h : History w held) (c : Command Held) (hc : ∀ x ∈ c.operands, x ∈ held) :
    Grows w.store.backings ((c.withOperands Held.node).obey w).2.store.backings :=
  (@obey_outcome _ _ _ Held.contents c fun x hx => shows_of_history h x (hc x hx)).1

theorem Run.grows (h : History w₀ held₀) (hrun : Run w₀ held₀ steps w held) :
    Grows w₀.store.backings w.store.backings := by
  induction hrun with
  | start => exact .refl _
  | obtained c hrun hc hr ih =>
    have hg := grows_obey (hrun.history h) c hc
    rw [hr] at hg
    exact ih.trans hg
  | failed c hrun hc hr ih =>
    have hg := grows_obey (hrun.history h) c hc
    rw [hr] at hg
    exact ih.trans hg
  | script s hrun ih => exact ih.trans (grows_run _ s)

/-- What came of an operation is still there. -/
theorem Run.result_held (hrun : Run w₀ held₀ steps w held) :
    ∀ e ∈ steps, ∀ l, e.result = .ok l → ∃ x ∈ held, x.node = l := by
  induction hrun with
  | start => simp
  | obtained c hrun hc hr ih =>
    refine List.forall_mem_cons.mpr ⟨fun l hl => ?_, fun e he l hl => ?_⟩
    · cases hl
      exact ⟨_, List.mem_cons_self, rfl⟩
    · obtain ⟨x, hx, hxl⟩ := ih e he l hl
      exact ⟨x, List.mem_cons_of_mem _ hx, hxl⟩
  | failed c hrun hc hr ih => exact List.forall_mem_cons.mpr ⟨nofun, ih⟩
  | script s hrun ih => exact ih

/-! ## Appends -/

theorem obey_append (w : World) (l : ListNode) (v : Value) : ∃ k w',
    (Command.append l v).obey w = (.ok k, w') ∧ k.body = (l.body.append w.store.backings v).1 :=
  ⟨_, _, rfl, rfl⟩

theorem fits_of_history (h : History w held) {x : Held} (hx : x ∈ held)
    (hbody : x.node.body = .window b start stop shown) :
    start ≤ stop ∧ stop ≤ (backing w.store.backings b).size := by
  have hfits := (shows_of_history h x hx).fits
  rw [hbody] at hfits
  exact hfits.2

/-- Once a window was appended to in place its backing goes on behind its end. -/
theorem Run.lt_size (h : History w₀ held₀) (hrun : Run w₀ held₀ steps w held) {e : Step}
    (he : e ∈ steps) (hin : e.InPlace b stop) : stop < (backing w.store.backings b).size := by
  obtain ⟨x, v, start, shown, l, rfl, -, hl⟩ := hin
  obtain ⟨y, hy, rfl⟩ := hrun.result_held _ he l rfl
  exact (fits_of_history (hrun.history h) hy hl).2

/-- An append in place starts where the backing ends. -/
theorem eq_size_of_inPlace {c : Command Held} {l : ListNode}
    (hr : (c.withOperands Held.node).obey w = (.ok l, w')) (hin : Step.InPlace ⟨c, .ok l⟩ b stop) :
    stop = (backing w.store.backings b).size := by
  obtain ⟨x, v, start, shown, k, heq, hbody, hk⟩ := hin
  cases heq
  obtain ⟨k, w'', hk', hresult⟩ := obey_append w x.node v
  cases hk'.symm.trans hr
  rw [hbody] at hresult
  rcases append_window w.store.backings b start stop shown v with ⟨-, hsize⟩ | htree
  · exact hsize
  · rw [← hresult, hk] at htree
    cases htree

theorem Run.pairwise_inPlace (h : History w₀ held₀) (hrun : Run w₀ held₀ steps w held)
    (b stop : Nat) : steps.Pairwise fun e e' => ¬ (e.InPlace b stop ∧ e'.InPlace b stop) := by
  induction hrun with
  | start => exact .nil
  | obtained c hrun hc hr ih =>
    refine List.pairwise_cons.mpr ⟨fun e he hboth => ?_, ih⟩
    have hlt := hrun.lt_size h he hboth.2
    rw [← eq_size_of_inPlace hr hboth.1] at hlt
    exact Nat.lt_irrefl _ hlt
  | failed c hrun hc hr ih =>
    refine List.pairwise_cons.mpr ⟨fun e he hboth => ?_, ih⟩
    obtain ⟨_, _, _, _, _, ⟨⟩, -⟩ := hboth.1
  | script s hrun ih => exact ih

/-- An append never fails, and what is not done in place gives a tree. -/
theorem Run.inPlace_or_tree (hrun : Run w₀ held₀ steps w held) {e : Step} (he : e ∈ steps)
    (happ : e.AppendsTo b stop) :
    e.InPlace b stop ∨ ∃ l, e.result = .ok l ∧ l.body.isTree = true := by
  induction hrun with
  | start => cases he
  | @obtained w w' held steps c l hrun hc hr ih =>
    rcases List.mem_cons.mp he with rfl | he
    · obtain ⟨x, v, start, shown, rfl, hbody⟩ := happ
      obtain ⟨k, w'', hk, hresult⟩ := obey_append w x.node v
      cases hk.symm.trans hr
      rw [hbody] at hresult
      rcases append_window w.store.backings b start stop shown v with ⟨hwindow, -⟩ | htree
      · exact .inl ⟨x, v, start, shown, l, rfl, hbody, hresult.trans hwindow⟩
      · exact .inr ⟨l, rfl, hresult ▸ htree⟩
    · exact ih he
  | @failed w w' held steps c halt hrun hc hr ih =>
    rcases List.mem_cons.mp he with rfl | he
    · obtain ⟨x, v, start, shown, rfl, hbody⟩ := happ
      obtain ⟨k, w'', hk, -⟩ := obey_append w x.node v
      cases hk.symm.trans hr
    · exact ih he
  | script s hrun ih => exact ih he

end Run

/-- However lists that share backings came about, and however they are appended to: windows lie
within their backings, nothing that they show is written again, and of the appends to windows that
end at one place only one is done in place. -/
theorem windows_share_backings {w₀ w : World} {held₀ held : List Held} {steps : List Step}
    (h : History w₀ held₀) (hrun : Run w₀ held₀ steps w held) :
    -- a window can be read from its start to its end
    (∀ x ∈ held, ∀ b start stop shown, x.node.body = .window b start stop shown →
      start ≤ stop ∧ stop ≤ (backing w.store.backings b).size ∧
        ∀ i < stop, ((backing w.store.backings b)[i]?).isSome = true) ∧
    -- up to the end of a window that was there at first, all is as it was
    (∀ x ∈ held₀, ∀ b start stop shown, x.node.body = .window b start stop shown →
      ∀ i < stop, (backing w.store.backings b)[i]? = (backing w₀.store.backings b)[i]?) ∧
    -- what an append comes to
    (∀ x ∈ held, ∀ v, ∃ l w', ((Command.append x v).withOperands Held.node).obey w = (.ok l, w') ∧
      (l.body.isTree = false ↔ ∃ b start stop shown, x.node.body = .window b start stop shown ∧
        start < 32 ∧ stop = (backing w.store.backings b).size)) ∧
    -- all appends to windows with the same backing and the same end
    (∀ b stop,
      steps.Pairwise (fun e e' => ¬ (e.InPlace b stop ∧ e'.InPlace b stop)) ∧
      ∀ e ∈ steps, e.AppendsTo b stop → ¬ e.InPlace b stop →
        ∃ l, e.result = .ok l ∧ l.body.isTree = true) := by
  have hhistory := hrun.history h
  refine ⟨fun x hx b start stop shown hbody => ?_, fun x hx b start stop shown hbody i hi => ?_,
    fun x _ v => ?_, fun b stop => ⟨hrun.pairwise_inPlace h b stop, fun e he happ hnot => ?_⟩⟩
  · obtain ⟨hstart, hstop⟩ := fits_of_history hhistory hx hbody
    refine ⟨hstart, hstop, fun i hi => ?_⟩
    rw [Array.getElem?_eq_getElem (Nat.lt_of_lt_of_le hi hstop)]
    rfl
  · have hstop := (fits_of_history h hx hbody).2
    exact getElem?_backing (hrun.grows h) (Nat.lt_of_lt_of_le hi hstop)
  · obtain ⟨l, w', hl, hbody⟩ := obey_append w x.node v
    refine ⟨l, w', hl, ?_⟩
    rw [hbody]
    exact isTree_append_iff w.store.backings x.node.body v
  · exact (hrun.inPlace_or_tree he happ).resolve_left hnot

/-- A list of one element that is appended to twice. -/
theorem windows_share_backings_twice :
    let w₀ : World := ⟨.initial default, #[]⟩
    let x : Held := ⟨⟨0, .window 0 0 1 #[.nil]⟩, [.nil]⟩
    let first : Step := ⟨.append x (.bool true), .ok ⟨1, .window 0 0 2 #[.nil, .bool true]⟩⟩
    let second : Step := ⟨.append x (.bool false), .ok ⟨2, .tree #[.nil, .bool false]⟩⟩
    ∃ w held, History w₀ [] ∧ Run w₀ [] [second, first, ⟨.make [.nil], .ok x.node⟩] w held ∧
      first.InPlace 0 1 ∧ second.AppendsTo 0 1 ∧ ¬ second.InPlace 0 1 ∧
      ∃ l, second.result = .ok l ∧ l.body.isTree = true := by
  intro w₀ x first second
  have hmake : Run w₀ [] [⟨.make [.nil], .ok x.node⟩] _ [_] :=
    .next (.make [.nil]) .start nofun rfl
  have hfirst : Run w₀ [] [first, ⟨.make [.nil], .ok x.node⟩] _ [_, x] :=
    .next (.append x (.bool true)) hmake (List.forall_mem_singleton.mpr (.head _)) rfl
  have hsecond : Run w₀ [] [second, first, ⟨.make [.nil], .ok x.node⟩] _ _ :=
    .next (.append x (.bool false)) hfirst (List.forall_mem_singleton.mpr (.tail _ (.head _))) rfl
  have hin : first.InPlace 0 1 := ⟨x, .bool true, 0, #[.nil], _, rfl, rfl, rfl⟩
  have happ : second.AppendsTo 0 1 := ⟨x, .bool false, 0, #[.nil], rfl, rfl⟩
  obtain ⟨hpairwise, htree⟩ := (windows_share_backings (.start w₀) hsecond).2.2.2 0 1
  have hnot : ¬ second.InPlace 0 1 := fun h =>
    List.rel_of_pairwise_cons hpairwise List.mem_cons_self ⟨h, hin⟩
  exact ⟨_, _, .start w₀, hsecond, hin, happ, hnot, htree second List.mem_cons_self happ hnot⟩

end Lists
end DynVal
