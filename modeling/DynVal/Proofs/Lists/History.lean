import DynVal.Proofs.Lists.Growth

/-!
# Histories of lists

Lists are immutable sequences, however many of them share a backing. A history is any finite run
of list operations, each applied to lists that were obtained before, between which any scripts may
run. A list is held together with the elements that it had when it was obtained.

* `Command.plain`: the operations on plain finite sequences. `World.answers` is what mapping a
  function over one gives: the function is called on one element after the other.
* `obey_outcome`: one operation gives what it gives on plain sequences, whatever the storage of
  its operands.
* `history_refines_sequences`: so does every operation after every history, every list that was
  ever obtained still reads as it did at first, and an operation fails with an index error exactly
  where an index is out of range.
-/

namespace DynVal

/-! ## Operations -/

namespace Lists

/-- An operation on lists, which are given in one form or another. -/
inductive Command (σ : Type) where
  | empty
  | make (xs : List Value)
  | append (l : σ) (x : Value)
  | prepend (l : σ) (x : Value)
  | assoc (l : σ) (i : Nat) (x : Value)
  | assocBefore (l : σ) (i : Nat) (x : Value)
  | assocAfter (l : σ) (i : Nat) (x : Value)
  | dissoc (l : σ) (i : Nat)
  | slice (l : σ) (start stop : Nat)
  | rest (l : σ)
  | concat (l k : σ)
  | reverse (l : σ)
  | map (l : σ) (f : Fn)

namespace Command

variable {σ τ : Type}

def operands : Command σ → List σ
  | .empty | .make _ => []
  | .append l _ | .prepend l _ | .assoc l _ _ | .assocBefore l _ _ | .assocAfter l _ _
  | .dissoc l _ | .slice l _ _ | .rest l | .reverse l | .map l _ => [l]
  | .concat l k => [l, k]

/-- The operation on other forms of its operands. -/
def withOperands (g : σ → τ) : Command σ → Command τ
  | .empty => .empty
  | .make xs => .make xs
  | .append l x => .append (g l) x
  | .prepend l x => .prepend (g l) x
  | .assoc l i x => .assoc (g l) i x
  | .assocBefore l i x => .assocBefore (g l) i x
  | .assocAfter l i x => .assocAfter (g l) i x
  | .dissoc l i => .dissoc (g l) i
  | .slice l start stop => .slice (g l) start stop
  | .rest l => .rest (g l)
  | .concat l k => .concat (g l) (g k)
  | .reverse l => .reverse (g l)
  | .map l f => .map (g l) f

/-- Carries the operation out in a world. -/
def obey (w : World) : Command ListNode → Except Halt ListNode × World
  | .empty => w.perform (ListNode.make [])
  | .make xs => w.perform (ListNode.make xs)
  | .append l x => w.perform (l.append x)
  | .prepend l x => w.perform (l.prepend x)
  | .assoc l i x => w.perform (l.assoc i x)
  | .assocBefore l i x => w.perform (l.assocBefore i x)
  | .assocAfter l i x => w.perform (l.assocAfter i x)
  | .dissoc l i => w.perform (l.dissoc i)
  | .slice l start stop => w.perform (l.slice start stop)
  | .rest l => w.perform l.rest
  | .concat l k => w.perform (l.concat k)
  | .reverse l => w.perform l.reverse
  | .map l f => w.mapList l f

end Command

end Lists

/-- An answer that stands for nil where the call failed. -/
def Script.orNil : Except Halt Value → Except Halt Value
  | .error (.error _) => .ok .nil
  | r => r

/-- What a function answers on values one after the other. -/
def World.answers (f : Fn) : List Value → World → Except Halt (List Value) × World
  | [], w => (.ok [], w)
  | x :: xs, w =>
    let (r, w) := w.run (Script.apply f [x])
    match Script.orNil r with
    | .error h => (.error h, w)
    | .ok y =>
      match answers f xs w with
      | (.ok ys, w) => (.ok (y :: ys), w)
      | (.error h, w) => (.error h, w)

namespace Lists

def outOfRange (op : String) (i length : Nat) : Except Halt (List Value) :=
  .error (.error (.index op i length))

namespace Command

/-- The operation on plain sequences; a function is called in the world as it is. -/
def plain (w : World) : Command (List Value) → Except Halt (List Value)
  | .empty => .ok []
  | .make xs => .ok xs
  | .append xs x => .ok (xs ++ [x])
  | .prepend xs x => .ok (x :: xs)
  | .assoc xs i x => if i < xs.length then .ok (xs.set i x) else outOfRange "assoc" i xs.length
  | .assocBefore xs i x =>
    if i < xs.length then .ok (xs.insertIdx i x) else outOfRange "assoc-before" i xs.length
  | .assocAfter xs i x =>
    if i < xs.length then .ok (xs.insertIdx (i + 1) x) else outOfRange "assoc-after" i xs.length
  | .dissoc xs i => if i < xs.length then .ok (xs.eraseIdx i) else outOfRange "dissoc" i xs.length
  | .slice xs start stop =>
    if xs.length < stop then outOfRange "slice" stop xs.length
    else if stop < start then outOfRange "slice" start stop
    else .ok ((xs.drop start).take (stop - start))
  | .rest xs => .ok xs.tail
  | .concat xs ys => .ok (xs ++ ys)
  | .reverse xs => .ok xs.reverse
  | .map xs f => (w.answers f xs).1

/-- The operations that refuse an index do so here. -/
def OutOfRange : Command (List Value) → Prop
  | .assoc xs i _ | .assocBefore xs i _ | .assocAfter xs i _ | .dissoc xs i => xs.length ≤ i
  | .slice xs start stop => xs.length < stop ∨ stop < start
  | _ => False

end Command

/-! ## Reading -/

/-- However it is read, the list has these elements; reading changes nothing. -/
structure Reads (w : World) (l : ListNode) (xs : List Value) : Prop where
  length : l.body.length = xs.length
  get? : ∀ i, w.perform (l.get? i) = (.ok xs[i]?, w)
  nth : ∀ i, w.perform (l.nth i) = (match xs[i]? with
    | some x => .ok x
    | none => .error (.error (.index "nth" i xs.length)), w)
  first? : w.perform l.first? = (.ok xs.head?, w)
  toList : w.perform l.toList = (.ok xs, w)
  shown : l.body.shown.toList = xs

theorem reads_of_shows {w : World} {l : ListNode} {xs : List Value}
    (h : l.body.Shows w.store.backings xs) : Reads w l xs where
  length := h.length_eq
  get? i := by rw [← h.get?_eq i]; rfl
  nth i := by
    have hn := h.nth_eq i
    show w.perform (Op.backings >>= fun bs => Op.ofExcept (l.body.nth bs i)) = _
    cases hx : xs[i]? with
    | some x =>
      rw [hx] at hn
      show (match Op.ofExcept (l.body.nth w.store.backings i) w.store with
        | (r, s) => (r, (⟨s, w.bodies⟩ : World))) = _
      rw [hn]
      rfl
    | none =>
      rw [hx] at hn
      show (match Op.ofExcept (l.body.nth w.store.backings i) w.store with
        | (r, s) => (r, (⟨s, w.bodies⟩ : World))) = _
      rw [hn]
      rfl
  first? := by rw [← h.first?_eq]; rfl
  toList := by
    have : l.body.toList w.store.backings = xs := h.toList
    rw [← this]
    rfl
  shown := h.shown

/-! ## One operation -/

/-- What an operation comes to where a sequence or a failure is expected. -/
def Outcome (w : World) (expected : Except Halt (List Value))
    (r : Except Halt ListNode × World) : Prop :=
  Sequence.Grows w.store.backings r.2.store.backings ∧
    match expected with
    | .ok ys => ∃ l, r.1 = .ok l ∧ l.body.Shows r.2.store.backings ys
    | .error h => r.1 = .error h

section Outcomes

variable {w : World} {l k : ListNode} {xs ys : List Value}

theorem outcome_withBackings {f : Backings Value → Sequence Value × Backings Value}
    (hg : Sequence.Grows w.store.backings (f w.store.backings).2)
    (hs : (f w.store.backings).1.Shows (f w.store.backings).2 ys) :
    Outcome w (.ok ys) (w.perform do Op.share (← Op.withBackings f)) :=
  ⟨hg, _, rfl, hs⟩

/-- An operation at an index, which is looked at first. -/
theorem outcome_ofExcept {f : Backings Value → Except Error (Sequence Value)}
    {p : Prop} [Decidable p] {op : String} {i n : Nat}
    (hok : p → ∃ t, f w.store.backings = .ok t ∧ t.Shows w.store.backings ys)
    (hno : ¬p → f w.store.backings = .error (.index op i n)) :
    Outcome w (if p then .ok ys else outOfRange op i n)
      (w.perform do Op.share (← Op.ofExcept (f (← Op.backings)))) := by
  have hrun : w.perform (do Op.share (← Op.ofExcept (f (← Op.backings)))) =
      w.perform (Op.ofExcept (f w.store.backings) >>= Op.share) := rfl
  rw [hrun]
  by_cases hp : p
  · obtain ⟨t, ht, hs⟩ := hok hp
    rw [if_pos hp, ht]
    exact ⟨.refl _, _, rfl, hs⟩
  · rw [if_neg hp, hno hp]
    exact ⟨.refl _, rfl⟩

theorem outcome_rest (hl : l.body.Shows w.store.backings xs) :
    Outcome w (.ok xs.tail) (w.perform l.rest) := by
  have hs := Sequence.shows_rest hl
  unfold ListNode.rest
  cases hr : l.body.rest? with
  | none => rw [hr] at hs; exact ⟨.refl _, l, rfl, hs⟩
  | some t => rw [hr] at hs; exact ⟨.refl _, _, rfl, hs⟩

theorem outcome_concat (hl : l.body.Shows w.store.backings xs)
    (hk : k.body.Shows w.store.backings ys) :
    Outcome w (.ok (xs ++ ys)) (w.perform (l.concat k)) := by
  unfold ListNode.concat
  rw [hk.isEmpty_eq, hl.isEmpty_eq]
  cases ys with
  | nil => exact ⟨.refl _, l, rfl, (List.append_nil xs).symm ▸ hl⟩
  | cons y ys =>
    cases xs with
    | nil => exact ⟨.refl _, k, rfl, hk⟩
    | cons x xs =>
      exact outcome_withBackings (Sequence.grows_concat _ _ _) (Sequence.shows_concat hl hk)

/-- Goes on after a call with what the call came to; only an exit or a call without end stops. -/
def World.resume {α : Type} (next : Except Error Value → Script α) :
    Except Halt Value × World → Except Halt α × World
  | (.ok v, w) => w.run (next (.ok v))
  | (.error (.error e), w) => w.run (next (.error e))
  | (.error (.exit code), w) => (.error (.exit code), w)
  | (.error .endless, w) => (.error .endless, w)

/-- A script that calls a function goes on with what the call comes to on its own. -/
theorem run_call {α : Type} (w : World) (f : Fn) (args : List Value)
    (next : Except Error Value → Script α) :
    w.run (.call f args next) = World.resume next (w.run (Script.apply f args)) := by
  obtain ⟨store, bodies⟩ := w
  unfold World.resume
  simp only [World.run, World.perform, Script.run, Script.apply]
  generalize World.callDepth = depth
  simp only [Script.exec]
  rcases Script.callWithin (World.bodyIn bodies) depth f args store with
    ⟨(e | code | _) | v, s⟩ <;> rfl

/-- Mapping in a script calls the function on one value after the other. -/
theorem run_mapOnto (f : Fn) (xs done : List Value) (w : World) :
    w.run (Script.mapOnto f done xs) = match w.answers f xs with
      | (.ok ys, w) => (.ok (done.reverse ++ ys), w)
      | (.error h, w) => (.error h, w) := by
  induction xs generalizing done w with
  | nil =>
    simp only [World.answers, List.append_nil]
    rfl
  | cons x xs ih =>
    rw [Script.mapOnto, run_call, World.answers]
    match w.run (Script.apply f [x]) with
    | (.ok y, w') =>
      simp only [World.resume, Script.orNil, ih]
      match w'.answers f xs with
      | (.ok ys, w'') => simp [Except.toOption]
      | (.error h, w'') => rfl
    | (.error (.error e), w') =>
      simp only [World.resume, Script.orNil, ih]
      match w'.answers f xs with
      | (.ok ys, w'') => simp [Except.toOption]
      | (.error h, w'') => rfl
    | (.error (.exit code), w') => rfl
    | (.error .endless, w') => rfl

theorem outcome_map (hl : l.body.Shows w.store.backings xs) (f : Fn) :
    Outcome w (w.answers f xs).1 (w.mapList l f) := by
  have hread : w.perform l.toList = (.ok xs, w) := (reads_of_shows hl).toList
  have hrun : w.run (Script.mapValues f xs) = w.answers f xs := by
    rw [Script.mapValues, run_mapOnto]
    match w.answers f xs with
    | (.ok ys, w') => rfl
    | (.error h, w') => rfl
  have hgrows := grows_run w (Script.mapValues f xs)
  unfold World.mapList
  rw [hread]
  simp only
  rw [hrun] at hgrows ⊢
  match hr : w.answers f xs with
  | (.error h, w') => rw [hr] at hgrows; exact ⟨hgrows, rfl⟩
  | (.ok ys, w') =>
    rw [hr] at hgrows
    obtain ⟨hg, l', hl', hs⟩ := outcome_withBackings (w := w')
      (f := fun bs => l.body.refill bs ys.toArray) (Sequence.grows_refill _ _ _)
      (Sequence.shows_refill _ _ _)
    exact ⟨hgrows.trans hg, l', hl', hs⟩

theorem outcome_slice (hl : l.body.Shows w.store.backings xs) (start stop : Nat) :
    Outcome w ((Command.slice xs start stop).plain w) (w.perform (l.slice start stop)) := by
  simp only [Command.plain, ListNode.slice]
  by_cases hstop : xs.length < stop
  · have hslice : l.body.slice start stop = .error (.index "slice" stop xs.length) := by
      unfold Sequence.slice
      rw [hl.length_eq, if_pos hstop]
    rw [if_pos hstop, hslice]
    exact ⟨.refl _, rfl⟩
  rw [if_neg hstop]
  by_cases hstart : stop < start
  · have hslice : l.body.slice start stop = .error (.index "slice" start stop) := by
      unfold Sequence.slice
      rw [hl.length_eq, if_neg hstop, if_pos hstart]
    rw [if_pos hstart, hslice]
    exact ⟨.refl _, rfl⟩
  rw [if_neg hstart]
  obtain ⟨t, ht, hs⟩ := Sequence.shows_slice hl (Nat.le_of_not_lt hstart) (Nat.le_of_not_lt hstop)
  rw [ht]
  exact ⟨.refl _, _, rfl, hs⟩

end Outcomes

open Sequence in
/-- Where its operands show sequences, an operation comes to what it comes to on these. -/
theorem obey_outcome {σ : Type} {w : World} {node : σ → ListNode} {contents : σ → List Value}
    (c : Command σ)
    (hc : ∀ x ∈ c.operands, (node x).body.Shows w.store.backings (contents x)) :
    Outcome w ((c.withOperands contents).plain w) ((c.withOperands node).obey w) := by
  cases c with
  | empty => exact outcome_withBackings (grows_ofArray _ _) (shows_ofArray _ _)
  | make xs => exact outcome_withBackings (grows_ofArray _ _) (shows_ofArray _ _)
  | append l x =>
    have hl := hc l (by simp [Command.operands])
    exact outcome_withBackings (grows_append hl x) (shows_append hl x)
  | prepend l x =>
    have hl := hc l (by simp [Command.operands])
    exact ⟨.refl _, _, rfl, shows_prepend hl x⟩
  | assoc l i x =>
    have hl := hc l (by simp [Command.operands])
    exact outcome_ofExcept (f := fun bs => (node l).body.assoc bs i x)
      (fun hi => shows_assoc hl hi x)
      fun hi => by rw [Sequence.assoc, hl.checkIndex_eq, if_neg hi]; rfl
  | assocBefore l i x =>
    have hl := hc l (by simp [Command.operands])
    exact outcome_ofExcept (f := fun bs => (node l).body.assocBefore bs i x)
      (fun hi => shows_assocBefore hl hi x)
      fun hi => by rw [assocBefore, hl.checkIndex_eq, if_neg hi]; rfl
  | assocAfter l i x =>
    have hl := hc l (by simp [Command.operands])
    exact outcome_ofExcept (f := fun bs => (node l).body.assocAfter bs i x)
      (fun hi => shows_assocAfter hl hi x)
      fun hi => by rw [assocAfter, hl.checkIndex_eq, if_neg hi]; rfl
  | dissoc l i =>
    have hl := hc l (by simp [Command.operands])
    exact outcome_ofExcept (f := fun bs => (node l).body.dissoc bs i)
      (fun hi => shows_dissoc hl hi)
      fun hi => by rw [Sequence.dissoc, hl.checkIndex_eq, if_neg hi]; rfl
  | slice l start stop => exact outcome_slice (hc l (by simp [Command.operands])) start stop
  | rest l => exact outcome_rest (hc l (by simp [Command.operands]))
  | concat l k =>
    exact outcome_concat (hc l (by simp [Command.operands])) (hc k (by simp [Command.operands]))
  | reverse l => exact ⟨.refl _, _, rfl, shows_reverse (hc l (by simp [Command.operands]))⟩
  | map l f => exact outcome_map (hc l (by simp [Command.operands])) f

/-! ## Histories -/

/-- A list with the elements that it had when it was obtained. -/
structure Held where
  node : ListNode
  contents : List Value

/-- A world in which some lists were obtained by operations on lists obtained before. Between two
operations any script may run. -/
inductive History : World → List Held → Prop
  | start (w : World) : History w []
  | obtained {w w' : World} {held : List Held} (c : Command Held) {l : ListNode} :
    History w held → (∀ x ∈ c.operands, x ∈ held) →
      (c.withOperands Held.node).obey w = (.ok l, w') →
      History w' (⟨l, l.body.toList w'.store.backings⟩ :: held)
  | failed {w w' : World} {held : List Held} (c : Command Held) {h : Halt} :
    History w held → (∀ x ∈ c.operands, x ∈ held) →
      (c.withOperands Held.node).obey w = (.error h, w') →
      History w' held
  | script {w : World} {held : List Held} {α : Type} (s : Script α) :
    History w held → History (w.run s).2 held

/-- The invariant of histories: all lists show what they showed at first. -/
theorem shows_of_history {w : World} {held : List Held} (h : History w held) :
    ∀ x ∈ held, x.node.body.Shows w.store.backings x.contents := by
  induction h with
  | start w => simp
  | @obtained w w' held c l _ hc hr ih =>
    have ho := obey_outcome c fun x hx => ih x (hc x hx)
    rw [hr] at ho
    obtain ⟨hg, hout⟩ := ho
    intro x hx
    rcases List.mem_cons.mp hx with rfl | hx
    · match he : (c.withOperands Held.contents).plain w, hout with
      | .ok ys, ⟨_, rfl, hs⟩ => exact hs.toList ▸ hs
    · exact (ih x hx).grows hg
  | @failed w w' held c h _ hc hr ih =>
    have ho := obey_outcome c fun x hx => ih x (hc x hx)
    rw [hr] at ho
    exact fun x hx => (ih x hx).grows ho.1
  | script s _ ih => exact fun x hx => (ih x hx).grows (grows_run _ s)

theorem answers_ne_error (f : Fn) (xs : List Value) (w : World) (e : Error) :
    (w.answers f xs).1 ≠ .error (.error e) := by
  induction xs generalizing w with
  | nil => simp [World.answers]
  | cons x xs ih =>
    rw [World.answers]
    have step (y : Value) (w' : World) : (match w'.answers f xs with
        | (.ok ys, w) => (.ok (y :: ys), w)
        | (.error h, w) => (.error h, w) : Except Halt (List Value) × World).1 ≠
          .error (.error e) := by
      have := ih w'
      match hr : w'.answers f xs with
      | (.ok ys, w'') => simp
      | (.error h, w'') => rw [hr] at this; exact this
    match w.run (Script.apply f [x]) with
    | (.ok y, w') => exact step y w'
    | (.error (.error _), w') => exact step .nil w'
    | (.error (.exit code), w') => simp [Script.orNil]
    | (.error .endless, w') => simp [Script.orNil]

/-- The operations on plain sequences fail with an index error where an index is out of range. -/
theorem plain_index_iff (w : World) (c : Command (List Value)) :
    (∃ op i n, c.plain w = .error (.error (.indexOutOfBounds op i n))) ↔ c.OutOfRange := by
  cases c with
  | assoc xs i x | assocBefore xs i x | assocAfter xs i x | dissoc xs i =>
    simp only [Command.plain, Command.OutOfRange]
    split <;> simp [outOfRange, Error.index] <;> omega
  | slice xs start stop =>
    simp only [Command.plain, Command.OutOfRange]
    split
    · simp [outOfRange, Error.index, *]
    split <;> simp [outOfRange, Error.index, *]
  | map xs f => simp [Command.plain, Command.OutOfRange, answers_ne_error]
  | _ => simp [Command.plain, Command.OutOfRange]

theorem history_refines_sequences {w : World} {held : List Held} (h : History w held) :
    (∀ x ∈ held, Reads w x.node x.contents) ∧
      ∀ c : Command Held, (∀ x ∈ c.operands, x ∈ held) →
        (∀ ys, (c.withOperands Held.contents).plain w = .ok ys →
          ∃ l w', (c.withOperands Held.node).obey w = (.ok l, w') ∧ Reads w' l ys ∧
            ∀ x ∈ held, Reads w' x.node x.contents) ∧
        (∀ e, (c.withOperands Held.contents).plain w = .error e →
          ∃ w', (c.withOperands Held.node).obey w = (.error e, w') ∧
            ∀ x ∈ held, Reads w' x.node x.contents) ∧
        ((∃ op i n, ((c.withOperands Held.node).obey w).1 =
            .error (.error (.indexOutOfBounds op i n))) ↔
          (c.withOperands Held.contents).OutOfRange) := by
  have hshows := shows_of_history h
  refine ⟨fun x hx => reads_of_shows (hshows x hx), fun c hc => ?_⟩
  obtain ⟨hg, hout⟩ := @obey_outcome _ _ _ Held.contents c fun x hx => hshows x (hc x hx)
  have hkeep : ∀ x ∈ held, Reads ((c.withOperands Held.node).obey w).2 x.node x.contents :=
    fun x hx => reads_of_shows ((hshows x hx).grows hg)
  rw [← plain_index_iff w]
  refine ⟨fun ys hys => ?_, fun e he => ?_, ?_⟩
  · rw [hys] at hout
    obtain ⟨l, hl, hs⟩ := hout
    exact ⟨l, _, Prod.ext hl rfl, reads_of_shows hs, hkeep⟩
  · rw [he] at hout
    exact ⟨_, Prod.ext hout rfl, hkeep⟩
  · match hp : (c.withOperands Held.contents).plain w with
    | .ok ys =>
      rw [hp] at hout
      obtain ⟨l, hl, _⟩ := hout
      simp [hl]
    | .error e =>
      rw [hp] at hout
      simp only at hout
      simp only [hout, Except.error.injEq]

/-- A window that was appended to twice, so that the second append left its backing. -/
theorem history_refines_sequences_shared :
    ∃ (w : World) (held : List Held), History w held ∧
      held.map Held.contents =
        [[.nil, .bool false], [.bool true], [.nil, .bool true], [.nil]] ∧
      ∀ x ∈ held, Reads w x.node x.contents :=
  have h₀ := History.start ⟨.initial default, #[]⟩
  have h₁ := h₀.obtained (.make [.nil]) nofun rfl
  have h₂ := h₁.obtained (.append ⟨⟨0, .window 0 0 1 #[.nil]⟩, [.nil]⟩ (.bool true))
    (List.forall_mem_singleton.mpr (.head _)) rfl
  have h₃ := h₂.obtained (.rest ⟨⟨1, .window 0 0 2 #[.nil, .bool true]⟩, [.nil, .bool true]⟩)
    (List.forall_mem_singleton.mpr (.head _)) rfl
  have h₄ := h₃.obtained (.append ⟨⟨0, .window 0 0 1 #[.nil]⟩, [.nil]⟩ (.bool false))
    (List.forall_mem_singleton.mpr (.tail _ (.tail _ (.head _)))) rfl
  ⟨_, _, h₄, rfl, (history_refines_sequences h₄).1⟩

end Lists
end DynVal
