import DynVal.Proofs.Scripts.Watching

/-!
# The order of watchers

The keys of a cell's watchers stand in the order in which they were added, each counted from when it
was removed last, and each with the function that it was given last. Both can be read off the steps
since the cell was made, without the list that is kept (`watchers_keep_order`).

* `Since`: something happened, and ever since something else has been so.
* `Step.mem_registered`, `Step.pairwise_keys_registered`: the watchers after a number of steps, by
  what one more step does to them.
* `Script.record_reset`: setting a cell does nothing to watchers but through the functions that it
  calls.
-/

namespace DynVal

open Script

/-! ## What has been so since -/

/-- Some item is as stated, seen from the items before it, and all that follow it are as stated. -/
def Since {α : Type} (A : List α → α → Prop) (B : α → Prop) (xs : List α) : Prop :=
  ∃ before x after, xs = before ++ x :: after ∧ A before x ∧ ∀ y ∈ after, B y

section Since

variable {α : Type} {A : List α → α → Prop} {B : α → Prop}

theorem not_since_nil : ¬ Since A B [] := by
  rintro ⟨before, x, after, heq, -⟩
  simp at heq

/-- It is the last item, or it was so before and the last item does not end it. -/
theorem since_concat (xs : List α) (x : α) :
    Since A B (xs ++ [x]) ↔ A xs x ∨ Since A B xs ∧ B x := by
  constructor
  · rintro ⟨before, y, after, heq, hy, hafter⟩
    rcases after.eq_nil_or_concat with rfl | ⟨after, z, rfl⟩
    · obtain ⟨rfl, hxy⟩ := List.append_inj' heq rfl
      cases hxy
      exact .inl hy
    · rw [List.concat_eq_append, ← List.cons_append, ← List.append_assoc] at heq
      obtain ⟨rfl, hxz⟩ := List.append_inj' heq rfl
      cases hxz
      rw [List.concat_eq_append, List.forall_mem_append, List.forall_mem_singleton] at hafter
      exact .inr ⟨⟨before, y, after, rfl, hy, hafter.1⟩, hafter.2⟩
  · rintro (hx | ⟨⟨before, y, after, rfl, hy, hafter⟩, hx⟩)
    · exact ⟨xs, x, [], rfl, hx, nofun⟩
    · refine ⟨before, y, after ++ [x], by simp, hy, ?_⟩
      rw [List.forall_mem_append, List.forall_mem_singleton]
      exact ⟨hafter, hx⟩

end Since

/-! ## Association lists without repeated keys -/

namespace Assoc

variable {κ ν : Type} {es : List (κ × ν)} {k l : κ} {v w : ν}

theorem ne_of_not_mem {e : κ × ν} (h : k ∉ es.map (·.1)) (he : e ∈ es) : e.1 ≠ k := by
  rintro rfl
  exact h (List.mem_map_of_mem he)

variable [BEq κ] [LawfulBEq κ]

theorem contains_iff : contains es k = true ↔ k ∈ es.map (·.1) := by
  simp [contains]

/-- A key that is there keeps its place. -/
theorem put_of_mem (hd : (es.map (·.1)).Nodup) (h : k ∈ es.map (·.1)) (v : ν) :
    put k v es = es.map fun e => if e.1 == k then (k, v) else e := by
  induction es with
  | nil => cases h
  | cons e es ih =>
    obtain ⟨he, hes⟩ := List.nodup_cons.mp hd
    rw [put, List.map_cons]
    split
    case isTrue hk =>
      obtain rfl := eq_of_beq hk
      have hrest : ∀ f ∈ es, (if f.1 == e.1 then (e.1, v) else f) = f := by
        intro f hf
        rw [beq_false_of_ne (ne_of_not_mem he hf)]
        rfl
      rw [List.map_congr_left hrest, List.map_id']
    case isFalse hk =>
      have hmem := (List.mem_cons.mp h).resolve_left fun heq => hk (beq_iff_eq.mpr heq.symm)
      rw [ih hes hmem]

theorem put_of_not_mem (h : k ∉ es.map (·.1)) (v : ν) : put k v es = es ++ [(k, v)] := by
  induction es with
  | nil => rfl
  | cons e es ih =>
    obtain ⟨hne, hrest⟩ := not_or.mp (mt List.mem_cons.mpr h)
    rw [put, if_neg fun heq => hne (eq_of_beq heq).symm, ih hrest]
    rfl

theorem mem_keys_put : l ∈ (put k v es).map (·.1) ↔ l = k ∨ l ∈ es.map (·.1) := by
  rw [map_fst_put]
  split
  case isTrue hk => exact (or_iff_right_of_imp fun heq => heq ▸ contains_iff.mp hk).symm
  case isFalse => rw [List.mem_append, List.mem_singleton, or_comm]

theorem mem_put_iff (hd : (es.map (·.1)).Nodup) :
    (l, w) ∈ put k v es ↔ l = k ∧ w = v ∨ l ≠ k ∧ (l, w) ∈ es := by
  induction es with
  | nil => simp [put]
  | cons e es ih =>
    obtain ⟨he, hes⟩ := List.nodup_cons.mp hd
    have hmem : (l, w) ∈ es → l ≠ e.1 := ne_of_not_mem he
    grind [put]

theorem mem_keys_erase : l ∈ (erase es k).map (·.1) ↔ l ∈ es.map (·.1) ∧ l ≠ k := by
  simp [erase]

theorem mem_erase_iff : (l, w) ∈ erase es k ↔ (l, w) ∈ es ∧ l ≠ k := by
  simp [erase]

end Assoc

/-! ## Edits -/

namespace Step

/-- What is done to the watchers of a cell: a key is given a function, or is removed. -/
def edit? (r : Ref) : Step → Option (Tag × Option Fn)
  | ⟨some (.watch q key f), _, _⟩ => if q.cell = r.cell then some (key, some f) else none
  | ⟨some (.unwatch q key), _, _⟩ => if q.cell = r.cell then some (key, none) else none
  | _ => none

/-- A key is given a function to watch a cell with. -/
def Gives (r : Ref) (key : Tag) (f : Fn) (p : Step) : Prop := p.edit? r = some (key, some f)

/-- A key is added to the watchers of a cell, whether or not it is one of them. -/
def Watches (r : Ref) (key : Tag) (p : Step) : Prop := ∃ f, p.Gives r key f

def Unwatches (r : Ref) (key : Tag) (p : Step) : Prop := p.edit? r = some (key, none)

/-- The key was added, and has not been removed since. -/
def Standing (r : Ref) (key : Tag) : List Step → Prop :=
  Since (fun _ p => p.Watches r key) fun p => ¬ p.Unwatches r key

/-- The key was added at this place when it was not there, and has not been removed since: here it
was added first since it was removed last. -/
def FirstAdded (r : Ref) (key : Tag) (i : Nat) : List Step → Prop :=
  Since (fun before p => i = before.length ∧ p.Watches r key ∧ ¬ Standing r key before)
    fun p => ¬ p.Unwatches r key

/-- The key was given the function, and has not been given one or been removed since. -/
def LastGiven (r : Ref) (key : Tag) (f : Fn) : List Step → Prop :=
  Since (fun _ p => p.Gives r key f) fun p => ¬ p.Watches r key ∧ ¬ p.Unwatches r key

variable {r : Ref} {key : Tag} {f : Fn} {p : Step} {ps : List Step} {ws : List (Tag × Fn)} {i : Nat}

theorem register_eq (r : Ref) (ws : List (Tag × Fn)) (p : Step) : p.register r ws =
    match p.edit? r with
    | some (key, some f) => Assoc.put key f ws
    | some (key, none) => Assoc.erase ws key
    | none => ws := by
  obtain ⟨action, s, t⟩ := p
  cases action with
  | none => rfl
  | some a =>
    cases a with
    | watch q key f | unwatch q key =>
      simp only [register, edit?]
      split <;> rfl
    | _ => rfl

theorem Watches.not_unwatches (h : p.Watches r key) : ¬ p.Unwatches r key := by
  obtain ⟨f, hf⟩ := h
  intro hu
  cases hf.symm.trans hu

/-! ## The watchers after a number of steps -/

theorem registered_concat (r : Ref) (ws : List (Tag × Fn)) (ps : List Step) (p : Step) :
    registered r ws (ps ++ [p]) = p.register r (registered r ws ps) := List.foldl_concat ..

theorem registered_of_no_edit (h : ∀ p ∈ ps, p.edit? r = none) : registered r ws ps = ws := by
  induction ps with
  | nil => rfl
  | cons p ps ih =>
    obtain ⟨hp, hps⟩ := List.forall_mem_cons.mp h
    rw [registered, List.foldl_cons, register_eq, hp]
    exact ih hps

theorem standing_concat (r : Ref) (key : Tag) (ps : List Step) (p : Step) :
    Standing r key (ps ++ [p]) ↔ p.Watches r key ∨ Standing r key ps ∧ ¬ p.Unwatches r key :=
  since_concat ps p

theorem firstAdded_concat (r : Ref) (key : Tag) (i : Nat) (ps : List Step) (p : Step) :
    FirstAdded r key i (ps ++ [p]) ↔
      (i = ps.length ∧ p.Watches r key ∧ ¬ Standing r key ps) ∨
        FirstAdded r key i ps ∧ ¬ p.Unwatches r key :=
  since_concat ps p

theorem lastGiven_concat (r : Ref) (key : Tag) (f : Fn) (ps : List Step) (p : Step) :
    LastGiven r key f (ps ++ [p]) ↔ p.Gives r key f ∨
      LastGiven r key f ps ∧ ¬ p.Watches r key ∧ ¬ p.Unwatches r key :=
  since_concat ps p

/-- What has been there was added at some place when it was not there. -/
theorem standing_iff_firstAdded : Standing r key ps ↔ ∃ i, FirstAdded r key i ps := by
  induction ps using List.reverseRecOn with
  | nil => exact iff_of_false not_since_nil fun ⟨_, h⟩ => not_since_nil h
  | append_singleton ps p ih =>
    rw [standing_concat]
    constructor
    · rintro (hwatch | ⟨hold, hkept⟩)
      · by_cases hold : Standing r key ps
        · obtain ⟨i, hi⟩ := ih.mp hold
          exact ⟨i, (firstAdded_concat ..).mpr (.inr ⟨hi, hwatch.not_unwatches⟩)⟩
        · exact ⟨ps.length, (firstAdded_concat ..).mpr (.inl ⟨rfl, hwatch, hold⟩)⟩
      · obtain ⟨i, hi⟩ := ih.mp hold
        exact ⟨i, (firstAdded_concat ..).mpr (.inr ⟨hi, hkept⟩)⟩
    · rintro ⟨i, hi⟩
      rcases (firstAdded_concat ..).mp hi with ⟨-, hwatch, -⟩ | ⟨hi, hkept⟩
      · exact .inl hwatch
      · exact .inr ⟨ih.mpr ⟨i, hi⟩, hkept⟩

/-- Adding a key that is there already does not count. -/
theorem FirstAdded.of_concat (h : FirstAdded r key i (ps ++ [p])) (hs : Standing r key ps) :
    FirstAdded r key i ps := by
  rcases (firstAdded_concat ..).mp h with ⟨-, -, hnot⟩ | ⟨hi, -⟩
  · exact absurd hs hnot
  · exact hi

theorem FirstAdded.lt_length (h : FirstAdded r key i ps) : i < ps.length := by
  obtain ⟨before, p, after, rfl, ⟨rfl, -⟩, -⟩ := h
  simp

/-- A key is there if it was added and has not been removed since. -/
theorem mem_keys_registered (r : Ref) (key : Tag) (ps : List Step) :
    key ∈ (registered r [] ps).map (·.1) ↔ Standing r key ps := by
  induction ps using List.reverseRecOn with
  | nil => exact iff_of_false List.not_mem_nil not_since_nil
  | append_singleton ps p ih =>
    rw [registered_concat, register_eq, standing_concat, ← ih]
    rcases hp : p.edit? r with _ | ⟨k, _ | f⟩
    · simp [Watches, Gives, Unwatches, hp]
    · rw [Assoc.mem_keys_erase]
      simp [Watches, Gives, Unwatches, hp, eq_comm]
    · rw [Assoc.mem_keys_put]
      simp [Watches, Gives, Unwatches, hp, eq_comm]

/-- It is there with the function that it was given last. -/
theorem mem_registered (r : Ref) (key : Tag) (f : Fn) (ps : List Step) :
    (key, f) ∈ registered r [] ps ↔ LastGiven r key f ps := by
  induction ps using List.reverseRecOn with
  | nil => exact iff_of_false List.not_mem_nil not_since_nil
  | append_singleton ps p ih =>
    have hd := @nodup_registered r [] List.nodup_nil ps
    rw [registered_concat, register_eq, lastGiven_concat, ← ih]
    rcases hp : p.edit? r with _ | ⟨k, _ | g⟩
    · simp [Watches, Gives, Unwatches, hp]
    · simp [Watches, Gives, Unwatches, hp, Assoc.mem_erase_iff, eq_comm]
    · simp only [Assoc.mem_put_iff hd]
      simp [Watches, Gives, Unwatches, hp, eq_comm, and_comm]

/-- Keys stand in the order in which they were added when they were not there. -/
theorem pairwise_keys_registered (r : Ref) (ps : List Step) :
    ((registered r [] ps).map (·.1)).Pairwise fun k l =>
      ∀ i j, FirstAdded r k i ps → FirstAdded r l j ps → i < j := by
  induction ps using List.reverseRecOn with
  | nil => exact .nil
  | append_singleton ps p ih =>
    have hold : ((registered r [] ps).map (·.1)).Pairwise fun k l =>
        ∀ i j, FirstAdded r k i (ps ++ [p]) → FirstAdded r l j (ps ++ [p]) → i < j :=
      ih.imp_of_mem fun hk hl hlt i j hi hj =>
        hlt i j (hi.of_concat ((mem_keys_registered ..).mp hk))
          (hj.of_concat ((mem_keys_registered ..).mp hl))
    rw [registered_concat, register_eq]
    rcases p.edit? r with _ | ⟨k, _ | f⟩
    · exact hold
    · exact hold.sublist (List.filter_sublist.map _)
    · dsimp only
      rw [Assoc.map_fst_put]
      split
      · exact hold
      rename_i hnew
      rw [Assoc.contains_iff, mem_keys_registered] at hnew
      refine List.pairwise_append.mpr ⟨hold, List.pairwise_singleton ..,
        fun l hl m hm i j hi hj => ?_⟩
      obtain rfl := List.mem_singleton.mp hm
      have hi := (hi.of_concat ((mem_keys_registered ..).mp hl)).lt_length
      rcases (firstAdded_concat ..).mp hj with ⟨rfl, -⟩ | ⟨hj, -⟩
      · exact hi
      · exact absurd (standing_iff_firstAdded.mpr ⟨j, hj⟩) hnew

end Step

/-! ## One operation -/

section Cells

variable {s : Store} {q r : Ref} {c : Cell}

theorem Action.cell?_of_target {a : Action} (h : a.target? = some q) : (a.perform s).2.cell? r =
    if q.cell = r.cell then (s.cell? r).map a.change else s.cell? r := by
  rw [store_of_target h, Store.cell?_modifyCell]

/-- No cell but the target changes. -/
theorem Action.cell?_of_ne {a : Action} (h : a.target? = some q) (hne : q.cell ≠ r.cell) :
    (a.perform s).2.cell? r = s.cell? r := (cell?_of_target h).trans (if_neg hne)

theorem Action.cell?_target {a : Action} (h : a.target? = some r) (hr : s.cell? r = some c) :
    (a.perform s).2.cell? r = some (a.change c) := by
  rw [cell?_of_target h, if_pos rfl, hr]
  rfl

theorem Ref.watchKeys_eq (hr : s.cell? r = some c) :
    r.watchKeys s = (.ok (c.watchers.map (·.1)), s) := by
  have hget : (get : Op Store) s = (.ok s, s) := rfl
  rw [watchKeys, Op.bind_ok (congrArg Prod.fst hget), hget]
  dsimp only
  rw [hr]
  rfl

/-- Whether the key was there is answered. -/
theorem Ref.unwatch_answer (hr : s.cell? r = some c) (key : Tag) :
    (r.unwatch key s).1 = .ok (decide (key ∈ c.watchers.map (·.1))) := by
  have hanswer : Assoc.contains c.watchers key = decide (key ∈ c.watchers.map (·.1)) :=
    Bool.eq_iff_iff.mpr (Assoc.contains_iff.trans decide_eq_true_iff.symm)
  rw [← hanswer, unwatch, Op.modifyGet_run, hr]

end Cells

theorem Course.nodup_keys {host : Host} {s : Store} {past : List Step} {r : Ref} {c : Cell}
    (h : Course (.initial host) past s) (hr : s.cell? r = some c) :
    (c.watchers.map (·.1)).Nodup := by
  obtain ⟨-, -, since, -, -, -, -, hwatchers⟩ := h.exists_origin (r := r) rfl hr
  rw [hwatchers]
  exact @Step.nodup_registered r [] List.nodup_nil since

/-- Nothing but functions that are to be told is called. -/
theorem Notified.exists_of_mem {recorder : Fn → List Value → Store → Recording Value}
    {args : List Value} {fs : List Fn} {s : Store} {x : Recording Unit}
    (h : Notified recorder args fs s x) :
    ∀ e ∈ x.events, ∃ f ∈ fs, ∃ inside result, e = .call f args inside result := by
  induction h with
  | done s => exact nofun
  | ok hv h ih =>
    refine List.forall_mem_cons.mpr ⟨⟨_, List.mem_cons_self, _, _, rfl⟩, fun e he => ?_⟩
    obtain ⟨f, hf, hcall⟩ := ih e he
    exact ⟨f, List.mem_cons_of_mem _ hf, hcall⟩
  | error he => exact List.forall_mem_singleton.mpr ⟨_, List.mem_cons_self, _, _, rfl⟩

/-- The watchers of a cell, its own or another, change by nothing but what is done in the calls of
those that are told. -/
theorem Script.record_reset {s : Store} {q : Ref} {d : Cell} (hq : s.cell? q = some d)
    (bodies : Fn → Body) (depth : Nat) (v : Value) :
    let x := record bodies depth (reset q v) s
    ∃ calls, x.events = .step (.swap q v) s (q.swap v s).2 :: calls ∧
      (∀ e ∈ calls, ∃ f ∈ d.watchers.map (·.2), ∃ inside result,
        e = .call f [v, d.content] inside result) ∧
      ∀ r c, s.cell? r = some c → ∃ c', x.store.cell? r = some c' ∧
        c'.watchers = Step.registered r c.watchers (Event.stepsAll calls) := by
  intro x
  let told := recordBy (recordWithin bodies depth) (notify [v, d.content] (d.watchers.map (·.2)))
    (q.swap v s).2
  have hx : x = told.after [.step (.swap q v) s (q.swap v s).2] := recordBy_reset hq
  have hcourse : Course s x.steps x.store := course_record bodies depth (reset q v) s
  refine ⟨told.events, by rw [hx]; rfl, ?_, fun r c hr => ⟨_, hcourse.cell? hr, ?_⟩⟩
  · exact (Notified.of_notify _ _ _ _).exists_of_mem
  -- what is stored first is no edit
  · rw [hx]
    rfl

/-- However cells came to be watched, be it by functions that are called while a cell is set: the
keys of a cell are distinct, and stand in the order in which they were added first since they were
removed last. Adding one again changes its function and nothing else, removing one keeps the others
in order and answers whether it was there. What is done to one cell does not change the watchers of
another, but for what the functions do that are called. -/
theorem watchers_keep_order {host : Host} {s : Store} {past : List Step} {r : Ref} {c : Cell}
    (h : Course (.initial host) past s) (hr : s.cell? r = some c) :
    let keys := c.watchers.map (·.1)
    r.watchKeys s = (.ok keys, s) ∧ keys.Nodup ∧
    -- the order of the keys and their functions, from the steps since the cell was made
    (∃ earlier made since initial, past = earlier ++ made :: since ∧ made.Makes r initial ∧
      (∀ key, key ∈ keys ↔ ∃ i, Step.FirstAdded r key i since) ∧
      (keys.Pairwise fun k l =>
        ∀ i j, Step.FirstAdded r k i since → Step.FirstAdded r l j since → i < j) ∧
      ∀ key f, (key, f) ∈ c.watchers ↔ Step.LastGiven r key f since) ∧
    -- a key is added
    (∀ key f, ∃ ws, (r.watch key f s).2.cell? r = some { c with watchers := ws } ∧
      (key ∈ keys → ws = c.watchers.map fun w => if w.1 = key then (key, f) else w) ∧
      (key ∉ keys → ws = c.watchers ++ [(key, f)])) ∧
    -- a key is removed
    (∀ key, (r.unwatch key s).1 = .ok (decide (key ∈ keys)) ∧
      (r.unwatch key s).2.cell? r = some { c with watchers := c.watchers.filter (·.1 ≠ key) }) ∧
    -- the same is done to another cell
    (∀ q : Ref, q.cell ≠ r.cell → (∀ key f, (q.watch key f s).2.cell? r = some c) ∧
      ∀ key, (q.unwatch key s).2.cell? r = some c) ∧
    -- this cell is set, or another one
    (∀ q d, s.cell? q = some d → ∀ bodies depth v, let x := record bodies depth (reset q v) s
      ∃ calls, x.events = .step (.swap q v) s (q.swap v s).2 :: calls ∧
        (∀ e ∈ calls, ∃ f ∈ d.watchers.map (·.2), ∃ inside result,
          e = .call f [v, d.content] inside result) ∧
        ∃ c', x.store.cell? r = some c' ∧
          c'.watchers = Step.registered r c.watchers (Event.stepsAll calls) ∧
          ((∀ p ∈ Event.stepsAll calls, p.edit? r = none) → c'.watchers = c.watchers)) ∧
    -- whatever is run goes on from here by such steps, those in calls included
    (∀ {α : Type} (script : Script α) (bodies : Fn → Body) (depth : Nat),
      let x := record bodies depth script s
      x.outcome = run bodies depth script s ∧
      Course (.initial host) (past ++ x.steps) x.store ∧
      ∀ before p after, x.steps = before ++ p :: after →
        Course (.initial host) (past ++ before) p.before) := by
  intro keys
  obtain ⟨earlier, made, since, initial, hpast, hmade, -, hwatchers⟩ :=
    h.exists_origin (r := r) rfl hr
  have hd : keys.Nodup := h.nodup_keys hr
  refine ⟨Ref.watchKeys_eq hr, hd,
    ⟨earlier, made, since, initial, hpast, hmade, fun key => ?_, ?_, fun key f => ?_⟩,
    fun key f => ⟨Assoc.put key f c.watchers, ?_, ?_, ?_⟩, fun key => ⟨?_, ?_⟩,
    fun q hne => ⟨fun key f => ?_, fun key => ?_⟩, fun q d hq bodies depth v => ?_,
    fun script bodies depth => ⟨?_, ?_, fun before p after hsteps => ?_⟩⟩
  · rw [← Step.standing_iff_firstAdded, ← Step.mem_keys_registered, ← hwatchers]
  · have hpairwise := Step.pairwise_keys_registered r since
    rwa [← hwatchers] at hpairwise
  · rw [← Step.mem_registered, ← hwatchers]
  · exact Action.cell?_target (a := .watch r key f) rfl hr
  · exact fun hkey => by simpa only [beq_iff_eq] using Assoc.put_of_mem hd hkey f
  · exact fun hkey => Assoc.put_of_not_mem hkey f
  · exact Ref.unwatch_answer hr key
  · have hfilter : c.watchers.filter (·.1 ≠ key) = Assoc.erase c.watchers key :=
      List.filter_congr fun w _ => decide_not
    rw [hfilter]
    exact Action.cell?_target (a := .unwatch r key) rfl hr
  · exact (Action.cell?_of_ne (a := .watch q key f) rfl hne).trans hr
  · exact (Action.cell?_of_ne (a := .unwatch q key) rfl hne).trans hr
  · obtain ⟨calls, hevents, hcalls, hcells⟩ := record_reset hq bodies depth v
    obtain ⟨c', hc', hws⟩ := hcells r c hr
    exact ⟨calls, hevents, hcalls, c', hc', hws,
      fun hno => hws.trans (Step.registered_of_no_edit hno)⟩
  · exact outcome_record ..
  · exact h.trans (course_record ..)
  · have hall := course_record bodies depth script s
    rw [hsteps] at hall
    exact h.trans hall.before

/-- Of two watchers the first, when it is called, takes itself away and comes back. It stands behind
the second one afterwards. -/
theorem watchers_keep_order_reentrant :
    let r : Ref := ⟨0, countedPath 0⟩
    let f : Fn := ⟨0, "f"⟩
    let g : Fn := ⟨1, "g"⟩
    let again : Body := fun _ => do
      let _ ← request (.unwatch r ⟨"f"⟩)
      request (.watch r ⟨"f"⟩ g)
      return .nil
    let bodies (h : Fn) : Body := if h = f then again else fun _ => pure .nil
    let created : Action := .create .nil
    let s₀ := Store.initial default
    let s₁ := (created.perform s₀).2
    let s₂ := ((Action.watch r ⟨"f"⟩ f).perform s₁).2
    let s₃ := ((Action.watch r ⟨"g"⟩ g).perform s₂).2
    let x := record bodies 1 (reset r (.bool true)) s₃
    let past : List Step := [⟨some created, s₀, s₁⟩, ⟨some (.watch r ⟨"f"⟩ f), s₁, s₂⟩,
      ⟨some (.watch r ⟨"g"⟩ g), s₂, s₃⟩]
    Course s₀ (past ++ x.steps) x.store ∧
      ∃ c, x.store.cell? r = some c ∧ c.watchers = [(⟨"g"⟩, g), (⟨"f"⟩, g)] ∧
        (r.unwatch ⟨"h"⟩ x.store).1 = .ok false ∧
        ∃ since i j, Step.FirstAdded r ⟨"g"⟩ i since ∧ Step.FirstAdded r ⟨"f"⟩ j since ∧ i < j ∧
          Step.LastGiven r ⟨"f"⟩ g since := by
  intro r f g again bodies created s₀ s₁ s₂ s₃ x past
  have hcreated : s₁.cell? r = some ⟨countedPath 0, .nil, []⟩ := rfl
  have hrun : Course s₃ x.steps x.store := course_record bodies 1 (reset r (.bool true)) s₃
  have hbefore : Course s₁ past.tail s₃ := .step (.act _ s₁) (.step (.act _ s₂) (.refl s₃))
  have hwatched : Course s₁ (past.tail ++ x.steps) x.store := hbefore.trans hrun
  have hcourse : Course s₀ (past ++ x.steps) x.store := .step (.act created s₀) hwatched
  obtain ⟨c, hr, hws⟩ : ∃ c, x.store.cell? r = some c ∧ c.watchers = [(⟨"g"⟩, g), (⟨"f"⟩, g)] :=
    ⟨_, hwatched.cell? hcreated, by decide +kernel⟩
  obtain ⟨-, -, ⟨earlier, made, since, initial, -, -, hkeys, hpairwise, hgiven⟩, -, hremoved, -⟩ :=
    watchers_keep_order hcourse hr
  simp only [hws] at hkeys hpairwise hgiven
  obtain ⟨i, hi⟩ := (hkeys ⟨"g"⟩).mp (by decide)
  obtain ⟨j, hj⟩ := (hkeys ⟨"f"⟩).mp (by decide)
  have hij := List.rel_of_pairwise_cons hpairwise (List.mem_singleton_self _) i j hi hj
  have hanswer := (hremoved ⟨"h"⟩).1
  rw [hws] at hanswer
  exact ⟨hcourse, c, hr, hws, hanswer, since, i, j, hi, hj, hij, (hgiven ⟨"f"⟩ g).mp (by decide)⟩

end DynVal
