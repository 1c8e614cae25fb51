import DynVal.Cells
import DynVal.Proofs.Store.Moves

/-!
# Making cells one after the other

A new cell takes the next counted path. Where nothing is registered there, a cell is added and
registered; where a cell is, that one is handed out again. `Store.Creates` says what comes of a
number of such steps: the references, each with the value that it was made with, stand in the order
of their paths, and whatever existed before is as it was.

* `Cells.creates_create`: what one step does.
* `Store.Creates.trans`: what two runs of steps do.
-/

namespace DynVal

open Op

theorem countedPath_injective : Function.Injective countedPath := by
  intro m n h
  have htext : toString m = toString n := (String.append_right_inj _).mp h
  rw [Nat.toString_eq_ofList_toDigits, Nat.toString_eq_ofList_toDigits] at htext
  have hdigits : Nat.toDigits 10 m = Nat.toDigits 10 n := String.ofList_injective htext
  rw [← Nat.ofDigitChars_ten_toDigits (n := m), hdigits, Nat.ofDigitChars_ten_toDigits]

theorem Op.modifyGet_run {α : Type} (f : Store → α × Store) (s : Store) :
    (modifyGet f : Op α) s = (.ok (f s).1, (f s).2) := rfl

theorem refAt?_addCell (s : Store) (c : Cell) (path : String) :
    (s.addCell c).refAt? path = if c.path = path then some ⟨s.cells.size, path⟩ else
      s.refAt? path := by
  simp only [Store.refAt?, Store.addCell, Registry.get?_put]
  split <;> rfl

namespace Cells

variable {s : Store} {path : String} {v : Value} {r : Ref}

theorem path_of_refAt? (h : s.refAt? path = some r) : r.path = path := by
  obtain ⟨cell, -, rfl⟩ := Option.map_eq_some_iff.mp h
  rfl

theorem define_registered (h : s.refAt? path = some r) (v : Value) :
    define path v s = (.ok r, s) := by
  rw [define, modifyGet_run, h]

theorem define_unregistered (h : s.refAt? path = none) (v : Value) :
    define path v s = (.ok ⟨s.cells.size, path⟩, s.addCell ⟨path, v, []⟩) := by
  rw [define, modifyGet_run, h]

/-- Where the next counted path is registered, the cell there is handed out again. -/
theorem create_registered (h : s.refAt? (countedPath s.paths) = some r) (v : Value) :
    create v s = (.ok r, { s with paths := s.paths + 1 }) :=
  define_registered (s := { s with paths := s.paths + 1 }) h v

theorem create_unregistered (h : s.refAt? (countedPath s.paths) = none) (v : Value) :
    create v s = (.ok ⟨s.cells.size, countedPath s.paths⟩,
      Store.addCell { s with paths := s.paths + 1 } ⟨countedPath s.paths, v, []⟩) :=
  define_unregistered (s := { s with paths := s.paths + 1 }) h v

end Cells

/-! ## What comes of it -/

/-- What making cells one after the other does to a store. -/
structure Store.Creates (s : Store) (made : List (Ref × Value)) (s' : Store) : Prop where
  paths : s'.paths = s.paths + made.length
  cells : ∀ (i : Nat) (c : Cell), s.cells[i]? = some c → s'.cells[i]? = some c
  registered : ∀ path r, s.refAt? path = some r → s'.refAt? path = some r
  /-- Of the paths that were free, those that were counted are taken. -/
  counted : ∀ path, s.refAt? path = none →
    ((s'.refAt? path).isSome ↔ ∃ i, i < made.length ∧ path = countedPath (s.paths + i))
  made : ∀ (i : Nat) (r : Ref) (v : Value), made[i]? = some (r, v) →
    r.path = countedPath (s.paths + i) ∧ s'.refAt? r.path = some r ∧ (s.refAt? r.path = none →
      s.cells.size ≤ r.cell ∧ s'.cells[r.cell]? = some ⟨r.path, v, []⟩)

namespace Store.Creates

variable {s s' s'' : Store} {made made' : List (Ref × Value)} {r : Ref} {v : Value} {i : Nat}

/-- Cells, registry and counter are left alone. -/
theorem of_eq (hc : s'.cells = s.cells) (hr : s'.registry = s.registry) (hp : s'.paths = s.paths) :
    s.Creates [] s' where
  paths := hp
  cells i c h := hc ▸ h
  registered path r h := by rwa [refAt?, hr]
  counted path h := by
    have hsame : s'.refAt? path = s.refAt? path := by rw [refAt?, refAt?, hr]
    simp [hsame, h]
  made i r v h := by cases h

theorem size_le (h : s.Creates made s') : s.cells.size ≤ s'.cells.size := by
  refine Nat.le_of_not_lt fun hlt => ?_
  have hget := h.cells _ _ (Array.getElem?_eq_getElem hlt)
  rw [Array.getElem?_eq_none (Nat.le_refl _)] at hget
  cases hget

/-- A path that is counted later on is as free as it was at the start. -/
theorem refAt?_eq_none (h : s.Creates made s') {n : Nat} (hn : s'.paths ≤ n)
    (hnone : s.refAt? (countedPath n) = none) : s'.refAt? (countedPath n) = none := by
  rw [← Option.not_isSome_iff_eq_none, h.counted _ hnone]
  rintro ⟨i, hi, heq⟩
  have := countedPath_injective heq
  have := h.paths
  omega

theorem trans (h : s.Creates made s') (h' : s'.Creates made' s'') :
    s.Creates (made ++ made') s'' where
  paths := by
    rw [h'.paths, h.paths, List.length_append, Nat.add_assoc]
  cells i c hc := h'.cells i c (h.cells i c hc)
  registered path r hr := h'.registered path r (h.registered path r hr)
  counted path hnone := by
    have hlen : (made ++ made').length = made.length + made'.length := List.length_append
    cases hs' : s'.refAt? path with
    | some r =>
      obtain ⟨i, hi, hpath⟩ := (h.counted path hnone).mp (by rw [hs']; rfl)
      refine iff_of_true (by rw [h'.registered path r hs']; rfl) ⟨i, by omega, hpath⟩
    | none =>
      have hearlier : ¬ ∃ i, i < made.length ∧ path = countedPath (s.paths + i) := by
        rw [← h.counted path hnone, hs']
        exact Bool.false_ne_true
      rw [h'.counted path hs', h.paths]
      constructor
      · rintro ⟨i, hi, rfl⟩
        exact ⟨made.length + i, by omega, by rw [Nat.add_assoc]⟩
      · rintro ⟨i, hi, rfl⟩
        have hle : made.length ≤ i := Nat.le_of_not_lt fun hlt => hearlier ⟨i, hlt, rfl⟩
        exact ⟨i - made.length, by omega, by rw [Nat.add_assoc, Nat.add_sub_cancel' hle]⟩
  made i r v hi := by
    rcases Nat.lt_or_ge i made.length with hlt | hle
    · rw [List.getElem?_append_left hlt] at hi
      obtain ⟨hpath, href, hnew⟩ := h.made i r v hi
      refine ⟨hpath, h'.registered _ _ href, fun hnone => ?_⟩
      exact ⟨(hnew hnone).1, h'.cells _ _ (hnew hnone).2⟩
    · rw [List.getElem?_append_right hle] at hi
      obtain ⟨hpath, href, hnew⟩ := h'.made _ r v hi
      rw [h.paths, Nat.add_assoc, Nat.add_sub_cancel' hle] at hpath
      refine ⟨hpath, href, fun hnone => ?_⟩
      have hfree : s'.refAt? r.path = none := by
        rw [hpath] at hnone ⊢
        exact h.refAt?_eq_none (by rw [h.paths]; omega) hnone
      exact ⟨Nat.le_trans h.size_le (hnew hfree).1, (hnew hfree).2⟩

theorem path_getElem (h : s.Creates made s') (hi : i < made.length) :
    made[i].1.path = countedPath (s.paths + i) :=
  (h.made i _ _ (List.getElem?_eq_getElem hi)).1

/-- No two references that were handed out have one path. -/
theorem distinct (h : s.Creates made s') : made.Pairwise fun p q => p.1.path ≠ q.1.path := by
  refine List.pairwise_iff_getElem.mpr fun i j hi hj hlt heq => ?_
  rw [h.path_getElem hi, h.path_getElem hj] at heq
  have := countedPath_injective heq
  omega

/-- Other paths lead where they led before. -/
theorem refAt?_eq (h : s.Creates made s') {path : String} (hp : ∀ p ∈ made, p.1.path ≠ path) :
    s'.refAt? path = s.refAt? path := by
  cases hs : s.refAt? path with
  | some r => exact h.registered path r hs
  | none =>
    rw [← Option.not_isSome_iff_eq_none, h.counted path hs]
    rintro ⟨i, hi, rfl⟩
    exact hp _ (List.getElem_mem hi) (h.path_getElem hi)

/-- Where no path that is to be counted is registered, all cells are new. -/
theorem fresh (h : s.Creates made s') (hfree : ∀ n, s.paths ≤ n → s.refAt? (countedPath n) = none)
    (hi : made[i]? = some (r, v)) : r.path = countedPath (s.paths + i) ∧
      s.refAt? r.path = none ∧ s'.refAt? r.path = some r ∧ s.cells.size ≤ r.cell ∧
      s'.cell? r = some ⟨r.path, v, []⟩ := by
  obtain ⟨hpath, href, hcell⟩ := h.made i r v hi
  have hnone : s.refAt? r.path = none := hpath ▸ hfree _ (Nat.le_add_right _ _)
  exact ⟨hpath, hnone, href, hcell hnone⟩

/-- One cell, at the next counted path. -/
theorem single (hpaths : s'.paths = s.paths + 1)
    (hcells : ∀ (i : Nat) (c : Cell), s.cells[i]? = some c → s'.cells[i]? = some c)
    (hregistered : ∀ path r, s.refAt? path = some r → s'.refAt? path = some r)
    (hcounted : ∀ path, s.refAt? path = none →
      ((s'.refAt? path).isSome ↔ countedPath s.paths = path))
    (hpath : r.path = countedPath s.paths) (href : s'.refAt? r.path = some r)
    (hnew : s.refAt? r.path = none →
      s.cells.size ≤ r.cell ∧ s'.cells[r.cell]? = some ⟨r.path, v, []⟩) :
    s.Creates [(r, v)] s' where
  paths := hpaths
  cells := hcells
  registered := hregistered
  counted path hnone := by
    rw [hcounted path hnone]
    simp [eq_comm]
  made i q w hi := by
    cases i with
    | zero =>
      cases hi
      exact ⟨hpath, href, hnew⟩
    | succ i => cases hi

end Store.Creates

namespace Cells

variable {s : Store} {r : Ref}

theorem creates_registered (h : s.refAt? (countedPath s.paths) = some r) (v : Value) :
    s.Creates [(r, v)] { s with paths := s.paths + 1 } := by
  have hpath := path_of_refAt? h
  have htaken {path : String} (hp : countedPath s.paths = path) (hnone : s.refAt? path = none) :
      False := by
    rw [← hp, h] at hnone
    cases hnone
  refine .single rfl (fun _ _ h => h) (fun _ _ h => h) (fun path hnone => ?_) hpath (hpath ▸ h)
    fun hnone => (htaken hpath.symm hnone).elim
  exact iff_of_false (Option.not_isSome_iff_eq_none.mpr hnone) fun hp => htaken hp hnone

theorem creates_unregistered (h : s.refAt? (countedPath s.paths) = none) (v : Value) :
    s.Creates [(⟨s.cells.size, countedPath s.paths⟩, v)]
      (Store.addCell { s with paths := s.paths + 1 } ⟨countedPath s.paths, v, []⟩) := by
  refine .single rfl (fun i c hi => ?_) (fun path r hr => ?_) (fun path hnone => ?_) rfl ?_
    fun _ => ⟨Nat.le_refl _, Array.getElem?_push_size⟩
  · obtain ⟨hlt, heq⟩ := Array.getElem?_eq_some_iff.mp hi
    exact (Array.getElem?_push_lt hlt).trans (congrArg some heq)
  · have hne : countedPath s.paths ≠ path := by
      rintro rfl
      rw [h] at hr
      cases hr
    rw [refAt?_addCell, if_neg hne]
    exact hr
  · rw [refAt?_addCell]
    split
    · exact iff_of_true rfl ‹_›
    · exact iff_of_false (Option.not_isSome_iff_eq_none.mpr hnone) ‹_›
  · rw [refAt?_addCell, if_pos rfl]

theorem creates_create (v : Value) (s : Store) :
    ∃ r s', create v s = (.ok r, s') ∧ s.Creates [(r, v)] s' := by
  cases h : s.refAt? (countedPath s.paths) with
  | some r => exact ⟨r, _, create_registered h v, creates_registered h v⟩
  | none => exact ⟨_, _, create_unregistered h v, creates_unregistered h v⟩

end Cells

/-! ## Steps without cells -/

/-- Nothing is created. -/
abbrev Op.CreatesNothing {α : Type} (op : Op α) : Prop := op.Moves fun s s' => s.Creates [] s'

instance refl_createsNothing : Std.Refl fun s s' : Store => s.Creates [] s' :=
  ⟨fun _ => .of_eq rfl rfl rfl⟩

instance trans_createsNothing : IsTrans Store fun s s' : Store => s.Creates [] s' :=
  ⟨fun _ _ _ => .trans⟩

theorem Op.basics_createsNothing : Basics fun s s' => s.Creates [] s' where
  share _ _ := .of_eq rfl rfl rfl
  memo _ _ := .of_eq rfl rfl rfl
  backing _ _ := .of_eq rfl rfl rfl

end DynVal
