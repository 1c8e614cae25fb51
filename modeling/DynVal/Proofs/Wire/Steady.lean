import DynVal.Proofs.Store.Creating
import DynVal.Proofs.Wire.Surveys
import Mathlib.Data.String.Basic

/-!
# Trees that keep their order

References are ordered by the texts of their paths, and decoding gives them paths that are counted.
The path of number 10 comes after that of number 9 and is the smaller text, so elements of a set may
change places when they are decoded and encoded again, and so may the entries of a map
(`Wire.Rearranged`). They do not where the paths in what is compared are counted in the order of
their texts (`Wire.Steady`). That is so of all paths of one length (`Wire.steady_of_length`), and
where at most one of the things that are compared has any (`Wire.steady_of_single`).
-/

namespace DynVal.Wire

/-! ## Trees that differ in the order of their children -/

/-- The same tree, up to the order of elements of sets and entries of maps outside quotes. -/
inductive Rearranged : Cirru → Cirru → Prop where
  | refl (c : Cirru) : Rearranged c c
  | node {cs ds : List Cirru} (hq : cs.head? ≠ some (.leaf "quote"))
    (h : List.Forall₂ Rearranged cs ds) : Rearranged (.list cs) (.list ds)
  | moved {marker : String} {cs ds es : List Cirru}
    (hm : marker = "#\x7b\x7d" ∨ marker = "\x7b\x7d") (h : List.Forall₂ Rearranged cs ds)
    (hp : ds.Perm es) : Rearranged (.list (.leaf marker :: cs)) (.list (.leaf marker :: es))

/-! ## Paths that are counted in the order of their texts -/

/-- The paths of the first numbers stand before those of the second. -/
def Precede (is js : List Nat) : Prop :=
  ∀ i ∈ is, ∀ j ∈ js, compare (countedPath i) (countedPath j) = .lt

/-- The numbers that are drawn in a part of each tree, if they are drawn from `n` on. -/
def drawn (part : Cirru → Cirru) : Nat → List Cirru → List (List Nat)
  | _, [] => []
  | n, c :: cs => List.range' n (atoms (part c)) :: drawn part (n + atoms c) cs

/-- The key of an entry. -/
def keyOf : Cirru → Cirru
  | .list (k :: _) => k
  | c => c

mutual

/-- If numbers are drawn from `n` on, then the paths in one element of a set stand before those in
the next ones, and likewise for the keys of a map. -/
def Steady : Cirru → Nat → Prop
  | .leaf _, _ => True
  | .list cs, n => cs.head? = some (.leaf "quote") ∨ SteadyAll cs n ∧
    (cs.head? = some (.leaf "#\x7b\x7d") → (drawn id n cs).Pairwise Precede) ∧
    (cs.head? = some (.leaf "\x7b\x7d") → (drawn keyOf n cs).Pairwise Precede)
termination_by structural c => c

def SteadyAll : List Cirru → Nat → Prop
  | [], _ => True
  | c :: cs, n => Steady c n ∧ SteadyAll cs (n + atoms c)
termination_by structural cs => cs

end

section Steady

variable {cs : List Cirru} {n : Nat}

/-- A list that is no quote is steady only if its items are. -/
theorem Steady.items (h : Steady (.list cs) n) (hq : cs.head? ≠ some (.leaf "quote")) :
    SteadyAll cs n := by
  rw [Steady] at h
  exact (h.resolve_left hq).1

theorem Steady.elements (h : Steady (.list (.leaf "#\x7b\x7d" :: cs)) n) :
    (drawn id n cs).Pairwise Precede := by
  rw [Steady] at h
  obtain h | ⟨-, h, -⟩ := h
  · simp at h
  · exact (h rfl).of_cons

theorem Steady.keys (h : Steady (.list (.leaf "\x7b\x7d" :: cs)) n) :
    (drawn keyOf n cs).Pairwise Precede := by
  rw [Steady] at h
  obtain h | ⟨-, -, h⟩ := h
  · simp at h
  · exact (h rfl).of_cons

end Steady

/-! ## Paths of one length -/

section Length

theorem lt_append_of_lt {xs ys : List Char} (h : xs < ys) (hl : xs.length = ys.length)
    (as bs : List Char) : xs ++ as < ys ++ bs := by
  induction h with
  | nil => cases hl
  | rel h => exact .rel h
  | cons _ ih => exact .cons (ih (Nat.succ.inj hl))

theorem digits_lt_of_lt {i j : Nat} (h : i < j)
    (hl : (Nat.toDigits 10 i).length = (Nat.toDigits 10 j).length) :
    Nat.toDigits 10 i < Nat.toDigits 10 j := by
  induction j using Nat.strongRecOn generalizing i with
  | _ j ih =>
    have hdigit {i : Nat} (hi : i < 10) : Nat.toDigits 10 i = [i.digitChar] :=
      Nat.toDigits_of_lt_base hi
    have hlast : ∀ i < 10, ∀ j < 10, i < j → [i.digitChar] < [j.digitChar] := by decide
    rcases Nat.lt_or_ge j 10 with hj | hj
    · have hi := Nat.lt_trans h hj
      rw [hdigit hi, hdigit hj]
      exact hlast i hi j hj h
    · have hj' := Nat.toDigits_of_base_le (b := 10) (by decide) hj
      have hi : 10 ≤ i := by
        by_contra hi
        rw [hj', hdigit (Nat.not_le.mp hi)] at hl
        have := Nat.length_toDigits_pos (b := 10) (n := j / 10)
        simp at hl
      have hi' := Nat.toDigits_of_base_le (b := 10) (by decide) hi
      rw [hi', hj'] at hl ⊢
      simp only [List.length_append, List.length_singleton, Nat.add_right_cancel_iff] at hl
      rcases Nat.lt_or_ge (i / 10) (j / 10) with hlt | hge
      · exact lt_append_of_lt (ih (j / 10) (by omega) hlt hl) hl _ _
      · have heq : i / 10 = j / 10 := by omega
        rw [heq]
        refine List.append_left_lt (hlast _ ?_ _ ?_ ?_) <;> omega

theorem compare_countedPath {i j : Nat} (h : i < j)
    (hl : (countedPath i).length = (countedPath j).length) :
    compare (countedPath i) (countedPath j) = .lt := by
  have htext (n : Nat) : (countedPath n).toList = "ref:".toList ++ Nat.toDigits 10 n := by
    simp [countedPath]
  rw [← String.length_toList, ← String.length_toList, htext, htext, List.length_append,
    List.length_append, Nat.add_left_cancel_iff] at hl
  have hlt : countedPath i < countedPath j := by
    rw [String.lt_iff_toList_lt, htext, htext]
    exact List.append_left_lt (digits_lt_of_lt h hl)
  exact if_pos hlt

/-- The numbers from one to the other are counted in the order of their paths. -/
def Ascends (n m : Nat) : Prop :=
  ∀ i j, n ≤ i → i < j → j < m → compare (countedPath i) (countedPath j) = .lt

theorem Ascends.mono {n m n' m' : Nat} (h : Ascends n m) (hn : n ≤ n') (hm : m' ≤ m) :
    Ascends n' m' := fun i j hi hij hj => h i j (by omega) hij (by omega)

variable {part : Cirru → Cirru} {c : Cirru} {cs : List Cirru} {n : Nat}

theorem mem_drawn (hpart : ∀ c, atoms (part c) ≤ atoms c) {is : List Nat}
    (h : is ∈ drawn part n cs) : ∀ i ∈ is, n ≤ i ∧ i < n + atomsAll cs := by
  induction cs generalizing n with
  | nil => cases h
  | cons c cs ih =>
    intro i hi
    rw [atomsAll]
    rcases List.mem_cons.mp h with rfl | h
    · have := List.mem_range'_1.mp hi
      have := hpart c
      omega
    · have := ih h i hi
      omega

theorem pairwise_drawn (hpart : ∀ c, atoms (part c) ≤ atoms c)
    (h : Ascends n (n + atomsAll cs)) : (drawn part n cs).Pairwise Precede := by
  induction cs generalizing n with
  | nil => exact .nil
  | cons c cs ih =>
    rw [atomsAll] at h
    refine .cons (fun js hjs i hi j hj => ?_) (ih (h.mono (by omega) (by omega)))
    have hi := List.mem_range'_1.mp hi
    have hj := mem_drawn hpart hjs j hj
    have := hpart c
    exact h i j hi.1 (by omega) (by omega)

theorem atomsAll_le (hq : cs.head? ≠ some (.leaf "quote")) : atomsAll cs ≤ atoms (.list cs) := by
  rw [atoms, if_neg hq]
  split <;> omega

theorem atoms_keyOf_le (c : Cirru) : atoms (keyOf c) ≤ atoms c := by
  match c with
  | .leaf _ | .list [] => exact Nat.le_refl _
  | .list (k :: cs) =>
    by_cases hq : k = .leaf "quote"
    · subst hq
      exact Nat.zero_le _
    · have hle : atomsAll (k :: cs) ≤ atoms (.list (k :: cs)) := atomsAll_le (mt Option.some.inj hq)
      rw [atomsAll] at hle
      exact Nat.le_trans (Nat.le_add_right _ _) hle

mutual

theorem steady_of_ascends (c : Cirru) (n : Nat) (h : Ascends n (n + atoms c)) : Steady c n := by
  match c with
  | .leaf _ => trivial
  | .list cs =>
    rw [Steady]
    by_cases hq : cs.head? = some (.leaf "quote")
    · exact .inl hq
    · have hcs := h.mono (Nat.le_refl n) (Nat.add_le_add_left (atomsAll_le hq) n)
      exact .inr ⟨steadyAll_of_ascends cs n hcs,
        fun _ => pairwise_drawn (fun _ => Nat.le_refl _) hcs,
        fun _ => pairwise_drawn atoms_keyOf_le hcs⟩

theorem steadyAll_of_ascends (cs : List Cirru) (n : Nat) (h : Ascends n (n + atomsAll cs)) :
    SteadyAll cs n := by
  match cs with
  | [] => trivial
  | c :: cs =>
    rw [atomsAll] at h
    exact ⟨steady_of_ascends c n (h.mono (Nat.le_refl n) (by omega)),
      steadyAll_of_ascends cs _ (h.mono (Nat.le_add_right _ _) (by omega))⟩

end

/-- Paths that are equally long keep everything in order. -/
theorem steady_of_length {l : Nat} (h : ∀ i, i < atoms c → (countedPath (n + i)).length = l) :
    Steady c n := by
  have hlength (i : Nat) (hn : n ≤ i) (hi : i < n + atoms c) : (countedPath i).length = l := by
    rw [← h (i - n) (by omega), Nat.add_sub_cancel' hn]
  refine steady_of_ascends c n fun i j hi hij hj => compare_countedPath hij ?_
  rw [hlength i hi (by omega), hlength j (by omega) hj]

end Length

/-! ## Few paths to compare -/

section Single

/-- At most one of the trees has `atom` nodes in its part. -/
def OneDraws (part : Cirru → Cirru) (cs : List Cirru) : Prop :=
  cs.Pairwise fun c d => atoms (part c) = 0 ∨ atoms (part d) = 0

mutual

/-- Outside quotes, at most one element of a set has `atom` nodes, and at most one key of a map. -/
def Single : Cirru → Prop
  | .leaf _ => True
  | .list cs => cs.head? = some (.leaf "quote") ∨ SingleAll cs ∧
    (cs.head? = some (.leaf "#\x7b\x7d") → OneDraws id cs) ∧
    (cs.head? = some (.leaf "\x7b\x7d") → OneDraws keyOf cs)
termination_by structural c => c

def SingleAll : List Cirru → Prop
  | [] => True
  | c :: cs => Single c ∧ SingleAll cs
termination_by structural cs => cs

end

variable {part : Cirru → Cirru} {cs : List Cirru} {n : Nat}

theorem exists_of_mem_drawn {is : List Nat} (h : is ∈ drawn part n cs) :
    ∃ c ∈ cs, is.length = atoms (part c) := by
  induction cs generalizing n with
  | nil => cases h
  | cons c cs ih =>
    rcases List.mem_cons.mp h with rfl | h
    · exact ⟨c, List.mem_cons_self, List.length_range'⟩
    · obtain ⟨d, hd, hlen⟩ := ih h
      exact ⟨d, List.mem_cons_of_mem c hd, hlen⟩

theorem OneDraws.pairwise_drawn (h : OneDraws part cs) (n : Nat) :
    (drawn part n cs).Pairwise Precede := by
  induction cs generalizing n with
  | nil => exact .nil
  | cons c cs ih =>
    obtain ⟨hc, hcs⟩ := List.pairwise_cons.mp h
    refine .cons (fun js hjs i hi j hj => ?_) (ih hcs _)
    obtain ⟨d, hd, hlen⟩ := exists_of_mem_drawn hjs
    -- one of the two draws no numbers
    rcases hc d hd with hzero | hzero
    · rw [hzero] at hi
      cases hi
    · rw [hzero] at hlen
      rw [List.eq_nil_of_length_eq_zero hlen] at hj
      cases hj

mutual

/-- No two of the things that are compared have paths, so all numbers keep them in order. -/
theorem steady_of_single (c : Cirru) (n : Nat) (h : Single c) : Steady c n := by
  match c with
  | .leaf _ => trivial
  | .list cs =>
    rw [Single] at h
    rw [Steady]
    obtain hq | ⟨hall, hset, hmap⟩ := h
    · exact .inl hq
    · exact .inr ⟨steadyAll_of_single cs n hall, fun hm => (hset hm).pairwise_drawn n,
        fun hm => (hmap hm).pairwise_drawn n⟩

theorem steadyAll_of_single (cs : List Cirru) (n : Nat) (h : SingleAll cs) : SteadyAll cs n := by
  match cs with
  | [] => trivial
  | c :: cs => exact ⟨steady_of_single c n h.1, steadyAll_of_single cs _ h.2⟩

end

end Single

end DynVal.Wire
