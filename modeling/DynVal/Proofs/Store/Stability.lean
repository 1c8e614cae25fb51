import DynVal.Proofs.Store.Copies
import DynVal.Proofs.Store.Reencoding
import DynVal.Proofs.Wire.Settling

/-!
# Encoding what was decoded from an encoded value

A value with references is encoded, decoded and encoded again. The second tree is the first one up
to the order of elements of sets and entries of maps (`encode_decode_rearranged`). These are ordered
by the paths of the references in them, which are new ones after decoding: the path of number 10 is
counted after that of number 9 and is less (`encode_decode_tenth`).
-/

namespace DynVal

open Op Value

/-! ## A set of two references -/

section Pair

/-- A store in which some paths were drawn for nothing. -/
def afterPaths (k : Nat) : Store := (fun s => (Cells.freshPath s).2)^[k] (.initial default)

theorem history_afterPaths (k : Nat) : History default (afterPaths k) [] := by
  induction k with
  | zero => exact .start
  | succ k ih =>
    rw [afterPaths, Function.iterate_succ_apply']
    exact ih.elsewhere ⟨rfl, rfl, rfl, rfl⟩

theorem refAt?_afterPaths (k : Nat) (path : String) : (afterPaths k).refAt? path = none := by
  induction k with
  | zero => rfl
  | succ k ih =>
    rw [afterPaths, Function.iterate_succ_apply']
    exact ih

theorem perform_create (v : Value) (s : Store) :
    ∃ r, s.Creates [(r, v)] ((Request.create v).perform s).2 := by
  obtain ⟨r, s', hrun, hmade⟩ := Cells.creates_create v s
  have hperform : (Request.create v).perform =
      (Cells.create v >>= fun r => pure (Reply.value (.ref r)) : Op Reply) := rfl
  rw [hperform, bind_ok (congrArg Prod.fst hrun), hrun]
  exact ⟨r, hmade⟩

/-- The same with a cell of `false`, and then with one of `true`. -/
def afterFalse (k : Nat) : Store := ((Request.create (.bool false)).perform (afterPaths k)).2

def afterTrue (k : Nat) : Store := ((Request.create (.bool true)).perform (afterFalse k)).2

/-- And then with a set of two references. -/
def afterSet (k : Nat) (p q : Ref) : Store :=
  ((Request.makeSet [.ref p, .ref q]).perform (afterTrue k)).2

variable {k : Nat} {p q : Ref} {t : SetNode} {c : Cirru}

theorem creates_afterSet (k : Nat) (p q : Ref) :
    ∃ made, (afterPaths k).Creates made (afterSet k p q) := by
  obtain ⟨_, hfalse⟩ := perform_create (.bool false) (afterPaths k)
  obtain ⟨_, htrue⟩ := perform_create (.bool true) (afterFalse k)
  have hset : (Request.makeSet [.ref p, .ref q]).perform.CreatesNothing :=
    moves_bind (moves_bind (basics_createsNothing.memo _) fun _ => basics_createsNothing.share _)
      fun _ => moves_pure _
  exact ⟨_, (hfalse.trans htrue).trans (hset (afterTrue k))⟩

/-- The set is encodable, where it and the references in it are what was replied. -/
theorem encodable_afterSet
    (hp : ((Request.create (.bool false)).perform (afterPaths k)).1 = .ok (.value (.ref p)))
    (hq : ((Request.create (.bool true)).perform (afterFalse k)).1 = .ok (.value (.ref q)))
    (ht : ((Request.makeSet [.ref p, .ref q]).perform (afterTrue k)).1 = .ok (.value (.set t)))
    (hc : (Wire.encode (.set t) (afterSet k p q)).1 = .ok c) :
    ∃ log, History default (afterSet k p q) log ∧ Held log (.set t) ∧
      (afterSet k p q).Encodable (.set t) ∧ ¬ (afterSet k p q).Circular (.set t) ∧
      ∀ n, (afterSet k p q).paths ≤ n → (afterSet k p q).refAt? (countedPath n) = none := by
  let log : Log := [(.makeSet [.ref p, .ref q], .ok (.value (.set t))),
    (.create (.bool true), .ok (.value (.ref q))), (.create (.bool false), .ok (.value (.ref p)))]
  have hmade : History default (afterSet k p q) log := by
    have hfalse := (history_afterPaths k).ask (.create (.bool false))
      (by simpa [Request.operands] using .scalar rfl)
    rw [hp] at hfalse
    have htrue := hfalse.ask (.create (.bool true)) (by simpa [Request.operands] using .scalar rfl)
    rw [← afterFalse, hq] at htrue
    have hset := htrue.ask (.makeSet [.ref p, .ref q])
      (by simpa [Request.operands] using ⟨.scalar rfl, .scalar rfl⟩)
    rwa [← afterTrue, ht] at hset
  have hheld : Held log (.set t) :=
    .replied (q := .makeSet [.ref p, .ref q]) (r := .value (.set t)) List.mem_cons_self
      (by simp [Reply.held])
  obtain ⟨g, hs, hk⟩ := hmade.exists_stage
  obtain ⟨hencodable, hcircular⟩ := (hs.exists_encode_iff (hk.held hheld)).mp ⟨c, hc⟩
  obtain ⟨_, hcreated⟩ := creates_afterSet k p q
  exact ⟨log, hmade, hheld, hencodable, hcircular, fun n hn =>
    hcreated.refAt?_eq_none hn (refAt?_afterPaths k _)⟩

end Pair

/-! ## There and back twice -/

theorem Store.Creates.placed {s s' : Store} {made : List (Ref × Value)} (h : s.Creates made s')
    (hfree : ∀ n, s.paths ≤ n → s.refAt? (countedPath n) = none) :
    Wire.Placed s'.content s.paths made := fun _ _ hi =>
  ⟨(h.made _ _ _ hi).1, h.content_eq hfree _ (List.mem_of_getElem? hi)⟩

/-- An encodable value is encoded, decoded and encoded again. The trees differ in the order of
elements and entries at most, and not at all if the first is steady. -/
theorem encode_decode_rearranged {host : Host} {s : Store} {log : Log} (h : History host s log)
    {v : Value} (hv : Held log v) (he : s.Encodable v) (hc : ¬ s.Circular v)
    (hfree : ∀ n, s.paths ≤ n → s.refAt? (countedPath n) = none) :
    ∃ c s₁ w s₂ c' s₃, Wire.encode v s = (.ok c, s₁) ∧ Wire.decode .strict c s₁ = (.ok w, s₂) ∧
      Wire.encode w s₂ = (.ok c', s₃) ∧ Wire.Rearranged c c' ∧
      (Wire.Steady c s.paths → c' = c) := by
  obtain ⟨g, hs, hk⟩ := h.exists_stage
  have hsv := hk.held hv
  obtain ⟨c, s₁, w, s₂, made, g₂, hencode, hdecode, hmade, -, hext, hs₂, hsw, hdecodes⟩ :=
    hs.exists_decoded hsv he hc
  obtain ⟨ρ, hρ⟩ := hs₂.exists_admitted
  have hadm := hext.numbering.admits hρ
  have hform := (hs.encode_ok_iff hsv hadm).mp (congrArg Prod.fst hencode)
  obtain ⟨c', hform', hre, hsame⟩ := Wire.exists_rearranged (fun _ => failure)
    (fun r => (hs.content_sound r).wellFormed hadm) (fun r => (hs₂.content_sound r).wellFormed hρ)
    (hsv.wellFormed hadm) (hsw.wellFormed hρ) hform (hdecodes ρ hρ) (hmade.placed hfree)
  exact ⟨c, s₁, w, s₂, c', _, hencode, hdecode,
    Prod.ext (hs₂.encode_of_formAt hsw hρ hform') rfl, hre, hsame⟩

/-- With the first paths nothing is moved. -/
theorem encode_decode_pair :
    let p : Ref := ⟨0, "ref:0"⟩
    let q : Ref := ⟨1, "ref:1"⟩
    let s := afterSet 0 p q
    let v : Value := .set ⟨0, ⟨.slice [(.ref p, ()), (.ref q, ())]⟩⟩
    let c : Cirru := .list [.leaf "#\x7b\x7d", .list [.leaf "atom", .leaf "false"],
      .list [.leaf "atom", .leaf "true"]]
    ∃ log s₁ w s₂ s₃, History default s log ∧ Held log v ∧ s.Encodable v ∧ ¬ s.Circular v ∧
      (∀ n, s.paths ≤ n → s.refAt? (countedPath n) = none) ∧ Wire.Steady c s.paths ∧
      Wire.encode v s = (.ok c, s₁) ∧ Wire.decode .strict c s₁ = (.ok w, s₂) ∧
      Wire.encode w s₂ = (.ok c, s₃) := by
  intro p q s v c
  have hencode : (Wire.encode v s).1 = .ok c := by decide +kernel +zetaReduce
  obtain ⟨log, hmade, hheld, hencodable, hcircular, hfree⟩ :=
    @encodable_afterSet 0 p q ⟨0, ⟨.slice [(.ref p, ()), (.ref q, ())]⟩⟩ c rfl rfl rfl hencode
  obtain ⟨c₁, s₁, w, s₂, c', s₃, hencode₁, hdecode, hagain, -, hsame⟩ :=
    encode_decode_rearranged hmade hheld hencodable hcircular hfree
  obtain rfl : c₁ = c := Except.ok.inj ((congrArg Prod.fst hencode₁).symm.trans hencode)
  have hpaths : s.paths = 2 := by decide +kernel +zetaReduce
  have hsteady : Wire.Steady c s.paths :=
    hpaths ▸ Wire.steady_of_length (l := 5) (by decide +kernel)
  obtain rfl : c' = c := hsame hsteady
  exact ⟨log, s₁, w, s₂, s₃, hmade, hheld, hencodable, hcircular, hfree, hsteady, hencode₁, hdecode,
    hagain⟩

/-- The references of the second set are at the paths of numbers 9 and 10, the second of which is
less. -/
theorem encode_decode_tenth :
    let p : Ref := ⟨0, "ref:7"⟩
    let q : Ref := ⟨1, "ref:8"⟩
    let s := afterSet 7 p q
    let v : Value := .set ⟨0, ⟨.slice [(.ref p, ()), (.ref q, ())]⟩⟩
    let c : Cirru := .list [.leaf "#\x7b\x7d", .list [.leaf "atom", .leaf "false"],
      .list [.leaf "atom", .leaf "true"]]
    let c' : Cirru := .list [.leaf "#\x7b\x7d", .list [.leaf "atom", .leaf "true"],
      .list [.leaf "atom", .leaf "false"]]
    ∃ log s₁ w s₂ s₃, History default s log ∧ Held log v ∧ s.Encodable v ∧ ¬ s.Circular v ∧
      (∀ n, s.paths ≤ n → s.refAt? (countedPath n) = none) ∧ Wire.encode v s = (.ok c, s₁) ∧
      Wire.decode .strict c s₁ = (.ok w, s₂) ∧ Wire.encode w s₂ = (.ok c', s₃) ∧ c' ≠ c := by
  intro p q s v c c'
  have hencode : (Wire.encode v s).1 = .ok c := by decide +kernel +zetaReduce
  obtain ⟨log, hmade, hheld, hencodable, hcircular, hfree⟩ :=
    @encodable_afterSet 7 p q ⟨0, ⟨.slice [(.ref p, ()), (.ref q, ())]⟩⟩ c rfl rfl rfl hencode
  generalize hs₁ : (Wire.encode v s).2 = s₁
  let w : Value := .set ⟨1, ⟨.slice [(.ref ⟨2, "ref:9"⟩, ()), (.ref ⟨3, "ref:10"⟩, ())]⟩⟩
  have hdecode : (Wire.decode .strict c s₁).1 = .ok w := by
    rw [← hs₁]
    decide +kernel +zetaReduce
  generalize hs₂ : (Wire.decode .strict c s₁).2 = s₂
  have hagain : (Wire.encode w s₂).1 = .ok c' := by
    rw [← hs₂, ← hs₁]
    decide +kernel +zetaReduce
  exact ⟨log, s₁, w, s₂, _, hmade, hheld, hencodable, hcircular, hfree, Prod.ext hencode hs₁,
    Prod.ext hdecode hs₂, Prod.ext hagain rfl, by decide⟩

end DynVal
