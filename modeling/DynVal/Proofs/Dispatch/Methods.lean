import DynVal.Proofs.Order.Bytes
import DynVal.Proofs.Store.Descents
import DynVal.Proofs.Values.Fields
import DynVal.Script
import Mathlib.Order.Compare

/-!
# Methods of a value

The list of methods, the search for one and its call read the same tables: the list has the names of
all entries that are found, in the order of their bytes, and a call goes to the entry that is found,
which is that of the first table with the method (`invoke_coherent`).
-/

namespace DynVal

open Script

/-! ## Tables -/

namespace Store

variable {s : Store} {k l : Kind} {tables : List (Record Value)} {v : Value}

end Store

namespace Dispatch

variable {tables : List (Record Value)} {method : String} {v : Value}

/-! ## Names -/

theorem mem_dropRepeats {t : String} {ts : List String} : t ∈ dropRepeats ts ↔ t ∈ ts := by
  fun_induction dropRepeats ts with
  | case1 s ts ih => rw [ih]; simp
  | case2 s u ts hne ih => rw [List.mem_cons, ih, ← List.mem_cons]
  | case3 ts => exact Iff.rfl

/-- In an ordered list equal texts stand side by side. -/
theorem pairwise_dropRepeats {ts : List String} (h : ts.Pairwise (· ≤ ·)) :
    (dropRepeats ts).Pairwise (· < ·) := by
  fun_induction dropRepeats ts with
  | case1 s ts ih => exact ih h.of_cons
  | case2 s u ts hne ih =>
    refine .cons (fun t ht => ?_) (ih h.of_cons)
    rw [mem_dropRepeats] at ht
    have hsu : s < u := lt_of_le_of_ne (List.rel_of_pairwise_cons h List.mem_cons_self) hne
    rcases List.mem_cons.mp ht with rfl | ht
    · exact hsu
    · exact hsu.trans_le (List.rel_of_pairwise_cons h.of_cons ht)
  | case3 ts hts =>
    match ts with
    | [] => exact .nil
    | [s] => exact List.pairwise_singleton _ s
    | s :: u :: ts => exact absurd rfl (hts s u ts)

theorem pairwise_methodNames (tables : List (Record Value)) :
    (methodNames tables).Pairwise (· < ·) := by
  refine pairwise_dropRepeats ?_
  rw [sortBy_eq_sorted]
  refine (pairwise_sorted .four _).imp fun {a b} h => ?_
  rw [← compare_le_iff_le]
  cases hab : compare a b
  · decide
  · decide
  · rw [hab] at h
    cases h

theorem mem_methodNames :
    method ∈ methodNames tables ↔ ∃ t ∈ tables, (⟨method⟩ : Tag) ∈ t.names := by
  rw [methodNames, mem_dropRepeats, sortBy_eq_sorted, (sorted_perm .four _).mem_iff]
  simp only [List.mem_flatMap, List.mem_map]
  refine exists_congr fun t => and_congr_right fun _ => ⟨?_, fun h => ⟨_, h, rfl⟩⟩
  rintro ⟨⟨_⟩, h, rfl⟩
  exact h

/-! ## Entries -/

theorem isSome_method?_iff (h : ∀ t ∈ tables, t.Ordered) :
    (method? tables method).isSome ↔ method ∈ methodNames tables := by
  unfold method?
  rw [List.findSome?_isSome_iff, mem_methodNames]
  exact exists_congr fun t => and_congr_right fun ht => Record.isSome_get?_iff (h t ht)

end Dispatch

/-! ## Calls -/

section Calls

variable {s : Store} {g : Stage} {callee : Fn → List Value → Op Value} {obj v : Value}
  {method : String} {args : List Value} {f : Fn}

theorem exec_bind {α β : Type} (x : Script α) (next : α → Script β) :
    exec callee (x >>= next) = exec callee x >>= fun a => exec callee (next a) := by
  induction x with
  | done a => rfl
  | halt h => rfl
  | act a rest ih =>
    change (a.perform >>= fun r => exec callee (rest r >>= next)) = _
    simp only [ih]
    exact (bind_assoc _ _ _).symm
  | call f args rest ih =>
    funext s
    let cont : α → Op β := fun a => exec callee (next a)
    change exec callee (.call f args fun r => rest r >>= next) s =
      ExceptT.bindCont cont (exec callee (.call f args rest) s).1
        (exec callee (.call f args rest) s).2
    simp only [exec, ih]
    split <;> rfl

theorem exec_request (a : Action) : exec callee (request a) = a.perform := bind_pure _

theorem exec_apply : exec callee (apply f args) s = callee f args s := by
  unfold apply exec
  split <;> rename_i h <;> rw [h] <;> rfl

theorem exec_invoke : exec callee (invoke obj method args) s =
    exec callee (match Dispatch.method? (s.tablesOf obj) method with
      | some (.fn f) => apply f (obj :: args)
      | some v => fail (.typeMismatch "invoke" "fn" v.typeName)
      | none => do
        let value ← request (.text obj)
        let label ← typeLabel obj
        fail (.noMethod method value label (Dispatch.methodNames (s.tablesOf obj)))) s := rfl

theorem exec_invoke_fn (h : Dispatch.method? (s.tablesOf obj) method = some (.fn f)) :
    exec callee (invoke obj method args) s = callee f (obj :: args) s := by
  rw [exec_invoke, h]
  exact exec_apply

theorem exec_invoke_other (h : Dispatch.method? (s.tablesOf obj) method = some v)
    (hv : v.kind ≠ .fn) : exec callee (invoke obj method args) s =
      (.error (.error (.typeMismatch "invoke" "fn" v.typeName)), s) := by
  rw [exec_invoke, h]
  cases v <;> first | rfl | exact absurd rfl hv

/-- The type of a value is named, as the tag of a tuple is printed where the tuple is. -/
theorem Store.At.exec_typeLabel (hs : s.At g) (hv : obj.Sound g) (hc : ¬ s.Circular obj) :
    ∃ label memo, exec callee (typeLabel obj) s = (.ok label, { s with memo := memo }) := by
  cases obj
  case tuple t =>
    have htag : t.body.tag.Sound g := hv.parts _ (Value.tag_mem_parts t)
    obtain ⟨g', memo, r, -, -, hrun, -, hends⟩ := hs.text_eq htag
    obtain ⟨label, rfl⟩ := hends (Value.not_circular_of_leads hc (.part (Value.tag_mem_parts t)))
    exact ⟨label, memo, @exec_request callee (.text t.body.tag) ▸ hrun⟩
  all_goals exact ⟨_, s.memo, rfl⟩

/-- A method that is missing is reported with the value and all methods that it has. -/
theorem Store.At.exec_invoke_none (hs : s.At g) (hv : obj.Sound g)
    (h : Dispatch.method? (s.tablesOf obj) method = none) (hc : ¬ s.Circular obj) :
    ∃ value label memo, (Op.text obj s).1 = .ok value ∧ exec callee (invoke obj method args) s =
      (.error (.error (.noMethod method value label (Dispatch.methodNames (s.tablesOf obj)))),
        { s with memo := memo }) := by
  obtain ⟨g', memo, r, hext, hs', hrun, -, hends⟩ := hs.text_eq hv
  obtain ⟨value, rfl⟩ := hends hc
  obtain ⟨ρ, hρ⟩ := hs'.exists_admitted
  have hc' : ¬ Store.Circular { s with memo := memo } obj := by
    rw [hs.circular_iff hv (hext.numbering.admits hρ)] at hc
    rwa [hs'.circular_iff (hv.extends hext) hρ]
  obtain ⟨label, memo', hlabel⟩ := @Store.At.exec_typeLabel _ _ callee _ hs' (hv.extends hext) hc'
  refine ⟨value, label, memo', by rw [hrun], ?_⟩
  have htext : exec callee (request (.text obj)) s = (.ok value, { s with memo := memo }) := by
    rw [exec_request]
    exact hrun
  have hlabelled : exec callee (typeLabel obj) (exec callee (request (.text obj)) s).2 =
      (.ok label, { s with memo := memo' }) := by rw [htext, hlabel]
  rw [exec_invoke, h]
  dsimp only
  rw [exec_bind, Op.bind_ok (congrArg Prod.fst htext), exec_bind,
    Op.bind_ok (congrArg Prod.fst hlabelled), hlabelled]
  rfl

end Calls

end DynVal
