import DynVal.Native
import DynVal.Proofs.Dispatch.Methods
import Mathlib.Algebra.Order.BigOperators.Group.List

/-!
# The procedures that list and call methods

A tag from the list of methods is a method that can be called, and the other way round, exactly if
no method has a name that starts with the mark of tags (`Native.methodsOf_agree_iff`). The list
reads each name as a tag, which takes a mark away, and a call looks a tag up by the name that it
has.
-/

namespace DynVal

open Script

/-! ## Names that start with a mark -/

namespace Tag

variable {m : String}

/-- Starts with the mark of tags. -/
def Marked (m : String) : Prop := ∃ cs, m.toList = ':' :: cs

theorem parse_of_not_marked (h : ¬ Marked m) : parse m = ⟨m⟩ := by
  unfold parse unmarked
  split
  · rename_i c cs hm
    rw [if_neg]
    rintro rfl
    exact h ⟨cs, hm⟩
  · rfl

theorem length_parse_of_marked (h : Marked m) :
    (parse m).name.toList.length + 1 = m.toList.length := by
  obtain ⟨cs, hm⟩ := h
  simp [parse, unmarked, hm]

end Tag

namespace Native

variable {names : List String}

/-- Reading names as tags changes one that starts with a mark, and a shorter name takes its place:
the longest such name is not among the tags. -/
theorem forall_mem_parsed_iff : (∀ t : Tag, t ∈ names.map Tag.parse ↔ t.name ∈ names) ↔
    ∀ m ∈ names, ¬ Tag.Marked m := by
  constructor
  · intro h m hm hmarked
    -- of two names that start with a mark, one of which is read as the other, that one is longer
    have hlonger (k : Nat) : ∃ m ∈ names, Tag.Marked m ∧ k ≤ m.toList.length := by
      induction k with
      | zero => exact ⟨m, hm, hmarked, Nat.zero_le _⟩
      | succ k ih =>
        obtain ⟨m, hm, hmarked, hk⟩ := ih
        obtain ⟨n, hn, hparse⟩ := List.mem_map.mp ((h ⟨m⟩).mpr hm)
        have hnmarked : Tag.Marked n := by
          by_contra hnot
          rw [Tag.parse_of_not_marked hnot, Tag.mk.injEq] at hparse
          exact hnot (hparse ▸ hmarked)
        have hlength : m.toList.length + 1 = n.toList.length := by
          simpa only [hparse] using Tag.length_parse_of_marked hnmarked
        exact ⟨n, hn, hnmarked, by omega⟩
    obtain ⟨n, hn, -, hlength⟩ := hlonger ((names.map fun n => n.toList.length).sum + 1)
    have hle := List.single_le_sum (fun _ _ => Nat.zero_le _) _
      (List.mem_map_of_mem (f := fun n : String => n.toList.length) hn)
    omega
  · intro h t
    rw [List.mem_map]
    constructor
    · rintro ⟨m, hm, rfl⟩
      rw [Tag.parse_of_not_marked (h m hm)]
      exact hm
    · exact fun ht => ⟨t.name, ht, Tag.parse_of_not_marked (h _ ht)⟩

theorem nodup_parsed (hnames : names.Nodup) (h : ∀ m ∈ names, ¬ Tag.Marked m) :
    (names.map Tag.parse).Nodup := by
  refine List.Nodup.map_on (fun m hm n hn hmn => ?_) hnames
  rw [Tag.parse_of_not_marked (h m hm), Tag.parse_of_not_marked (h n hn)] at hmn
  exact congrArg Tag.name hmn

/-! ## Running the procedures -/

section Runs

variable {s : Store} {g : Stage} {callee : Fn → List Value → Op Value} {obj : Value}

theorem exec_methodsOf (hs : s.At g) : ∃ l s', exec callee (Native.methodsOf [obj]) s =
    (.ok (.list l), s') ∧ l.body.shown.toList =
      (Dispatch.methodNames (s.tablesOf obj)).map fun m => .tag (Tag.parse m) := by
  let tags : List Value := (Dispatch.methodNames (s.tablesOf obj)).map fun m => .tag (Tag.parse m)
  have hrun : exec callee (Native.methodsOf [obj]) s = Value.ofList tags s :=
    congrFun (@exec_request callee (.list tags)) s
  obtain ⟨g', l, -, -, hl, -, hshown⟩ := @ListNode.yields_make _ tags
    (by simpa [tags] using fun m _ => Value.sound_of_level_eq_zero rfl) s hs
  refine ⟨l, (ListNode.make tags s).2, ?_, hshown⟩
  rw [hrun, Value.ofList, Op.bind_ok hl]
  rfl

end Runs

/-- A call of the method comes to an entry of a table. -/
def Resolves (s : Store) (obj : Value) (t : Tag) : Prop :=
  Dispatch.method? (s.tablesOf obj) t.name |>.isSome

/-- The tags that are listed are the methods that a call finds, each once, exactly if no method has
a name that starts with the mark of tags. -/
theorem methodsOf_agree_iff {host : Host} {s : Store} {log : Log} (h : History host s log)
    {obj : Value} (hobj : Held log obj) (htables : ∀ t ∈ s.tablesOf obj, t.Built)
    (callee : Fn → List Value → Op Value) :
    ∃ l s', exec callee (Native.methodsOf [obj]) s = (.ok (.list l), s') ∧
      -- a call that comes to an entry calls it or refuses what is no function
      (∀ t, Resolves s obj t → ∀ args,
        let answer := exec callee (Native.invoke (obj :: .tag t :: args)) s
        (∃ f, answer = callee f (obj :: args) s) ∨
          ∃ got, answer = (.error (.error (.typeMismatch "invoke" "fn" got)), s)) ∧
      -- any other reports a missing method
      (∀ t, ¬ Resolves s obj t → ¬ s.Circular obj → ∀ args, ∃ value label names memo,
        exec callee (Native.invoke (obj :: .tag t :: args)) s =
          (.error (.error (.noMethod t.name value label names)), { s with memo := memo })) ∧
      -- the tags of the two kinds
      (l.body.shown.toList.Nodup ∧ (∀ t, .tag t ∈ l.body.shown.toList ↔ Resolves s obj t) ↔
        ∀ u ∈ s.tablesOf obj, ∀ t ∈ u.names, ¬ Tag.Marked t.name) := by
  obtain ⟨g, hs, hk⟩ := h.exists_stage
  have hordered : ∀ t ∈ s.tablesOf obj, t.Ordered := fun t ht => (htables t ht).ordered
  obtain ⟨l, s', hrun, hshown⟩ := @exec_methodsOf _ _ callee obj hs
  refine ⟨l, s', hrun, fun t ht args => ?_, fun t ht hc args => ?_, ?_⟩
  · obtain ⟨v, hv⟩ := Option.isSome_iff_exists.mp ht
    by_cases hfn : v.kind = .fn
    · obtain ⟨f, rfl⟩ : ∃ f, v = .fn f := by cases v <;> first | exact ⟨_, rfl⟩ | cases hfn
      exact .inl ⟨f, exec_invoke_fn hv⟩
    · exact .inr ⟨v.typeName, exec_invoke_other hv hfn⟩
  · obtain ⟨value, label, memo, -, hmissing⟩ :=
      @Store.At.exec_invoke_none _ _ callee _ _ args hs (hk.held hobj)
        (Option.not_isSome_iff_eq_none.mp ht) hc
    exact ⟨value, label, _, memo, hmissing⟩
  · let names := Dispatch.methodNames (s.tablesOf obj)
    have hlisted : l.body.shown.toList = (names.map Tag.parse).map Value.tag := by
      rw [hshown, List.map_map]
      rfl
    have hresolves (t : Tag) : Resolves s obj t ↔ t.name ∈ names :=
      Dispatch.isSome_method?_iff hordered
    have hmarked : (∀ u ∈ s.tablesOf obj, ∀ t ∈ u.names, ¬ Tag.Marked t.name) ↔
        ∀ m ∈ names, ¬ Tag.Marked m := by
      refine ⟨fun h m hm => ?_, fun h u hu t ht => h t.name ?_⟩
      · obtain ⟨u, hu, hmu⟩ := Dispatch.mem_methodNames.mp hm
        exact h u hu _ hmu
      · exact Dispatch.mem_methodNames.mpr ⟨u, hu, ht⟩
    have hinj : Function.Injective Value.tag := fun _ _ => Value.tag.inj
    rw [hlisted, List.nodup_map_iff hinj, hmarked, ← forall_mem_parsed_iff]
    simp only [List.mem_map_of_injective hinj, hresolves]
    refine and_iff_right_of_imp fun hall => ?_
    exact nodup_parsed (Dispatch.pairwise_methodNames _).nodup (forall_mem_parsed_iff.mp hall)

/-- A number has two default tables, both with a method `y`. -/
theorem methodsOf_agree_iff_shadowed :
    let callee : Fn → List Value → Op Value := fun _ _ => pure .nil
    let table (method : String) : Record Value := ⟨⟨"t"⟩, [(⟨method⟩, .fn ⟨0, "f"⟩)], []⟩
    let tables := [table "y", table "y", table "x"]
    let s : Store := { Store.initial default with tables := [(.number, tables)] }
    let obj : Value := .number (.ofBits 0)
    History default s [] ∧ Held [] obj ∧ (∀ t ∈ s.tablesOf obj, t.Built) ∧
      ∃ l s', exec callee (Native.methodsOf [obj]) s = (.ok (.list l), s') ∧
        l.body.shown.toList.Nodup ∧ ∀ t, .tag t ∈ l.body.shown.toList ↔ Resolves s obj t := by
  intro callee table tables s obj
  have hs : History default s [] := .elsewhere .start ⟨rfl, rfl, rfl, rfl⟩
  have hobj : Held [] obj := .scalar rfl
  have hbuilt (method : String) : (table method).Built :=
    .ofPairs (show Record.ofPairs ⟨"t"⟩ [(⟨method⟩, .fn ⟨0, "f"⟩)] = .ok _ from rfl)
  have htables : ∀ t ∈ s.tablesOf obj, t.Built := by
    change ∀ t ∈ tables, t.Built
    simp only [tables, List.forall_mem_cons, List.not_mem_nil, false_imp_iff, implies_true,
      and_true]
    exact ⟨hbuilt _, hbuilt _, hbuilt _⟩
  obtain ⟨l, s', hrun, -, -, hagree⟩ := methodsOf_agree_iff hs hobj htables callee
  refine ⟨hs, hobj, htables, l, s', hrun, hagree.mpr ?_⟩
  have hmarked (m : String) (hm : m.toList.head? ≠ some ':') : ¬ Tag.Marked m := by
    rintro ⟨cs, hcs⟩
    exact hm (by rw [hcs]; rfl)
  change ∀ u ∈ tables, ∀ t ∈ u.names, ¬ Tag.Marked t.name
  simp only [tables, table, Record.names, List.map_cons, List.map_nil, List.forall_mem_cons,
    List.not_mem_nil, false_imp_iff, implies_true, and_true]
  exact ⟨hmarked _ (by decide), hmarked _ (by decide), hmarked _ (by decide)⟩

/-- A method whose name starts with the mark is listed without it. The tag that is listed is not
found, and the tag that is found is not listed. -/
theorem methodsOf_drops_mark :
    let callee : Fn → List Value → Op Value := fun _ _ => pure .nil
    let table : Record Value := ⟨⟨"shape"⟩, [(⟨":area"⟩, .nil)], []⟩
    let s : Store := { Store.initial default with tables := [(.number, [table])] }
    let obj : Value := .number (.ofBits 0)
    History default s [] ∧ table.Built ∧
      ∃ l s', exec callee (Native.methodsOf [obj]) s = (.ok (.list l), s') ∧
        l.body.shown.toList = [.tag ⟨"area"⟩] ∧
        (exec callee (Native.invoke [obj, .tag ⟨"area"⟩]) s).1 =
          .error (.error (.noMethod "area" "0" "number" [":area"])) ∧
        (exec callee (Native.invoke [obj, .tag ⟨":area"⟩]) s).1 =
          .error (.error (.typeMismatch "invoke" "fn" "nil")) := by
  intro callee table s obj
  have hbuilt : table.Built :=
    .ofPairs (show Record.ofPairs ⟨"shape"⟩ [(⟨":area"⟩, .nil)] = .ok _ from rfl)
  refine ⟨.elsewhere .start ⟨rfl, rfl, rfl, rfl⟩, hbuilt, _, _, rfl, ?_, ?_, ?_⟩
  · decide +kernel
  · decide +kernel
  · decide +kernel

end Native
end DynVal
