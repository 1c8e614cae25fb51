import DynVal.Proofs.Order.Bytes
import DynVal.Proofs.Store.Updates
import DynVal.Proofs.Values.Pairs
import DynVal.Proofs.Wire.Nodes
import Mathlib.Logic.Relation

/-!
# Records stay aligned

The fields of a record stand in strictly increasing order of their bytes, each with a value at its
place, so that bisection finds every field where it stands and nothing else (`Record.Aligned`). All
of this follows from the order, which every way of obtaining a record puts there or leaves as it is.

* `RecordNode.Becomes`: one record is made of another, by one operation in some store.
* `RecordNode.Obtained`: the records that come out of making, decoding and such operations.
* `records_stay_aligned`: what is obtained is aligned, and no operation changes a name or a field.
-/

namespace DynVal

open Op Relation

/-! ## Alignment -/

namespace Record

variable {r n : Record Value}

structure Aligned (r : Record Value) : Prop where
  increasing : (r.names.map fun t => Utf8.encode t.name).Pairwise (· < ·)
  count : r.values.length = r.names.length
  found : ∀ t i, r.position? t = some i ↔ r.names[i]? = some t
  missing : ∀ t, r.position? t = none ↔ t ∉ r.names
  valued : ∀ t v, r.get? t = some v ↔ ∃ i : Nat, r.names[i]? = some t ∧ r.values[i]? = some v
  /-- However slots are filled, there stays one for each field. -/
  slots : ∀ ps, (r.overlay r.slots ps).length = r.names.length ∧
    ∀ us, r.fill r.slots ps = .ok us → us.length = r.names.length

/-- Tags compare as their bytes do. -/
theorem encode_lt_of_compare {s t : Tag} (h : s.compare t = .lt) :
    Utf8.encode s.name < Utf8.encode t.name :=
  Utf8.encode_lt_iff.mpr (compare_lt_iff_lt.mp h)

theorem mem_fields_iff {t : Tag} {v : Value} :
    (t, v) ∈ r.fields ↔ ∃ i : Nat, r.names[i]? = some t ∧ r.values[i]? = some v := by
  rw [List.mem_iff_getElem?]
  refine exists_congr fun i => ?_
  rw [names, values, List.getElem?_map, List.getElem?_map]
  cases r.fields[i]? with
  | none => simp
  | some f => simp [Prod.ext_iff]

theorem length_overlay_slots (ps : List (Tag × Value)) :
    (r.overlay r.slots ps).length = r.names.length := by
  rw [length_overlay, length_slots, names, List.length_map]

/-- Everything depends on the order of the fields. -/
theorem Ordered.aligned (hr : r.Ordered) : r.Aligned where
  increasing := List.pairwise_map.mpr (hr.imp encode_lt_of_compare)
  count := by rw [values, names, List.length_map, List.length_map]
  found _ _ := position?_eq_some_iff hr
  missing t := by
    rw [← contains_iff hr, contains, Option.not_isSome_iff_eq_none]
  valued _ _ := (get?_eq_some_iff hr).trans mem_fields_iff
  slots ps := ⟨length_overlay_slots ps, fun us hus => overlay_of_fill hus ▸ length_overlay_slots ps⟩

theorem name_withPairs {ps : List (Tag × Value)} (h : r.withPairs ps = .ok n) : n.name = r.name :=
  name_withSlots (withFields_of_withPairs h)

theorem name_fromEntries {es : List (Value × Value)} (h : r.fromEntries es = .ok n) :
    n.name = r.name := by
  rw [eq_of_fromEntries h]

theorem name_assocAll {op : String} {es : List (Value × Value)} (h : r.assocAll op es = .ok n) :
    n.name = r.name := by
  induction es generalizing r with
  | nil =>
    cases h
    rfl
  | cons e es ih =>
    unfold assocAll at h
    split at h
    · cases h
    split at h
    · cases h
    · rename_i q hq
      exact (ih h).trans (name_assoc hq)

end Record

/-! ## Operations that have a result -/

namespace Op

variable {α β : Type} {op : Op α} {next : α → Op β} {s : Store}

theorem exists_of_bind_ok {b : β} (h : ((op >>= next) s).1 = .ok b) :
    ∃ a, (op s).1 = .ok a ∧ (next a (op s).2).1 = .ok b := by
  cases ha : (op s).1 with
  | ok a => exact ⟨a, rfl, by rwa [bind_ok ha] at h⟩
  | error e =>
    rw [bind_error ha] at h
    cases h

theorem ofExcept_ok {e : Except Error α} {a : α} (h : (ofExcept e s).1 = .ok a) : e = .ok a := by
  cases e with
  | ok b => exact congrArg Except.ok (Except.ok.inj h)
  | error e => cases h

/-- A body at a node of its own is the one that was computed. -/
theorem body_of_share {e : Except Error β} {n : Shared β}
    (h : ((ofExcept e >>= share) s).1 = .ok n) : e = .ok n.body := by
  obtain ⟨b, hb, hn⟩ := exists_of_bind_ok h
  rw [ofExcept_ok hb]
  exact congrArg (fun m => Except.ok m.body) (Except.ok.inj hn)

end Op

namespace RecordNode

variable {r n : RecordNode} {s : Store} {name : Tag} {ps : List (Tag × Value)}

/-- Operations that make one record of another, whatever they are given besides and in whatever
store. -/
inductive Becomes (r n : RecordNode) : Prop where
  | assoc {t : Tag} {v : Value} {s : Store} (h : (r.assoc t v s).1 = .ok n)
  | withPairs {ps : List (Tag × Value)} {s : Store} (h : (r.withPairs ps s).1 = .ok n)
  | fromData {v : Value} {s : Store} (h : (r.fromData v s).1 = .ok n)
  | withImpls {impls : List (Record Value)} {s : Store} (h : (r.withImpls impls s).1 = .ok n)
  | assocKey {key x : Value} {s : Store}
    (h : ((Value.record r).assoc key x s).1 = .ok (.record n))
  | mergeWith {w : Value} {s : Store} (h : ((Value.record r).merge w s).1 = .ok (.record n))

/-- Records that are obtained by making or decoding, and by operations on such. A history has those
at hand that are somewhere inside of what was replied, decoded values and contents of cells among
them. -/
inductive Obtained (log : Log) : RecordNode → Prop where
  | make {n : RecordNode} {name : Tag} {ps : List (Tag × Value)} {s : Store}
    (h : (RecordNode.make name ps s).1 = .ok n) : Obtained log n
  | schema {n : RecordNode} {name : Tag} {ts : List Tag} {s : Store}
    (h : (RecordNode.schema name ts s).1 = .ok n) : Obtained log n
  | decoded {n : RecordNode} {mode : Wire.Mode} {c : Cirru} {s : Store}
    (h : (Wire.decode mode c s).1 = .ok (.record n)) : Obtained log n
  | held {n : RecordNode} (h : Held log (.record n)) : Obtained log n
  | becomes {r n : RecordNode} (hr : Obtained log r) (h : r.Becomes n) : Obtained log n

/-! ## What operations keep -/

theorem body_of_make (h : (make name ps s).1 = .ok n) : Record.ofPairs name ps = .ok n.body :=
  body_of_share h

/-- A record that is made has the name and the fields that it is made with. -/
theorem shape_of_make (h : (make name ps s).1 = .ok n) :
    n.body.name = name ∧ n.body.names.Perm (ps.map Prod.fst) := by
  rw [Record.fields_ofPairs (body_of_make h)]
  exact ⟨rfl, (Record.sortBy_perm ps).map Prod.fst⟩

theorem shape_of_merge {m : MapNode} (h : (r.merge m s).1 = .ok n) :
    n.body.name = r.body.name ∧ n.body.names = r.body.names := by
  obtain ⟨es, -, h⟩ := exists_of_bind_ok h
  cases es with
  | nil =>
    obtain rfl : r = n := Except.ok.inj h
    exact ⟨rfl, rfl⟩
  | cons e es =>
    exact ⟨Record.name_assocAll (body_of_share h), Record.names_assocAll (body_of_share h)⟩

theorem shape_of_fromData {v : Value} (h : (r.fromData v s).1 = .ok n) :
    n.body.name = r.body.name ∧ n.body.names = r.body.names := by
  unfold fromData at h
  split at h
  · obtain ⟨es, -, h⟩ := exists_of_bind_ok h
    exact ⟨Record.name_fromEntries (body_of_share h), Record.names_fromEntries (body_of_share h)⟩
  · exact ⟨Record.name_withSlots (body_of_share h), Record.names_withFields (body_of_share h)⟩
  · cases h

/-- Replacing a value by its key makes a record of a record. -/
theorem exists_of_assocKey {key x v : Value} (h : ((Value.record r).assoc key x s).1 = .ok v) :
    ∃ n t, v = .record n ∧ r.body.assoc t x = .ok n.body := by
  obtain ⟨t, b, i, -, hb, rfl⟩ := of_assoc (Prod.ext h rfl)
  exact ⟨⟨i, b⟩, t, rfl, hb⟩

/-- Nothing but a map or nil is merged into a record. -/
theorem exists_of_mergeWith {w v : Value} (h : ((Value.record r).merge w s).1 = .ok v) :
    ∃ n, v = .record n ∧ (n = r ∨ ∃ m, (r.merge m s).1 = .ok n) := by
  cases w with
  | nil =>
    obtain rfl : Value.record r = v := Except.ok.inj h
    exact ⟨r, rfl, .inl rfl⟩
  | map m =>
    obtain ⟨n, hn, h⟩ := exists_of_bind_ok h
    obtain rfl : Value.record n = v := Except.ok.inj h
    exact ⟨n, rfl, .inr ⟨m, hn⟩⟩
  | _ => cases h

/-- No operation changes the name or the fields. -/
theorem Becomes.shape (h : r.Becomes n) :
    n.body.name = r.body.name ∧ n.body.names = r.body.names := by
  cases h with
  | assoc h => exact ⟨Record.name_assoc (body_of_share h), Record.names_assoc (body_of_share h)⟩
  | withPairs h =>
    exact ⟨Record.name_withPairs (body_of_share h), Record.names_withPairs (body_of_share h)⟩
  | fromData h => exact shape_of_fromData h
  | withImpls h =>
    obtain rfl := Except.ok.inj h
    exact ⟨rfl, rfl⟩
  | assocKey h =>
    obtain ⟨m, t, heq, hm⟩ := exists_of_assocKey h
    cases heq
    exact ⟨Record.name_assoc hm, Record.names_assoc hm⟩
  | mergeWith h =>
    obtain ⟨m, heq, hm⟩ := exists_of_mergeWith h
    cases heq
    obtain rfl | ⟨m, hm⟩ := hm
    · exact ⟨rfl, rfl⟩
    · exact shape_of_merge hm

theorem shape_of_becomes (h : ReflTransGen Becomes r n) :
    n.body.name = r.body.name ∧ n.body.names = r.body.names := by
  induction h with
  | refl => exact ⟨rfl, rfl⟩
  | tail _ h ih => exact ⟨h.shape.1.trans ih.1, h.shape.2.trans ih.2⟩

end RecordNode

/-! ## Decoded records -/

/-- What is made of parts and wrapped as another kind of value is no record. -/
theorem RecordNode.not_wrapped {α β : Type} {parts : Op α} {make : α → Op β} {wrap : β → Value}
    {s : Store} {r : RecordNode} (hwrap : ∀ b, wrap b ≠ .record r) :
    ((do return wrap (← make (← parts))) s).1 ≠ .ok (.record r) := by
  intro h
  obtain ⟨a, -, h⟩ := exists_of_bind_ok h
  obtain ⟨b, -, h⟩ := exists_of_bind_ok h
  exact hwrap b (Except.ok.inj h)

/-- A record that comes out of decoding was made of a name and pairs like any other. -/
theorem Wire.exists_make_of_decode {mode : Mode} {c : Cirru} {s : Store} {r : RecordNode}
    (h : (decode mode c s).1 = .ok (.record r)) :
    ∃ name ps t, (RecordNode.make name ps t).1 = .ok r := by
  induction c using node_induction generalizing s with
  | leaf a =>
    rw [decode_leaf] at h
    cases level_of_decodeLeaf (ofExcept_ok h)
  | list cs =>
    rw [decode_list] at h
    exact absurd h (RecordNode.not_wrapped nofun)
  | set cs =>
    rw [decode_set] at h
    exact absurd h (RecordNode.not_wrapped nofun)
  | map cs =>
    rw [decode_map] at h
    exact absurd h (RecordNode.not_wrapped nofun)
  | record name cs =>
    rw [decode_record] at h
    obtain ⟨tag, -, h⟩ := exists_of_bind_ok h
    obtain ⟨fs, -, h⟩ := exists_of_bind_ok h
    obtain ⟨n, hn, h⟩ := exists_of_bind_ok h
    cases h
    exact ⟨tag, fs, _, hn⟩
  | tuple head cs =>
    rw [decode_tuple] at h
    obtain ⟨tag, -, h⟩ := exists_of_bind_ok h
    exact absurd h (RecordNode.not_wrapped nofun)
  | quote c =>
    rw [decode_quote] at h
    cases h
  | atom c =>
    rw [decode_atom] at h
    exact absurd h (RecordNode.not_wrapped nofun)
  | inner c ih =>
    rw [decode_inner] at h
    exact ih h
  | other c hc =>
    obtain ⟨node, reason, hfail⟩ := decode_of_not_node hc mode
    rw [hfail] at h
    cases h

/-! ## All records -/

/-- The fields of a record are in order however it was obtained. -/
theorem RecordNode.Obtained.ordered {host : Host} {s : Store} {log : Log} {r : RecordNode}
    (hr : Obtained log r) (h : History host s log) : r.body.Ordered := by
  induction hr with
  | make h => exact Record.ordered_ofPairs (body_of_make h)
  | schema h => exact Record.ordered_ofPairs (body_of_make h)
  | decoded h =>
    obtain ⟨name, ps, t, hmake⟩ := Wire.exists_make_of_decode h
    exact Record.ordered_ofPairs (body_of_make hmake)
  | held hheld =>
    obtain ⟨g, hs, hk⟩ := h.exists_stage
    obtain ⟨ρ, hρ⟩ := hs.exists_admitted
    exact ordered_of_sound (hk.held hheld) hρ
  | becomes _ h ih => exact ih.of_names h.shape.2

/-- Every record that is obtained is aligned. A record that is made has the name and the fields that
it was made with, and whatever operations make of a record has its name and its fields; what they
make of it through values is a record. -/
theorem records_stay_aligned {host : Host} {s : Store} {log : Log} (h : History host s log)
    {r : RecordNode} (hr : r.Obtained log) :
    r.body.Aligned ∧
    (∀ name ps t n, (RecordNode.make name ps t).1 = .ok n →
      n.body.name = name ∧ n.body.names.Perm (ps.map Prod.fst)) ∧
    (∀ n, ReflTransGen RecordNode.Becomes r n →
      n.body.Aligned ∧ n.body.name = r.body.name ∧ n.body.names = r.body.names) ∧
    (∀ key x t v, ((Value.record r).assoc key x t).1 = .ok v → ∃ n, v = .record n ∧ r.Becomes n) ∧
    (∀ w t v, ((Value.record r).merge w t).1 = .ok v → ∃ n, v = .record n ∧ r.Becomes n) := by
  have hordered := hr.ordered h
  refine ⟨hordered.aligned, fun _ _ _ _ => RecordNode.shape_of_make, fun n hn => ?_,
    fun key x t v hv => ?_, fun w t v hv => ?_⟩
  · have hshape := RecordNode.shape_of_becomes hn
    exact ⟨(hordered.of_names hshape.2).aligned, hshape⟩
  · obtain ⟨n, _, rfl, -⟩ := RecordNode.exists_of_assocKey hv
    exact ⟨n, rfl, .assocKey hv⟩
  · obtain ⟨n, rfl, -⟩ := RecordNode.exists_of_mergeWith hv
    exact ⟨n, rfl, .mergeWith hv⟩

/-- A decoded point whose fields came in the other order is updated and given a table. Its fields
are found where they were. -/
theorem records_stay_aligned_point :
    let c : Cirru := .list [.leaf "%\x7b\x7d", .leaf ":point", .list [.leaf ":y", .leaf "nil"],
      .list [.leaf ":x", .leaf "true"]]
    let table : Record Value := ⟨⟨"shape"⟩, [], []⟩
    let r : RecordNode := ⟨0, ⟨⟨"point"⟩, [(⟨"x"⟩, .bool true), (⟨"y"⟩, .nil)], []⟩⟩
    let n : RecordNode := ⟨2, ⟨⟨"point"⟩, [(⟨"x"⟩, .bool true), (⟨"y"⟩, .str "up")], [table]⟩⟩
    ∃ s, History default s [(.decode .strict c, .ok (.value (.record r)))] ∧
      r.Obtained [(.decode .strict c, .ok (.value (.record r)))] ∧
      ReflTransGen RecordNode.Becomes r n ∧ n.body.Aligned ∧ n.body.names = r.body.names ∧
      n.body.position? ⟨"y"⟩ = some 1 ∧ n.body.position? ⟨"z"⟩ = none := by
  have hset : Record.assoc ⟨⟨"point"⟩, [(⟨"x"⟩, .bool true), (⟨"y"⟩, .nil)], []⟩ ⟨"y"⟩
      (Value.str "up") = .ok ⟨⟨"point"⟩, [(⟨"x"⟩, .bool true), (⟨"y"⟩, .str "up")], []⟩ := rfl
  intro c table r n
  have hs : History default _ [(.decode .strict c, .ok (.value (.record r)))] :=
    History.start.ask (.decode .strict c) nofun
  have hr : r.Obtained [(.decode .strict c, .ok (.value (.record r)))] :=
    .held (.reply List.mem_cons_self)
  let s : Store := ((Request.decode .strict c).perform (.initial default)).2
  let r₁ : RecordNode := ⟨1, ⟨⟨"point"⟩, [(⟨"x"⟩, .bool true), (⟨"y"⟩, .str "up")], []⟩⟩
  have h₁ : r.Becomes r₁ :=
    .assocKey (congrArg Prod.fst (@RecordNode.run_assoc s _ _ (.str "up") _ _ (.str "y") hset))
  have h₂ : r₁.Becomes n := @RecordNode.Becomes.withImpls _ _ [table] s.afterShare rfl
  have hn : ReflTransGen RecordNode.Becomes r n := .tail (.single h₁) h₂
  obtain ⟨-, -, hkept, -⟩ := records_stay_aligned hs hr
  obtain ⟨haligned, -, hnames⟩ := hkept n hn
  exact ⟨_, hs, hr, hn, haligned, hnames, (haligned.found _ _).mpr rfl,
    (haligned.missing _).mpr (by decide)⟩

end DynVal
