import DynVal.Proofs.Storage.Merging
import DynVal.Proofs.Store.Lists
import DynVal.Proofs.Store.Records
import DynVal.Proofs.Store.Showing
import DynVal.Proofs.Wire.Decoding

/-!
# What can be asked of a store

A request is one operation with its operands (`Request`). What a longer operation does is a run of
requests, and so is what a function does when it is called.

* `Request.Means`: what the reply to a request says, in terms of the plain relations between values.
* `keeps_perform`: on sound operands a request is answered with sound values, and the reply means
  what it should under every ranking with the numbers drawn so far.
-/

namespace DynVal

open Op Memo Entries

inductive Request where
  | makeList (xs : List Value)
  | append (l : ListNode) (x : Value)
  | prepend (l : ListNode) (x : Value)
  | setItem (l : ListNode) (i : Nat) (x : Value)
  | insertBefore (l : ListNode) (i : Nat) (x : Value)
  | insertAfter (l : ListNode) (i : Nat) (x : Value)
  | removeItem (l : ListNode) (i : Nat)
  | slice (l : ListNode) (start stop : Nat)
  | rest (l : ListNode)
  | concat (l k : ListNode)
  | reverse (l : ListNode)
  | refill (l : ListNode) (xs : List Value)
  | makeMap (ps : List (Value × Value))
  | assoc (m : MapNode) (k v : Value)
  | dissoc (m : MapNode) (k : Value)
  | merge (m front : MapNode) (skip : Option Value)
  | diffNew (m other : MapNode)
  | diffKeys (m other : MapNode)
  | commonKeys (m other : MapNode)
  | get (m : MapNode) (k : Value)
  | contains (m : MapNode) (k : Value)
  | size (m : MapNode)
  | entries (m : MapNode)
  | makeSet (xs : List Value)
  | insert (s : SetNode) (x : Value)
  | erase (s : SetNode) (x : Value)
  | union (s t : SetNode)
  | intersection (s t : SetNode)
  | difference (s t : SetNode)
  | hasElement (s : SetNode) (x : Value)
  | first (s : SetNode)
  | withoutFirst (s : SetNode)
  | makeRecord (name : Tag) (ps : List (Tag × Value))
  | withImpls (r : RecordNode) (impls : List (Record Value))
  | setField (r : RecordNode) (t : Tag) (v : Value)
  | withPairs (r : RecordNode) (ps : List (Tag × Value))
  | fromData (r : RecordNode) (v : Value)
  | mergeRecord (r : RecordNode) (m : MapNode)
  | toMap (r : RecordNode)
  | makeTuple (tag : Value) (extra : List Value) (impls : List (Record Value))
  | setPosition (t : TupleNode) (i : Nat) (v : Value)
  | makeRecur (xs : List Value)
  | create (v : Value)
  | define (path : String) (v : Value)
  | content (r : Ref)
  | swap (r : Ref) (v : Value)
  | equal (a b : Value)
  | compare (a b : Value)
  | hash (v : Value)
  | sort (xs : List Value)
  | text (v : Value)
  | inspect (v : Value)
  | encode (v : Value)
  | decode (mode : Wire.Mode) (c : Cirru)
  | number (f : Fn)

inductive Reply where
  | done
  | value (v : Value)
  | values (vs : List Value)
  | entries (es : List (Value × Value))
  | truth (b : Bool)
  | order (o : Ordering)
  | digest (h : UInt64)
  | count (n : Nat)

/-- The values in a reply. -/
def Reply.held : Reply → List Value
  | .value v => [v]
  | .values vs => vs
  | .entries es => es.flatMap fun e => [e.1, e.2]
  | _ => []

namespace Request

/-- The values that a request is made with. -/
def operands : Request → List Value
  | .makeList xs | .makeSet xs | .makeRecur xs | .sort xs => xs
  | .append l x | .prepend l x | .setItem l _ x | .insertBefore l _ x | .insertAfter l _ x =>
    [.list l, x]
  | .removeItem l _ | .slice l _ _ | .rest l | .reverse l => [.list l]
  | .concat l k => [.list l, .list k]
  | .refill l xs => .list l :: xs
  | .makeMap ps => ps.flatMap fun p => [p.1, p.2]
  | .assoc m k v => [.map m, k, v]
  | .dissoc m k | .get m k | .contains m k => [.map m, k]
  | .merge m front skip => .map m :: .map front :: skip.toList
  | .diffNew m other | .diffKeys m other | .commonKeys m other => [.map m, .map other]
  | .size m | .entries m => [.map m]
  | .insert s x | .erase s x | .hasElement s x => [.set s, x]
  | .union s t | .intersection s t | .difference s t => [.set s, .set t]
  | .first s | .withoutFirst s => [.set s]
  | .makeRecord _ ps => ps.map (·.2)
  | .withImpls r _ | .toMap r => [.record r]
  | .setField r _ v => [.record r, v]
  | .withPairs r ps => .record r :: ps.map (·.2)
  | .fromData r v => [.record r, v]
  | .mergeRecord r m => [.record r, .map m]
  | .makeTuple tag extra _ => tag :: extra
  | .setPosition t _ v => [.tuple t, v]
  | .create v | .define _ v | .swap _ v | .hash v | .text v | .inspect v | .encode v => [v]
  | .equal a b | .compare a b => [a, b]
  | .content _ | .decode .. | .number _ => []

/-- Carries a request out. -/
def perform : Request → Op Reply
  | .makeList xs => return .value (.list (← ListNode.make xs))
  | .append l x => return .value (.list (← l.append x))
  | .prepend l x => return .value (.list (← l.prepend x))
  | .setItem l i x => return .value (.list (← l.assoc i x))
  | .insertBefore l i x => return .value (.list (← l.assocBefore i x))
  | .insertAfter l i x => return .value (.list (← l.assocAfter i x))
  | .removeItem l i => return .value (.list (← l.dissoc i))
  | .slice l start stop => return .value (.list (← l.slice start stop))
  | .rest l => return .value (.list (← l.rest))
  | .concat l k => return .value (.list (← l.concat k))
  | .reverse l => return .value (.list (← l.reverse))
  | .refill l xs => return .value (.list (← l.refill xs))
  | .makeMap ps => return .value (.map (← MapNode.make ps))
  | .assoc m k v => return .value (.map (← m.assoc k v))
  | .dissoc m k => return .value (.map (← m.dissoc k))
  | .merge m front skip => return .value (.map (← m.merge front skip))
  | .diffNew m other => return .value (.map (← m.diffNew other))
  | .diffKeys m other => return .value (.set (← m.diffKeys other))
  | .commonKeys m other => return .value (.set (← m.commonKeys other))
  | .get m k => return .values (← m.get? k).toList
  | .contains m k => return .truth (← m.contains k)
  | .size m => return .count (← m.size)
  | .entries m => return .entries (← m.entries)
  | .makeSet xs => return .value (.set (← SetNode.make xs))
  | .insert s x => return .value (.set (← s.insert x))
  | .erase s x => return .value (.set (← s.erase x))
  | .union s t => return .value (.set (← s.union t))
  | .intersection s t => return .value (.set (← s.intersection t))
  | .difference s t => return .value (.set (← s.difference t))
  | .hasElement s x => return .truth (← s.contains x)
  | .first s => return .values (← s.first?).toList
  | .withoutFirst s => return .value (.set (← s.rest))
  | .makeRecord name ps => return .value (.record (← RecordNode.make name ps))
  | .withImpls r impls => return .value (.record (← r.withImpls impls))
  | .setField r t v => return .value (.record (← r.assoc t v))
  | .withPairs r ps => return .value (.record (← r.withPairs ps))
  | .fromData r v => return .value (.record (← r.fromData v))
  | .mergeRecord r m => return .value (.record (← r.merge m))
  | .toMap r => return .value (.map (← r.toMap))
  | .makeTuple tag extra impls => return .value (.tuple (← TupleNode.make tag extra impls))
  | .setPosition t i v => return .value (.tuple (← t.assoc i v))
  | .makeRecur xs => return .value (← Value.ofRecur xs)
  | .create v => return .value (.ref (← Cells.create v))
  | .define path v => return .value (.ref (← Cells.define path v))
  | .content r => return .value (← r.content)
  | .swap r v => return .value (← r.swap v).1
  | .equal a b => return .truth (← Op.equal a b)
  | .compare a b => return .order (← Op.compare a b)
  | .hash v => return .digest (← Op.hash v)
  | .sort xs => return .values (← Op.sort xs)
  | .text v => do
    let _ ← Op.text v
    return .done
  | .inspect v => do
    let _ ← Op.inspect v
    return .done
  | .encode v => do
    let _ ← Wire.encode v
    return .done
  | .decode mode c => return .value (← Wire.decode mode c)
  | .number f => return .count (← withMemo (Memo.draw f))

/-- What the reply says, under a ranking. Maps and sets are spoken of by what they hold. -/
def Means (ρ : Ranking) : Request → Reply → Prop
  | .makeMap ps, r => ∃ n, r = .value (.map n) ∧
    MapNode.Holds ρ n (Entries.merge (keysUnder ρ).test (fun _ => false) [] ps)
  | .assoc m k v, r => ∃ n, r = .value (.map n) ∧
    ∀ es, MapNode.Holds ρ m es → MapNode.Holds ρ n (put (keysUnder ρ).test k v es)
  | .dissoc m k, r => ∃ n, r = .value (.map n) ∧
    ∀ es, MapNode.Holds ρ m es → MapNode.Holds ρ n (Entries.erase (keysUnder ρ).test k es)
  | .merge m front skip, r => ∃ n, r = .value (.map n) ∧
    ∀ es fs, MapNode.Holds ρ m es → MapNode.Holds ρ front fs → MapNode.Holds ρ n
      (Entries.merge (keysUnder ρ).test (Map.skips (keysUnder ρ) skip) es fs)
  | .union s t, r => ∃ n, r = .value (.set n) ∧ SetNode.Holds ρ n
    (Entries.merge (keysUnder ρ).test (fun _ => false) s.body.members.entries
      t.body.members.entries)
  | .intersection s t, r => ∃ n, r = .value (.set n) ∧ SetNode.Holds ρ n
    (Entries.within (keysUnder ρ).test true s.body.members.entries t.body.members.entries)
  | .difference s t, r => ∃ n, r = .value (.set n) ∧ SetNode.Holds ρ n
    (Entries.within (keysUnder ρ).test false s.body.members.entries t.body.members.entries)
  | .equal a b, r => r = .truth (Value.equal ρ.rank a b)
  | .compare a b, r => r = .order (Value.order ρ.rank a b)
  | .hash v, r => r = .digest (Value.digest ρ.rank v)
  | _, _ => True

/-- The values in the reply are sound, and it means what it should. -/
def Answered (q : Request) (g : Stage) (r : Reply) : Prop :=
  (∀ v ∈ r.held, v.Sound g) ∧ ∀ ρ : Ranking, g.numbering.Admits ρ → q.Means ρ r

section Perform

variable {g : Stage} {q : Request}

theorem keeps_reply {α : Type} {op : Op α} {P : Stage → α → Prop} (wrap : α → Reply)
    (h : Keeps g op P) (hq : ∀ g' a, g.Extends g' → P g' a → q.Answered g' (wrap a)) :
    Keeps g (op >>= fun a => pure (wrap a)) q.Answered :=
  keeps_bind h fun g' a hext ha => (yields_pure (hq g' a hext ha)).keeps

/-- A reply with one sound value, of which nothing more is said. -/
theorem keeps_value {α : Type} {op : Op α} {P : Stage → α → Prop} {wrap : α → Value}
    (h : Keeps g op P) (hv : ∀ g' a, P g' a → (wrap a).Sound g')
    (hm : ∀ ρ r, q.Means ρ r) :
    Keeps g (op >>= fun a => pure (.value (wrap a))) q.Answered :=
  keeps_reply (fun a => .value (wrap a)) h fun g' a _ ha =>
    ⟨by simpa [Reply.held] using hv g' a ha, fun ρ _ => hm ρ _⟩

/-- A reply with sound values, of which nothing more is said. -/
theorem keeps_values {α : Type} {op : Op α} {P : Stage → α → Prop} {wrap : α → List Value}
    (h : Keeps g op P) (hv : ∀ g' a, g.Extends g' → P g' a → ∀ v ∈ wrap a, v.Sound g')
    (hm : ∀ ρ r, q.Means ρ r) :
    Keeps g (op >>= fun a => pure (.values (wrap a))) q.Answered :=
  keeps_reply (fun a => .values (wrap a)) h fun g' a hext ha =>
    ⟨hv g' a hext ha, fun ρ _ => hm ρ _⟩

/-- A reply without values, of which nothing more is said. -/
theorem keeps_plain {α : Type} {op : Op α} {P : Stage → α → Prop} {wrap : α → Reply}
    (h : Keeps g op P) (hv : ∀ a, (wrap a).held = [])
    (hm : ∀ ρ r, q.Means ρ r) :
    Keeps g (op >>= fun a => pure (wrap a)) q.Answered :=
  keeps_reply wrap h fun _ a _ _ => ⟨by simp [hv], fun ρ _ => hm ρ _⟩

/-- A map that is made, with what it holds. -/
theorem keeps_map {op : Op MapNode} {P : Ranking → MapNode → Prop}
    (h : Yields g op fun g' n => MapNode.Made g' n ∧ ∀ ρ : Ranking, g'.numbering.Admits ρ → P ρ n)
    (hm : ∀ ρ n, P ρ n → q.Means ρ (.value (.map n))) :
    Keeps g (op >>= fun n => pure (.value (.map n))) q.Answered :=
  keeps_reply (fun n => .value (.map n)) h.keeps fun _ n _ hn =>
    ⟨fun v hv => by
      obtain rfl : v = .map n := by simpa [Reply.held] using hv
      exact hn.1, fun ρ ha => hm ρ _ (hn.2 ρ ha)⟩

/-- A set that is worked out, with what it holds. -/
theorem keeps_set {op : Op SetNode} {f : Ranking → Set Value} {E : Ranking → List (Value × Unit)}
    (h : Yields g op fun g' n => SetNode.Made g' n ∧ ∀ ρ : Ranking, g'.numbering.Admits ρ →
      n.body = f ρ)
    (hf : ∀ ρ : Ranking, g.numbering.Admits ρ → (f ρ).members.Holds (keysUnder ρ) (E ρ))
    (hm : ∀ ρ n, SetNode.Holds ρ n (E ρ) → q.Means ρ (.value (.set n))) :
    Keeps g (op >>= fun n => pure (.value (.set n))) q.Answered :=
  keeps_reply (fun n => .value (.set n)) h.keeps fun _ n hext hn =>
    ⟨fun v hv => by
      obtain rfl : v = .set n := by simpa [Reply.held] using hv
      exact hn.1, fun ρ ha => hm ρ n <| by
      rw [SetNode.Holds, hn.2 ρ ha]
      exact hf ρ (hext.numbering.admits ha)⟩

/-- An answer of the relations, which is the plain one. -/
theorem keeps_relation {α : Type} {c : StateM Memo α} {f : Ranking → α} {wrap : α → Reply}
    (h : (following g).givesAny c f) (hv : ∀ a, (wrap a).held = [])
    (hm : ∀ ρ, q.Means ρ (wrap (f ρ))) :
    Keeps g (withMemo c >>= fun a => pure (wrap a)) q.Answered := by
  refine keeps_reply wrap (yields_gives h).keeps fun g' a _ ha => ⟨by simp [hv], fun ρ hρ => ?_⟩
  rw [ha.2 ρ hρ]
  exact hm ρ

theorem forall_mem_pairs {α : Type} {P : α → Prop} {ps : List (α × α)}
    (h : ∀ v ∈ ps.flatMap fun p => [p.1, p.2], P v) : ∀ p ∈ ps, P p.1 ∧ P p.2 :=
  fun p hp => ⟨h _ (List.mem_flatMap.mpr ⟨p, hp, by simp⟩),
    h _ (List.mem_flatMap.mpr ⟨p, hp, by simp⟩)⟩

/-- On sound operands a request is answered with sound values, as it should be. -/
theorem keeps_perform (hq : ∀ v ∈ q.operands, v.Sound g) : Keeps g q.perform q.Answered := by
  have hany : ∀ (_ : Ranking) (_ : Reply), True := fun _ _ => trivial
  cases q <;> simp only [operands, List.mem_cons, List.not_mem_nil, or_false, forall_eq_or_imp,
    forall_eq] at hq
  case makeList xs => exact keeps_value (ListNode.yields_make hq).keeps (fun _ _ h => h.1) hany
  case append l x => exact keeps_value (ListNode.keeps_append hq.1 hq.2) (fun _ _ h => h) hany
  case prepend l x => exact keeps_value (ListNode.keeps_prepend hq.1 hq.2) (fun _ _ h => h) hany
  case setItem l i x => exact keeps_value (ListNode.keeps_assoc hq.1 i hq.2) (fun _ _ h => h) hany
  case insertBefore l i x =>
    exact keeps_value (ListNode.keeps_assocBefore hq.1 i hq.2) (fun _ _ h => h) hany
  case insertAfter l i x =>
    exact keeps_value (ListNode.keeps_assocAfter hq.1 i hq.2) (fun _ _ h => h) hany
  case removeItem l i => exact keeps_value (ListNode.keeps_dissoc hq i) (fun _ _ h => h) hany
  case slice l start stop =>
    exact keeps_value (ListNode.keeps_slice hq start stop) (fun _ _ h => h) hany
  case rest l => exact keeps_value (ListNode.keeps_rest hq) (fun _ _ h => h) hany
  case concat l k => exact keeps_value (ListNode.keeps_concat hq.1 hq.2) (fun _ _ h => h) hany
  case reverse l => exact keeps_value (ListNode.keeps_reverse hq) (fun _ _ h => h) hany
  case refill l xs => exact keeps_value (ListNode.keeps_refill hq.2) (fun _ _ h => h) hany
  case makeMap ps =>
    exact keeps_map (MapNode.yields_make (forall_mem_pairs hq)) fun ρ n hn =>
      ⟨n, rfl, MapNode.holds_make hn⟩
  case assoc m k v =>
    exact keeps_map (MapNode.yields_assoc hq.1 hq.2.1 hq.2.2) fun ρ n hn => ⟨n, rfl, hn⟩
  case dissoc m k =>
    exact keeps_map (MapNode.yields_dissoc hq.1 hq.2) fun ρ n hn => ⟨n, rfl, hn⟩
  case merge m front skip =>
    refine keeps_map (MapNode.yields_merge hq.1 hq.2.1 fun s hs => ?_) fun ρ n hn => ⟨n, rfl, hn⟩
    exact hq.2.2 s (Option.mem_toList.mpr hs)
  case diffNew m other =>
    exact keeps_value (MapNode.yields_diffNew hq.1 hq.2).keeps (fun _ _ h => h) hany
  case diffKeys m other =>
    exact keeps_value (MapNode.yields_diffKeys hq.1 hq.2).keeps (fun _ _ h => h) hany
  case commonKeys m other =>
    exact keeps_value (MapNode.yields_commonKeys hq.1 hq.2).keeps (fun _ _ h => h) hany
  case get m k =>
    exact keeps_values (MapNode.yields_get hq.1 hq.2).keeps
      (fun g' o hext h v hv => (h.1 v (Option.mem_toList.mp hv)).extends hext) hany
  case contains m k =>
    exact keeps_plain (MapNode.yields_contains hq.1 hq.2).keeps (fun _ => rfl) hany
  case size m => exact keeps_plain (MapNode.yields_size hq).keeps (fun _ => rfl) hany
  case entries m =>
    refine keeps_reply .entries (MapNode.yields_entries hq).keeps
      fun g' es hext h => ⟨fun v hv => ?_, fun _ _ => trivial⟩
    obtain ⟨e, he, hve⟩ := List.mem_flatMap.mp hv
    rcases List.mem_pair.mp hve with rfl | rfl
    · exact (h.1 e he).1.extends hext
    · exact (h.1 e he).2.extends hext
  case makeSet xs => exact keeps_value (SetNode.yields_make hq).keeps (fun _ _ h => h.1) hany
  case insert s x =>
    exact keeps_value (SetNode.yields_insert hq.1 hq.2).keeps (fun _ _ h => h.1) hany
  case erase s x =>
    exact keeps_value (SetNode.yields_erase hq.1 hq.2).keeps (fun _ _ h => h.1) hany
  case union s t =>
    refine keeps_set (SetNode.yields_union hq.1 hq.2) (fun ρ ha => ?_) fun ρ n hn => ⟨n, rfl, hn⟩
    exact Set.holds_union (lawful_keysUnder ρ) (SetNode.holds_of_sound hq.1 ha)
  case intersection s t =>
    refine keeps_set (SetNode.yields_intersection hq.1 hq.2) (fun ρ ha => ?_)
      fun ρ n hn => ⟨n, rfl, hn⟩
    exact Set.holds_intersection (lawful_keysUnder ρ) (SetNode.holds_of_sound hq.1 ha).lawful
      (SetNode.holds_of_sound hq.2 ha).lawful
  case difference s t =>
    refine keeps_set (SetNode.yields_difference hq.1 hq.2) (fun ρ ha => ?_)
      fun ρ n hn => ⟨n, rfl, hn⟩
    exact Set.holds_difference (lawful_keysUnder ρ) (SetNode.holds_of_sound hq.1 ha).lawful
      (SetNode.holds_of_sound hq.2 ha).lawful
  case hasElement s x =>
    exact keeps_plain (SetNode.yields_contains hq.1 hq.2).keeps (fun _ => rfl) hany
  case first s =>
    exact keeps_values (SetNode.yields_first hq).keeps
      (fun _ _ hext h v hv => (hq.parts v (h.2 v (Option.mem_toList.mp hv)).1).extends hext) hany
  case withoutFirst s => exact keeps_value (SetNode.yields_rest hq).keeps (fun _ _ h => h.1) hany
  case makeRecord name ps =>
    exact keeps_value (RecordNode.keeps_make fun p hp => hq _ (List.mem_map_of_mem hp))
      (fun _ _ h => h.1) hany
  case withImpls r impls =>
    exact keeps_value (RecordNode.yields_withImpls hq impls).keeps (fun _ _ h => h) hany
  case setField r t v =>
    exact keeps_value (RecordNode.keeps_assoc hq.1 t hq.2) (fun _ _ h => h) hany
  case withPairs r ps =>
    exact keeps_value (RecordNode.keeps_withPairs hq.1 fun p hp => hq.2 _ (List.mem_map_of_mem hp))
      (fun _ _ h => h) hany
  case fromData r v => exact keeps_value (RecordNode.keeps_fromData hq.1 hq.2) (fun _ _ h => h) hany
  case mergeRecord r m =>
    exact keeps_value (RecordNode.keeps_merge hq.1 hq.2) (fun _ _ h => h) hany
  case toMap r => exact keeps_value (RecordNode.yields_toMap hq).keeps (fun _ _ h => h) hany
  case makeTuple tag extra impls =>
    exact keeps_value (TupleNode.yields_make hq.1 hq.2).keeps (fun _ _ h => h.1) hany
  case setPosition t i v =>
    exact keeps_value (TupleNode.keeps_assoc hq.1 i hq.2) (fun _ _ h => h) hany
  case makeRecur xs => exact keeps_value (Value.yields_ofRecur hq).keeps (fun _ _ h => h) hany
  case create v =>
    exact keeps_value (Cells.yields_create hq).keeps
      (fun _ _ _ => Value.sound_of_level_eq_zero rfl) hany
  case define path v =>
    exact keeps_value (Cells.yields_define path hq).keeps
      (fun _ _ _ => Value.sound_of_level_eq_zero rfl) hany
  case content r => exact keeps_value (Ref.yields_content r).keeps (fun _ _ h => h) hany
  case swap r v => exact keeps_value (Ref.yields_swap r hq).keeps (fun _ _ h => h) hany
  case equal a b =>
    exact keeps_relation (gives_equal hq.1 hq.2) (fun _ => rfl) fun _ => rfl
  case compare a b =>
    exact keeps_relation (gives_compare hq.1 hq.2) (fun _ => rfl) fun _ => rfl
  case hash v => exact keeps_relation (gives_hash hq) (fun _ => rfl) fun _ => rfl
  case sort xs =>
    exact keeps_values (yields_gives (gives_sort (fun _ h => h) .four hq)).keeps
      (fun _ _ hext h y hy => (h.1 y hy).extends hext) hany
  case text v => exact keeps_plain (keeps_text hq) (fun _ => rfl) hany
  case inspect v => exact keeps_plain (keeps_inspect hq) (fun _ => rfl) hany
  case encode v => exact keeps_plain (Wire.keeps_encode hq) (fun _ => rfl) hany
  case decode mode c => exact keeps_value (Wire.keeps_decode c g) (fun _ _ ⟨_, h⟩ => h.1) hany
  case number f => exact keeps_plain (yields_gives (gives_draw f)).keeps (fun _ => rfl) hany

end Perform

end Request
end DynVal
