import DynVal.Value

/-!
# Identity of values

Two values are identical when they agree in everything, node numbers and storage included. No
operation changes a node, so values with one node number are identical, and values made at
different times differ in their numbers. `Value.identical` decides it and looks at the numbers
first.
-/

namespace DynVal.Value

mutual

/-- Whether two values are one and the same, node numbers included. -/
def identical : Value → Value → Bool
  | .nil, .nil => true
  | .bool a, .bool b => a == b
  | .number a, .number b => a == b
  | .str a, .str b => a == b
  | .tag a, .tag b => a == b
  | .symbol a, .symbol b => a == b
  | .quote a, .quote b => a == b
  | .ref a, .ref b => a == b
  | .fn a, .fn b => a == b
  | .recur ⟨i, xs⟩, .recur ⟨j, ys⟩ => i == j && identicalAll xs ys
  | .list ⟨i, .window b start stop ⟨xs⟩⟩, .list ⟨j, .window c first last ⟨ys⟩⟩ =>
    i == j && b == c && start == first && stop == last && identicalAll xs ys
  | .list ⟨i, .tree ⟨xs⟩⟩, .list ⟨j, .tree ⟨ys⟩⟩ => i == j && identicalAll xs ys
  | .map ⟨i, m⟩, .map ⟨j, n⟩ => i == j && identicalMap m n
  | .set ⟨i, ⟨m⟩⟩, .set ⟨j, ⟨n⟩⟩ => i == j && identicalMembers m n
  | .record ⟨i, r⟩, .record ⟨j, s⟩ => i == j && identicalRecord r s
  | .tuple ⟨i, ⟨t, xs, rs⟩⟩, .tuple ⟨j, ⟨u, ys, ss⟩⟩ =>
    i == j && identical t u && identicalAll xs ys && identicalRecords rs ss
  | _, _ => false
termination_by structural v => v

def identicalAll : List Value → List Value → Bool
  | [], [] => true
  | x :: xs, y :: ys => identical x y && identicalAll xs ys
  | _, _ => false
termination_by structural xs => xs

def identicalMap : Map Value → Map Value → Bool
  | .flat s, .flat t => identicalStorage s t
  | .chain f s b d, .chain g t c e =>
    d == e && identicalMap f g && identicalSkip s t && identicalMap b c
  | _, _ => false
termination_by structural m => m

def identicalSkip : Option Value → Option Value → Bool
  | none, none => true
  | some v, some w => identical v w
  | _, _ => false
termination_by structural s => s

def identicalStorage : Storage Value Value → Storage Value Value → Bool
  | .slice xs, .slice ys => identicalEntries xs ys
  | .tree t, .tree u => identicalBuckets t u
  | _, _ => false
termination_by structural s => s

def identicalBuckets : Buckets (Value × Value) → Buckets (Value × Value) → Bool
  | .empty, .empty => true
  | .node h xs s t, .node k ys u v =>
    h == k && identicalEntries xs ys && identicalBuckets s u && identicalBuckets t v
  | _, _ => false
termination_by structural t => t

def identicalEntries : List (Value × Value) → List (Value × Value) → Bool
  | [], [] => true
  | x :: xs, y :: ys => identicalEntry x y && identicalEntries xs ys
  | _, _ => false
termination_by structural xs => xs

def identicalEntry : Value × Value → Value × Value → Bool
  | (k, v), (l, w) => identical k l && identical v w
termination_by structural e => e

def identicalMembers : Storage Value Unit → Storage Value Unit → Bool
  | .slice xs, .slice ys => identicalKeys xs ys
  | .tree t, .tree u => identicalKeyBuckets t u
  | _, _ => false
termination_by structural s => s

def identicalKeyBuckets : Buckets (Value × Unit) → Buckets (Value × Unit) → Bool
  | .empty, .empty => true
  | .node h xs s t, .node k ys u v =>
    h == k && identicalKeys xs ys && identicalKeyBuckets s u && identicalKeyBuckets t v
  | _, _ => false
termination_by structural t => t

def identicalKeys : List (Value × Unit) → List (Value × Unit) → Bool
  | [], [] => true
  | x :: xs, y :: ys => identicalKey x y && identicalKeys xs ys
  | _, _ => false
termination_by structural xs => xs

def identicalKey : Value × Unit → Value × Unit → Bool
  | (k, _), (l, _) => identical k l
termination_by structural e => e

def identicalRecord : Record Value → Record Value → Bool
  | ⟨s, xs, rs⟩, ⟨t, ys, ss⟩ => s == t && identicalFields xs ys && identicalRecords rs ss
termination_by structural r => r

def identicalRecords : List (Record Value) → List (Record Value) → Bool
  | [], [] => true
  | x :: xs, y :: ys => identicalRecord x y && identicalRecords xs ys
  | _, _ => false
termination_by structural xs => xs

def identicalFields : List (Tag × Value) → List (Tag × Value) → Bool
  | [], [] => true
  | x :: xs, y :: ys => identicalField x y && identicalFields xs ys
  | _, _ => false
termination_by structural xs => xs

def identicalField : Tag × Value → Tag × Value → Bool
  | (s, v), (t, w) => s == t && identical v w
termination_by structural f => f

end

mutual

theorem eq_of_identical : (a b : Value) → identical a b = true → a = b
  | .recur ⟨i, xs⟩, w, h => by
    rcases w with _ | _ | _ | _ | _ | _ | _ | _ | _ | ⟨_, _⟩ | _ | _ | _ | _ | _ <;>
      simp only [identical, Bool.false_eq_true, Bool.and_eq_true, beq_iff_eq] at h
    obtain ⟨rfl, h⟩ := h
    rw [eq_of_identicalAll _ _ h]
  | .list ⟨i, .window b start stop ⟨xs⟩⟩, w, h => by
    rcases w with
      _ | _ | _ | _ | _ | _ | _ | _ | _ | _ | ⟨_, ⟨_, _, _, ⟨_⟩⟩ | ⟨⟨_⟩⟩⟩ | _ | _ | _ | _ <;>
      simp only [identical, Bool.false_eq_true, Bool.and_eq_true, beq_iff_eq] at h
    obtain ⟨⟨⟨⟨rfl, rfl⟩, rfl⟩, rfl⟩, h⟩ := h
    rw [eq_of_identicalAll _ _ h]
  | .list ⟨i, .tree ⟨xs⟩⟩, w, h => by
    rcases w with
      _ | _ | _ | _ | _ | _ | _ | _ | _ | _ | ⟨_, ⟨_, _, _, ⟨_⟩⟩ | ⟨⟨_⟩⟩⟩ | _ | _ | _ | _ <;>
      simp only [identical, Bool.false_eq_true, Bool.and_eq_true, beq_iff_eq] at h
    obtain ⟨rfl, h⟩ := h
    rw [eq_of_identicalAll _ _ h]
  | .map ⟨i, m⟩, w, h => by
    rcases w with _ | _ | _ | _ | _ | _ | _ | _ | _ | _ | _ | ⟨_, _⟩ | _ | _ | _ <;>
      simp only [identical, Bool.false_eq_true, Bool.and_eq_true, beq_iff_eq] at h
    obtain ⟨rfl, h⟩ := h
    rw [eq_of_identicalMap _ _ h]
  | .set ⟨i, ⟨m⟩⟩, w, h => by
    rcases w with _ | _ | _ | _ | _ | _ | _ | _ | _ | _ | _ | _ | ⟨_, ⟨_⟩⟩ | _ | _ <;>
      simp only [identical, Bool.false_eq_true, Bool.and_eq_true, beq_iff_eq] at h
    obtain ⟨rfl, h⟩ := h
    rw [eq_of_identicalMembers _ _ h]
  | .record ⟨i, r⟩, w, h => by
    rcases w with _ | _ | _ | _ | _ | _ | _ | _ | _ | _ | _ | _ | _ | ⟨_, _⟩ | _ <;>
      simp only [identical, Bool.false_eq_true, Bool.and_eq_true, beq_iff_eq] at h
    obtain ⟨rfl, h⟩ := h
    rw [eq_of_identicalRecord _ _ h]
  | .tuple ⟨i, ⟨t, xs, rs⟩⟩, w, h => by
    rcases w with _ | _ | _ | _ | _ | _ | _ | _ | _ | _ | _ | _ | _ | _ | ⟨_, ⟨_, _, _⟩⟩ <;>
      simp only [identical, Bool.false_eq_true, Bool.and_eq_true, beq_iff_eq] at h
    obtain ⟨⟨⟨rfl, ht⟩, hx⟩, hr⟩ := h
    rw [eq_of_identical _ _ ht, eq_of_identicalAll _ _ hx, eq_of_identicalRecords _ _ hr]
  | .nil, b, h | .bool _, b, h | .number _, b, h | .str _, b, h | .tag _, b, h | .symbol _, b, h
  | .quote _, b, h | .ref _, b, h | .fn _, b, h => by
    cases b <;> simp_all [identical]

theorem eq_of_identicalAll : (xs ys : List Value) → identicalAll xs ys = true → xs = ys
  | [], ys, h => by cases ys <;> simp_all [identicalAll]
  | x :: xs, ys, h => by
    cases ys <;> simp only [identicalAll, Bool.false_eq_true, Bool.and_eq_true] at h
    rw [eq_of_identical _ _ h.1, eq_of_identicalAll _ _ h.2]

theorem eq_of_identicalMap : (m n : Map Value) → identicalMap m n = true → m = n
  | .flat s, n, h => by
    cases n <;> simp only [identicalMap, Bool.false_eq_true] at h
    rw [eq_of_identicalStorage _ _ h]
  | .chain f s b d, n, h => by
    cases n <;> simp only [identicalMap, Bool.false_eq_true, Bool.and_eq_true, beq_iff_eq] at h
    obtain ⟨⟨⟨rfl, hf⟩, hs⟩, hb⟩ := h
    rw [eq_of_identicalMap _ _ hf, eq_of_identicalSkip _ _ hs, eq_of_identicalMap _ _ hb]

theorem eq_of_identicalSkip : (s t : Option Value) → identicalSkip s t = true → s = t
  | none, t, h => by cases t <;> simp_all [identicalSkip]
  | some v, t, h => by
    cases t <;> simp only [identicalSkip, Bool.false_eq_true] at h
    rw [eq_of_identical _ _ h]

theorem eq_of_identicalStorage :
    (s t : Storage Value Value) → identicalStorage s t = true → s = t
  | .slice xs, t, h => by
    cases t <;> simp only [identicalStorage, Bool.false_eq_true] at h
    rw [eq_of_identicalEntries _ _ h]
  | .tree s, t, h => by
    cases t <;> simp only [identicalStorage, Bool.false_eq_true] at h
    rw [eq_of_identicalBuckets _ _ h]

theorem eq_of_identicalBuckets :
    (s t : Buckets (Value × Value)) → identicalBuckets s t = true → s = t
  | .empty, t, h => by cases t <;> simp_all [identicalBuckets]
  | .node k xs s u, t, h => by
    cases t <;>
      simp only [identicalBuckets, Bool.false_eq_true, Bool.and_eq_true, beq_iff_eq] at h
    obtain ⟨⟨⟨rfl, hx⟩, hs⟩, hu⟩ := h
    rw [eq_of_identicalEntries _ _ hx, eq_of_identicalBuckets _ _ hs,
      eq_of_identicalBuckets _ _ hu]

theorem eq_of_identicalEntries :
    (xs ys : List (Value × Value)) → identicalEntries xs ys = true → xs = ys
  | [], ys, h => by cases ys <;> simp_all [identicalEntries]
  | x :: xs, ys, h => by
    cases ys <;> simp only [identicalEntries, Bool.false_eq_true, Bool.and_eq_true] at h
    rw [eq_of_identicalEntry _ _ h.1, eq_of_identicalEntries _ _ h.2]

theorem eq_of_identicalEntry : (x y : Value × Value) → identicalEntry x y = true → x = y
  | (k, v), (l, w), h => by
    simp only [identicalEntry, Bool.and_eq_true] at h
    rw [eq_of_identical _ _ h.1, eq_of_identical _ _ h.2]

theorem eq_of_identicalMembers :
    (s t : Storage Value Unit) → identicalMembers s t = true → s = t
  | .slice xs, t, h => by
    cases t <;> simp only [identicalMembers, Bool.false_eq_true] at h
    rw [eq_of_identicalKeys _ _ h]
  | .tree s, t, h => by
    cases t <;> simp only [identicalMembers, Bool.false_eq_true] at h
    rw [eq_of_identicalKeyBuckets _ _ h]

theorem eq_of_identicalKeyBuckets :
    (s t : Buckets (Value × Unit)) → identicalKeyBuckets s t = true → s = t
  | .empty, t, h => by cases t <;> simp_all [identicalKeyBuckets]
  | .node k xs s u, t, h => by
    cases t <;>
      simp only [identicalKeyBuckets, Bool.false_eq_true, Bool.and_eq_true, beq_iff_eq] at h
    obtain ⟨⟨⟨rfl, hx⟩, hs⟩, hu⟩ := h
    rw [eq_of_identicalKeys _ _ hx, eq_of_identicalKeyBuckets _ _ hs,
      eq_of_identicalKeyBuckets _ _ hu]

theorem eq_of_identicalKeys : (xs ys : List (Value × Unit)) → identicalKeys xs ys = true → xs = ys
  | [], ys, h => by cases ys <;> simp_all [identicalKeys]
  | x :: xs, ys, h => by
    cases ys <;> simp only [identicalKeys, Bool.false_eq_true, Bool.and_eq_true] at h
    rw [eq_of_identicalKey _ _ h.1, eq_of_identicalKeys _ _ h.2]

theorem eq_of_identicalKey : (x y : Value × Unit) → identicalKey x y = true → x = y
  | (k, ()), (l, ()), h => by rw [eq_of_identical k l h]

theorem eq_of_identicalRecord : (r s : Record Value) → identicalRecord r s = true → r = s
  | ⟨s, xs, rs⟩, ⟨t, ys, ss⟩, h => by
    simp only [identicalRecord, Bool.and_eq_true, beq_iff_eq] at h
    obtain ⟨⟨rfl, hx⟩, hr⟩ := h
    rw [eq_of_identicalFields _ _ hx, eq_of_identicalRecords _ _ hr]

theorem eq_of_identicalRecords :
    (rs ss : List (Record Value)) → identicalRecords rs ss = true → rs = ss
  | [], ss, h => by cases ss <;> simp_all [identicalRecords]
  | r :: rs, ss, h => by
    cases ss <;> simp only [identicalRecords, Bool.false_eq_true, Bool.and_eq_true] at h
    rw [eq_of_identicalRecord _ _ h.1, eq_of_identicalRecords _ _ h.2]

theorem eq_of_identicalFields :
    (xs ys : List (Tag × Value)) → identicalFields xs ys = true → xs = ys
  | [], ys, h => by cases ys <;> simp_all [identicalFields]
  | x :: xs, ys, h => by
    cases ys <;> simp only [identicalFields, Bool.false_eq_true, Bool.and_eq_true] at h
    rw [eq_of_identicalField _ _ h.1, eq_of_identicalFields _ _ h.2]

theorem eq_of_identicalField : (x y : Tag × Value) → identicalField x y = true → x = y
  | (s, v), (t, w), h => by
    simp only [identicalField, Bool.and_eq_true, beq_iff_eq] at h
    rw [h.1, eq_of_identical _ _ h.2]

end

mutual

theorem identical_self : (v : Value) → identical v v = true
  | .recur ⟨_, xs⟩ => by simp [identical, identicalAll_self xs]
  | .list ⟨_, .window _ _ _ ⟨xs⟩⟩ => by simp [identical, identicalAll_self xs]
  | .list ⟨_, .tree ⟨xs⟩⟩ => by simp [identical, identicalAll_self xs]
  | .map ⟨_, m⟩ => by simp [identical, identicalMap_self m]
  | .set ⟨_, ⟨m⟩⟩ => by simp [identical, identicalMembers_self m]
  | .record ⟨_, r⟩ => by simp [identical, identicalRecord_self r]
  | .tuple ⟨_, ⟨t, xs, rs⟩⟩ => by
    simp [identical, identical_self t, identicalAll_self xs, identicalRecords_self rs]
  | .nil | .bool _ | .number _ | .str _ | .tag _ | .symbol _ | .quote _ | .ref _ | .fn _ => by
    simp [identical]

theorem identicalAll_self : (xs : List Value) → identicalAll xs xs = true
  | [] => rfl
  | x :: xs => by simp [identicalAll, identical_self x, identicalAll_self xs]

theorem identicalMap_self : (m : Map Value) → identicalMap m m = true
  | .flat s => by simp [identicalMap, identicalStorage_self s]
  | .chain f s b d => by
    simp [identicalMap, identicalMap_self f, identicalSkip_self s, identicalMap_self b]

theorem identicalSkip_self : (s : Option Value) → identicalSkip s s = true
  | none => rfl
  | some v => by simp [identicalSkip, identical_self v]

theorem identicalStorage_self : (s : Storage Value Value) → identicalStorage s s = true
  | .slice xs => by simp [identicalStorage, identicalEntries_self xs]
  | .tree t => by simp [identicalStorage, identicalBuckets_self t]

theorem identicalBuckets_self : (t : Buckets (Value × Value)) → identicalBuckets t t = true
  | .empty => rfl
  | .node _ xs s t => by
    simp [identicalBuckets, identicalEntries_self xs, identicalBuckets_self s,
      identicalBuckets_self t]

theorem identicalEntries_self : (xs : List (Value × Value)) → identicalEntries xs xs = true
  | [] => rfl
  | x :: xs => by simp [identicalEntries, identicalEntry_self x, identicalEntries_self xs]

theorem identicalEntry_self : (x : Value × Value) → identicalEntry x x = true
  | (k, v) => by simp [identicalEntry, identical_self k, identical_self v]

theorem identicalMembers_self : (s : Storage Value Unit) → identicalMembers s s = true
  | .slice xs => by simp [identicalMembers, identicalKeys_self xs]
  | .tree t => by simp [identicalMembers, identicalKeyBuckets_self t]

theorem identicalKeyBuckets_self : (t : Buckets (Value × Unit)) → identicalKeyBuckets t t = true
  | .empty => rfl
  | .node _ xs s t => by
    simp [identicalKeyBuckets, identicalKeys_self xs, identicalKeyBuckets_self s,
      identicalKeyBuckets_self t]

theorem identicalKeys_self : (xs : List (Value × Unit)) → identicalKeys xs xs = true
  | [] => rfl
  | x :: xs => by simp [identicalKeys, identicalKey_self x, identicalKeys_self xs]

theorem identicalKey_self : (x : Value × Unit) → identicalKey x x = true
  | (k, _) => by simp [identicalKey, identical_self k]

theorem identicalRecord_self : (r : Record Value) → identicalRecord r r = true
  | ⟨_, xs, rs⟩ => by simp [identicalRecord, identicalFields_self xs, identicalRecords_self rs]

theorem identicalRecords_self : (rs : List (Record Value)) → identicalRecords rs rs = true
  | [] => rfl
  | r :: rs => by simp [identicalRecords, identicalRecord_self r, identicalRecords_self rs]

theorem identicalFields_self : (xs : List (Tag × Value)) → identicalFields xs xs = true
  | [] => rfl
  | x :: xs => by simp [identicalFields, identicalField_self x, identicalFields_self xs]

theorem identicalField_self : (x : Tag × Value) → identicalField x x = true
  | (_, v) => by simp [identicalField, identical_self v]

end

theorem identical_iff {a b : Value} : identical a b = true ↔ a = b :=
  ⟨eq_of_identical _ _, fun h => h ▸ identical_self _⟩

instance : DecidableEq Value := fun _ _ => decidable_of_iff _ identical_iff

/-- Whether two nodes make one and the same value. One object in memory is not looked into. -/
def isSame {β : Type} (wrap : Shared β → Value) (x y : Shared β) : Bool :=
  withPtrEq x y (fun _ => identical (wrap x) (wrap y)) fun h => h ▸ identical_self _

theorem isSame_iff {β : Type} {wrap : Shared β → Value} {x y : Shared β} :
    isSame wrap x y = true ↔ wrap x = wrap y :=
  identical_iff

end DynVal.Value
