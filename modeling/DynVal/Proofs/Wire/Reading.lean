import DynVal.Cirru

/-!
# Reading printed trees

A reader goes through a printed tree from left to right, one character at a time. It keeps the items
of the lists that are open, splits at single spaces and parentheses and undoes the escapes of a
quoted word. What is not as it would be printed it refuses.

* `Reader.written_step`: what has been read is what the reader would write for all that it keeps.
* `Reader.run_onto`: reading a printed tree puts the tree in the place of its text.
* `text_determines_tree`: a text is read as a tree just if it is the printed form of the tree, so no
  two trees are printed alike.
-/

namespace DynVal

/-! ## Escapes -/

namespace Text

/-- The character that stands for another one after a backslash. -/
def unescape? (c : Char) : Option Char :=
  if c = '\"' then some '\"'
  else if c = '\\' then some '\\'
  else if c = 'n' then some '\n'
  else if c = 't' then some '\t'
  else none

/-- A character is written as it is, or as a backslash with one that stands for it. -/
theorem escape_cases (c : Char) :
    (escape c = [c] ∧ c ≠ '\\' ∧ c ≠ '\"') ∨
      ∃ d, escape c = ['\\', d] ∧ unescape? d = some c := by
  grind [escape, unescape?]

theorem escape_of_unescape? {c d : Char} (h : unescape? d = some c) : escape c = ['\\', d] := by
  grind [escape, unescape?]

/-- A character that is no delimiter begins a bare word or goes on with one. -/
theorem needsQuotes_snoc {cs : List Char} {c : Char} (h : cs.any isDelimiter = false)
    (hc : isDelimiter c = false) : needsQuotes (cs ++ [c]) = false := by
  simp [needsQuotes, List.any_append, h, hc]

theorem word_of_plain {cs : List Char} (h : needsQuotes cs = false) : word cs = cs := by
  simp [word, h]

end Text

namespace Cirru

open Text

/-! ## The reader -/

/-- Where a reader stands: before an item, in a bare or a quoted word of which it has read some
characters, in a quoted word after a backslash, or after an item. -/
inductive Place where
  | before
  | bare (cs : List Char) (plain : needsQuotes cs = false)
  | quoted (cs : List Char)
  | escaped (cs : List Char)
  | after (c : Cirru)

/-- The item that may end there. -/
def Place.item? : Place → Option Cirru
  | .bare cs _ => some (.leaf (String.ofList cs))
  | .after c => some c
  | _ => none

/-- The place in the list at hand, the items before it, and the items before the list at hand in
each of the lists around it, innermost first. -/
structure Reader where
  outer : List (List Cirru)
  items : List Cirru
  place : Place

namespace Reader

def start : Reader := ⟨[], [], .before⟩

/-- The list at hand ends with these items. -/
def close (r : Reader) (items : List Cirru) : Option Reader :=
  match r.outer with
  | [] => none
  | xs :: outer => some ⟨outer, xs, .after (.list items)⟩

/-- What follows an item of a list is a space or the end of the list. -/
def next (r : Reader) (x : Cirru) (c : Char) : Option Reader :=
  if c = ')' then r.close (r.items ++ [x])
  else if c = ' ' ∧ r.outer ≠ [] then some ⟨r.outer, r.items ++ [x], .before⟩
  else none

/-- Reads one character. -/
def step (r : Reader) (c : Char) : Option Reader :=
  match r.place with
  | .before =>
    if c = '(' then some ⟨r.items :: r.outer, [], .before⟩
    else if c = ')' ∧ r.items = [] then r.close []
    else if c = '\"' then some ⟨r.outer, r.items, .quoted []⟩
    else if h : isDelimiter c = false then
      some ⟨r.outer, r.items, .bare [c] (@needsQuotes_snoc [] c rfl h)⟩
    else none
  | .bare cs plain =>
    if h : isDelimiter c = false then
      some ⟨r.outer, r.items, .bare (cs ++ [c])
        (needsQuotes_snoc (Bool.or_eq_false_iff.mp plain).2 h)⟩
    else r.next (.leaf (String.ofList cs)) c
  | .quoted cs =>
    if c = '\\' then some ⟨r.outer, r.items, .escaped cs⟩
    else if c = '\"' then
      if needsQuotes cs then some ⟨r.outer, r.items, .after (.leaf (String.ofList cs))⟩ else none
    else if escape c = [c] then some ⟨r.outer, r.items, .quoted (cs ++ [c])⟩
    else none
  | .escaped cs => (unescape? c).map fun d => ⟨r.outer, r.items, .quoted (cs ++ [d])⟩
  | .after x => r.next x c

/-- Reads characters in turn. -/
def run : List Char → Reader → Option Reader
  | [], r => some r
  | c :: cs, r => (r.step c).bind (run cs)

/-- The tree that has been read when a text ends outside all lists. -/
def result? (r : Reader) : Option Cirru :=
  if r.outer = [] ∧ r.items = [] then r.place.item? else none

end Reader

/-- The tree with a printed form. -/
def read? (s : String) : Option Cirru := (Reader.start.run s.toList).bind Reader.result?

/-! ## What is read is what would be written -/

mutual

theorem onto_eq : ∀ (c : Cirru) (rest : List Char), c.onto rest = c.onto [] ++ rest
  | .leaf s, rest => by simp [onto]
  | .list xs, rest => by
    rw [onto, onto, ontoAll_eq xs (')' :: rest), ontoAll_eq xs [')']]
    simp

theorem ontoAll_eq : ∀ (xs : List Cirru) (rest : List Char), ontoAll xs rest = ontoAll xs [] ++ rest
  | [], rest => rfl
  | [x], rest => onto_eq x rest
  | x :: y :: xs, rest => by
    show x.onto (' ' :: ontoAll (y :: xs) rest) = x.onto (' ' :: ontoAll (y :: xs) []) ++ rest
    rw [onto_eq x, onto_eq x (' ' :: ontoAll (y :: xs) []), ontoAll_eq (y :: xs) rest]
    simp

end

theorem ontoAll_cons {xs : List Cirru} (h : xs ≠ []) (x : Cirru) (rest : List Char) :
    ontoAll (x :: xs) rest = x.onto (' ' :: ontoAll xs rest) := by
  cases xs with
  | nil => exact absurd rfl h
  | cons y xs => rfl

/-- Items with the spaces after them. -/
def lead (xs : List Cirru) : List Char := xs.flatMap fun x => x.onto [' ']

theorem ontoAll_snoc (xs : List Cirru) (x : Cirru) (rest : List Char) :
    ontoAll (xs ++ [x]) rest = lead xs ++ x.onto rest := by
  induction xs with
  | nil => rfl
  | cons y xs ih =>
    rw [List.cons_append, ontoAll_cons (by simp), ih, onto_eq y]
    simp [lead, onto_eq y [' ']]

namespace Reader

/-- What stands before the items of the list at hand. -/
def around : List (List Cirru) → List Char
  | [] => []
  | xs :: outer => around outer ++ (lead xs ++ ['('])

/-- What the place adds to the items before it. -/
def here : Place → List Char
  | .before => []
  | .bare cs _ => cs
  | .quoted cs => '\"' :: cs.flatMap escape
  | .escaped cs => '\"' :: (cs.flatMap escape ++ ['\\'])
  | .after x => x.onto []

/-- All that the reader keeps, written again. -/
def written (r : Reader) : List Char := around r.outer ++ (lead r.items ++ here r.place)

variable {r r' : Reader} {x : Cirru} {c : Char}

/-- The item that may end at a place is written there. -/
theorem onto_item {p : Place} (h : p.item? = some x) : x.onto [] = here p := by
  cases p with
  | bare cs plain =>
    cases h
    simp [onto, here, word_of_plain plain]
  | after y =>
    cases h
    rfl
  | _ => cases h

theorem written_close {items : List Cirru} (h : r.close items = some r') :
    r'.written = around r.outer ++ (ontoAll items [] ++ [')']) := by
  obtain ⟨outer, _, _⟩ := r
  cases outer with
  | nil => cases h
  | cons xs outer =>
    cases h
    simp [written, around, here, onto, ontoAll_eq items [')']]

theorem written_next (h : r.next x c = some r') :
    r'.written = around r.outer ++ (lead r.items ++ (x.onto [] ++ [c])) := by
  unfold next at h
  split at h
  · rename_i hc
    rw [written_close h, ontoAll_snoc, hc]
    simp
  split at h
  · rename_i hc
    cases h
    rw [hc.1]
    simp [written, here, lead, onto_eq x [' ']]
  · cases h

/-- Each character that is read is written after the others. -/
theorem written_step (h : r.step c = some r') : r'.written = r.written ++ [c] := by
  obtain ⟨outer, items, place⟩ := r
  cases place with
  | before =>
    simp only [step] at h
    split at h
    · rename_i hc
      cases h
      simp [written, around, lead, here, hc]
    split at h
    · rename_i hc
      obtain ⟨rfl, rfl⟩ := hc
      rw [written_close h]
      simp [written, ontoAll, lead, here]
    split at h
    · rename_i hc
      cases h
      simp [written, here, hc]
    split at h
    · cases h
      simp [written, here]
    · cases h
  | bare cs plain =>
    simp only [step] at h
    split at h
    · cases h
      simp [written, here]
    · rw [written_next h]
      simp [written, here, onto, word_of_plain plain]
  | quoted cs =>
    simp only [step] at h
    split at h
    · rename_i hc
      cases h
      simp [written, here, hc]
    split at h
    · rename_i hc
      split at h
      · rename_i hq
        cases h
        simp [written, here, hc, onto, word, hq, quote]
      · cases h
    split at h
    · rename_i he
      cases h
      simp [written, here, he]
    · cases h
  | escaped cs =>
    obtain ⟨d, hd, rfl⟩ := Option.map_eq_some_iff.mp h
    simp [written, here, escape_of_unescape? hd]
  | after y =>
    rw [written_next h]
    simp [written, here]

/-- What is kept after a run is what was kept before, with the characters read since. -/
theorem written_run {cs : List Char} (h : run cs r = some r') : r'.written = r.written ++ cs := by
  induction cs generalizing r with
  | nil =>
    cases h
    simp
  | cons c cs ih =>
    obtain ⟨r₁, h₁, hrest⟩ := Option.bind_eq_some_iff.mp h
    rw [ih hrest, written_step h₁]
    simp

theorem written_result (h : r.result? = some x) : r.written = x.onto [] := by
  obtain ⟨outer, items, place⟩ := r
  unfold result? at h
  split at h
  · rename_i hends
    obtain ⟨rfl, rfl⟩ := hends
    rw [onto_item h]
    rfl
  · cases h

/-! ## What is written is read -/

variable {cs ds : List Char} {outer : List (List Cirru)} {items : List Cirru}

theorem run_append : run (cs ++ ds) r = (run cs r).bind (run ds) := by
  induction cs generalizing r with
  | nil => rfl
  | cons c cs ih =>
    show (r.step c).bind (run (cs ++ ds)) = ((r.step c).bind (run cs)).bind (run ds)
    rw [Option.bind_assoc]
    exact congrArg (r.step c).bind (funext fun _ => ih)

theorem run_trans (h : run cs r = some r') : run (cs ++ ds) r = run ds r' := by
  rw [run_append, h]
  rfl

/-- The characters of a bare word go on with it. -/
theorem run_bare {ws : List Char} (hw : needsQuotes ws = false)
    (hcs : ∀ c ∈ cs, isDelimiter c = false) :
    ∃ plain, run cs ⟨outer, items, .bare ws hw⟩ = some ⟨outer, items, .bare (ws ++ cs) plain⟩ := by
  induction cs generalizing ws with
  | nil => exact ⟨by simpa using hw, by simp [run]⟩
  | cons c cs ih =>
    obtain ⟨hc, hcs⟩ := List.forall_mem_cons.mp hcs
    obtain ⟨plain, hrun⟩ := ih (needsQuotes_snoc (Bool.or_eq_false_iff.mp hw).2 hc) hcs
    refine ⟨by simpa using plain, ?_⟩
    simp [run, step, hc, hrun]

/-- The characters of a quoted word, each as it is written, go on with it. -/
theorem run_quoted (ws : List Char) : run (cs.flatMap escape) ⟨outer, items, .quoted ws⟩ =
    some ⟨outer, items, .quoted (ws ++ cs)⟩ := by
  induction cs generalizing ws with
  | nil => simp [run]
  | cons c cs ih =>
    have hescape : run (escape c) ⟨outer, items, .quoted ws⟩ =
        some ⟨outer, items, .quoted (ws ++ [c])⟩ := by
      rcases escape_cases c with ⟨he, hb, hq⟩ | ⟨d, he, hd⟩
      · simp [he, run, step, hb, hq]
      · simp [he, run, step, hd]
    rw [List.flatMap_cons, run_trans hescape, ih]
    simp

theorem step_bare (h : isDelimiter c = false) :
    ∃ plain, step ⟨outer, items, .before⟩ c = some ⟨outer, items, .bare [c] plain⟩ := by
  have hopen : c ≠ '(' := by rintro rfl; cases h
  have hclose : c ≠ ')' := by rintro rfl; cases h
  have hquote : c ≠ '\"' := by rintro rfl; cases h
  exact ⟨@needsQuotes_snoc [] c rfl h, by simp [step, hopen, hclose, hquote, h]⟩

/-- A leaf is read up to a place where it may end. -/
theorem run_leaf (s : String) (outer : List (List Cirru)) (items : List Cirru) :
    ∃ p : Place, p.item? = some (.leaf s) ∧
      run (word s.toList) ⟨outer, items, .before⟩ = some ⟨outer, items, p⟩ := by
  by_cases hq : needsQuotes s.toList = true
  · refine ⟨.after (.leaf s), rfl, ?_⟩
    have hopen : run ['\"'] ⟨outer, items, .before⟩ = some ⟨outer, items, .quoted []⟩ := rfl
    have hclose : run ['\"'] ⟨outer, items, .quoted s.toList⟩ =
        some ⟨outer, items, .after (.leaf s)⟩ := by
      simp [run, step, hq]
    rw [word, if_pos hq, quote, ← List.singleton_append, run_trans hopen, run_trans (run_quoted [])]
    exact hclose
  · have hplain : needsQuotes s.toList = false := by simpa using hq
    rw [word_of_plain hplain]
    cases hs : s.toList with
    | nil =>
      rw [hs] at hplain
      cases hplain
    | cons c cs =>
      have hany : ∀ d ∈ c :: cs, isDelimiter d = false := by
        rw [hs] at hplain
        simpa [needsQuotes] using hplain
      obtain ⟨hc, hcs⟩ := List.forall_mem_cons.mp hany
      obtain ⟨plain, hstep⟩ := @step_bare c outer items hc
      obtain ⟨plain', hrun⟩ := @run_bare cs outer items [c] plain hcs
      refine ⟨.bare (c :: cs) plain', ?_, ?_⟩
      · rw [Place.item?, ← hs, String.ofList_toList]
      · rw [run, hstep]
        exact hrun

/-- Where an item may end, a delimiter is read as what follows the item. -/
theorem step_item {p : Place} (h : p.item? = some x) (hc : isDelimiter c = true) :
    step ⟨outer, items, p⟩ c = next ⟨outer, items, p⟩ x c := by
  cases p with
  | bare cs plain =>
    cases h
    simp [step, hc]
  | after y =>
    cases h
    rfl
  | _ => cases h

mutual

/-- A printed tree is read up to a place where it may end. -/
theorem run_onto : ∀ (c : Cirru) (outer : List (List Cirru)) (items : List Cirru),
    ∃ p : Place, p.item? = some c ∧
      run (c.onto []) ⟨outer, items, .before⟩ = some ⟨outer, items, p⟩
  | .leaf s, outer, items => by simpa [onto] using run_leaf s outer items
  | .list [], outer, items => ⟨.after (.list []), rfl, rfl⟩
  | .list (x :: xs), outer, items =>
    ⟨.after (.list (x :: xs)), rfl, run_ontoAll (x :: xs) outer items [] (by simp)⟩

/-- The printed forms of some trees are read up to the end of the list that they stand in. -/
theorem run_ontoAll : ∀ (xs : List Cirru) (outer : List (List Cirru)) (items ys : List Cirru),
    xs ≠ [] → run (ontoAll xs [')']) ⟨items :: outer, ys, .before⟩ =
      some ⟨outer, items, .after (.list (ys ++ xs))⟩
  | [], _, _, _, h => absurd rfl h
  | [x], outer, items, ys, _ => by
    obtain ⟨p, hp, hrun⟩ := run_onto x (items :: outer) ys
    rw [ontoAll, onto_eq, run_trans hrun, run, step_item hp rfl]
    rfl
  | x :: y :: xs, outer, items, ys, _ => by
    obtain ⟨p, hp, hrun⟩ := run_onto x (items :: outer) ys
    have hrest := run_ontoAll (y :: xs) outer items (ys ++ [x]) (by simp)
    rw [ontoAll_cons (by simp), onto_eq, run_trans hrun, run, step_item hp rfl]
    simpa [next] using hrest

end

end Reader

/-- A text is read as a tree just if it is the printed form of the tree. -/
theorem read?_eq_some_iff {s : String} {t : Cirru} : read? s = some t ↔ s = t.text := by
  constructor
  · intro h
    obtain ⟨r, hrun, hresult⟩ := Option.bind_eq_some_iff.mp h
    have hwritten : s.toList = r.written := (Reader.written_run hrun).symm
    rw [text, ← Reader.written_result hresult, ← hwritten, String.ofList_toList]
  · rintro rfl
    obtain ⟨p, hp, hrun⟩ := Reader.run_onto t [] []
    rw [read?, text, String.toList_ofList, Reader.start, hrun]
    exact hp

/-- No two trees are printed alike, and a tree is read off its printed form and off nothing else. -/
theorem text_determines_tree (t u : Cirru) :
    (t.text = u.text ↔ t = u) ∧ ∀ s, read? s = some t ↔ s = t.text := by
  refine ⟨⟨fun h => ?_, fun h => congrArg text h⟩, fun s => read?_eq_some_iff⟩
  have ht : read? t.text = some t := read?_eq_some_iff.mpr rfl
  have hu : read? t.text = some u := read?_eq_some_iff.mpr h
  exact Option.some.inj (ht.symm.trans hu)

/-- Two spaces are no printed form, and neither is a quoted word that needs no quotes. -/
example : read? "(a \"\" (\"b c\"))" = some (.list [.leaf "a", .leaf "", .list [.leaf "b c"]]) ∧
    read? "(a  b)" = none ∧ read? "\"a\"" = none := by decide +kernel

end Cirru
end DynVal
