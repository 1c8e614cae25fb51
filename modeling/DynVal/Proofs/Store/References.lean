import DynVal.Native
import DynVal.Proofs.Store.Coherence
import DynVal.Proofs.Store.Creating

/-!
# New references

Paths come from two places: a counter, and programs, which may name a cell by any text. A new cell
takes the next counted path, and if a program has named that path before, it is not a new one:
either the cell that is registered there is handed out again, and the value is dropped, or a second
cell is made whose references are equal to those of the first.

* `Cells.History`: the references handed out and the paths named in the course of a program.
* `Cells.Accounted`: the step and run invariant. Whatever is registered or was handed out has a path
  that was named or counted.
* `create_fresh_iff`: a new reference is unequal to all earlier ones exactly when its path was never
  named, and it then holds the value that it was made with.
-/

namespace DynVal

open Op

/-! ## What is registered -/

/-- The counter has not gone back, and paths that came to be registered in the meantime were
counted. -/
structure Store.Counts (s s' : Store) : Prop where
  paths : s.paths ≤ s'.paths
  registered : ∀ path, s.refAt? path = none →
    s'.refAt? path = none ∨ ∃ n, n < s'.paths ∧ path = countedPath n

namespace Store.Counts

variable {s s' s'' : Store}

/-- Neither the counter nor the registry is touched. -/
theorem of_eq (hp : s'.paths = s.paths) (hr : s'.registry = s.registry) : s.Counts s' where
  paths := hp.ge
  registered path h := .inl (by rw [refAt?, hr]; exact h)

theorem trans (h : s.Counts s') (h' : s'.Counts s'') : s.Counts s'' where
  paths := h.paths.trans h'.paths
  registered path hpath := by
    rcases h.registered path hpath with hnone | ⟨n, hn, rfl⟩
    · exact h'.registered path hnone
    · exact .inr ⟨n, Nat.lt_of_lt_of_le hn h'.paths, rfl⟩

end Store.Counts

instance refl_counts : Std.Refl Store.Counts := ⟨fun _ => .of_eq rfl rfl⟩

instance trans_counts : IsTrans Store Store.Counts := ⟨fun _ _ _ => .trans⟩

/-- What is created is registered at counted paths. -/
theorem Store.Creates.counts {s s' : Store} {made : List (Ref × Value)} (h : s.Creates made s') :
    s.Counts s' where
  paths := h.paths ▸ Nat.le_add_right _ _
  registered path hnone := by
    cases hs' : s'.refAt? path with
    | none => exact .inl rfl
    | some r =>
      obtain ⟨i, hi, hpath⟩ := (h.counted path hnone).mp (by rw [hs']; rfl)
      exact .inr ⟨s.paths + i, by rw [h.paths]; omega, hpath⟩

theorem Op.basics_counts : Basics Store.Counts where
  share _ _ := .of_eq rfl rfl
  memo _ _ := .of_eq rfl rfl
  backing _ _ := .of_eq rfl rfl

theorem Wire.makes_counts : Makes Store.Counts :=
  makes_of_basics basics_counts fun v s => by
    obtain ⟨r, s', hrun, hmade⟩ := Cells.creates_create v s
    rw [hrun]
    exact hmade.counts

namespace Cells

variable {s s' : Store} {path : String} {v : Value} {r : Ref}

/-! ## Histories -/

/-- A state of a program, with the references that were handed out and the paths that were named.
What is done without the counter and the registry may come in between. -/
inductive History (host : Host) : Store → List Ref → List String → Prop where
  | start : History host (.initial host) [] []
  | define {s : Store} {handed : List Ref} {named : List String} (h : History host s handed named)
    (path : String) (v : Value) {r : Ref} (hr : (define path v s).1 = .ok r) :
    History host (define path v s).2 (r :: handed) (path :: named)
  | freshPath {s : Store} {handed : List Ref} {named : List String}
    (h : History host s handed named) : History host (freshPath s).2 handed named
  | create {s : Store} {handed : List Ref} {named : List String} (h : History host s handed named)
    (v : Value) {r : Ref} (hr : (create v s).1 = .ok r) :
    History host (create v s).2 (r :: handed) named
  | remove {s : Store} {handed : List Ref} {named : List String} (h : History host s handed named)
    (path : String) : History host (remove? path s).2 handed named
  | reset {s : Store} {handed : List Ref} {named : List String} (h : History host s handed named)
    (r : Ref) (v : Value) : History host (r.swap v s).2 handed named
  /-- Decoding may hand out whatever is registered at the paths that it counted. -/
  | decode {s : Store} {handed made : List Ref} {named : List String}
    (h : History host s handed named) (mode : Wire.Mode) (c : Cirru)
    (hm : ∀ r ∈ made, ∃ n, n < (Wire.decode mode c s).2.paths ∧
      (Wire.decode mode c s).2.refAt? (countedPath n) = some r) :
    History host (Wire.decode mode c s).2 (made ++ handed) named
  | elsewhere {s s' : Store} {handed : List Ref} {named : List String}
    (h : History host s handed named) (hp : s'.paths = s.paths) (hr : s'.registry = s.registry) :
    History host s' handed named

/-- The path was named, or the counter has passed it. -/
def Used (s : Store) (named : List String) (path : String) : Prop :=
  path ∈ named ∨ ∃ n, n < s.paths ∧ path = countedPath n

/-- Whatever is registered or was handed out has a path that was used, and for each path that was
named a reference was handed out. -/
structure Accounted (s : Store) (handed : List Ref) (named : List String) : Prop where
  registered : ∀ path r, s.refAt? path = some r → Used s named path
  used : ∀ r ∈ handed, Used s named r.path
  found : ∀ path ∈ named, ∃ r ∈ handed, r.path = path

theorem Used.mono {named named' : List String} (h : Used s named path) (hp : s.paths ≤ s'.paths)
    (hn : ∀ path ∈ named, path ∈ named') : Used s' named' path := by
  rcases h with h | ⟨n, hlt, rfl⟩
  · exact .inl (hn path h)
  · exact .inr ⟨n, Nat.lt_of_lt_of_le hlt hp, rfl⟩

namespace Accounted

variable {handed : List Ref} {named : List String}

/-- A step that registers counted paths only, and hands out references to such. -/
theorem counts (h : Accounted s handed named) (made : List Ref) (hc : s.Counts s')
    (hm : ∀ r ∈ made, ∃ n, n < s'.paths ∧ r.path = countedPath n) :
    Accounted s' (made ++ handed) named where
  registered path r hr := by
    cases hs : s.refAt? path with
    | some r' => exact (h.registered path r' hs).mono hc.paths fun _ hn => hn
    | none =>
      rcases hc.registered path hs with hnone | hcounted
      · rw [hnone] at hr
        cases hr
      · exact .inr hcounted
  used r hr := by
    rcases List.mem_append.mp hr with hr | hr
    · exact .inr (hm r hr)
    · exact (h.used r hr).mono hc.paths fun _ hn => hn
  found path hpath := by
    obtain ⟨r, hr, hp⟩ := h.found path hpath
    exact ⟨r, List.mem_append_right _ hr, hp⟩

theorem define (h : Accounted s handed named) (path : String) (v : Value)
    (hr : (define path v s).1 = .ok r) :
    Accounted (define path v s).2 (r :: handed) (path :: named) := by
  have hmono {s' : Store} (hp : s'.paths = s.paths) {q : String} (hq : Used s named q) :
      Used s' (path :: named) q := hq.mono hp.ge fun _ hn => List.mem_cons_of_mem _ hn
  have hhere (s' : Store) : Used s' (path :: named) path := .inl List.mem_cons_self
  have hpath : r.path = path := by
    cases hs : s.refAt? path with
    | some r' =>
      rw [define_registered hs] at hr
      cases hr
      exact path_of_refAt? hs
    | none =>
      rw [define_unregistered hs] at hr
      cases hr
      rfl
  have hpaths : (Cells.define path v s).2.paths = s.paths := by
    cases hs : s.refAt? path with
    | some r' => rw [define_registered hs]
    | none => rw [define_unregistered hs]; rfl
  refine ⟨fun q r' hq => ?_, fun q hq => ?_, fun q hq => ?_⟩
  · cases hs : s.refAt? path with
    | some r'' =>
      rw [define_registered hs] at hq ⊢
      exact hmono rfl (h.registered q r' hq)
    | none =>
      rw [define_unregistered hs] at hq ⊢
      rw [refAt?_addCell] at hq
      by_cases heq : path = q
      · exact heq ▸ hhere _
      · rw [if_neg heq] at hq
        exact hmono rfl (h.registered q r' hq)
  · rcases List.mem_cons.mp hq with rfl | hq
    · exact .inl (hpath ▸ List.mem_cons_self)
    · exact hmono hpaths (h.used q hq)
  · rcases List.mem_cons.mp hq with rfl | hq
    · exact ⟨r, List.mem_cons_self, hpath⟩
    · obtain ⟨r', hr', hp⟩ := h.found q hq
      exact ⟨r', List.mem_cons_of_mem _ hr', hp⟩

theorem remove (h : Accounted s handed named) (path : String) :
    Accounted (remove? path s).2 handed named where
  registered q r hq := by
    obtain ⟨cell, hcell, rfl⟩ := Option.map_eq_some_iff.mp hq
    have hget : (s.registry.erase path).get? q = some cell := hcell
    rw [Registry.get?_erase] at hget
    split at hget
    · cases hget
    · exact h.registered q ⟨cell, q⟩ (by rw [Store.refAt?, hget]; rfl)
  used := h.used
  found := h.found

end Accounted

/-- A cell is made in every state, at the next counted path. -/
theorem exists_create (v : Value) (s : Store) :
    ∃ r s', create v s = (.ok r, s') ∧ r.path = countedPath s.paths ∧ s'.paths = s.paths + 1 ∧
      s.Counts s' ∧ (s.refAt? (countedPath s.paths) = none → s'.content r = v) := by
  obtain ⟨r, s', hrun, hc⟩ := creates_create v s
  obtain ⟨hpath, -, hnew⟩ := hc.made 0 r v rfl
  refine ⟨r, s', hrun, hpath, hc.paths, hc.counts, fun hnone => ?_⟩
  rw [Store.content, (hnew (hpath ▸ hnone)).2]

theorem History.accounted {host : Host} {handed : List Ref} {named : List String}
    (h : History host s handed named) : Accounted s handed named := by
  have hnone {s' : Store} : ∀ r ∈ ([] : List Ref), ∃ n, n < s'.paths ∧ r.path = countedPath n :=
    fun r hr => absurd hr List.not_mem_nil
  induction h with
  | start =>
    refine ⟨fun path r hr => ?_, fun r hr => absurd hr List.not_mem_nil,
      fun path hpath => absurd hpath List.not_mem_nil⟩
    cases hr
  | define h path v hr ih => exact ih.define path v hr
  | freshPath h ih =>
    exact ih.counts [] ⟨Nat.le_succ _, fun _ hpath => .inl hpath⟩ hnone
  | @create s _ _ h v r hr ih =>
    obtain ⟨r, s', hrun, hpath, hpaths, hcounts, -⟩ := exists_create v s
    rw [hrun] at hr ⊢
    cases hr
    refine ih.counts [r] hcounts fun q hq => ?_
    obtain rfl := List.mem_singleton.mp hq
    exact ⟨s.paths, hpaths ▸ Nat.lt_succ_self _, hpath⟩
  | remove h path ih => exact ih.remove path
  | reset h r v ih =>
    refine ih.counts [] (.of_eq ?_ ?_) hnone
    · rw [Ref.swap, modifyGet_run]
      dsimp only
      split <;> rfl
    · rw [Ref.swap, modifyGet_run]
      dsimp only
      split <;> rfl
  | decode h mode c hm ih =>
    refine ih.counts _ (Wire.moves_decode Wire.makes_counts mode c _) fun r hr => ?_
    obtain ⟨n, hn, href⟩ := hm r hr
    exact ⟨n, hn, path_of_refAt? href⟩
  | elsewhere h hp hr ih => exact ih.counts [] (.of_eq hp hr) hnone

/-! ## New references -/

/-- References are equal when their paths are. -/
theorem same_ref (s : Store) (q r : Ref) : s.same (.ref q) (.ref r) = (q.path == r.path) := rfl

/-- A cell is made in every state, by a program or for an `atom` node that is decoded. Its reference
is unequal to all that were handed out before exactly when its path was never named, and in that
case nothing was registered there and the cell holds the value. -/
theorem create_fresh_iff {host : Host} {handed : List Ref} {named : List String}
    (h : History host s handed named) (v : Value) :
    ∃ r s', create v s = (.ok r, s') ∧
      (∀ bodies depth, Script.run bodies depth (Native.ref [v]) s = (.ok (.ref r), s')) ∧
      (∀ mode c s₀, Wire.decode mode c s₀ = (.ok v, s) →
        Wire.decode mode (.list [.leaf "atom", c]) s₀ = (.ok (.ref r), s')) ∧
      ((∀ q ∈ handed, s'.same (.ref q) (.ref r) = false) ↔ countedPath s.paths ∉ named) ∧
      (countedPath s.paths ∉ named → s.refAt? r.path = none ∧ s'.content r = v) := by
  obtain ⟨r, s', hrun, hpath, -, -, hcontent⟩ := exists_create v s
  have hr : (create v s).1 = .ok r := congrArg Prod.fst hrun
  have hacc := h.accounted
  -- a counted path that the counter has not passed is used only if it was named
  have hused : Used s named (countedPath s.paths) ↔ countedPath s.paths ∈ named := by
    refine ⟨fun hu => ?_, .inl⟩
    rcases hu with hn | ⟨n, hn, heq⟩
    · exact hn
    · have := countedPath_injective heq
      omega
  refine ⟨r, s', hrun, fun bodies depth => ?_, fun mode c s₀ hd => ?_,
    ⟨fun hne hn => ?_, fun hn q hq => ?_⟩, fun hn => ?_⟩
  · show (create v >>= fun r => pure (Value.ref r) : Op Value) s = _
    rw [bind_ok hr, hrun]
    rfl
  · have hfst : (Wire.decode mode c s₀).1 = .ok v := congrArg Prod.fst hd
    have hsnd : (Wire.decode mode c s₀).2 = s := congrArg Prod.snd hd
    rw [Wire.decode_atom, bind_ok hfst, hsnd, bind_ok hr, hrun]
    rfl
  · obtain ⟨q, hq, heq⟩ := hacc.found _ hn
    have := hne q hq
    rw [same_ref, hpath, heq, beq_self_eq_true] at this
    cases this
  · rw [same_ref, hpath]
    refine beq_eq_false_iff_ne.mpr fun heq => hn (hused.mp ?_)
    rw [← heq]
    exact hacc.used q hq
  · have hnone : s.refAt? (countedPath s.paths) = none := by
      cases hs : s.refAt? (countedPath s.paths) with
      | none => rfl
      | some q => exact absurd (hused.mp (hacc.registered _ q hs)) hn
    exact ⟨hpath ▸ hnone, hcontent hnone⟩

/-- Behind a cell with a path of another form, a new cell is new. -/
theorem create_fresh_iff_other :
    ∃ s d r s', History default s [d] ["a"] ∧ create (.bool true) s = (.ok r, s') ∧
      s'.same (.ref d) (.ref r) = false ∧ s'.content r = .bool true := by
  have hdefined : History default _ [⟨0, "a"⟩] ["a"] := History.start.define "a" .nil rfl
  obtain ⟨r, s', hrun, -, -, hfresh, hnew⟩ := create_fresh_iff hdefined (.bool true)
  have hpath : countedPath 0 ∉ ["a"] := by decide
  exact ⟨_, _, r, s', hdefined, hrun, hfresh.mpr hpath _ List.mem_cons_self, (hnew hpath).2⟩

/-- A program that names the next counted path gets its own cell back, with the content it has. -/
theorem create_at_named_path :
    let one : Value := .number (.ofBits 0x3ff0000000000000)
    let two : Value := .number (.ofBits 0x4000000000000000)
    ∃ s d r s', History default s [d] ["ref:0"] ∧ create two s = (.ok r, s') ∧
      s.refAt? r.path = some d ∧ s'.same (.ref d) (.ref r) = true ∧ s'.content r = one ∧
      one ≠ two := by
  intro one two
  have hdefine : define "ref:0" one (.initial default) = (.ok ⟨0, "ref:0"⟩, _) :=
    define_unregistered rfl one
  have hdefined : History default _ [⟨0, "ref:0"⟩] ["ref:0"] :=
    (@History.start default).define "ref:0" one (congrArg Prod.fst hdefine)
  rw [hdefine] at hdefined
  have href : ((Store.initial default).addCell ⟨"ref:0", one, []⟩).refAt? (countedPath 0) =
      some ⟨0, "ref:0"⟩ := refAt?_addCell _ _ _
  exact ⟨_, ⟨0, "ref:0"⟩, _, _, hdefined, create_registered href two, href,
    beq_self_eq_true _, rfl, by decide⟩

end Cells
end DynVal
