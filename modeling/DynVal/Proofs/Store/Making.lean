import DynVal.Proofs.Store.History

/-!
# What the maps of a history are

A map that was replied is the one that the request makes without effects (`Request.mapUnder`),
layers included, under every ranking with the numbers drawn since. Which numbers functions get later
makes no difference to it.

* `Request.keeps_mapUnder`: for one request.
* `History.exists_stage_makes`: for all of a history.
-/

namespace DynVal

open Op Memo

namespace Request

/-- The map that a request makes, without effects. -/
noncomputable def mapUnder (ρ : Ranking) : Request → Option (Map Value)
  | .makeMap ps => some (Id.run (Map.ofPairs (keysUnder ρ) ps))
  | .toMap r => some (Id.run (Map.ofPairs (keysUnder ρ) r.body.entries))
  | .assoc m k v => some (Id.run ((MapNode.flatUnder ρ m).assoc (keysUnder ρ) k v))
  | .dissoc m k => some (Id.run ((MapNode.flatUnder ρ m).dissoc (keysUnder ρ) k))
  | .merge m front skip => some (MapNode.mergedUnder ρ m front skip)
  | .diffNew m other => some (Id.run ((MapNode.flatPairUnder ρ m other).1.diffNew (keysUnder ρ)
    (MapNode.flatPairUnder ρ m other).2))
  | _ => none

/-- If the request makes a map, then the reply is that map. -/
def Makes (ρ : Ranking) (q : Request) (r : Reply) : Prop :=
  ∀ x ∈ q.mapUnder ρ, ∃ n : MapNode, r = .value (.map n) ∧ n.body = x

theorem Makes.body_eq {ρ : Ranking} {q : Request} {n : MapNode} {x : Map Value}
    (h : q.Makes ρ (.value (.map n))) (hx : q.mapUnder ρ = some x) : n.body = x := by
  obtain ⟨n', heq, hbody⟩ := h x hx
  cases heq
  exact hbody

variable {ρ : Ranking} {g : Stage} {q : Request} {r : Reply}

theorem makes_of_mapUnder_eq_none (h : q.mapUnder ρ = none) : q.Makes ρ r := by
  intro x hx
  rw [h] at hx
  cases hx

theorem keeps_making {op : Op MapNode} {P : Stage → MapNode → Prop} {f : Ranking → Map Value}
    (h : Yields g op fun g' n => P g' n ∧ ∀ ρ : Ranking, g'.numbering.Admits ρ → n.body = f ρ)
    (hf : ∀ ρ, q.mapUnder ρ = some (f ρ)) :
    Keeps g (op >>= fun n => pure (.value (.map n)))
      fun g' r => ∀ ρ : Ranking, g'.numbering.Admits ρ → q.Makes ρ r := by
  refine keeps_bind h.keeps fun g' n _ hn => (yields_pure fun ρ hρ x hx => ?_).keeps
  rw [hf] at hx
  exact ⟨n, rfl, (hn.2 ρ hρ).trans (Option.some.inj hx)⟩

theorem keeps_mapUnder (hq : ∀ v ∈ q.operands, v.Sound g) :
    Keeps g q.perform fun g' r => ∀ ρ : Ranking, g'.numbering.Admits ρ → q.Makes ρ r := by
  have hanswered := keeps_perform hq
  cases q <;> simp only [operands, List.mem_cons, List.not_mem_nil, or_false, forall_eq_or_imp,
    forall_eq] at hq
  case makeMap ps => exact keeps_making (MapNode.yields_make (forall_mem_pairs hq)) fun _ => rfl
  case toMap r => exact keeps_making (RecordNode.yields_toMap_body hq) fun _ => rfl
  case assoc m k v => exact keeps_making (MapNode.yields_assoc_body hq.1 hq.2.1 hq.2.2) fun _ => rfl
  case dissoc m k => exact keeps_making (MapNode.yields_dissoc_body hq.1 hq.2) fun _ => rfl
  case merge m front skip =>
    refine keeps_making (MapNode.yields_merge_body hq.1 hq.2.1 fun s hs => ?_) fun _ => rfl
    exact hq.2.2 s (Option.mem_toList.mpr hs)
  case diffNew m other => exact keeps_making (MapNode.yields_diffNew_body hq.1 hq.2) fun _ => rfl
  -- no other request makes a map
  all_goals exact hanswered.mono fun _ _ _ _ _ _ => makes_of_mapUnder_eq_none rfl

end Request

theorem History.exists_stage_makes {host : Host} {s : Store} {log : Log} (h : History host s log) :
    ∃ g, s.At g ∧ log.Kept g ∧ ∀ q r, (q, .ok r) ∈ log →
      ∀ ρ : Ranking, g.numbering.Admits ρ → q.Makes ρ r :=
  h.exists_stage_of fun _ _ => Request.keeps_mapUnder

end DynVal
