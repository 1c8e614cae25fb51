import DynVal.Proofs.Store.Cells
import DynVal.Proofs.Store.Requests

/-!
# Histories of a store

A history starts from a new store and goes on with requests, each made with values at hand, that is
with scalars, with what was replied before and with parts of these. In between, whatever else a
store keeps may change.

* `Log.Kept`: the values at hand are sound, and what was replied means what it should.
* `History.exists_stage`: in every history this is so, by what one request keeps.
* `History.exists_stage_of`: so is what else holds of every reply when it comes.
-/

namespace DynVal

/-- What was asked, with the replies, the last request first. -/
abbrev Log := List (Request × Except Halt Reply)

/-- The values at hand. -/
inductive Held (log : Log) : Value → Prop where
  | scalar {v : Value} (h : v.level = 0) : Held log v
  | replied {q : Request} {r : Reply} {v : Value} (h : (q, .ok r) ∈ log) (hv : v ∈ r.held) :
    Held log v
  | part {v p : Value} (h : Held log v) (hp : p ∈ v.parts) : Held log p

theorem Held.reply {log : Log} {q : Request} {v : Value} (h : (q, .ok (.value v)) ∈ log) :
    Held log v := .replied h (by simp [Reply.held])

theorem Held.cons {log : Log} {v : Value} (h : Held log v) (e : Request × Except Halt Reply) :
    Held (e :: log) v := by
  induction h with
  | scalar h => exact .scalar h
  | replied h hv => exact .replied (List.mem_cons_of_mem _ h) hv
  | part _ hp ih => exact .part ih hp

inductive History (host : Host) : Store → Log → Prop where
  | start : History host (.initial host) []
  | ask {s : Store} {log : Log} (h : History host s log) (q : Request)
    (hq : ∀ v ∈ q.operands, Held log v) :
    History host (q.perform s).2 ((q, (q.perform s).1) :: log)
  | elsewhere {s s' : Store} {log : Log} (h : History host s log) (he : s.Elsewhere s') :
    History host s' log

/-- What was asked with and what was replied is sound at a stage, and the replies are true there. -/
structure Log.Kept (log : Log) (g : Stage) : Prop where
  operands : ∀ q r, (q, r) ∈ log → ∀ v ∈ q.operands, v.Sound g
  sound : ∀ q r, (q, .ok r) ∈ log → ∀ v ∈ r.held, v.Sound g
  means : ∀ q r, (q, .ok r) ∈ log → ∀ ρ : Ranking, g.numbering.Admits ρ → q.Means ρ r

namespace Log.Kept

variable {log : Log} {g g' : Stage} {v : Value}

theorem held (hk : log.Kept g) (hv : Held log v) : v.Sound g := by
  induction hv with
  | scalar h => exact Value.sound_of_level_eq_zero h
  | replied h hv => exact hk.sound _ _ h _ hv
  | part _ hp ih => exact ih.parts _ hp

theorem later (hk : log.Kept g) (h : g.Extends g') : log.Kept g' where
  operands q r hq v hv := (hk.operands q r hq v hv).extends h
  sound q r hq v hv := (hk.sound q r hq v hv).extends h
  means q r hq ρ ha := hk.means q r hq ρ (h.numbering.admits ha)

/-- The step of a history. -/
theorem ask (hk : log.Kept g) {q : Request} {s : Store} (hs : s.At g)
    (hq : ∀ v ∈ q.operands, Held log v) : ∃ g', g.Extends g' ∧ (q.perform s).2.At g' ∧
      Log.Kept ((q, (q.perform s).1) :: log) g' := by
  have hsound : ∀ v ∈ q.operands, v.Sound g := fun v hv => hk.held (hq v hv)
  obtain ⟨g', hext, hs', hr⟩ := Request.keeps_perform hsound s hs
  have hcons {p : Request} {r : Reply} (hp : (p, Except.ok r) ∈ (q, (q.perform s).1) :: log) :
      p.Answered g' r ∨ (p, Except.ok r) ∈ log := by
    rcases List.mem_cons.mp hp with heq | hp
    · obtain ⟨rfl, heq⟩ := Prod.mk.inj heq
      exact .inl (hr r heq.symm)
    · exact .inr hp
  have hk' := hk.later hext
  refine ⟨g', hext, hs', fun p r hp => ?_, fun p r hp => ?_, fun p r hp => ?_⟩
  · rcases List.mem_cons.mp hp with heq | hp
    · obtain ⟨rfl, -⟩ := Prod.mk.inj heq
      exact fun v hv => (hsound v hv).extends hext
    · exact hk'.operands p r hp
  · exact (hcons hp).elim (fun h => h.1) (hk'.sound p r)
  · exact (hcons hp).elim (fun h => h.2) (hk'.means p r)

end Log.Kept

theorem History.exists_stage {host : Host} {s : Store} {log : Log} (h : History host s log) :
    ∃ g, s.At g ∧ log.Kept g := by
  induction h with
  | start => exact ⟨.initial, Store.at_initial host, by simp, by simp, by simp⟩
  | ask h q hq ih =>
    obtain ⟨g, hs, hk⟩ := ih
    obtain ⟨g', -, hs', hk'⟩ := hk.ask hs hq
    exact ⟨g', hs', hk'⟩
  | elsewhere h he ih =>
    obtain ⟨g, hs, hk⟩ := ih
    exact ⟨g, hs.elsewhere he, hk⟩

/-- A step takes a store to one stage only as far as numbers go. So what replies say under every
ranking with the numbers drawn by then can be put beside what is known of the log already. -/
theorem History.exists_stage_of {M : Ranking → Request → Reply → Prop}
    (hM : ∀ (g : Stage) (q : Request), (∀ v ∈ q.operands, v.Sound g) →
      Op.Keeps g q.perform fun g' r => ∀ ρ : Ranking, g'.numbering.Admits ρ → M ρ q r)
    {host : Host} {s : Store} {log : Log} (h : History host s log) :
    ∃ g, s.At g ∧ log.Kept g ∧ ∀ q r, (q, .ok r) ∈ log →
      ∀ ρ : Ranking, g.numbering.Admits ρ → M ρ q r := by
  induction h with
  | start => exact ⟨.initial, Store.at_initial host, ⟨by simp, by simp, by simp⟩, by simp⟩
  | @ask s log h q hq ih =>
    obtain ⟨g, hs, hk, hm⟩ := ih
    have hsound : ∀ v ∈ q.operands, v.Sound g := fun v hv => hk.held (hq v hv)
    obtain ⟨g', hext, hs', hk'⟩ := hk.ask hs hq
    obtain ⟨g'', -, hs'', hr⟩ := hM g q hsound s hs
    refine ⟨g', hs', hk', fun p r hp ρ hρ => ?_⟩
    rcases List.mem_cons.mp hp with heq | hp
    · obtain ⟨rfl, heq⟩ := Prod.mk.inj heq
      refine hr r heq.symm ρ ?_
      rwa [hs''.numbering, ← hs'.numbering]
    · exact hm p r hp ρ (hext.numbering.admits hρ)
  | elsewhere h he ih =>
    obtain ⟨g, hs, hk, hm⟩ := ih
    exact ⟨g, hs.elsewhere he, hk, hm⟩

end DynVal
