import DynVal.Cells
import DynVal.Proofs.Store.Keeping

/-!
# Operations on cells keep values sound

A cell holds a sound value from the start and is given a sound value whenever it is set, so what is
read from it is sound. Whatever else changes in a store (`Store.Elsewhere`) does not matter.
-/

namespace DynVal

open Op

/-- Nodes, backings, memo and the contents of cells are the same. -/
structure Store.Elsewhere (s s' : Store) : Prop where
  nodes : s'.nodes = s.nodes
  backings : s'.backings = s.backings
  memo : s'.memo = s.memo
  contents : s'.cells.toList.map Cell.content = s.cells.toList.map Cell.content

namespace Store.At

variable {s s' : Store} {g : Stage}

theorem of_cells (hs : s.At g) (hnodes : s'.nodes = s.nodes) (hbackings : s'.backings = s.backings)
    (hmemo : s'.memo = s.memo) (hcells : ∀ c ∈ s'.cells.toList, c.content.Sound g) : s'.At g where
  fresh n hn := hs.fresh n (hnodes ▸ hn)
  numbering := hmemo ▸ hs.numbering
  backings := hbackings ▸ hs.backings
  memo := hmemo ▸ hs.memo
  cells := hcells

theorem elsewhere (hs : s.At g) (h : s.Elsewhere s') : s'.At g := by
  refine hs.of_cells h.nodes h.backings h.memo fun c hc => ?_
  have hmem := List.mem_map_of_mem (f := Cell.content) hc
  rw [h.contents] at hmem
  obtain ⟨c', hc', heq⟩ := List.mem_map.mp hmem
  rw [← heq]
  exact hs.cells c' hc'

theorem content_sound (hs : s.At g) (r : Ref) : (s.content r).Sound g := by
  unfold Store.content
  split
  · rename_i c hc
    exact hs.cells c (Array.mem_toList_iff.mpr (Array.mem_of_getElem? hc))
  · exact Value.sound_of_level_eq_zero rfl

theorem addCell (hs : s.At g) {c : Cell} (hc : c.content.Sound g) : (s.addCell c).At g := by
  refine hs.of_cells rfl rfl rfl fun d hd => ?_
  rw [Store.addCell, Array.toList_push, List.mem_append, List.mem_singleton] at hd
  rcases hd with hd | rfl
  · exact hs.cells d hd
  · exact hc

theorem modifyCell (hs : s.At g) (r : Ref) {f : Cell → Cell}
    (hf : ∀ c : Cell, c.content.Sound g → (f c).content.Sound g) : (s.modifyCell r f).At g := by
  refine hs.of_cells rfl rfl rfl fun d hd => ?_
  rw [Store.modifyCell, Array.toList_modify] at hd
  obtain ⟨i, hi, rfl⟩ := List.getElem_of_mem hd
  rw [List.getElem_modify]
  split
  · exact hf _ (hs.cells _ (List.getElem_mem _))
  · exact hs.cells _ (List.getElem_mem _)

end Store.At

variable {g : Stage} {v : Value}

theorem Ref.yields_content (r : Ref) : Yields g r.content fun g' v => v.Sound g' :=
  yields_get fun _ hs => yields_pure (hs.content_sound r)

theorem Ref.yields_swap (r : Ref) (hv : v.Sound g) :
    Yields g (r.swap v) fun g' p => p.1.Sound g' := by
  refine yields_modifyGet (fun s hs => ?_) fun s hs => ?_
  · have hcontent := hs.content_sound r
    cases hc : s.cells[r.cell]? <;>
      simp only [Store.content, Store.cell?, hc] at hcontent ⊢ <;> exact hcontent
  · have hswap := hs.modifyCell r (f := fun c => { c with content := v }) fun _ _ => hv
    dsimp only
    split <;> exact hswap

namespace Cells

theorem yields_define (path : String) (hv : v.Sound g) :
    Yields g (define path v) fun _ _ => True := by
  refine yields_modifyGet (fun _ _ => trivial) fun s hs => ?_
  dsimp only
  split
  · exact hs
  · exact hs.addCell hv

theorem yields_freshPath : Yields g freshPath fun _ _ => True :=
  yields_modifyGet (f := fun s => (countedPath s.paths, { s with paths := s.paths + 1 }))
    (fun _ _ => trivial) fun _ hs => hs.elsewhere ⟨rfl, rfl, rfl, rfl⟩

theorem yields_create (hv : v.Sound g) : Yields g (create v) fun _ _ => True :=
  yields_bind yields_freshPath fun _ path hext _ => yields_define path (hv.extends hext)

end Cells
end DynVal
