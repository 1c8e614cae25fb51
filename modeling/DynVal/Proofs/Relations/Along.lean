import Mathlib.Data.List.Forall2

/-!
# Going through two lists together

`Along R` relates two lists element by element, where each pair leaves a trace, and the traces stand
one after the other. What is said of a pair may depend on its own part of the trace only.
-/

namespace DynVal

variable {α β γ τ : Type} {R S : α → β → List τ → Prop} {as : List α} {bs : List β} {ts : List τ}

/-- One pair after the other, with the traces they leave. -/
inductive Along (R : α → β → List τ → Prop) : List α → List β → List τ → Prop where
  | nil : Along R [] [] []
  | cons {a : α} {b : β} {as : List α} {bs : List β} {t ts : List τ} (h : R a b t)
    (hs : Along R as bs ts) : Along R (a :: as) (b :: bs) (t ++ ts)

namespace Along

theorem mono (hrs : ∀ a ∈ as, ∀ b ∈ bs, ∀ t, t.Sublist ts → R a b t → S a b t)
    (h : Along R as bs ts) : Along S as bs ts := by
  induction h with
  | nil => exact .nil
  | cons h _ ih =>
    refine .cons (hrs _ (by simp) _ (by simp) _ (List.sublist_append_left _ _) h)
      (ih fun a ha b hb t ht => ?_)
    exact hrs a (List.mem_cons_of_mem _ ha) b (List.mem_cons_of_mem _ hb) t
      (ht.trans (List.sublist_append_right _ _))

theorem forall₂_sublist (h : Along R as bs ts) :
    List.Forall₂ (fun a b => ∃ t, t.Sublist ts ∧ R a b t) as bs := by
  induction h with
  | nil => exact .nil
  | cons h _ ih =>
    refine .cons ⟨_, List.sublist_append_left _ _, h⟩ (ih.imp fun a b => ?_)
    rintro ⟨t, ht, hr⟩
    exact ⟨t, ht.trans (List.sublist_append_right _ _), hr⟩

theorem forall₂ (h : Along R as bs ts) : List.Forall₂ (fun a b => ∃ t, R a b t) as bs :=
  h.forall₂_sublist.imp fun _ _ ⟨t, _, hr⟩ => ⟨t, hr⟩

/-- Every element on the right has one on the left. -/
theorem exists_left (h : Along R as bs ts) {b : β} (hb : b ∈ bs) :
    ∃ a ∈ as, ∃ t, t.Sublist ts ∧ R a b t := by
  induction h with
  | nil => cases hb
  | @cons a _ _ _ t _ h _ ih =>
    rcases List.mem_cons.mp hb with rfl | hb
    · exact ⟨a, List.mem_cons_self, t, List.sublist_append_left _ _, h⟩
    · obtain ⟨a', ha', t', ht', hr⟩ := ih hb
      exact ⟨a', List.mem_cons_of_mem _ ha', t', ht'.trans (List.sublist_append_right _ _), hr⟩

/-- What holds between any two elements on the left holds between those on the right, if it is so
for pairs with traces that follow one another. -/
theorem pairwise {P : α → α → Prop} {Q : β → β → Prop} (h : Along R as bs ts) (has : as.Pairwise P)
    (hpq : ∀ a ∈ as, ∀ a' ∈ as, ∀ b b' t t', R a b t → R a' b' t' → (t ++ t').Sublist ts →
      P a a' → Q b b') : bs.Pairwise Q := by
  induction h with
  | nil => exact .nil
  | @cons a b as bs t ts h hs ih =>
    obtain ⟨ha, has⟩ := List.pairwise_cons.mp has
    refine .cons (fun b' hb' => ?_) (ih has fun a₁ h₁ a₂ h₂ b b' t t' hr hr' ht => ?_)
    · obtain ⟨a', ha', t', ht', h'⟩ := hs.exists_left hb'
      exact hpq a List.mem_cons_self a' (List.mem_cons_of_mem _ ha') b b' t t' h h'
        (ht'.append_left t) (ha a' ha')
    · exact hpq a₁ (List.mem_cons_of_mem _ h₁) a₂ (List.mem_cons_of_mem _ h₂) b b' t t' hr hr'
        (ht.trans (List.sublist_append_right _ _))

/-- Two ways of going on from one list make one. -/
theorem of_forall₂ {E : γ → α → Prop} {S : γ → β → List τ → Prop} {cs : List γ}
    (hE : List.Forall₂ E cs as) (h : Along R as bs ts)
    (hs : ∀ c ∈ cs, ∀ a b t, t.Sublist ts → E c a → R a b t → S c b t) : Along S cs bs ts := by
  induction h generalizing cs with
  | nil =>
    cases hE
    exact .nil
  | cons h _ ih =>
    cases hE with
    | cons he hes =>
      refine .cons (hs _ List.mem_cons_self _ _ _ (List.sublist_append_left _ _) he h)
        (ih hes fun c hc a b t ht => ?_)
      exact hs c (List.mem_cons_of_mem _ hc) a b t (ht.trans (List.sublist_append_right _ _))

end Along
end DynVal
