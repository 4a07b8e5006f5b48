/-!
# Vocabularies

A vocabulary is a list of things with distinct spellings. Looking a spelling up finds the thing
that is spelled so, and nothing else.
-/

namespace Jack

/-- The first thing in a list that is spelled in a given way. -/
def lookUp? {α : Type} (all : List α) (spelling : α → String) (s : String) : Option α :=
  all.find? (spelling · == s)

/-- If no two things share a spelling, a look-up inverts the spelling. -/
theorem lookUp?_eq_some_iff {α : Type} {all : List α} {spelling : α → String} {s : String} {a : α}
    (distinct : all.Pairwise (spelling · ≠ spelling ·)) :
    lookUp? all spelling s = some a ↔ a ∈ all ∧ spelling a = s := by
  induction all with
  | nil => simp [lookUp?]
  | cons b rest ih =>
    have hrest := ih distinct.of_cons
    have hne : ∀ c ∈ rest, spelling b ≠ spelling c := fun c hc =>
      List.rel_of_pairwise_cons distinct hc
    simp only [lookUp?, List.find?_cons, List.mem_cons] at hrest ⊢
    by_cases hb : spelling b = s
    · have hbeq : (spelling b == s) = true := beq_iff_eq.2 hb
      simp only [hbeq, Option.some.injEq]
      refine ⟨fun h => h ▸ ⟨.inl rfl, hb⟩, fun h => ?_⟩
      rcases h.1 with rfl | hmem
      · rfl
      · exact absurd (hb.trans h.2.symm) (hne a hmem)
    · have hbeq : (spelling b == s) = false := beq_eq_false_iff_ne.2 hb
      simp only [hbeq, hrest]
      refine ⟨fun h => ⟨.inr h.1, h.2⟩, fun h => ⟨?_, h.2⟩⟩
      rcases h.1 with rfl | hmem
      · exact absurd h.2 hb
      · exact hmem

end Jack
