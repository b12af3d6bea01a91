import Reckoner.Text.Blank

/-! Texts that differ only in their blanks. Such texts have the same words, and the words of a text can
be computed, so that this is a matter of comparing two lists. -/
namespace Reckoner.Text

/-- The text consists of the words in this order. A word has no blank in it and ends in front of a
blank or at the end of the text; everything else is blanks. -/
inductive Laid : List (List Char) → List Char → Prop
  | blank {gap : List Char} (hgap : ∀ c ∈ gap, isSpacing c = true) : Laid [] gap
  | word {gap word rest : List Char} {words : List (List Char)}
    (hgap : ∀ c ∈ gap, isSpacing c = true) (hne : word ≠ [])
    (hword : ∀ c ∈ word, isSpacing c = false)
    (hend : ∀ c, rest.head? = some c → isSpacing c = true) (hrest : Laid words rest) :
    Laid (word :: words) (gap ++ (word ++ rest))

/-- One text comes from the other if runs of blanks between words are replaced by other runs of
blanks, and blanks at the two ends are added or taken away. -/
def Respaced (s t : String) : Prop := ∃ words, Laid words s.toList ∧ Laid words t.toList

def words (cs : List Char) : List (List Char) := (cs.splitOnP isSpacing).filter (· ≠ [])

theorem words_cons_of_isSpacing {c : Char} (hc : isSpacing c = true) (cs : List Char) :
    words (c :: cs) = words cs := by
  have hsplit : (c :: cs).splitOnP isSpacing = [] :: cs.splitOnP isSpacing :=
    List.splitOnP_append_cons [] cs hc
  simp [words, hsplit]

theorem words_gap_append {gap : List Char} (hgap : ∀ c ∈ gap, isSpacing c = true)
    (cs : List Char) : words (gap ++ cs) = words cs := by
  induction gap with
  | nil => rfl
  | cons c gap ih =>
    rw [List.forall_mem_cons] at hgap
    rw [List.cons_append, words_cons_of_isSpacing hgap.1, ih hgap.2]

theorem words_word_append {word rest : List Char} (hne : word ≠ [])
    (hword : ∀ c ∈ word, isSpacing c = false)
    (hend : ∀ c, rest.head? = some c → isSpacing c = true) :
    words (word ++ rest) = word :: words rest := by
  have hsingle : word.splitOnP isSpacing = [word] := List.splitOnP_eq_singleton hword
  cases rest with
  | nil => simp [words, hsingle, hne]
  | cons c rest =>
    have hc : isSpacing c = true := hend c rfl
    have hsplit := List.splitOnP_append_cons word rest hc
    rw [words_cons_of_isSpacing hc]
    simp [words, hsplit, hsingle, hne]

theorem Laid.words_eq {ws : List (List Char)} {cs : List Char} (h : Laid ws cs) : words cs = ws := by
  induction h with
  | @blank gap hgap =>
    have hwords := words_gap_append hgap []
    rwa [List.append_nil] at hwords
  | word hgap hne hword hend hrest ih =>
    rw [words_gap_append hgap, words_word_append hne hword hend, ih]

theorem Laid.cons_blank {ws : List (List Char)} {cs : List Char} {c : Char} (hc : isSpacing c = true)
    (h : Laid ws cs) : Laid ws (c :: cs) := by
  cases h with
  | blank hgap => exact .blank (List.forall_mem_cons.2 ⟨hc, hgap⟩)
  | word hgap hne hword hend hrest =>
    exact .word (List.forall_mem_cons.2 ⟨hc, hgap⟩) hne hword hend hrest

theorem Laid.cons_solid {ws : List (List Char)} {cs : List Char} {c : Char}
    (hc : isSpacing c = false) (h : Laid ws cs) : ∃ ws', Laid ws' (c :: cs) := by
  have hnone : ∀ d ∈ ([] : List Char), isSpacing d = true := by simp
  have hself : ∀ d ∈ [c], isSpacing d = false := by simpa using hc
  cases h with
  | blank hgap =>
    have hend : ∀ d, cs.head? = some d → isSpacing d = true := fun d hd =>
      hgap d (List.mem_of_head? hd)
    exact ⟨_, .word hnone (List.cons_ne_nil c []) hself hend (.blank hgap)⟩
  | @word gap word rest words hgap hne hword hend hrest =>
    cases gap with
    | nil =>
      exact ⟨_, .word hnone (List.cons_ne_nil c word) (List.forall_mem_cons.2 ⟨hc, hword⟩) hend
        hrest⟩
    | cons b gap =>
      have hgapEnd : ∀ d, (b :: gap ++ (word ++ rest)).head? = some d → isSpacing d = true := by
        rintro d ⟨⟩
        exact hgap b (List.mem_cons_self ..)
      exact ⟨_, .word hnone (List.cons_ne_nil c []) hself hgapEnd
        (.word hgap hne hword hend hrest)⟩

theorem laid_words (cs : List Char) : Laid (words cs) cs := by
  have hlaid : ∃ ws, Laid ws cs := by
    induction cs with
    | nil => exact ⟨[], .blank (by simp)⟩
    | cons c cs ih =>
      obtain ⟨ws, h⟩ := ih
      cases hc : isSpacing c with
      | true => exact ⟨ws, h.cons_blank hc⟩
      | false => exact h.cons_solid hc
  obtain ⟨ws, h⟩ := hlaid
  rwa [h.words_eq]

theorem respaced_iff {s t : String} : Respaced s t ↔ words s.toList = words t.toList := by
  constructor
  · rintro ⟨ws, hs, ht⟩
    rw [hs.words_eq, ht.words_eq]
  · intro h
    exact ⟨words s.toList, laid_words s.toList, h ▸ laid_words t.toList⟩

instance (s t : String) : Decidable (Respaced s t) := decidable_of_iff _ respaced_iff.symm

end Reckoner.Text
