import Reckoner.Console.Run
import Reckoner.Proofs.Console.Wording
import Reckoner.Proofs.Text.Encoding

/-! The lines of an input that is text. All of them are text again, and lines that are put behind a
line feed are read as they are on their own. -/
namespace Reckoner.Console

open Text (Unbroken encode)

def extend (piece : List UInt8) : List (List UInt8) → List (List UInt8)
  | [] => [piece]
  | line :: rest => (piece ++ line) :: rest

theorem extend_append {first : List (List UInt8)} (h : first ≠ []) (piece : List UInt8)
    (second : List (List UInt8)) : extend piece (first ++ second) = extend piece first ++ second := by
  cases first with
  | nil => contradiction
  | cons line rest => rfl

theorem extend_extend (as bs : List UInt8) (ls : List (List UInt8)) :
    extend as (extend bs ls) = extend (as ++ bs) ls := by
  cases ls <;> simp [extend]

section Bytes

variable {b : UInt8} {bs : List UInt8}

theorem lines_return (h : bs.head? = some 10) : lines (13 :: bs) = lines bs := by
  cases bs with
  | nil => contradiction
  | cons b bs =>
    obtain rfl : b = 10 := by simpa using h
    rfl

theorem lines_cons (hb : b ≠ 10) (hreturn : b = 13 → bs.head? ≠ some 10) :
    lines (b :: bs) = extend [b] (lines bs) := by
  rw [lines]
  · cases lines bs <;> rfl
  · exact hb
  · rintro rest rfl rfl
    simp at hreturn

theorem lines_ne_nil (b : UInt8) (bs : List UInt8) : lines (b :: bs) ≠ [] := by
  unfold lines
  split
  next => contradiction
  next => simp
  next => simp
  next => split <;> simp

theorem lines_append_feed (as bs : List UInt8) :
    lines (as ++ 10 :: bs) = lines (as ++ [10]) ++ lines bs := by
  induction as with
  | nil => rfl
  | cons b as ih =>
    have hhead : (as ++ 10 :: bs).head? = (as ++ [10]).head? := by cases as <;> rfl
    rw [List.cons_append, List.cons_append]
    by_cases hfeed : b = 10
    · rw [hfeed, lines, lines, ih]
      rfl
    · by_cases hreturn : b = 13 ∧ (as ++ [10]).head? = some 10
      · rw [hreturn.1, lines_return (hhead.trans hreturn.2), lines_return hreturn.2, ih]
      · have hinside : b = 13 → (as ++ [10]).head? ≠ some 10 := fun hb h => hreturn ⟨hb, h⟩
        have hne : lines (as ++ [10]) ≠ [] := by cases as <;> exact lines_ne_nil _ _
        rw [lines_cons hfeed (hhead ▸ hinside), lines_cons hfeed hinside, ih, extend_append hne]

theorem lines_append {piece : List UInt8} (hne : piece ≠ [])
    (h : ∀ b ∈ piece, b ≠ 10 ∧ b ≠ 13) (bs : List UInt8) :
    lines (piece ++ bs) = extend piece (lines bs) := by
  induction piece with
  | nil => contradiction
  | cons b piece ih =>
    rw [List.forall_mem_cons] at h
    rw [List.cons_append, lines_cons h.1.1 (fun hb => absurd hb h.1.2)]
    cases piece with
    | nil => rfl
    | cons b' piece => rw [ih (by simp) h.2, extend_extend, List.singleton_append]

end Bytes

theorem lines_char {c : Char} {cs : List Char} (hc : c ≠ '\n')
    (hreturn : c = '\r' → cs.head? ≠ some '\n') :
    lines (encode (c :: cs)) = extend (String.utf8EncodeChar c) (lines (encode cs)) := by
  by_cases hcr : c = '\r'
  · subst hcr
    apply lines_cons (by decide)
    intro _ hhead
    exact hreturn rfl ((Text.head?_encode_eq_some_iff (by decide) cs).1 hhead)
  · rw [Text.encode_cons]
    apply lines_append String.utf8EncodeChar_ne_nil
    intro b hb
    have hfeed : b = 10 ↔ c = '\n' :=
      decide_eq_decide.1 (Text.Matches.exactly (k := '\n') (by decide) c b hb)
    have hcarriage : b = 13 ↔ c = '\r' :=
      decide_eq_decide.1 (Text.Matches.exactly (k := '\r') (by decide) c b hb)
    exact ⟨fun h => hc (hfeed.1 h), fun h => hcr (hcarriage.1 h)⟩

theorem lines_encode (cs : List Char) :
    ∃ ls : List (List Char), lines (encode cs) = ls.map encode ∧ ∀ l ∈ ls, '\n' ∉ l := by
  induction cs with
  | nil => exact ⟨[], rfl, by simp⟩
  | cons c cs ih =>
    obtain ⟨ls, hls, hfeed⟩ := ih
    by_cases hc : c = '\n'
    · rw [hc]
      refine ⟨[] :: ls, ?_, by simpa using hfeed⟩
      rw [List.map_cons, ← hls]
      rfl
    · by_cases hreturn : c = '\r' ∧ cs.head? = some '\n'
      · have hhead := (Text.head?_encode_eq_some_iff (by decide) cs).2 hreturn.2
        rw [hreturn.1]
        exact ⟨ls, (lines_return hhead).trans hls, hfeed⟩
      · rw [lines_char hc (fun hcr h => hreturn ⟨hcr, h⟩), hls]
        cases ls with
        | nil => exact ⟨[[c]], by simp [extend], by simpa using Ne.symm hc⟩
        | cons l rest =>
          refine ⟨(c :: l) :: rest, by simp [extend], ?_⟩
          simpa [Ne.symm hc] using hfeed

theorem decodeLine_encode (cs : List Char) : decodeLine (encode cs) = some (String.ofList cs) := by
  have hbytes : (⟨(encode cs).toArray⟩ : ByteArray) = (String.ofList cs).toByteArray := by
    rw [← Text.bytes_ofList, Text.bytes]
  rw [decodeLine, hbytes, String.fromUTF8?, dif_pos (String.ofList cs).isValidUTF8]
  rfl

theorem readable_map_encode (ls : List (List Char)) :
    readable (ls.map encode) = (ls.map String.ofList, true) := by
  induction ls with
  | nil => rfl
  | cons l ls ih => simp [readable, decodeLine_encode, ih]

def texts (input : String) : List String := (readable (lines (Text.bytes input))).1

theorem readable_lines (input : String) :
    readable (lines (Text.bytes input)) = (texts input, true) := by
  obtain ⟨ls, hls, -⟩ := lines_encode input.toList
  rw [texts, ← Text.encode_toList, hls, readable_map_encode]

theorem unbroken_texts (input : String) : ∀ line ∈ texts input, Unbroken line := by
  obtain ⟨ls, hls, hfeed⟩ := lines_encode input.toList
  rw [texts, ← Text.encode_toList, hls, readable_map_encode]
  simpa [Unbroken] using hfeed

theorem readable_append {first second : List (List UInt8)} {ts : List String}
    (h : readable first = (ts, true)) :
    readable (first ++ second) = (ts ++ (readable second).1, (readable second).2) := by
  induction first generalizing ts with
  | nil =>
    obtain ⟨rfl, -⟩ := Prod.mk.inj h
    rfl
  | cons bytes first ih =>
    rw [readable] at h
    cases hdecode : decodeLine bytes with
    | none => simp [hdecode] at h
    | some line =>
      simp only [hdecode, Prod.mk.injEq] at h
      have hrest := ih (Prod.ext rfl h.2)
      simp only [List.cons_append, readable, hdecode, hrest, ← h.1]

theorem bytes_append (s t : String) : Text.bytes (s ++ t) = Text.bytes s ++ Text.bytes t := by
  simp only [← Text.encode_toList, String.toList_append, Text.encode_append]

theorem texts_append (first second : String) :
    texts (first ++ "\n" ++ second) = texts (first ++ "\n") ++ texts second := by
  have hfeed : Text.bytes "\n" = [10] := rfl
  have hfirst := readable_lines (first ++ "\n")
  rw [bytes_append, hfeed] at hfirst
  rw [texts, bytes_append, bytes_append, hfeed, List.append_assoc, List.singleton_append,
    lines_append_feed, readable_append hfirst]
  rfl

end Reckoner.Console
