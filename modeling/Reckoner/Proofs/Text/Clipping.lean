import Reckoner.Error
import Reckoner.Proofs.Text.Encoding

/-! The start of a text that fits a number of bytes. Going back from a byte over those that carry on a
character ends at the last place between two characters. A character takes at most four bytes, so that
this place is at most three bytes away. -/
namespace Reckoner.Text

open String (Pos.Raw.IsValid)

/-! The start of a list of characters. -/

theorem cut_isPrefix (room : Nat) (cs : List Char) : cut room cs <+: cs := by
  induction cs generalizing room with
  | nil => exact List.prefix_rfl
  | cons c cs ih =>
    rw [cut]
    split
    next => exact (List.prefix_cons_inj c).2 (ih _)
    next => exact List.nil_prefix

theorem byteLength_cut_le (room : Nat) (cs : List Char) : byteLength (cut room cs) ≤ room := by
  induction cs generalizing room with
  | nil => exact Nat.zero_le room
  | cons c cs ih =>
    rw [cut]
    split
    next hfits =>
      have hrest := ih (room - c.utf8Size)
      rw [byteLength_cons]
      omega
    next => exact Nat.zero_le room

theorem lt_byteLength_cut {room : Nat} {cs : List Char} (h : room < byteLength cs) :
    room < byteLength (cut room cs) + 4 := by
  induction cs generalizing room with
  | nil => exact absurd h (Nat.not_lt_zero room)
  | cons c cs ih =>
    rw [byteLength_cons] at h
    rw [cut]
    split
    next hfits =>
      have hrest : room - c.utf8Size < byteLength (cut (room - c.utf8Size) cs) + 4 := ih (by omega)
      rw [byteLength_cons]
      omega
    next hlarge =>
      have hsize := c.utf8Size_le_four
      omega

theorem prefix_cut {room : Nat} {as cs : List Char} (hstart : as <+: cs)
    (hfits : byteLength as ≤ room) : as <+: cut room cs := by
  induction cs generalizing room as with
  | nil => exact hstart
  | cons c cs ih =>
    cases as with
    | nil => exact List.nil_prefix
    | cons a as =>
      obtain ⟨rfl, hrest⟩ := List.cons_prefix_cons.1 hstart
      rw [byteLength_cons] at hfits
      rw [cut, if_pos (by omega)]
      exact (List.prefix_cons_inj a).2 (ih hrest (by omega))

theorem eq_of_prefix_of_byteLength_le {as bs : List Char} (hstart : as <+: bs)
    (h : byteLength bs ≤ byteLength as) : as = bs := by
  obtain ⟨rest, rfl⟩ := hstart
  cases rest with
  | nil => rw [List.append_nil]
  | cons c rest =>
    have hsize := c.utf8Size_pos
    rw [byteLength_append, byteLength_cons] at h
    omega

theorem cut_of_le {room : Nat} {cs : List Char} (h : byteLength cs ≤ room) : cut room cs = cs := by
  have hwhole := prefix_cut List.prefix_rfl h
  exact (cut_isPrefix room cs).eq_of_length_le hwhole.length_le

/-! Places between two characters. -/

theorem isValid_iff_byteLength {s : String} {i : Nat} :
    Pos.Raw.IsValid s ⟨i⟩ ↔ ∃ as, as <+: s.toList ∧ byteLength as = i := by
  constructor
  · intro h
    obtain ⟨t, u, rfl, hi⟩ := String.Pos.Raw.isValid_iff_exists_append.1 h
    refine ⟨t.toList, ?_, ?_⟩
    · rw [String.toList_append]
      exact List.prefix_append ..
    · rw [byteLength_toList]
      exact (congrArg String.Pos.Raw.byteIdx hi).symm
  · rintro ⟨as, ⟨rest, hrest⟩, rfl⟩
    exact isValid_of_append hrest.symm

theorem boundaryBefore_of_isValid {s : String} {i : Nat} (h : Pos.Raw.IsValid s ⟨i + 1⟩) :
    boundaryBefore s (i + 1) = ⟨⟨i + 1⟩, h⟩ := by
  rw [boundaryBefore, dif_pos h]

theorem boundaryBefore_of_not_isValid {s : String} {i : Nat} (h : ¬ Pos.Raw.IsValid s ⟨i + 1⟩) :
    boundaryBefore s (i + 1) = boundaryBefore s i := by
  rw [boundaryBefore, dif_neg h]

theorem boundaryBefore_le (s : String) (i : Nat) : (boundaryBefore s i).offset.byteIdx ≤ i := by
  induction i with
  | zero => exact Nat.le_refl 0
  | succ i ih =>
    by_cases h : Pos.Raw.IsValid s ⟨i + 1⟩
    · exact Nat.le_of_eq (congrArg (·.offset.byteIdx) (boundaryBefore_of_isValid h))
    · rw [boundaryBefore_of_not_isValid h]
      omega

theorem le_boundaryBefore {s : String} {i j : Nat} (hj : j ≤ i) (hvalid : Pos.Raw.IsValid s ⟨j⟩) :
    j ≤ (boundaryBefore s i).offset.byteIdx := by
  induction i with
  | zero => omega
  | succ i ih =>
    by_cases h : Pos.Raw.IsValid s ⟨i + 1⟩
    · rw [boundaryBefore_of_isValid h]
      exact hj
    · rw [boundaryBefore_of_not_isValid h]
      have hne : j ≠ i + 1 := fun heq => h (heq ▸ hvalid)
      exact ih (by omega)

/-- Going back comes to the same place as going forth by whole characters. -/
theorem byteIdx_boundaryBefore (s : String) (i : Nat) :
    (boundaryBefore s i).offset.byteIdx = byteLength (cut i s.toList) := by
  apply Nat.le_antisymm
  · obtain ⟨as, hstart, hlength⟩ := isValid_iff_byteLength.1 (boundaryBefore s i).isValid
    have hfits : byteLength as ≤ i := by
      rw [hlength]
      exact boundaryBefore_le s i
    rw [← hlength]
    obtain ⟨rest, hrest⟩ := prefix_cut hstart hfits
    rw [← hrest, byteLength_append]
    omega
  · exact le_boundaryBefore (byteLength_cut_le i s.toList)
      (isValid_iff_byteLength.2 ⟨_, cut_isPrefix i s.toList, rfl⟩)

theorem toList_clip (limit : Nat) (s : String) : (clip limit s).toList = cut limit s.toList := by
  unfold clip
  split
  next =>
    -- The place splits the text, and what is in front of it has the length of the cut.
    have hsplits := (boundaryBefore s limit).splits
    generalize (s.sliceTo (boundaryBefore s limit)).copy = front at hsplits
    have hfront : String.extract s.startPos (boundaryBefore s limit) = front := by
      rw [← String.toByteArray_inj, String.toByteArray_extract, hsplits.toByteArray_left_eq]
      rfl
    have hlength : byteLength front.toList = byteLength (cut limit s.toList) := by
      rw [← byteIdx_boundaryBefore, byteLength_toList, hsplits.offset_eq_rawEndPos]
      rfl
    have hstart : front.toList <+: s.toList := by
      rw [hsplits.eq_append, String.toList_append]
      exact List.prefix_append ..
    rw [hfront]
    apply eq_of_prefix_of_byteLength_le _ (Nat.le_of_eq hlength.symm)
    exact prefix_cut hstart (hlength ▸ byteLength_cut_le limit s.toList)
  next h =>
    rw [cut_of_le]
    rw [byteLength_toList]
    omega

/-! The same places told from the bytes. -/

theorem length_bytes (s : String) : (bytes s).length = s.utf8ByteSize := by
  rw [← encode_toList, length_encode, byteLength_toList]

def carriesOn (b : UInt8) : Bool := 0x80 ≤ b && b < 0xc0

theorem lt_of_mem_utf8EncodeChar {c : Char} {b : UInt8} (hb : b ∈ String.utf8EncodeChar c) :
    b.toNat < 0xf8 := by
  rw [String.utf8EncodeChar.eq_1] at hb
  split at hb
  · rw [List.mem_singleton] at hb
    rw [hb, UInt8.toNat_ofNat']
    omega
  split at hb
  · simp only [List.mem_cons, List.not_mem_nil, or_false] at hb
    rcases hb with rfl | rfl <;> rw [UInt8.toNat_ofNat'] <;> omega
  split at hb
  · simp only [List.mem_cons, List.not_mem_nil, or_false] at hb
    rcases hb with rfl | rfl | rfl <;> rw [UInt8.toNat_ofNat'] <;> omega
  · simp only [List.mem_cons, List.not_mem_nil, or_false] at hb
    rcases hb with rfl | rfl | rfl | rfl <;> rw [UInt8.toNat_ofNat'] <;> omega

theorem isUTF8FirstByte_iff {s : String} {b : UInt8} (h : b ∈ bytes s) :
    b.IsUTF8FirstByte ↔ carriesOn b = false := by
  have hall : ∀ n < 0xf8, (UInt8.ofNat n).IsUTF8FirstByte ↔ carriesOn (UInt8.ofNat n) = false := by
    decide +kernel
  rw [← encode_toList, encode, List.mem_flatMap] at h
  obtain ⟨c, -, hb⟩ := h
  simpa using hall b.toNat (lt_of_mem_utf8EncodeChar hb)

theorem getElem?_bytes {s : String} {i : Nat} (h : (⟨i⟩ : String.Pos.Raw) < s.rawEndPos) :
    (bytes s)[i]? = some (s.getUTF8Byte ⟨i⟩ h) := by
  have hsize : i < s.toByteArray.data.size := h
  rw [bytes, Array.getElem?_toList, Array.getElem?_eq_getElem hsize]
  rfl

theorem isValid_iff_getElem? {s : String} {i : Nat} :
    Pos.Raw.IsValid s ⟨i⟩ ↔
      i = s.utf8ByteSize ∨ ∃ b, (bytes s)[i]? = some b ∧ carriesOn b = false := by
  have hend : (⟨i⟩ : String.Pos.Raw) = s.rawEndPos ↔ i = s.utf8ByteSize := String.Pos.Raw.ext_iff
  rw [String.Pos.Raw.isValid_iff_isUTF8FirstByte, hend]
  apply or_congr Iff.rfl
  constructor
  · rintro ⟨h, hfirst⟩
    have hbyte := getElem?_bytes h
    exact ⟨_, hbyte, (isUTF8FirstByte_iff (List.mem_of_getElem? hbyte)).1 hfirst⟩
  · rintro ⟨b, hbyte, hb⟩
    have hlt : i < (bytes s).length := (List.getElem?_eq_some_iff.1 hbyte).1
    have h : (⟨i⟩ : String.Pos.Raw) < s.rawEndPos := hlt
    obtain rfl : s.getUTF8Byte ⟨i⟩ h = b := Option.some.inj ((getElem?_bytes h).symm.trans hbyte)
    exact ⟨h, (isUTF8FirstByte_iff (List.mem_of_getElem? hbyte)).2 hb⟩

/-- Going back from byte `i`, one byte at a time and only from those that carry on a character, comes
to byte `j`. -/
inductive Retreats (s : String) : Nat → Nat → Prop
  | refl (i : Nat) : Retreats s i i
  | back {i j : Nat} {b : UInt8} (hbyte : (bytes s)[i + 1]? = some b) (hb : carriesOn b = true)
    (h : Retreats s i j) : Retreats s (i + 1) j

theorem not_isValid_of_carriesOn {s : String} {i : Nat} {b : UInt8} (hbyte : (bytes s)[i]? = some b)
    (hb : carriesOn b = true) : ¬ Pos.Raw.IsValid s ⟨i⟩ := by
  rw [isValid_iff_getElem?]
  rintro (rfl | ⟨b', hbyte', hb'⟩)
  · have hlt := (List.getElem?_eq_some_iff.1 hbyte).1
    rw [length_bytes] at hlt
    omega
  · rw [hbyte] at hbyte'
    cases hbyte'
    rw [hb] at hb'
    contradiction

theorem retreats_boundaryBefore {s : String} {i : Nat} (h : i < s.utf8ByteSize) :
    Retreats s i (boundaryBefore s i).offset.byteIdx := by
  induction i with
  | zero => exact .refl 0
  | succ i ih =>
    by_cases hvalid : Pos.Raw.IsValid s ⟨i + 1⟩
    · rw [boundaryBefore_of_isValid hvalid]
      exact .refl (i + 1)
    · rw [boundaryBefore_of_not_isValid hvalid]
      have hbyte := getElem?_bytes (s := s) (i := i + 1) h
      refine .back hbyte ?_ (ih (by omega))
      rw [isValid_iff_getElem?] at hvalid
      cases hb : carriesOn (s.getUTF8Byte ⟨i + 1⟩ h) with
      | true => rfl
      | false => exact absurd (.inr ⟨_, hbyte, hb⟩) hvalid

theorem Retreats.boundaryBefore_le {s : String} {i j : Nat} (h : Retreats s i j) :
    (boundaryBefore s i).offset.byteIdx ≤ j := by
  induction h with
  | refl i => exact Text.boundaryBefore_le s i
  | back hbyte hb h ih =>
    rw [boundaryBefore_of_not_isValid (not_isValid_of_carriesOn hbyte hb)]
    exact ih

/-! The start of a text as a start of its bytes. -/

theorem toByteArray_bytes (s : String) : (bytes s).toByteArray = s.toByteArray := by
  rw [← encode_toList]
  exact String.utf8Encode_toList

theorem isValid_of_isPrefix_bytes {s t : String} (h : bytes t <+: bytes s) :
    Pos.Raw.IsValid s ⟨t.utf8ByteSize⟩ := by
  have hle := h.length_le
  obtain ⟨rest, hrest⟩ := h
  have happend : s.toByteArray = t.toByteArray ++ rest.toByteArray := by
    rw [← toByteArray_bytes s, ← hrest, List.toByteArray_append, toByteArray_bytes]
  rw [length_bytes, length_bytes] at hle
  have hvalid : (s.toByteArray.extract 0 t.utf8ByteSize).IsValidUTF8 := by
    rw [happend, ByteArray.extract_append_eq_left String.size_toByteArray.symm]
    exact t.isValidUTF8
  exact String.Pos.Raw.isValid_iff_isValidUTF8_extract_zero.2 ⟨hle, hvalid⟩

section Clip

variable (limit : Nat) (s : String)

theorem utf8ByteSize_clip : (clip limit s).utf8ByteSize = (boundaryBefore s limit).offset.byteIdx := by
  rw [← byteLength_toList, toList_clip, byteIdx_boundaryBefore]

theorem bytes_clip_isPrefix : bytes (clip limit s) <+: bytes s := by
  obtain ⟨rest, hrest⟩ := cut_isPrefix limit s.toList
  rw [← encode_toList, ← encode_toList, toList_clip, ← hrest, encode_append, hrest]
  exact List.prefix_append ..

theorem utf8ByteSize_clip_le : (clip limit s).utf8ByteSize ≤ limit := by
  rw [utf8ByteSize_clip]
  exact boundaryBefore_le s limit

variable {limit s}

theorem bytes_prefix_clip {t : String} (hstart : bytes t <+: bytes s)
    (hfits : t.utf8ByteSize ≤ limit) : bytes t <+: bytes (clip limit s) := by
  apply List.prefix_of_prefix_length_le hstart (bytes_clip_isPrefix limit s)
  rw [length_bytes, length_bytes, utf8ByteSize_clip]
  exact le_boundaryBefore hfits (isValid_of_isPrefix_bytes hstart)

theorem clip_of_le (h : s.utf8ByteSize ≤ limit) : clip limit s = s := by
  rw [clip, if_neg (by omega)]

theorem lt_utf8ByteSize_clip (h : limit < s.utf8ByteSize) :
    limit < (clip limit s).utf8ByteSize + 4 := by
  rw [← byteLength_toList] at h
  rw [← byteLength_toList, toList_clip]
  exact lt_byteLength_cut h

end Clip

/-- The message of an error is the longest start of its text that is a text itself and takes at most
255 bytes. A text that fits is the message. Of every other text the message takes no less than 252
bytes, and it ends where going back from byte 255 over the bytes that carry on a character comes to an
end, which is before it could pass byte 252. -/
theorem clip_longest (s : String) :
    (∀ e : Error, e.text = s → e.message = clip 255 s) ∧
    bytes (clip 255 s) <+: bytes s ∧ Pos.Raw.IsValid s ⟨(clip 255 s).utf8ByteSize⟩ ∧
    (clip 255 s).utf8ByteSize ≤ 255 ∧
    (∀ t : String, bytes t <+: bytes s → t.utf8ByteSize ≤ 255 → bytes t <+: bytes (clip 255 s)) ∧
    (s.utf8ByteSize ≤ 255 → clip 255 s = s) ∧
    (255 < s.utf8ByteSize →
      252 ≤ (clip 255 s).utf8ByteSize ∧
      (boundaryBefore s 255).offset.byteIdx = (clip 255 s).utf8ByteSize ∧
      Retreats s 255 (clip 255 s).utf8ByteSize ∧ ∀ j, Retreats s 255 j → 252 ≤ j) := by
  have hstart := bytes_clip_isPrefix 255 s
  refine ⟨?_, hstart, isValid_of_isPrefix_bytes hstart, utf8ByteSize_clip_le 255 s,
    fun t => bytes_prefix_clip, clip_of_le, fun hlong => ?_⟩
  · rintro e rfl
    rfl
  · have hsize := utf8ByteSize_clip 255 s
    have hlast : 252 ≤ (clip 255 s).utf8ByteSize := by
      have hgap := lt_utf8ByteSize_clip hlong
      omega
    refine ⟨hlast, hsize.symm, ?_, fun j hj => ?_⟩
    · rw [hsize]
      exact retreats_boundaryBefore hlong
    · have hstop := hj.boundaryBefore_le
      omega

theorem clip_longest_three_back :
    255 < (String.ofList (List.replicate 252 'x' ++ ['😀'])).utf8ByteSize ∧
      (clip 255 (String.ofList (List.replicate 252 'x' ++ ['😀']))).utf8ByteSize = 252 ∧
      Retreats (String.ofList (List.replicate 252 'x' ++ ['😀'])) 255 252 := by
  have hlong : 255 < (String.ofList (List.replicate 252 'x' ++ ['😀'])).utf8ByteSize := by
    decide +kernel
  have hsize : (clip 255 (String.ofList (List.replicate 252 'x' ++ ['😀']))).utf8ByteSize = 252 := by
    rw [utf8ByteSize_clip, byteIdx_boundaryBefore, String.toList_ofList]
    decide +kernel
  obtain ⟨-, -, -, -, -, -, hback⟩ := clip_longest (String.ofList (List.replicate 252 'x' ++ ['😀']))
  obtain ⟨-, -, hretreats, -⟩ := hback hlong
  rw [hsize] at hretreats
  exact ⟨hlong, hsize, hretreats⟩

end Reckoner.Text
