import Reckoner.Proofs.Bytecode.RoundTrip

/-! Reading arbitrary bytes. What one reading can do is said once (`Cursor.read_outcome`); reading on
and on is then an induction over the cursor. Instructions that were read are written back as the
bytes they were read from, except that the high half of a byte that an operand follows is lost. -/
namespace Reckoner

theorem Bytecode.ofBytes_lt (bytes : List UInt8) : ofBytes bytes < Nat.pow 256 bytes.length := by
  induction bytes with
  | nil => decide
  | cons b bytes ih =>
    have hb : b.toNat < 256 := b.toNat_lt
    have hpow : Nat.pow 256 (bytes.length + 1) = 256 * Nat.pow 256 bytes.length := Nat.mul_comm _ _
    rw [ofBytes, List.length_cons, hpow]
    omega

theorem OpClass.eq_code_of_ofCode? {n : UInt8} {k : OpClass} (h : ofCode? n = some k) :
    n = k.code := by
  grind [ofCode?, code]

theorem Unary.eq_code_of_ofCode? {n : UInt8} {u : Unary} (h : ofCode? n = some u) : n = u.code := by
  grind [ofCode?, code]

theorem Operator.eq_code_of_ofCode? {n : UInt8} {op : Operator} (h : ofCode? n = some op) :
    n = op.code := by
  grind [ofCode?, code]

theorem Bytecode.halves (b : UInt8) : b % 16 + 16 * (b / 16) = b := by
  have hb := b.toNat_lt
  apply UInt8.toNat_inj.1
  simp only [UInt8.toNat_add, UInt8.toNat_mod, UInt8.toNat_mul, UInt8.toNat_div, UInt8.reduceToNat]
  omega

def StreamError.offset? : StreamError → Option Nat
  | unknownClass _ offset | unknownSubtype _ _ offset | truncated offset _ _ | underflow offset =>
    some offset
  | finalDepth _ => none

namespace Instr

/-- Whether an operand follows the first byte, of which the high half is then ignored. -/
def hasOperand : Instr → Bool
  | arg _ | imm _ => true
  | unary _ | binary _ => false

def firstByte (i : Instr) (first : UInt8) : UInt8 := if i.hasOperand then first % 16 else first

end Instr

namespace Cursor

inductive Outcome (c : Cursor) : Except StreamError (Option (Instr × Cursor)) → Prop
  | finished (hrest : c.rest = []) : Outcome c (.ok none)
  | item (i : Instr) (first : UInt8) (operand rest : List UInt8)
    (hrest : c.rest = first :: (operand ++ rest))
    (hencode : i.encode = i.firstByte first :: operand) :
    Outcome c (.ok (some (i, ⟨c.offset + i.size, rest⟩)))
  | defect (e : StreamError) (hrest : c.rest ≠ []) (hoffset : e.offset? = some c.offset) :
    Outcome c (.error e)

theorem payload_outcome (offset : Nat) (first : UInt8) (bytes : List UInt8) (n : Nat) :
    (payload ⟨offset, first :: bytes⟩ n = .ok (bytes.take n) ∧
      Bytecode.ofBytes (bytes.take n) < Nat.pow 256 n ∧
      Bytecode.toBytes n (Bytecode.ofBytes (bytes.take n)) = bytes.take n) ∨
    ∃ e, payload ⟨offset, first :: bytes⟩ n = .error e ∧ e.offset? = some offset := by
  by_cases h : (bytes.take n).length < n
  · exact .inr ⟨_, if_pos h, rfl⟩
  · have hle := List.length_take_le n bytes
    have hlength : (bytes.take n).length = n := by omega
    have hlt := Bytecode.ofBytes_lt (bytes.take n)
    have hbytes := Bytecode.toBytes_ofBytes (bytes.take n)
    rw [hlength] at hlt hbytes
    exact .inl ⟨if_neg h, hlt, hbytes⟩

theorem readArg_outcome (offset : Nat) (first : UInt8) (bytes : List UInt8)
    (hfirst : first % 16 = OpClass.argument.code) :
    Outcome ⟨offset, first :: bytes⟩
      ((readArg ⟨offset, first :: bytes⟩).map fun (i, c) => some (.arg i, c)) := by
  unfold readArg
  rcases payload_outcome offset first bytes 2 with ⟨hpayload, hlt, hbytes⟩ | ⟨e, hpayload, hoffset⟩
  · have hindex : (Bytecode.ofBytes (bytes.take 2)).toUInt16.toNat = Bytecode.ofBytes (bytes.take 2) :=
      UInt16.toNat_ofNat_of_lt' hlt
    rw [hpayload]
    refine .item _ first (bytes.take 2) (bytes.drop 2) (by simp) ?_
    simp only [Instr.encode, Instr.firstByte, Instr.hasOperand, hindex, hbytes, hfirst, if_true]
  · rw [hpayload]
    exact .defect e (by simp) hoffset

theorem readImm_outcome (offset : Nat) (first : UInt8) (bytes : List UInt8)
    (hfirst : first % 16 = OpClass.immediate.code) :
    Outcome ⟨offset, first :: bytes⟩
      ((readImm ⟨offset, first :: bytes⟩).map fun (v, c) => some (.imm v, c)) := by
  unfold readImm
  rcases payload_outcome offset first bytes 4 with ⟨hpayload, hlt, hbytes⟩ | ⟨e, hpayload, hoffset⟩
  · have hvalue : (Bytecode.ofBytes (bytes.take 4)).toUInt32.toNat = Bytecode.ofBytes (bytes.take 4) :=
      UInt32.toNat_ofNat_of_lt' hlt
    rw [hpayload]
    refine .item _ first (bytes.take 4) (bytes.drop 4) (by simp) ?_
    simp only [Instr.encode, Instr.firstByte, Instr.hasOperand, hvalue, hbytes, hfirst, if_true]
  · rw [hpayload]
    exact .defect e (by simp) hoffset

theorem readUnary_outcome (offset : Nat) (first : UInt8) (bytes : List UInt8)
    (hfirst : first % 16 = OpClass.unary.code) :
    Outcome ⟨offset, first :: bytes⟩
      ((readUnary ⟨offset, first :: bytes⟩).map fun (u, c) => some (.unary u, c)) := by
  unfold readUnary
  cases hcode : Unary.ofCode? (subtype ⟨offset, first :: bytes⟩) with
  | none => exact .defect _ (by simp) rfl
  | some u =>
    refine .item (.unary u) first [] bytes rfl ?_
    have hhigh : first / 16 = u.code := Unary.eq_code_of_ofCode? hcode
    rw [Instr.encode, ← hfirst, ← hhigh, Bytecode.halves]
    rfl

theorem readBinary_outcome (offset : Nat) (first : UInt8) (bytes : List UInt8)
    (hfirst : first % 16 = OpClass.binary.code) :
    Outcome ⟨offset, first :: bytes⟩
      ((readBinary ⟨offset, first :: bytes⟩).map fun (op, c) => some (.binary op, c)) := by
  unfold readBinary
  cases hcode : Operator.ofCode? (subtype ⟨offset, first :: bytes⟩) with
  | none => exact .defect _ (by simp) rfl
  | some op =>
    refine .item (.binary op) first [] bytes rfl ?_
    have hhigh : first / 16 = op.code := Operator.eq_code_of_ofCode? hcode
    rw [Instr.encode, ← hfirst, ← hhigh, Bytecode.halves]
    rfl

theorem read_outcome (c : Cursor) : c.Outcome c.read := by
  obtain ⟨offset, bytes⟩ := c
  cases bytes with
  | nil => exact .finished rfl
  | cons first bytes =>
    cases hcode : OpClass.ofCode? (first % 16) with
    | none =>
      have hclass : opClass ⟨offset, first :: bytes⟩ = .error (.unknownClass (first % 16) offset) := by
        simp only [opClass, hcode]
      rw [read, hclass]
      exact .defect _ (by simp) rfl
    | some k =>
      have hfirst := OpClass.eq_code_of_ofCode? hcode
      have hclass : opClass ⟨offset, first :: bytes⟩ = .ok (some k) := by
        simp only [opClass, hcode]
      rw [read, hclass]
      cases k with
      | argument => exact readArg_outcome offset first bytes hfirst
      | immediate => exact readImm_outcome offset first bytes hfirst
      | unary => exact readUnary_outcome offset first bytes hfirst
      | binary => exact readBinary_outcome offset first bytes hfirst

/-- Reading goes on until the end or a defect, since every item takes bytes away. -/
@[elab_as_elim]
theorem readInduction {motive : Cursor → Prop}
    (finished : ∀ c, c.read = .ok none → motive c)
    (defect : ∀ c e, c.read = .error e → motive c)
    (item : ∀ c i next, c.read = .ok (some (i, next)) → motive next → motive c)
    (c : Cursor) : motive c := by
  generalize hlength : c.rest.length = n
  induction n using Nat.strongRecOn generalizing c with
  | _ n ih =>
    have houtcome := c.read_outcome
    cases hread : c.read with
    | error e => exact defect c e hread
    | ok found =>
      cases found with
      | none => exact finished c hread
      | some entry =>
        obtain ⟨i, next⟩ := entry
        refine item c i next hread (ih next.rest.length ?_ next rfl)
        rw [hread] at houtcome
        cases houtcome with
        | item _ first operand rest hrest _ =>
          simp only [hrest, List.length_cons, List.length_append] at hlength
          dsimp only
          omega

inductive Produces : Cursor → List (Except StreamError Instr) → Cursor → Prop
  | nil (c : Cursor) : Produces c [] c
  | cons {c next last : Cursor} {x : Except StreamError Instr}
    {xs : List (Except StreamError Instr)} (hnext : c.next = (some x, next))
    (hrest : Produces next xs last) : Produces c (x :: xs) last

/-- `c.Yields items`: the calls of `next` give these items and no more. -/
def Yields (c : Cursor) (items : List (Except StreamError Instr)) : Prop :=
  ∃ last, c.Produces items last ∧ last.next = (none, last)

end Cursor

theorem Decoded.ofBytes_cursor (c : Cursor) :
    Decoded.ofBytes 0 c.offset c.rest =
      match c.read with
      | .ok (some (i, next)) => (Decoded.ofBytes 0 next.offset next.rest).cons c.offset i
      | .ok none => ⟨[], c.offset, none⟩
      | .error e => ⟨[], c.offset, some e⟩ := by
  have houtcome := c.read_outcome
  obtain ⟨offset, bytes⟩ := c
  cases bytes with
  | nil => rfl
  | cons first bytes =>
    rw [Decoded.ofBytes]
    cases hread : Cursor.read ⟨offset, first :: bytes⟩ with
    | error e => rfl
    | ok found =>
      rw [hread] at houtcome
      cases houtcome with
      | finished hrest => contradiction
      | item i _ operand rest hrest hencode =>
        obtain ⟨rfl, rfl⟩ := List.cons.inj hrest
        have hsize := i.length_encode
        rw [hencode, List.length_cons] at hsize
        have hoperand : i.size - 1 = operand.length := by omega
        dsimp only
        rw [hoperand, Decoded.ofBytes_skip, ← hsize]
        congr 2
        omega

namespace Instr

inductive ReadFrom : List Instr → List UInt8 → Prop
  | nil : ReadFrom [] []
  | cons {i : Instr} {first : UInt8} {operand bytes : List UInt8} {rest : List Instr}
    (hencode : i.encode = i.firstByte first :: operand) (hrest : ReadFrom rest bytes) :
    ReadFrom (i :: rest) (first :: (operand ++ bytes))

theorem ReadFrom.length_eq {instrs : List Instr} {bytes : List UInt8} (h : ReadFrom instrs bytes) :
    (instrs.flatMap encode).length = bytes.length := by
  induction h with
  | nil => rfl
  | cons hencode hrest ih => simp [hencode, ih]

theorem le_of_mem_located {offset : Nat} {instrs : List Instr} {entry : Nat × Instr}
    (h : entry ∈ located offset instrs) : offset ≤ entry.1 := by
  induction instrs generalizing offset with
  | nil => contradiction
  | cons i rest ih =>
    rcases List.mem_cons.1 h with rfl | h
    · exact Nat.le_refl _
    · have hle := ih h
      omega

/-- The byte at a position, less its high half if it is the first of an instruction with an
operand. -/
def cleared (entries : List (Nat × Instr)) (position : Nat) (b : UInt8) : UInt8 :=
  if entries.any fun entry => entry.1 = position && entry.2.hasOperand then b % 16 else b

theorem cleared_cons_self (offset : Nat) (i : Instr) (rest : List Instr) (b : UInt8) :
    cleared (located offset (i :: rest)) offset b = i.firstByte b := by
  have hsize : 0 < i.size := by cases i <;> simp [size]
  have hrest : ((located (offset + i.size) rest).any
      fun entry => entry.1 = offset && entry.2.hasOperand) = false := by
    rw [List.any_eq_false]
    intro entry hentry
    have hle := le_of_mem_located hentry
    have hne : entry.1 ≠ offset := by omega
    simp [hne]
  simp [cleared, located, firstByte, hrest]

theorem cleared_cons_operand {offset position : Nat} (i : Instr) (rest : List Instr) (b : UInt8)
    (hlower : offset < position) (hupper : position < offset + i.size) :
    cleared (located offset (i :: rest)) position b = b := by
  refine if_neg ?_
  rw [Bool.not_eq_true, List.any_eq_false]
  intro entry hentry
  have hne : entry.1 ≠ position := by
    rcases List.mem_cons.1 hentry with rfl | hentry
    · exact Nat.ne_of_lt hlower
    · have hle := le_of_mem_located hentry
      omega
  simp [hne]

theorem cleared_cons_rest {offset position : Nat} (i : Instr) (rest : List Instr) (b : UInt8)
    (hlower : offset < position) :
    cleared (located offset (i :: rest)) position b =
      cleared (located (offset + i.size) rest) position b := by
  have hne : decide (offset = position) = false := decide_eq_false (Nat.ne_of_lt hlower)
  simp only [cleared, located, List.any_cons, hne, Bool.false_and, Bool.false_or]

theorem ReadFrom.flatMap_encode {instrs : List Instr} {bytes : List UInt8}
    (h : ReadFrom instrs bytes) (offset : Nat) :
    instrs.flatMap encode =
      bytes.mapIdx fun position b => cleared (located offset instrs) (offset + position) b := by
  induction h generalizing offset with
  | nil => rfl
  | @cons i first operand bytes rest hencode hrest ih =>
    have hsize := i.length_encode
    rw [hencode, List.length_cons] at hsize
    rw [List.flatMap_cons, hencode, List.mapIdx_cons, List.mapIdx_append, Nat.add_zero,
      cleared_cons_self, List.cons_append]
    congr 2
    · refine List.ext_getElem (by simp) ?_
      intro k hk _
      rw [List.getElem_mapIdx, cleared_cons_operand i rest _ (by omega) (by omega)]
    · rw [ih (offset + i.size)]
      congr 1
      funext k b
      rw [cleared_cons_rest i rest b (by omega)]
      congr 1
      omega

end Instr

theorem Cursor.decode_outcome (c : Cursor) :
    ∃ (instrs : List Instr) (bytes rest : List UInt8) (fault : Option StreamError),
      c.rest = bytes ++ rest ∧ Instr.ReadFrom instrs bytes ∧
      Decoded.ofBytes 0 c.offset c.rest =
        ⟨Instr.located c.offset instrs, c.offset + bytes.length, fault⟩ ∧
      c.Produces (instrs.map .ok) ⟨c.offset + bytes.length, rest⟩ ∧
      Cursor.read ⟨c.offset + bytes.length, rest⟩ =
        match fault with
        | none => .ok none
        | some e => .error e := by
  induction c using Cursor.readInduction with
  | finished c hread =>
    refine ⟨[], [], c.rest, none, rfl, .nil, ?_, .nil c, hread⟩
    rw [Decoded.ofBytes_cursor, hread]
    rfl
  | defect c e hread =>
    refine ⟨[], [], c.rest, some e, rfl, .nil, ?_, .nil c, hread⟩
    rw [Decoded.ofBytes_cursor, hread]
    rfl
  | item c i next hread ih =>
    obtain ⟨instrs, bytes, rest, fault, hrest, hfrom, hdecode, hproduces, hend⟩ := ih
    have houtcome := c.read_outcome
    rw [hread] at houtcome
    cases houtcome with
    | item _ first operand between hbytes hencode =>
      have hsize := i.length_encode
      rw [hencode, List.length_cons] at hsize
      dsimp only at hrest hdecode hproduces hend
      have hstop : c.offset + (first :: (operand ++ bytes)).length =
          c.offset + i.size + bytes.length := by
        simp only [List.length_cons, List.length_append]
        omega
      have hnext : c.next = (some (.ok i), ⟨c.offset + i.size, between⟩) := by
        rw [Cursor.next, hread]
      refine ⟨i :: instrs, first :: (operand ++ bytes), rest, fault, ?_, .cons hencode hfrom, ?_, ?_,
        ?_⟩
      · rw [hbytes, hrest]
        simp
      · rw [Decoded.ofBytes_cursor, hread, hstop]
        dsimp only
        rw [hdecode]
        rfl
      · rw [hstop]
        exact .cons hnext hproduces
      · rw [hstop]
        exact hend

theorem Cursor.yields_of_finished {c : Cursor} (hread : c.read = .ok none) : c.Yields [] :=
  ⟨c, .nil c, by rw [Cursor.next, hread]⟩

theorem Cursor.yields_of_defect {c : Cursor} {e : StreamError} (hread : c.read = .error e) :
    c.Yields [.error e] := by
  -- After a defect the cursor is at the end of the bytes, where nothing is left to be read.
  have hnext : c.next = (some (.error e), ⟨c.offset + c.rest.length, []⟩) := by
    rw [Cursor.next, hread, Cursor.advance, List.drop_length]
  exact ⟨_, .cons hnext (.nil _), rfl⟩

theorem Stream.bytes_foldl_write (s : Stream) (instrs : List Instr) :
    (instrs.foldl Stream.write s).bytes = s.bytes ++ instrs.flatMap Instr.encode := by
  induction instrs generalizing s with
  | nil => simp
  | cons i rest ih =>
    rw [List.foldl_cons, ih, List.flatMap_cons, Stream.write, List.append_assoc]

theorem Cursor.produces_encode (instrs : List Instr) (offset : Nat) (rest : List UInt8) :
    Cursor.Produces ⟨offset, instrs.flatMap Instr.encode ++ rest⟩ (instrs.map .ok)
      ⟨offset + (instrs.flatMap Instr.encode).length, rest⟩ := by
  induction instrs generalizing offset with
  | nil => exact .nil _
  | cons i instrs ih =>
    have hread := Cursor.read_encode i offset (instrs.flatMap Instr.encode ++ rest)
    rw [List.flatMap_cons, List.length_append, i.length_encode, List.append_assoc, ← Nat.add_assoc]
    refine .cons ?_ (ih (offset + i.size))
    rw [Cursor.next, hread]

/-- Instructions that were written one after another are what the stream yields. Every stream
yields instructions and then at most one defect, which is found at the byte behind them; writing the
instructions gives the bytes up to there, with the high half cleared where an operand follows. -/
theorem Stream.yields_written :
    (∀ instrs : List Instr, (instrs.foldl Stream.write .empty).cursor.Yields (instrs.map .ok)) ∧
    ∀ s : Stream, ∃ (instrs : List Instr) (stop : Cursor) (fault : Option StreamError),
      s.cursor.Produces (instrs.map .ok) stop ∧
      stop.Yields (fault.toList.map .error) ∧
      s.decode = ⟨Instr.located 0 instrs, stop.offset, fault⟩ ∧
      stop.rest = s.bytes.drop stop.offset ∧
      (instrs.foldl Stream.write .empty).length = stop.offset ∧
      (instrs.foldl Stream.write .empty).bytes =
        (s.bytes.take stop.offset).mapIdx (Instr.cleared (Instr.located 0 instrs)) ∧
      match fault with
      | none => stop.offset = s.length
      | some e => stop.offset < s.length ∧ e.offset? = some stop.offset := by
  refine ⟨fun instrs => ?_, fun s => ?_⟩
  · have hproduces := Cursor.produces_encode instrs 0 []
    rw [List.append_nil] at hproduces
    rw [Stream.cursor, Stream.bytes_foldl_write]
    exact ⟨_, hproduces, rfl⟩
  · obtain ⟨instrs, bytes, rest, fault, hbytes, hfrom, hdecode, hproduces, hread⟩ :=
      s.cursor.decode_outcome
    have hstart : s.cursor.offset = 0 := rfl
    rw [hstart, Nat.zero_add] at hdecode hproduces hread
    have hbytes : s.bytes = bytes ++ rest := hbytes
    have hwritten : (instrs.foldl Stream.write .empty).bytes = instrs.flatMap Instr.encode :=
      Stream.bytes_foldl_write .empty instrs
    refine ⟨instrs, ⟨bytes.length, rest⟩, fault, hproduces, ?_, hdecode, ?_, ?_, ?_, ?_⟩
    · cases fault with
      | none => exact Cursor.yields_of_finished hread
      | some e => exact Cursor.yields_of_defect hread
    · simp [hbytes]
    · rw [Stream.length, hwritten, hfrom.length_eq]
    · rw [hwritten, hfrom.flatMap_encode 0]
      simp [hbytes]
    · have houtcome := Cursor.read_outcome ⟨bytes.length, rest⟩
      rw [hread] at houtcome
      rw [Stream.length, hbytes, List.length_append]
      cases fault with
      | none =>
        cases houtcome with
        | finished hrest =>
          have hrest : rest = [] := hrest
          rw [hrest]
          rfl
      | some e =>
        cases houtcome with
        | defect _ hrest hoffset =>
          have hpos : 0 < rest.length := List.length_pos_iff.2 hrest
          exact ⟨by dsimp only; omega, hoffset⟩

end Reckoner
