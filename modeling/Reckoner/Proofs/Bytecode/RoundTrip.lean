import Reckoner.Bytecode.Stream

/-! Written instructions read back. Reading is stated with whatever bytes follow, so that a whole
stream is read instruction by instruction. -/
namespace Reckoner

theorem Cursor.payload_append (offset : Nat) (first : UInt8) (bytes rest : List UInt8) :
    Cursor.payload ⟨offset, first :: (bytes ++ rest)⟩ bytes.length = .ok bytes := by
  simp [Cursor.payload]

theorem Cursor.readArg_encode (index : UInt16) (offset : Nat) (rest : List UInt8) :
    Cursor.readArg ⟨offset, (Instr.arg index).encode ++ rest⟩ = .ok (index, ⟨offset + 3, rest⟩) := by
  have hbytes := Cursor.payload_append offset OpClass.argument.code
    (Bytecode.toBytes 2 index.toNat) rest
  rw [Bytecode.length_toBytes] at hbytes
  have hindex : (index.toNat % Nat.pow 256 2).toUInt16 = index := by
    have hlt : index.toNat < Nat.pow 256 2 := index.toNat_lt
    rw [Nat.mod_eq_of_lt hlt]
    exact UInt16.ofNat_toNat
  simp only [Cursor.readArg, Instr.encode, List.cons_append, hbytes, Bytecode.ofBytes_toBytes,
    hindex]
  simp [Cursor.advance, Bytecode.toBytes]

theorem Cursor.readImm_encode (value : Single) (offset : Nat) (rest : List UInt8) :
    Cursor.readImm ⟨offset, (Instr.imm value).encode ++ rest⟩ = .ok (value, ⟨offset + 5, rest⟩) := by
  have hbytes := Cursor.payload_append offset OpClass.immediate.code
    (Bytecode.toBytes 4 value.bits.toNat) rest
  rw [Bytecode.length_toBytes] at hbytes
  have hvalue : (value.bits.toNat % Nat.pow 256 4).toUInt32 = value.bits := by
    have hlt : value.bits.toNat < Nat.pow 256 4 := value.bits.toNat_lt
    rw [Nat.mod_eq_of_lt hlt]
    exact UInt32.ofNat_toNat
  simp only [Cursor.readImm, Instr.encode, List.cons_append, hbytes, Bytecode.ofBytes_toBytes,
    hvalue]
  simp [Cursor.advance, Bytecode.toBytes]

theorem Cursor.read_encode (i : Instr) (offset : Nat) (rest : List UInt8) :
    Cursor.read ⟨offset, i.encode ++ rest⟩ = .ok (some (i, ⟨offset + i.size, rest⟩)) := by
  cases i with
  | arg index =>
    have hread := Cursor.readArg_encode index offset rest
    have hclass : Cursor.opClass ⟨offset, (Instr.arg index).encode ++ rest⟩ = .ok (some .argument) :=
      rfl
    rw [Cursor.read, hclass]
    simp only [hread, Except.map, Instr.size]
  | imm value =>
    have hread := Cursor.readImm_encode value offset rest
    have hclass : Cursor.opClass ⟨offset, (Instr.imm value).encode ++ rest⟩ = .ok (some .immediate) :=
      rfl
    rw [Cursor.read, hclass]
    simp only [hread, Except.map, Instr.size]
  | unary u =>
    rcases u with f | _
    · cases f <;> rfl
    · rfl
  | binary op => cases op <;> rfl

namespace Instr

def located : Nat → List Instr → List (Nat × Instr)
  | _, [] => []
  | offset, i :: rest => (offset, i) :: located (offset + i.size) rest

@[simp] theorem map_snd_located (offset : Nat) (instrs : List Instr) :
    (located offset instrs).map Prod.snd = instrs := by
  induction instrs generalizing offset with
  | nil => rfl
  | cons i rest ih => simp [located, ih]

theorem encode_ne_nil (i : Instr) : i.encode ≠ [] := by
  cases i <;> simp [encode]

end Instr

theorem Decoded.ofBytes_skip (bytes rest : List UInt8) (offset : Nat) :
    Decoded.ofBytes bytes.length offset (bytes ++ rest) =
      Decoded.ofBytes 0 (offset + bytes.length) rest := by
  induction bytes generalizing offset with
  | nil => rfl
  | cons b bytes ih =>
    rw [List.length_cons, List.cons_append, Decoded.ofBytes, ih]
    congr 1
    omega

theorem Decoded.ofBytes_encode (i : Instr) (offset : Nat) (rest : List UInt8) :
    Decoded.ofBytes 0 offset (i.encode ++ rest) =
      (Decoded.ofBytes 0 (offset + i.size) rest).cons offset i := by
  have hread := Cursor.read_encode i offset rest
  have hsize := i.length_encode
  obtain ⟨first, operand, hbytes⟩ := List.exists_cons_of_ne_nil i.encode_ne_nil
  rw [hbytes] at hread hsize ⊢
  rw [List.length_cons] at hsize
  have hoperand : i.size - 1 = operand.length := by omega
  rw [List.cons_append] at hread ⊢
  rw [Decoded.ofBytes, hread]
  dsimp only
  rw [hoperand, Decoded.ofBytes_skip, ← hsize]
  congr 2
  omega

theorem Decoded.ofBytes_flatMap_encode (instrs : List Instr) (offset : Nat) :
    Decoded.ofBytes 0 offset (instrs.flatMap Instr.encode) =
      ⟨Instr.located offset instrs, offset + (instrs.flatMap Instr.encode).length, none⟩ := by
  induction instrs generalizing offset with
  | nil => rfl
  | cons i rest ih =>
    rw [List.flatMap_cons, Decoded.ofBytes_encode, ih, List.length_append, i.length_encode,
      ← Nat.add_assoc]
    rfl

theorem Stream.decode_ofInstrs (instrs : List Instr) :
    (Stream.ofInstrs instrs).decode =
      ⟨Instr.located 0 instrs, (instrs.flatMap Instr.encode).length, none⟩ := by
  rw [Stream.decode, Stream.ofInstrs, Decoded.ofBytes_flatMap_encode, Nat.zero_add]

end Reckoner
