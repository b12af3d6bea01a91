import Reckoner.Native.Streamed
import Reckoner.Proofs.Expr.Graph

/-! The machine that takes streams for its code computes every program, whatever stands behind its
code: reading stops at the mark, and the builder puts the values together as they were. -/
namespace Reckoner

theorem Decoded.instrs_flatMap_encode_append (instrs : List Instr) (offset : Nat)
    (rest : List UInt8) :
    (Decoded.ofBytes 0 offset (instrs.flatMap Instr.encode ++ rest)).instrs =
      Instr.located offset instrs ++
        (Decoded.ofBytes 0 (offset + (instrs.flatMap Instr.encode).length) rest).instrs := by
  induction instrs generalizing offset with
  | nil => rfl
  | cons i instrs ih =>
    rw [List.flatMap_cons, List.append_assoc, Decoded.ofBytes_encode, Decoded.cons, ih,
      List.length_append, i.length_encode, Nat.add_assoc]
    rfl

namespace Native

theorem Value.foldl_push_emit (v : Value) (rest : List Instr) (b : Builder) :
    ∃ after, (v.emit rest).foldl Builder.push b = rest.foldl Builder.push after ∧
      after.stack = v :: b.stack := by
  induction v generalizing rest b with
  | imm v => exact ⟨b.push (.imm v), rfl, rfl⟩
  | arg i => exact ⟨b.push (.arg i), rfl, rfl⟩
  | binary op l r ihl ihr =>
    obtain ⟨left, hleft, hstack⟩ := ihl (r.emit (.binary op :: rest)) b
    obtain ⟨right, hright, hstack'⟩ := ihr (.binary op :: rest) left
    rw [hstack] at hstack'
    exact ⟨right.push (.binary op), by rw [emit, hleft, hright, List.foldl_cons],
      Builder.stack_push_binary hstack' op⟩
  | call f x ih =>
    obtain ⟨operand, hoperand, hstack⟩ := ih (.unary (.call f) :: rest) b
    exact ⟨operand.push (.unary (.call f)), by rw [emit, hoperand, List.foldl_cons],
      Builder.stack_push_call hstack f⟩

namespace Target

theorem execute_streamCode (A : Arithmetic) (least : Nat) (p : Program) (rest : List UInt8)
    (args : List Single) :
    (streamed A least).execute (streamCode least p ++ rest) args = p.run A args := by
  obtain ⟨built, hbuilt, hstack⟩ := p.result.foldl_push_emit [] .empty
  have hinstrs : (Stream.decode ⟨streamCode least p ++ rest⟩).instrs.map Prod.snd =
      p.result.emit [] := by
    rw [Stream.decode, streamCode, Stream.ofInstrs, List.append_assoc,
      Decoded.instrs_flatMap_encode_append]
    -- The mark is no instruction, so there is nothing behind it.
    exact (congrArg _ (List.append_nil _)).trans (Instr.map_snd_located 0 _)
  simp only [streamed, hinstrs, hbuilt, List.foldl_nil, hstack]
  rfl

theorem streamed_faithful (A : Arithmetic) (least : Nat) : (streamed A least).Faithful A := by
  rintro p _ ⟨⟩ rest args -
  exact execute_streamCode A least p rest args

theorem streamed_selfContained (A : Arithmetic) (least : Nat) :
    (streamed A least).SelfContained := by
  rintro p _ ⟨⟩ rest args
  have halone := execute_streamCode A least p [] args
  rw [List.append_nil] at halone
  rw [execute_streamCode, halone]

end Target

end Native

end Reckoner
