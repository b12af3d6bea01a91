import Reckoner.Bytecode.Machine
import Reckoner.Bytecode.Shape
import Reckoner.Proofs.Bytecode.Decoding
import Reckoner.Proofs.Code.Discipline
import Reckoner.Proofs.Number.Whole

/-! The check of a stream says exactly what the interpreter will do. -/
namespace Reckoner

namespace Machine

variable {A : Arithmetic} {args : List Single}

theorem step_eq (m : Machine) :
    m.step A args =
      match m.cursor.read with
      | .error e => .error (.malformed e)
      | .ok none => .ok none
      | .ok (some (i, next)) =>
        match i.exec A args m.stack with
        | .ok stack => .ok (some ⟨next, stack⟩)
        | .error fault => .error (.ofFault m.cursor.offset fault) := by
  unfold step Cursor.read
  cases m.cursor.opClass with
  | error e => rfl
  | ok found =>
    cases found with
    | none => rfl
    | some k =>
      cases k with
      | argument =>
        cases m.cursor.readArg with
        | error e => rfl
        | ok entry =>
          obtain ⟨i, next⟩ := entry
          cases hget : args[i.toNat]? with
          | none => simp [Except.map, Instr.exec, hget, RunError.ofFault]
          | some x => simp [Except.map, Instr.exec, hget]
      | immediate =>
        cases m.cursor.readImm with
        | error e => rfl
        | ok entry => rfl
      | unary =>
        cases m.cursor.readUnary with
        | error e => rfl
        | ok entry =>
          obtain ⟨u, next⟩ := entry
          cases u <;> rcases m.stack with _ | ⟨x, below⟩ <;> rfl
      | binary =>
        cases m.cursor.readBinary with
        | error e => rfl
        | ok entry =>
          obtain ⟨op, next⟩ := entry
          rcases m.stack with _ | ⟨y, _ | ⟨x, below⟩⟩ <;> rfl

theorem Halts.unique {m : Machine} {r r' : Except RunError Single} (h : Halts A args m r)
    (h' : Halts A args m r') : r = r' := by
  induction h with
  | finished hstep => cases h' <;> simp_all
  | failed hstep => cases h' <;> simp_all
  | step hstep hrest ih =>
    cases h' with
    | finished hstep' => simp_all
    | failed hstep' => simp_all
    | step hstep' hrest' =>
      rw [hstep] at hstep'
      cases hstep'
      exact ih hrest'

theorem Peak.halted {m : Machine} (h : ∀ next, m.step A args ≠ .ok (some next)) :
    Peak A args m m.stack.length where
  bound n hn := by
    cases hn with
    | refl => exact Nat.le_refl _
    | step hstep _ => exact absurd hstep (h _)
  attained := ⟨m, .refl m, rfl⟩

theorem Peak.step {m next : Machine} {height : Nat} (hstep : m.step A args = .ok (some next))
    (h : Peak A args next height) : Peak A args m (max m.stack.length height) where
  bound n hn := by
    cases hn with
    | refl => exact Nat.le_max_left _ _
    | step hstep' hrest =>
      rw [hstep] at hstep'
      cases hstep'
      exact Nat.le_trans (h.bound n hrest) (Nat.le_max_right _ _)
  attained := by
    by_cases hle : height ≤ m.stack.length
    · exact ⟨m, .refl m, (Nat.max_eq_left hle).symm⟩
    · obtain ⟨n, hn, hheight⟩ := h.attained
      exact ⟨n, .step hstep hn, by omega⟩

end Machine

def Decoded.run (A : Arithmetic) (args : List Single) (d : Decoded) (stack : List Single) :
    Except RunError Single :=
  match Stream.runFrom A args d.instrs stack with
  | .error e => .error e
  | .ok stack =>
    match d.fault with
    | some e => .error (.malformed e)
    | none => Machine.result ⟨⟨d.stop, []⟩, stack⟩

theorem Stream.run_eq (A : Arithmetic) (args : List Single) (s : Stream) :
    s.run A args = s.decode.run A args [] := by
  unfold Stream.run Decoded.run Machine.result
  dsimp only
  cases Stream.runFrom A args s.decode.instrs [] with
  | error e => rfl
  | ok stack =>
    cases s.decode.fault with
    | some e => rfl
    | none => rcases stack with _ | ⟨x, _ | ⟨y, below⟩⟩ <;> rfl

/-- Decoding everything first and then running makes no difference. -/
theorem Machine.halts_run (A : Arithmetic) (args : List Single) (c : Cursor) (stack : List Single) :
    Halts A args ⟨c, stack⟩ ((Decoded.ofBytes 0 c.offset c.rest).run A args stack) := by
  induction c using Cursor.readInduction generalizing stack with
  | finished c hread =>
    have hstep : Machine.step A args ⟨c, stack⟩ = .ok none := by rw [step_eq, hread]
    rw [Decoded.ofBytes_cursor, hread]
    exact .finished hstep
  | defect c e hread =>
    have hstep : Machine.step A args ⟨c, stack⟩ = .error (.malformed e) := by rw [step_eq, hread]
    rw [Decoded.ofBytes_cursor, hread]
    exact .failed hstep
  | item c i next hread ih =>
    rw [Decoded.ofBytes_cursor, hread]
    cases hexec : i.exec A args stack with
    | ok after =>
      have hstep : Machine.step A args ⟨c, stack⟩ = .ok (some ⟨next, after⟩) := by
        rw [step_eq, hread]
        simp only [hexec]
      have hrun : ((Decoded.ofBytes 0 next.offset next.rest).cons c.offset i).run A args stack =
          (Decoded.ofBytes 0 next.offset next.rest).run A args after := by
        simp only [Decoded.run, Decoded.cons, Stream.runFrom, hexec]
      rw [hrun]
      exact .step hstep (ih after)
    | error fault =>
      have hstep : Machine.step A args ⟨c, stack⟩ = .error (.ofFault c.offset fault) := by
        rw [step_eq, hread]
        simp only [hexec]
      have hrun : ((Decoded.ofBytes 0 next.offset next.rest).cons c.offset i).run A args stack =
          .error (.ofFault c.offset fault) := by
        simp only [Decoded.run, Decoded.cons, Stream.runFrom, hexec]
      rw [hrun]
      exact .failed hstep

theorem Machine.halts_start_iff (A : Arithmetic) (args : List Single) (s : Stream)
    (r : Except RunError Single) : Halts A args (.start s) r ↔ r = s.run A args := by
  have hrun := halts_run A args s.cursor []
  rw [Stream.run_eq]
  constructor
  · exact fun h => h.unique hrun
  · rintro rfl
    exact hrun

/-! The check walks like a gauge that stops at the first shortage. -/

def Gauge.walk (g : Gauge) : Shape.Walk := ⟨g.depth, ⟨g.peak, g.required⟩⟩

theorem Gauge.step_walk (g : Gauge) (offset : Nat) (i : Instr) :
    g.walk.step offset i =
      if g.admits i then .ok (g.apply i).walk else .error (.underflow offset) := by
  by_cases hadmits : g.admits i = true
  · rw [if_pos hadmits, Gauge.apply_of_admits hadmits]
    rw [Gauge.admits, decide_eq_true_eq] at hadmits
    rcases i with index | value | u | op
    · rfl
    · simp [walk, Shape.Walk.step, Shape.Walk.moveTo, Instr.inputs, Instr.outputs, Instr.reach]
    · have hdepth : g.depth - 1 + 1 = g.depth := Nat.sub_add_cancel hadmits
      have hpos : g.depth ≠ 0 := Nat.ne_of_gt hadmits
      cases u <;> simp [walk, Shape.Walk.step, Shape.Walk.moveTo, Instr.inputs, Instr.outputs,
        Instr.reach, hpos, hdepth]
    · have hdepth : g.depth - 2 + 1 = g.depth - 1 := by
        simp only [Instr.inputs] at hadmits
        omega
      have htwo : ¬ g.depth < 2 := Nat.not_lt.2 hadmits
      simp [walk, Shape.Walk.step, Shape.Walk.moveTo, Instr.inputs, Instr.outputs, Instr.reach, htwo,
        hdepth]
  · rw [if_neg hadmits]
    rw [Gauge.admits, decide_eq_true_eq, Nat.not_le] at hadmits
    rcases i with index | value | u | op
    · exact absurd hadmits (Nat.not_lt_zero _)
    · exact absurd hadmits (Nat.not_lt_zero _)
    · exact if_pos (Nat.lt_one_iff.1 hadmits)
    · exact if_pos hadmits

theorem Instr.exec_of_not_admits (A : Arithmetic) {args stack : List Single} {g : Gauge} {i : Instr}
    (hstack : stack.length = g.depth) (hadmits : g.admits i = false) :
    i.exec A args stack = .error .underflow := by
  rw [Gauge.admits, decide_eq_false_iff_not, Nat.not_le, ← hstack] at hadmits
  rcases i with index | value | u | op
  · exact absurd hadmits (Nat.not_lt_zero _)
  · exact absurd hadmits (Nat.not_lt_zero _)
  · have hlt : stack.length < 1 := hadmits
    obtain rfl : stack = [] := List.length_eq_zero_iff.1 (Nat.lt_one_iff.1 hlt)
    cases u <;> rfl
  · have hlt : stack.length < 2 := hadmits
    rcases stack with _ | ⟨x, _ | ⟨y, rest⟩⟩
    · rfl
    · rfl
    · simp only [List.length_cons] at hlt
      omega

theorem Stream.runFrom_of_walk (A : Arithmetic) {args : List Single}
    {instrs : List (Nat × Instr)} {g : Gauge} {stack : List Single}
    (hargs : ∀ entry ∈ instrs, entry.2.reach ≤ args.length) (hstack : stack.length = g.depth) :
    match g.walk.run instrs with
    | .ok w => ∃ after, runFrom A args instrs stack = .ok after ∧ after.length = w.depth
    | .error e => runFrom A args instrs stack = .error (.malformed e) := by
  induction instrs generalizing g stack with
  | nil => exact ⟨stack, rfl, hstack⟩
  | cons entry rest ih =>
    obtain ⟨offset, i⟩ := entry
    rw [List.forall_mem_cons] at hargs
    rw [Shape.Walk.run, Gauge.step_walk, runFrom]
    cases hadmits : g.admits i with
    | true =>
      obtain ⟨between, hexec, hbetween⟩ := Instr.exec_of_admits A hstack hadmits hargs.1
      simp only [if_true, hexec]
      exact ih hargs.2 hbetween
    | false =>
      rw [Instr.exec_of_not_admits A hstack hadmits]
      rfl

theorem Gauge.depth_le_peak_apply {g : Gauge} (h : g.depth ≤ g.peak) (i : Instr) :
    (g.apply i).depth ≤ (g.apply i).peak := by
  cases hadmits : g.admits i with
  | true =>
    rw [Gauge.apply_of_admits hadmits]
    exact Nat.le_max_right _ _
  | false =>
    rw [Gauge.apply_of_not_admits hadmits]
    exact h

theorem Machine.peak_of_walk (A : Arithmetic) {args : List Single} {c : Cursor} {g : Gauge}
    {stack : List Single} {w : Shape.Walk}
    (hargs : ∀ entry ∈ (Decoded.ofBytes 0 c.offset c.rest).instrs, entry.2.reach ≤ args.length)
    (hstack : stack.length = g.depth) (hpeak : g.depth ≤ g.peak)
    (hwalk : g.walk.run (Decoded.ofBytes 0 c.offset c.rest).instrs = .ok w) :
    ∃ height, Peak A args ⟨c, stack⟩ height ∧ w.shape.maxDepth = max g.peak height := by
  induction c using Cursor.readInduction generalizing g stack with
  | finished c hread =>
    rw [Decoded.ofBytes_cursor, hread] at hwalk
    cases hwalk
    refine ⟨stack.length, Peak.halted ?_, ?_⟩
    · intro next
      rw [step_eq, hread]
      simp
    · exact (Nat.max_eq_left (hstack ▸ hpeak)).symm
  | defect c e hread =>
    rw [Decoded.ofBytes_cursor, hread] at hwalk
    cases hwalk
    refine ⟨stack.length, Peak.halted ?_, ?_⟩
    · intro next
      rw [step_eq, hread]
      simp
    · exact (Nat.max_eq_left (hstack ▸ hpeak)).symm
  | item c i next hread ih =>
    rw [Decoded.ofBytes_cursor, hread] at hargs hwalk
    have hargs : ∀ entry ∈ (c.offset, i) :: (Decoded.ofBytes 0 next.offset next.rest).instrs,
        entry.2.reach ≤ args.length := hargs
    rw [List.forall_mem_cons] at hargs
    have hwalk : g.walk.run ((c.offset, i) :: (Decoded.ofBytes 0 next.offset next.rest).instrs) =
      .ok w := hwalk
    rw [Shape.Walk.run, Gauge.step_walk] at hwalk
    cases hadmits : g.admits i with
    | false =>
      rw [hadmits] at hwalk
      contradiction
    | true =>
      rw [hadmits] at hwalk
      obtain ⟨after, hexec, hafter⟩ := Instr.exec_of_admits A hstack hadmits hargs.1
      obtain ⟨height, hheight, hmax⟩ := ih hargs.2 hafter (Gauge.depth_le_peak_apply hpeak i) hwalk
      have hstep : Machine.step A args ⟨c, stack⟩ = .ok (some ⟨next, after⟩) := by
        rw [step_eq, hread]
        simp only [hexec]
      refine ⟨max stack.length height, hheight.step hstep, ?_⟩
      -- The new depth is among the heights that are still to come.
      have hnext : after.length ≤ height := hheight.bound _ (.refl _)
      rw [Gauge.apply_of_admits hadmits] at hafter hmax
      dsimp only at hafter hmax
      omega

theorem Shape.Walk.required_of_run {instrs : List (Nat × Instr)} {g : Gauge} {w : Shape.Walk}
    (h : g.walk.run instrs = .ok w) :
    g.required ≤ w.shape.required ∧ (∀ entry ∈ instrs, entry.2.reach ≤ w.shape.required) ∧
      (w.shape.required = g.required ∨ ∃ entry ∈ instrs, w.shape.required = entry.2.reach) := by
  induction instrs generalizing g with
  | nil =>
    cases h
    exact ⟨Nat.le_refl _, by simp, .inl rfl⟩
  | cons entry rest ih =>
    obtain ⟨offset, i⟩ := entry
    rw [Shape.Walk.run, Gauge.step_walk] at h
    cases hadmits : g.admits i with
    | false =>
      rw [hadmits] at h
      contradiction
    | true =>
      rw [hadmits] at h
      obtain ⟨hle, hreach, hattained⟩ := ih h
      rw [Gauge.apply_of_admits hadmits] at hle hattained
      dsimp only at hle hattained
      refine ⟨by omega, List.forall_mem_cons.2 ⟨by dsimp only; omega, hreach⟩, ?_⟩
      rcases hattained with hmax | ⟨entry, hentry, hattained⟩
      · rcases Nat.le_total i.reach g.required with hsmall | hlarge
        · exact .inl (hmax.trans (Nat.max_eq_left hsmall))
        · exact .inr ⟨(offset, i), List.mem_cons_self, hmax.trans (Nat.max_eq_right hlarge)⟩
      · exact .inr ⟨entry, List.mem_cons_of_mem _ hentry, hattained⟩

/-- The check accepts a stream exactly if the interpreter, which decodes while it runs, comes to a
result on arguments for every index in the stream, and else names the error that the interpreter ends
with. The shape of an accepted stream is the greatest height of the stack and one more than the
largest index. -/
theorem Stream.check_foretells_run (A : Arithmetic) (args : List Single) (s : Stream)
    (hargs : ∀ (offset : Nat) (i : UInt16), (offset, Instr.arg i) ∈ s.decode.instrs →
      i.toNat < args.length) :
    (∀ r, Machine.Halts A args (.start s) r ↔ r = s.run A args) ∧
    match s.check with
    | .error e => s.run A args = .error (.malformed e)
    | .ok shape =>
      (∃ x, s.run A args = .ok x) ∧
      Machine.Peak A args (.start s) shape.maxDepth ∧
      (∀ (offset : Nat) (i : UInt16), (offset, Instr.arg i) ∈ s.decode.instrs →
        i.toNat + 1 ≤ shape.required) ∧
      (shape.required = 0 ∨ ∃ (offset : Nat) (i : UInt16), (offset, Instr.arg i) ∈ s.decode.instrs ∧
        shape.required = i.toNat + 1) := by
  refine ⟨Machine.halts_start_iff A args s, ?_⟩
  have hreach : ∀ entry ∈ s.decode.instrs, entry.2.reach ≤ args.length := by
    rintro ⟨offset, i | v | u | op⟩ hentry
    · exact hargs offset i hentry
    all_goals exact Nat.zero_le _
  have hstart : ([] : List Single).length = Gauge.start.depth := rfl
  have hrun := Stream.runFrom_of_walk A hreach hstart
  have hwalk : Gauge.start.walk = Shape.Walk.start := rfl
  rw [hwalk] at hrun
  rw [Stream.run_eq, Stream.check]
  cases hw : Shape.Walk.start.run s.decode.instrs with
  | error e =>
    rw [hw] at hrun
    simp only [Decoded.run, hrun]
  | ok w =>
    rw [hw] at hrun
    obtain ⟨after, hafter, hdepth⟩ := hrun
    simp only [Decoded.run, hafter]
    cases s.decode.fault with
    | some e => rfl
    | none =>
      by_cases hone : w.depth = 1
      · rw [if_pos hone]
        obtain ⟨x, rfl⟩ := List.length_eq_one_iff.1 (hdepth.trans hone)
        have hlow : Gauge.start.depth ≤ Gauge.start.peak := Nat.le_refl 0
        obtain ⟨height, hpeak, hmax⟩ :=
          Machine.peak_of_walk A (c := s.cursor) hreach hstart hlow hw
        have hmax : w.shape.maxDepth = height := hmax.trans (Nat.zero_max height)
        obtain ⟨-, hbound, hattained⟩ := Shape.Walk.required_of_run (g := .start) hw
        refine ⟨⟨x, rfl⟩, hmax ▸ hpeak, fun offset i hentry => hbound _ hentry, ?_⟩
        rcases hattained with hzero | ⟨⟨offset, i | v | u | op⟩, hentry, hattained⟩
        · exact .inl hzero
        · exact .inr ⟨offset, i, hentry, hattained⟩
        all_goals exact .inl hattained
      · rw [if_neg hone, ← hdepth]
        rw [← hdepth] at hone
        rcases after with _ | ⟨x, _ | ⟨y, below⟩⟩
        · rfl
        · exact absurd rfl hone
        · rfl

/-- The second argument less the first, with a number pushed and dropped in between. -/
def Stream.difference : Stream := ⟨[0x40, 1, 0, 0, 0, 0, 1, 0, 0, 0x80, 0x3f, 0x32, 0x13]⟩

/-- An operand is missing, and an unknown byte stands behind that place. -/
def Stream.deficient : Stream := ⟨[0, 0, 0, 0x13, 0xff]⟩

theorem Stream.check_foretells_run_difference :
    Stream.difference.check = .ok ⟨3, 2⟩ ∧
    Machine.Peak .whole [⟨0x40800000⟩, ⟨0x41200000⟩] (.start .difference) 3 ∧
    Machine.Halts .whole [⟨0x40800000⟩, ⟨0x41200000⟩] (.start .difference) (.ok ⟨0x40c00000⟩) ∧
    Machine.Halts .whole [⟨0x40800000⟩] (.start .deficient)
      (.error (.malformed (.underflow 3))) := by
  have hdifference : ∀ (offset : Nat) (i : UInt16), (offset, Instr.arg i) ∈
      Stream.difference.decode.instrs → i.toNat < 2 := by
    have hdecode : Stream.difference.decode.instrs =
      [(0, .arg 1), (3, .arg 0), (6, .imm ⟨0x3f800000⟩), (11, .unary .pop), (12, .binary .sub)] := rfl
    intro offset i hi
    simp only [hdecode, List.mem_cons, Prod.mk.injEq, Instr.arg.injEq, reduceCtorEq, and_false,
      List.not_mem_nil, or_false] at hi
    rcases hi with ⟨-, rfl⟩ | ⟨-, rfl⟩ <;> decide
  have hdeficient : ∀ (offset : Nat) (i : UInt16), (offset, Instr.arg i) ∈
      Stream.deficient.decode.instrs → i.toNat < 1 := by
    have hdecode : Stream.deficient.decode.instrs = [(0, .arg 0), (3, .binary .sub)] := rfl
    intro offset i hi
    simp only [hdecode, List.mem_cons, Prod.mk.injEq, Instr.arg.injEq, reduceCtorEq, and_false,
      List.not_mem_nil, or_false] at hi
    rcases hi with ⟨-, rfl⟩
    decide
  obtain ⟨hhalts, -, hpeak, -⟩ :=
    Stream.check_foretells_run .whole [⟨0x40800000⟩, ⟨0x41200000⟩] .difference hdifference
  obtain ⟨hhalts', -⟩ := Stream.check_foretells_run .whole [⟨0x40800000⟩] .deficient hdeficient
  exact ⟨rfl, hpeak, (hhalts _).2 rfl, (hhalts' _).2 rfl⟩

end Reckoner
