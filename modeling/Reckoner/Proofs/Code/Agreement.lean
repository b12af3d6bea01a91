import Reckoner.Bytecode.Program
import Reckoner.Context.Calculation
import Reckoner.Proofs.Bytecode.RoundTrip
import Reckoner.Proofs.Code.Discipline

/-! The two interpreted backends agree on every sequence of calls. Both builders are described by
the instructions that the calls stand for: their gauges always, and their code as long as nothing
lacks operands. After a shortage the codes may differ, but then neither builder can be finished. -/
namespace Reckoner

def Call.flatten (calls : List Call) : List Instr := calls.flatMap Call.instrs

@[simp] theorem Call.flatten_nil : Call.flatten [] = [] := rfl

@[simp] theorem Call.flatten_cons (c : Call) (rest : List Call) :
    Call.flatten (c :: rest) = c.instrs ++ Call.flatten rest :=
  List.flatMap_cons

def Gauge.ofCalls (calls : List Call) : Gauge := Gauge.start.applyAll (Call.flatten calls)

theorem Gauge.fault?_eq_none_iff {g : Gauge} :
    g.fault? = none ↔ g.shortage = none ∧ g.depth = 1 := by
  unfold Gauge.fault?
  cases g.shortage with
  | none => simp
  | some found => simp

theorem Gauge.apply_arg_call (g : Gauge) (index : UInt16) (f : Intrinsic) :
    (g.apply (.arg index)).apply (.unary (.call f)) = g.apply (.arg index) := by
  have harg : g.admits (.arg index) = true := by simp [Gauge.admits, Instr.inputs]
  rw [Gauge.apply_of_admits harg,
    Gauge.apply_of_admits (by simp [Gauge.admits, Instr.inputs, Instr.outputs])]
  simp [Instr.inputs, Instr.outputs, Instr.reach]

namespace Soft.Builder

theorem gauge_foldl_push (b : Builder) (instrs : List Instr) :
    (instrs.foldl push b).gauge = b.gauge.applyAll instrs := by
  induction instrs generalizing b with
  | nil => rfl
  | cons i rest ih => exact ih (b.push i)

theorem code_foldl_push (b : Builder) (instrs : List Instr)
    (h : (b.gauge.applyAll instrs).shortage = none) :
    (instrs.foldl push b).code.toList = b.code.toList ++ instrs := by
  induction instrs generalizing b with
  | nil => simp
  | cons i rest ih =>
    have hadmits : b.gauge.admits i = true :=
      (Gauge.shortage_apply_eq_none_iff.1 (Gauge.shortage_eq_none_of_applyAll h)).2
    rw [List.foldl_cons, ih (b.push i) h]
    simp [push, hadmits]

theorem foldl_call (b : Builder) (calls : List Call) :
    calls.foldl call b = (Call.flatten calls).foldl push b := by
  rw [Call.flatten, List.foldl_flatMap]
  rfl

theorem gauge_foldl_call (calls : List Call) :
    (calls.foldl call empty).gauge = Gauge.ofCalls calls := by
  rw [foldl_call, gauge_foldl_push]
  rfl

theorem finish_foldl_call (calls : List Call) :
    (calls.foldl call empty).finish =
      match (Gauge.ofCalls calls).fault? with
      | some e => .error e
      | none => .ok ⟨Call.flatten calls, (Gauge.ofCalls calls).required⟩ := by
  rw [finish, gauge_foldl_call]
  cases hfault : (Gauge.ofCalls calls).fault? with
  | some e => rfl
  | none =>
    have hcode := code_foldl_push empty (Call.flatten calls) (Gauge.fault?_eq_none_iff.1 hfault).1
    dsimp only
    rw [foldl_call, hcode]
    simp [empty]

end Soft.Builder

namespace Bytecode.Builder

theorem gauge_call (b : Builder) (c : Call) :
    (b.call c).gauge = b.gauge.applyAll c.instrs := by
  cases c with
  | push i => rfl
  | binaryArg op index => rfl
  | binaryImm op value => rfl
  | callArg f index => exact (b.gauge.apply_arg_call index f).symm

theorem code_call (b : Builder) (c : Call) (h : (b.gauge.applyAll c.instrs).shortage = none) :
    (b.call c).code.toList = b.code.toList ++ c.instrs := by
  -- Only the last instruction of a call can lack operands, and a function of an argument never does.
  cases c with
  | push i =>
    have hadmits : b.gauge.admits i = true := (Gauge.shortage_apply_eq_none_iff.1 h).2
    simp [call, push, Call.instrs, hadmits]
  | binaryArg op index =>
    have hadmits : (b.gauge.apply (.arg index)).admits (.binary op) = true :=
      (Gauge.shortage_apply_eq_none_iff.1 h).2
    simp [call, pushFused, Call.instrs, hadmits]
  | binaryImm op value =>
    have hadmits : (b.gauge.apply (.imm value)).admits (.binary op) = true :=
      (Gauge.shortage_apply_eq_none_iff.1 h).2
    simp [call, pushFused, Call.instrs, hadmits]
  | callArg f index => simp [call, Call.instrs]

theorem gauge_foldl_call_from (b : Builder) (calls : List Call) :
    (calls.foldl call b).gauge = b.gauge.applyAll (Call.flatten calls) := by
  induction calls generalizing b with
  | nil => rfl
  | cons c rest ih =>
    rw [List.foldl_cons, ih, gauge_call, Call.flatten_cons, Gauge.applyAll_append]

theorem code_foldl_call_from (b : Builder) (calls : List Call)
    (h : (b.gauge.applyAll (Call.flatten calls)).shortage = none) :
    (calls.foldl call b).code.toList = b.code.toList ++ Call.flatten calls := by
  induction calls generalizing b with
  | nil => simp
  | cons c rest ih =>
    rw [Call.flatten_cons, Gauge.applyAll_append] at h
    have hcall := code_call b c (Gauge.shortage_eq_none_of_applyAll h)
    rw [← gauge_call] at h
    rw [List.foldl_cons, ih (b.call c) h, hcall, Call.flatten_cons, List.append_assoc]

theorem gauge_foldl_call (calls : List Call) :
    (calls.foldl call empty).gauge = Gauge.ofCalls calls :=
  gauge_foldl_call_from empty calls

theorem finish_foldl_call (calls : List Call) :
    (calls.foldl call empty).finish =
      match (Gauge.ofCalls calls).fault? with
      | some e => .error e
      | none => .ok ⟨.ofInstrs (Call.flatten calls),
          ⟨(Gauge.ofCalls calls).peak, (Gauge.ofCalls calls).required⟩⟩ := by
  rw [finish, gauge_foldl_call]
  cases hfault : (Gauge.ofCalls calls).fault? with
  | some e => rfl
  | none =>
    have hcode := code_foldl_call_from empty calls (Gauge.fault?_eq_none_iff.1 hfault).1
    dsimp only
    rw [hcode]
    simp [empty]

end Bytecode.Builder

theorem Stream.runFrom_of_exec (A : Arithmetic) (args : List Single) {instrs : List (Nat × Instr)}
    {stack after : List Single} (h : Soft.exec A args (instrs.map Prod.snd) stack = .ok after) :
    Stream.runFrom A args instrs stack = .ok after := by
  induction instrs generalizing stack with
  | nil =>
    cases h
    rfl
  | cons entry rest ih =>
    obtain ⟨offset, i⟩ := entry
    rw [List.map_cons, Soft.exec] at h
    rw [Stream.runFrom]
    dsimp only at h
    cases hexec : i.exec A args stack with
    | ok between =>
      rw [hexec] at h
      exact ih h
    | error fault =>
      rw [hexec] at h
      contradiction

theorem Stream.run_ofInstrs (A : Arithmetic) (args : List Single) {instrs : List Instr} {x : Single}
    (h : Soft.exec A args instrs [] = .ok [x]) : (Stream.ofInstrs instrs).run A args = .ok x := by
  rw [← Instr.map_snd_located 0 instrs] at h
  rw [Stream.run, Stream.decode_ofInstrs]
  dsimp only
  rw [Stream.runFrom_of_exec A args h]

/-- Calls that can be finished leave one value on every sufficiently long list of arguments. -/
theorem Soft.exec_flatten (A : Arithmetic) {calls : List Call} {args : List Single}
    (hfault : (Gauge.ofCalls calls).fault? = none)
    (hargs : (Gauge.ofCalls calls).required ≤ args.length) :
    ∃ x, Soft.exec A args (Call.flatten calls) [] = .ok [x] := by
  obtain ⟨hshortage, hdepth⟩ := Gauge.fault?_eq_none_iff.1 hfault
  have hstart : ([] : List Single).length = Gauge.start.depth := rfl
  obtain ⟨after, hexec, hafter⟩ := Soft.exec_of_shortage_eq_none A hstart hshortage hargs
  have hlength : after.length = 1 := hafter.trans hdepth
  obtain ⟨x, rfl⟩ := List.length_eq_one_iff.1 hlength
  exact ⟨x, hexec⟩

theorem Calculation.calculate_soft {A : Arithmetic} {args : List Single} {p : Soft.Program}
    {call : Placement → List Single → Single} {x : Single} (hargs : p.required ≤ args.length)
    (h : Soft.exec A args p.code [] = .ok [x]) :
    (Calculation.soft p).calculate A call args = .ok x := by
  have hlength : ¬ args.length < (Calculation.soft p).numArgs := Nat.not_lt.2 hargs
  rw [Calculation.calculate, if_neg hlength]
  exact congrArg _ (Soft.Program.run_of_exec h)

theorem Calculation.calculate_bytecode {A : Arithmetic} {args : List Single} {p : Bytecode.Program}
    {call : Placement → List Single → Single} {x : Single} (hargs : p.shape.required ≤ args.length)
    (h : p.run A args = .ok x) :
    (Calculation.bytecode p).calculate A call args = .ok x := by
  have hlength : ¬ args.length < (Calculation.bytecode p).numArgs := Nat.not_lt.2 hargs
  rw [Calculation.calculate, if_neg hlength]
  simp [h]

/-- Every sequence of calls drives both builders through the same depths. Either both fail to finish
with one error, or both give a calculation of the same number of arguments, and on every list of
that many arguments both interpreters come to the end of the code with the same value as the only
one left. -/
theorem builders_agree (A : Arithmetic) (calls : List Call) :
    (∀ n, ((calls.take n).foldl Soft.Builder.call .empty).gauge.depth =
      ((calls.take n).foldl Bytecode.Builder.call .empty).gauge.depth) ∧
    match (calls.foldl Soft.Builder.call .empty).finish,
      (calls.foldl Bytecode.Builder.call .empty).finish with
    | .ok p, .ok q =>
      (Calculation.soft p).numArgs = (Calculation.bytecode q).numArgs ∧
      ∀ args : List Single, (Calculation.soft p).numArgs ≤ args.length → ∃ x,
        Soft.exec A args p.code [] = .ok [x] ∧
        Stream.runFrom A args q.stream.decode.instrs [] = .ok [x] ∧ q.stream.decode.fault = none ∧
        ∀ call, (Calculation.soft p).calculate A call args = .ok x ∧
          (Calculation.bytecode q).calculate A call args = .ok x
    | .error e, .error f => e = f
    | _, _ => False := by
  refine ⟨fun n => ?_, ?_⟩
  · rw [Soft.Builder.gauge_foldl_call, Bytecode.Builder.gauge_foldl_call]
  rw [Soft.Builder.finish_foldl_call, Bytecode.Builder.finish_foldl_call]
  cases hfault : (Gauge.ofCalls calls).fault? with
  | some e => rfl
  | none =>
    refine ⟨rfl, fun args hargs => ?_⟩
    obtain ⟨x, hexec⟩ := Soft.exec_flatten A hfault hargs
    refine ⟨x, hexec, ?_, ?_, fun call => ⟨?_, ?_⟩⟩
    · rw [Stream.decode_ofInstrs]
      apply Stream.runFrom_of_exec
      rw [Instr.map_snd_located]
      exact hexec
    · rw [Stream.decode_ofInstrs]
    · exact Calculation.calculate_soft hargs hexec
    · exact Calculation.calculate_bytecode hargs (Stream.run_ofInstrs A args hexec)

end Reckoner
