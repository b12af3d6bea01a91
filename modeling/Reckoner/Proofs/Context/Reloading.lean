import Reckoner.Proofs.Bytecode.Validation
import Reckoner.Proofs.Context.Compilation

/-! Streams leave the program as bytes and come back. What a builder has finished passes the check of
bytes from outside, and the check finds the shape that the builder has kept track of. -/
namespace Reckoner

def Gauge.shape (g : Gauge) : Shape := ⟨g.peak, g.required⟩

theorem Gauge.run_walk_located (g : Gauge) (offset : Nat) (instrs : List Instr)
    (h : (g.applyAll instrs).shortage = none) :
    g.walk.run (Instr.located offset instrs) = .ok (g.applyAll instrs).walk := by
  induction instrs generalizing g offset with
  | nil => rfl
  | cons i rest ih =>
    have hadmits : g.admits i = true :=
      (Gauge.shortage_apply_eq_none_iff.1 (Gauge.shortage_eq_none_of_applyAll h)).2
    rw [Instr.located, Shape.Walk.run, Gauge.step_walk, if_pos hadmits]
    exact ih (g.apply i) (offset + i.size) h

theorem Stream.check_ofInstrs {instrs : List Instr}
    (h : (Gauge.start.applyAll instrs).fault? = none) :
    (Stream.ofInstrs instrs).check = .ok (Gauge.start.applyAll instrs).shape := by
  obtain ⟨hshortage, hdepth⟩ := Gauge.fault?_eq_none_iff.1 h
  have hwalk : Shape.Walk.start.run (Instr.located 0 instrs) =
      .ok (Gauge.start.applyAll instrs).walk :=
    Gauge.start.run_walk_located 0 instrs hshortage
  rw [Stream.check, Stream.decode_ofInstrs]
  simp only [hwalk]
  exact if_pos hdepth

theorem Stream.ofBytes_of_check {s : Stream} {shape : Shape} (h : s.check = .ok shape) :
    Stream.ofBytes s.bytes = .ok s := by
  rw [Stream.ofBytes, h]

theorem Calculation.ofStream_of_check {s : Stream} {shape : Shape} (h : s.check = .ok shape) :
    Calculation.ofStream s = .ok (.bytecode ⟨s, shape⟩) := by
  simp only [Calculation.ofStream, Bytecode.Program.ofStream, h]

/-- The calculation can leave as bytes and come back: the bytes are taken as they are, the check
finds the given shape in them, and the calculation that is made of them asks for as many arguments
and computes the same. -/
def Calculation.Reloads (A : Arithmetic) (shape : Shape) (k : Calculation) : Prop :=
  ∃ (s : Stream) (again : Calculation),
    k.stream? = some s ∧ Stream.ofBytes s.bytes = .ok s ∧ s.check = .ok shape ∧
    Calculation.ofStream s = .ok again ∧ again.stream? = some s ∧ again.numArgs = k.numArgs ∧
    ∀ args : List Single, k.numArgs ≤ args.length →
      ∃ x, ∀ call, k.calculate A call args = .ok x ∧ again.calculate A call args = .ok x

theorem Bytecode.Builder.reloads_of_finish (A : Arithmetic) {calls : List Call}
    {p : Bytecode.Program} (h : (calls.foldl call empty).finish = .ok p) :
    (Calculation.bytecode p).Reloads A (calls.foldl call empty).gauge.shape := by
  rw [finish_foldl_call] at h
  rw [gauge_foldl_call]
  cases hfault : (Gauge.ofCalls calls).fault? with
  | some e => simp [hfault] at h
  | none =>
    simp only [hfault, Except.ok.injEq] at h
    subst h
    have hcheck := Stream.check_ofInstrs hfault
    refine ⟨_, _, rfl, Stream.ofBytes_of_check hcheck, hcheck, Calculation.ofStream_of_check hcheck,
      rfl, rfl, ?_⟩
    intro args hargs
    obtain ⟨x, hexec⟩ := Soft.exec_flatten A hfault hargs
    refine ⟨x, fun call => ⟨?_, ?_⟩⟩
    · exact Calculation.calculate_bytecode hargs (Stream.run_ofInstrs A args hexec)
    · exact Calculation.calculate_bytecode hargs (Stream.run_ofInstrs A args hexec)

/-- Whatever a builder finishes survives as bytes, with the shape that its gauge has kept, and so
does whatever is compiled for streams. -/
theorem finished_and_compiled_reload (A : Arithmetic) :
    (∀ (calls : List Call) (p : Bytecode.Program),
      (calls.foldl Bytecode.Builder.call .empty).finish = .ok p →
        (Calculation.bytecode p).Reloads A
          (calls.foldl Bytecode.Builder.call .empty).gauge.shape) ∧
    ∀ (c : Context) (o : Options) (scope : Scope) (source : String) (pack : Bool) (k : Calculation),
      c.backend = .bytecode → (c.compileScoped A o scope source pack).result = .ok k →
        ∃ e, Expr.parse A scope source = .ok e ∧
          k.Reloads A
            (((e.fold A o).calls A o).foldl Bytecode.Builder.call .empty).gauge.shape := by
  refine ⟨fun calls p h => Bytecode.Builder.reloads_of_finish A h, ?_⟩
  intro c o scope source pack k hbackend hresult
  have hengine : c.engine = .bytecode := by
    cases hengine : c.engine with
    | bytecode => rfl
    | soft => simp [Context.backend, hengine, Engine.backend] at hbackend
    | native foundry => simp [Context.backend, hengine, Engine.backend] at hbackend
  cases hparse : Expr.parse A scope source with
  | error e => simp [Context.compileScoped, hparse] at hresult
  | ok e =>
    rw [Context.compileScoped_bytecode hengine hparse] at hresult
    obtain rfl := Except.ok.inj hresult
    exact ⟨e, rfl, Bytecode.Builder.reloads_of_finish A (Expr.finish_bytecode A o _)⟩

theorem finished_and_compiled_reload_mixed :
    let calls : List Call := [.push (.arg 0), .binaryImm .sub ⟨0x40800000⟩, .callArg .sqrt 1,
      .push (.imm ⟨0x3f800000⟩), .push (.unary .pop), .push (.binary .add)]
    (∃ p : Bytecode.Program, (calls.foldl Bytecode.Builder.call .empty).finish = .ok p ∧
      p.stream.length = 20 ∧ (Calculation.bytecode p).Reloads .whole ⟨3, 2⟩) ∧
    let c : Context := ⟨.bytecode, .unoptimized, 0⟩
    ∃ k, (c.compileScoped .whole .optimized ⟨["x", "y"], 2⟩ "x*(2-y)" false).result = .ok k ∧
      k.Reloads .whole ⟨2, 2⟩ := by
  intro calls
  obtain ⟨hfinished, hcompiled⟩ := finished_and_compiled_reload .whole
  have hparse : Expr.parse .whole ⟨["x", "y"], 2⟩ "x*(2-y)" =
      .ok (.binary .mul (.arg 0) (.binary .sub (.num ⟨0x4000000000000000⟩) (.arg 1))) := by
    rfl
  refine ⟨⟨_, rfl, rfl, hfinished calls _ rfl⟩, ?_⟩
  intro c
  have hcompile : c.compileScoped .whole .optimized ⟨["x", "y"], 2⟩ "x*(2-y)" false = _ :=
    Context.compileScoped_bytecode rfl hparse
  refine ⟨_, congrArg Context.Outcome.result hcompile, ?_⟩
  obtain ⟨e, he, hreloads⟩ := hcompiled c .optimized
    ⟨["x", "y"], 2⟩ "x*(2-y)" false _ rfl (congrArg Context.Outcome.result hcompile)
  rw [hparse] at he
  obtain rfl := Except.ok.inj he
  exact hreloads

end Reckoner
