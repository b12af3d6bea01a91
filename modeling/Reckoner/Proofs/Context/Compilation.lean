import Reckoner.Context.Basic
import Reckoner.Proofs.Expr.Emission
import Reckoner.Proofs.Number.Payload

/-! Compiling for the two interpreted backends: every formula that can be read compiles, and the
calculation computes the value of the folded formula. -/
namespace Reckoner

theorem Builder.callAll_soft (b : Soft.Builder) (calls : List Call) :
    (Builder.soft b).callAll calls = .soft (calls.foldl Soft.Builder.call b) := by
  induction calls generalizing b with
  | nil => rfl
  | cons c rest ih => exact ih (b.call c)

theorem Builder.callAll_bytecode (b : Bytecode.Builder) (calls : List Call) :
    (Builder.bytecode b).callAll calls = .bytecode (calls.foldl Bytecode.Builder.call b) := by
  induction calls generalizing b with
  | nil => rfl
  | cons c rest ih => exact ih (b.call c)

namespace Expr

def softProgram (A : Arithmetic) (o : Options) (e : Expr) : Soft.Program :=
  ⟨e.instrs A o.fuseOperands, e.reach⟩

def bytecodeProgram (A : Arithmetic) (o : Options) (e : Expr) : Bytecode.Program :=
  ⟨.ofInstrs (e.instrs A o.fuseOperands), ⟨(Gauge.ofCalls (e.calls A o)).peak, e.reach⟩⟩

theorem fault?_ofCalls_calls (A : Arithmetic) (o : Options) (e : Expr) :
    (Gauge.ofCalls (e.calls A o)).fault? = none := by
  obtain ⟨peak, h⟩ := e.ofCalls_calls A o
  rw [h]
  rfl

theorem required_ofCalls_calls (A : Arithmetic) (o : Options) (e : Expr) :
    (Gauge.ofCalls (e.calls A o)).required = e.reach := by
  obtain ⟨peak, h⟩ := e.ofCalls_calls A o
  rw [h]

theorem finish_soft (A : Arithmetic) (o : Options) (e : Expr) :
    ((e.calls A o).foldl Soft.Builder.call .empty).finish = .ok (e.softProgram A o) := by
  rw [Soft.Builder.finish_foldl_call, fault?_ofCalls_calls]
  dsimp only
  rw [flatten_calls, required_ofCalls_calls]
  rfl

theorem finish_bytecode (A : Arithmetic) (o : Options) (e : Expr) :
    ((e.calls A o).foldl Bytecode.Builder.call .empty).finish = .ok (e.bytecodeProgram A o) := by
  rw [Bytecode.Builder.finish_foldl_call, fault?_ofCalls_calls]
  dsimp only
  rw [flatten_calls, required_ofCalls_calls]
  rfl

theorem calculate_softProgram (A : Arithmetic) (o : Options) (e : Expr) {args : List Single}
    (hargs : e.reach ≤ args.length) (call : Placement → List Single → Single) :
    (Calculation.soft (e.softProgram A o)).calculate A call args =
      .ok (e.evalFused A o.fuseOperands (lookup args)) :=
  Calculation.calculate_soft hargs (exec_instrs A o.fuseOperands args e hargs [])

theorem calculate_bytecodeProgram (A : Arithmetic) (o : Options) (e : Expr) {args : List Single}
    (hargs : e.reach ≤ args.length) (call : Placement → List Single → Single) :
    (Calculation.bytecode (e.bytecodeProgram A o)).calculate A call args =
      .ok (e.evalFused A o.fuseOperands (lookup args)) :=
  Calculation.calculate_bytecode hargs
    (Stream.run_ofInstrs A args (exec_instrs A o.fuseOperands args e hargs []))

end Expr

namespace Context

theorem finalize_soft {c : Context} (hengine : c.engine = .soft) (b : Soft.Builder) (pack : Bool) :
    c.finalize (.soft b) pack =
      match b.finish with
      | .ok p => (.ok (.soft p), c.adopt)
      | .error e => (.error e, c) := by
  cases hfinish : b.finish with
  | ok p => simp only [finalize, hengine, hfinish]
  | error e => simp only [finalize, hengine, hfinish]

theorem finalize_bytecode {c : Context} (hengine : c.engine = .bytecode) (b : Bytecode.Builder)
    (pack : Bool) :
    c.finalize (.bytecode b) pack =
      match b.finish with
      | .ok p => (.ok (.bytecode p), c.adopt)
      | .error e => (.error e, c) := by
  cases hfinish : b.finish with
  | ok p => simp only [finalize, hengine, hfinish]
  | error e => simp only [finalize, hengine, hfinish]

theorem compileScoped_soft {A : Arithmetic} {c : Context} {o : Options} {s : Scope}
    {source : String} {pack : Bool} {e : Expr} (hengine : c.engine = .soft)
    (hparse : Expr.parse A s source = .ok e) :
    c.compileScoped A o s source pack =
      ⟨.ok (.soft ((e.fold A o).softProgram A o)), c.adopt, []⟩ := by
  have hbuilder : Builder.empty c.backend = .soft .empty := by
    rw [backend, hengine]
    rfl
  unfold compileScoped
  rw [hparse, hbuilder]
  dsimp only
  rw [Builder.callAll_soft, finalize_soft hengine, Expr.finish_soft]

theorem compileScoped_bytecode {A : Arithmetic} {c : Context} {o : Options} {s : Scope}
    {source : String} {pack : Bool} {e : Expr} (hengine : c.engine = .bytecode)
    (hparse : Expr.parse A s source = .ok e) :
    c.compileScoped A o s source pack =
      ⟨.ok (.bytecode ((e.fold A o).bytecodeProgram A o)), c.adopt, []⟩ := by
  have hbuilder : Builder.empty c.backend = .bytecode .empty := by
    rw [backend, hengine]
    rfl
  unfold compileScoped
  rw [hparse, hbuilder]
  dsimp only
  rw [Builder.callAll_bytecode, finalize_bytecode hengine, Expr.finish_bytecode]

end Context

/-- Compiling a formula that can be read always succeeds on the interpreted backends, whatever the
options are. On every list of at least as many arguments as the calculation asks for, which then
holds every argument of the formula, it computes the value of the folded formula: the same pattern
if calls are not fused or sums and products commute, and the same up to NaNs if they commute up to
NaNs. -/
theorem compileScoped_computes_folded (A : Arithmetic) (c : Context) (o : Options) (s : Scope)
    (source : String) (pack : Bool) (e : Expr)
    (hbackend : c.backend = .soft ∨ c.backend = .bytecode)
    (hparse : Expr.parse A s source = .ok e) :
    ∃ k : Calculation, k.backend = c.backend ∧
      c.compileScoped A o s source pack = ⟨.ok k, c.adopt, []⟩ ∧
      ∀ args : List Single, k.numArgs ≤ args.length →
        (∀ i ∈ (e.fold A o).args, i.toNat < args.length) ∧
        ∃ x, (∀ call, k.calculate A call args = .ok x) ∧
          (o.fuseOperands = false ∨ A.Commutes →
            x = (e.fold A o).evalSingle A (Expr.lookup args)) ∧
          (A.CommutesUpTo Single.Same →
            x.Same ((e.fold A o).evalSingle A (Expr.lookup args))) := by
  have hargs (args : List Single) (h : (e.fold A o).reach ≤ args.length) :
      ∀ i ∈ (e.fold A o).args, i.toNat < args.length := by
    intro i hi
    exact Nat.lt_of_lt_of_le (Expr.lt_reach_of_mem_args hi) h
  have hvalue (args : List Single) :
      (o.fuseOperands = false ∨ A.Commutes →
        (e.fold A o).evalFused A o.fuseOperands (Expr.lookup args) =
          (e.fold A o).evalSingle A (Expr.lookup args)) ∧
      (A.CommutesUpTo Single.Same →
        ((e.fold A o).evalFused A o.fuseOperands (Expr.lookup args)).Same
          ((e.fold A o).evalSingle A (Expr.lookup args))) := by
    refine ⟨?_, fun h => Expr.evalFused_same h _ _ _⟩
    rintro (hfuse | hcommutes)
    · rw [hfuse]
      exact Expr.evalFused_false A _ _
    · exact Expr.evalFused_same hcommutes.upTo_eq _ _ _
  cases hengine : c.engine with
  | soft =>
    refine ⟨.soft ((e.fold A o).softProgram A o), by rw [Context.backend, hengine]; rfl,
      Context.compileScoped_soft hengine hparse, fun args h => ⟨hargs args h, ?_⟩⟩
    exact ⟨_, Expr.calculate_softProgram A o _ h, hvalue args⟩
  | bytecode =>
    refine ⟨.bytecode ((e.fold A o).bytecodeProgram A o), by rw [Context.backend, hengine]; rfl,
      Context.compileScoped_bytecode hengine hparse, fun args h => ⟨hargs args h, ?_⟩⟩
    exact ⟨_, Expr.calculate_bytecodeProgram A o _ h, hvalue args⟩
  | native pool => simp [Context.backend, hengine, Engine.backend] at hbackend

/-- The text `3*(x-$1)/sqrt(4)` at ten and four, where the factor changes sides and the root is
folded; and `x*(y-1)` at two NaNs, of which the code hands on the one and the formula the other. -/
theorem compileScoped_computes_folded_nine :
    let c : Context := ⟨.bytecode, .unoptimized, 0⟩
    (∃ k, c.compileScoped .whole .optimized ⟨["x", "y"], 2⟩ "3*(x-$1)/sqrt(4)" false =
        ⟨.ok k, c.adopt, []⟩ ∧
      ∀ call, k.calculate .whole call [⟨0x41200000⟩, ⟨0x40800000⟩] = .ok ⟨0x41100000⟩) ∧
    ∃ k, c.compileScoped .payload .optimized ⟨["x", "y"], 2⟩ "x*(y-1)" false =
        ⟨.ok k, c.adopt, []⟩ ∧
      (∀ call, k.calculate .payload call [⟨0x7fc00001⟩, ⟨0x7fc00002⟩] = .ok ⟨0x7fc00002⟩) ∧
      Single.Same ⟨0x7fc00002⟩ ⟨0x7fc00001⟩ := by
  intro c
  constructor
  · have hparse : Expr.parse .whole ⟨["x", "y"], 2⟩ "3*(x-$1)/sqrt(4)" =
        .ok (.binary .div (.binary .mul (.num ⟨0x4008000000000000⟩) (.binary .sub (.arg 0) (.arg 1)))
          (.call .sqrt (.num ⟨0x4010000000000000⟩))) := by
      rfl
    obtain ⟨k, -, hk, hcalc⟩ := compileScoped_computes_folded .whole c .optimized ⟨["x", "y"], 2⟩
      "3*(x-$1)/sqrt(4)" false _ (.inr rfl) hparse
    have hnum : k.numArgs = 2 := by
      have hresult : (c.compileScoped .whole .optimized ⟨["x", "y"], 2⟩ "3*(x-$1)/sqrt(4)"
          false).result.map Calculation.numArgs = .ok 2 := rfl
      rw [hk] at hresult
      exact Except.ok.inj hresult
    obtain ⟨-, x, hx, hvalue, -⟩ := hcalc [⟨0x41200000⟩, ⟨0x40800000⟩] (Nat.le_of_eq hnum)
    refine ⟨k, hk, fun call => ?_⟩
    rw [hx, hvalue (.inr Arithmetic.whole_commutes)]
    rfl
  · have hparse : Expr.parse .payload ⟨["x", "y"], 2⟩ "x*(y-1)" =
        .ok (.binary .mul (.arg 0) (.binary .sub (.arg 1) (.num ⟨0x3ff0000000000000⟩))) := by
      rfl
    obtain ⟨k, -, hk, hcalc⟩ := compileScoped_computes_folded .payload c .optimized ⟨["x", "y"], 2⟩
      "x*(y-1)" false _ (.inr rfl) hparse
    have hresult : ∃ k', (c.compileScoped .payload .optimized ⟨["x", "y"], 2⟩ "x*(y-1)"
        false).result = .ok k' ∧ k'.numArgs = 2 ∧ ∀ call,
          k'.calculate .payload call [⟨0x7fc00001⟩, ⟨0x7fc00002⟩] = .ok ⟨0x7fc00002⟩ :=
      ⟨_, rfl, rfl, fun _ => rfl⟩
    obtain ⟨k', hk', hnum, hcalculate⟩ := hresult
    rw [hk] at hk'
    obtain rfl := Except.ok.inj hk'
    obtain ⟨-, x, hx, -, hsame⟩ := hcalc [⟨0x7fc00001⟩, ⟨0x7fc00002⟩] (Nat.le_of_eq hnum)
    have hfound : x = ⟨0x7fc00002⟩ :=
      Except.ok.inj ((hx fun _ _ => .nan).symm.trans (hcalculate fun _ _ => .nan))
    refine ⟨k, hk, hcalculate, ?_⟩
    rw [hfound] at hsame
    exact hsame Arithmetic.payload_commutesUpTo

end Reckoner
