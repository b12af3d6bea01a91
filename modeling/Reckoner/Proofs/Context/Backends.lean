import Reckoner.Proofs.Context.Compilation
import Reckoner.Proofs.Expr.Graph

/-! Compiling on every backend: a formula that cannot be read leaves the context alone, and one that
can be read becomes code of the folded formula. Native code may fail to be made or to be placed; the
code of a formula itself never does. -/
namespace Reckoner

theorem Builder.callAll_native (b : Native.Builder) (calls : List Call) :
    (Builder.native b).callAll calls = .native (calls.foldl Native.Builder.call b) := by
  induction calls generalizing b with
  | nil => rfl
  | cons c rest ih => exact ih (b.call c)

theorem Calculation.calculate_native (A : Arithmetic) (call : Placement → List Single → Single)
    (args : List Single) (p : Native.Program) (entry : Placement) :
    (Calculation.native p entry).calculate A call args =
      if args.length < p.required then .error (.tooFewValues p.required args.length)
      else .ok (call entry args) := rfl

theorem Calculation.calculate_native_of_le {A : Arithmetic} {call : Placement → List Single → Single}
    {args : List Single} {p : Native.Program} (h : p.required ≤ args.length) (entry : Placement) :
    (Calculation.native p entry).calculate A call args = .ok (call entry args) := by
  rw [calculate_native, if_neg (Nat.not_lt.2 h)]

def Calculation.Executes (A : Arithmetic) (call : Placement → List Single → Single)
    (args : List Single) (k : Calculation) : Prop :=
  ∀ p entry, k = .native p entry → call entry args = p.run A args

namespace Expr

def nativeProgram (A : Arithmetic) (o : Options) (e : Expr) : Native.Program :=
  ⟨e.graph A o.fuseOperands, e.reach⟩

theorem finish_native (A : Arithmetic) (o : Options) (e : Expr) :
    ((e.calls A o).foldl Native.Builder.call .empty).finish = .ok (e.nativeProgram A o) := by
  have hgauge : ((e.calls A o).foldl Native.Builder.call .empty).gauge =
      Gauge.ofCalls (e.calls A o) := by
    rw [Native.Builder.foldl_call, Native.Builder.gauge_foldl_push]
    rfl
  have hstack : ((e.calls A o).foldl Native.Builder.call .empty).stack =
      [e.graph A o.fuseOperands] := by
    rw [Native.Builder.foldl_call, flatten_calls, stack_foldl_push_instrs]
    rfl
  rw [Native.Builder.finish, hgauge, hstack, fault?_ofCalls_calls]
  dsimp only
  rw [required_ofCalls_calls]
  rfl

/-- The calculation is the code of the formula, for one of the backends. -/
inductive Coded (A : Arithmetic) (o : Options) (e : Expr) : Calculation → Prop
  | soft : Coded A o e (.soft (e.softProgram A o))
  | bytecode : Coded A o e (.bytecode (e.bytecodeProgram A o))
  | native (placement : Placement) : Coded A o e (.native (e.nativeProgram A o) placement)

namespace Coded

variable {A : Arithmetic} {o : Options} {e : Expr} {k : Calculation}

theorem numArgs (h : Coded A o e k) : k.numArgs = e.reach := by
  cases h <;> rfl

theorem exists_calculate (h : Coded A o e k) {args : List Single} (hargs : k.numArgs ≤ args.length)
    (call : Placement → List Single → Single) : ∃ x, k.calculate A call args = .ok x := by
  cases h with
  | soft => exact ⟨_, calculate_softProgram A o e hargs call⟩
  | bytecode => exact ⟨_, calculate_bytecodeProgram A o e hargs call⟩
  | native placement => exact ⟨_, Calculation.calculate_native_of_le hargs placement⟩

/-- Native code computes the same as the interpreters if it computes its program and if its roots are
theirs. -/
theorem calculate (h : Coded A o e k) {args : List Single} (hargs : k.numArgs ≤ args.length)
    {call : Placement → List Single → Single} (hcall : k.Executes A call args)
    (hroots : k.backend = .native → A.RootsAgree) :
    k.calculate A call args = .ok (e.evalFused A o.fuseOperands (lookup args)) := by
  cases h with
  | soft => exact calculate_softProgram A o e hargs call
  | bytecode => exact calculate_bytecodeProgram A o e hargs call
  | native placement =>
    rw [Calculation.calculate_native_of_le hargs, hcall _ placement rfl]
    exact congrArg _ (eval_graph (hroots rfl) o.fuseOperands args e)

end Coded

end Expr

namespace Context

variable {A : Arithmetic} {c : Context} {o : Options} {s : Scope} {source : String} {pack : Bool}

inductive Installing (c : Context) (foundry : Foundry) (p : Native.Program) (pack : Bool) :
    Except Error Calculation × Context → Prop
  | notGenerated (reason : String) (hcode : foundry.target.generate p = .error reason) :
    Installing c foundry p pack (.error (.internal (.note reason)), c)
  | notPlaced (code : List UInt8) (hcode : foundry.target.generate p = .ok code) (e : Error)
    (pool : Pool) (hplace : foundry.pool.place code pack = (.error e, pool)) :
    Installing c foundry p pack (.error e, { c with engine := .native { foundry with pool } })
  | placed (code : List UInt8) (hcode : foundry.target.generate p = .ok code)
    (placement : Placement) (pool : Pool)
    (hplace : foundry.pool.place code pack = (.ok placement, pool)) :
    Installing c foundry p pack
      (.ok (.native p placement), { c with engine := .native { foundry with pool } }.adopt)

theorem finalize_native {foundry : Foundry} (hengine : c.engine = .native foundry)
    {b : Native.Builder} {p : Native.Program} (hfinish : b.finish = .ok p) (pack : Bool) :
    c.Installing foundry p pack (c.finalize (.native b) pack) := by
  simp only [finalize, hengine, hfinish]
  cases hcode : foundry.target.generate p with
  | error reason => exact .notGenerated reason hcode
  | ok code =>
    dsimp only
    cases hplace : foundry.pool.place code pack with
    | mk result pool =>
      cases result with
      | error e => exact .notPlaced code hcode e pool hplace
      | ok placement => exact .placed code hcode placement pool hplace

theorem compileScoped_error {e : Error} (hparse : Expr.parse A s source = .error e) :
    c.compileScoped A o s source pack = ⟨.error e, c, [.abandoned c.backend 0]⟩ := by
  have hempty : (Builder.empty c.backend).backend = c.backend ∧
      (Builder.empty c.backend).depth = 0 := by
    cases c.backend <;> exact ⟨rfl, rfl⟩
  rw [compileScoped, hparse, hempty.1, hempty.2]

theorem compileScoped_native {foundry : Foundry} {e : Expr} (hengine : c.engine = .native foundry)
    (hparse : Expr.parse A s source = .ok e) (o : Options) (pack : Bool) :
    c.Installing foundry ((e.fold A o).nativeProgram A o) pack
      ((c.compileScoped A o s source pack).result, (c.compileScoped A o s source pack).context) := by
  have hbuilder : Builder.empty c.backend = .native .empty := by
    rw [backend, hengine]
    rfl
  rw [compileScoped, hparse, hbuilder]
  dsimp only
  rw [Builder.callAll_native]
  exact finalize_native hengine (Expr.finish_native A o _) pack

theorem coded_of_compileScoped {e : Expr} {k : Calculation}
    (hparse : Expr.parse A s source = .ok e)
    (hresult : (c.compileScoped A o s source pack).result = .ok k) :
    (e.fold A o).Coded A o k ∧ k.backend = c.backend := by
  cases hengine : c.engine with
  | soft =>
    rw [compileScoped_soft hengine hparse] at hresult
    cases hresult
    exact ⟨.soft, by rw [backend, hengine]; rfl⟩
  | bytecode =>
    rw [compileScoped_bytecode hengine hparse] at hresult
    cases hresult
    exact ⟨.bytecode, by rw [backend, hengine]; rfl⟩
  | native foundry =>
    have hcompile := compileScoped_native hengine hparse o pack
    rw [hresult] at hcompile
    generalize (c.compileScoped A o s source pack).context = after at hcompile
    cases hcompile with
    | placed code hcode placement pool hplace =>
      exact ⟨.native placement, by rw [backend, hengine]; rfl⟩

end Context

end Reckoner
