import Reckoner.Proofs.Context.Execution
import Reckoner.Proofs.Expr.Folding
import Reckoner.Proofs.Native.Streamed

/-! Compiling with all optimizations: the calculation computes the value of the formula in mixed
precision, and a formula without arguments leaves a single number. -/
namespace Reckoner

inductive Calculation.Pushes (v : Single) : Calculation → Prop
  | soft : Pushes v (.soft ⟨[.imm v], 0⟩)
  | bytecode : Pushes v (.bytecode ⟨.ofInstrs [.imm v], ⟨1, 0⟩⟩)
  | native (placement : Placement) : Pushes v (.native ⟨.imm v, 0⟩ placement)

namespace Expr

variable {A : Arithmetic} {o : Options} {e : Expr} {k : Calculation}

theorem Coded.pushes {v : Double} (h : (num v).Coded A o k) : k.Pushes (A.narrow v) := by
  cases h with
  | soft => exact .soft
  | bytecode => exact .bytecode
  | native placement => exact .native placement

theorem Coded.numArgs_le_iff (h : (e.fold A o).Coded A o k) {n : Nat} :
    k.numArgs ≤ n ↔ ∀ i ∈ e.args, i.toNat < n := by
  rw [h.numArgs, reach_fold, reach_le_iff]

theorem Coded.reach_le (h : e.Coded A o k) {args : List Single} (hargs : k.numArgs ≤ args.length) :
    ∀ p entry, k = .native p entry → p.result.reach ≤ args.length := by
  rw [h.numArgs] at hargs
  rintro _ _ rfl
  cases h
  rw [nativeProgram, reach_graph]
  exact hargs

theorem evalFused_fold_same {same : Single → Single → Prop} (h : A.CommutesUpTo same) (fuse : Bool)
    (env : UInt16 → Single) (e : Expr) :
    same ((e.fold A .optimized).evalFused A fuse env) (e.evalMixed A env) := by
  rw [← evalSingle_fold]
  exact evalFused_same h fuse env _

end Expr

/-- With all optimizations a formula that can be read compiles, unless there is no code or no page for
it on the native backend. The calculation asks for the arguments of the formula. On all lists that
hold them it computes the value in mixed precision, on the native backend if calls of its code compute
its program and the roots agree: the same pattern if sums and products commute, and the same up to NaNs
if they commute up to NaNs. Calls in the context that is left do compute the program on a faithful
machine. Without arguments the code only pushes the value in double precision, narrowed. -/
theorem compileScoped_computes_mixed (A : Arithmetic) (c : Context) (s : Scope) (source : String)
    (pack : Bool) (e : Expr) (hparse : Expr.parse A s source = .ok e) :
    (c.Willing → c.Generates ((e.fold A .optimized).nativeProgram A .optimized) →
      ∃ k, (c.compileScoped A .optimized s source pack).result = .ok k) ∧
    ∀ k, (c.compileScoped A .optimized s source pack).result = .ok k →
      k.backend = c.backend ∧
      (∀ n, k.numArgs ≤ n ↔ ∀ i ∈ e.args, i.toNat < n) ∧
      (∀ call args, k.numArgs ≤ args.length → k.Executes A call args →
        (k.backend = .native → A.RootsAgree) →
        ∃ x, k.calculate A call args = .ok x ∧
          (A.Commutes → x = e.evalMixed A (Expr.lookup args)) ∧
          (A.CommutesUpTo Single.Same → x.Same (e.evalMixed A (Expr.lookup args)))) ∧
      (∀ living, c.Keeps living → c.Idle → pack = false → c.Faithful A →
        ∀ args : List Single, k.numArgs ≤ args.length →
          k.Executes A (c.compileScoped A .optimized s source pack).context.call args) ∧
      (e.args = [] → ∀ env, k.Pushes (A.narrow (e.evalDouble A env)) ∧
        (e.fold A .optimized).calls A .optimized =
          [.push (.imm (A.narrow (e.evalDouble A env)))]) := by
  refine ⟨fun hwilling hcode => Context.compileScoped_ok_of_willing hparse hwilling hcode pack, ?_⟩
  intro k hresult
  obtain ⟨hcoded, hbackend⟩ := Context.coded_of_compileScoped hparse hresult
  refine ⟨hbackend, fun n => hcoded.numArgs_le_iff, ?_, ?_, fun hargs env => ?_⟩
  · intro call args hargs hcall hroots
    refine ⟨_, hcoded.calculate hargs hcall hroots, fun hcommutes => ?_, fun hcommutes => ?_⟩
    · exact Expr.evalFused_fold_same hcommutes.upTo_eq _ _ e
    · exact Expr.evalFused_fold_same hcommutes _ _ e
  · rintro living hkeeps hidle rfl hfaithful args hargs
    have houtcome := c.compileScoped_outcome A .optimized s source false
    have hafter : k.backend = (c.compileScoped A .optimized s source false).context.backend :=
      hbackend.trans (congrArg (·.2.1) houtcome.terms).symm
    exact (Context.compileScoped_installed hkeeps hidle hresult).executes hafter
      (hfaithful.of_terms houtcome.terms) (hcoded.reach_le hargs)
  · rw [Expr.fold_of_args_eq_nil hargs env] at hcoded ⊢
    exact ⟨hcoded.pushes, rfl⟩

/-- The text `(16777217-16777216)*(x+x)` at three, on an interpreter and on a machine. The difference is
one, but not if its operands are narrowed first; the sum and the folded factor change sides. And
`x*(y-1)` at two NaNs, where they change sides too. -/
theorem compileScoped_computes_mixed_six :
    let source := "(16777217-16777216)*(x+x)"
    let soft : Context := ⟨.soft, .unoptimized, 0⟩
    let native : Context :=
      .ofBackend ⟨.streamed .whole 0, ⟨64, by decide⟩, fun _ _ => false⟩ .native .unoptimized
    (∃ k, (soft.compileScoped .whole .optimized ⟨["x"], 1⟩ source false).result = .ok k ∧
      ∀ call, k.calculate .whole call [⟨0x40400000⟩] = .ok ⟨0x40c00000⟩) ∧
    (∃ k, (native.compileScoped .whole .optimized ⟨["x"], 1⟩ source false).result = .ok k ∧
      k.calculate .whole
        (native.compileScoped .whole .optimized ⟨["x"], 1⟩ source false).context.call
        [⟨0x40400000⟩] = .ok ⟨0x40c00000⟩) ∧
    ∃ k, (soft.compileScoped .payload .optimized ⟨["x", "y"], 2⟩ "x*(y-1)" false).result = .ok k ∧
      ∃ x, (∀ call, k.calculate .payload call [⟨0x7fc00001⟩, ⟨0x7fc00002⟩] = .ok x) ∧
        x ≠ ⟨0x7fc00001⟩ ∧ x.Same ⟨0x7fc00001⟩ := by
  intro source soft native
  have hparse : Expr.parse .whole ⟨["x"], 1⟩ "(16777217-16777216)*(x+x)" =
      .ok (.binary .mul
        (.binary .sub (.num ⟨0x4170000010000000⟩) (.num ⟨0x4170000000000000⟩))
        (.binary .add (.arg 0) (.arg 0))) := by
    rfl
  refine ⟨?_, ?_, ?_⟩
  · obtain ⟨hcompiles, hcomputes⟩ :=
      compileScoped_computes_mixed .whole soft ⟨["x"], 1⟩ source false _ hparse
    obtain ⟨k, hk⟩ := hcompiles (by rintro _ ⟨⟩) (by rintro _ ⟨⟩)
    obtain ⟨hbackend, hnum, hvalue, -⟩ := hcomputes k hk
    refine ⟨k, hk, fun call => ?_⟩
    obtain ⟨x, hx, hmixed, -⟩ := hvalue call [⟨0x40400000⟩] ((hnum 1).2 (by simp [Expr.args]))
      (by rintro p entry rfl; contradiction) fun _ => Arithmetic.whole_rootsAgree
    rw [hx, hmixed Arithmetic.whole_commutes]
    rfl
  · have hwilling : native.Willing := by
      rintro _ ⟨⟩ n r
      rfl
    have hgenerates (p : Native.Program) : native.Generates p := by
      rintro _ ⟨⟩
      exact ⟨_, rfl⟩
    have hfaithful : native.Faithful .whole := by
      rintro _ ⟨⟩
      exact Native.Target.streamed_faithful .whole 0
    obtain ⟨hcompiles, hcomputes⟩ :=
      compileScoped_computes_mixed .whole native ⟨["x"], 1⟩ source false _ hparse
    obtain ⟨k, hk⟩ := hcompiles hwilling (hgenerates _)
    obtain ⟨-, hnum, hvalue, hexecutes, -⟩ := hcomputes k hk
    have hargs : k.numArgs ≤ 1 := (hnum 1).2 (by simp [Expr.args])
    obtain ⟨x, hx, hmixed, -⟩ := hvalue _ [⟨0x40400000⟩] hargs
      (hexecutes [] (.fresh _ _ _) (.fresh _ _ _) rfl hfaithful _ hargs) fun _ => Arithmetic.whole_rootsAgree
    refine ⟨k, hk, ?_⟩
    rw [hx, hmixed Arithmetic.whole_commutes]
    rfl
  · have hparse : Expr.parse .payload ⟨["x", "y"], 2⟩ "x*(y-1)" =
        .ok (.binary .mul (.arg 0) (.binary .sub (.arg 1) (.num ⟨0x3ff0000000000000⟩))) := by
      rfl
    obtain ⟨hcompiles, hcomputes⟩ :=
      compileScoped_computes_mixed .payload soft ⟨["x", "y"], 2⟩ "x*(y-1)" false _ hparse
    have hresult : ∃ k, (soft.compileScoped .payload .optimized ⟨["x", "y"], 2⟩ "x*(y-1)"
        false).result = .ok k ∧ ∀ call,
          k.calculate .payload call [⟨0x7fc00001⟩, ⟨0x7fc00002⟩] = .ok ⟨0x7fc00002⟩ :=
      ⟨_, rfl, fun _ => rfl⟩
    obtain ⟨k, hk, hcalculate⟩ := hresult
    obtain ⟨hbackend, hnum, hvalue, -⟩ := hcomputes k hk
    obtain ⟨x, hx, -, hsame⟩ := hvalue (fun _ _ => .nan) [⟨0x7fc00001⟩, ⟨0x7fc00002⟩]
      ((hnum 2).2 (by simp [Expr.args])) (by rintro p entry rfl; contradiction)
      fun _ => Arithmetic.payload_rootsAgree
    obtain rfl : x = ⟨0x7fc00002⟩ := Except.ok.inj (hx.symm.trans (hcalculate _))
    exact ⟨k, hk, _, hcalculate, by decide, hsame Arithmetic.payload_commutesUpTo⟩

end Reckoner
